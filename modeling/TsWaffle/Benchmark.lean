import TsWaffle.Dispatching

namespace TsWaffle
open Text

-- An element of trace_vector: keys, and values that are empty for a GET batch.
abbrev Batch := List Str × List Str

-- The local variables of load_trace; the rows come from the trace file.
structure Loader where
  trace : List Batch
  put_keys : List Str
  put_values : List Str
  get_keys : List Str
  processing_put : Bool

namespace Loader

def start : Loader := ⟨[],[],[],[],true⟩
def pushGet (s : Loader) : Loader := {s with trace:=s.trace ++ [(s.get_keys,[])],get_keys:=[]}
def pushPut (s : Loader) : Loader := {s with trace:=s.trace ++ [(s.put_keys,s.put_values)],put_keys:=[],put_values:=[]}

-- A full buffer is pushed first; a row of the other kind pushes the buffer that was
-- being filled, which may be empty.
def load (batch_count : Nat) (s : Loader) (row : Str × Str) : Loader :=
  if row.2 = [] then
    let s := if s.get_keys.length = batch_count then s.pushGet else s
    let s := if s.processing_put then {s.pushPut with processing_put:=false} else s
    {s with get_keys:=s.get_keys ++ [row.1]}
  else
    let s := if s.put_keys.length = batch_count then s.pushPut else s
    let s := if !s.processing_put then {s.pushGet with processing_put:=true} else s
    {s with put_keys:=s.put_keys ++ [row.1],put_values:=s.put_values ++ [row.2]}

def finish (s : Loader) : List Batch :=
  let s := if 0 < s.get_keys.length then s.pushGet else s
  let s := if 0 < s.put_keys.length then s.pushPut else s
  s.trace

end Loader

def load_trace (client_batch_size : Nat) (rows : List (Str × Str)) : List Batch :=
  (rows.foldl (Loader.load client_batch_size) .start).finish

-- run_benchmark sends a batch without values as a get_batch.
def Batch.message (b : Batch) : Message := if b.2 = [] then .get_batch b.1 else .put_batch b.1 b.2

def Batch.rows (b : Batch) : List (Str × Str) := if b.2 = [] then b.1.map (fun key => (key,[])) else b.1.zip b.2

-- Only GETs, or only PUTs.
def Batch.Uniform (b : Batch) : Prop := b.2 = [] ∨ b.1.length = b.2.length ∧ ∀ value ∈ b.2, value ≠ []

structure Batch.Fits (size : Nat) (b : Batch) : Prop where
  uniform : b.Uniform
  nonempty : 1 ≤ b.1.length
  bounded : b.1.length ≤ size

structure Batched (size : Nat) (rows : List (Str × Str)) (trace : List Batch) : Prop where
  whole : trace.flatMap Batch.rows = rows
  each : ∀ b ∈ trace, b.Fits size

def Batch.push (b : Batch) (row : Str × Str) : Batch :=
  (b.1 ++ [row.1],if row.2 = [] then [] else b.2 ++ [row.2])

theorem Batch.rows_zip {b : Batch} (matched : b.1.length = b.2.length) : b.rows = b.1.zip b.2 := by
  by_cases none : b.2 = []
  · have keys : b.1 = [] := by simpa [none] using matched
    simp [Batch.rows,none,keys]
  · exact if_neg none

theorem Batch.rows_push {b : Batch} {row : Str × Str} (gets : row.2 = [] → b.2 = [])
    (puts : row.2 ≠ [] → b.1.length = b.2.length) : (b.push row).rows = b.rows ++ [row] := by
  obtain ⟨key,value⟩ := row
  by_cases get : value = []
  · subst get
    simp [Batch.rows,Batch.push,gets]
  · have matched := puts get
    have extended : (b.push (key,value)).rows = (b.1 ++ [key]).zip (b.2 ++ [value]) := by simp [Batch.rows,Batch.push,get]
    rw [extended,Batch.rows_zip matched,List.zip_append matched]
    rfl

theorem Batched.snoc {trace : List Batch} (cut : Batched size rows trace) {b : Batch} (fits : b.Fits size) :
    Batched size (rows ++ b.rows) (trace ++ [b]) := by
  refine ⟨by simp [cut.whole],?_⟩
  intro c member
  rcases List.mem_append.mp member with old | new
  · exact cut.each c old
  · rw [List.mem_singleton.mp new]
    exact fits

namespace Loader

-- The batch being filled.
def current (s : Loader) : Batch := if s.processing_put then (s.put_keys,s.put_values) else (s.get_keys,[])

-- The buffer of the other kind is empty.
structure Tidy (s : Loader) : Prop where
  putting : s.processing_put = true → s.get_keys = []
  getting : s.processing_put = false → s.put_keys = []
  matched : s.put_keys.length = s.put_values.length
  stored : ∀ value ∈ s.put_values, value ≠ []

theorem start_tidy : start.Tidy := ⟨fun _ => rfl,fun _ => rfl,rfl,by simp [start]⟩

theorem Tidy.uniform {s : Loader} (tidy : s.Tidy) : s.current.Uniform := by
  unfold current
  split
  · exact .inr ⟨tidy.matched,tidy.stored⟩
  · exact .inl rfl

-- A row either joins the batch being filled, which has its kind and is not full,
-- or that batch is pushed and the row opens the next one.
inductive Loads (size : Nat) (s : Loader) (row : Str × Str) (t : Loader) : Prop where
  | joins (kind : row.2 = [] ↔ s.processing_put = false) (room : s.current.1.length ≠ size)
      (trace : t.trace = s.trace) (current : t.current = s.current.push row)
  | opens (closes : (row.2 = [] ↔ s.processing_put = true) ∨ s.current.1.length = size)
      (trace : t.trace = s.trace ++ [s.current]) (current : t.current = Batch.push ([],[]) row)

theorem load_get {s : Loader} (tidy : s.Tidy) (positive : 1 ≤ size) (key : Str) :
    (s.load size (key,[])).Tidy ∧ Loads size s (key,[]) (s.load size (key,[])) := by
  obtain ⟨trace,put_keys,put_values,get_keys,processing_put⟩ := s
  cases processing_put with
  | true =>
    have none : get_keys = [] := tidy.putting rfl
    have room : ¬ 0 = size := by omega
    have loaded : load size ⟨trace,put_keys,put_values,get_keys,true⟩ (key,[]) =
        ⟨trace ++ [(put_keys,put_values)],[],[],[key],false⟩ := by simp [load,pushPut,none,room]
    rw [loaded]
    exact ⟨⟨by simp,by simp,rfl,by simp⟩,.opens (.inl (by simp)) rfl rfl⟩
  | false =>
    have rest : ∀ keys trace, Tidy ⟨trace,put_keys,put_values,keys,false⟩ :=
      fun _ _ => ⟨by simp,tidy.getting,tidy.matched,tidy.stored⟩
    by_cases full : get_keys.length = size
    · have loaded : load size ⟨trace,put_keys,put_values,get_keys,false⟩ (key,[]) =
          ⟨trace ++ [(get_keys,[])],put_keys,put_values,[key],false⟩ := by simp [load,pushGet,full]
      rw [loaded]
      exact ⟨rest _ _,.opens (.inr full) rfl rfl⟩
    · have loaded : load size ⟨trace,put_keys,put_values,get_keys,false⟩ (key,[]) =
          ⟨trace,put_keys,put_values,get_keys ++ [key],false⟩ := by simp [load,full]
      rw [loaded]
      exact ⟨rest _ _,.joins (by simp) full rfl rfl⟩

theorem load_put {s : Loader} (tidy : s.Tidy) (positive : 1 ≤ size) (key : Str) (put : value ≠ []) :
    (s.load size (key,value)).Tidy ∧ Loads size s (key,value) (s.load size (key,value)) := by
  obtain ⟨trace,put_keys,put_values,get_keys,processing_put⟩ := s
  cases processing_put with
  | true =>
    have none : get_keys = [] := tidy.putting rfl
    by_cases full : put_keys.length = size
    · have loaded : load size ⟨trace,put_keys,put_values,get_keys,true⟩ (key,value) =
          ⟨trace ++ [(put_keys,put_values)],[key],[value],get_keys,true⟩ := by simp [load,pushPut,put,full]
      rw [loaded]
      exact ⟨⟨fun _ => none,by simp,rfl,by simpa using put⟩,.opens (.inr full) rfl (by simp [current,Batch.push,put])⟩
    · have loaded : load size ⟨trace,put_keys,put_values,get_keys,true⟩ (key,value) =
          ⟨trace,put_keys ++ [key],put_values ++ [value],get_keys,true⟩ := by simp [load,put,full]
      have stored : ∀ v ∈ put_values ++ [value], v ≠ [] := by
        intro v member
        rcases List.mem_append.mp member with old | new
        · exact tidy.stored v old
        · rw [List.mem_singleton.mp new]
          exact put
      rw [loaded]
      refine ⟨⟨fun _ => none,by simp,?_,stored⟩,.joins (by simpa using put) full rfl (by simp [current,Batch.push,put])⟩
      simpa using tidy.matched
  | false =>
    have noKeys : put_keys = [] := tidy.getting rfl
    have noValues : put_values = [] := by simpa [noKeys] using tidy.matched.symm
    have room : ¬ 0 = size := by omega
    have loaded : load size ⟨trace,put_keys,put_values,get_keys,false⟩ (key,value) =
        ⟨trace ++ [(get_keys,[])],[key],[value],[],true⟩ := by simp [load,pushGet,put,noKeys,noValues,room]
    rw [loaded]
    exact ⟨⟨fun _ => rfl,by simp,rfl,by simpa using put⟩,
      .opens (.inl (by simpa using put)) rfl (by simp [current,Batch.push,put])⟩

theorem load_cases {s : Loader} (tidy : s.Tidy) (positive : 1 ≤ size) (row : Str × Str) :
    (s.load size row).Tidy ∧ Loads size s row (s.load size row) := by
  obtain ⟨key,value⟩ := row
  by_cases get : value = []
  · subst get
    exact load_get tidy positive key
  · exact load_put tidy positive key get

theorem current_push {s : Loader} (tidy : s.Tidy) (kind : row.2 = [] ↔ s.processing_put = false) :
    (s.current.push row).rows = s.current.rows ++ [row] := by
  cases mode : s.processing_put with
  | true =>
    have put : row.2 ≠ [] := by simp [kind,mode]
    exact Batch.rows_push (fun get => absurd get put) (fun _ => by simpa [current,mode] using tidy.matched)
  | false =>
    have get : row.2 = [] := kind.mpr mode
    exact Batch.rows_push (fun _ => by simp [current,mode]) (fun put => absurd get put)

-- The rows seen are those of the closed batches and of the one being filled;
-- lead stands before them.
structure Filling (size : Nat) (lead : List Batch) (seen : List (Str × Str)) (s : Loader) : Prop where
  tidy : s.Tidy
  fits : s.current.Fits size
  closed : ∃ earlier closed, s.trace = lead ++ closed ∧ Batched size earlier closed ∧ seen = earlier ++ s.current.rows

theorem opened_fits (tidy : (t : Loader).Tidy) (positive : 1 ≤ size) (opened : t.current = Batch.push ([],[]) row) :
    t.current.Fits size ∧ t.current.rows = [row] := by
  refine ⟨⟨tidy.uniform,?_,?_⟩,?_⟩
  · simp [opened,Batch.push]
  · simpa [opened,Batch.push] using positive
  · rw [opened,Batch.rows_push (fun _ => rfl) (fun _ => rfl)]
    rfl

theorem Filling.load {s : Loader} (filling : Filling size lead seen s) (positive : 1 ≤ size) (row : Str × Str) :
    Filling size lead (seen ++ [row]) (s.load size row) := by
  obtain ⟨earlier,closed,trace,cut,whole⟩ := filling.closed
  obtain ⟨tidy,loads⟩ := load_cases filling.tidy positive row
  cases loads with
  | joins kind room same pushed =>
    have bounded := filling.fits.bounded
    refine ⟨tidy,⟨tidy.uniform,?_,?_⟩,earlier,closed,same.trans trace,cut,?_⟩
    · simp [pushed,Batch.push]
    · simp only [pushed,Batch.push,List.length_append,List.length_singleton]
      omega
    · rw [pushed,current_push filling.tidy kind,whole,List.append_assoc]
  | opens _ more opened =>
    obtain ⟨fits,single⟩ := opened_fits tidy positive opened
    refine ⟨tidy,fits,seen,closed ++ [s.current],?_,?_,by rw [single]⟩
    · rw [more,trace,List.append_assoc]
    · rw [whole]
      exact cut.snoc filling.fits

theorem Filling.foldl {s : Loader} (filling : Filling size lead seen s) (positive : 1 ≤ size) (rows : List (Str × Str)) :
    Filling size lead (seen ++ rows) (rows.foldl (Loader.load size) s) := by
  induction rows generalizing s seen with
  | nil => simpa using filling
  | cons row rest ih => simpa using ih (filling.load positive row)

theorem Filling.finish {s : Loader} (filling : Filling size lead seen s) :
    ∃ batches, s.finish = lead ++ batches ∧ Batched size seen batches := by
  obtain ⟨earlier,closed,trace,cut,whole⟩ := filling.closed
  refine ⟨closed ++ [s.current],?_,?_⟩
  · have tidy := filling.tidy
    have nonempty := filling.fits.nonempty
    obtain ⟨before,put_keys,put_values,get_keys,processing_put⟩ := s
    cases processing_put with
    | true =>
      have none : get_keys = [] := tidy.putting rfl
      have some : 0 < put_keys.length := nonempty
      simp only at trace
      simp [Loader.finish,pushPut,current,none,some,trace]
    | false =>
      have none : put_keys = [] := tidy.getting rfl
      have some : 0 < get_keys.length := nonempty
      simp only at trace
      simp [Loader.finish,pushGet,current,none,some,trace]
  · rw [whole]
    exact cut.snoc filling.fits

end Loader

-- A trace that begins with a GET first pushes the put buffers, which are empty.
def leading : List (Str × Str) → List Batch
  | [] => []
  | row :: _ => if row.2 = [] then [([],[])] else []

theorem Loader.first_filling (positive : 1 ≤ size) (row : Str × Str) (rest : List (Str × Str)) :
    Filling size (leading (row :: rest)) [row] (start.load size row) := by
  obtain ⟨tidy,loads⟩ := load_cases start_tidy positive row
  cases loads with
  | joins kind room same pushed =>
    have put : row.2 ≠ [] := by simp [kind,start]
    obtain ⟨fits,single⟩ := opened_fits tidy positive pushed
    exact ⟨tidy,fits,[],[],by rw [same,leading,if_neg put]; rfl,⟨rfl,by simp⟩,single.symm⟩
  | opens closes more opened =>
    obtain ⟨fits,single⟩ := opened_fits tidy positive opened
    have get : row.2 = [] := by
      rcases closes with kind | full
      · exact kind.mpr rfl
      · exact absurd (show 0 = size from full) (by omega)
    exact ⟨tidy,fits,[],[],by rw [more,leading,if_pos get]; rfl,⟨rfl,by simp⟩,single.symm⟩

theorem load_trace_leading (positive : 1 ≤ size) (rows : List (Str × Str)) :
    ∃ batches, load_trace size rows = leading rows ++ batches ∧ Batched size rows batches := by
  cases rows with
  | nil => exact ⟨[],rfl,rfl,by simp⟩
  | cons row rest => exact ((Loader.first_filling positive row rest).foldl positive rest).finish

-- Exactly a GET at the beginning makes a batch without keys.
theorem load_trace_batched_iff (size : Nat) (rows : List (Str × Str)) (positive : 1 ≤ size) :
    Batched size rows (load_trace size rows) ↔ ∀ row ∈ rows.head?, row.2 ≠ [] := by
  obtain ⟨batches,shape,cut⟩ := load_trace_leading positive rows
  rw [shape]
  cases rows with
  | nil => simpa [leading] using cut
  | cons row rest =>
    by_cases get : row.2 = []
    · have empty : ¬ Batched size (row :: rest) (leading (row :: rest) ++ batches) := by
        intro batched
        have none := (batched.each ([],[]) (by simp [leading,get])).nonempty
        cases none
      simp [empty,get]
    · simpa [leading,get] using cut

def smallTrace : List (Str × Str) :=
  [(str "a@1",str "x"),(str "a@2",str "y"),(str "b@1",str "z"),(str "a@1@2",[]),(str "b@2",str "t")]

theorem load_trace_batched_small :
    load_trace 2 smallTrace = [([str "a@1",str "a@2"],[str "x",str "y"]),([str "b@1"],[str "z"]),([str "a@1@2"],[]),
      ([str "b@2"],[str "t"])] ∧ Batched 2 smallTrace (load_trace 2 smallTrace) :=
  ⟨by decide +kernel,(load_trace_batched_iff 2 smallTrace (by decide)).mpr (by decide +kernel)⟩

theorem load_trace_pushes_empty :
    load_trace 1 [(str "a@1@2",[])] = [([],[]),([str "a@1@2"],[])] ∧
      ¬ Batched 1 [(str "a@1@2",[])] (load_trace 1 [(str "a@1@2",[])]) := by
  refine ⟨by decide +kernel,?_⟩
  intro batched
  have none := (batched.each ([],[]) (by decide +kernel)).nonempty
  cases none

theorem put_futures_zip (values keys : List Str) (n : Nat) (enough : n+keys.length ≤ values.length) :
    put_futures values n keys = .ok ((keys.zip (values.drop n)).map (fun row => ⟨row.1,row.2⟩)) := by
  induction keys generalizing n with
  | nil => rfl
  | cons key rest ih =>
    rw [List.length_cons] at enough
    have inside : n < values.length := by omega
    have tail := ih (n+1) (by omega)
    rw [List.drop_eq_getElem_cons inside]
    simp only [put_futures,part,List.getElem?_eq_getElem inside,tail,bind,Except.bind,pure,Except.pure,List.zip_cons_cons,
      List.map_cons]

theorem Batch.message_operations {b : Batch} (uniform : b.Uniform) :
    b.message.operations = .ok (b.rows.map (fun row => ⟨row.1,row.2⟩)) := by
  by_cases get : b.2 = []
  · simp [Batch.message,Message.operations,Batch.rows,get]
  · have matched : b.1.length = b.2.length := by
      rcases uniform with none | put
      · exact absurd none get
      · exact put.1
    have queued := put_futures_zip b.2 b.1 0 (by omega)
    simpa [Batch.message,Message.operations,Batch.rows,get] using queued

-- The requests of a trace put its rows on the operation queue, each of them once
-- and in order, whether or not the first batch has keys.
theorem load_trace_operations (size : Nat) (rows : List (Str × Str)) (positive : 1 ≤ size) :
    (load_trace size rows).flatMap Batch.rows = rows ∧
      ∀ b ∈ load_trace size rows, b.message.operations = .ok (b.rows.map (fun row => ⟨row.1,row.2⟩)) := by
  obtain ⟨batches,shape,cut⟩ := load_trace_leading positive rows
  have empty : ∀ b ∈ leading rows, b = ([],[]) := by
    intro b member
    cases rows with
    | nil => cases member
    | cons row rest =>
      by_cases get : row.2 = []
      · simpa [leading,get] using member
      · simp [leading,get] at member
  rw [shape]
  constructor
  · have none : (leading rows).flatMap Batch.rows = [] := by
      apply List.flatMap_eq_nil_iff.mpr
      intro b member
      rw [empty b member]
      rfl
    rw [List.flatMap_append,none,cut.whole,List.nil_append]
  · intro b member
    apply Batch.message_operations
    rcases List.mem_append.mp member with first | later
    · rw [empty b first]
      exact .inl rfl
    · exact (cut.each b later).uniform

end TsWaffle
