import TsWaffle.Benchmark
import TsWaffle.Naming

namespace TsWaffle.TextTrace
open Text Substrings
variable {line : Str} {loaded : List Str × List Str} {size : Nat} {seen : List (Str × Str)} {trace : List Batch}

def space : UInt8 := chr ' '

-- op, key and val of a line. A line without a blank is its own key.
def fields (line : Str) : Except Fault (Str × Str × Str) := do
  let op ← slice line 0 (find line space 0)
  let key ← slice line (past (find line space 0)) none
  match find key space 0 with
  | none => return (op,key,[])
  | some pos => do
    let val ← slice key (past (some pos)) none
    let key ← slice key 0 (some pos)
    return (op,key,val)

-- The loop of getKeysValues in proxy_server.cpp.
def addKeyValue (loaded : List Str × List Str) (line : Str) : Except Fault (List Str × List Str) := do
  let (_,key,val) ← fields line
  if val = [] then .error .exit
  else if key = str "SET" then .error .exit
  else return (loaded.1 ++ [key],loaded.2 ++ [val])

def getKeysValues (file : Str) : Except Fault (List Str × List Str) := (getlines newline [] file).foldlM addKeyValue ([],[])

-- What genproxyServer writes.
def proxy_server_input (file : Str) : Str :=
  (getlines newline [] file).flatMap (fun line => str "SET " ++ line ++ str " test" ++ [newline])

-- What stands before the first blank, and behind it.
def head (text : Str) : Str := text.takeWhile (· ≠ space)
def tail (text : Str) : Str := (text.dropWhile (· ≠ space)).drop 1

def keyValue (line : Str) : Str × Str := if space ∈ line then (head (tail line),tail (tail line)) else (line,[])

theorem find_none {text : Str} {c : UInt8} (free : c ∉ text) : find text c 0 = none := by
  have absent : text.findIdx? (· == c) = none := by
    rw [List.findIdx?_eq_none_iff]
    intro x member
    rw [beq_eq_false_iff_ne]
    rintro rfl
    exact free member
  rw [find,List.drop_zero,absent,Option.map_none]

theorem find_first {a b : Str} {c : UInt8} (free : c ∉ a) : find (a ++ c :: b) c 0 = some a.length := by
  rw [find,List.drop_zero,findIdx_first free,Option.map_some,Nat.zero_add]

theorem slice_behind (a b : Str) (c : UInt8) : slice (a ++ c :: b) (a.length+1) none = .ok b := by
  have shape : a ++ c :: b = (a ++ [c]) ++ b := by simp
  have width : a.length+1 = (a ++ [c]).length := by simp
  rw [slice,shape,width,substr_rest]

theorem head_free {text : Str} (free : space ∉ text) : head text = text := by
  rw [head,List.takeWhile_eq_self_iff]
  intro b member
  rw [decide_eq_true_eq]
  rintro rfl
  exact free member

theorem head_tail {a b : Str} (free : space ∉ a) : head (a ++ space :: b) = a ∧ tail (a ++ space :: b) = b := by
  have plain : ∀ x ∈ a, decide (x ≠ space) = true := by
    intro x member
    rw [decide_eq_true_eq]
    rintro rfl
    exact free member
  constructor
  · rw [head,List.takeWhile_append_of_pos plain,List.takeWhile_cons_of_neg (by simp),List.append_nil]
  · rw [tail,List.dropWhile_append_of_pos plain,List.dropWhile_cons_of_neg (by simp)]
    rfl

theorem fields_bare (free : space ∉ line) : fields line = .ok (line,line,[]) := by
  have whole : substr line 0 none = some line := by simp [substr]
  simp only [fields,find_none free,past,slice,whole,bind,Except.bind,pure,Except.pure]

theorem fields_short {op key : Str} (free : space ∉ op) (free' : space ∉ key) :
    fields (op ++ space :: key) = .ok (op,key,[]) := by
  have front : slice (op ++ space :: key) 0 (some op.length) = .ok op := by rw [slice,substr_head]
  simp only [fields,find_first free,find_none free',past,front,slice_behind,bind,Except.bind,pure,Except.pure]

theorem fields_long {op key val : Str} (free : space ∉ op) (free' : space ∉ key) :
    fields (op ++ space :: (key ++ space :: val)) = .ok (op,key,val) := by
  have front : slice (op ++ space :: (key ++ space :: val)) 0 (some op.length) = .ok op := by rw [slice,substr_head]
  have second : slice (key ++ space :: val) 0 (some key.length) = .ok key := by rw [slice,substr_head]
  simp only [fields,find_first free,find_first free',past,front,second,slice_behind,bind,Except.bind,pure,Except.pure]

-- No line is out of range.
theorem fields_ok (line : Str) : fields line = .ok (head line,keyValue line) := by
  by_cases spaced : space ∈ line
  · obtain ⟨op,rest,rfl,free⟩ := List.eq_append_cons_of_mem spaced
    obtain ⟨first,behind⟩ := head_tail (b:=rest) free
    rw [keyValue,if_pos spaced,first,behind]
    by_cases valued : space ∈ rest
    · obtain ⟨key,val,rfl,free'⟩ := List.eq_append_cons_of_mem valued
      obtain ⟨second,last⟩ := head_tail (b:=val) free'
      rw [fields_long free free',second,last]
    · have nothing : tail rest = [] := by
        rw [tail,List.dropWhile_eq_nil_iff.mpr,List.drop_nil]
        intro b member
        rw [decide_eq_true_eq]
        rintro rfl
        exact valued member
      rw [fields_short free valued,head_free valued,nothing]
  · rw [fields_bare spaced,head_free spaced,keyValue,if_neg spaced]

-- A loop whose body is an assertion and an update.
theorem foldlM_asserting {σ α : Type} {fault : Fault} {step : σ → α → Except Fault σ} {good : α → Prop}
    {update : σ → α → σ} (passes : ∀ s x, good x → step s x = .ok (update s x)) (stops : ∀ s x, ¬ good x → step s x = .error fault)
    (xs : List α) (s t : σ) :
    xs.foldlM step s = .ok t ↔ (∀ x ∈ xs, good x) ∧ t = xs.foldl update s := by
  induction xs generalizing s with
  | nil =>
    rw [List.foldlM_nil,List.foldl_nil]
    constructor
    · intro same
      cases same
      exact ⟨fun _ member => absurd member List.not_mem_nil,rfl⟩
    · rintro ⟨_,rfl⟩
      rfl
  | cons x rest ih =>
    rw [List.foldlM_cons,List.foldl_cons,List.forall_mem_cons]
    by_cases fine : good x
    · rw [passes s x fine]
      exact (ih (update s x)).trans ⟨fun h => ⟨⟨fine,h.1⟩,h.2⟩,fun h => ⟨h.1.2,h.2⟩⟩
    · rw [stops s x fine]
      exact ⟨fun same => (by cases same),fun h => absurd h.1.1 fine⟩

theorem addKeyValue_ok (loaded : List Str × List Str) (line : Str)
    (proper : (keyValue line).2 ≠ [] ∧ (keyValue line).1 ≠ str "SET") :
    addKeyValue loaded line = .ok (loaded.1 ++ [(keyValue line).1],loaded.2 ++ [(keyValue line).2]) := by
  simp only [addKeyValue,fields_ok,bind,Except.bind,if_neg proper.1,if_neg proper.2,pure,Except.pure]

theorem addKeyValue_exit (loaded : List Str × List Str) (line : Str)
    (improper : ¬ ((keyValue line).2 ≠ [] ∧ (keyValue line).1 ≠ str "SET")) : addKeyValue loaded line = .error .exit := by
  simp only [addKeyValue,fields_ok,bind,Except.bind]
  split
  · rfl
  · rename_i filled
    rw [if_pos (by_contra fun other => improper ⟨filled,other⟩)]

theorem foldl_columns (lines : List Str) (loaded : List Str × List Str) :
    lines.foldl (fun loaded line => (loaded.1 ++ [(keyValue line).1],loaded.2 ++ [(keyValue line).2])) loaded =
      (loaded.1 ++ lines.map (fun line => (keyValue line).1),loaded.2 ++ lines.map (fun line => (keyValue line).2)) := by
  induction lines generalizing loaded with
  | nil => simp
  | cons line rest ih => simp [ih]

theorem getKeysValues_iff (file : Str) : getKeysValues file = .ok loaded ↔
    (∀ line ∈ getlines newline [] file, (keyValue line).2 ≠ [] ∧ (keyValue line).1 ≠ str "SET") ∧
      loaded = ((getlines newline [] file).map (fun line => (keyValue line).1),
        (getlines newline [] file).map (fun line => (keyValue line).2)) := by
  rw [getKeysValues,foldlM_asserting addKeyValue_ok addKeyValue_exit,foldl_columns,List.nil_append,List.nil_append]

theorem getlines_free {c : UInt8} {part text : Str} (free : c ∉ part) (member : line ∈ getlines c part text) :
    c ∉ line := by
  induction text generalizing part with
  | nil =>
    simp only [getlines] at member
    split at member
    · cases member
    · rw [List.mem_singleton.mp member]
      simpa using free
  | cons b rest ih =>
    simp only [getlines] at member
    split at member
    · rcases List.mem_cons.mp member with rfl | later
      · simpa using free
      · exact ih List.not_mem_nil later
    · rename_i other
      refine ih ?_ member
      rw [List.mem_cons,not_or]
      exact ⟨fun same => other same.symm,free⟩

-- The lines of a file that is written line by line.
theorem getlines_written {α : Type} (lines : List α) (text : α → Str) (plain : ∀ x ∈ lines, newline ∉ text x) :
    getlines newline [] (lines.flatMap (fun x => text x ++ [newline])) = lines.map text := by
  have shape : lines.flatMap (fun x => text x ++ [newline]) = item_file (lines.map text) := by
    rw [item_file,List.flatMap_map]
  rw [shape,getlines_items]
  intro written member
  obtain ⟨x,listed,rfl⟩ := List.mem_map.mp member
  exact plain x listed

theorem server_lines (file : Str) : getlines newline [] (proxy_server_input file) =
    (getlines newline [] file).map (fun line => str "SET " ++ line ++ str " test") := by
  refine getlines_written _ (fun line => str "SET " ++ line ++ str " test") ?_
  intro line member
  have free := getlines_free List.not_mem_nil member
  have constants : newline ∉ str "SET " ∧ newline ∉ str " test" := by decide
  simp only [List.mem_append,not_or]
  exact ⟨⟨constants.1,free⟩,constants.2⟩

theorem keyValue_server (line : Str) :
    keyValue (str "SET " ++ line ++ str " test") = (head line,tail (line ++ str " test")) := by
  have shape : str "SET " ++ line ++ str " test" = str "SET" ++ space :: (line ++ space :: str "test") := by
    rw [List.append_assoc]
    rfl
  have free : space ∉ str "SET" := by decide
  have same : line ++ str " test" = line ++ space :: str "test" := rfl
  have first : head (line ++ space :: str "test") = head line := by
    by_cases spaced : space ∈ line
    · obtain ⟨key,rest,rfl,free'⟩ := List.eq_append_cons_of_mem spaced
      rw [List.append_assoc,List.cons_append,(head_tail free').1,(head_tail free').1]
    · rw [(head_tail spaced).1,head_free spaced]
  rw [shape,keyValue,if_pos (by simp),(head_tail free).2,first,same]

theorem tail_filled (line : Str) : tail (line ++ str " test") ≠ [] := by
  have same : line ++ str " test" = line ++ space :: str "test" := rfl
  rw [same]
  by_cases spaced : space ∈ line
  · obtain ⟨key,rest,rfl,free⟩ := List.eq_append_cons_of_mem spaced
    rw [List.append_assoc,List.cons_append,(head_tail free).2]
    simp
  · rw [(head_tail spaced).2]
    decide

theorem bucketKey_spaceless {item : Str} (ts : Int) (free : space ∉ item) : space ∉ bucketKey item ts := by
  have stamp : space ∉ to_string ts := separator_notMem ts _ (by decide) (by decide)
  have joint : space ≠ chr '@' := by decide
  simp only [bucketKey,List.mem_append,List.mem_cons,not_or]
  exact ⟨free,joint,stamp⟩

theorem bucketKey_not_set {item : Str} {ts : Int} : bucketKey item ts ≠ str "SET" := by
  have plain : chr '@' ∉ str "SET" := by decide
  intro same
  apply plain
  rw [← same]
  simp [bucketKey]

-- The server reads the file it is given line by line unless a line's first word is
-- SET: that word is the key. A file of bucket keys is one that init can load.
theorem server_file_read_back (file : Str) :
    (∀ loaded, getKeysValues (proxy_server_input file) = .ok loaded ↔
      (∀ line ∈ getlines newline [] file, head line ≠ str "SET") ∧
        loaded = ((getlines newline [] file).map head,(getlines newline [] file).map (fun line => tail (line ++ str " test")))) ∧
    ((∀ line ∈ getlines newline [] file, ∃ item ts, WellFormed item ts ∧ space ∉ item ∧ line = bucketKey item ts) →
      (getlines newline [] file).Nodup →
      ∃ keys values, getKeysValues (proxy_server_input file) = .ok (keys,values) ∧ keys = getlines newline [] file ∧
        values = List.replicate keys.length (str "test") ∧ Loadable (keys.zip values)) := by
  have accepted : ∀ loaded, getKeysValues (proxy_server_input file) = .ok loaded ↔
      (∀ line ∈ getlines newline [] file, head line ≠ str "SET") ∧
        loaded = ((getlines newline [] file).map head,
          (getlines newline [] file).map (fun line => tail (line ++ str " test"))) := by
    intro loaded
    rw [getKeysValues_iff,server_lines,List.forall_mem_map]
    simp only [keyValue_server,List.map_map,Function.comp_def,ne_eq,tail_filled,not_false_eq_true,true_and]
  refine ⟨accepted,?_⟩
  generalize getlines newline [] file = lines at accepted
  intro named distinct
  have bare : ∀ line ∈ lines, head line = line ∧ line ≠ str "SET" ∧ tail (line ++ str " test") = str "test" := by
    intro line member
    obtain ⟨item,ts,_,free,rfl⟩ := named line member
    have spaceless := bucketKey_spaceless ts free
    exact ⟨head_free spaceless,bucketKey_not_set,(head_tail spaceless).2⟩
  have keys : lines.map head = lines := (List.map_congr_left fun line member => (bare line member).1).trans (List.map_id _)
  have values : lines.map (fun line => tail (line ++ str " test")) = List.replicate lines.length (str "test") := by
    rw [List.map_congr_left fun line member => (bare line member).2.2,List.map_const']
  refine ⟨lines,List.replicate lines.length (str "test"),?_,rfl,rfl,?_⟩
  · rw [accepted,keys,values]
    refine ⟨?_,rfl⟩
    intro line member
    rw [(bare line member).1]
    exact (bare line member).2.1
  · have column : (lines.zip (List.replicate lines.length (str "test"))).map Prod.fst = lines :=
      List.map_fst_zip (by rw [List.length_replicate])
    refine ⟨?_,by rwa [column]⟩
    intro kv member
    obtain ⟨item,ts,proper,_,name⟩ := named kv.1 (by rw [← column]; exact List.mem_map_of_mem member)
    exact ⟨item,ts,proper,name⟩

example : getKeysValues (proxy_server_input (str "a@1\nb@2 x")) = .ok ([str "a@1",str "b@2"],[str "test",str "x test"]) := by
  decide +kernel

-- The loop's buffers in load_trace of proxy_benchmark.cpp.
structure Buffers where
  trace : List Batch
  get_keys : List Str
  put_keys : List Str
  put_values : List Str

namespace Buffers

def start : Buffers := ⟨[],[],[],[]⟩
def pushGet (s : Buffers) : Buffers := {s with trace:=s.trace ++ [(s.get_keys,[])],get_keys:=[]}
def pushPut (s : Buffers) : Buffers := {s with trace:=s.trace ++ [(s.put_keys,s.put_values)],put_keys:=[],put_values:=[]}

-- Each kind has a buffer of its own, which is pushed once it is full.
def add (client_batch_size : Nat) (s : Buffers) (row : Str × Str) : Buffers :=
  if row.2 = [] then
    let s := {s with get_keys:=s.get_keys ++ [row.1]}
    if s.get_keys.length = client_batch_size then s.pushGet else s
  else
    let s := {s with put_keys:=s.put_keys ++ [row.1],put_values:=s.put_values ++ [row.2]}
    if s.put_keys.length = client_batch_size then s.pushPut else s

def addLine (client_batch_size : Nat) (s : Buffers) (line : Str) : Except Fault Buffers := do
  let (_,key,val) ← fields line
  let s := s.add client_batch_size (key,val)
  if key = str "PUT" then .error .exit
  else if key = str "GET" then .error .exit
  else return s

def finish (s : Buffers) : List Batch :=
  let s := if 0 < s.get_keys.length then s.pushGet else s
  let s := if 0 < s.put_keys.length then s.pushPut else s
  s.trace

end Buffers

def load_trace (file : Str) (client_batch_size : Nat) : Except Fault (List Batch) := do
  let s ← (getlines newline [] file).foldlM (Buffers.addLine client_batch_size) .start
  return s.finish

def gets (rows : List (Str × Str)) : List (Str × Str) := rows.filter (fun row => row.2 = [])
def puts (rows : List (Str × Str)) : List (Str × Str) := rows.filter (fun row => row.2 ≠ [])

-- Rows sorted by kind and cut to batches: each kind keeps its order, and all its
-- batches but the last one are full.
structure Sorted (size : Nat) (rows : List (Str × Str)) (trace : List Batch) : Prop where
  gets : gets (trace.flatMap Batch.rows) = gets rows
  puts : puts (trace.flatMap Batch.rows) = puts rows
  each : ∀ b ∈ trace, b.Fits size
  count : trace.length = (TextTrace.gets rows).length ⌈/⌉ size+(TextTrace.puts rows).length ⌈/⌉ size

namespace Buffers

def getBatch (s : Buffers) : Batch := (s.get_keys,[])
def putBatch (s : Buffers) : Batch := (s.put_keys,s.put_values)

-- The batches pushed and the two buffers hold the rows seen.
structure Sorting (seen : List (Str × Str)) (s : Buffers) : Prop where
  gets : gets (s.trace.flatMap Batch.rows) ++ s.getBatch.rows = gets seen
  puts : puts (s.trace.flatMap Batch.rows) ++ s.putBatch.rows = puts seen
  matched : s.put_keys.length = s.put_values.length
  stored : ∀ value ∈ s.put_values, value ≠ []

-- Only full batches are pushed, and no buffer is full.
structure Cut (size : Nat) (s : Buffers) : Prop where
  each : ∀ b ∈ s.trace, b.Uniform ∧ b.1.length = size
  getRoom : s.get_keys.length < size
  putRoom : s.put_keys.length < size

end Buffers

theorem get_rows (keys : List Str) :
    gets (Batch.rows (keys,[])) = Batch.rows (keys,[]) ∧ puts (Batch.rows (keys,[])) = [] := by
  have plain : ∀ row ∈ Batch.rows (keys,[]), row.2 = [] := by
    intro row member
    obtain ⟨key,_,rfl⟩ := List.mem_map.mp member
    rfl
  constructor
  · exact List.filter_eq_self.mpr fun row member => by simpa using plain row member
  · exact List.filter_eq_nil_iff.mpr fun row member => by simpa using plain row member

theorem put_rows {b : Batch} (matched : b.1.length = b.2.length) (stored : ∀ value ∈ b.2, value ≠ []) :
    gets b.rows = [] ∧ puts b.rows = b.rows := by
  have valued : ∀ row ∈ b.rows, row.2 ≠ [] := by
    intro row member
    rw [Batch.rows_zip matched] at member
    exact stored row.2 (List.of_mem_zip member).2
  constructor
  · exact List.filter_eq_nil_iff.mpr fun row member => by simpa using valued row member
  · exact List.filter_eq_self.mpr fun row member => by simpa using valued row member

theorem gets_append (one two : List (Str × Str)) : gets (one ++ two) = gets one ++ gets two := List.filter_append ..
theorem puts_append (one two : List (Str × Str)) : puts (one ++ two) = puts one ++ puts two := List.filter_append ..

namespace Buffers
variable {s : Buffers}

theorem Sorting.takeGet (sorting : s.Sorting seen) (key : Str) :
    Sorting (seen ++ [(key,[])]) {s with get_keys:=s.get_keys ++ [key]} := by
  refine ⟨?_,?_,sorting.matched,sorting.stored⟩
  · have more : getBatch {s with get_keys:=s.get_keys ++ [key]} = s.getBatch.push (key,[]) := rfl
    rw [more,Batch.rows_push (fun _ => rfl) (fun put => absurd rfl put),← List.append_assoc,gets_append]
    exact congrArg (· ++ [(key,[])]) sorting.gets
  · rw [puts_append]
    exact sorting.puts.trans (List.append_nil _).symm

theorem Sorting.takePut (sorting : s.Sorting seen) (row : Str × Str) (put : row.2 ≠ []) :
    Sorting (seen ++ [row]) {s with put_keys:=s.put_keys ++ [row.1],put_values:=s.put_values ++ [row.2]} := by
  refine ⟨?_,?_,?_,?_⟩
  · have other : TextTrace.gets [row] = [] := List.filter_cons_of_neg (by simpa using put)
    rw [gets_append,other,List.append_nil]
    exact sorting.gets
  · have more :
        putBatch {s with put_keys:=s.put_keys ++ [row.1],put_values:=s.put_values ++ [row.2]} = s.putBatch.push row := by
      simp [putBatch,Batch.push,put]
    have own : TextTrace.puts [row] = [row] := List.filter_cons_of_pos (by simpa using put)
    rw [more,Batch.rows_push (fun get => absurd get put) (fun _ => sorting.matched),← List.append_assoc,puts_append,own]
    exact congrArg (· ++ [row]) sorting.puts
  · simpa using sorting.matched
  · intro value member
    rcases List.mem_append.mp member with old | new
    · exact sorting.stored value old
    · rw [List.mem_singleton.mp new]
      exact put

theorem Sorting.pushGet (sorting : s.Sorting seen) : s.pushGet.Sorting seen := by
  obtain ⟨own,none⟩ := get_rows s.get_keys
  have whole : s.pushGet.trace.flatMap Batch.rows = s.trace.flatMap Batch.rows ++ s.getBatch.rows := by
    simp [Buffers.pushGet,getBatch]
  refine ⟨?_,?_,sorting.matched,sorting.stored⟩
  · rw [whole,gets_append,getBatch,own]
    exact (List.append_nil _).trans sorting.gets
  · rw [whole,puts_append,getBatch,none,List.append_nil]
    exact sorting.puts

theorem Sorting.pushPut (sorting : s.Sorting seen) : s.pushPut.Sorting seen := by
  obtain ⟨none,own⟩ := put_rows (b:=s.putBatch) sorting.matched sorting.stored
  have whole : s.pushPut.trace.flatMap Batch.rows = s.trace.flatMap Batch.rows ++ s.putBatch.rows := by
    simp [Buffers.pushPut,putBatch]
  refine ⟨?_,?_,rfl,fun value member => absurd member List.not_mem_nil⟩
  · rw [whole,gets_append,none,List.append_nil]
    exact sorting.gets
  · rw [whole,puts_append,own]
    exact (List.append_nil _).trans sorting.puts

theorem Sorting.add (sorting : s.Sorting seen) (size : Nat) (row : Str × Str) : (s.add size row).Sorting (seen ++ [row]) := by
  obtain ⟨key,value⟩ := row
  by_cases get : value = []
  · subst get
    have taken := sorting.takeGet key
    simp only [Buffers.add,if_true]
    split
    · exact taken.pushGet
    · exact taken
  · have taken := sorting.takePut (key,value) get
    simp only [Buffers.add,if_neg get]
    split
    · exact taken.pushPut
    · exact taken

theorem Cut.add (cut : s.Cut size) (sorting : s.Sorting seen) (row : Str × Str) : (s.add size row).Cut size := by
  obtain ⟨key,value⟩ := row
  have getRoom := cut.getRoom
  have putRoom := cut.putRoom
  by_cases get : value = []
  · subst get
    simp only [Buffers.add,if_true]
    split
    · rename_i full
      refine ⟨?_,by simpa [Buffers.pushGet] using Nat.zero_lt_of_lt getRoom,putRoom⟩
      intro b member
      rcases List.mem_append.mp member with old | new
      · exact cut.each b old
      · rw [List.mem_singleton.mp new]
        exact ⟨.inl rfl,full⟩
    · rename_i room
      refine ⟨cut.each,?_,putRoom⟩
      simp only [List.length_append,List.length_singleton] at room ⊢
      omega
  · have taken := sorting.takePut (key,value) get
    simp only [Buffers.add,if_neg get]
    split
    · rename_i full
      refine ⟨?_,getRoom,by simpa [Buffers.pushPut] using Nat.zero_lt_of_lt putRoom⟩
      intro b member
      rcases List.mem_append.mp member with old | new
      · exact cut.each b old
      · rw [List.mem_singleton.mp new]
        exact ⟨.inr ⟨taken.matched,taken.stored⟩,full⟩
    · rename_i room
      refine ⟨cut.each,getRoom,?_⟩
      simp only [List.length_append,List.length_singleton] at room ⊢
      omega

theorem sorted_run (rows : List (Str × Str)) (sorting : s.Sorting seen) (cut : s.Cut size) :
    (rows.foldl (Buffers.add size) s).Sorting (seen ++ rows) ∧ (rows.foldl (Buffers.add size) s).Cut size := by
  induction rows generalizing s seen with
  | nil => exact ⟨by rwa [List.append_nil],cut⟩
  | cons row rest ih =>
    have next := ih (sorting.add size row) (cut.add sorting row)
    rwa [List.append_assoc] at next

-- What the end of the file pushes of a buffer.
def leftover (b : Batch) : List Batch := if 0 < b.1.length then [b] else []

theorem leftover_rows (b : Batch) : (leftover b).flatMap Batch.rows = b.rows := by
  unfold leftover
  split
  · rw [List.flatMap_singleton]
  · rename_i empty
    have none : b.1 = [] := List.length_eq_zero_iff.mp (by omega)
    rw [Batch.rows,none]
    simp

theorem finish_eq (s : Buffers) : s.finish = s.trace ++ leftover s.getBatch ++ leftover s.putBatch := by
  unfold finish leftover
  by_cases getting : 0 < s.get_keys.length
  · by_cases putting : 0 < s.put_keys.length
    · simp [getBatch,putBatch,pushGet,pushPut,getting,putting]
    · simp [getBatch,putBatch,pushGet,getting,putting]
  · by_cases putting : 0 < s.put_keys.length
    · simp [getBatch,putBatch,pushPut,getting,putting]
    · simp [getBatch,putBatch,getting,putting]

theorem length_leftover (b : Batch) : (leftover b).length = if 0 < b.1.length then 1 else 0 := by
  unfold leftover
  split <;> rfl

-- Full batches of a kind hold so many of its rows.
theorem full_lengths (each : ∀ b ∈ trace, b.Uniform ∧ b.1.length = size) :
    (gets (trace.flatMap Batch.rows)).length = size*trace.countP (fun b => b.2 = []) ∧
      (puts (trace.flatMap Batch.rows)).length = size*trace.countP (fun b => ¬ b.2 = []) := by
  induction trace with
  | nil => exact ⟨rfl,rfl⟩
  | cons b rest ih =>
    obtain ⟨getCount,putCount⟩ := ih (fun c member => each c (List.mem_cons_of_mem _ member))
    obtain ⟨uniform,full⟩ := each b List.mem_cons_self
    rw [List.flatMap_cons,gets_append,puts_append,List.length_append,List.length_append,List.countP_cons,List.countP_cons,
      getCount,putCount]
    by_cases get : b.2 = []
    · obtain ⟨keys,values⟩ := b
      cases get
      obtain ⟨own,none⟩ := get_rows keys
      have width : (Batch.rows (keys,[])).length = size := by rw [← full]; simp [Batch.rows]
      rw [own,none,width]
      simp only [decide_true,not_true,decide_false,if_true,List.length_nil]
      exact ⟨by ring,by simp⟩
    · obtain ⟨matched,stored⟩ := uniform.resolve_left get
      obtain ⟨none,own⟩ := put_rows matched stored
      have width : b.rows.length = size := by rw [Batch.rows_zip matched,List.length_zip,← matched,full,Nat.min_self]
      rw [own,none,width]
      simp only [get,not_false_eq_true,decide_true,decide_false,if_true,List.length_nil]
      exact ⟨by simp,by ring⟩

theorem ceil_full {k r : Nat} (below : r < size) : (size*k+r) ⌈/⌉ size = k+if 0 < r then 1 else 0 := by
  have positive : 0 < size := Nat.zero_lt_of_lt below
  have split : size*k+r+size-1 = size*k+(r+size-1) := by omega
  rw [Nat.ceilDiv_eq_add_pred_div,split,Nat.mul_add_div positive]
  congr 1
  split
  · rw [Nat.div_eq_of_lt_le] <;> omega
  · exact Nat.div_eq_of_lt (by omega)

theorem sorted_trace (positive : 1 ≤ size) (rows : List (Str × Str)) :
    Sorted size rows (rows.foldl (Buffers.add size) start).finish := by
  have initial : Sorting [] start := ⟨rfl,rfl,rfl,fun _ member => absurd member List.not_mem_nil⟩
  have empty : Cut size start := ⟨fun _ member => absurd member List.not_mem_nil,positive,positive⟩
  obtain ⟨sorting,cut⟩ := sorted_run rows initial empty
  rw [List.nil_append] at sorting
  generalize rows.foldl (Buffers.add size) start = s at sorting cut
  obtain ⟨getOwn,getNone⟩ := get_rows s.get_keys
  obtain ⟨putNone,putOwn⟩ := put_rows (b:=s.putBatch) sorting.matched sorting.stored
  obtain ⟨getCount,putCount⟩ := full_lengths cut.each
  have getLength := congrArg List.length sorting.gets
  have putLength := congrArg List.length sorting.puts
  have getWidth : s.getBatch.rows.length = s.get_keys.length := by simp [getBatch,Batch.rows]
  have putWidth : s.putBatch.rows.length = s.put_keys.length := by
    rw [Batch.rows_zip sorting.matched,List.length_zip,putBatch,← sorting.matched,Nat.min_self]
  rw [List.length_append,getCount,getWidth] at getLength
  rw [List.length_append,putCount,putWidth] at putLength
  rw [finish_eq]
  refine ⟨?_,?_,?_,?_⟩
  · rw [List.flatMap_append,List.flatMap_append,leftover_rows,leftover_rows,gets_append,gets_append,putNone,List.append_nil,
      getBatch,getOwn]
    exact sorting.gets
  · rw [List.flatMap_append,List.flatMap_append,leftover_rows,leftover_rows,puts_append,puts_append,putOwn,getBatch,getNone,
      List.append_nil]
    exact sorting.puts
  · intro b member
    rcases List.mem_append.mp member with before | last
    · rcases List.mem_append.mp before with pushed | rest
      · obtain ⟨uniform,full⟩ := cut.each b pushed
        exact ⟨uniform,by omega,by omega⟩
      · unfold leftover at rest
        split at rest
        · rename_i some_
          rw [List.mem_singleton.mp rest]
          exact ⟨.inl rfl,some_,Nat.le_of_lt cut.getRoom⟩
        · cases rest
    · unfold leftover at last
      split at last
      · rename_i some_
        rw [List.mem_singleton.mp last]
        exact ⟨.inr ⟨sorting.matched,sorting.stored⟩,some_,Nat.le_of_lt cut.putRoom⟩
      · cases last
  · have kinds : s.trace.length = s.trace.countP (fun b => b.2 = [])+s.trace.countP (fun b => ¬ b.2 = []) := by
      rw [List.length_eq_countP_add_countP (fun b => b.2 = [])]
      simp only [decide_eq_true_eq]
    rw [← getLength,← putLength,ceil_full cut.getRoom,ceil_full cut.putRoom,List.length_append,List.length_append,
      length_leftover,length_leftover,kinds,getBatch,putBatch]
    dsimp only
    omega

end Buffers

-- The names the loop of load_trace stops at.
def Passing (key : Str) : Prop := key ≠ str "PUT" ∧ key ≠ str "GET"

instance : Decidable (Passing key) := inferInstanceAs (Decidable (_ ∧ _))

theorem load_trace_iff (file : Str) : load_trace file size = .ok trace ↔
    (∀ line ∈ getlines newline [] file, Passing (keyValue line).1) ∧
      trace = (((getlines newline [] file).map keyValue).foldl (Buffers.add size) .start).finish := by
  have passes : ∀ s line, Passing (keyValue line).1 → Buffers.addLine size s line = .ok (s.add size (keyValue line)) := by
    intro s line passing
    simp only [Buffers.addLine,fields_ok,bind,Except.bind,if_neg passing.1,if_neg passing.2,pure,Except.pure]
  have stops : ∀ s line, ¬ Passing (keyValue line).1 → Buffers.addLine size s line = .error .exit := by
    intro s line improper
    simp only [Buffers.addLine,fields_ok,bind,Except.bind]
    split
    · rfl
    · rename_i other
      rw [if_pos (by_contra fun last => improper ⟨other,last⟩)]
  have read := foldlM_asserting passes stops (getlines newline [] file) .start
  unfold load_trace
  rw [List.foldl_map]
  cases loop : (getlines newline [] file).foldlM (Buffers.addLine size) .start with
  | error fault =>
    refine ⟨fun same => (by cases same),?_⟩
    rintro ⟨passing,_⟩
    have other := (read _).mpr ⟨passing,rfl⟩
    rw [loop] at other
    cases other
  | ok s =>
    obtain ⟨passing,rfl⟩ := (read s).mp loop
    constructor
    · intro same
      cases same
      exact ⟨passing,rfl⟩
    · rintro ⟨_,rfl⟩
      rfl

-- The words genProxyBenchmark looks for in a line of a log.
inductive Verb where
  | HMSET
  | HGETALL
  deriving DecidableEq

-- What >> delivers of a line, and what strcmp sees of a word.
def words (line : Str) : List Str := (line.splitOnP isSpace).filter (· ≠ [])
def c_str (text : Str) : Str := text.takeWhile (· ≠ 0)

def verb (type : Str) : Option Verb :=
  if c_str type = str "\"HMSET\"" then some .HMSET
  else if c_str type = str "\"HGETALL\"" then some .HGETALL
  else none

-- The key without its quotes. A key that is missing is empty, and has no back to pop.
def unquote : List Str → Except Fault Str
  | [] => .error .undefined
  | key :: _ => .ok (key.dropLast.drop 1)

-- At the end of a line >> delivers nothing, and the loop goes on for ever.
def command : List Str → Except Fault (Verb × Str)
  | [] => .error .diverges
  | type :: rest =>
    match verb type with
    | some found => do
      let key ← unquote rest
      return (found,key)
    | none => command rest

def written : Verb × Str → Str
  | (.HMSET,key) => str "SET " ++ key ++ str " " ++ str "test_value" ++ [newline]
  | (.HGETALL,key) => str "GET " ++ key ++ [newline]

def proxy_benchmark_input (log : Str) : Except Fault Str := do
  let commands ← (getlines newline [] log).mapM (fun line => command (words line))
  return commands.flatMap written

-- The row a command stands for.
def meant : Verb × Str → Str × Str
  | (.HMSET,key) => (key,str "test_value")
  | (.HGETALL,key) => (key,[])

-- The first verb among the words is followed by the key in quotes.
def Logs (ws : List Str) (c : Verb × Str) : Prop :=
  ∃ before type quoted after, ws = before ++ type :: quoted :: after ∧ (∀ word ∈ before, verb word = none) ∧
    verb type = some c.1 ∧ c.2 = quoted.dropLast.drop 1

theorem command_iff (ws : List Str) (c : Verb × Str) : command ws = .ok c ↔ Logs ws c := by
  induction ws with
  | nil =>
    refine ⟨fun same => (by cases same),?_⟩
    rintro ⟨before,type,quoted,after,split,_⟩
    simp at split
  | cons type rest ih =>
    cases here : verb type with
    | none =>
      rw [command,here,ih]
      constructor
      · rintro ⟨before,word,quoted,after,rfl,others,found,key⟩
        refine ⟨type :: before,word,quoted,after,rfl,?_,found,key⟩
        rw [List.forall_mem_cons]
        exact ⟨here,others⟩
      · rintro ⟨before,word,quoted,after,split,others,found,key⟩
        cases before with
        | nil =>
          cases split
          rw [here] at found
          cases found
        | cons first before =>
          cases split
          exact ⟨before,word,quoted,after,rfl,fun other member => others other (List.mem_cons_of_mem _ member),found,key⟩
    | some v =>
      rw [command,here]
      constructor
      · intro same
        cases rest with
        | nil => cases same
        | cons quoted after =>
          cases same
          exact ⟨[],type,quoted,after,rfl,fun _ member => absurd member List.not_mem_nil,here,rfl⟩
      · rintro ⟨before,word,quoted,after,split,others,found,key⟩
        cases before with
        | nil =>
          cases split
          rw [here] at found
          cases found
          exact congrArg (fun own => Except.ok (c.1,own)) key.symm
        | cons first before =>
          cases split
          have none := others type List.mem_cons_self
          rw [here] at none
          cases none

theorem commands_iff (lines : List Str) (commands : List (Verb × Str)) :
    lines.mapM (fun line => command (words line)) = .ok commands ↔ List.Forall₂ (fun line c => Logs (words line) c) lines commands := by
  induction lines generalizing commands with
  | nil =>
    constructor
    · intro same
      cases same
      exact .nil
    · intro none
      cases none
      rfl
  | cons line rest ih =>
    rw [List.mapM_cons]
    constructor
    · intro same
      obtain ⟨c,first,same⟩ := Runs.bind_ok same
      obtain ⟨others,later,same⟩ := Runs.bind_ok same
      cases same
      exact .cons ((command_iff _ _).mp first) ((ih others).mp later)
    · intro each
      cases each with
      | cons first later =>
        rw [(command_iff _ _).mpr first]
        simp only [bind,Except.bind,(ih _).mpr later,pure,Except.pure]

theorem words_spaceless {word line : Str} (member : word ∈ words line) : ∀ b ∈ word, isSpace b = false := by
  have parts : ∀ part ∈ line.splitOnP isSpace, ∀ b ∈ part, isSpace b = false := by
    clear member
    induction line with
    | nil => simp
    | cons b rest ih =>
      rw [List.splitOnP_cons_eq_if_modifyHead]
      split
      · rw [List.forall_mem_cons]
        exact ⟨fun _ none => absurd none List.not_mem_nil,ih⟩
      · rename_i plain
        cases first : rest.splitOnP isSpace with
        | nil => simp
        | cons part others =>
          rw [first,List.forall_mem_cons] at ih
          rw [List.modifyHead_cons,List.forall_mem_cons,List.forall_mem_cons]
          exact ⟨⟨by simpa using plain,ih.1⟩,ih.2⟩
  exact parts word (List.mem_filter.mp member).1

theorem Logs.key_plain {line : Str} {c : Verb × Str} (logs : Logs (words line) c) : space ∉ c.2 ∧ newline ∉ c.2 := by
  obtain ⟨before,type,quoted,after,split,_,_,key⟩ := logs
  have listed : quoted ∈ words line := by
    rw [split]
    simp
  have plain := words_spaceless listed
  have inside : ∀ b ∈ c.2, isSpace b = false := by
    intro b member
    rw [key] at member
    exact plain b (List.mem_of_mem_dropLast (List.mem_of_mem_drop member))
  exact ⟨fun member => absurd (inside _ member) (by decide),fun member => absurd (inside _ member) (by decide)⟩

-- The line of the file for a command, and what the loop of load_trace sees in it.
def entry : Verb × Str → Str
  | (.HMSET,key) => str "SET" ++ space :: (key ++ space :: str "test_value")
  | (.HGETALL,key) => str "GET" ++ space :: key

theorem written_entry (c : Verb × Str) : written c = entry c ++ [newline] := by
  obtain ⟨v,key⟩ := c
  cases v with
  | HMSET =>
    simp only [written,entry,List.append_assoc,List.cons_append]
    rfl
  | HGETALL =>
    simp only [written,entry,List.append_assoc,List.cons_append]
    rfl

theorem entry_read {c : Verb × Str} (plain : space ∉ c.2 ∧ newline ∉ c.2) :
    newline ∉ entry c ∧ keyValue (entry c) = meant c := by
  obtain ⟨v,key⟩ := c
  have letters : space ∉ str "SET" ∧ space ∉ str "GET" ∧ newline ∉ str "SET" ∧ newline ∉ str "GET" ∧
      newline ≠ space ∧ newline ∉ str "test_value" := by decide
  obtain ⟨set,get,set',get',apart,value⟩ := letters
  cases v with
  | HMSET =>
    constructor
    · simp only [entry,List.mem_append,List.mem_cons,not_or]
      exact ⟨set',apart,plain.2,apart,value⟩
    · rw [entry,keyValue,if_pos (by simp),(head_tail set).2,(head_tail plain.1).1,(head_tail plain.1).2,meant]
  | HGETALL =>
    constructor
    · simp only [entry,List.mem_append,List.mem_cons,not_or]
      exact ⟨get',apart,plain.2⟩
    · have nothing : tail key = [] := by
        rw [tail,List.dropWhile_eq_nil_iff.mpr,List.drop_nil]
        intro b member
        rw [decide_eq_true_eq]
        rintro rfl
        exact plain.1 member
      rw [entry,keyValue,if_pos (by simp),(head_tail get).2,head_free plain.1,nothing,meant]

-- genProxyBenchmark, and load_trace on the file it writes.
def replay (log : Str) (client_batch_size : Nat) : Except Fault (List Batch) := do
  let file ← proxy_benchmark_input log
  load_trace file client_batch_size

theorem logged_plain {lines : List Str} {commands : List (Verb × Str)}
    (each : List.Forall₂ (fun line c => Logs (words line) c) lines commands) :
    ∀ c ∈ commands, space ∉ c.2 ∧ newline ∉ c.2 := by
  induction each with
  | nil => exact fun _ member => absurd member List.not_mem_nil
  | cons first _ ih =>
    rw [List.forall_mem_cons]
    exact ⟨first.key_plain,ih⟩

theorem load_written {commands : List (Verb × Str)} (plain : ∀ c ∈ commands, space ∉ c.2 ∧ newline ∉ c.2) :
    load_trace (commands.flatMap written) size = .ok trace ↔
      (∀ c ∈ commands, Passing c.2) ∧ trace = ((commands.map meant).foldl (Buffers.add size) .start).finish := by
  have shape : commands.flatMap written = commands.flatMap (fun c => entry c ++ [newline]) :=
    List.flatMap_congr fun c _ => written_entry c
  have rows : (commands.map entry).map keyValue = commands.map meant := by
    rw [List.map_map]
    exact List.map_congr_left fun c member => (entry_read (plain c member)).2
  have keys : (∀ line ∈ commands.map entry, Passing (keyValue line).1) ↔ ∀ c ∈ commands, Passing c.2 := by
    rw [List.forall_mem_map]
    refine forall₂_congr fun c member => ?_
    rw [(entry_read (plain c member)).2]
    obtain ⟨v,key⟩ := c
    cases v <;> rfl
  rw [load_trace_iff,shape,getlines_written _ _ fun c member => (entry_read (plain c member)).1,keys,rows]

-- Each line of a log gives a command, which the generator writes and load_trace reads
-- as it was meant: the GETs and the PUTs keep their order and fill batches of their
-- own. A log is loaded unless a line has no command, or one without a key, or a key
-- is PUT or GET.
theorem log_replayed (positive : 1 ≤ size) (log : Str) :
    ((∃ trace, replay log size = .ok trace) ↔
      ∃ commands, List.Forall₂ (fun line c => Logs (words line) c) (getlines newline [] log) commands ∧
        ∀ c ∈ commands, Passing c.2) ∧
    ∀ trace, replay log size = .ok trace →
      ∃ commands, List.Forall₂ (fun line c => Logs (words line) c) (getlines newline [] log) commands ∧
        Sorted size (commands.map meant) trace ∧
        ∀ b ∈ trace, b.message.operations = .ok (b.rows.map (fun row => ⟨row.1,row.2⟩)) := by
  have loaded : ∀ trace, replay log size = .ok trace ↔
      ∃ commands, List.Forall₂ (fun line c => Logs (words line) c) (getlines newline [] log) commands ∧
        (∀ c ∈ commands, Passing c.2) ∧ trace = ((commands.map meant).foldl (Buffers.add size) .start).finish := by
    intro trace
    constructor
    · intro ran
      obtain ⟨file,made,ran⟩ := Runs.bind_ok ran
      obtain ⟨commands,read,same⟩ := Runs.bind_ok made
      cases same
      have each := (commands_iff _ _).mp read
      exact ⟨commands,each,(load_written (logged_plain each)).mp ran⟩
    · rintro ⟨commands,each,passing,rfl⟩
      simp only [replay,proxy_benchmark_input,(commands_iff _ _).mpr each,bind,Except.bind,pure,Except.pure]
      exact (load_written (logged_plain each)).mpr ⟨passing,rfl⟩
  constructor
  · constructor
    · rintro ⟨trace,ran⟩
      obtain ⟨commands,each,passing,_⟩ := (loaded trace).mp ran
      exact ⟨commands,each,passing⟩
    · rintro ⟨commands,each,passing⟩
      exact ⟨_,(loaded _).mpr ⟨commands,each,passing,rfl⟩⟩
  · intro trace ran
    obtain ⟨commands,each,_,rfl⟩ := (loaded trace).mp ran
    have sorted := Buffers.sorted_trace positive (commands.map meant)
    exact ⟨commands,each,sorted,fun b member => Batch.message_operations (sorted.each b member).uniform⟩

def sampleLog : Str :=
  str "5 [0 lua] \"HMSET\" \"a@1\" \"f\"\n6 \"HGETALL\" \"a@1@2\"\n7 \"HMSET\" \"b@1\" \"g\"\n8 \"HMSET\" \"a@2\""

theorem sample_log_replayed :
    replay sampleLog 2 = .ok [([str "a@1",str "b@1"],[str "test_value",str "test_value"]),([str "a@1@2"],[]),
      ([str "a@2"],[str "test_value"])] ∧
    ((∃ trace, replay sampleLog 2 = .ok trace) ↔
      ∃ commands, List.Forall₂ (fun line c => Logs (words line) c) (getlines newline [] sampleLog) commands ∧
        ∀ c ∈ commands, Passing c.2) ∧
    ∀ trace, replay sampleLog 2 = .ok trace →
      ∃ commands, List.Forall₂ (fun line c => Logs (words line) c) (getlines newline [] sampleLog) commands ∧
        Sorted 2 (commands.map meant) trace ∧
        ∀ b ∈ trace, b.message.operations = .ok (b.rows.map (fun row => ⟨row.1,row.2⟩)) :=
  ⟨by decide +kernel,log_replayed (by decide) sampleLog⟩

end TsWaffle.TextTrace
