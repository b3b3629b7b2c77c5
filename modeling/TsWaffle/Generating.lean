import TsWaffle.Spreading
import TsWaffle.Summing
import TsWaffle.Lib.Turns

namespace TsWaffle
open Text Runs
variable {m : TimeSeriesDataMap} {pairs : List (Str × Str)} {x : Str} {latest : Int}

def baseTime : Int := 1700000000

-- What the random sources deliver in one turn of the generator. A sampled stamp is
-- seen as the long it is cast to, which does not fall before the base time.
structure Turn where
  rand_num : Nat
  data : Nat → Generated
  first : Nat → Int → Int
  second : Nat → Int → Int
  after_base : ∀ n latest, baseTime ≤ latest → baseTime ≤ first n latest ∧ baseTime ≤ second n latest

structure TimeSeriesDataMap where
  keys_ : List Str
  object_size_ : Nat
  batch_size : Nat

def sample_exponential (scaled_sample : Int → Int) (latest_timestamp : Int) : Int :=
  min (scaled_sample latest_timestamp) latest_timestamp

def generate_TS_tracefile_get_query (turn : Turn) (n : Nat) (key : Str) (latest_timestamp : Int) : Str × Str :=
  let first_int := sample_exponential (turn.first n) latest_timestamp
  let second_int := sample_exponential (turn.second n) latest_timestamp
  let (first_int,second_int) := if second_int < first_int then (second_int,first_int) else (first_int,second_int)
  (key ++ chr '@' :: (to_string first_int ++ chr '@' :: to_string second_int),[])

namespace TimeSeriesDataMap

-- start_timestamp is an int.
def generate_TS_tracefile_put_query (m : TimeSeriesDataMap) (gen : Generated) (key : Str) (start_timestamp : Int) :
    Except Fault (Str × Str) := do
  let value ← generateDataForKey m.object_size_ gen key
  return (key ++ chr '@' :: to_string (start_timestamp.bmod (2^32)),value)

-- k*batch_size+j, in the order of the two loops.
def indices (m : TimeSeriesDataMap) : List Nat :=
  (List.range (m.keys_.length/m.batch_size)).flatMap (fun k => (List.range m.batch_size).map (fun j => k*m.batch_size+j))

def queries (m : TimeSeriesDataMap) (query : Nat → Str → Except Fault (Str × Str)) :
    List Nat → Except Fault (List (Str × Str))
  | [] => .ok []
  | n :: rest => do
    let key ← part m.keys_ n
    let row ← query n key
    let rows ← m.queries query rest
    return row :: rows

-- The loop of generate_TS_tracefile_binary. It does not end when there are no keys.
def turns (m : TimeSeriesDataMap) (row_count : Nat) (draws : Nat → Turn) : Nat → Nat → Nat → Int →
    Except Fault (List (Str × Str))
  | 0,_,i,_ => if i < row_count then .error .diverges else .ok []
  | fuel+1,n,i,latest_timestamp =>
    if i < row_count then
      if (draws n).rand_num % 100 < 50 ∨ i = 0 then do
        let rows ← m.queries (fun j key => m.generate_TS_tracefile_put_query ((draws n).data j) key latest_timestamp) m.indices
        let rest ← m.turns row_count draws fuel (n+1) (i+m.keys_.length) (latest_timestamp+m.object_size_)
        return rows ++ rest
      else do
        let rows ← m.queries (fun j key => .ok (generate_TS_tracefile_get_query (draws n) j key (latest_timestamp-1))) m.indices
        let rest ← m.turns row_count draws fuel (n+1) (i+m.keys_.length) latest_timestamp
        return rows ++ rest
    else .ok []

def generate_TS_tracefile_binary (m : TimeSeriesDataMap) (row_count : Nat) (draws : Nat → Turn) :
    Except Fault (List (Str × Str)) :=
  if m.batch_size = 0 then .error .undefined else m.turns row_count draws row_count 0 0 baseTime

-- The keys the batches reach; what does not fill a batch is left out.
def items (m : TimeSeriesDataMap) : List Str := m.keys_.take (m.keys_.length/m.batch_size*m.batch_size)

def stamp (m : TimeSeriesDataMap) (n : Nat) : Int := baseTime+n*m.object_size_

end TimeSeriesDataMap

def Request.row (q : Request) : Str × Str := (q.operation.key,q.operation.value)

-- The stamps PUT for an item, in order.
def Request.stampOf (x : Str) : Request → Option Int
  | .put item ts _ => if item = x then some ts else none
  | .get _ _ _ => none

def stamps (x : Str) (requests : List Request) : List Int := requests.filterMap (Request.stampOf x)

-- What a trace is generated for: a started server's items with old buckets only,
-- and not so many rows that an item's first buckets are gone before its last GET.
structure Generable (R : Nat) (m : TimeSeriesDataMap) (row_count : Nat) (pairs : List (Str × Str)) : Prop where
  loadable : Loadable pairs
  batched : 0 < m.batch_size
  distinct : m.keys_.Nodup
  typed : ∀ x ∈ m.keys_, ∃ type, generatedType x = .ok type
  sized : 0 < m.object_size_ ∧ m.object_size_ % 4 = 0
  apart : 0 < m.items.length ∧ R ≤ m.items.length
  named : ∀ x ∈ m.items, x ≠ [] ∧ chr '@' ∉ x
  old : ∀ x ∈ m.items, ∀ u ∈ ((Reference.load pairs).buckets x), u < baseTime
  enough : ∀ x ∈ m.items, row_count ≤ m.keys_.length*((Reference.load pairs).buckets x).card
  early : m.stamp ((row_count-1)/m.keys_.length) < 2^31

theorem TimeSeriesDataMap.indices_eq (m : TimeSeriesDataMap) : m.indices = List.range' 0 m.items.length := by
  have whole : m.items.length = m.keys_.length/m.batch_size*m.batch_size :=
    List.length_take_of_le (Nat.div_mul_le_self _ _)
  rw [whole,← List.range_eq_range',indices]
  generalize m.keys_.length/m.batch_size = count
  induction count with
  | zero => simp
  | succ count ih =>
    rw [List.range_succ,List.flatMap_append,ih,Nat.succ_mul,List.range_add]
    simp

theorem generateData_length (sized : object_size % size = 0) (draw : Nat → α) :
    ∃ data, generateData object_size size draw = .ok data ∧ data.length = object_size/size ∧
      ∀ d ∈ data, ∃ n, d = draw n := by
  refine ⟨(List.range (object_size/size)).map draw,?_,by simp,?_⟩
  · simp [generateData,sized]
  · intro d member
    obtain ⟨n,_,rfl⟩ := List.mem_map.mp member
    exact ⟨n,rfl⟩

-- A bucket is filled to its size.
theorem generateDataForKey_length (typed : generatedType key = .ok type) (sized : object_size % 4 = 0) (gen : Generated) :
    ∃ value, generateDataForKey object_size gen key = .ok value ∧ value.length = object_size := by
  unfold generateDataForKey
  rw [typed]
  cases type with
  | float =>
    obtain ⟨data,made,count,drawn⟩ := generateData_length sized gen.floats
    refine ⟨data.flatten,by simp [made,bind,Except.bind,pure,Except.pure],?_⟩
    have wide : ∀ d ∈ data, d.length = 4 := by
      intro d member
      obtain ⟨n,rfl⟩ := drawn d member
      exact gen.wide n
    rw [List.length_flatten,List.map_congr_left wide,List.map_const',List.sum_replicate,count,smul_eq_mul]
    omega
  | int =>
    obtain ⟨data,made,count,_⟩ := generateData_length sized gen.ints
    refine ⟨BinarySerializer.serialize data,by simp [made,bind,Except.bind,pure,Except.pure],?_⟩
    rw [BinarySerializer.serialize_eq,BinarySerializer.bytes_length,count]
    omega
  | bool =>
    obtain ⟨data,made,count,_⟩ := generateData_length (Nat.mod_one object_size) gen.bools
    refine ⟨BinarySerializer.serializeBool data,by simp [made,bind,Except.bind,pure,Except.pure],?_⟩
    rw [BinarySerializer.serializeBool,List.length_map,count,Nat.div_one]

theorem mem_stamps {requests : List Request} : ts ∈ stamps x requests ↔ ∃ v, Request.put x ts v ∈ requests := by
  rw [stamps,List.mem_filterMap]
  constructor
  · rintro ⟨q,member,stamped⟩
    cases q with
    | put item u v =>
      simp only [Request.stampOf] at stamped
      split at stamped
      · rename_i same
        cases stamped
        exact ⟨v,same ▸ member⟩
      · cases stamped
    | get item a b => cases stamped
  · rintro ⟨v,member⟩
    exact ⟨_,member,if_pos rfl⟩

theorem stamps_other {q : Request} (other : q.item ≠ x) (requests : List Request) :
    stamps x (requests ++ [q]) = stamps x requests := by
  cases q with
  | put item u v => simp [stamps,Request.stampOf,show item ≠ x from other]
  | get item a b => simp [stamps,Request.stampOf]

theorem stamps_put (x : Str) (ts : Int) (v : Str) (requests : List Request) :
    stamps x (requests ++ [.put x ts v]) = stamps x requests ++ [ts] := by
  simp [stamps,Request.stampOf]

theorem stamps_get (item : Str) (a b : Int) (requests : List Request) :
    stamps x (requests ++ [.get item a b]) = stamps x requests := by
  simp [stamps,Request.stampOf]

-- The plain store slides an item's window by the stamps PUT for it.
theorem after_buckets (r : Reference) (requests : List Request) (x : Str) :
    (r.after requests).buckets x = (stamps x requests).foldl Window.slide (r.buckets x) := by
  induction requests using List.reverseRecOn with
  | nil => rfl
  | append_singleton first q ih =>
    rw [Reference.after_append,Reference.after,List.foldl_cons,List.foldl_nil]
    cases q with
    | put item u v =>
      simp only [Reference.serve,Reference.write]
      by_cases same : item = x
      · subst same
        rw [Function.update_self,stamps_put,List.foldl_append,ih]
        rfl
      · rw [Function.update_of_ne (Ne.symm same),ih,stamps_other (q:=.put item u v) same]
    | get item a b => rw [Reference.serve,ih,stamps_get]

namespace TimeSeriesDataMap

def stampList (m : TimeSeriesDataMap) (n : Nat) : List Int := (List.range n).map m.stamp

theorem stampList_succ (m : TimeSeriesDataMap) (n : Nat) : m.stampList (n+1) = m.stampList n ++ [m.stamp n] := by
  simp [stampList,List.range_succ]

theorem base_le (m : TimeSeriesDataMap) (n : Nat) : baseTime ≤ m.stamp n := le_add_of_nonneg_right (by positivity)

theorem stamp_strictMono (sized : 0 < m.object_size_) : StrictMono m.stamp := by
  intro a b less
  have product := Nat.mul_lt_mul_of_pos_right less sized
  exact add_lt_add_right (by exact_mod_cast product) baseTime

theorem stamp_succ (m : TimeSeriesDataMap) (n : Nat) : m.stamp n+m.object_size_ = m.stamp (n+1) := by
  unfold stamp
  push_cast
  ring

theorem stampList_sorted (sized : 0 < m.object_size_) (n : Nat) : (m.stampList n).Pairwise (· < ·) :=
  List.Pairwise.map _ (fun _ _ less => stamp_strictMono sized less) List.pairwise_lt_range

theorem mem_stampList (sized : 0 < m.object_size_) : m.stamp k ∈ m.stampList n ↔ k < n := by
  rw [stampList,List.mem_map_of_injective (stamp_strictMono sized).injective,List.mem_range]

end TimeSeriesDataMap

-- A window with a member that is not after b shows one for any stamps from a to b.
theorem window_shown {w : Finset Int} (ordered : a ≤ b) (member : u ∈ w) (before : u ≤ b) :
    ∃ n ∈ w, n ≤ b ∧ (a ≤ n ∨ ∀ v ∈ w, v < a → v ≤ n) := by
  obtain ⟨n,listed,greatest⟩ := (w.filter (· ≤ b)).exists_max_image id ⟨u,Finset.mem_filter.mpr ⟨member,before⟩⟩
  obtain ⟨inside,low⟩ := Finset.mem_filter.mp listed
  refine ⟨n,inside,low,.inr ?_⟩
  intro v present early
  exact greatest v (Finset.mem_filter.mpr ⟨present,by omega⟩)

-- Where the generator stands in a turn that brings advance new buckets of each item,
-- after n turns and p buckets.
structure Reached (m : TimeSeriesDataMap) (advance n p : Nat) (front : List Str) (earlier : List Request) : Prop where
  named : earlier.map Request.item = Turns.named m.items n front
  stamped : ∀ x ∈ m.items, stamps x earlier = m.stampList (if x ∈ front then p+advance else p)

section
variable {R row_count advance n p : Nat} {front back : List Str} {earlier : List Request}

theorem Generable.items_nodup (good : Generable R m row_count pairs) : m.items.Nodup :=
  good.distinct.sublist (List.take_sublist _ _)

theorem Reached.not_recent (reached : Reached m advance n p front earlier) (good : Generable R m row_count pairs)
    (split : m.items = front ++ x :: back) : x ∉ recentItems R earlier := by
  have few : R-1 < m.items.length := by
    have apart := good.apart
    omega
  have early := Turns.not_recent good.items_nodup split few n
  rwa [← reached.named,List.length_map,← List.map_drop] at early

theorem Reached.stamps_eq (reached : Reached m advance n p front earlier) (good : Generable R m row_count pairs)
    (split : m.items = front ++ x :: back) : stamps x earlier = m.stampList p := by
  have listed : x ∈ m.items := by simp [split]
  have distinct := good.items_nodup
  have later : x ∉ front := by
    intro member
    rw [split] at distinct
    exact (List.nodup_append.mp distinct).2.2 x member x List.mem_cons_self rfl
  rw [reached.stamped x listed,if_neg later]

-- The buckets an item has by then: its old ones, as far as they are left, and those
-- the generator made.
theorem Reached.window (reached : Reached m advance n p front earlier) (good : Generable R m row_count pairs)
    (split : m.items = front ++ x :: back) (few : p ≤ ((Reference.load pairs).buckets x).card) :
    (((Reference.load pairs).after earlier).buckets x).card = ((Reference.load pairs).buckets x).card ∧
      ∀ u, baseTime ≤ u → (u ∈ ((Reference.load pairs).after earlier).buckets x ↔ u ∈ m.stampList p) := by
  have listed : x ∈ m.items := by simp [split]
  rw [after_buckets,reached.stamps_eq good split]
  refine Window.slides_new (good.old x listed) _ (TimeSeriesDataMap.stampList_sorted good.sized.1 p) ?_ ?_
  · intro s member
    obtain ⟨k,_,rfl⟩ := List.mem_map.mp member
    exact m.base_le k
  · simpa [TimeSeriesDataMap.stampList] using few

theorem Reached.unwritten (reached : Reached m advance n p front earlier) (good : Generable R m row_count pairs)
    (split : m.items = front ++ x :: back) (fits : Fits64 (m.stamp p)) :
    bucketKey x (m.stamp p) ∉ (pairs ++ earlier.filterMap Request.written).map Prod.fst := by
  have listed : x ∈ m.items := by simp [split]
  obtain ⟨filled,free⟩ := good.named x listed
  rw [List.map_append,List.mem_append]
  rintro (loaded | written)
  · have old := good.old x listed _ ((Reference.load_buckets good.loadable x _).mpr ⟨⟨filled,free,fits⟩,loaded⟩)
    exact absurd (m.base_le p) (not_le.mpr old)
  · obtain ⟨⟨key,v⟩,member,same⟩ := List.mem_map.mp written
    obtain ⟨q,asked,wrote⟩ := List.mem_filterMap.mp member
    cases q with
    | get item a b => cases wrote
    | put item ts w =>
      cases wrote
      have among : item ∈ m.items := by
        have place : item ∈ earlier.map Request.item := List.mem_map.mpr ⟨_,asked,rfl⟩
        rw [reached.named,Turns.named,List.mem_append] at place
        rcases place with round | now
        · obtain ⟨whole,copied,inside⟩ := List.mem_flatten.mp round
          rwa [← List.eq_of_mem_replicate copied]
        · rw [split]
          exact List.mem_append_left _ now
      obtain ⟨rfl,rfl⟩ := bucketKey_injective (good.named item among).2 free same
      have again := mem_stamps.mpr ⟨_,asked⟩
      rw [reached.stamps_eq good split,TimeSeriesDataMap.mem_stampList good.sized.1] at again
      exact absurd again (lt_irrefl p)

theorem stamp_fits (below : m.stamp p < 2^31) : Fits64 (m.stamp p) := by
  have above := m.base_le p
  unfold baseTime at above
  unfold Fits64
  omega

theorem put_workable (good : Generable R m row_count pairs) (reached : Reached m advance n p front earlier)
    (split : m.items = front ++ x :: back) (few : p < ((Reference.load pairs).buckets x).card) (below : m.stamp p < 2^31)
    (filled : value ≠ []) : Workable R pairs earlier (.put x (m.stamp p) value) := by
  have listed : x ∈ m.items := by simp [split]
  obtain ⟨nonempty,free⟩ := good.named x listed
  have fits := stamp_fits below
  have card := (reached.window good split (by omega)).1
  exact ⟨⟨⟨nonempty,free,fits⟩,filled⟩,reached.not_recent good split,Finset.card_pos.mp (by omega),
    reached.unwritten good split fits⟩

theorem get_workable (good : Generable R m row_count pairs) (reached : Reached m advance n p front earlier)
    (split : m.items = front ++ x :: back) (few : p ≤ ((Reference.load pairs).buckets x).card) (some_ : 0 < p)
    (ordered : a ≤ b) (low : baseTime ≤ a) (high : b < 2^31) : Workable R pairs earlier (.get x a b) := by
  have listed : x ∈ m.items := by simp [split]
  have range : Fits64 a ∧ Fits64 b := by
    unfold baseTime at low
    unfold Fits64
    omega
  have first : m.stamp 0 = baseTime := by simp [TimeSeriesDataMap.stamp]
  have bucket := ((reached.window good split few).2 _ (m.base_le 0)).mpr
    ((TimeSeriesDataMap.mem_stampList good.sized.1).mpr some_)
  exact ⟨⟨(good.named x listed).2,range⟩,reached.not_recent good split,window_shown ordered bucket (by omega)⟩

-- What one query of a turn adds to the trace.
structure Asked (m : TimeSeriesDataMap) (R : Nat) (pairs : List (Str × Str)) (advance p : Nat) (x : Str) (earlier : List Request)
    (q : Request) : Prop where
  item : q.item = x
  workable : Workable R pairs earlier q
  stamped : stamps x earlier = m.stampList p → stamps x (earlier ++ [q]) = m.stampList (p+advance)

theorem Reached.query {q : Request} (reached : Reached m advance n p front earlier) (good : Generable R m row_count pairs)
    (split : m.items = front ++ x :: back) (asked : Asked m R pairs advance p x earlier q) :
    Reached m advance n p (front ++ [x]) (earlier ++ [q]) := by
  refine ⟨?_,?_⟩
  · rw [List.map_append,reached.named,List.map_singleton,asked.item,Turns.named,Turns.named,List.append_assoc]
  · intro y listed
    by_cases same : y = x
    · subst same
      rw [if_pos (by simp)]
      exact asked.stamped (reached.stamps_eq good split)
    · have other : q.item ≠ y := by
        rw [asked.item]
        exact Ne.symm same
      rw [stamps_other other,reached.stamped y listed]
      simp [same]

-- One turn: every item in order, each query where the ones before have come to.
theorem turn_workload (query : Nat → Str → Except Fault (Str × Str)) (good : Generable R m row_count pairs)
    (each : ∀ front back x earlier, m.items = front ++ x :: back → Reached m advance n p front earlier →
      ∃ q, query front.length x = .ok q.row ∧ Asked m R pairs advance p x earlier q)
    (split : m.items = front ++ back) (reached : Reached m advance n p front earlier) :
    ∃ qs, m.queries query (List.range' front.length back.length) = .ok (qs.map Request.row) ∧ Workload R pairs earlier qs ∧
      Reached m advance n p m.items (earlier ++ qs) := by
  induction back generalizing front earlier with
  | nil =>
    rw [List.append_nil] at split
    refine ⟨[],rfl,trivial,?_⟩
    rwa [List.append_nil,split]
  | cons x rest ih =>
    obtain ⟨q,row,asked⟩ := each front rest x earlier split reached
    have next := reached.query good split asked
    obtain ⟨qs,rows,workload,later⟩ := ih (by simpa using split) next
    have key : part m.keys_ front.length = .ok x := by
      obtain ⟨tail,whole⟩ := List.take_prefix (m.keys_.length/m.batch_size*m.batch_size) m.keys_
      change m.items ++ tail = m.keys_ at whole
      rw [part,← whole,split]
      simp
    refine ⟨q :: qs,?_,⟨asked.workable,workload⟩,by simpa using later⟩
    rw [List.length_append,List.length_singleton] at rows
    simp only [List.length_cons,List.range'_succ,TimeSeriesDataMap.queries,key,row,rows,bind,Except.bind,pure,Except.pure,
      List.map_cons]

theorem Reached.restart (reached : Reached m advance n p [] earlier) (other : Nat) : Reached m other n p [] earlier := by
  refine ⟨reached.named,?_⟩
  intro x listed
  rw [reached.stamped x listed,if_neg List.not_mem_nil,if_neg List.not_mem_nil]

theorem Reached.next (reached : Reached m advance n p m.items earlier) : Reached m 0 (n+1) (p+advance) [] earlier := by
  refine ⟨?_,?_⟩
  · rw [reached.named,Turns.named_round]
  · intro x listed
    rw [reached.stamped x listed,if_pos listed,if_neg List.not_mem_nil]

theorem whole_turn (query : Nat → Str → Except Fault (Str × Str)) (good : Generable R m row_count pairs)
    (each : ∀ front back x earlier, m.items = front ++ x :: back → Reached m advance n p front earlier →
      ∃ q, query front.length x = .ok q.row ∧ Asked m R pairs advance p x earlier q)
    (reached : Reached m other n p [] earlier) :
    ∃ qs, m.queries query m.indices = .ok (qs.map Request.row) ∧ Workload R pairs earlier qs ∧
      Reached m 0 (n+1) (p+advance) [] (earlier ++ qs) := by
  obtain ⟨qs,rows,workload,done⟩ := turn_workload query good each rfl (reached.restart advance)
  rw [m.indices_eq]
  exact ⟨qs,rows,workload,done.next⟩

theorem put_query (good : Generable R m row_count pairs) (gen : Nat → Generated)
    (few : ∀ x ∈ m.items, p < ((Reference.load pairs).buckets x).card) (below : m.stamp p < 2^31)
    (split : m.items = front ++ x :: back) (reached : Reached m 1 n p front earlier) :
    ∃ q, m.generate_TS_tracefile_put_query (gen front.length) x (m.stamp p) = .ok q.row ∧
      Asked m R pairs 1 p x earlier q := by
  have listed : x ∈ m.items := by simp [split]
  obtain ⟨type,typed⟩ := good.typed x (List.mem_of_mem_take listed)
  obtain ⟨value,made,filled⟩ := generateDataForKey_length typed good.sized.2 (gen front.length)
  have nonempty : value ≠ [] := by
    apply List.ne_nil_of_length_pos
    rw [filled]
    exact good.sized.1
  have whole : (m.stamp p).bmod (2^32) = m.stamp p := by
    have above := m.base_le p
    unfold baseTime at above
    rw [Int.bmod_def]
    omega
  refine ⟨.put x (m.stamp p) value,?_,rfl,put_workable good reached split (few x listed) below nonempty,?_⟩
  · rw [TimeSeriesDataMap.generate_TS_tracefile_put_query,made,whole]
    rfl
  · intro same
    rw [stamps_put,same,TimeSeriesDataMap.stampList_succ]

theorem get_query (good : Generable R m row_count pairs) (turn : Turn)
    (few : ∀ x ∈ m.items, p ≤ ((Reference.load pairs).buckets x).card) (some_ : 0 < p) (below : m.stamp p < 2^31)
    (split : m.items = front ++ x :: back) (reached : Reached m 0 n p front earlier) :
    ∃ q, (.ok (generate_TS_tracefile_get_query turn front.length x (m.stamp p-1)) : Except Fault (Str × Str)) = .ok q.row ∧
      Asked m R pairs 0 p x earlier q := by
  have listed : x ∈ m.items := by simp [split]
  have late : baseTime ≤ m.stamp p-1 := by
    have first : m.stamp 0 = baseTime := by simp [TimeSeriesDataMap.stamp]
    have less := TimeSeriesDataMap.stamp_strictMono good.sized.1 some_
    omega
  obtain ⟨low,low'⟩ := turn.after_base front.length _ late
  obtain ⟨a,b,shown,ordered,after,before⟩ : ∃ a b, generate_TS_tracefile_get_query turn front.length x (m.stamp p-1) =
      (Request.get x a b).row ∧ a ≤ b ∧ baseTime ≤ a ∧ b < 2^31 := by
    unfold generate_TS_tracefile_get_query sample_exponential
    dsimp only
    split
    · exact ⟨_,_,rfl,by omega,by omega,by omega⟩
    · exact ⟨_,_,rfl,by omega,by omega,by omega⟩
  refine ⟨.get x a b,by rw [shown],rfl,get_workable good reached split (few x listed) some_ ordered after before,?_⟩
  intro same
  rw [stamps_get,same]
  rfl

theorem Generable.keys_pos (good : Generable R m row_count pairs) : 0 < m.keys_.length := by
  have some_ := good.apart.1
  have fewer : m.items.length ≤ m.keys_.length := (List.take_sublist _ _).length_le
  omega

-- The generator has used no more turns for buckets than turns, and the rows it still
-- makes fit what the items hold.
theorem Generable.turn (good : Generable R m row_count pairs) (more : n*m.keys_.length < row_count) (fewer : p ≤ n) :
    (∀ x ∈ m.items, p < ((Reference.load pairs).buckets x).card) ∧ m.stamp p < 2^31 := by
  constructor
  · intro x listed
    have enough := good.enough x listed
    have turns : m.keys_.length*n < m.keys_.length*((Reference.load pairs).buckets x).card := by
      rw [Nat.mul_comm] at more
      omega
    exact lt_of_le_of_lt fewer (Nat.lt_of_mul_lt_mul_left turns)
  · refine lt_of_le_of_lt ((TimeSeriesDataMap.stamp_strictMono good.sized.1).monotone ?_) good.early
    rw [Nat.le_div_iff_mul_le good.keys_pos]
    have times := Nat.mul_le_mul_right m.keys_.length fewer
    omega

theorem turns_workload (good : Generable R m row_count pairs) (draws : Nat → Turn) (fuel : Nat)
    (reached : Reached m advance n p [] earlier) (fewer : p ≤ n) (started : n ≠ 0 → 0 < p)
    (enough : row_count ≤ n*m.keys_.length+fuel) :
    ∃ qs, m.turns row_count draws fuel n (n*m.keys_.length) (m.stamp p) = .ok (qs.map Request.row) ∧
      Workload R pairs earlier qs := by
  induction fuel generalizing advance n p earlier with
  | zero =>
    have past : ¬ n*m.keys_.length < row_count := by omega
    exact ⟨[],by rw [TimeSeriesDataMap.turns,if_neg past]; rfl,trivial⟩
  | succ fuel ih =>
    unfold TimeSeriesDataMap.turns
    split
    · rename_i more
      obtain ⟨few,below⟩ := good.turn more fewer
      have keys := good.keys_pos
      have grown : (n+1)*m.keys_.length = n*m.keys_.length+m.keys_.length := Nat.succ_mul _ _
      split
      · obtain ⟨qs,rows,workload,done⟩ := whole_turn
          (fun j key => m.generate_TS_tracefile_put_query ((draws n).data j) key (m.stamp p)) good
          (fun front back x earlier split reached => put_query good (draws n).data few below split reached) reached
        obtain ⟨others,rest,later⟩ := ih done (by omega) (fun _ => by omega) (by omega)
        rw [grown] at rest
        refine ⟨qs ++ others,?_,(workload_append _ _ _).mpr ⟨workload,later⟩⟩
        simp only [rows,TimeSeriesDataMap.stamp_succ,rest,bind,Except.bind,pure,Except.pure,List.map_append]
      · rename_i putless
        have some_ : 0 < p := by
          apply started
          rintro rfl
          exact putless (.inr (Nat.zero_mul _))
        obtain ⟨qs,rows,workload,done⟩ := whole_turn
          (fun j key => .ok (generate_TS_tracefile_get_query (draws n) j key (m.stamp p-1))) good
          (fun front back x earlier split reached => get_query good (draws n) (fun x listed => le_of_lt (few x listed)) some_
            below split reached) reached
        rw [Nat.add_zero p] at done
        obtain ⟨others,rest,later⟩ := ih done (by omega) (fun _ => some_) (by omega)
        rw [grown] at rest
        refine ⟨qs ++ others,?_,(workload_append _ _ _).mpr ⟨workload,later⟩⟩
        simp only [rows,rest,bind,Except.bind,pure,Except.pure,List.map_append]
    · exact ⟨[],rfl,trivial⟩

theorem Reached.start (m : TimeSeriesDataMap) : Reached m 0 0 0 [] [] := by
  refine ⟨rfl,?_⟩
  intro x _
  rw [if_neg List.not_mem_nil]
  rfl

theorem generated_requests (good : Generable R m row_count pairs) (draws : Nat → Turn) :
    ∃ qs, m.generate_TS_tracefile_binary row_count draws = .ok (qs.map Request.row) ∧ Workload R pairs [] qs := by
  obtain ⟨qs,rows,workload⟩ :=
    turns_workload good draws row_count (.start m) (le_refl 0) (fun some_ => absurd rfl some_) (by omega)
  rw [Nat.zero_mul,TimeSeriesDataMap.stamp,Nat.cast_zero,zero_mul,add_zero] at rows
  refine ⟨qs,?_,workload⟩
  rw [TimeSeriesDataMap.generate_TS_tracefile_binary,if_neg (Nat.ne_of_gt good.batched),rows]

end

end TsWaffle
