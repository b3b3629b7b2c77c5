import TsWaffle.Lib.Text
import TsWaffle.Lib.Table
import TsWaffle.Lib.OrderedSet
import TsWaffle.Lib.Runs

namespace TsWaffle
open Text

-- std::pair<std::string, int>, the element type of accessTree.
structure Entry where
  key : Str
  freq : Int
  deriving DecidableEq

def freqCmp (a b : Entry) : Bool :=
  if a.freq = b.freq then decide (a.key < b.key) else decide (a.freq < b.freq)

def Entry.rank (e : Entry) : Int ×ₗ Str := toLex (e.freq,e.key)

theorem Entry.rank_injective : Function.Injective Entry.rank := by
  intro a b same
  have parts := Prod.mk.inj (toLex.injective same)
  cases a; cases b; simp_all

instance : LinearOrder Entry := LinearOrder.lift' Entry.rank Entry.rank_injective

-- The order the tree is kept in is the comparator of the source.
theorem freqCmp_exact (a b : Entry) : freqCmp a b = true ↔ a < b := by
  change _ ↔ a.rank < b.rank
  unfold freqCmp Entry.rank
  rw [Prod.Lex.toLex_lt_toLex]
  split
  · rename_i same; simp [same]
  · rename_i other; simp [other]

structure FrequencySmoother where
  accessFreqs : Table Str Int
  accessTree : OrderedSet Entry
  uniqueItemWithTimeStamp : Table Str (OrderedSet Int)
  needTimeStamp : Bool

-- item@timestamp, as init's caller, get_split_keys and getOldestKey build it.
def bucketKey (item : Str) (ts : Int) : Str := item ++ chr '@' :: to_string ts

def WellFormed (item : Str) (ts : Int) : Prop := item ≠ [] ∧ chr '@' ∉ item ∧ Fits64 ts

instance : Decidable (WellFormed item ts) := inferInstanceAs (Decidable (_ ∧ _))

-- The two causes of std::stol and the three of the format check all end in
-- invalid_argument: the source catches and rethrows.
def get_key_timestamp_split (key : Str) : Except Fault (Str × Int) :=
  match key.findIdx? (· == chr '@') with
  | none => .error .invalid_argument
  | some at_pos =>
    if at_pos = 0 ∨ at_pos = key.length-1 then .error .invalid_argument
    else match stol (key.drop (at_pos+1)) with
      | .ok timestamp => .ok (key.take at_pos,timestamp)
      | .error _ => .error .invalid_argument

namespace FrequencySmoother

def new (needTimeStamp : Bool) : FrequencySmoother := ⟨∅,∅,∅,needTimeStamp⟩

-- The state left behind is returned beside the outcome: a throw does not undo
-- what the first locked section has done.
def insert (s : FrequencySmoother) (key : Str) : FrequencySmoother × Except Fault Unit :=
  let s := {s with accessFreqs:=s.accessFreqs.insert key 0,accessTree:=s.accessTree.insert ⟨key,0⟩}
  if s.needTimeStamp then
    match get_key_timestamp_split key with
    | .error fault => (s,.error fault)
    | .ok (item,ts) =>
      let stamps := (s.uniqueItemWithTimeStamp.find? item).getD ∅
      ({s with uniqueItemWithTimeStamp:=s.uniqueItemWithTimeStamp.insert item (stamps.insert ts)},.ok ())
  else (s,.ok ())

def getFrequency (s : FrequencySmoother) (key : Str) : Int × FrequencySmoother :=
  let (freq,accessFreqs) := s.accessFreqs.fetch key 0
  (freq,{s with accessFreqs:=accessFreqs})

def setFrequency (s : FrequencySmoother) (key : Str) (value : Int) : FrequencySmoother :=
  let (old,accessFreqs) := s.accessFreqs.fetch key 0
  {s with accessFreqs:=accessFreqs.insert key value,
          accessTree:=(s.accessTree.erase ⟨key,old⟩).insert ⟨key,value⟩}

def incrementFrequency (s : FrequencySmoother) (key : Str) : FrequencySmoother :=
  let (old,accessFreqs) := s.accessFreqs.fetch key 0
  {s with accessFreqs:=accessFreqs.insert key (old+1),
          accessTree:=(s.accessTree.erase ⟨key,old⟩).insert ⟨key,old+1⟩}

def addKey (s : FrequencySmoother) (key : Str) : FrequencySmoother :=
  let (old,accessFreqs) := s.accessFreqs.fetch key 0
  {s with accessFreqs:=accessFreqs,accessTree:=s.accessTree.insert ⟨key,old⟩}

def removeKey (s : FrequencySmoother) (key : Str) : FrequencySmoother × Except Fault Unit :=
  let (old,accessFreqs) := s.accessFreqs.fetch key 0
  let s := {s with accessFreqs:=accessFreqs.erase key,accessTree:=s.accessTree.erase ⟨key,old⟩}
  if s.needTimeStamp then
    match get_key_timestamp_split key with
    | .error fault => (s,.error fault)
    | .ok (item,ts) =>
      match s.uniqueItemWithTimeStamp.find? item with
      | none => (s,.ok ())
      | some stamps =>
        let left := stamps.erase ts
        if left = ∅ then ({s with uniqueItemWithTimeStamp:=s.uniqueItemWithTimeStamp.erase item},.ok ())
        else ({s with uniqueItemWithTimeStamp:=s.uniqueItemWithTimeStamp.insert item left},.ok ())
  else (s,.ok ())

def checkIfUniqueItemWithTimeStampExists (s : FrequencySmoother) (key : Str) : Bool :=
  decide (key ∈ s.accessFreqs)

-- The list of scheduled keys is received and not read, as in the source; begin()
-- of an empty set is dereferenced there.
def getOldestKey (s : FrequencySmoother) (_keys_to_be_deleted : List Str) (currentKey : Str) :
    Except Fault (Str × FrequencySmoother) :=
  match get_key_timestamp_split currentKey with
  | .error fault => .error fault
  | .ok (item,_) =>
    let (timestamps,index) := s.uniqueItemWithTimeStamp.fetch item ∅
    match timestamps.toList with
    | [] => .error .undefined
    | oldestTimestamp :: _ => .ok (bucketKey item oldestTimestamp,{s with uniqueItemWithTimeStamp:=index})

def get_timestamp_for_key (s : FrequencySmoother) (key : Str) : OrderedSet Int × FrequencySmoother :=
  let (timestamps,index) := s.uniqueItemWithTimeStamp.fetch key ∅
  (timestamps,{s with uniqueItemWithTimeStamp:=index})

end FrequencySmoother

theorem bucketKey_split (wf : WellFormed item ts) :
    get_key_timestamp_split (bucketKey item ts) = .ok (item,ts) := by
  obtain ⟨named,free,fits⟩ := wf
  have found : (bucketKey item ts).findIdx? (· == chr '@') = some item.length := by
    have absent : item.findIdx? (· == chr '@') = none := by
      rw [List.findIdx?_eq_none_iff]
      intro b member
      have other : b ≠ chr '@' := by rintro rfl; exact free member
      simpa using other
    simp [bucketKey,List.findIdx?_append,absent,List.findIdx?_cons]
  have positive : item.length ≠ 0 := by simpa using named
  have inner : item.length ≠ (bucketKey item ts).length-1 := by
    have digits : 0 < (to_string ts).length := List.length_pos_iff.mpr (to_string_ne_nil ts)
    simp only [bucketKey,List.length_append,List.length_cons]
    omega
  have tail : (bucketKey item ts).drop (item.length+1) = to_string ts := by
    simp [bucketKey,List.drop_append]
  have head : (bucketKey item ts).take item.length = item := by simp [bucketKey]
  simp only [get_key_timestamp_split,found,positive,inner,or_self,if_false,tail,head,stol_to_string fits]

theorem bucketKey_injective (left : chr '@' ∉ item) (right : chr '@' ∉ other)
    (same : bucketKey item ts = bucketKey other us) : item = other ∧ ts = us := by
  obtain ⟨items,texts⟩ := split_first left right same
  exact ⟨items,to_string_injective texts⟩

namespace FrequencySmoother

-- The tree lists every key of the map once, under its current frequency.
def TreeExact (s : FrequencySmoother) : Prop :=
  ∀ e, e ∈ s.accessTree ↔ s.accessFreqs.find? e.key = some e.freq

@[simp] theorem setFrequency_freqs (s : FrequencySmoother) (key a : Str) (value : Int) :
    (s.setFrequency key value).accessFreqs.find? a =
      if a = key then some value else s.accessFreqs.find? a := by
  simp only [setFrequency,Table.find_insert,Table.fetch_find]
  split <;> rfl

@[simp] theorem setFrequency_index (s : FrequencySmoother) (key : Str) (value : Int) :
    (s.setFrequency key value).uniqueItemWithTimeStamp = s.uniqueItemWithTimeStamp := rfl

@[simp] theorem setFrequency_stamped (s : FrequencySmoother) (key : Str) (value : Int) :
    (s.setFrequency key value).needTimeStamp = s.needTimeStamp := rfl

theorem setFrequency_mem (s : FrequencySmoother) (key : Str) (value : Int) (e : Entry) :
    e ∈ (s.setFrequency key value).accessTree ↔
      e = ⟨key,value⟩ ∨ (e ∈ s.accessTree ∧ e ≠ ⟨key,(s.accessFreqs.find? key).getD 0⟩) := by
  simp [setFrequency,Table.fetch_value]

-- Moving the entry of a key whose only entry is the one the map names.
theorem replace_entry {tree : OrderedSet Entry} {freqs : Table Str Int} (key : Str) (old value : Int)
    (exact_ : ∀ e, e ∈ tree ↔ freqs.find? e.key = some e.freq)
    (current : ∀ f, freqs.find? key = some f → f = old) (e : Entry) :
    (e = ⟨key,value⟩ ∨ (e ∈ tree ∧ e ≠ ⟨key,old⟩)) ↔
      (if e.key = key then some value else freqs.find? e.key) = some e.freq := by
  cases e with
  | mk k f =>
    rw [exact_]
    by_cases same : k = key
    · subst same
      simp only [Entry.mk.injEq,true_and,if_true,Option.some.injEq]
      constructor
      · rintro (rfl | ⟨found,other⟩)
        · rfl
        · exact absurd (by rw [current f found]) other
      · intro equal; exact .inl equal.symm
    · simp [same]

theorem setFrequency_tree (valid : TreeExact s) (key : Str) (value : Int) :
    TreeExact (s.setFrequency key value) := by
  intro e
  rw [setFrequency_mem,setFrequency_freqs]
  refine replace_entry key _ value valid ?_ e
  intro f found
  simp [found]

theorem incrementFrequency_tree (valid : TreeExact s) (key : Str) :
    TreeExact (s.incrementFrequency key) := by
  intro e
  simp only [incrementFrequency,Table.fetch_value,Table.find_insert,Table.fetch_find]
  rw [OrderedSet.mem_insert,OrderedSet.mem_erase,replace_entry key _ _ valid (by intro f found; simp [found]) e]
  split <;> simp_all

theorem addKey_tree (valid : TreeExact s) (key : Str) : TreeExact (s.addKey key) := by
  intro e
  simp only [addKey,Table.fetch_value,OrderedSet.mem_insert,Table.fetch_find,valid e]
  cases e with
  | mk k f =>
    by_cases same : k = key
    · subst same
      cases found : s.accessFreqs.find? k with
      | none => simp [eq_comm]
      | some v => simp [eq_comm]
    · simp [same]

-- removeKey works on the first two structures before it looks at the key's text.
theorem removeKey_parts (s : FrequencySmoother) (key : Str) :
    (s.removeKey key).1.accessFreqs = (s.accessFreqs.fetch key 0).2.erase key ∧
      (s.removeKey key).1.accessTree = s.accessTree.erase ⟨key,(s.accessFreqs.find? key).getD 0⟩ := by
  unfold removeKey
  rw [← Table.fetch_value]
  dsimp only
  split
  · cases get_key_timestamp_split key with
    | error fault => exact ⟨rfl,rfl⟩
    | ok parts =>
      dsimp only
      split
      · exact ⟨rfl,rfl⟩
      · split <;> exact ⟨rfl,rfl⟩
  · exact ⟨rfl,rfl⟩

theorem removeKey_freqs (s : FrequencySmoother) (key a : Str) :
    (s.removeKey key).1.accessFreqs.find? a = if a = key then none else s.accessFreqs.find? a := by
  rw [(removeKey_parts s key).1,Table.find_erase,Table.fetch_find]
  split <;> rfl

theorem removeKey_tree (valid : TreeExact s) (key : Str) : TreeExact (s.removeKey key).1 := by
  intro e
  rw [(removeKey_parts s key).2,removeKey_freqs,OrderedSet.mem_erase,valid e]
  cases e with
  | mk k f =>
    by_cases same : k = key
    · subst same
      simp only [if_true,reduceCtorEq,iff_false,not_and,not_not]
      intro found
      simp [found]
    · simp [same]

theorem insert_parts (s : FrequencySmoother) (key : Str) :
    (s.insert key).1.accessFreqs = s.accessFreqs.insert key 0 ∧
      (s.insert key).1.accessTree = s.accessTree.insert ⟨key,0⟩ := by
  unfold insert
  dsimp only
  split
  · cases get_key_timestamp_split key <;> exact ⟨rfl,rfl⟩
  · exact ⟨rfl,rfl⟩

-- A present key keeps its old tree entry when insert resets its frequency.
theorem insert_tree (valid : TreeExact s) (key : Str) :
    TreeExact (s.insert key).1 ↔ ∀ f, s.accessFreqs.find? key = some f → f = 0 := by
  simp only [TreeExact,(insert_parts s key).1,(insert_parts s key).2,OrderedSet.mem_insert,Table.find_insert]
  constructor
  · intro after f found
    have stays := (after ⟨key,f⟩).mp (.inr ((valid ⟨key,f⟩).mpr found))
    simpa [eq_comm] using stays
  · intro fresh e
    rw [valid e]
    cases e with
    | mk k f =>
      by_cases same : k = key
      · subst same
        simp only [Entry.mk.injEq,true_and,if_true,Option.some.injEq]
        constructor
        · rintro (rfl | found)
          · rfl
          · exact (fresh f found).symm
        · intro equal; exact .inl equal.symm
      · simp [same]

theorem getFrequency_tree (valid : TreeExact s) (key : Str) :
    TreeExact (s.getFrequency key).2 ↔ key ∈ s.accessFreqs := by
  simp only [TreeExact,getFrequency,Table.fetch_find,Table.mem_iff]
  constructor
  · intro after
    have created := (after ⟨key,(s.accessFreqs.find? key).getD 0⟩).mpr (by simp)
    exact ⟨_,(valid _).mp created⟩
  · rintro ⟨f,found⟩ e
    rw [valid e]
    by_cases same : e.key = key <;> simp [same,found]

-- The public mutators, as one call each.
inductive Call where
  | insert (key : Str)
  | setFrequency (key : Str) (value : Int)
  | incrementFrequency (key : Str)
  | addKey (key : Str)
  | removeKey (key : Str)
  | getFrequency (key : Str)

def call (s : FrequencySmoother) : Call → FrequencySmoother
  | .insert key => (s.insert key).1
  | .setFrequency key value => s.setFrequency key value
  | .incrementFrequency key => s.incrementFrequency key
  | .addKey key => s.addKey key
  | .removeKey key => (s.removeKey key).1
  | .getFrequency key => (s.getFrequency key).2

def replay (s : FrequencySmoother) (calls : List Call) : FrequencySmoother := calls.foldl call s

-- insert finds the key absent or already at frequency 0, getFrequency finds it
-- present; the other calls have no condition.
def Keeps (s : FrequencySmoother) : Call → Prop
  | .insert key => ∀ f, s.accessFreqs.find? key = some f → f = 0
  | .getFrequency key => key ∈ s.accessFreqs
  | _ => True

theorem call_tree (valid : TreeExact s) (c : Call) : TreeExact (s.call c) ↔ Keeps s c := by
  cases c with
  | insert key => exact insert_tree valid key
  | setFrequency key value => exact iff_of_true (setFrequency_tree valid key value) trivial
  | incrementFrequency key => exact iff_of_true (incrementFrequency_tree valid key) trivial
  | addKey key => exact iff_of_true (addKey_tree valid key) trivial
  | removeKey key => exact iff_of_true (removeKey_tree valid key) trivial
  | getFrequency key => exact getFrequency_tree valid key

theorem new_tree (needTimeStamp : Bool) : TreeExact (new needTimeStamp) := by
  intro e
  simp [new]

end FrequencySmoother
end TsWaffle
