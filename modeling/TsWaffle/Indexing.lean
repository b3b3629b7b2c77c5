import TsWaffle.Selection
import TsWaffle.Returning

namespace TsWaffle
open Text

theorem stol_fits (read : stol text = .ok n) : Fits64 n := by
  unfold stol at read
  dsimp only at read
  split at read
  · cases read
  · generalize (if (signed (text.dropWhile isSpace)).1 = true then
      -(readNat ((signed (text.dropWhile isSpace)).2.takeWhile isDigit) : Int)
      else readNat ((signed (text.dropWhile isSpace)).2.takeWhile isDigit)) = value at read
    split at read
    · rename_i fits
      cases read
      exact fits
    · cases read

-- Any text the parser accepts gives a well-formed item and timestamp; only some of
-- them are the text that is rebuilt from these.
theorem split_wellFormed (read : get_key_timestamp_split key = .ok (item,ts)) : WellFormed item ts := by
  unfold get_key_timestamp_split at read
  cases found : key.findIdx? (· == chr '@') with
  | none => rw [found] at read; cases read
  | some at_pos =>
    rw [found] at read
    dsimp only at read
    split at read
    · cases read
    · rename_i inner
      cases number : stol (key.drop (at_pos+1)) with
      | error fault => rw [number] at read; cases read
      | ok timestamp =>
        rw [number] at read
        cases read
        have shape := List.findIdx?_eq_some_iff_getElem.mp found
        obtain ⟨below,_,before⟩ := shape
        refine ⟨?_,?_,?_⟩
        · intro none
          have short := congrArg List.length none
          rw [List.length_take,List.length_nil] at short
          omega
        · intro member
          obtain ⟨i,small,same⟩ := List.mem_iff_getElem.mp member
          rw [List.length_take] at small
          rw [List.getElem_take] at same
          have other := before i (by omega)
          rw [same] at other
          exact other (by decide)
        · exact stol_fits number

namespace FrequencySmoother
variable {s : FrequencySmoother}

-- search, for one item or for the list of all items in the order of the hash map.
def search (s : FrequencySmoother) (order : List Str → List Str) (pattern : Str) : List Str :=
  if pattern = [] then order s.uniqueItemWithTimeStamp.keys
  else match s.uniqueItemWithTimeStamp.find? pattern with
    | some timeStamp => timeStamp.toList.map (bucketKey pattern)
    | none => [str "SEARCH FAILURE"]

inductive IndexCall where
  | insert (key : Str)
  | removeKey (key : Str)

def indexCall (s : FrequencySmoother) : IndexCall → FrequencySmoother
  | .insert key => (s.insert key).1
  | .removeKey key => (s.removeKey key).1

-- The parser accepts the key; removeKey is called on live keys.
def Accepted (s : FrequencySmoother) : IndexCall → Prop
  | .insert key => ∃ item ts, get_key_timestamp_split key = .ok (item,ts)
  | .removeKey key => key ∈ s.accessFreqs

-- The key is spelled as it is rebuilt from the index.
def Canonical : IndexCall → Prop
  | .insert key => ∃ item ts, get_key_timestamp_split key = .ok (item,ts) ∧ key = bucketKey item ts
  | .removeKey _ => True

-- The keys the index stands for.
def Listed (s : FrequencySmoother) (k : Str) : Prop := ∃ item, ∃ ts ∈ s.timestamps item, k = bucketKey item ts

def indexCalls (s : FrequencySmoother) (calls : List IndexCall) : FrequencySmoother := calls.foldl indexCall s

-- The index and the map name the same keys; hence every key built from the index
-- is live and every live key is found by searching its item.
structure Faithful (s : FrequencySmoother) : Prop where
  keys : ∀ k, s.Listed k ↔ k ∈ s.accessFreqs
  searched : ∀ order item, item ≠ [] → item ∈ s.uniqueItemWithTimeStamp →
    ∀ k ∈ s.search order item, s.checkIfUniqueItemWithTimeStampExists k = true
  oldest : ∀ scheduled key k t, s.getOldestKey scheduled key = .ok (k,t) →
    s.checkIfUniqueItemWithTimeStampExists k = true
  split : ∀ key keys t, get_split_keys s key = .ok (keys,t) →
    ∀ k ∈ keys, s.checkIfUniqueItemWithTimeStampExists k = true
  found : ∀ k ∈ s.accessFreqs, ∃ item ts, get_key_timestamp_split k = .ok (item,ts) ∧ ∀ order, k ∈ s.search order item

-- What holds of every state reached with accepted keys, however they are spelled.
structure Indexed (s : FrequencySmoother) : Prop where
  stamped : s.needTimeStamp = true
  readable : ∀ k ∈ s.accessFreqs, ∃ item ts, get_key_timestamp_split k = .ok (item,ts)
  stamps : ∀ item, ∀ ts ∈ s.timestamps item, WellFormed item ts

theorem new_indexed : Indexed (new true) := by
  refine ⟨rfl,?_,?_⟩
  · intro k live; simp [new] at live
  · intro item ts listed; simp [timestamps,new] at listed

theorem indexCall_indexed (valid : Indexed s) (accepted : Accepted s c) : Indexed (s.indexCall c) := by
  cases c with
  | insert key =>
    obtain ⟨item,ts,read⟩ := accepted
    obtain ⟨_,stamped,index⟩ := insert_read valid.stamped read
    refine ⟨stamped,?_,?_⟩
    · intro k live
      rcases (insert_live s key k).mp live with rfl | old
      · exact ⟨item,ts,read⟩
      · exact valid.readable k old
    · intro other u listed
      change u ∈ (s.insert key).1.timestamps other at listed
      rw [index] at listed
      by_cases same : other = item
      · subst same
        rw [if_pos rfl,OrderedSet.mem_insert] at listed
        rcases listed with rfl | old
        · exact split_wellFormed read
        · exact valid.stamps other u old
      · rw [if_neg same] at listed
        exact valid.stamps other u listed
  | removeKey key =>
    obtain ⟨item,ts,read⟩ := valid.readable key accepted
    obtain ⟨_,stamped,index⟩ := removeKey_read valid.stamped read
    refine ⟨stamped,?_,?_⟩
    · intro k live
      exact valid.readable k ((removeKey_live s key k).mp live).2
    · intro other u listed
      exact valid.stamps other u ((index other u).mp listed).1

theorem indexCalls_indexed (calls : List IndexCall)
    (accepted : ∀ earlier c later, calls = earlier ++ c :: later → Accepted ((new true).indexCalls earlier) c) :
    Indexed ((new true).indexCalls calls) := by
  induction calls using List.reverseRecOn with
  | nil => exact new_indexed
  | append_singleton earlier c ih =>
    have before := ih (fun first a rest shape => accepted first a (rest ++ [c]) (by simp [shape]))
    rw [indexCalls,List.foldl_append]
    exact indexCall_indexed before (accepted earlier c [] rfl)

theorem Indexed.listed_read (valid : Indexed s) (listed : s.Listed k) :
    ∃ item ts, get_key_timestamp_split k = .ok (item,ts) ∧ k = bucketKey item ts ∧ ts ∈ s.timestamps item := by
  obtain ⟨item,ts,member,rfl⟩ := listed
  exact ⟨item,ts,bucketKey_split (valid.stamps item ts member),rfl,member⟩

-- An accepted insert adds the key as it is rebuilt, whatever its spelling.
theorem listed_insert (stamped : s.needTimeStamp = true) (read : get_key_timestamp_split key = .ok (item,ts)) (k : Str) :
    (s.insert key).1.Listed k ↔ k = bucketKey item ts ∨ s.Listed k := by
  obtain ⟨_,_,index⟩ := insert_read stamped read
  constructor
  · intro listed
    obtain ⟨a,v,member,rfl⟩ := listed
    rw [index] at member
    by_cases same : a = item
    · subst same
      rw [if_pos rfl,OrderedSet.mem_insert] at member
      rcases member with rfl | old
      · exact .inl rfl
      · exact .inr ⟨a,v,old,rfl⟩
    · rw [if_neg same] at member
      exact .inr ⟨a,v,member,rfl⟩
  · intro either
    rcases either with rfl | listed
    · refine ⟨item,ts,?_,rfl⟩
      rw [index,if_pos rfl]
      exact OrderedSet.mem_insert.mpr (.inl rfl)
    · obtain ⟨a,v,member,rfl⟩ := listed
      refine ⟨a,v,?_,rfl⟩
      rw [index]
      by_cases same : a = item
      · subst same
        rw [if_pos rfl]
        exact OrderedSet.mem_insert.mpr (.inr member)
      · rw [if_neg same]
        exact member

theorem Indexed.listed_removeKey (valid : Indexed s) (wf : WellFormed item ts)
    (read : get_key_timestamp_split (bucketKey item ts) = .ok (item,ts)) (k : Str) :
    (s.removeKey (bucketKey item ts)).1.Listed k ↔ k ≠ bucketKey item ts ∧ s.Listed k := by
  obtain ⟨_,_,index⟩ := removeKey_read valid.stamped read
  constructor
  · intro listed
    obtain ⟨a,v,member,rfl⟩ := listed
    obtain ⟨before,differs⟩ := (index a v).mp member
    refine ⟨?_,a,v,before,rfl⟩
    intro same
    exact differs (bucketKey_injective (valid.stamps a v before).2.1 wf.2.1 same)
  · intro both
    obtain ⟨differs,a,v,member,rfl⟩ := both
    refine ⟨a,v,(index a v).mpr ⟨member,?_⟩,rfl⟩
    intro same
    obtain ⟨rfl,rfl⟩ := same
    exact differs rfl

-- One call keeps the index and the map together exactly when its key is spelled
-- as it will be rebuilt.
theorem indexCall_keys (valid : Indexed s) (keys : ∀ k, s.Listed k ↔ k ∈ s.accessFreqs) (accepted : Accepted s c) :
    (∀ k, (s.indexCall c).Listed k ↔ k ∈ (s.indexCall c).accessFreqs) ↔ Canonical c := by
  have after := indexCall_indexed valid accepted
  cases c with
  | insert key =>
    obtain ⟨item,ts,read⟩ := accepted
    constructor
    · intro exact_
      have listed := (exact_ key).mpr ((insert_live s key key).mpr (.inl rfl))
      obtain ⟨i,u,other,same,_⟩ := after.listed_read listed
      exact ⟨i,u,other,same⟩
    · intro canonical k
      obtain ⟨i,u,other,spelled⟩ := canonical
      rw [read] at other
      cases other
      refine Iff.trans ?_ (insert_live s key k).symm
      rw [← keys k]
      refine (listed_insert valid.stamped read k).trans ?_
      rw [← spelled]
  | removeKey key =>
    refine iff_of_true ?_ trivial
    obtain ⟨item,ts,read,rfl,_⟩ := valid.listed_read ((keys key).mpr accepted)
    intro k
    refine Iff.trans ?_ (removeKey_live s _ k).symm
    rw [← keys k]
    exact valid.listed_removeKey (split_wellFormed read) read k

theorem new_keys : ∀ k, (new true).Listed k ↔ k ∈ (new true).accessFreqs := by
  intro k
  simp [Listed,timestamps,new]

theorem search_item (filled : item ≠ []) (present : s.uniqueItemWithTimeStamp.find? item = some stamps)
    (order : List Str → List Str) : s.search order item = (s.timestamps item).toList.map (bucketKey item) := by
  simp [search,filled,present,timestamps]

theorem get_split_keys_listed (ran : get_split_keys s key = .ok (keys,t)) (member : k ∈ keys) : s.Listed k := by
  obtain ⟨name,start,stop,rfl,_⟩ := get_split_keys_returned ran
  obtain ⟨ts,chosen,rfl⟩ := List.mem_map.mp member
  exact ⟨name,ts,OrderedSet.mem_toList.mp (select_sub (s.timestamps name).sorted chosen),rfl⟩

theorem getOldestKey_listed (ran : s.getOldestKey scheduled key = .ok (k,t)) : s.Listed k := by
  obtain ⟨item,_,o,_,listed,same,_⟩ := getOldestKey_returned ran
  exact ⟨item,o,listed,same⟩

theorem Indexed.faithful (valid : Indexed s) (keys : ∀ k, s.Listed k ↔ k ∈ s.accessFreqs) : Faithful s := by
  have live : ∀ k, s.Listed k → s.checkIfUniqueItemWithTimeStampExists k = true := by
    intro k listed
    exact decide_eq_true ((keys k).mp listed)
  refine ⟨keys,?_,?_,?_,?_⟩
  · intro order item filled indexed k member
    obtain ⟨stamps,present⟩ := Table.mem_iff.mp indexed
    rw [search_item filled present] at member
    obtain ⟨ts,listed,rfl⟩ := List.mem_map.mp member
    exact live _ ⟨item,ts,OrderedSet.mem_toList.mp listed,rfl⟩
  · intro scheduled key k t ran
    exact live k (getOldestKey_listed ran)
  · intro key listed t ran k member
    exact live k (get_split_keys_listed ran member)
  · intro k present
    obtain ⟨item,ts,read,rfl,listed⟩ := valid.listed_read ((keys k).mpr present)
    refine ⟨item,ts,read,?_⟩
    intro order
    cases entry : s.uniqueItemWithTimeStamp.find? item with
    | none => simp [timestamps,entry] at listed
    | some stamps =>
      rw [search_item (valid.stamps item ts listed).1 entry]
      exact List.mem_map.mpr ⟨ts,OrderedSet.mem_toList.mpr listed,rfl⟩

-- In every state of a run the index stands for the live keys, exactly when every
-- key inserted by the run is spelled as item@to_string(timestamp).
theorem index_exact_iff_canonical (calls : List IndexCall)
    (accepted : ∀ earlier c later, calls = earlier ++ c :: later → Accepted ((new true).indexCalls earlier) c) :
    (∀ earlier later, calls = earlier ++ later → Faithful ((new true).indexCalls earlier)) ↔
      ∀ earlier c later, calls = earlier ++ c :: later → Canonical c := by
  have reached : ∀ earlier later, calls = earlier ++ later → Indexed ((new true).indexCalls earlier) := by
    intro earlier later shape
    exact indexCalls_indexed earlier (fun first c rest split => accepted first c (rest ++ later) (by simp [shape,split]))
  constructor
  · intro always earlier c later shape
    have before := always earlier (c :: later) shape
    have after := always (earlier ++ [c]) later (by simp [shape])
    rw [indexCalls,List.foldl_append] at after
    exact (indexCall_keys (reached earlier _ shape) before.keys (accepted earlier c later shape)).mp after.keys
  · intro canonical earlier
    induction earlier using List.reverseRecOn with
    | nil =>
      intro later _
      exact new_indexed.faithful new_keys
    | append_singleton earlier c ih =>
      intro later shape
      have split : calls = earlier ++ c :: later := by simp [shape]
      have before := ih (c :: later) split
      have keys := (indexCall_keys (reached earlier _ split) before.keys (accepted earlier c later split)).mpr
        (canonical earlier c later split)
      have indexed := reached _ later shape
      rw [indexCalls,List.foldl_append] at indexed ⊢
      exact indexed.faithful keys

theorem index_exact_insert_remove :
    (∀ earlier c later, [IndexCall.insert (str "a@7"),.removeKey (str "a@7")] = earlier ++ c :: later →
      Accepted ((new true).indexCalls earlier) c) ∧
    ((∀ earlier later, [IndexCall.insert (str "a@7"),.removeKey (str "a@7")] = earlier ++ later →
      Faithful ((new true).indexCalls earlier)) ↔
    ∀ earlier c later, [IndexCall.insert (str "a@7"),.removeKey (str "a@7")] = earlier ++ c :: later → Canonical c) := by
  have accepted : ∀ earlier c later, [IndexCall.insert (str "a@7"),.removeKey (str "a@7")] = earlier ++ c :: later →
      Accepted ((new true).indexCalls earlier) c := by
    intro earlier c later shape
    cases earlier with
    | nil =>
      cases shape
      exact ⟨str "a",7,by decide +kernel⟩
    | cons first earlier =>
      cases earlier with
      | nil =>
        cases shape
        change str "a@7" ∈ ((new true).indexCalls [.insert (str "a@7")]).accessFreqs
        decide +kernel
      | cons second earlier => simp at shape
  exact ⟨accepted,index_exact_iff_canonical _ accepted⟩

-- a@07 is accepted and stored, and the index rebuilds it as a@7.
theorem leading_zero_not_listed :
    ¬ ∀ calls : List IndexCall,
      (∀ earlier c later, calls = earlier ++ c :: later → Accepted ((new true).indexCalls earlier) c) →
      Faithful ((new true).indexCalls calls) := by
  intro always
  have accepted : ∀ earlier c later, [IndexCall.insert (str "a@07")] = earlier ++ c :: later →
      Accepted ((new true).indexCalls earlier) c := by
    intro earlier c later shape
    cases earlier with
    | nil =>
      cases shape
      exact ⟨str "a",7,by decide +kernel⟩
    | cons first earlier => simp at shape
  have reached := always _ accepted
  have listed := reached.searched id (str "a") (by decide) (by decide +kernel) (str "a@7") (by decide +kernel)
  exact absurd listed (by decide +kernel)

end FrequencySmoother
end TsWaffle
