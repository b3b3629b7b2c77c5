import TsWaffle.FrequencySmoother

namespace TsWaffle.FrequencySmoother
open Text
variable {s : FrequencySmoother}

def timestamps (s : FrequencySmoother) (item : Str) : OrderedSet Int :=
  (s.uniqueItemWithTimeStamp.find? item).getD ∅

-- A smoother over item@timestamp keys: the tree and the index both say what the
-- map says. An item left with an empty set counts as one without keys.
structure Exact (s : FrequencySmoother) : Prop where
  stamped : s.needTimeStamp = true
  tree : s.TreeExact
  index : ∀ item ts, ts ∈ s.timestamps item ↔ WellFormed item ts ∧ bucketKey item ts ∈ s.accessFreqs
  named : ∀ k ∈ s.accessFreqs, ∃ item ts, WellFormed item ts ∧ k = bucketKey item ts

theorem new_exact : Exact (new true) := by
  refine ⟨rfl,new_tree true,?_,?_⟩
  · intro item ts; simp [timestamps,new]
  · intro k member; simp [new] at member

-- Whatever the spelling of the key, the index gets and loses what the parser reads.
theorem insert_read (stamped : s.needTimeStamp = true) (read : get_key_timestamp_split key = .ok (item,ts)) :
    (s.insert key).2 = .ok () ∧ (s.insert key).1.needTimeStamp = true ∧
      ∀ other, (s.insert key).1.timestamps other =
        if other = item then (s.timestamps item).insert ts else s.timestamps other := by
  simp only [insert,stamped,if_true,read]
  refine ⟨trivial,trivial,?_⟩
  intro other
  by_cases same : other = item <;> simp [timestamps,same]

theorem removeKey_read (stamped : s.needTimeStamp = true) (read : get_key_timestamp_split key = .ok (item,ts)) :
    (s.removeKey key).2 = .ok () ∧ (s.removeKey key).1.needTimeStamp = true ∧
      ∀ other u, u ∈ (s.removeKey key).1.timestamps other ↔
        u ∈ s.timestamps other ∧ ¬ (other = item ∧ u = ts) := by
  simp only [removeKey,stamped,if_true,read]
  cases found : s.uniqueItemWithTimeStamp.find? item with
  | none =>
    refine ⟨rfl,rfl,?_⟩
    intro other u
    by_cases same : other = item
    · subst same; simp [timestamps,found]
    · simp [timestamps,same]
  | some stamps =>
    by_cases last : stamps.erase ts = ∅
    · simp only [last,if_true]
      refine ⟨trivial,trivial,?_⟩
      intro other u
      by_cases same : other = item
      · subst same
        have gone : u ∈ stamps → u = ts := by
          intro member
          by_contra other_
          have kept : u ∈ stamps.erase ts := OrderedSet.mem_erase.mpr ⟨member,other_⟩
          rw [last] at kept
          exact OrderedSet.notMem_empty u kept
        simp only [timestamps,Table.find_erase,if_true,Option.getD_none,OrderedSet.notMem_empty,found,
          Option.getD_some,true_and,false_iff,not_and,not_not]
        exact gone
      · simp [timestamps,same]
    · simp only [last,if_false]
      refine ⟨trivial,trivial,?_⟩
      intro other u
      by_cases same : other = item
      · subst same; simp [timestamps,found]
      · simp [timestamps,same]

-- A key that is not read leaves the index as it is.
theorem insert_unread (read : get_key_timestamp_split key = .error fault) :
    (s.insert key).1.uniqueItemWithTimeStamp = s.uniqueItemWithTimeStamp := by
  unfold insert
  rw [read]
  dsimp only
  split <;> rfl

theorem removeKey_unread (read : get_key_timestamp_split key = .error fault) :
    (s.removeKey key).1.uniqueItemWithTimeStamp = s.uniqueItemWithTimeStamp := by
  unfold removeKey
  rw [read]
  dsimp only
  split <;> rfl

theorem insert_wellFormed (stamped : s.needTimeStamp = true) (wf : WellFormed item ts) :
    (s.insert (bucketKey item ts)).2 = .ok () ∧
      (s.insert (bucketKey item ts)).1.needTimeStamp = true ∧
      ∀ other, (s.insert (bucketKey item ts)).1.timestamps other =
        if other = item then (s.timestamps item).insert ts else s.timestamps other :=
  insert_read stamped (bucketKey_split wf)

theorem removeKey_wellFormed (stamped : s.needTimeStamp = true) (wf : WellFormed item ts) :
    (s.removeKey (bucketKey item ts)).2 = .ok () ∧
      (s.removeKey (bucketKey item ts)).1.needTimeStamp = true ∧
      ∀ other u, u ∈ (s.removeKey (bucketKey item ts)).1.timestamps other ↔
        u ∈ s.timestamps other ∧ ¬ (other = item ∧ u = ts) :=
  removeKey_read stamped (bucketKey_split wf)

theorem insert_live (s : FrequencySmoother) (key a : Str) :
    a ∈ (s.insert key).1.accessFreqs ↔ a = key ∨ a ∈ s.accessFreqs := by
  rw [(insert_parts s key).1,Table.mem_insert]

theorem removeKey_live (s : FrequencySmoother) (key a : Str) :
    a ∈ (s.removeKey key).1.accessFreqs ↔ a ≠ key ∧ a ∈ s.accessFreqs := by
  rw [Table.mem_iff,Table.mem_iff]
  by_cases same : a = key <;> simp [removeKey_freqs,same]

theorem setFrequency_exact (valid : Exact s) (live : k ∈ s.accessFreqs) (value : Int) :
    Exact (s.setFrequency k value) := by
  have members : ∀ a, a ∈ (s.setFrequency k value).accessFreqs ↔ a ∈ s.accessFreqs := by
    intro a
    rw [Table.mem_iff,Table.mem_iff]
    by_cases same : a = k
    · subst same; simpa using Table.mem_iff.mp live
    · simp [same]
  refine ⟨valid.stamped,setFrequency_tree valid.tree k value,?_,?_⟩
  · intro item ts
    rw [members]
    exact valid.index item ts
  · intro a member
    exact valid.named a ((members a).mp member)

theorem removeKey_exact (valid : Exact s) (wf : WellFormed item ts) :
    Exact (s.removeKey (bucketKey item ts)).1 := by
  obtain ⟨_,stamped,index⟩ := removeKey_wellFormed valid.stamped wf
  have members := removeKey_live s (bucketKey item ts)
  refine ⟨stamped,removeKey_tree valid.tree _,?_,?_⟩
  · intro other u
    rw [index,valid.index,members]
    constructor
    · rintro ⟨⟨good,live⟩,differs⟩
      exact ⟨good,fun same => differs (bucketKey_injective good.2.1 wf.2.1 same),live⟩
    · rintro ⟨good,differs,live⟩
      refine ⟨⟨good,live⟩,?_⟩
      rintro ⟨rfl,rfl⟩
      exact differs rfl
  · intro a member
    exact valid.named a ((members a).mp member).2

-- What a PUT does to the smoother: insert, then setFrequency to the clock. The
-- two together keep exactness when no other tree entry of the key can be left.
def store (s : FrequencySmoother) (k : Str) (clock : Int) : FrequencySmoother :=
  (s.insert k).1.setFrequency k clock

theorem store_freqs (s : FrequencySmoother) (k a : Str) (clock : Int) :
    (s.store k clock).accessFreqs.find? a = if a = k then some clock else s.accessFreqs.find? a := by
  simp only [store,setFrequency_freqs,(insert_parts s k).1,Table.find_insert]
  split <;> rfl

theorem store_tree (valid : TreeExact s) (k : Str) (clock : Int)
    (clean : ∀ f, s.accessFreqs.find? k = some f → f = 0 ∨ f = clock) : TreeExact (s.store k clock) := by
  intro e
  rw [store_freqs,store,setFrequency_mem,(insert_parts s k).1,(insert_parts s k).2,OrderedSet.mem_insert,valid e]
  cases e with
  | mk a f =>
    by_cases same : a = k
    · subst same
      simp only [Entry.mk.injEq,true_and,Table.find_insert,if_true,Option.getD_some,Option.some.injEq,ne_eq]
      constructor
      · rintro (rfl | ⟨rfl | found,other⟩)
        · rfl
        · exact absurd rfl other
        · rcases clean f found with zero | now
          · exact absurd zero other
          · exact now.symm
      · intro equal; exact .inl equal.symm
    · simp [same]

-- A smoother that has grown by one well-formed key, whatever frequency it has.
theorem grown_exact {t : FrequencySmoother} (valid : Exact s) (wf : WellFormed item ts)
    (stamped : t.needTimeStamp = true) (tree : TreeExact t)
    (members : ∀ a, a ∈ t.accessFreqs ↔ a = bucketKey item ts ∨ a ∈ s.accessFreqs)
    (index : ∀ other, t.timestamps other = if other = item then (s.timestamps item).insert ts else s.timestamps other) :
    Exact t := by
  refine ⟨stamped,tree,?_,?_⟩
  · intro other u
    rw [index,members]
    by_cases same : other = item
    · subst same
      rw [if_pos rfl,OrderedSet.mem_insert,valid.index]
      constructor
      · rintro (rfl | ⟨good,live⟩)
        · exact ⟨wf,.inl rfl⟩
        · exact ⟨good,.inr live⟩
      · rintro ⟨good,equal | live⟩
        · exact .inl (bucketKey_injective good.2.1 wf.2.1 equal).2
        · exact .inr ⟨good,live⟩
    · rw [if_neg same,valid.index]
      constructor
      · rintro ⟨good,live⟩; exact ⟨good,.inr live⟩
      · rintro ⟨good,equal | live⟩
        · exact absurd (bucketKey_injective good.2.1 wf.2.1 equal).1 same
        · exact ⟨good,live⟩
  · intro a member
    rcases (members a).mp member with rfl | live
    · exact ⟨item,ts,wf,rfl⟩
    · exact valid.named a live

theorem insert_exact (valid : Exact s) (wf : WellFormed item ts) (absent : bucketKey item ts ∉ s.accessFreqs) :
    Exact (s.insert (bucketKey item ts)).1 := by
  obtain ⟨_,stamped,index⟩ := insert_wellFormed valid.stamped wf
  refine grown_exact valid wf stamped ?_ ?_ index
  · refine (insert_tree valid.tree _).mpr ?_
    intro f found
    exact absurd (Table.mem_iff.mpr ⟨f,found⟩) absent
  · exact insert_live s _

theorem store_exact (valid : Exact s) (wf : WellFormed item ts) (clock : Int)
    (clean : ∀ f, s.accessFreqs.find? (bucketKey item ts) = some f → f = 0 ∨ f = clock) :
    Exact (s.store (bucketKey item ts) clock) := by
  obtain ⟨_,stamped,index⟩ := insert_wellFormed valid.stamped wf
  refine grown_exact valid wf stamped (store_tree valid.tree _ clock clean) ?_ index
  intro a
  rw [Table.mem_iff,Table.mem_iff]
  by_cases same : a = bucketKey item ts <;> simp [store_freqs,same]

-- Looking an item up creates an empty set for it at most.
theorem fetch_timestamps (s : FrequencySmoother) (item other : Str) :
    (s.get_timestamp_for_key item).2.timestamps other = s.timestamps other := by
  simp only [get_timestamp_for_key,timestamps,Table.fetch_find]
  by_cases same : other = item <;> simp [same]

theorem get_timestamp_for_key_value (s : FrequencySmoother) (item : Str) :
    (s.get_timestamp_for_key item).1 = s.timestamps item := Table.fetch_value _ _ _

theorem get_timestamp_for_key_exact (valid : Exact s) (item : Str) :
    Exact (s.get_timestamp_for_key item).2 := by
  refine ⟨valid.stamped,valid.tree,?_,valid.named⟩
  intro other ts
  rw [fetch_timestamps]
  exact valid.index other ts

-- The oldest key is the live key of the item with the smallest timestamp.
def Oldest (s : FrequencySmoother) (item : Str) (o : Int) : Prop :=
  o ∈ s.timestamps item ∧ ∀ u ∈ s.timestamps item, o ≤ u

theorem getOldestKey_wellFormed (wf : WellFormed item ts) (bucket : u ∈ s.timestamps item)
    (ktd : List Str) :
    ∃ o, s.getOldestKey ktd (bucketKey item ts) = .ok (bucketKey item o,s) ∧ s.Oldest item o := by
  cases found : s.uniqueItemWithTimeStamp.find? item with
  | none => simp [timestamps,found] at bucket
  | some stamps =>
    have same : s.timestamps item = stamps := by simp [timestamps,found]
    cases shape : stamps.toList with
    | nil =>
      rw [same,← OrderedSet.mem_toList,shape] at bucket
      cases bucket
    | cons o rest =>
      refine ⟨o,?_,?_,?_⟩
      · simp [getOldestKey,bucketKey_split wf,Table.fetch_present found,shape]
      · rw [same,← OrderedSet.mem_toList,shape]; exact List.mem_cons_self
      · intro v member
        rw [same] at member
        exact OrderedSet.head_le shape member

def oldest? (s : FrequencySmoother) (item : Str) : Option Int := (s.timestamps item).toList.head?

theorem mem_oldest : o ∈ s.oldest? item ↔ s.Oldest item o := by
  unfold oldest?
  cases shape : (s.timestamps item).toList with
  | nil =>
    constructor
    · intro member; cases member
    · intro oldest
      have present := OrderedSet.mem_toList.mpr oldest.1
      rw [shape] at present
      cases present
  | cons a rest =>
    rw [List.head?_cons,Option.mem_some_iff]
    constructor
    · rintro rfl
      refine ⟨OrderedSet.mem_toList.mp (by rw [shape]; exact List.mem_cons_self),?_⟩
      intro u member
      exact OrderedSet.head_le shape member
    · intro oldest
      have first : a ∈ s.timestamps item := OrderedSet.mem_toList.mp (by rw [shape]; exact List.mem_cons_self)
      exact le_antisymm (OrderedSet.head_le shape oldest.1) (oldest.2 a first)

theorem oldest_unique (one : Oldest s item a) (two : Oldest s item b) : a = b :=
  le_antisymm (one.2 b two.1) (two.2 a one.1)

end TsWaffle.FrequencySmoother
