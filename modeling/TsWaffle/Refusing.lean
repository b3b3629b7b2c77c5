import TsWaffle.TimestampIndex

namespace TsWaffle.FrequencySmoother
open Text
variable {s : FrequencySmoother} {key : Str}

-- The three structures say the same; a hash map has no order.
structure Same (s t : FrequencySmoother) : Prop where
  freqs : ∀ k, s.accessFreqs.find? k = t.accessFreqs.find? k
  tree : s.accessTree = t.accessTree
  index : ∀ item, s.uniqueItemWithTimeStamp.find? item = t.uniqueItemWithTimeStamp.find? item

theorem insert_same (read : get_key_timestamp_split key = .error fault) :
    Same (s.insert key).1 s ↔ s.accessFreqs.find? key = some 0 ∧ ⟨key,0⟩ ∈ s.accessTree := by
  constructor
  · intro same
    refine ⟨?_,?_⟩
    · rw [← same.freqs key,(insert_parts s key).1,Table.find_insert,if_pos rfl]
    · rw [← same.tree,(insert_parts s key).2]
      exact OrderedSet.mem_insert.mpr (.inl rfl)
  · rintro ⟨zero,listed⟩
    refine ⟨?_,?_,?_⟩
    · intro k
      rw [(insert_parts s key).1,Table.find_insert]
      split
      · rename_i own
        rw [own,zero]
      · rfl
    · rw [(insert_parts s key).2]
      apply OrderedSet.ext
      intro e
      rw [OrderedSet.mem_insert]
      constructor
      · rintro (rfl | old)
        · exact listed
        · exact old
      · exact .inr
    · intro item
      rw [insert_unread read]

theorem removeKey_same (read : get_key_timestamp_split key = .error fault) :
    Same (s.removeKey key).1 s ↔ key ∉ s.accessFreqs ∧ ⟨key,0⟩ ∉ s.accessTree := by
  constructor
  · intro same
    have none : s.accessFreqs.find? key = none := by rw [← same.freqs key,removeKey_freqs,if_pos rfl]
    refine ⟨Table.find_none.mp none,?_⟩
    intro listed
    have erased := (removeKey_parts s key).2
    rw [same.tree,none] at erased
    rw [erased] at listed
    exact (OrderedSet.mem_erase.mp listed).2 rfl
  · rintro ⟨absent,unlisted⟩
    have none := Table.find_none.mpr absent
    refine ⟨?_,?_,?_⟩
    · intro k
      rw [removeKey_freqs]
      split
      · rename_i own
        rw [own,none]
      · rfl
    · rw [(removeKey_parts s key).2,none]
      apply OrderedSet.ext
      intro e
      rw [OrderedSet.mem_erase]
      constructor
      · exact And.left
      · intro old
        refine ⟨old,?_⟩
        rintro rfl
        exact unlisted old
    · intro item
      rw [removeKey_unread read]

theorem insert_throws (stamped : s.needTimeStamp = true) :
    (s.insert key).2 = .error .invalid_argument ↔ get_key_timestamp_split key = .error .invalid_argument := by
  unfold insert
  dsimp only
  rw [if_pos stamped]
  cases read : get_key_timestamp_split key with
  | error fault => simp only [Except.error.injEq]
  | ok parts =>
    refine iff_of_false ?_ ?_ <;>
    · intro clash
      cases clash

theorem removeKey_throws (stamped : s.needTimeStamp = true) :
    (s.removeKey key).2 = .error .invalid_argument ↔ get_key_timestamp_split key = .error .invalid_argument := by
  unfold removeKey
  dsimp only
  rw [if_pos stamped]
  cases read : get_key_timestamp_split key with
  | error fault => simp only [Except.error.injEq]
  | ok parts =>
    dsimp only
    refine iff_of_false ?_ ?_
    · intro clash
      split at clash
      · cases clash
      · split at clash <;> cases clash
    · intro clash
      cases clash

-- Both calls work on the map and the tree before they read the key. What they did
-- shows, unless a rejected insert found the key at frequency 0 in both, and a
-- rejected removal in neither.
theorem rejected_unchanged_iff (stamped : s.needTimeStamp = true) :
    (((s.insert key).2 = .error .invalid_argument → Same (s.insert key).1 s) ↔
      (get_key_timestamp_split key ≠ .error .invalid_argument ∨
        (s.accessFreqs.find? key = some 0 ∧ ⟨key,0⟩ ∈ s.accessTree))) ∧
    (((s.removeKey key).2 = .error .invalid_argument → Same (s.removeKey key).1 s) ↔
      (get_key_timestamp_split key ≠ .error .invalid_argument ∨
        (key ∉ s.accessFreqs ∧ ⟨key,0⟩ ∉ s.accessTree))) := by
  rw [insert_throws stamped,removeKey_throws stamped]
  by_cases read : get_key_timestamp_split key = .error .invalid_argument
  · rw [insert_same read,removeKey_same read]
    simp [read]
  · simp [read]

theorem rejected_unchanged_bare :
    (new true).needTimeStamp = true ∧
    (((((new true).insert (str "a")).2 = .error .invalid_argument → Same ((new true).insert (str "a")).1 (new true)) ↔
      (get_key_timestamp_split (str "a") ≠ .error .invalid_argument ∨
        ((new true).accessFreqs.find? (str "a") = some 0 ∧ ⟨str "a",0⟩ ∈ (new true).accessTree))) ∧
    ((((new true).removeKey (str "a")).2 = .error .invalid_argument → Same ((new true).removeKey (str "a")).1 (new true)) ↔
      (get_key_timestamp_split (str "a") ≠ .error .invalid_argument ∨
        (str "a" ∉ (new true).accessFreqs ∧ ⟨str "a",0⟩ ∉ (new true).accessTree)))) :=
  ⟨rfl,rejected_unchanged_iff rfl⟩

-- The key a is rejected and stays in the map.
theorem rejected_insert_stays :
    ¬ ∀ (s : FrequencySmoother) (key : Str), s.needTimeStamp = true →
      ((s.insert key).2 = .error .invalid_argument → Same (s.insert key).1 s) ∧
      ((s.removeKey key).2 = .error .invalid_argument → Same (s.removeKey key).1 s) := by
  intro always
  have same := (always (new true) (str "a") rfl).1 (by decide +kernel)
  exact absurd (same.freqs (str "a")) (by decide +kernel)

end TsWaffle.FrequencySmoother
