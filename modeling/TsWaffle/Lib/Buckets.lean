import Mathlib

namespace TsWaffle.Buckets
variable {α : Type} [LinearOrder α] {b : Finset α} {start stop t u x : α}

-- A time line cut into buckets: each reaches from its own start up to the next
-- one's, the last one without end.
def Covers (b : Finset α) (t x : α) : Prop := t ∈ b ∧ t ≤ x ∧ ∀ u ∈ b, t < u → x < u

-- The bucket shares a time with the closed range.
def Meets (b : Finset α) (start stop t : α) : Prop := t ∈ b ∧ t ≤ stop ∧ ∀ u ∈ b, t < u → start < u

-- A scan that starts one element before the first one that is not below the range.
def Scanned (b : Finset α) (start stop t : α) : Prop :=
  t ∈ b ∧ t ≤ stop ∧ (start ≤ t ∨ (t < start ∧ ∀ u ∈ b, u < start → u ≤ t))

theorem meets_iff (forward : start ≤ stop) : Meets b start stop t ↔ ∃ x, start ≤ x ∧ x ≤ stop ∧ Covers b t x := by
  constructor
  · rintro ⟨member,below,later⟩
    refine ⟨max start t,le_max_left _ _,max_le forward below,member,le_max_right _ _,?_⟩
    intro u other above
    exact max_lt (later u other above) above
  · rintro ⟨x,after,before,member,inside,ends⟩
    refine ⟨member,inside.trans before,?_⟩
    intro u other above
    exact after.trans_lt (ends u other above)

-- The scan misses nothing.
theorem Meets.scanned (met : Meets b start stop t) : Scanned b start stop t := by
  obtain ⟨member,below,later⟩ := met
  refine ⟨member,below,?_⟩
  rcases le_or_gt start t with inside | early
  · exact .inl inside
  · refine .inr ⟨early,?_⟩
    intro u other before
    by_contra above
    exact absurd (later u other (not_le.mp above)) (not_lt.mpr before.le)

-- What it reads without need ends just where the range starts.
theorem Scanned.extra (scanned : Scanned b start stop t) (apart : ¬ Meets b start stop t) : t < start ∧ start ∈ b := by
  obtain ⟨member,below,side⟩ := scanned
  simp only [Meets,not_and,not_forall,not_lt] at apart
  obtain ⟨u,other,above,reached⟩ := apart member below
  rcases side with inside | ⟨early,last⟩
  · exact absurd (inside.trans_lt above) (not_lt.mpr reached)
  · rcases reached.lt_or_eq with before | same
    · exact absurd (last u other before) (not_le.mpr above)
    · subst same
      exact ⟨early,other⟩

-- The scan is exact unless the range starts at a bucket that has one before it.
theorem scan_exact_iff (forward : start ≤ stop) :
    (∀ t, Scanned b start stop t ↔ Meets b start stop t) ↔ ¬ (start ∈ b ∧ ∃ u ∈ b, u < start) := by
  constructor
  · rintro exact_ ⟨first,u,member,before⟩
    obtain ⟨g,last,top⟩ := Finset.exists_max_image (b.filter (· < start)) id ⟨u,by simp [member,before]⟩
    simp only [Finset.mem_filter,id_eq] at last top
    have scanned : Scanned b start stop g :=
      ⟨last.1,last.2.le.trans forward,.inr ⟨last.2,fun v other below => top v ⟨other,below⟩⟩⟩
    have met := (exact_ g).mp scanned
    exact absurd (met.2.2 start first last.2) (lt_irrefl start)
  · intro free t
    refine ⟨?_,Meets.scanned⟩
    intro scanned
    by_contra apart
    obtain ⟨early,first⟩ := scanned.extra apart
    exact free ⟨first,t,scanned.1,early⟩

end TsWaffle.Buckets
