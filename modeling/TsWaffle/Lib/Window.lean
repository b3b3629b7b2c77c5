import Mathlib

namespace TsWaffle.Window
variable {α : Type} [LinearOrder α] {b : Finset α} {o t : α}

-- Everything that has something below it.
def dropOldest (b : Finset α) : Finset α := b.filter (fun t => ∃ u ∈ b, u < t)

-- A window over an order: the least member makes room for a new one.
def slide (b : Finset α) (t : α) : Finset α := insert t (dropOldest b)

theorem dropOldest_eq (member : o ∈ b) (least : ∀ u ∈ b, o ≤ u) : dropOldest b = b.erase o := by
  ext t
  rw [dropOldest,Finset.mem_filter,Finset.mem_erase]
  constructor
  · rintro ⟨present,u,other,below⟩
    exact ⟨ne_of_gt (lt_of_le_of_lt (least u other) below),present⟩
  · rintro ⟨differs,present⟩
    exact ⟨present,o,member,lt_of_le_of_ne (least t present) (Ne.symm differs)⟩

theorem mem_slide (member : o ∈ b) (least : ∀ u ∈ b, o ≤ u) : t ∈ slide b n ↔ t = n ∨ (t ∈ b ∧ t ≠ o) := by
  rw [slide,dropOldest_eq member least,Finset.mem_insert,Finset.mem_erase,and_comm (a:=t ≠ o)]

theorem slide_card (member : o ∈ b) (least : ∀ u ∈ b, o ≤ u) (fresh : t ∉ b) : (slide b t).card = b.card := by
  have outside : t ∉ b.erase o := fun inside => fresh (Finset.mem_of_mem_erase inside)
  rw [slide,dropOldest_eq member least,Finset.card_insert_of_notMem outside,Finset.card_erase_add_one member]

-- New members that come in order push out only old ones, as long as they are no
-- more than the window is wide.
theorem slides_new {base : α} (below : ∀ u ∈ b, u < base) (stamps : List α) (sorted : stamps.Pairwise (· < ·))
    (above : ∀ s ∈ stamps, base ≤ s) (few : stamps.length ≤ b.card) :
    (stamps.foldl slide b).card = b.card ∧ ∀ u, base ≤ u → (u ∈ stamps.foldl slide b ↔ u ∈ stamps) := by
  induction stamps using List.reverseRecOn with
  | nil =>
    refine ⟨rfl,?_⟩
    intro u late
    refine iff_of_false ?_ List.not_mem_nil
    intro member
    exact absurd late (not_le.mpr (below u member))
  | append_singleton first s ih =>
    rw [List.length_append,List.length_singleton] at few
    obtain ⟨before,_,last⟩ := List.pairwise_append.mp sorted
    obtain ⟨card,members⟩ := ih before (fun u member => above u (List.mem_append_left _ member)) (by omega)
    have late := above s (List.mem_append_right _ List.mem_cons_self)
    rw [List.foldl_append,List.foldl_cons,List.foldl_nil]
    generalize first.foldl slide b = w at card members
    have old : ∃ u ∈ w, u < base := by
      by_contra none
      push Not at none
      have listed : w ⊆ first.toFinset := by
        intro u member
        exact List.mem_toFinset.mpr ((members u (none u member)).mp member)
      have fewer := (Finset.card_le_card listed).trans (List.toFinset_card_le first)
      omega
    obtain ⟨v,present,early⟩ := old
    obtain ⟨o,member,least⟩ := Finset.exists_min_image w id ⟨v,present⟩
    have gone : o < base := lt_of_le_of_lt (least v present) early
    have fresh : s ∉ w := by
      intro inside
      exact lt_irrefl s (last s ((members s late).mp inside) s List.mem_cons_self)
    refine ⟨(slide_card member least fresh).trans card,?_⟩
    intro u after
    have kept : u ≠ o := ne_of_gt (lt_of_lt_of_le gone after)
    rw [mem_slide member least,members u after,List.mem_append,List.mem_singleton]
    tauto

end TsWaffle.Window
