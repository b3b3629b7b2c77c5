import Mathlib

namespace TsWaffle.Fifo
variable {α β : Type} [Preorder β] {gone kept held added : List α} {rank : α → β}

-- A queue kept with its newest member first: added enters at the front, gone
-- leaves at the back. When the newcomers rank highest, what leaves does so in
-- the order of the ranks, and what stays is still ordered.
structure Passed (rank : α → β) (gone kept : List α) : Prop where
  leaving : (gone.map rank).Pairwise (· ≤ ·)
  staying : (kept.map rank).Pairwise (· ≥ ·)
  across : ∀ a ∈ gone, ∀ b ∈ kept, rank a ≤ rank b

theorem pass (top : β) (queue : gone ++ kept.reverse = held.reverse ++ added) (ordered : (held.map rank).Pairwise (· ≥ ·))
    (new : ∀ a ∈ added, rank a = top) (below : ∀ a ∈ held, rank a ≤ top) : Passed rank gone kept := by
  have whole : ((held.reverse ++ added).map rank).Pairwise (· ≤ ·) := by
    rw [List.map_append,List.map_reverse,List.pairwise_append]
    refine ⟨List.pairwise_reverse.mpr ordered,?_,?_⟩
    · rw [List.map_congr_left new]
      simp [List.pairwise_replicate]
    · intro a old b fresh
      obtain ⟨x,member,rfl⟩ := List.mem_map.mp (List.mem_reverse.mp old)
      obtain ⟨y,listed,rfl⟩ := List.mem_map.mp fresh
      rw [new y listed]
      exact below x member
  rw [← queue,List.map_append,List.map_reverse,List.pairwise_append] at whole
  obtain ⟨leaving,staying,across⟩ := whole
  refine ⟨leaving,List.pairwise_reverse.mp staying,?_⟩
  intro a left b right
  exact across _ (List.mem_map_of_mem left) _ (List.mem_reverse.mpr (List.mem_map_of_mem right))

-- As long as no more leave than were there, none of the newcomers leaves.
theorem gone_held (queue : gone ++ kept.reverse = held.reverse ++ added) (few : gone.length ≤ held.length)
    (left : a ∈ gone) : a ∈ held := by
  have first : gone = held.reverse.take gone.length := by
    have cut := congrArg (List.take gone.length) queue
    rw [List.take_left,List.take_append_of_le_length (by rw [List.length_reverse]; exact few)] at cut
    exact cut
  rw [first] at left
  exact List.mem_reverse.mp (List.mem_of_mem_take left)

-- Of the members held all but fewer than leave rank as high as one that leaves.
theorem Passed.outranked [DecidableLE β] (passed : Passed rank gone kept) (queue : gone ++ kept.reverse = held.reverse ++ added)
    (left : a ∈ gone) : held.length+1 ≤ held.countP (fun b => rank a ≤ rank b)+gone.length := by
  have counted := congrArg (List.countP (fun b => ¬ rank a ≤ rank b)) queue
  rw [List.countP_append,List.countP_append,List.countP_reverse,List.countP_reverse] at counted
  have above : kept.countP (fun b => ¬ rank a ≤ rank b) = 0 := by
    rw [List.countP_eq_zero]
    intro b right
    simpa using passed.across a left b right
  have short : gone.countP (fun b => ¬ rank a ≤ rank b) < gone.length := by
    refine lt_of_le_of_ne List.countP_le_length ?_
    intro whole
    have itself := List.countP_eq_length.mp whole a left
    simp at itself
  have parts := List.length_eq_countP_add_countP (fun b => rank a ≤ rank b) (l:=held)
  simp only [decide_eq_true_eq] at parts
  omega

end TsWaffle.Fifo
