import Mathlib

namespace TsWaffle.Turns
variable {α : Type} {members front back : List α} {x : α}

-- Who has been named after so many full rounds and the front of one more.
def named (members : List α) (rounds : Nat) (front : List α) : List α := (List.replicate rounds members).flatten ++ front

theorem named_round (members : List α) (rounds : Nat) : named members rounds members = named members (rounds+1) [] := by
  simp [named,List.replicate_succ']

-- Between two turns of a member all the others have theirs.
theorem not_recent (distinct : members.Nodup) (split : members = front ++ x :: back) (few : n < members.length) (rounds : Nat) :
    x ∉ (named members rounds front).drop ((named members rounds front).length-n) := by
  subst split
  have apart : x ∉ back ++ front := by
    have moved := (List.perm_append_comm.nodup_iff).mp distinct
    rw [List.cons_append,List.nodup_cons] at moved
    exact moved.1
  intro listed
  apply apart
  cases rounds with
  | zero =>
    refine List.mem_append_right _ (List.mem_of_mem_drop (i:=front.length-n) ?_)
    simpa [named] using listed
  | succ rounds =>
    have shape : named (front ++ x :: back) (rounds+1) front =
        (named (front ++ x :: back) rounds (front ++ [x])) ++ (back ++ front) := by
      simp [named,List.replicate_succ']
    rw [shape,List.drop_append] at listed
    rcases List.mem_append.mp listed with early | late
    · have past : (named (front ++ x :: back) rounds (front ++ [x])).length ≤
          ((named (front ++ x :: back) rounds (front ++ [x])) ++ (back ++ front)).length-n := by
        simp only [List.length_append,List.length_cons] at few ⊢
        omega
      rw [List.drop_eq_nil_of_le past] at early
      cases early
    · exact List.mem_of_mem_drop late

end TsWaffle.Turns
