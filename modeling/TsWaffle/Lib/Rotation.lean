import TsWaffle.Lib.Counting

namespace TsWaffle.Rotation
variable {κ : Type} {F D : Nat} {keys more chosen : List κ} {rank next : κ → Int} {clock : Int}

-- The members that have not been taken for j rounds.
def overdue (keys : List κ) (rank : κ → Int) (clock : Int) (j : Nat) : List κ :=
  keys.filter (fun a => rank a+j ≤ clock)

theorem mem_overdue : a ∈ overdue keys rank clock j ↔ a ∈ keys ∧ rank a+j ≤ clock := by
  simp [overdue]

-- D members of which each round takes F: after j rounds at most D-j*F are left.
def Paced (F D : Nat) (keys : List κ) (rank : κ → Int) (clock : Int) : Prop :=
  ∀ j : Nat, (overdue keys rank clock j).length+j*F ≤ D ∨ overdue keys rank clock j = []

theorem Paced.perm (paced : Paced F D keys rank clock) (same : keys.Perm more) : Paced F D more rank clock := by
  intro j
  have filtered : (overdue keys rank clock j).Perm (overdue more rank clock j) := same.filter _
  rcases paced j with bounded | nobody
  · exact .inl (by rw [← filtered.length_eq]; exact bounded)
  · rw [nobody] at filtered
    exact .inr (List.nil_perm.mp filtered)

theorem paced_start (few : keys.length ≤ D) (fresh : ∀ a ∈ keys, rank a = clock) : Paced F D keys rank clock := by
  intro j
  cases j with
  | zero =>
    left
    have fewer : (overdue keys rank clock 0).length ≤ keys.length := List.length_filter_le _ _
    omega
  | succ j =>
    right
    rw [List.eq_nil_iff_forall_not_mem]
    intro a late
    obtain ⟨member,behind⟩ := mem_overdue.mp late
    have now := fresh a member
    push_cast at behind
    omega

-- Nobody waits longer than it takes to go through the others.
theorem Paced.age (paced : Paced F D keys rank clock) (positive : 1 ≤ F) (member : a ∈ keys) :
    clock-rank a ≤ ((D-1)/F : Nat) := by
  by_contra late
  have behind : a ∈ overdue keys rank clock ((D-1)/F+1) := by
    refine mem_overdue.mpr ⟨member,?_⟩
    push_cast at late ⊢
    omega
  have quotient := Nat.div_add_mod (D-1) F
  have rest := Nat.mod_lt (D-1) positive
  rcases paced ((D-1)/F+1) with bounded | nobody
  · have some_ := List.length_pos_of_mem behind
    rw [Nat.succ_mul,Nat.mul_comm] at bounded
    omega
  · rw [nobody] at behind
    cases behind

-- One round: F of the members, none of them behind a member that is left out, get
-- the new clock as their rank.
structure Turn (F : Nat) (keys chosen : List κ) (rank next : κ → Int) (clock : Int) : Prop where
  count : chosen.length = F
  distinct : chosen.Nodup
  inside : ∀ a ∈ chosen, a ∈ keys
  least : ∀ a ∈ chosen, ∀ b ∈ keys, b ∉ chosen → rank a ≤ rank b
  taken : ∀ a ∈ chosen, next a = clock+1
  left : ∀ a, a ∉ chosen → next a = rank a

-- What is overdue after the round was overdue before it and was not taken; if
-- anything was left out, the whole round was taken from the overdue ones.
theorem Turn.paced (turn : Turn F keys chosen rank next clock) (distinct : keys.Nodup) (few : keys.length ≤ D)
    (paced : Paced F D keys rank clock) : Paced F D keys next (clock+1) := by
  classical
  intro j
  cases j with
  | zero =>
    left
    have fewer : (overdue keys next (clock+1) 0).length ≤ keys.length := List.length_filter_le _ _
    omega
  | succ j =>
    by_cases none : overdue keys next (clock+1) (j+1) = []
    · exact .inr none
    · obtain ⟨b,late⟩ := List.exists_mem_of_ne_nil _ none
      have before : ∀ a, a ∈ overdue keys next (clock+1) (j+1) ↔ a ∉ chosen ∧ a ∈ overdue keys rank clock j := by
        intro a
        rw [mem_overdue,mem_overdue]
        by_cases taken : a ∈ chosen
        · rw [turn.taken a taken]
          simp only [taken,not_true,false_and,iff_false,not_and]
          intro _ behind
          push_cast at behind
          omega
        · rw [turn.left a taken]
          simp only [taken,not_false_iff,true_and]
          push_cast
          exact and_congr_right (fun _ => by omega)
      obtain ⟨left,old⟩ := (before b).mp late
      have inside : ∀ a ∈ chosen, a ∈ overdue keys rank clock j := by
        intro a taken
        have ahead := turn.least a taken b (mem_overdue.mp old).1 left
        have behind := (mem_overdue.mp old).2
        exact mem_overdue.mpr ⟨turn.inside a taken,by omega⟩
      have parts := Counting.length_without (l:=overdue keys rank clock j) (m:=overdue keys next (clock+1) (j+1))
        (distinct.filter _) (distinct.filter _) turn.distinct inside before
      have count := turn.count
      rcases paced j with bounded | nobody
      · left
        rw [Nat.succ_mul]
        omega
      · rw [nobody] at old
        cases old

end TsWaffle.Rotation
