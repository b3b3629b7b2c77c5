import Mathlib

namespace TsWaffle.Counting
variable {α : Type} {l m ds : List α} {k : α}

-- Lists without repetitions are counted by their members.
theorem length_added (distinct : l.Nodup) (other : m.Nodup) (fresh : k ∉ l) (same : ∀ a, a ∈ m ↔ a = k ∨ a ∈ l) :
    m.length = l.length+1 := by
  have perm : m.Perm (k :: l) := by
    apply (List.perm_ext_iff_of_nodup other (List.nodup_cons.mpr ⟨fresh,distinct⟩)).mpr
    intro a
    rw [same,List.mem_cons]
  rw [perm.length_eq,List.length_cons]

variable [DecidablePred (· ∈ ds)]

-- A list without repetitions meets one that lies in it in as many members as
-- that one has.
theorem length_met (distinct : l.Nodup) (gone : ds.Nodup) (inside : ∀ a ∈ ds, a ∈ l) :
    (l.filter (fun a => decide (a ∈ ds))).length = ds.length := by
  have perm : (l.filter (fun a => decide (a ∈ ds))).Perm ds := by
    apply (List.perm_ext_iff_of_nodup (distinct.filter _) gone).mpr
    intro a
    simp only [List.mem_filter,decide_eq_true_eq]
    constructor
    · intro both; exact both.2
    · intro member; exact ⟨inside a member,member⟩
  exact perm.length_eq

theorem length_without (distinct : l.Nodup) (other : m.Nodup) (gone : ds.Nodup) (inside : ∀ a ∈ ds, a ∈ l)
    (same : ∀ a, a ∈ m ↔ a ∉ ds ∧ a ∈ l) : m.length+ds.length = l.length := by
  have perm : m.Perm (l.filter (fun a => !decide (a ∈ ds))) := by
    apply (List.perm_ext_iff_of_nodup other (distinct.filter _)).mpr
    intro a
    rw [same]
    simp [and_comm]
  have parts := List.length_eq_length_filter_add (l:=l) (fun a => decide (a ∈ ds))
  have met := length_met distinct gone inside
  rw [perm.length_eq]
  omega

-- A span of ranks holds no more than each rank does, as often as there are ranks.
theorem countP_span {rank : α → Int} {low : Int} {w : Nat} (few : ∀ u, low ≤ u → l.countP (fun a => rank a = u) ≤ w) (n : Nat) :
    l.countP (fun a => low ≤ rank a ∧ rank a < low+n) ≤ n*w := by
  induction n with
  | zero =>
    have none : l.countP (fun a => low ≤ rank a ∧ rank a < low+(0 : Nat)) = 0 := by
      rw [List.countP_eq_zero]
      intro a _
      simp
    omega
  | succ n ih =>
    have last := few (low+n) (by omega)
    have split : l.countP (fun a => low ≤ rank a ∧ rank a < low+(n+1 : Nat)) ≤
        l.countP (fun a => low ≤ rank a ∧ rank a < low+n)+l.countP (fun a => rank a = low+n) := by
      clear ih few last
      induction l with
      | nil => exact Nat.le_refl _
      | cons a rest ih =>
        simp only [List.countP_cons,decide_eq_true_eq]
        split_ifs <;> omega
    rw [Nat.succ_mul]
    omega

end TsWaffle.Counting
