import Mathlib.Data.List.Basic

namespace TsWaffle.Places
variable {α : Type} {places : List α} {i j : Nat} {here there : α} {p : α → Bool}

-- Threads by where each of them stands; one of them moves.
theorem at_moved (found : places[i]? = some here) (there : α) : (places.set i there)[i]? = some there := by
  obtain ⟨below,_⟩ := List.getElem?_eq_some_iff.mp found
  simp [below]

theorem at_others (other : j ≠ i) (there : α) : (places.set i there)[j]? = places[j]? :=
  List.getElem?_set_ne (Ne.symm other)

theorem moved_cases (now : (places.set i there)[j]? = some here) :
    j = i ∧ here = there ∨ j ≠ i ∧ places[j]? = some here := by
  by_cases same : j = i
  · subst same
    rw [List.getElem?_set_self'] at now
    obtain ⟨_,_,rfl⟩ := Option.map_eq_some_iff.mp now
    exact .inl ⟨rfl,rfl⟩
  · rw [at_others same] at now
    exact .inr ⟨same,now⟩

theorem count_moved (found : places[i]? = some here) (there : α) (p : α → Bool) :
    (places.set i there).countP p+(p here).toNat = places.countP p+(p there).toNat := by
  obtain ⟨below,rfl⟩ := List.getElem?_eq_some_iff.mp found
  have counted := List.countP_set (p:=p) (a:=there) below
  have some_ : p places[i] = true → 0 < places.countP p := fun holds =>
    List.countP_pos_iff.mpr ⟨_,List.getElem_mem below,holds⟩
  rw [counted]
  cases was : p places[i] with
  | false => cases p there <;> simp
  | true =>
    have least := some_ was
    cases p there <;> simp <;> omega

end TsWaffle.Places
