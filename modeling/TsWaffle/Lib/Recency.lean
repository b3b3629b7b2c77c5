import Mathlib

namespace TsWaffle.Recency
variable {κ ν : Type}

-- What happens to the keys of a store. A log has its newest event first.
inductive Event (κ ν : Type) where
  | inserted (key : κ) (value : ν)
  | gone (key : κ)

def Event.key : Event κ ν → κ
  | .inserted k _ => k
  | .gone k => k

section
variable [DecidableEq κ] {log : List (Event κ ν)} {k : κ} {v : ν} {t : Nat}

-- When a key was last inserted, and with which value, if it has not gone since.
-- The time of an event is the number of events before it.
def last : List (Event κ ν) → κ → Option (Nat × ν)
  | [],_ => none
  | .inserted k v :: past,key => if key = k then some (past.length,v) else last past key
  | .gone k :: past,key => if key = k then none else last past key

def Oldest (log : List (Event κ ν)) (key : κ) (value : ν) : Prop :=
  ∃ t, last log key = some (t,value) ∧ ∀ k u w, last log k = some (u,w) → k ≠ key → t < u

-- The recency list: every insertion moves its key to the front.
def rows : List (Event κ ν) → List (κ × ν)
  | [] => []
  | .inserted k v :: past => (k,v) :: (rows past).filter (fun row => row.1 ≠ k)
  | .gone k :: past => (rows past).filter (fun row => row.1 ≠ k)

-- The first of two present rows was inserted after the second.
def Newer (log : List (Event κ ν)) (a b : κ × ν) : Prop :=
  ∀ t v u w, last log a.1 = some (t,v) → last log b.1 = some (u,w) → u < t

theorem last_other (event : Event κ ν) (differs : k ≠ event.key) : last (event :: log) k = last log k := by
  cases event with
  | inserted a v => exact if_neg differs
  | gone a => exact if_neg differs

@[simp] theorem last_inserted (k : κ) (v : ν) : last (.inserted k v :: log) k = some (log.length,v) := if_pos rfl
@[simp] theorem last_gone (k : κ) : last (.gone k :: log) k = none := if_pos rfl

theorem last_before (found : last log k = some (t,v)) : t < log.length := by
  induction log with
  | nil => cases found
  | cons event past ih =>
    by_cases same : k = event.key
    · subst same
      cases event with
      | inserted a w =>
        rw [Event.key,last_inserted] at found
        cases found
        exact Nat.lt_succ_self _
      | gone a =>
        rw [Event.key,last_gone] at found
        cases found
    · rw [last_other event same] at found
      exact Nat.lt_succ_of_lt (ih found)

-- The list has a row for each key that is present, with the value last inserted.
theorem mem_rows : (k,v) ∈ rows log ↔ ∃ t, last log k = some (t,v) := by
  induction log with
  | nil => simp [rows,last]
  | cons event past ih =>
    by_cases same : k = event.key
    · subst same
      cases event with
      | inserted a w => simp [rows,Event.key,eq_comm]
      | gone a => simp [rows,Event.key]
    · rw [last_other event same,← ih]
      cases event with
      | inserted a w => simp [rows,show k ≠ a from same]
      | gone a => simp [rows,show k ≠ a from same]

theorem rows_eq_nil : rows log = [] ↔ ∀ k, last log k = none := by
  constructor
  · intro none k
    cases found : last log k with
    | none => rfl
    | some at_ =>
      have member : (k,at_.2) ∈ rows log := mem_rows.mpr ⟨at_.1,found⟩
      rw [none] at member
      cases member
  · intro absent
    apply List.eq_nil_iff_forall_not_mem.mpr
    rintro ⟨k,v⟩ member
    obtain ⟨t,found⟩ := mem_rows.mp member
    rw [absent k] at found
    cases found

theorem newer_filter (event : Event κ ν) (ordered : (rows log).Pairwise (Newer log)) :
    ((rows log).filter (fun row => row.1 ≠ event.key)).Pairwise (Newer (event :: log)) := by
  apply (ordered.filter _).imp_of_mem
  intro a b inA inB newer
  have notA : a.1 ≠ event.key := by simpa using (List.mem_filter.mp inA).2
  have notB : b.1 ≠ event.key := by simpa using (List.mem_filter.mp inB).2
  simp only [Newer,last_other event notA,last_other event notB]
  exact newer

-- Newest insertion first.
theorem rows_ordered (log : List (Event κ ν)) : (rows log).Pairwise (Newer log) := by
  induction log with
  | nil => exact .nil
  | cons event past ih =>
    have rest := newer_filter event ih
    cases event with
    | gone a => exact rest
    | inserted a w =>
      refine List.pairwise_cons.mpr ⟨?_,rest⟩
      intro b inB t v u w' atA atB
      have notB : b.1 ≠ a := by simpa using (List.mem_filter.mp inB).2
      rw [last_inserted] at atA
      rw [last_other _ notB] at atB
      cases atA
      exact last_before atB

-- The end of the list is the present key inserted longest ago.
theorem rows_oldest (shape : (rows log).getLast? = some (k,v)) : Oldest log k v := by
  obtain ⟨front,whole⟩ := List.getLast?_eq_some_iff.mp shape
  have ordered := rows_ordered log
  have present : (k,v) ∈ rows log := by rw [whole]; simp
  obtain ⟨t,found⟩ := mem_rows.mp present
  refine ⟨t,found,?_⟩
  intro l u w atL differs
  have member : (l,w) ∈ rows log := mem_rows.mpr ⟨u,atL⟩
  rw [whole,List.mem_append,List.mem_singleton] at member
  rcases member with before | itself
  · rw [whole,List.pairwise_append] at ordered
    exact ordered.2.2 (l,w) before (k,v) (List.mem_singleton_self _) u w t v atL found
  · exact absurd (Prod.mk.inj itself).1 differs

end
end TsWaffle.Recency
