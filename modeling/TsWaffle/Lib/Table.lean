import Mathlib

namespace TsWaffle

-- A hash map as a finite table without an order of its own. Iteration orders are
-- arguments of the code that iterates.
def Table (κ : Type) (ν : Type) : Type := AList (fun _ : κ => ν)

namespace Table
variable {κ ν : Type} [DecidableEq κ]

instance : EmptyCollection (Table κ ν) := ⟨(∅ : AList (fun _ : κ => ν))⟩
instance : Membership κ (Table κ ν) := ⟨fun m k => k ∈ (show AList (fun _ : κ => ν) from m)⟩
instance (k : κ) (m : Table κ ν) : Decidable (k ∈ m) :=
  inferInstanceAs (Decidable (k ∈ (show AList (fun _ : κ => ν) from m)))
instance [DecidableEq ν] : DecidableEq (Table κ ν) :=
  inferInstanceAs (DecidableEq (AList (fun _ : κ => ν)))

def find? (m : Table κ ν) (k : κ) : Option ν := AList.lookup k m
def insert (m : Table κ ν) (k : κ) (v : ν) : Table κ ν := AList.insert k v m
def erase (m : Table κ ν) (k : κ) : Table κ ν := AList.erase k m
def keys (m : Table κ ν) : List κ := AList.keys m
def isEmpty (m : Table κ ν) : Bool := m.keys.isEmpty

-- operator[]: reading an absent key stores the default under it.
def fetch (m : Table κ ν) (k : κ) (default : ν) : ν × Table κ ν :=
  match m.find? k with
  | some v => (v,m)
  | none => (default,m.insert k default)

def insertAll (m : Table κ ν) (rows : List (κ × ν)) : Table κ ν :=
  rows.foldl (fun m row => m.insert row.1 row.2) m

def eraseAll (m : Table κ ν) (ks : List κ) : Table κ ν := ks.foldl erase m

theorem mem_iff {m : Table κ ν} {k : κ} : k ∈ m ↔ ∃ v, m.find? k = some v := by
  rw [← Option.isSome_iff_exists]
  exact AList.lookup_isSome.symm

theorem find_none {m : Table κ ν} {k : κ} : m.find? k = none ↔ k ∉ m := AList.lookup_eq_none

omit [DecidableEq κ] in
theorem mem_keys {m : Table κ ν} {k : κ} : k ∈ m.keys ↔ k ∈ m := AList.mem_keys.symm

omit [DecidableEq κ] in
theorem keys_nodup (m : Table κ ν) : m.keys.Nodup := AList.keys_nodup m

omit [DecidableEq κ] in
theorem keys_perm {m : Table κ ν} {n : Table κ μ} (same : ∀ k, k ∈ m ↔ k ∈ n) : m.keys.Perm n.keys := by
  apply (List.perm_ext_iff_of_nodup m.keys_nodup n.keys_nodup).mpr
  intro k
  rw [mem_keys,mem_keys,same]

@[simp] theorem find_empty (k : κ) : (∅ : Table κ ν).find? k = none := AList.lookup_empty k
omit [DecidableEq κ] in
@[simp] theorem notMem_empty (k : κ) : k ∉ (∅ : Table κ ν) := AList.notMem_empty k

@[simp] theorem find_insert (m : Table κ ν) (k a : κ) (v : ν) :
    (m.insert a v).find? k = if k = a then some v else m.find? k := by
  split
  · rename_i same; subst same; exact AList.lookup_insert m
  · rename_i other; exact AList.lookup_insert_ne other

@[simp] theorem find_erase (m : Table κ ν) (k a : κ) :
    (m.erase a).find? k = if k = a then none else m.find? k := by
  split
  · rename_i same; subst same; exact AList.lookup_erase k m
  · rename_i other; exact AList.lookup_erase_ne other

theorem find_erase_some {m : Table κ ν} {k a : κ} {v : ν} (found : (m.erase k).find? a = some v) :
    a ≠ k ∧ m.find? a = some v := by
  rw [find_erase] at found
  split at found
  · cases found
  · rename_i other
    exact ⟨other,found⟩

@[simp] theorem mem_insert {m : Table κ ν} {k a : κ} {v : ν} : k ∈ m.insert a v ↔ k = a ∨ k ∈ m :=
  AList.mem_insert m

@[simp] theorem mem_erase {m : Table κ ν} {k a : κ} : k ∈ m.erase a ↔ k ≠ a ∧ k ∈ m := AList.mem_erase

omit [DecidableEq κ] in
theorem eq_empty {m : Table κ ν} (absent : ∀ k, k ∉ m) : m = ∅ := by
  apply AList.ext
  cases shape : m.entries with
  | nil => rfl
  | cons row rest =>
    have present : row.1 ∈ m.keys := by
      change row.1 ∈ m.entries.map Sigma.fst
      rw [shape]
      exact List.mem_cons_self
    exact absurd (mem_keys.mp present) (absent row.1)

omit [DecidableEq κ] in
theorem isEmpty_iff {m : Table κ ν} : m.isEmpty = true ↔ m = ∅ := by
  constructor
  · intro none
    apply eq_empty
    intro k present
    have listed := mem_keys.mpr present
    rw [isEmpty,List.isEmpty_iff] at none
    rw [none] at listed
    cases listed
  · rintro rfl; rfl

theorem fetch_present {m : Table κ ν} (found : m.find? k = some v) : m.fetch k d = (v,m) := by
  simp [fetch,found]

theorem fetch_value (m : Table κ ν) (k : κ) (d : ν) : (m.fetch k d).1 = (m.find? k).getD d := by
  unfold fetch
  cases m.find? k <;> rfl

theorem fetch_find (m : Table κ ν) (k a : κ) (d : ν) :
    (m.fetch k d).2.find? a = if a = k then some ((m.find? k).getD d) else m.find? a := by
  unfold fetch
  cases found : m.find? k with
  | some v => by_cases same : a = k <;> simp [same,found]
  | none => simp

theorem find_insertAll_absent (m : Table κ ν) (rows : List (κ × ν)) (k : κ)
    (absent : k ∉ rows.map Prod.fst) : (m.insertAll rows).find? k = m.find? k := by
  induction rows generalizing m with
  | nil => rfl
  | cons row rest ih =>
    simp only [List.map_cons,List.mem_cons,not_or] at absent
    change ((m.insert row.1 row.2).insertAll rest).find? k = _
    rw [ih _ absent.2,find_insert,if_neg absent.1]

-- Rows that agree on a key can be inserted in any order.
theorem find_insertAll_agreed (m : Table κ ν) (rows : List (κ × ν)) (k : κ) (v : ν)
    (agreed : ∀ row ∈ rows, row.1 = k → row.2 = v) (present : k ∈ rows.map Prod.fst) :
    (m.insertAll rows).find? k = some v := by
  induction rows generalizing m with
  | nil => cases present
  | cons row rest ih =>
    change ((m.insert row.1 row.2).insertAll rest).find? k = _
    by_cases later : k ∈ rest.map Prod.fst
    · exact ih _ (fun other member => agreed other (List.mem_cons_of_mem _ member)) later
    · have first : k = row.1 := (List.mem_cons.mp present).resolve_right later
      rw [find_insertAll_absent _ _ _ later,find_insert,if_pos first,agreed row List.mem_cons_self first.symm]

theorem find_insertAll_present (m : Table κ ν) (rows : List (κ × ν)) (k : κ) (v : ν)
    (distinct : (rows.map Prod.fst).Nodup) (present : (k,v) ∈ rows) :
    (m.insertAll rows).find? k = some v := by
  apply find_insertAll_agreed m rows k v ?_ (List.mem_map_of_mem present)
  intro row member same
  rw [List.inj_on_of_nodup_map distinct member present same]

theorem mem_insertAll (m : Table κ ν) (rows : List (κ × ν)) (k : κ) :
    k ∈ m.insertAll rows ↔ k ∈ rows.map Prod.fst ∨ k ∈ m := by
  induction rows generalizing m with
  | nil => simp [insertAll]
  | cons row rest ih =>
    change k ∈ (m.insert row.1 row.2).insertAll rest ↔ _
    rw [ih,mem_insert,List.map_cons,List.mem_cons]
    tauto

theorem find_eraseAll (m : Table κ ν) (ks : List κ) (k : κ) :
    (m.eraseAll ks).find? k = if k ∈ ks then none else m.find? k := by
  induction ks generalizing m with
  | nil => simp [eraseAll]
  | cons a rest ih =>
    change ((m.erase a).eraseAll rest).find? k = _
    rw [ih,find_erase]
    by_cases same : k = a <;> by_cases later : k ∈ rest <;> simp [same,later]

theorem find_eraseAll_some {m : Table κ ν} {ks : List κ} {k : κ} {v : ν} (found : (m.eraseAll ks).find? k = some v) :
    k ∉ ks ∧ m.find? k = some v := by
  rw [find_eraseAll] at found
  split at found
  · cases found
  · rename_i outside
    exact ⟨outside,found⟩

theorem erase_absent {m : Table κ ν} {k : κ} (absent : k ∉ m) : m.erase k = m :=
  AList.ext (List.kerase_of_notMem_keys (mt mem_keys.mp absent))

-- The order in which keys are erased does not show, and neither do repetitions.
theorem eraseAll_perm (m : Table κ ν) {ks ls : List κ} (same : ks.Perm ls) : m.eraseAll ks = m.eraseAll ls := by
  have : RightCommutative (erase : Table κ ν → κ → Table κ ν) := ⟨fun n a b => AList.erase_erase a b n⟩
  exact same.foldl_eq m

theorem erase_eraseAll (m : Table κ ν) (k : κ) (ks : List κ) : (m.erase k).eraseAll ks = (m.eraseAll ks).erase k := by
  have last := eraseAll_perm m (List.perm_append_singleton k ks).symm
  rw [eraseAll,eraseAll,List.foldl_append] at last
  exact last

theorem eraseAll_dedup (m : Table κ ν) (ks : List κ) : m.eraseAll ks.dedup = m.eraseAll ks := by
  induction ks generalizing m with
  | nil => rfl
  | cons k rest ih =>
    change _ = (m.erase k).eraseAll rest
    by_cases again : k ∈ rest
    · have gone : k ∉ m.eraseAll rest := by rw [← find_none,find_eraseAll,if_pos again]
      rw [List.dedup_cons_of_mem again,ih,erase_eraseAll,erase_absent gone]
    · rw [List.dedup_cons_of_notMem again]
      exact ih (m.erase k)

end Table
end TsWaffle
