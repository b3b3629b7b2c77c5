import TsWaffle.Lib.Grouping

namespace TsWaffle.Shards
variable {κ ν ι : Type} [DecidableEq κ] [DecidableEq ι] {route : κ → ι} {shards : ι → Table κ ν} {m : Table κ ν}
  {k : κ} {i : ι}

-- Each shard holds the part of one table that is routed to it, and nothing else.
def Houses (route : κ → ι) (shards : ι → Table κ ν) (m : Table κ ν) : Prop :=
  ∀ i k, (shards i).find? k = if route k = i then m.find? k else none

theorem houses_empty (route : κ → ι) : Houses route (fun _ => (∅ : Table κ ν)) ∅ := by
  intro i k
  simp

theorem Houses.find (houses : Houses route shards m) (k : κ) : (shards (route k)).find? k = m.find? k := by
  rw [houses,if_pos rfl]

theorem Houses.mem_iff (houses : Houses route shards m) : k ∈ shards i ↔ route k = i ∧ k ∈ m := by
  rw [Table.mem_iff,Table.mem_iff,houses]
  by_cases own : route k = i <;> simp [own]

theorem Houses.put (houses : Houses route shards m) (k : κ) (v : ν) :
    Houses route (Function.update shards (route k) ((shards (route k)).insert k v)) (m.insert k v) := by
  intro i a
  by_cases here : i = route k
  · subst here
    rw [Function.update_self,Table.find_insert,Table.find_insert,houses]
    by_cases same : a = k <;> simp [same]
  · rw [Function.update_of_ne here,Table.find_insert,houses]
    by_cases same : a = k
    · subst same
      simp [Ne.symm here]
    · simp [same]

-- Every shard is given its own rows, in their order.
theorem Houses.putAll (houses : Houses route shards m) (rows : List (κ × ν)) :
    Houses route (fun i => (shards i).insertAll (rows.filter (fun row => route row.1 = i))) (m.insertAll rows) := by
  induction rows generalizing shards m with
  | nil => exact houses
  | cons row rest ih =>
    have later := ih (houses.put row.1 row.2)
    have same : (fun i => (Function.update shards (route row.1) ((shards (route row.1)).insert row.1 row.2) i).insertAll
          (rest.filter (fun row => route row.1 = i))) =
        fun i => (shards i).insertAll ((row :: rest).filter (fun row => route row.1 = i)) := by
      funext i
      by_cases own : route row.1 = i
      · subst own
        rw [Function.update_self,List.filter_cons_of_pos (by simp)]
        rfl
      · rw [Function.update_of_ne (Ne.symm own),List.filter_cons_of_neg (by simpa using own)]
    rw [same] at later
    exact later

theorem Houses.eraseAll (houses : Houses route shards m) (ks : List κ) :
    Houses route (fun i => (shards i).eraseAll (ks.filter (fun k => route k = i))) (m.eraseAll ks) := by
  intro i k
  rw [Table.find_eraseAll,Table.find_eraseAll,houses]
  by_cases own : route k = i <;> by_cases listed : k ∈ ks <;> simp [own,listed]

theorem Houses.count [Fintype ι] (houses : Houses route shards m) : ∑ i, (shards i).keys.length = m.keys.length := by
  have each : ∀ i, (shards i).keys.length = (m.keys.filter (fun k => route k = i)).length := by
    intro i
    refine ((List.perm_ext_iff_of_nodup (Table.keys_nodup _) (m.keys_nodup.filter _)).mpr ?_).length_eq
    intro k
    rw [Table.mem_keys,houses.mem_iff,List.mem_filter,Table.mem_keys,decide_eq_true_eq,and_comm]
  have whole := Grouping.sum_groups (f:=route) (l:=m.keys) Finset.univ.toList Finset.univ.nodup_toList
    (fun k _ => Finset.mem_toList.mpr (Finset.mem_univ _))
  rw [← whole,Finset.sum_map_toList]
  exact Finset.sum_congr rfl (fun i _ => each i)

end TsWaffle.Shards
