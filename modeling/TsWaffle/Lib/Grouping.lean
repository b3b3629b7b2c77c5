import TsWaffle.Lib.Table

namespace TsWaffle.Grouping
variable {α ι : Type} [DecidableEq ι] {f : α → ι} {l : List α} {i : ι}

-- Elements put under their index one after the other, as m[f(a)].push_back(a) does.
def group (f : α → ι) : List α → Table ι (List α) → Table ι (List α)
  | [],m => m
  | a :: rest,m => group f rest (m.insert (f a) ((m.find? (f a)).getD [] ++ [a]))

theorem find_group (l : List α) (m : Table ι (List α)) (present : i ∈ m ∨ ∃ a ∈ l, f a = i) :
    (group f l m).find? i = some ((m.find? i).getD [] ++ l.filter (fun a => f a = i)) := by
  induction l generalizing m with
  | nil =>
    rcases present with old | ⟨a,none,_⟩
    · obtain ⟨g,found⟩ := Table.mem_iff.mp old
      simp [group,found]
    · cases none
  | cons a rest ih =>
    rw [group,ih _ ?_,Table.find_insert]
    · by_cases same : i = f a
      · simp [same]
      · rw [if_neg same,List.filter_cons_of_neg (by simpa using fun own => same own.symm)]
    · rw [Table.mem_insert]
      rcases present with old | ⟨b,member,own⟩
      · exact .inl (.inr old)
      · rcases List.mem_cons.mp member with rfl | later
        · exact .inl (.inl own.symm)
        · exact .inr ⟨b,later,own⟩

theorem mem_group (l : List α) (m : Table ι (List α)) : i ∈ group f l m ↔ i ∈ m ∨ ∃ a ∈ l, f a = i := by
  induction l generalizing m with
  | nil => simp [group]
  | cons a rest ih =>
    rw [group,ih,Table.mem_insert]
    simp only [List.mem_cons,exists_eq_or_imp]
    constructor
    · rintro ((same | old) | later)
      · exact .inr (.inl same.symm)
      · exact .inl old
      · exact .inr (.inr later)
    · rintro (old | same | later)
      · exact .inl (.inr old)
      · exact .inl (.inl same.symm)
      · exact .inr later

-- One group for each index that occurs, with its elements in order.
theorem find_groups (occurs : ∃ a ∈ l, f a = i) : (group f l ∅).find? i = some (l.filter (fun a => f a = i)) := by
  rw [find_group l ∅ (.inr occurs),Table.find_empty]
  rfl

theorem mem_groups : i ∈ group f l ∅ ↔ ∃ a ∈ l, f a = i := by
  rw [mem_group]
  simp

-- Every element is in one of the groups.
theorem sum_groups (indices : List ι) (distinct : indices.Nodup) (covers : ∀ a ∈ l, f a ∈ indices) :
    (indices.map (fun i => (l.filter (fun a => f a = i)).length)).sum = l.length := by
  induction l with
  | nil => simp
  | cons a rest ih =>
    have split : ∀ i, ((a :: rest).filter (fun a => f a = i)).length =
        (if f a = i then 1 else 0)+(rest.filter (fun a => f a = i)).length := by
      intro i
      by_cases own : f a = i <;> simp [own,Nat.add_comm]
    have single : (indices.map (fun i => if f a = i then 1 else 0)).sum = 1 := by
      rw [List.sum_map_eq_nsmul_single (f a) _ (fun i other _ => if_neg (Ne.symm other)),
        List.count_eq_one_of_mem distinct (covers a List.mem_cons_self),if_pos rfl,one_smul]
    have tail := ih (fun b member => covers b (List.mem_cons_of_mem _ member))
    rw [List.map_congr_left (fun i _ => split i),List.sum_map_add,single,tail,List.length_cons,Nat.add_comm]

omit [DecidableEq ι] in
-- There is at most one group exactly when all elements have one index.
theorem single_group (indices : List ι) (distinct : indices.Nodup) (occurs : ∀ i, i ∈ indices ↔ ∃ a ∈ l, f a = i) :
    indices.length ≤ 1 ↔ ∀ a ∈ l, ∀ b ∈ l, f a = f b := by
  constructor
  · intro few a inA b inB
    have one := (occurs (f a)).mpr ⟨a,inA,rfl⟩
    have two := (occurs (f b)).mpr ⟨b,inB,rfl⟩
    match indices,few with
    | [],_ => cases one
    | [i],_ => rw [List.mem_singleton.mp one,List.mem_singleton.mp two]
  · intro same
    match indices,distinct with
    | [],_ | [_],_ => simp
    | i :: j :: rest,distinct =>
      obtain ⟨a,inA,rfl⟩ := (occurs i).mp List.mem_cons_self
      obtain ⟨b,inB,rfl⟩ := (occurs j).mp (by simp)
      exact absurd (same a inA b inB) (List.rel_of_pairwise_cons distinct List.mem_cons_self)

end TsWaffle.Grouping
