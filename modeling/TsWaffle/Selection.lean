import TsWaffle.Proxy

namespace TsWaffle
open Text
variable {v : List Int}

-- lower_bound and upper_bound on a sorted vector count the elements before them.
theorem before_bound (sorted : v.Pairwise (· < ·)) (p : Int → Bool)
    (upward : ∀ a b, a < b → p a = true → p b = true) (at_ : v[j]? = some t) :
    j < v.findIdx p ↔ p t = false := by
  obtain ⟨below,rfl⟩ := List.getElem?_eq_some_iff.mp at_
  constructor
  · intro before
    simpa using List.not_of_lt_findIdx before
  · intro fails
    by_contra reached
    have place : v.findIdx p < v.length := by omega
    have hit : p v[v.findIdx p] = true := List.findIdx_getElem
    rcases Nat.lt_or_ge (v.findIdx p) j with strictly | same
    · have later := upward _ _ (List.pairwise_iff_getElem.mp sorted _ _ place below strictly) hit
      rw [later] at fails
      cases fails
    · have equal : v.findIdx p = j := by omega
      simp only [equal] at hit
      rw [hit] at fails
      cases fails

-- The step back to the element before start, when there is one.
def firstIndex (v : List Int) (start : Int) : Nat := v.findIdx (fun t => decide (start ≤ t)) - 1

theorem select_slice (sorted : v.Pairwise (· < ·)) (start stop : Int) :
    select v start stop = (v.take (v.findIdx (fun t => decide (stop < t)))).drop (firstIndex v start) := by
  have same : v.insertionSort (· ≤ ·) = v := (sorted.imp le_of_lt).insertionSort_eq
  have back : (if v.findIdx (fun t => decide (start ≤ t)) ≠ 0 then v.findIdx (fun t => decide (start ≤ t))-1
      else v.findIdx (fun t => decide (start ≤ t))) = firstIndex v start := by
    unfold firstIndex
    split <;> omega
  simp only [select,same,back]
  split
  · rfl
  · rename_i outside
    rw [List.drop_eq_nil_of_le]
    rw [List.length_take]
    omega

theorem select_sorted (sorted : v.Pairwise (· < ·)) (start stop : Int) :
    (select v start stop).Pairwise (· < ·) := by
  rw [select_slice sorted]
  exact sorted.sublist ((List.drop_sublist _ _).trans (List.take_sublist _ _))

theorem sorted_index {i j : Nat} (sorted : v.Pairwise (· < ·)) (one : v[i]? = some a) (two : v[j]? = some b) :
    a ≤ b ↔ i ≤ j := by
  obtain ⟨inI,rfl⟩ := List.getElem?_eq_some_iff.mp one
  obtain ⟨inJ,rfl⟩ := List.getElem?_eq_some_iff.mp two
  rcases Nat.lt_trichotomy i j with less | same | more
  · have below := List.pairwise_iff_getElem.mp sorted i j inI inJ less
    omega
  · subst same; simp
  · have below := List.pairwise_iff_getElem.mp sorted j i inJ inI more
    omega

theorem mem_slice (v : List Int) (from_ upto : Nat) (t : Int) :
    t ∈ (v.take upto).drop from_ ↔ ∃ j, from_ ≤ j ∧ j < upto ∧ v[j]? = some t := by
  simp only [List.mem_iff_getElem?,List.getElem?_drop,List.getElem?_take]
  constructor
  · intro found
    obtain ⟨j,at_⟩ := found
    split at at_
    · exact ⟨from_+j,by omega,by omega,at_⟩
    · cases at_
  · intro found
    obtain ⟨j,after,before,at_⟩ := found
    refine ⟨j-from_,?_⟩
    rw [if_pos (by omega),show from_+(j-from_) = j by omega]
    exact at_

-- The buckets a range selects: those in the range, and the last one before it
-- when that one is not beyond the end.
theorem mem_select (sorted : v.Pairwise (· < ·)) (start stop t : Int) :
    t ∈ select v start stop ↔ t ∈ v ∧ t ≤ stop ∧ (start ≤ t ∨ ∀ u ∈ v, u < start → u ≤ t) := by
  have lower : ∀ j u, v[j]? = some u → (j < v.findIdx (fun t => decide (start ≤ t)) ↔ u < start) := by
    intro j u at_
    rw [before_bound sorted _ (by intro a b below hit; simp only [decide_eq_true_eq] at hit ⊢; omega) at_]
    simp
  have upper : ∀ j u, v[j]? = some u → (j < v.findIdx (fun t => decide (stop < t)) ↔ u ≤ stop) := by
    intro j u at_
    rw [before_bound sorted _ (by intro a b below hit; simp only [decide_eq_true_eq] at hit ⊢; omega) at_]
    simp
  rw [select_slice sorted,mem_slice]
  constructor
  · intro found
    obtain ⟨j,after,before,at_⟩ := found
    refine ⟨List.mem_of_getElem? at_,(upper j t at_).mp before,?_⟩
    rcases Int.lt_or_le t start with early | inside
    · right
      intro u member less
      obtain ⟨i,there⟩ := List.mem_iff_getElem?.mp member
      have inFront := (lower i u there).mpr less
      unfold firstIndex at after
      exact (sorted_index sorted there at_).mpr (by omega)
    · exact .inl inside
  · intro member
    obtain ⟨present,within,side⟩ := member
    obtain ⟨j,at_⟩ := List.mem_iff_getElem?.mp present
    refine ⟨j,?_,(upper j t at_).mpr within,at_⟩
    unfold firstIndex
    rcases Int.lt_or_le t start with early | inside
    · have greatest := side.resolve_left (by omega)
      have front := (lower j t at_).mpr early
      have short : v.findIdx (fun t => decide (start ≤ t)) ≤ v.length := List.findIdx_le_length
      have there : v[v.findIdx (fun t => decide (start ≤ t))-1]? =
          some v[v.findIdx (fun t => decide (start ≤ t))-1] := List.getElem?_eq_getElem (by omega)
      have less := (lower _ _ there).mp (by omega)
      exact (sorted_index sorted there at_).mp (greatest _ (List.mem_of_getElem? there) less)
    · have behind := (lower j t at_).not.mpr (by omega)
      omega

theorem select_sub (sorted : v.Pairwise (· < ·)) (member : t ∈ select v start stop) : t ∈ v :=
  ((mem_select sorted start stop t).mp member).1

-- Buckets that a range does not select can be taken away without changing what
-- it selects, as long as it selects something.
theorem select_without {w : List Int} (sortedV : v.Pairwise (· < ·)) (sortedW : w.Pairwise (· < ·)) (start stop : Int)
    (fewer : ∀ t ∈ w, t ∈ v) (kept : ∀ t ∈ select v start stop, t ∈ w) (some_ : select v start stop ≠ []) :
    select w start stop = select v start stop := by
  apply List.Pairwise.eq_of_mem_iff (select_sorted sortedW start stop) (select_sorted sortedV start stop)
  intro t
  rw [mem_select sortedW]
  constructor
  · intro member
    obtain ⟨present,within,side⟩ := member
    rw [mem_select sortedV]
    refine ⟨fewer t present,within,?_⟩
    rcases side with inside | greatest
    · exact .inl inside
    · by_contra missed
      push Not at missed
      obtain ⟨before,u,member,early,above⟩ := missed
      obtain ⟨g,last,top⟩ := Finset.exists_max_image (v.toFinset.filter (· < start)) id ⟨u,by simp [member,early]⟩
      simp only [Finset.mem_filter,List.mem_toFinset,id_eq] at last top
      have high : u ≤ g := top u ⟨member,early⟩
      -- g is selected unless it lies beyond the end, and then nothing is.
      rcases Int.lt_or_le stop g with beyond | within_
      · obtain ⟨s,chosen⟩ := List.exists_mem_of_ne_nil _ some_
        obtain ⟨_,short,place⟩ := (mem_select sortedV start stop s).mp chosen
        have reach := place.resolve_left (by omega) g last.1 last.2
        omega
      · have chosen := (mem_select sortedV start stop g).mpr
          ⟨last.1,within_,.inr (fun u member early => top u ⟨member,early⟩)⟩
        have reach := greatest g (kept g chosen) last.2
        omega
  · intro member
    have present := kept t member
    obtain ⟨_,within,side⟩ := (mem_select sortedV start stop t).mp member
    exact ⟨present,within,side.imp_right (fun greatest u inW => greatest u (fewer u inW))⟩

end TsWaffle
