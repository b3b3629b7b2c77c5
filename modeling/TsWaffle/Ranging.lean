import TsWaffle.Serving
import TsWaffle.Lib.Buckets

namespace TsWaffle
open Text FrequencySmoother Buckets
variable {s : FrequencySmoother} {v : List Int} {item : Str} {start stop t x : Int}

theorem mem_select_scanned (sorted : v.Pairwise (· < ·)) :
    t ∈ select v start stop ↔ Scanned v.toFinset start stop t := by
  rw [mem_select sorted]
  simp only [Scanned,List.mem_toFinset]
  constructor
  · rintro ⟨member,below,side⟩
    refine ⟨member,below,?_⟩
    rcases Int.lt_or_le t start with early | inside
    · exact .inr ⟨early,side.resolve_left (by omega)⟩
    · exact .inl inside
  · rintro ⟨member,below,side⟩
    exact ⟨member,below,side.imp_right And.right⟩

-- The text of a GET is read back into its three parts, and the item's stored
-- timestamps in the range come in ascending order, each once, behind the last one
-- before the range.
theorem get_split_keys_scan (free : chr '@' ∉ item) (fitsStart : Fits64 start) (fitsEnd : Fits64 stop) :
    ∃ found : List Int, get_split_keys s (Request.get item start stop).operation.key =
        .ok (found.map (bucketKey item),(s.get_timestamp_for_key item).2) ∧
      found.Pairwise (· < ·) ∧
      ∀ t, t ∈ found ↔ t ∈ s.timestamps item ∧ t ≤ stop ∧
        (start ≤ t ∨ (t < start ∧ ∀ u ∈ s.timestamps item, u < start → u ≤ t)) := by
  have sorted := (s.timestamps item).sorted
  refine ⟨select (s.timestamps item).toList start stop,?_,select_sorted sorted start stop,?_⟩
  · exact get_split_keys_get s free fitsStart fitsEnd
  · intro t
    rw [mem_select_scanned sorted]
    simp only [Scanned,List.mem_toFinset,OrderedSet.mem_toList]

def twoBuckets : FrequencySmoother := (((new true).insert (str "a@5")).1.insert (str "a@10")).1

theorem get_split_keys_scan_inside :
    (chr '@' ∉ str "a" ∧ Fits64 7 ∧ Fits64 12) ∧
    ∃ found : List Int, get_split_keys twoBuckets (Request.get (str "a") 7 12).operation.key =
        .ok (found.map (bucketKey (str "a")),(twoBuckets.get_timestamp_for_key (str "a")).2) ∧
      found.Pairwise (· < ·) ∧
      ∀ t, t ∈ found ↔ t ∈ twoBuckets.timestamps (str "a") ∧ t ≤ 12 ∧
        (7 ≤ t ∨ (t < 7 ∧ ∀ u ∈ twoBuckets.timestamps (str "a"), u < 7 → u ≤ t)) :=
  ⟨by decide,get_split_keys_scan (by decide) (by decide) (by decide)⟩

-- The i-th of the buckets T1 < ... < Tn reaches up to the next one, the last one
-- without end.
def Overlapping (v : List Int) (start stop t : Int) : Prop :=
  ∃ i : Nat, v[i]? = some t ∧ t ≤ stop ∧ ∀ next, v[i+1]? = some next → start < next

theorem overlapping_iff (sorted : v.Pairwise (· < ·)) : Overlapping v start stop t ↔ Meets v.toFinset start stop t := by
  simp only [Overlapping,Meets,List.mem_toFinset]
  constructor
  · rintro ⟨i,at_,below,ends⟩
    refine ⟨List.mem_of_getElem? at_,below,?_⟩
    intro u member above
    obtain ⟨j,there⟩ := List.mem_iff_getElem?.mp member
    have after : ¬ j ≤ i := by
      intro before
      have reverse := (sorted_index sorted there at_).mpr before
      omega
    have short := (List.getElem?_eq_some_iff.mp there).1
    have next : v[i+1]? = some v[i+1] := List.getElem?_eq_getElem (by omega)
    have order := (sorted_index sorted next there).mpr (by omega)
    have reached := ends _ next
    omega
  · rintro ⟨member,below,later⟩
    obtain ⟨i,at_⟩ := List.mem_iff_getElem?.mp member
    refine ⟨i,at_,below,?_⟩
    intro next there
    apply later next (List.mem_of_getElem? there)
    by_contra behind
    have order := (sorted_index sorted there at_).mp (by omega)
    omega

-- get_split_keys names the overlapping buckets and no others.
def SelectsOverlapping (s : FrequencySmoother) (item : Str) (start stop : Int) : Prop :=
  ∃ keys after, get_split_keys s (Request.get item start stop).operation.key = .ok (keys,after) ∧
    ∀ k, k ∈ keys ↔ ∃ t, Overlapping (s.timestamps item).toList start stop t ∧ k = bucketKey item t

theorem bucketKey_timestamp (item : Str) : Function.Injective (bucketKey item) := by
  intro t u same
  exact to_string_injective (List.cons.inj (List.append_cancel_left same)).2

-- The step back is taken also when the range starts at a bucket's own timestamp:
-- the bucket before it, which ends there, is then selected too.
theorem selects_overlapping_iff (free : chr '@' ∉ item) (fitsStart : Fits64 start) (fitsEnd : Fits64 stop)
    (forward : start ≤ stop) :
    SelectsOverlapping s item start stop ↔
      ¬ (start ∈ s.timestamps item ∧ ∃ u ∈ s.timestamps item, u < start) := by
  have sorted := (s.timestamps item).sorted
  have split := get_split_keys_get s free fitsStart fitsEnd
  have bounds := scan_exact_iff (b:=(s.timestamps item).toList.toFinset) forward
  simp only [List.mem_toFinset,OrderedSet.mem_toList] at bounds
  rw [← bounds]
  constructor
  · rintro ⟨keys,after,ran,exact_⟩ t
    rw [split] at ran
    cases ran
    rw [← mem_select_scanned sorted,← overlapping_iff sorted,← List.mem_map_of_injective (bucketKey_timestamp item),exact_]
    constructor
    · rintro ⟨u,met,same⟩
      rw [bucketKey_timestamp item same]
      exact met
    · intro met
      exact ⟨t,met,rfl⟩
  · intro exact_
    refine ⟨_,_,split,?_⟩
    intro k
    rw [List.mem_map]
    constructor
    · rintro ⟨t,member,rfl⟩
      exact ⟨t,(overlapping_iff sorted).mpr ((exact_ t).mp ((mem_select_scanned sorted).mp member)),rfl⟩
    · rintro ⟨t,met,rfl⟩
      exact ⟨t,(mem_select_scanned sorted).mpr ((exact_ t).mpr ((overlapping_iff sorted).mp met)),rfl⟩

theorem selects_overlapping_inside :
    (chr '@' ∉ str "a" ∧ Fits64 7 ∧ Fits64 12 ∧ (7 : Int) ≤ 12) ∧
    (SelectsOverlapping twoBuckets (str "a") 7 12 ↔
      ¬ ((7 : Int) ∈ twoBuckets.timestamps (str "a") ∧ ∃ u ∈ twoBuckets.timestamps (str "a"), u < 7)) :=
  ⟨by decide,selects_overlapping_iff (by decide) (by decide) (by decide) (by decide)⟩

-- The bucket of 5 ends where the range starts.
theorem previous_bucket_selected :
    ¬ ∀ (s : FrequencySmoother) (item : Str) (start stop : Int), chr '@' ∉ item → Fits64 start → Fits64 stop →
      start ≤ stop → SelectsOverlapping s item start stop := by
  intro always
  obtain ⟨keys,after,ran,exact_⟩ := always twoBuckets (str "a") 10 12 (by decide) (by decide) (by decide) (by decide)
  have shape : (get_split_keys twoBuckets (Request.get (str "a") 10 12).operation.key).map Prod.fst =
      .ok [bucketKey (str "a") 5,bucketKey (str "a") 10] := by decide +kernel
  rw [ran] at shape
  cases shape
  obtain ⟨t,met,same⟩ := (exact_ _).mp List.mem_cons_self
  have stamps : (twoBuckets.timestamps (str "a")).toList = [5,10] := by decide +kernel
  rw [stamps,← bucketKey_timestamp _ same,overlapping_iff (by decide)] at met
  exact absurd (met.2.2 10 (by decide) (by decide)) (by decide)

-- Whatever bucket holds a time of the range is among those read.
theorem covering_bucket_selected (free : chr '@' ∉ item) (fitsStart : Fits64 start) (fitsEnd : Fits64 stop)
    (after : start ≤ x) (before : x ≤ stop) (covers : Covers (s.timestamps item).toList.toFinset t x) :
    ∃ keys next, get_split_keys s (Request.get item start stop).operation.key = .ok (keys,next) ∧
      bucketKey item t ∈ keys := by
  refine ⟨_,_,get_split_keys_get s free fitsStart fitsEnd,List.mem_map_of_mem ?_⟩
  have met := (meets_iff (after.trans before)).mpr ⟨x,after,before,covers⟩
  exact (mem_select_scanned (s.timestamps item).sorted).mpr met.scanned

end TsWaffle
