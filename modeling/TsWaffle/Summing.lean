import TsWaffle.Codec
import TsWaffle.Settlement
import TsWaffle.Lib.Runs

namespace TsWaffle
open Text BinarySerializer
variable {s : ThreadSafeUnorderedMap} {ps : Promises} {floatSum : List Str → Str}

inductive ElementType where
  | float | int | bool
  deriving DecidableEq

-- The type generateDataForKey fills a bucket of the key with.
def generatedType (key : Str) : Except Fault ElementType :=
  let dataType := get_data_type key
  if dataType = str "float" then .ok .float
  else if dataType = str "int" then .ok .int
  else if dataType = str "bool" then .ok .bool
  else .error .invalid_argument

-- The type clearPromises sums a request by, read off its first key.
def summedType (key : Str) : ElementType :=
  let data_type := get_data_type key
  if data_type = str "int" then .int else if data_type = str "float" then .float else .bool

-- What the random generators of one call deliver. A float is seen only as its
-- four bytes.
structure Generated where
  ints : Nat → Int
  floats : Nat → List UInt8
  bools : Nat → Bool
  fits : ∀ i, Fits32 (ints i)
  wide : ∀ i, (floats i).length = 4

def generateData (object_size size : Nat) (draw : Nat → α) : Except Fault (List α) :=
  if object_size % size ≠ 0 then .error .invalid_argument else .ok ((List.range (object_size/size)).map draw)

def generateDataForKey (object_size : Nat) (gen : Generated) (key : Str) : Except Fault Str := do
  match ← generatedType key with
  | .float => return (← generateData object_size 4 gen.floats).flatten
  | .int => return serialize (← generateData object_size 4 gen.ints)
  | .bool => return serializeBool (← generateData object_size 1 gen.bools)

-- A generated bucket of ints is read back as the ints that were drawn.
theorem generated_ints (int : generatedType key = .ok .int) (made : generateDataForKey object_size gen key = .ok value) :
    deserialize value = (List.range (object_size/4)).map gen.ints := by
  unfold generateDataForKey at made
  rw [int] at made
  obtain ⟨type,same,made⟩ := Runs.bind_ok made
  cases same
  obtain ⟨data,drawn,made⟩ := Runs.bind_ok made
  cases made
  unfold generateData at drawn
  split at drawn
  · cases drawn
  · cases drawn
    apply deserialize_serialize
    intro n member
    obtain ⟨i,_,rfl⟩ := List.mem_map.mp member
    exact gen.fits i

theorem generatedType_summed (same : get_data_type item = get_data_type key) (chosen : generatedType item = .ok type) :
    summedType key = type := by
  unfold generatedType at chosen
  unfold summedType
  rw [same] at chosen
  dsimp only at chosen ⊢
  split at chosen
  · rename_i float
    cases chosen
    rw [float]
    rfl
  · rename_i other
    split at chosen
    · rename_i int
      cases chosen
      rw [if_pos int]
    · rename_i noInt
      rw [if_neg noInt,if_neg other]
      split at chosen
      · cases chosen
        rfl
      · cases chosen

theorem sum_text (key value : Str) (rest : List (Str × Str)) :
    (Answer.sum ((key,value) :: rest)).text floatSum =
      match summedType key with
      | .int => to_string (deserializeAndSumInt (value :: rest.map Prod.snd))
      | .float => floatSum (value :: rest.map Prod.snd)
      | .bool => to_string (deserializeAndSumBool (value :: rest.map Prod.snd)) := by
  unfold Answer.text summedType
  dsimp only
  split
  · rfl
  · split <;> rfl

-- int addition where it is defined.
def accumulate (total dp : Int) : Except Fault Int :=
  if Fits32 (total+dp) then .ok (total+dp) else .error .undefined

-- The elements of all buckets of a request, in the order they are added.
def ThreadSafeUnorderedMap.elements (s : ThreadSafeUnorderedMap) (keys : List Str) : List Int :=
  (keys.map (fun key => (s.get_cache.find? key).getD [])).flatMap deserializeInt

theorem addInt_fits (fits : Fits32 (a+b)) : addInt a b = a+b := by
  obtain ⟨low,high⟩ := fits
  unfold addInt
  rw [Int.bmod_def]
  omega

-- An accumulator that starts at total and adds these elements stays in range.
def InRange (total : Int) (dps : List Int) : Prop := ∀ n, Fits32 (total+(dps.take n).sum)

theorem inRange_cons (fits : Fits32 total) : InRange total (dp :: rest) ↔ InRange (total+dp) rest := by
  constructor
  · intro within n
    have next := within (n+1)
    rwa [List.take_succ_cons,List.sum_cons,← add_assoc] at next
  · intro within n
    cases n with
    | zero => simpa using fits
    | succ n =>
      rw [List.take_succ_cons,List.sum_cons,← add_assoc]
      exact within n

theorem accumulate_iff (fits : Fits32 total) (dps : List Int) :
    dps.foldlM accumulate total = .ok (total+dps.sum) ↔ InRange total dps := by
  induction dps generalizing total with
  | nil =>
    simp only [List.foldlM_nil,List.sum_nil,add_zero,InRange,List.take_nil]
    exact iff_of_true rfl (fun _ => fits)
  | cons dp rest ih =>
    rw [inRange_cons fits,List.foldlM_cons,List.sum_cons,← add_assoc]
    by_cases next : Fits32 (total+dp)
    · rw [accumulate,if_pos next,← ih next]
      rfl
    · rw [accumulate,if_neg next]
      refine iff_of_false ?_ ?_
      · intro returned
        cases returned
      · intro within
        apply next
        simpa using within 0

theorem addInt_sum (fits : Fits32 total) (dps : List Int) (within : InRange total dps) :
    dps.foldl addInt total = total+dps.sum := by
  induction dps generalizing total with
  | nil => simp
  | cons dp rest ih =>
    rw [inRange_cons fits] at within
    have next : Fits32 (total+dp) := by simpa using within 0
    rw [List.foldl_cons,addInt_fits next,ih next within,List.sum_cons,add_assoc]

-- clearPromises gives the request the decimal form of the exact sum, by additions
-- that do not overflow.
def SumsExactly (s : ThreadSafeUnorderedMap) (ps : Promises) (floatSum : List Str → Str) (request_id : Int)
    (keys : List Str) (promise : Nat) : Prop :=
  ∃ qs answer, s.clearPromises ps request_id = .ok qs ∧ qs.find? promise = some answer ∧
    answer.text floatSum = to_string (s.elements keys).sum ∧
    (s.elements keys).foldlM accumulate 0 = .ok (s.elements keys).sum

theorem clearPromises_set (floatSum : List Str → Str)
    (row : s.request_map.find? request_id = some (key :: keys,some promise)) (fresh : promise ∉ ps) (int : get_data_type key = str "int") :
    ∃ qs answer, s.clearPromises ps request_id = .ok qs ∧ qs.find? promise = some answer ∧
      answer.text floatSum = to_string ((s.elements (key :: keys)).foldl addInt 0) := by
  refine ⟨_,.sum ((key :: keys).map (fun k => (k,(s.get_cache.find? k).getD []))),
    ThreadSafeUnorderedMap.clear_present row (List.cons_ne_nil _ _) fresh,?_,?_⟩
  · rw [Table.find_insert,if_pos rfl]
  · have type : summedType key = .int := by
      unfold summedType
      rw [int]
      rfl
    rw [List.map_cons,sum_text,type]
    simp only [deserializeAndSumInt,ThreadSafeUnorderedMap.elements,List.map_cons,List.map_map]
    rfl

-- The sum is exact exactly when no sum of the first elements, added in the order of
-- the keys, leaves the range of int.
theorem sums_exactly_iff (row : s.request_map.find? request_id = some (key :: keys,some promise)) (fresh : promise ∉ ps)
    (int : get_data_type key = str "int") :
    SumsExactly s ps floatSum request_id (key :: keys) promise ↔
      ∀ n, Fits32 ((s.elements (key :: keys)).take n).sum := by
  have start : Fits32 0 := by decide
  have range : InRange 0 (s.elements (key :: keys)) ↔ ∀ n, Fits32 ((s.elements (key :: keys)).take n).sum := by
    simp only [InRange,zero_add]
  have bound := accumulate_iff start (s.elements (key :: keys))
  rw [zero_add] at bound
  rw [← range]
  constructor
  · rintro ⟨qs,answer,_,_,_,returned⟩
    exact bound.mp returned
  · intro within
    obtain ⟨qs,answer,ran,set,text⟩ := clearPromises_set floatSum row fresh int
    rw [addInt_sum start _ within,zero_add] at text
    exact ⟨qs,answer,ran,set,text,bound.mpr within⟩

-- One request for one bucket of two ints.
def oneRequest (value : Str) : ThreadSafeUnorderedMap :=
  ⟨∅,∅,(∅ : Table Int (List Str × Option Nat)).insert 0 ([str "a&int&@5"],some 0),
    (∅ : Table Str Str).insert (str "a&int&@5") value⟩

theorem sums_exactly_small :
    ((oneRequest (serialize [3,4])).request_map.find? 0 = some (str "a&int&@5" :: [],some 0) ∧
      0 ∉ (∅ : Promises) ∧ get_data_type (str "a&int&@5") = str "int") ∧
    (SumsExactly (oneRequest (serialize [3,4])) ∅ (fun _ => []) 0 [str "a&int&@5"] 0 ↔
      ∀ n, Fits32 (((oneRequest (serialize [3,4])).elements [str "a&int&@5"]).take n).sum) :=
  ⟨by decide +kernel,sums_exactly_iff (by decide +kernel) (by decide) (by decide +kernel)⟩

-- The greatest int and one more.
theorem sum_overflows :
    ¬ ∀ (s : ThreadSafeUnorderedMap) (ps : Promises) (floatSum : List Str → Str) (request_id : Int) (key : Str)
      (keys : List Str) (promise : Nat),
      s.request_map.find? request_id = some (key :: keys,some promise) → (∀ k ∈ key :: keys, k ∈ s.get_cache) →
      promise ∉ ps → get_data_type key = str "int" → SumsExactly s ps floatSum request_id (key :: keys) promise := by
  intro always
  obtain ⟨qs,answer,_,_,_,returned⟩ := always (oneRequest (serialize [2147483647,1])) ∅ (fun _ => []) 0
    (str "a&int&@5") [] 0 (by decide +kernel) (by decide +kernel) (by decide) (by decide +kernel)
  have read : (oneRequest (serialize [2147483647,1])).elements [str "a&int&@5"] = [2147483647,1] := by decide +kernel
  rw [read] at returned
  exact absurd returned (by decide)

end TsWaffle
