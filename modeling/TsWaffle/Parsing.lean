import TsWaffle.Serving
import TsWaffle.Summing
import TsWaffle.Lib.Substrings

namespace TsWaffle
open Text Substrings
variable {item user user_id timestamp : Str} {t start stop : Int}

def slice (text : Str) (pos : Nat) (count : Option Nat) : Except Fault Str :=
  match substr text pos count with
  | some part => .ok part
  | none => .error .out_of_range

structure KeyGenerationDecomposition where
  item_id : Str
  user_id : Str
  timestamp : Str
  key : Str

namespace KeyGenerationDecomposition

def USER_ID_LENGTH : Nat := 16

def set_user_id (new_user_id : Str) : Str :=
  if new_user_id.length > USER_ID_LENGTH then new_user_id.take USER_ID_LENGTH
  else List.replicate (USER_ID_LENGTH-new_user_id.length) (chr '0') ++ new_user_id

def build (item_id new_user_id timestamp : Str) : KeyGenerationDecomposition :=
  let user_id := set_user_id new_user_id
  ⟨item_id,user_id,timestamp,item_id ++ chr '@' :: (user_id ++ chr '@' :: timestamp)⟩

-- The one-argument constructor. The count of the second part is the position of the
-- second '@' in the whole key.
def parse (key : Str) : Except Fault KeyGenerationDecomposition := do
  let first := find key (chr '@') 0
  let second := find key (chr '@') (past first)
  let item_id ← slice key 0 first
  let user_id ← slice key (past first) second
  let timestamp ← slice key (past second) none
  return ⟨item_id,user_id,timestamp,key⟩

theorem set_user_id_length (new_user_id : Str) : (set_user_id new_user_id).length = USER_ID_LENGTH := by
  unfold set_user_id
  split
  · rw [List.length_take]
    omega
  · rw [List.length_append,List.length_replicate]
    omega

theorem set_user_id_take (new_user_id rest : Str) : set_user_id (set_user_id new_user_id ++ rest) = set_user_id new_user_id := by
  have wide := set_user_id_length new_user_id
  generalize set_user_id new_user_id = padded at wide
  unfold set_user_id
  split
  · exact List.take_left' wide
  · rename_i short
    rw [List.length_append,wide] at short
    have none : rest = [] := List.length_eq_zero_iff.mp (by omega)
    rw [none,List.append_nil,wide,Nat.sub_self]
    rfl

theorem set_user_id_free (free : chr '@' ∉ user) : chr '@' ∉ set_user_id user := by
  unfold set_user_id
  split
  · exact fun member => free (List.mem_of_mem_take member)
  · intro member
    rcases List.mem_append.mp member with padding | own
    · exact absurd (List.eq_of_mem_replicate padding) (by decide)
    · exact free own

-- What the parser makes of a key that was built: the user id runs on into the
-- separator and what follows it.
theorem parse_build (freeItem : chr '@' ∉ item) (freeUser : chr '@' ∉ user) :
    parse (build item user timestamp).key =
      .ok ⟨item,set_user_id user ++ (chr '@' :: timestamp).take (item.length+1),timestamp,
        (build item user timestamp).key⟩ := by
  have wide := set_user_id_length user
  have freePadded := set_user_id_free freeUser
  simp only [build]
  generalize set_user_id user = padded at wide freePadded
  have first : find (item ++ chr '@' :: (padded ++ chr '@' :: timestamp)) (chr '@') 0 = some item.length := by
    have found : find ([] ++ (item ++ chr '@' :: (padded ++ chr '@' :: timestamp))) (chr '@') ([] : Str).length =
        some (([] : Str).length+item.length) := find_past freeItem
    rwa [List.nil_append,List.length_nil,Nat.zero_add] at found
  have shape : item ++ chr '@' :: (padded ++ chr '@' :: timestamp) =
      (item ++ [chr '@']) ++ (padded ++ chr '@' :: timestamp) := by simp
  have width : (item ++ [chr '@']).length = item.length+1 := by simp
  have second : find (item ++ chr '@' :: (padded ++ chr '@' :: timestamp)) (chr '@') (item.length+1) =
      some (item.length+1+USER_ID_LENGTH) := by
    rw [shape,← width,find_past freePadded,wide]
  have tail : item ++ chr '@' :: (padded ++ chr '@' :: timestamp) =
      (item ++ chr '@' :: (padded ++ [chr '@'])) ++ timestamp := by simp
  have before : (item ++ chr '@' :: (padded ++ [chr '@'])).length = item.length+1+USER_ID_LENGTH+1 := by
    simp only [List.length_append,List.length_cons,List.length_nil,wide]
    omega
  have middle := substr_middle (item ++ [chr '@']) (padded ++ chr '@' :: timestamp) (item.length+1+USER_ID_LENGTH)
  have rest := substr_rest (item ++ chr '@' :: (padded ++ [chr '@'])) timestamp
  rw [← shape,width,List.take_append,wide,List.take_of_length_le (by omega),
    show item.length+1+USER_ID_LENGTH-USER_ID_LENGTH = item.length+1 by omega] at middle
  rw [← tail,before] at rest
  simp only [parse,first,past,second,slice,substr_head,middle,rest,bind,Except.bind,pure,Except.pure]

-- Parsing a key gives back the parts it was built from, and building it again from
-- these gives the same key.
def RoundTrips (item user timestamp : Str) : Prop :=
  ∃ parsed, parse (build item user timestamp).key = .ok parsed ∧
    parsed.item_id = item ∧ parsed.user_id = (build item user timestamp).user_id ∧ parsed.timestamp = timestamp ∧
    (build parsed.item_id parsed.user_id parsed.timestamp).key = (build item user timestamp).key

theorem user_id_never_round_trips (freeItem : chr '@' ∉ item) (freeUser : chr '@' ∉ user) :
    ¬ RoundTrips item user timestamp := by
  rintro ⟨parsed,ran,_,same,_⟩
  rw [parse_build freeItem freeUser] at ran
  cases ran
  have longer := congrArg List.length same
  simp only [build,List.length_append,List.length_take,List.length_cons] at longer
  omega

theorem user_id_never_round_trips_sample :
    (chr '@' ∉ str "CPU&int&" ∧ chr '@' ∉ str "user_id") ∧ ¬ RoundTrips (str "CPU&int&") (str "user_id") (str "17") :=
  ⟨by decide,user_id_never_round_trips (by decide) (by decide)⟩

theorem parsed_user_id_differs :
    ¬ ∀ item user timestamp : Str, chr '@' ∉ item → chr '@' ∉ user → RoundTrips item user timestamp := by
  intro always
  obtain ⟨parsed,ran,_,same,_⟩ := always (str "a") (str "u") (str "7") (by decide) (by decide)
  have shape : (parse (build (str "a") (str "u") (str "7")).key).map user_id = .ok (str "000000000000000u@7") := by
    decide +kernel
  rw [ran] at shape
  have equal : parsed.user_id = str "000000000000000u@7" := Except.ok.inj shape
  rw [same] at equal
  exact absurd equal (by decide +kernel)

-- The rest does come back, and a key built from the parts is cut to the right width
-- again.
theorem rebuild (freeItem : chr '@' ∉ item) (freeUser : chr '@' ∉ user) :
    ∃ parsed, parse (build item user timestamp).key = .ok parsed ∧ parsed.item_id = item ∧
      parsed.timestamp = timestamp ∧
      (build parsed.item_id parsed.user_id parsed.timestamp).key = (build item user timestamp).key := by
  refine ⟨_,parse_build freeItem freeUser,rfl,rfl,?_⟩
  simp only [build,set_user_id_take]

end KeyGenerationDecomposition

-- TS_get_oldest_key::get_timestamp: the number behind the last '@'.
def get_timestamp (key : Str) : Except Fault Int := do
  let text ← slice key (past (rfind key (chr '@'))) none
  stol text

theorem get_timestamp_bucketKey (fits : Fits64 t) : get_timestamp (bucketKey item t) = .ok t := by
  have found := rfind_last (a:=item) (at_notMem t)
  have shape : item ++ chr '@' :: to_string t = (item ++ [chr '@']) ++ to_string t := by simp
  have rest := substr_rest (item ++ [chr '@']) (to_string t)
  rw [← shape,List.length_append] at rest
  unfold get_timestamp bucketKey
  rw [found]
  simp only [slice,past]
  rw [show item.length+1 = item.length+[chr '@'].length from rfl,rest]
  exact stol_to_string fits

theorem get_data_type_between {p d q : Str} (freeFront : chr '&' ∉ p) (freeType : chr '&' ∉ d) :
    get_data_type (p ++ chr '&' :: (d ++ chr '&' :: q)) = d := by
  have behind : (p ++ chr '&' :: (d ++ chr '&' :: q)).drop (p.length+1) = d ++ chr '&' :: q := by
    simp [List.drop_append]
  simp only [get_data_type,findIdx_first freeFront,behind,findIdx_first freeType,List.take_left]

-- What stands behind an item does not change its type.
theorem get_data_type_append {p d q : Str} (freeFront : chr '&' ∉ p) (freeType : chr '&' ∉ d)
    (shape : item = p ++ chr '&' :: (d ++ chr '&' :: q)) (rest : Str) : get_data_type (item ++ rest) = d := by
  have longer : item ++ rest = p ++ chr '&' :: (d ++ chr '&' :: (q ++ rest)) := by simp [shape]
  rw [longer]
  exact get_data_type_between freeFront freeType

-- The four parsers read what the builders wrote, and an item's type is read alike
-- from the item, from its buckets' keys and from its queries: buckets are summed as
-- they were generated.
theorem parsers_agree (named : item ≠ []) (free : chr '@' ∉ item) (fits : Fits64 t) (fitsStart : Fits64 start)
    (fitsEnd : Fits64 stop) :
    get_key_timestamp_split (bucketKey item t) = .ok (item,t) ∧
    get_timestamp (bucketKey item t) = .ok t ∧
    range_parts (Request.get item start stop).operation.key = .ok (item,start,stop) ∧
    (∀ bst, get_split_keys bst (Request.get item start stop).operation.key =
      .ok ((select (bst.timestamps item).toList start stop).map (bucketKey item),(bst.get_timestamp_for_key item).2)) ∧
    ∀ p d q : Str, chr '&' ∉ p → chr '&' ∉ d → item = p ++ chr '&' :: (d ++ chr '&' :: q) →
      get_data_type item = d ∧ get_data_type (bucketKey item t) = d ∧
      get_data_type (Request.get item start stop).operation.key = d ∧
      ∀ type, generatedType item = .ok type → summedType (bucketKey item t) = type := by
  refine ⟨bucketKey_split ⟨named,free,fits⟩,get_timestamp_bucketKey fits,range_parts_get free fitsStart fitsEnd,
    fun bst => get_split_keys_get bst free fitsStart fitsEnd,?_⟩
  intro p d q freeFront freeType shape
  have own : get_data_type item = d := by
    have same := get_data_type_append freeFront freeType shape []
    rwa [List.append_nil] at same
  have bucket : get_data_type (bucketKey item t) = d := get_data_type_append freeFront freeType shape _
  refine ⟨own,bucket,get_data_type_append freeFront freeType shape _,?_⟩
  intro type chosen
  exact generatedType_summed (own.trans bucket.symm) chosen

theorem parsers_agree_negative :
    (str "a#&int&" ≠ [] ∧ chr '@' ∉ str "a#&int&" ∧ Fits64 (-5) ∧ Fits64 (-7) ∧ Fits64 9) ∧
    get_key_timestamp_split (bucketKey (str "a#&int&") (-5)) = .ok (str "a#&int&",-5) ∧
    get_timestamp (bucketKey (str "a#&int&") (-5)) = .ok (-5) ∧
    range_parts (Request.get (str "a#&int&") (-7) 9).operation.key = .ok (str "a#&int&",-7,9) ∧
    (∀ bst, get_split_keys bst (Request.get (str "a#&int&") (-7) 9).operation.key =
      .ok ((select (bst.timestamps (str "a#&int&")).toList (-7) 9).map (bucketKey (str "a#&int&")),
        (bst.get_timestamp_for_key (str "a#&int&")).2)) ∧
    ∀ p d q : Str, chr '&' ∉ p → chr '&' ∉ d → str "a#&int&" = p ++ chr '&' :: (d ++ chr '&' :: q) →
      get_data_type (str "a#&int&") = d ∧ get_data_type (bucketKey (str "a#&int&") (-5)) = d ∧
      get_data_type (Request.get (str "a#&int&") (-7) 9).operation.key = d ∧
      ∀ type, generatedType (str "a#&int&") = .ok type → summedType (bucketKey (str "a#&int&") (-5)) = type :=
  ⟨by decide,parsers_agree (by decide) (by decide) (by decide) (by decide) (by decide)⟩

end TsWaffle
