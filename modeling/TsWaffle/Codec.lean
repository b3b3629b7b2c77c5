import TsWaffle.Values
import TsWaffle.Lib.Blocks

namespace TsWaffle
open Text Blocks

def Fits32 (n : Int) : Prop := -2^31 ≤ n ∧ n < 2^31

instance : Decidable (Fits32 n) := inferInstanceAs (Decidable (_ ∧ _))

-- The object representation of an int: four bytes, the lowest first.
def intBytes (n : Int) : List UInt8 :=
  let u := (n % 2^32).toNat
  [UInt8.ofNat u,UInt8.ofNat (u/256),UInt8.ofNat (u/65536),UInt8.ofNat (u/16777216)]

def asInt : List UInt8 → Int
  | [a,b,c,d] => int32 a b c d
  | _ => 0

namespace BinarySerializer

-- A copy of no bytes reads nothing of an empty vector.
def serialize (data : List Int) : Str :=
  let binaryData : Str := List.replicate (data.length*4) 0
  memcpy binaryData (data.flatMap intBytes) binaryData.length

-- One element more than fits is allocated, and dropped again.
def deserialize (binaryData : Str) : List Int :=
  let count := binaryData.length/4+1
  let data : List UInt8 := List.replicate (4*count) 0
  let data := memcpy data binaryData binaryData.length
  (blocks 4 count data).dropLast.map asInt

def serializeBool (data : List Bool) : Str := data.map (fun val => if val then 1 else 0)

end BinarySerializer

theorem intBytes_length (n : Int) : (intBytes n).length = 4 := rfl

theorem asInt_intBytes (fits : Fits32 n) : asInt (intBytes n) = n := by
  obtain ⟨low,high⟩ := fits
  unfold intBytes asInt int32
  dsimp only
  rw [UInt8.toNat_ofNat',UInt8.toNat_ofNat',UInt8.toNat_ofNat',UInt8.toNat_ofNat']
  have value : ((n % 2^32).toNat : Int) = n % 2^32 := by omega
  generalize (n % 2^32).toNat = u at value
  have bytes : ((u % 2^8 : Nat) : Int)+256*((u/256 % 2^8 : Nat) : Int)+65536*((u/65536 % 2^8 : Nat) : Int)+
      16777216*((u/16777216 % 2^8 : Nat) : Int) = u := by omega
  rw [bytes,value,Int.bmod_def]
  omega

theorem intBytes_asInt (b : List UInt8) (wide : b.length = 4) : intBytes (asInt b) = b := by
  obtain ⟨p,q,r,s,rfl⟩ : ∃ p q r s, b = [p,q,r,s] := by
    match b,wide with
    | [p,q,r,s],_ => exact ⟨p,q,r,s,rfl⟩
  have first := p.toNat_lt
  have second := q.toNat_lt
  have third := r.toNat_lt
  have fourth := s.toNat_lt
  have value : (int32 p q r s % 2^32).toNat = p.toNat+256*q.toNat+65536*r.toNat+16777216*s.toNat := by
    unfold int32
    rw [Int.bmod_def]
    omega
  have digit : ∀ (u : Nat) (c : UInt8), u % 256 = c.toNat → UInt8.ofNat u = c := by
    intro u c same
    apply UInt8.toNat_inj.mp
    rw [UInt8.toNat_ofNat',← same]
  unfold asInt intBytes
  rw [value]
  dsimp only
  rw [digit _ p (by omega),digit _ q (by omega),digit _ r (by omega),digit _ s (by omega)]

namespace BinarySerializer

theorem bytes_length (data : List Int) : (data.map intBytes).flatten.length = data.length*4 := by
  induction data with
  | nil => rfl
  | cons n rest ih =>
    rw [List.map_cons,List.flatten_cons,List.length_append,ih,intBytes_length,List.length_cons]
    omega

theorem serialize_eq (data : List Int) : serialize data = (data.map intBytes).flatten := by
  have wide := bytes_length data
  rw [serialize,List.flatMap_def,List.length_replicate,← wide,memcpy_all,wide,List.drop_replicate,Nat.sub_self]
  exact List.append_nil _

theorem deserialize_eq (binaryData : Str) :
    deserialize binaryData = (blocks 4 (binaryData.length/4) binaryData).map asInt := by
  simp only [deserialize,memcpy_all,blocks_dropLast]
  rw [blocks_append]
  omega

-- The elements read are those the sums walk over.
theorem deserialize_sum (binaryData : Str) : deserialize binaryData = deserializeInt binaryData := by
  rw [deserialize_eq]
  fun_induction deserializeInt binaryData with
  | case1 a b c d rest ih =>
    have count : (a :: b :: c :: d :: rest).length/4 = rest.length/4+1 := by
      simp only [List.length_cons]
      omega
    rw [count,blocks,List.map_cons]
    exact congrArg (int32 a b c d :: ·) ih
  | case2 l short =>
    have few : l.length/4 = 0 := by
      rcases l with _ | ⟨a,_ | ⟨b,_ | ⟨c,_ | ⟨d,rest⟩⟩⟩⟩
      case cons.cons.cons.cons => exact (short a b c d rest rfl).elim
      all_goals simp
    rw [few]
    rfl

theorem serialize_blocks (s : Str) : serialize (deserialize s) = s.take (4*(s.length/4)) := by
  have wide := block_length 4 (s.length/4) s (by omega)
  have same : ((blocks 4 (s.length/4) s).map asInt).map intBytes = blocks 4 (s.length/4) s := by
    rw [List.map_map]
    refine (List.map_congr_left ?_).trans (List.map_id _)
    intro b member
    exact intBytes_asInt b (wide b member)
  rw [serialize_eq,deserialize_eq,same,flatten_blocks]

theorem deserialize_serialize (fits : ∀ n ∈ v, Fits32 n) : deserialize (serialize v) = v := by
  have wide : ∀ b ∈ v.map intBytes, b.length = 4 := by
    intro b member
    obtain ⟨n,_,rfl⟩ := List.mem_map.mp member
    exact intBytes_length n
  have count : (v.map intBytes).flatten.length/4 = (v.map intBytes).length := by
    rw [bytes_length,List.length_map,Nat.mul_div_cancel _ (by decide)]
  rw [deserialize_eq,serialize_eq,count,blocks_flatten 4 _ wide,List.map_map]
  refine (List.map_congr_left ?_).trans (List.map_id _)
  intro n member
  rw [Function.comp_apply,asInt_intBytes (fits n member)]
  rfl

theorem deserializeBool_serializeBool (flags : List Bool) : deserializeBool (serializeBool flags) = flags := by
  rw [deserializeBool,serializeBool,List.map_map]
  refine (List.map_congr_left ?_).trans (List.map_id _)
  intro val _
  cases val <;> rfl

theorem serializeBool_deserializeBool (s : Str) :
    serializeBool (deserializeBool s) = s.map (fun b => if b = 0 then 0 else 1) := by
  rw [deserializeBool,serializeBool,List.map_map]
  apply List.map_congr_left
  intro b _
  by_cases zero : b = 0 <;> simp [zero]

-- Ints come back as they were; of a byte string the longest part that is made of
-- whole elements comes back. A bool is one byte, and any byte but 0 reads as true.
theorem codec_roundTrip (v : List Int) (fits : ∀ n ∈ v, Fits32 n) (s : Str) (flags : List Bool) :
    deserialize (serialize v) = v ∧
    ((deserialize s).length = s.length/4 ∧ serialize (deserialize s) <+: s ∧
      4 ∣ (serialize (deserialize s)).length ∧
      ∀ p, p <+: s → 4 ∣ p.length → p.length ≤ (serialize (deserialize s)).length) ∧
    deserializeBool (serializeBool flags) = flags ∧
    serializeBool (deserializeBool s) = s.map (fun b => if b = 0 then 0 else 1) := by
  refine ⟨deserialize_serialize fits,?_,deserializeBool_serializeBool flags,serializeBool_deserializeBool s⟩
  rw [serialize_blocks]
  refine ⟨?_,List.take_prefix _ _,?_,?_⟩
  · rw [deserialize_eq,List.length_map,blocks_length]
  · rw [List.length_take]
    omega
  · intro p front whole
    have short := front.length_le
    rw [List.length_take]
    omega

def oddBytes : Str := [7,0,0,0,9]

theorem codec_roundTrip_odd :
    (∀ n ∈ ([1,-2] : List Int), Fits32 n) ∧
    deserialize (serialize [1,-2]) = [1,-2] ∧
    ((deserialize oddBytes).length = oddBytes.length/4 ∧ serialize (deserialize oddBytes) <+: oddBytes ∧
      4 ∣ (serialize (deserialize oddBytes)).length ∧
      ∀ p, p <+: oddBytes → 4 ∣ p.length → p.length ≤ (serialize (deserialize oddBytes)).length) ∧
    deserializeBool (serializeBool [true,false]) = [true,false] ∧
    serializeBool (deserializeBool oddBytes) = oddBytes.map (fun b => if b = 0 then 0 else 1) :=
  ⟨by decide,codec_roundTrip [1,-2] (by decide) oddBytes [true,false]⟩

end BinarySerializer
end TsWaffle
