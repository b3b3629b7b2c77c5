import TsWaffle.Lib.Text

namespace TsWaffle
open Text

-- DataType::get_data_type: the text between the first two '&', "string" without them.
def get_data_type (checking_key : Str) : Str :=
  match checking_key.findIdx? (· == chr '&') with
  | none => str "string"
  | some firstAmp =>
    match (checking_key.drop (firstAmp+1)).findIdx? (· == chr '&') with
    | none => str "string"
    | some width => (checking_key.drop (firstAmp+1)).take width

-- A little-endian 32-bit int, and int addition as the machine performs it.
def int32 (a b c d : UInt8) : Int :=
  Int.bmod (a.toNat+256*b.toNat+65536*c.toNat+16777216*d.toNat) (2^32)
def addInt (a b : Int) : Int := Int.bmod (a+b) (2^32)

-- BinarySerializer::deserialize<int>: the bytes behind the last whole element are
-- copied into the extra element, which is dropped.
def deserializeInt : Str → List Int
  | a :: b :: c :: d :: rest => int32 a b c d :: deserializeInt rest
  | _ => []

def deserializeBool (binaryData : Str) : List Bool := binaryData.map (· != 0)

def deserializeAndSumInt (values : List Str) : Int :=
  (values.flatMap deserializeInt).foldl addInt 0

def deserializeAndSumBool (values : List Str) : Int :=
  (values.flatMap deserializeBool).foldl (fun total dp => addInt total (if dp then 1 else 0)) 0

-- What a promise is given. A GET's answer keeps the (bucket key, value) pairs it
-- aggregates; the text sent to the client is computed from them.
inductive Answer where
  | stored (value : Str)
  | invalid
  | sum (pairs : List (Str × Str))
  deriving DecidableEq

-- Float addition is outside the model: the text of a float sum is a parameter.
def Answer.text (floatSum : List Str → Str) : Answer → Str
  | .stored value => value
  | .invalid => str "No record found!"
  | .sum [] => []
  | .sum ((key,value) :: rest) =>
    let values := value :: rest.map Prod.snd
    if get_data_type key = str "int" then to_string (deserializeAndSumInt values)
    else if get_data_type key = str "float" then floatSum values
    else to_string (deserializeAndSumBool values)

end TsWaffle
