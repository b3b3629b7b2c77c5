import TsWaffle.Lib.Text

namespace TsWaffle.EncryptionEngine
open Text

-- OpenSSL's AES-256-CBC under the engine's key and IV: decryption inverts
-- encryption, and PKCS#7 padding fills the last block of 16 bytes.
structure Aes256Cbc where
  encrypt : Str → Str
  decrypt : Str → Str
  inverts : ∀ plain, decrypt (encrypt plain) = plain
  padded : ∀ plain, (encrypt plain).length = 16*(plain.length/16+1)

def alphanum : Str := str "0123456789ABCDEFGHIJKLMNOPQRSTUVWXYZabcdefghijklmnopqrstuvwxyz"

-- draws are the values of rand(), one for each character.
def gen_random (len : Nat) (draws : Nat → Nat) : Str :=
  (List.range len).map (fun i => alphanum.getD (draws i % 62) 0)

def bufferSize : Nat := 4096

-- A text longer than the stack buffer is written past its end; a text of length
-- 0 fails the assertion.
def buffered (text : Str) : Except Fault Str :=
  if bufferSize < text.length then .error .undefined
  else if text = [] then .error .exit else .ok text

def encrypt (aes : Aes256Cbc) (plain_text : Str) : Except Fault Str := buffered (aes.encrypt plain_text)

-- std::find cuts the decrypted text at its first NUL byte.
def decrypt (aes : Aes256Cbc) (cipher_text : Str) : Except Fault Str := do
  let text ← buffered (aes.decrypt cipher_text)
  return text.takeWhile (· ≠ 0)

def extractFrom (encryptedKey : Str) : Nat → Str
  | 0 => []
  | i+1 => if encryptedKey[i]? = some (chr '#') then encryptedKey.take i else extractFrom encryptedKey i

def extractKey (encryptedKey : Str) : Str := extractFrom encryptedKey encryptedKey.length

def encryptNonDeterministic (aes : Aes256Cbc) (rand : Nat) (draws : Nat → Nat) (plain_text : Str) :
    Except Fault Str := encrypt aes (plain_text ++ chr '#' :: gen_random (rand % 10) draws)

def decryptNonDeterministic (aes : Aes256Cbc) (cipher_text : Str) : Except Fault Str := do
  let text ← decrypt aes cipher_text
  return extractKey text

-- The value, its separator and its suffix fit the buffer after padding.
def FitsBuffer (rand : Nat) (plain_text : Str) : Prop :=
  16*((plain_text.length+1+rand % 10)/16+1) ≤ bufferSize

instance : Decidable (FitsBuffer rand plain_text) := inferInstanceAs (Decidable (_ ≤ _))

def roundTrip (aes : Aes256Cbc) (rand : Nat) (draws : Nat → Nat) (v : Str) : Except Fault Str :=
  (encryptNonDeterministic aes rand draws v).bind (decryptNonDeterministic aes)

theorem gen_random_length (len : Nat) (draws : Nat → Nat) : (gen_random len draws).length = len := by
  simp [gen_random]

theorem gen_random_chars (len : Nat) (draws : Nat → Nat) : ∀ b ∈ gen_random len draws, b ∈ alphanum := by
  intro b member
  obtain ⟨i,_,rfl⟩ := List.mem_map.mp member
  have bound : draws i % 62 < alphanum.length := Nat.mod_lt _ (by decide)
  rw [List.getD_eq_getElem _ _ bound]
  exact List.getElem_mem bound

theorem hash_free (len : Nat) (draws : Nat → Nat) : chr '#' ∉ gen_random len draws := by
  intro member
  exact absurd (gen_random_chars len draws _ member) (by decide)

theorem nul_free (len : Nat) (draws : Nat → Nat) : (0 : UInt8) ∉ gen_random len draws := by
  intro member
  exact absurd (gen_random_chars len draws _ member) (by decide)

theorem extractFrom_length (s : Str) (i : Nat) : (extractFrom s i).length ≤ s.length := by
  induction i with
  | zero => simp [extractFrom]
  | succ i ih =>
    unfold extractFrom
    split
    · simp
    · exact ih

theorem extractFrom_suffix (v suffix : Str) (free : chr '#' ∉ suffix) (i : Nat) (within : i ≤ suffix.length) :
    extractFrom (v ++ chr '#' :: suffix) (v.length+1+i) = v := by
  induction i with
  | zero => simp [extractFrom]
  | succ i ih =>
    have here : (v ++ chr '#' :: suffix)[v.length+1+i]? = suffix[i]? := by
      rw [List.getElem?_append_right (by omega)]
      have shift : v.length+1+i-v.length = i+1 := by omega
      rw [shift,List.getElem?_cons_succ]
    have other : suffix[i]? ≠ some (chr '#') := fun found => free (List.mem_of_getElem? found)
    change extractFrom _ ((v.length+1+i)+1) = v
    rw [extractFrom,here,if_neg other]
    exact ih (by omega)

-- The last '#' of a value followed by '#' and a suffix is the appended one.
theorem extractKey_suffix (v suffix : Str) (free : chr '#' ∉ suffix) :
    extractKey (v ++ chr '#' :: suffix) = v := by
  have whole := extractFrom_suffix v suffix free suffix.length (Nat.le_refl _)
  have length : (v ++ chr '#' :: suffix).length = v.length+1+suffix.length := by
    simp only [List.length_append,List.length_cons]; omega
  rw [extractKey,length]
  exact whole

theorem takeWhile_shorter (v : Str) (present : (0 : UInt8) ∈ v) : (v.takeWhile (· ≠ 0)).length < v.length := by
  by_contra long
  have whole : v.takeWhile (· ≠ 0) = v :=
    (List.takeWhile_sublist _).eq_of_length_le (Nat.le_of_not_lt long)
  have clean := List.takeWhile_eq_self_iff.mp whole 0 present
  simp at clean

theorem roundTrip_value (aes : Aes256Cbc) (rand : Nat) (draws : Nat → Nat) (v : Str) (fits : FitsBuffer rand v) :
    roundTrip aes rand draws v =
      .ok (extractKey ((v ++ chr '#' :: gen_random (rand % 10) draws).takeWhile (· ≠ 0))) := by
  have length : (v ++ chr '#' :: gen_random (rand % 10) draws).length = v.length+1+rand % 10 := by
    simp only [List.length_append,List.length_cons,gen_random_length]; omega
  unfold FitsBuffer at fits
  have cipher : buffered (aes.encrypt (v ++ chr '#' :: gen_random (rand % 10) draws)) =
      .ok (aes.encrypt (v ++ chr '#' :: gen_random (rand % 10) draws)) := by
    have padded := aes.padded (v ++ chr '#' :: gen_random (rand % 10) draws)
    rw [length] at padded
    have filled : aes.encrypt (v ++ chr '#' :: gen_random (rand % 10) draws) ≠ [] := by
      intro none; rw [none] at padded; simp at padded
    simp [buffered,padded,Nat.not_lt.mpr fits,filled]
  have plain : buffered (v ++ chr '#' :: gen_random (rand % 10) draws) =
      .ok (v ++ chr '#' :: gen_random (rand % 10) draws) := by
    have small : ¬ bufferSize < v.length+1+rand % 10 := by omega
    simp only [buffered,length,small,if_false]
    simp
  simp only [roundTrip,encryptNonDeterministic,encrypt,cipher,Except.bind,decryptNonDeterministic,decrypt,
    aes.inverts,plain,bind,pure,Except.pure]

-- A value survives encryption and decryption exactly when it holds no NUL byte.
theorem round_trip_iff_nul_free (aes : Aes256Cbc) (rand : Nat) (draws : Nat → Nat) (v : Str)
    (fits : FitsBuffer rand v) : roundTrip aes rand draws v = .ok v ↔ (0 : UInt8) ∉ v := by
  rw [roundTrip_value aes rand draws v fits]
  constructor
  · intro kept present
    have cut : (v ++ chr '#' :: gen_random (rand % 10) draws).takeWhile (· ≠ 0) = v.takeWhile (· ≠ 0) := by
      rw [List.takeWhile_append,if_neg]
      intro full
      exact absurd full (Nat.ne_of_lt (takeWhile_shorter v present))
    rw [cut] at kept
    have shorter := extractFrom_length (v.takeWhile (· ≠ 0)) (v.takeWhile (· ≠ 0)).length
    change (extractKey _).length ≤ _ at shorter
    rw [Except.ok.inj kept] at shorter
    exact absurd (takeWhile_shorter v present) (Nat.not_lt.mpr shorter)
  · intro clean
    have whole : (v ++ chr '#' :: gen_random (rand % 10) draws).takeWhile (· ≠ 0) =
        v ++ chr '#' :: gen_random (rand % 10) draws := by
      apply List.takeWhile_eq_self_iff.mpr
      intro b member
      have nonzero : b ≠ 0 := by
        intro zero
        subst zero
        rcases List.mem_append.mp member with inValue | later
        · exact clean inValue
        · rcases List.mem_cons.mp later with hash | inSuffix
          · exact absurd hash (by decide)
          · exact nul_free _ _ inSuffix
      simpa using nonzero
    rw [whole,extractKey_suffix v _ (hash_free _ _)]

-- PKCS#7 around the identity block cipher: the padding a real engine applies.
def padding (plain : Str) : Nat := 16-plain.length % 16

def plainCbc : Aes256Cbc where
  encrypt plain := plain ++ List.replicate (padding plain) (UInt8.ofNat (padding plain))
  decrypt cipher := cipher.take (cipher.length-(cipher.getLastD 0).toNat)
  inverts plain := by
    have positive : padding plain = (padding plain-1)+1 := by unfold padding; omega
    have small : padding plain < 256 := by unfold padding; omega
    have last : (plain ++ List.replicate (padding plain) (UInt8.ofNat (padding plain))).getLastD 0 =
        UInt8.ofNat (padding plain) := by
      rw [List.getLastD_eq_getLast?,List.getLast?_append,List.getLast?_replicate,if_neg (by omega)]
      rfl
    have value : (UInt8.ofNat (padding plain)).toNat = padding plain := by
      rw [UInt8.toNat_ofNat']; omega
    rw [last,value,List.length_append,List.length_replicate,Nat.add_sub_cancel,List.take_left]
  padded plain := by
    simp only [List.length_append,List.length_replicate,padding]
    omega

theorem round_trip_of_text : FitsBuffer 3 (str "ab#c") ∧
    (roundTrip plainCbc 3 (fun i => i) (str "ab#c") = .ok (str "ab#c") ↔ (0 : UInt8) ∉ str "ab#c") :=
  ⟨by decide,round_trip_iff_nul_free plainCbc 3 (fun i => i) (str "ab#c") (by decide)⟩

theorem nul_byte_is_lost : ¬ ∀ (aes : Aes256Cbc) (rand : Nat) (draws : Nat → Nat) (v : Str),
    FitsBuffer rand v → roundTrip aes rand draws v = .ok v := by
  intro always
  have kept := always plainCbc 0 (fun _ => 0) [7,0,0,0] (by decide)
  exact absurd kept (by decide)

end TsWaffle.EncryptionEngine
