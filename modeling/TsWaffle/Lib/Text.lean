import Mathlib

namespace TsWaffle.Text

-- A C++ std::string is a sequence of bytes; every key, label and value of the
-- development is one. Nothing here assumes an encoding.
abbrev Str := List UInt8

instance lawfulStr : LawfulBEq Str := inferInstance

def chr (c : Char) : UInt8 := c.toNat.toUInt8
def str (s : String) : Str := s.toList.map chr

-- The ways a C++ computation ends without a value. Undefined behaviour and
-- non-termination are faults of their own, never a default result.
inductive Fault where
  | invalid_argument | out_of_range | future_error | redis_error
  | undefined | diverges | exit
  deriving DecidableEq, Repr

instance byteOrder : LinearOrder UInt8 where
  le_refl := UInt8.le_refl
  le_trans _ _ _ := UInt8.le_trans
  le_antisymm _ _ := UInt8.le_antisymm
  le_total := UInt8.le_total
  lt_iff_le_not_ge a b := by
    simp only [UInt8.lt_iff_toNat_lt,UInt8.le_iff_toNat_le]
    omega
  toDecidableLE := inferInstance
  toDecidableLT := inferInstance

def digit (d : Nat) : UInt8 := UInt8.ofNat (48+d)
def isDigit (b : UInt8) : Bool := 48 ≤ b && b ≤ 57
def isSpace (b : UInt8) : Bool := b == 32 || (9 ≤ b && b ≤ 13)

def natText (n : Nat) : Str :=
  if n = 0 then [48] else (Nat.digits 10 n).reverse.map digit

-- std::to_string on int and long.
def to_string (n : Int) : Str :=
  if n < 0 then chr '-' :: natText n.natAbs else natText n.natAbs

def readNat (s : Str) : Nat := s.foldl (fun n b => n*10+(b.toNat-48)) 0

def Fits64 (n : Int) : Prop := -2^63 ≤ n ∧ n < 2^63

instance : Decidable (Fits64 n) := inferInstanceAs (Decidable (_ ∧ _))

def signed : Str → Bool × Str
  | [] => (false,[])
  | b :: rest =>
    if b = chr '-' then (true,rest) else if b = chr '+' then (false,rest) else (false,b :: rest)

-- std::stol: leading blanks, one optional sign, the longest run of digits. What
-- follows the digits is ignored.
def stol (s : Str) : Except Fault Int :=
  let (negative,body) := signed (s.dropWhile isSpace)
  let digits := body.takeWhile isDigit
  if digits = [] then .error .invalid_argument
  else
    let value : Int := if negative then -(readNat digits : Int) else readNat digits
    if Fits64 value then .ok value else .error .out_of_range

theorem digit_toNat (small : d < 10) : (digit d).toNat = 48+d := by
  simp only [digit,UInt8.toNat_ofNat']
  omega

theorem digit_isDigit (small : d < 10) : isDigit (digit d) = true := by
  have value := digit_toNat small
  simp only [isDigit,Bool.and_eq_true,decide_eq_true_eq,UInt8.le_iff_toNat_le,value]
  exact ⟨by simp,by have : (57 : UInt8).toNat = 57 := rfl; omega⟩

theorem readNat_foldl (ds : List Nat) (small : ∀ d ∈ ds, d < 10) :
    readNat (ds.reverse.map digit) = Nat.ofDigits 10 ds := by
  induction ds with
  | nil => rfl
  | cons d rest ih =>
    have tail := ih (fun e member => small e (List.mem_cons_of_mem _ member))
    have value := digit_toNat (small d (by simp))
    unfold readNat at tail ⊢
    rw [List.reverse_cons,List.map_append,List.foldl_append,tail,Nat.ofDigits_cons]
    simp only [List.map_cons,List.map_nil,List.foldl_cons,List.foldl_nil,value]
    omega

theorem readNat_natText (n : Nat) : readNat (natText n) = n := by
  unfold natText
  split
  · rename_i zero; subst zero; rfl
  · rw [readNat_foldl _ (fun d member => Nat.digits_lt_base (by decide) member),Nat.ofDigits_digits]

theorem natText_digits (n : Nat) : ∀ b ∈ natText n, isDigit b = true := by
  intro b member
  unfold natText at member
  split at member
  · simp only [List.mem_singleton] at member; subst member; rfl
  · obtain ⟨d,present,rfl⟩ := List.mem_map.mp member
    exact digit_isDigit (Nat.digits_lt_base (by decide) (List.mem_reverse.mp present))

theorem natText_ne_nil (n : Nat) : natText n ≠ [] := by
  unfold natText
  split
  · simp
  · rename_i positive
    simpa using Nat.digits_ne_nil_iff_ne_zero.mpr positive

theorem natText_injective : Function.Injective natText :=
  Function.LeftInverse.injective readNat_natText

-- The characters of a decimal number: none of the separators of a key.
theorem to_string_chars (n : Int) : ∀ b ∈ to_string n, b = chr '-' ∨ isDigit b = true := by
  intro b member
  unfold to_string at member
  split at member
  · rcases List.mem_cons.mp member with rfl | tail
    · exact .inl rfl
    · exact .inr (natText_digits _ b tail)
  · exact .inr (natText_digits _ b member)

theorem separator_notMem (n : Int) (c : UInt8) (sign : c ≠ chr '-') (plain : isDigit c = false) :
    c ∉ to_string n := by
  intro member
  rcases to_string_chars n c member with same | numeric
  · exact sign same
  · simp [plain] at numeric

theorem at_notMem (n : Int) : chr '@' ∉ to_string n := separator_notMem n _ (by decide) (by decide)
theorem hash_notMem (n : Int) : chr '#' ∉ to_string n := separator_notMem n _ (by decide) (by decide)

theorem to_string_ne_nil (n : Int) : to_string n ≠ [] := by
  unfold to_string
  split
  · simp
  · exact natText_ne_nil _

theorem to_string_injective : Function.Injective to_string := by
  intro a b same
  have clash : ∀ m n, chr '-' :: natText m ≠ natText n := by
    intro m n equal
    have numeric := natText_digits n (chr '-') (by rw [← equal]; simp)
    exact absurd numeric (by decide)
  unfold to_string at same
  split at same <;> split at same
  · have := natText_injective (List.cons.inj same).2; omega
  · exact absurd same (clash _ _)
  · exact absurd same.symm (clash _ _)
  · have := natText_injective same; omega

theorem dropSpace_to_string (n : Int) : (to_string n).dropWhile isSpace = to_string n := by
  cases shape : to_string n with
  | nil => rfl
  | cons b rest =>
    have plain : isSpace b = false := by
      rcases to_string_chars n b (by simp [shape]) with rfl | numeric
      · decide
      · simp only [isDigit,Bool.and_eq_true,decide_eq_true_eq,UInt8.le_iff_toNat_le] at numeric
        have low : (48 : UInt8).toNat = 48 := rfl
        have bound : 48 ≤ b.toNat := by omega
        have blank : b ≠ 32 := by rintro rfl; simp at bound
        have tabs : ¬ b ≤ 13 := by
          rw [UInt8.le_iff_toNat_le]
          have : (13 : UInt8).toNat = 13 := rfl
          omega
        simp [isSpace,blank,tabs]
    simp [plain]

theorem signed_to_string (n : Int) : signed (to_string n) = (decide (n < 0),natText n.natAbs) := by
  unfold to_string
  split
  · rename_i negative; simp [signed,negative]
  · rename_i negative
    cases shape : natText n.natAbs with
    | nil => exact absurd shape (natText_ne_nil _)
    | cons b rest =>
      have numeric := natText_digits n.natAbs b (by simp [shape])
      have minus : b ≠ chr '-' := by rintro rfl; exact absurd numeric (by decide)
      have plus : b ≠ chr '+' := by rintro rfl; exact absurd numeric (by decide)
      simp [signed,minus,plus,negative]

-- std::stol inverts std::to_string on every long.
theorem stol_to_string (fits : Fits64 n) : stol (to_string n) = .ok n := by
  have body : (natText n.natAbs).takeWhile isDigit = natText n.natAbs :=
    List.takeWhile_eq_self_iff.mpr (natText_digits _)
  have value : (if n < 0 then -(n.natAbs : Int) else n.natAbs) = n := by split <;> omega
  unfold stol
  rw [dropSpace_to_string,signed_to_string]
  simp only [body,natText_ne_nil,readNat_natText,decide_eq_true_eq,value,if_false,fits,if_true]

-- std::getline on '@' until the stream is exhausted: the segment after the last
-- separator is delivered only when it is non-empty.
def getlines (d : UInt8) : Str → Str → List Str
  | part,[] => if part = [] then [] else [part.reverse]
  | part,b :: rest => if b = d then part.reverse :: getlines d [] rest else getlines d (b :: part) rest

theorem getlines_segment (d : UInt8) (segment part rest : Str) (free : d ∉ segment) :
    getlines d part (segment ++ d :: rest) = (part.reverse ++ segment) :: getlines d [] rest := by
  induction segment generalizing part with
  | nil => simp [getlines]
  | cons b tail ih =>
    have other : b ≠ d := by rintro rfl; simp at free
    simp only [List.cons_append,getlines,other,if_false]
    rw [ih (b :: part) (by simp at free; exact free.2)]
    simp

theorem getlines_last (d : UInt8) (segment part : Str) (free : d ∉ segment)
    (filled : part ≠ [] ∨ segment ≠ []) : getlines d part segment = [part.reverse ++ segment] := by
  induction segment generalizing part with
  | nil => simp_all [getlines]
  | cons b tail ih =>
    have other : b ≠ d := by rintro rfl; simp at free
    simp only [getlines,other,if_false]
    rw [ih (b :: part) (by simp at free; exact free.2) (.inl (by simp))]
    simp

-- A separator that the left parts, or the right parts, do not contain splits a
-- string in one way only.
theorem split_first {c : UInt8} {a b s t : Str} (left : c ∉ a) (right : c ∉ b)
    (same : a ++ c :: s = b ++ c :: t) : a = b ∧ s = t := by
  induction a generalizing b with
  | nil =>
    cases b with
    | nil => simpa using same
    | cons y b => simp only [List.nil_append,List.cons_append,List.cons.injEq] at same; simp [same.1] at right
  | cons x a ih =>
    cases b with
    | nil => simp only [List.nil_append,List.cons_append,List.cons.injEq] at same; simp [← same.1] at left
    | cons y b =>
      simp only [List.cons_append,List.cons.injEq] at same
      simp only [List.mem_cons,not_or] at left right
      obtain ⟨rest,tails⟩ := ih left.2 right.2 same.2
      exact ⟨by rw [same.1,rest],tails⟩

theorem split_last {c : UInt8} {a b s t : Str} (left : c ∉ s) (right : c ∉ t)
    (same : a ++ c :: s = b ++ c :: t) : a = b ∧ s = t := by
  have reversed := congrArg List.reverse same
  simp only [List.reverse_append,List.reverse_cons,List.append_assoc,List.singleton_append] at reversed
  obtain ⟨tails,heads⟩ := split_first (by simpa using left) (by simpa using right) reversed
  exact ⟨List.reverse_injective heads,List.reverse_injective tails⟩

end TsWaffle.Text
