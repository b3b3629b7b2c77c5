import Mathlib

namespace TsWaffle.Substrings
variable {α : Type} [DecidableEq α] {a b rest : List α} {c : α}

-- find and rfind for one character of a string, and substr. No position stands
-- for npos, which as a count means up to the end.
def find (text : List α) (c : α) (pos : Nat) : Option Nat :=
  ((text.drop pos).findIdx? (· == c)).map (pos + ·)

def rfind (text : List α) (c : α) : Option Nat :=
  (text.reverse.findIdx? (· == c)).map (fun back => text.length-1-back)

-- npos+1 wraps to 0.
def past : Option Nat → Nat
  | none => 0
  | some pos => pos+1

-- Behind the end there is nothing to take, not even nothing.
def substr (text : List α) (pos : Nat) (count : Option Nat) : Option (List α) :=
  if text.length < pos then none
  else some (match count with
    | none => text.drop pos
    | some n => (text.drop pos).take n)

theorem findIdx_first (free : c ∉ b) : (b ++ c :: rest).findIdx? (· == c) = some b.length := by
  have absent : b.findIdx? (· == c) = none := by
    rw [List.findIdx?_eq_none_iff]
    intro x member
    rw [beq_eq_false_iff_ne]
    rintro rfl
    exact free member
  rw [List.findIdx?_append,absent,List.findIdx?_cons]
  simp

theorem find_past (free : c ∉ b) : find (a ++ (b ++ c :: rest)) c a.length = some (a.length+b.length) := by
  rw [find,List.drop_left,findIdx_first free]
  rfl

theorem rfind_last (free : c ∉ b) : rfind (a ++ c :: b) c = some a.length := by
  have reversed : (a ++ c :: b).reverse = b.reverse ++ c :: a.reverse := by simp
  rw [rfind,reversed,findIdx_first (by simpa using free),Option.map_some]
  simp only [List.length_append,List.length_cons,List.length_reverse]
  congr 1
  omega

omit [DecidableEq α] in
theorem substr_head (a b : List α) : substr (a ++ b) 0 (some a.length) = some a := by
  rw [substr,if_neg (by omega)]
  simp

omit [DecidableEq α] in
theorem substr_rest (a b : List α) : substr (a ++ b) a.length none = some b := by
  rw [substr,if_neg (by simp)]
  simp

omit [DecidableEq α] in
theorem substr_middle (a b : List α) (n : Nat) : substr (a ++ b) a.length (some n) = some (b.take n) := by
  rw [substr,if_neg (by simp)]
  simp

end TsWaffle.Substrings
