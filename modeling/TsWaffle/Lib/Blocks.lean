import Mathlib

namespace TsWaffle.Blocks
variable {α : Type}

-- Memory seen as n elements of w cells each.
def blocks (w : Nat) : Nat → List α → List (List α)
  | 0,_ => []
  | n+1,l => l.take w :: blocks w n (l.drop w)

-- The first n cells of the destination are overwritten.
def memcpy (destination source : List α) (n : Nat) : List α := source.take n ++ destination.drop n

theorem memcpy_all (destination source : List α) :
    memcpy destination source source.length = source ++ destination.drop source.length := by
  rw [memcpy,List.take_length]

@[simp] theorem blocks_length (w n : Nat) (l : List α) : (blocks w n l).length = n := by
  induction n generalizing l with
  | zero => rfl
  | succ n ih => rw [blocks,List.length_cons,ih]

theorem block_length (w n : Nat) (l : List α) (enough : w*n ≤ l.length) : ∀ b ∈ blocks w n l, b.length = w := by
  induction n generalizing l with
  | zero => intro b member; cases member
  | succ n ih =>
    rw [Nat.mul_succ] at enough
    intro b member
    rcases List.mem_cons.mp member with rfl | later
    · rw [List.length_take]
      omega
    · refine ih (l.drop w) ?_ b later
      rw [List.length_drop]
      omega

theorem flatten_blocks (w n : Nat) (l : List α) : (blocks w n l).flatten = l.take (w*n) := by
  induction n generalizing l with
  | zero => rfl
  | succ n ih => rw [blocks,List.flatten_cons,ih,Nat.mul_succ,Nat.add_comm,List.take_add]

theorem blocks_flatten (w : Nat) (bs : List (List α)) (wide : ∀ b ∈ bs, b.length = w) :
    blocks w bs.length bs.flatten = bs := by
  induction bs with
  | nil => rfl
  | cons b rest ih =>
    have first := wide b List.mem_cons_self
    rw [List.length_cons,blocks,List.flatten_cons,List.take_left' first,List.drop_left' first,
      ih (fun c member => wide c (List.mem_cons_of_mem _ member))]

theorem blocks_append (w n : Nat) (l r : List α) (enough : w*n ≤ l.length) : blocks w n (l ++ r) = blocks w n l := by
  induction n generalizing l with
  | zero => rfl
  | succ n ih =>
    rw [Nat.mul_succ] at enough
    have first : w ≤ l.length := by omega
    rw [blocks,blocks,List.take_append_of_le_length first,List.drop_append_of_le_length first,ih]
    rw [List.length_drop]
    omega

theorem blocks_dropLast (w n : Nat) (l : List α) : (blocks w (n+1) l).dropLast = blocks w n l := by
  induction n generalizing l with
  | zero => rfl
  | succ n ih =>
    rw [blocks,List.dropLast_cons_of_ne_nil,ih,blocks]
    rw [blocks]
    exact List.cons_ne_nil _ _

end TsWaffle.Blocks
