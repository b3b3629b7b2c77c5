import Mathlib

namespace TsWaffle

-- std::set: the members in ascending order, each once. The order is the one the
-- container was given, here the linear order of the element type.
structure OrderedSet (α : Type) [LinearOrder α] where
  toList : List α
  sorted : toList.Pairwise (· < ·)

namespace OrderedSet
variable {α : Type} [LinearOrder α]

instance : Membership α (OrderedSet α) := ⟨fun s a => a ∈ s.toList⟩
instance : EmptyCollection (OrderedSet α) := ⟨⟨[],.nil⟩⟩
instance (a : α) (s : OrderedSet α) : Decidable (a ∈ s) := inferInstanceAs (Decidable (a ∈ s.toList))

instance : DecidableEq (OrderedSet α) := fun s t =>
  decidable_of_iff (s.toList = t.toList) (by cases s; cases t; simp)

def place (a : α) : List α → List α
  | [] => [a]
  | b :: rest => if a < b then a :: b :: rest else if a = b then b :: rest else b :: place a rest

theorem mem_place (a b : α) (l : List α) : b ∈ place a l ↔ b = a ∨ b ∈ l := by
  induction l with
  | nil => simp [place]
  | cons c rest ih =>
    unfold place
    split
    · simp
    · split
      · rename_i same; subst same; simp
      · rw [List.mem_cons,ih,List.mem_cons]; tauto

theorem place_sorted (a : α) (l : List α) (sorted : l.Pairwise (· < ·)) :
    (place a l).Pairwise (· < ·) := by
  induction l with
  | nil => simp [place]
  | cons c rest ih =>
    obtain ⟨above,tail⟩ := List.pairwise_cons.mp sorted
    unfold place
    split
    · rename_i below
      refine List.pairwise_cons.mpr ⟨?_,sorted⟩
      intro b member
      rcases List.mem_cons.mp member with rfl | later
      · exact below
      · exact lt_trans below (above b later)
    · rename_i notBelow
      split
      · exact sorted
      · rename_i other
        refine List.pairwise_cons.mpr ⟨?_,ih tail⟩
        intro b member
        rcases (mem_place a b rest).mp member with rfl | later
        · exact lt_of_le_of_ne (not_lt.mp notBelow) (Ne.symm other)
        · exact above b later

-- Inserting a member that is present changes nothing, as std::set specifies.
def insert (s : OrderedSet α) (a : α) : OrderedSet α := ⟨place a s.toList,place_sorted a _ s.sorted⟩

def erase (s : OrderedSet α) (a : α) : OrderedSet α :=
  ⟨s.toList.filter (· ≠ a),s.sorted.filter _⟩

@[simp] theorem mem_toList {s : OrderedSet α} : a ∈ s.toList ↔ a ∈ s := Iff.rfl
@[simp] theorem notMem_empty (a : α) : a ∉ (∅ : OrderedSet α) := by
  intro member; cases member
@[simp] theorem toList_empty : (∅ : OrderedSet α).toList = [] := rfl
@[simp] theorem mem_insert {s : OrderedSet α} : b ∈ s.insert a ↔ b = a ∨ b ∈ s := mem_place a b s.toList
@[simp] theorem mem_erase {s : OrderedSet α} : b ∈ s.erase a ↔ b ∈ s ∧ b ≠ a := by
  change b ∈ s.toList.filter _ ↔ _
  simp

theorem nodup (s : OrderedSet α) : s.toList.Nodup := s.sorted.imp fun below => ne_of_lt below

theorem ext {s t : OrderedSet α} (same : ∀ a, a ∈ s ↔ a ∈ t) : s = t := by
  cases s with
  | mk l sortedL =>
    cases t with
    | mk r sortedR =>
      have lists : l = r := List.Pairwise.eq_of_mem_iff sortedL sortedR (fun {a} => same a)
      subst lists
      rfl

-- The element a begin() iterator points to is the least one.
theorem head_le {s : OrderedSet α} (shape : s.toList = a :: rest) (member : b ∈ s) : a ≤ b := by
  have sorted := s.sorted
  rw [shape] at sorted
  have present : b ∈ a :: rest := by rw [← shape]; exact member
  rcases List.mem_cons.mp present with rfl | later
  · exact le_refl _
  · exact le_of_lt ((List.pairwise_cons.mp sorted).1 b later)

-- What is taken from the front of an ordered list comes before what is left.
theorem taken_before {β : Type} {R : β → β → Prop} {l : List β} {a b : β} (sorted : l.Pairwise R) (n : Nat)
    (taken : a ∈ l.take n) (member : b ∈ l) (left : b ∉ l.take n) : R a b := by
  rw [← List.take_append_drop n l] at sorted member
  exact (List.pairwise_append.mp sorted).2.2 a taken b ((List.mem_append.mp member).resolve_left left)

end OrderedSet
end TsWaffle
