import TsWaffle.Parsing
import TsWaffle.Summing

namespace TsWaffle
open Text
variable {categories subcategories ids : List Str} {draws : Nat → IdDraw} {id : Str}

def newline : UInt8 := 10

def data_types : List Str := [str "int",str "float",str "bool"]

-- What the generator of ItemIdGenerator delivers for one id.
structure IdDraw where
  randomSuffix : Nat
  type : Fin 3

-- The tables of words are parameters.
def generate_single_id (categories subcategories : List Str) (draw : IdDraw) (categoryIndex subcategoryIndex index : Nat) :
    Except Fault Str := do
  let category ← part categories categoryIndex
  let subcategory ← part subcategories subcategoryIndex
  let data_type ← part data_types draw.type
  return category ++ chr '_' :: subcategory ++ chr '_' :: to_string index ++ chr '_' :: to_string draw.randomSuffix ++
    chr '&' :: data_type ++ [chr '&']

-- The loop of generate_item_ids. unique_ids holds what item_ids holds.
def generateIds (categories subcategories : List Str) (draws : Nat → IdDraw) (no_item_ids : Nat) :
    Nat → List Str → Nat → Nat → Nat → Except Fault (List Str)
  | fuel,item_ids,categoryIndex,subcategoryIndex,index =>
    if item_ids.length < no_item_ids then
      match fuel with
      | 0 => .error .diverges
      | fuel+1 => do
        let id ← generate_single_id categories subcategories (draws index) categoryIndex subcategoryIndex index
        let item_ids := if id ∈ item_ids then item_ids else item_ids ++ [id]
        if subcategories.length ≤ subcategoryIndex+1 then
          let categoryIndex := if categories.length ≤ categoryIndex+1 then 0 else categoryIndex+1
          generateIds categories subcategories draws no_item_ids fuel item_ids categoryIndex 0 (index+1)
        else generateIds categories subcategories draws no_item_ids fuel item_ids categoryIndex (subcategoryIndex+1) (index+1)
    else .ok item_ids

def generate_item_ids (categories subcategories : List Str) (draws : Nat → IdDraw) (no_item_ids : Nat) : Except Fault (List Str) :=
  generateIds categories subcategories draws no_item_ids no_item_ids [] 0 0 0

-- The file generate_TS_ItemID writes, and its first lines.
def item_file (items : List Str) : Str := items.flatMap (fun item => item ++ [newline])
def read_item_ids (file : Str) (no_item_ids : Nat) : List Str := (getlines newline [] file).take no_item_ids

-- What the words of the tables do not contain.
def Plain (word : Str) : Prop := chr '@' ∉ word ∧ chr '&' ∉ word ∧ newline ∉ word

instance : Decidable (Plain word) := inferInstanceAs (Decidable (_ ∧ _))

-- An id of that index.
structure Numbered (index : Nat) (id : Str) : Prop where
  shape : ∃ (front : Str) (suffix : Int) (data_type : Str), Plain front ∧ data_type ∈ data_types ∧
    id = front ++ chr '_' :: to_string index ++ chr '_' :: to_string suffix ++ chr '&' :: data_type ++ [chr '&']

theorem Plain.append {front : Str} (one : Plain front) (two : Plain rest) : Plain (front ++ rest) := by
  simp only [Plain,List.mem_append,not_or]
  exact ⟨⟨one.1,two.1⟩,⟨one.2.1,two.2.1⟩,⟨one.2.2,two.2.2⟩⟩

theorem Plain.join {front : Str} (one : Plain front) (two : Plain rest) : Plain (front ++ chr '_' :: rest) := by
  have joint : Plain [chr '_'] := by decide
  exact one.append (joint.append two)

theorem plain_number (n : Int) : Plain (to_string n) :=
  ⟨at_notMem n,separator_notMem n _ (by decide) (by decide),separator_notMem n _ (by decide) (by decide)⟩

theorem plain_types : ∀ word ∈ data_types, Plain word := by decide

-- The index tells the ids apart, whatever the words and the suffixes are.
theorem Numbered.index_unique (one : Numbered i id) (two : Numbered j id) : i = j := by
  obtain ⟨front,suffix,type,_,listed,rfl⟩ := one.shape
  obtain ⟨front',suffix',type',_,listed',same⟩ := two.shape
  have body := List.append_cancel_right same
  obtain ⟨numbers,_⟩ := split_last (plain_types type listed).2.1 (plain_types type' listed').2.1 body
  have plain := fun n : Int => separator_notMem n (chr '_') (by decide) (by decide)
  obtain ⟨numbers,_⟩ := split_last (plain suffix) (plain suffix') numbers
  obtain ⟨_,index⟩ := split_last (plain i) (plain j) numbers
  exact Int.natCast_inj.mp (to_string_injective index)

-- What stands before the type of an id.
theorem Numbered.front (numbered : Numbered i id) : ∃ front type, front ≠ [] ∧ Plain front ∧ type ∈ data_types ∧
    id = front ++ chr '&' :: (type ++ chr '&' :: []) := by
  obtain ⟨front,suffix,type,plain,listed,rfl⟩ := numbered.shape
  refine ⟨front ++ chr '_' :: to_string i ++ chr '_' :: to_string suffix,type,by simp,?_,listed,by simp⟩
  exact (plain.join (plain_number i)).join (plain_number suffix)

theorem Numbered.typed (numbered : Numbered i id) : ∃ type, generatedType id = .ok type := by
  obtain ⟨front,type,_,plain,listed,rfl⟩ := numbered.front
  rw [generatedType,get_data_type_between plain.2.1 (plain_types type listed).2.1]
  simp only [data_types,List.mem_cons,List.not_mem_nil,or_false] at listed
  rcases listed with rfl | rfl | rfl
  · exact ⟨.int,rfl⟩
  · exact ⟨.float,rfl⟩
  · exact ⟨.bool,rfl⟩

theorem Numbered.usable (numbered : Numbered i id) : id ≠ [] ∧ chr '@' ∉ id ∧ newline ∉ id := by
  obtain ⟨front,type,filled,plain,listed,rfl⟩ := numbered.front
  have proper := plain_types type listed
  have bytes : chr '@' ≠ chr '&' ∧ newline ≠ chr '&' := by decide
  simp only [List.mem_append,List.mem_cons,List.not_mem_nil,or_false,not_or]
  exact ⟨by simp,⟨plain.1,bytes.1,proper.1,bytes.1⟩,⟨plain.2.2,bytes.2,proper.2.2,bytes.2⟩⟩

-- The ids issued so far are those of the indices below.
structure Issued (index : Nat) (ids : List Str) : Prop where
  count : ids.length = index
  distinct : ids.Nodup
  numbered : ∀ id ∈ ids, ∃ i < index, Numbered i id

theorem Issued.issue (issued : Issued index ids) (numbered : Numbered index id) :
    id ∉ ids ∧ Issued (index+1) (ids ++ [id]) := by
  have fresh : id ∉ ids := by
    intro member
    obtain ⟨i,below,same⟩ := issued.numbered id member
    rw [same.index_unique numbered] at below
    exact lt_irrefl index below
  refine ⟨fresh,by rw [List.length_append,issued.count]; rfl,?_,?_⟩
  · rw [← List.concat_eq_append]
    exact issued.distinct.concat fresh
  · intro other member
    rcases List.mem_append.mp member with old | new
    · obtain ⟨i,below,same⟩ := issued.numbered other old
      exact ⟨i,by omega,same⟩
    · rw [List.mem_singleton.mp new]
      exact ⟨index,by omega,numbered⟩

theorem generate_single_id_numbered (words : ∀ word ∈ categories ++ subcategories, Plain word) (draw : IdDraw) (index : Nat)
    (category : c < categories.length) (subcategory : d < subcategories.length) :
    ∃ id, generate_single_id categories subcategories draw c d index = .ok id ∧ Numbered index id := by
  have first : part categories c = .ok categories[c] := by rw [part,List.getElem?_eq_getElem category]
  have second : part subcategories d = .ok subcategories[d] := by rw [part,List.getElem?_eq_getElem subcategory]
  have third : part data_types draw.type = .ok data_types[draw.type] := by
    rw [part,List.getElem?_eq_getElem draw.type.isLt]
    rfl
  refine ⟨_,by simp only [generate_single_id,first,second,third,bind,Except.bind,pure,Except.pure]; rfl,?_⟩
  refine ⟨categories[c] ++ chr '_' :: subcategories[d],_,_,?_,List.getElem_mem _,rfl⟩
  exact (words _ (List.mem_append_left _ (List.getElem_mem category))).join
    (words _ (List.mem_append_right _ (List.getElem_mem subcategory)))

theorem generateIds_issued (words : ∀ word ∈ categories ++ subcategories, Plain word) (draws : Nat → IdDraw)
    (no_item_ids fuel : Nat) (issued : Issued index ids) (category : c < categories.length)
    (subcategory : d < subcategories.length) (enough : index+fuel = no_item_ids) :
    ∃ items, generateIds categories subcategories draws no_item_ids fuel ids c d index = .ok items ∧
      Issued no_item_ids items := by
  induction fuel generalizing ids c d index with
  | zero =>
    have done : ¬ ids.length < no_item_ids := by rw [issued.count]; omega
    subst enough
    exact ⟨ids,by rw [generateIds,if_neg done],issued⟩
  | succ fuel ih =>
    have more : ids.length < no_item_ids := by rw [issued.count]; omega
    obtain ⟨id,made,numbered⟩ := generate_single_id_numbered words (draws index) index category subcategory
    obtain ⟨fresh,next⟩ := issued.issue numbered
    unfold generateIds
    simp only [if_pos more,made,if_neg fresh,bind,Except.bind]
    split
    · refine ih next ?_ (by omega) (by omega)
      split <;> omega
    · exact ih next category (by omega) (by omega)

theorem getlines_items (items : List Str) (plain : ∀ item ∈ items, newline ∉ item) :
    getlines newline [] (item_file items) = items := by
  induction items with
  | nil => rfl
  | cons item rest ih =>
    have line := getlines_segment newline item [] (item_file rest) (plain item List.mem_cons_self)
    have shape : item_file (item :: rest) = item ++ newline :: item_file rest := by simp [item_file]
    rw [shape,line,ih (fun other member => plain other (List.mem_cons_of_mem _ member))]
    rfl

theorem generate_item_ids_issued (words : ∀ word ∈ categories ++ subcategories, Plain word) (some_ : 0 < categories.length)
    (some_' : 0 < subcategories.length) (draws : Nat → IdDraw) (no_item_ids : Nat) :
    ∃ items, generate_item_ids categories subcategories draws no_item_ids = .ok items ∧ Issued no_item_ids items :=
  generateIds_issued words draws no_item_ids no_item_ids ⟨rfl,List.nodup_nil,fun _ member => absurd member List.not_mem_nil⟩
    some_ some_' (Nat.zero_add _)

theorem Issued.read (issued : Issued n items) (no_item_ids : Nat) :
    read_item_ids (item_file items) no_item_ids = items.take no_item_ids := by
  rw [read_item_ids,getlines_items]
  intro item member
  obtain ⟨i,_,numbered⟩ := issued.numbered item member
  exact numbered.usable.2.2

-- The generator ends with as many ids as it is asked for, all different, and each
-- can be an item: it has no separator, a type, and comes back from the file.
theorem generated_ids_usable (words : ∀ word ∈ categories ++ subcategories, Plain word) (some_ : 0 < categories.length)
    (some_' : 0 < subcategories.length) (draws : Nat → IdDraw) (no_item_ids : Nat) :
    ∃ items, generate_item_ids categories subcategories draws no_item_ids = .ok items ∧ items.length = no_item_ids ∧
      items.Nodup ∧ (∀ n, read_item_ids (item_file items) n = items.take n) ∧
      ∀ item ∈ items, item ≠ [] ∧ chr '@' ∉ item ∧ ∃ type, generatedType item = .ok type := by
  obtain ⟨items,made,issued⟩ := generate_item_ids_issued words some_ some_' draws no_item_ids
  refine ⟨items,made,issued.count,issued.distinct,issued.read,?_⟩
  intro item member
  obtain ⟨i,_,numbered⟩ := issued.numbered item member
  exact ⟨numbered.usable.1,numbered.usable.2.1,numbered.typed⟩

theorem generated_ids_usable_two :
    generate_item_ids [str "CPU"] [str "USAGE",str "TEMP"] (fun _ => ⟨764,0⟩) 3 =
      .ok [str "CPU_USAGE_0_764&int&",str "CPU_TEMP_1_764&int&",str "CPU_USAGE_2_764&int&"] ∧
    ∃ items, generate_item_ids [str "CPU"] [str "USAGE",str "TEMP"] (fun _ => ⟨764,0⟩) 3 = .ok items ∧ items.length = 3 ∧
      items.Nodup ∧ (∀ n, read_item_ids (item_file items) n = items.take n) ∧
      ∀ item ∈ items, item ≠ [] ∧ chr '@' ∉ item ∧ ∃ type, generatedType item = .ok type :=
  ⟨by decide +kernel,generated_ids_usable (by decide) (by decide) (by decide) _ 3⟩

end TsWaffle
