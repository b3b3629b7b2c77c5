import TsWaffle.Lib.Text
import TsWaffle.Lib.Table

namespace TsWaffle
open Text

-- A node of the std::list; its identity is what an iterator points to.
structure Node where
  id : Nat
  key : Str
  value : Str

structure Linked (accessList : List Node) (cacheMap : Table Str Nat) (fresh : Nat) : Prop where
  keys : (accessList.map Node.key).Nodup
  ids : (accessList.map Node.id).Nodup
  bound : ∀ n ∈ accessList, n.id < fresh
  map : ∀ k i, cacheMap.find? k = some i ↔ ∃ n ∈ accessList, n.key = k ∧ n.id = i

-- cacheMap holds one iterator for each node of accessList and no other; a cache
-- without this cannot be built. fresh is the identity of the next node.
structure Cache where
  accessList : List Node
  cacheMap : Table Str Nat
  fresh : Nat
  linked : Linked accessList cacheMap fresh

theorem Linked.empty : Linked [] ∅ 0 := ⟨.nil,.nil,by simp,by simp⟩

theorem Linked.node (linked : Linked l m fresh) (one : a ∈ l) (two : b ∈ l) (same : a.key = b.key) : a = b :=
  List.inj_on_of_nodup_map linked.keys one two same

-- Erasing through an iterator removes the node of that key and nothing else.
theorem Linked.erase_iterator (linked : Linked l m fresh) (found : m.find? k = some i) :
    l.filter (fun n => n.id ≠ i) = l.filter (fun n => n.key ≠ k) := by
  obtain ⟨target,member,named,at_⟩ := (linked.map k i).mp found
  apply List.filter_congr
  intro n present
  have same : n.id = i ↔ n.key = k := by
    constructor
    · intro equal
      rw [List.inj_on_of_nodup_map linked.ids present member (equal.trans at_.symm)]
      exact named
    · intro equal
      rw [linked.node present member (equal.trans named.symm)]
      exact at_
  simp [same]

theorem Linked.remove (linked : Linked l m fresh) (k : Str) :
    Linked (l.filter (fun n => n.key ≠ k)) (m.erase k) fresh := by
  refine ⟨?_,?_,?_,?_⟩
  · exact linked.keys.sublist (List.Sublist.map _ List.filter_sublist)
  · exact linked.ids.sublist (List.Sublist.map _ List.filter_sublist)
  · intro n member; exact linked.bound n (List.mem_of_mem_filter member)
  · intro a i
    rw [Table.find_erase]
    by_cases same : a = k
    · simp only [same,if_true,reduceCtorEq,List.mem_filter,decide_eq_true_eq,false_iff]
      rintro ⟨n,⟨_,differs⟩,named,_⟩
      exact differs named
    · simp only [same,if_false,linked.map,List.mem_filter,decide_eq_true_eq]
      constructor
      · rintro ⟨n,member,named,at_⟩
        exact ⟨n,⟨member,by rw [named]; exact same⟩,named,at_⟩
      · rintro ⟨n,⟨member,_⟩,named,at_⟩
        exact ⟨n,member,named,at_⟩

theorem Linked.push (linked : Linked l m fresh) (absent : ∀ n ∈ l, n.key ≠ k) (v : Str) :
    Linked (⟨fresh,k,v⟩ :: l) (m.insert k fresh) (fresh+1) := by
  refine ⟨?_,?_,?_,?_⟩
  · refine List.nodup_cons.mpr ⟨?_,linked.keys⟩
    intro member
    obtain ⟨n,present,named⟩ := List.mem_map.mp member
    exact absent n present named
  · refine List.nodup_cons.mpr ⟨?_,linked.ids⟩
    intro member
    obtain ⟨n,present,same⟩ := List.mem_map.mp member
    have below := linked.bound n present
    simp only at same
    omega
  · intro n member
    rcases List.mem_cons.mp member with rfl | old
    · exact Nat.lt_succ_self _
    · exact Nat.lt_succ_of_lt (linked.bound n old)
  · intro a i
    rw [Table.find_insert]
    by_cases same : a = k
    · subst same
      simp only [if_true,Option.some.injEq,List.mem_cons,exists_eq_or_imp,true_and]
      constructor
      · intro equal; exact .inl equal
      · rintro (equal | ⟨n,present,named,_⟩)
        · exact equal
        · exact absurd named (absent n present)
    · simp [same,linked.map,Ne.symm same]

namespace Cache

def empty : Cache := ⟨[],∅,0,.empty⟩

def entries (c : Cache) : List (Str × Str) := c.accessList.map (fun n => (n.key,n.value))
def held (c : Cache) : List Str := c.entries.map Prod.fst

def checkIfKeyExists (c : Cache) (key : Str) : Bool := (c.cacheMap.find? key).isSome

def deref (c : Cache) (iterator : Nat) : Str :=
  ((c.accessList.find? (fun n => n.id == iterator)).map Node.value).getD []

def getValueWithoutPositionChange (c : Cache) (key : Str) : Str :=
  match c.cacheMap.find? key with
  | none => []
  | some iterator => c.deref iterator

def getValueWithoutPositionChangeNew (c : Cache) (key : Str) : Str × Bool :=
  match c.cacheMap.find? key with
  | none => ([],false)
  | some iterator => (c.deref iterator,true)

def insertIntoCache (c : Cache) (key value : Str) : Cache :=
  match found : c.cacheMap.find? key with
  | none => ⟨⟨c.fresh,key,value⟩ :: c.accessList,c.cacheMap.insert key c.fresh,c.fresh+1,by
      apply c.linked.push
      intro n member named
      have stored := (c.linked.map key n.id).mpr ⟨n,member,named,rfl⟩
      rw [found] at stored
      cases stored⟩
  | some iterator =>
    ⟨⟨c.fresh,key,value⟩ :: c.accessList.filter (fun n => n.id ≠ iterator),c.cacheMap.insert key c.fresh,c.fresh+1,by
      rw [c.linked.erase_iterator found]
      have pushed := (c.linked.remove key).push (k:=key) (by simp) value
      refine ⟨pushed.keys,pushed.ids,pushed.bound,?_⟩
      intro a i
      rw [← pushed.map]
      by_cases same : a = key <;> simp [same]⟩

def removeKey (c : Cache) (key : Str) : Cache × Bool :=
  match found : c.cacheMap.find? key with
  | none => (c,false)
  | some iterator =>
    (⟨c.accessList.filter (fun n => n.id ≠ iterator),c.cacheMap.erase key,c.fresh,by
      rw [c.linked.erase_iterator found]
      exact c.linked.remove key⟩,true)

theorem dropLast_eq_filter {l : List Node} (distinct : (l.map Node.key).Nodup) (shape : l = front ++ [last]) :
    l.filter (fun n => n.key ≠ last.key) = l.dropLast := by
  subst shape
  rw [List.map_append,List.nodup_append] at distinct
  rw [List.filter_append,List.dropLast_concat,List.filter_eq_self.mpr]
  · simp
  · intro n member
    have differs := distinct.2.2 n.key (List.mem_map_of_mem member) last.key (by simp)
    simpa using differs

-- An empty cache hands out two empty strings and stays as it is.
def evictLRElementFromCache (c : Cache) : (Str × Str) × Cache :=
  match shape : c.accessList.getLast? with
  | none => (([],[]),c)
  | some last => ((last.key,last.value),⟨c.accessList.dropLast,c.cacheMap.erase last.key,c.fresh,by
      obtain ⟨front,whole⟩ := List.getLast?_eq_some_iff.mp shape
      rw [← dropLast_eq_filter c.linked.keys whole]
      exact c.linked.remove last.key⟩)

def size (c : Cache) : Nat := c.cacheMap.keys.length

-- The constructor's loop: the last pair given is the most recent entry.
def load (rows : List (Str × Str)) : Cache := rows.foldl (fun c row => c.insertIntoCache row.1 row.2) empty

theorem held_nodup (c : Cache) : c.held.Nodup := by
  have keys := c.linked.keys
  simpa [held,entries,Function.comp_def] using keys

theorem mem_held {c : Cache} : k ∈ c.held ↔ ∃ v, (k,v) ∈ c.entries := by
  simp [held]

theorem find_iff (c : Cache) (k : Str) : (c.cacheMap.find? k).isSome = true ↔ k ∈ c.held := by
  rw [Option.isSome_iff_exists]
  constructor
  · rintro ⟨i,found⟩
    obtain ⟨n,member,named,_⟩ := (c.linked.map k i).mp found
    exact mem_held.mpr ⟨n.value,List.mem_map.mpr ⟨n,member,by rw [named]⟩⟩
  · intro member
    obtain ⟨v,present⟩ := mem_held.mp member
    obtain ⟨n,listed,same⟩ := List.mem_map.mp present
    exact ⟨n.id,(c.linked.map k n.id).mpr ⟨n,listed,(Prod.mk.inj same).1,rfl⟩⟩

theorem checkIfKeyExists_iff {c : Cache} {k : Str} : c.checkIfKeyExists k = true ↔ k ∈ c.held := c.find_iff k

theorem absent_find (absent : k ∉ (c : Cache).held) : c.cacheMap.find? k = none := by
  cases found : c.cacheMap.find? k with
  | none => rfl
  | some i => exact absurd ((c.find_iff k).mp (by simp [found])) absent

theorem present_deref (present : (k,v) ∈ (c : Cache).entries) :
    ∃ i, c.cacheMap.find? k = some i ∧ c.deref i = v := by
  obtain ⟨n,listed,same⟩ := List.mem_map.mp present
  obtain ⟨named,valued⟩ := Prod.mk.inj same
  refine ⟨n.id,(c.linked.map k n.id).mpr ⟨n,listed,named,rfl⟩,?_⟩
  have found : c.accessList.find? (fun m => m.id == n.id) = some n := by
    cases shape : c.accessList.find? (fun m => m.id == n.id) with
    | none => simpa using List.find?_eq_none.mp shape n listed
    | some m =>
      have at_ : m.id = n.id := by simpa using List.find?_some shape
      rw [List.inj_on_of_nodup_map c.linked.ids (List.mem_of_find?_eq_some shape) listed at_]
  simp [deref,found,valued]

theorem get_present (present : (k,v) ∈ (c : Cache).entries) :
    c.getValueWithoutPositionChangeNew k = (v,true) ∧ c.getValueWithoutPositionChange k = v := by
  obtain ⟨i,found,valued⟩ := present_deref present
  simp [getValueWithoutPositionChangeNew,getValueWithoutPositionChange,found,valued]

theorem get_absent (absent : k ∉ (c : Cache).held) : c.getValueWithoutPositionChangeNew k = ([],false) := by
  simp [getValueWithoutPositionChangeNew,absent_find absent]

theorem entry_unique {c : Cache} (one : (k,v) ∈ c.entries) (two : (k,w) ∈ c.entries) : v = w :=
  (Prod.mk.inj (List.inj_on_of_nodup_map c.held_nodup one two rfl)).2

theorem filter_entries (l : List Node) (k : Str) :
    (l.filter (fun n => n.key ≠ k)).map (fun n => (n.key,n.value)) =
      (l.map (fun n => (n.key,n.value))).filter (fun row => row.1 ≠ k) := by
  rw [List.filter_map]
  rfl

theorem entries_filter_absent (absent : k ∉ (c : Cache).held) :
    c.entries.filter (fun row => row.1 ≠ k) = c.entries := by
  apply List.filter_eq_self.mpr
  intro row member
  have differs : row.1 ≠ k := by
    rintro rfl
    exact absent (mem_held.mpr ⟨row.2,member⟩)
  simpa using differs

@[simp] theorem insertIntoCache_entries (c : Cache) (key value : Str) :
    (c.insertIntoCache key value).entries = (key,value) :: c.entries.filter (fun row => row.1 ≠ key) := by
  unfold insertIntoCache
  split
  · rename_i found
    have absent : key ∉ c.held := by rw [← c.find_iff,found]; simp
    rw [entries_filter_absent absent]
    rfl
  · rename_i iterator found
    simp only [entries,List.map_cons]
    rw [c.linked.erase_iterator found,filter_entries]

@[simp] theorem removeKey_entries (c : Cache) (key : Str) :
    (c.removeKey key).1.entries = c.entries.filter (fun row => row.1 ≠ key) := by
  unfold removeKey
  split
  · rename_i found
    have absent : key ∉ c.held := by rw [← c.find_iff,found]; simp
    rw [entries_filter_absent absent]
  · rename_i iterator found
    simp only [entries]
    rw [c.linked.erase_iterator found,filter_entries]

theorem evict_entries {c : Cache} (shape : c.entries = front ++ [(k,v)]) :
    c.evictLRElementFromCache.1 = (k,v) ∧ c.evictLRElementFromCache.2.entries = front := by
  have last := congrArg List.getLast? shape
  have rest := congrArg List.dropLast shape
  simp only [entries,List.getLast?_map,List.getLast?_append,List.getLast?_singleton,Option.some_or] at last
  simp only [entries,List.dropLast_concat,← List.map_dropLast] at rest
  obtain ⟨n,found,same⟩ := Option.map_eq_some_iff.mp last
  unfold evictLRElementFromCache
  split
  · rename_i none; rw [none] at found; cases found
  · rename_i m some_
    rw [some_] at found
    cases found
    exact ⟨same,rest⟩

theorem size_eq (c : Cache) : c.size = c.entries.length := by
  have perm : c.cacheMap.keys.Perm c.held := by
    apply (List.perm_ext_iff_of_nodup c.cacheMap.keys_nodup c.held_nodup).mpr
    intro k
    rw [Table.mem_keys,Table.mem_iff,← Option.isSome_iff_exists,c.find_iff]
  rw [size,perm.length_eq,held,List.length_map]

theorem filter_length (c : Cache) (k : Str) :
    (c.entries.filter (fun row => row.1 ≠ k)).length = if k ∈ c.held then c.entries.length-1 else c.entries.length := by
  have keys : (c.entries.filter (fun row => row.1 ≠ k)).map Prod.fst = c.held.erase k := by
    rw [c.held_nodup.erase_eq_filter,held,List.filter_map]
    apply congrArg
    apply List.filter_congr
    intro row _
    rw [Bool.eq_iff_iff]
    simp
  have size : c.held.length = c.entries.length := by simp [held]
  rw [← List.length_map (f:=Prod.fst),keys,List.length_erase,size]

theorem mem_held_insert (c : Cache) (key value k : Str) :
    k ∈ (c.insertIntoCache key value).held ↔ k = key ∨ k ∈ c.held := by
  by_cases same : k = key
  · simp [held,same]
  · simp [held,same]

theorem mem_held_remove (c : Cache) (key k : Str) :
    k ∈ (c.removeKey key).1.held ↔ k ≠ key ∧ k ∈ c.held := by
  by_cases same : k = key
  · simp [held,same]
  · simp [held,same]

end Cache

-- EvictedItems: a plain map; getValue answers the empty string for an absent key.
def evictedValue (m : Table Str Str) (key : Str) : Str := (m.find? key).getD []

end TsWaffle
