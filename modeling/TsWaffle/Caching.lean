import TsWaffle.Cache
import TsWaffle.Lib.Recency

namespace TsWaffle
open Text Recency

inductive CacheCall where
  | insertIntoCache (key value : Str)
  | removeKey (key : Str)
  | evictLRElementFromCache
  | checkIfKeyExists (key : Str)
  | getValueWithoutPositionChange (key : Str)
  | getValueWithoutPositionChangeNew (key : Str)
  | size

namespace Cache

def after (c : Cache) : CacheCall → Cache
  | .insertIntoCache key value => c.insertIntoCache key value
  | .removeKey key => (c.removeKey key).1
  | .evictLRElementFromCache => c.evictLRElementFromCache.2
  | .checkIfKeyExists _ | .getValueWithoutPositionChange _ | .getValueWithoutPositionChangeNew _ | .size => c

-- What a call puts in and takes out; an eviction takes out the key it answers.
def events (c : Cache) : CacheCall → List (Event Str Str)
  | .insertIntoCache key value => [.inserted key value]
  | .removeKey key => [.gone key]
  | .evictLRElementFromCache => if c.accessList.isEmpty then [] else [.gone c.evictLRElementFromCache.1.1]
  | .checkIfKeyExists _ | .getValueWithoutPositionChange _ | .getValueWithoutPositionChangeNew _ | .size => []

end Cache

-- A cache next to the log of its calls.
structure Logged where
  cache : Cache
  log : List (Event Str Str)

namespace Logged

def empty : Logged := ⟨.empty,[]⟩
def call (s : Logged) (call : CacheCall) : Logged := ⟨s.cache.after call,s.cache.events call ++ s.log⟩
def run (s : Logged) (calls : List CacheCall) : Logged := calls.foldl Logged.call s

end Logged

-- The constructors of Cache. The capacity is stored and read by no function; a
-- cache moved from another one takes over its list and its map, so that the
-- iterators keep pointing to the same nodes.
inductive Construction where
  | default
  | vectors (keys values : List Str) (cacheCapacity : Int)
  | moved (other : Construction) (calls : List CacheCall)

def Construction.built : Construction → Logged
  | .default => .empty
  | .vectors keys values _ =>
    if keys.length = values.length then
      Logged.empty.run ((keys.zip values).map (fun row => .insertIntoCache row.1 row.2))
    else .empty
  | .moved other calls => other.built.run calls

-- What the cache is for, in terms of the log alone.
structure Cache.Recorded (c : Cache) (log : List (Event Str Str)) : Prop where
  once : (c.accessList.map Node.key).Nodup
  present : ∀ k, k ∈ c.accessList.map Node.key ↔ ∃ t v, last log k = some (t,v)
  nodes : (c.accessList.map Node.id).Nodup
  map : ∀ k i, c.cacheMap.find? k = some i ↔ ∃ n ∈ c.accessList, n.key = k ∧ n.id = i
  recent : c.entries.Pairwise (Newer log)
  found : ∀ k t v, last log k = some (t,v) → c.checkIfKeyExists k = true ∧
    c.getValueWithoutPositionChange k = v ∧ c.getValueWithoutPositionChangeNew k = (v,true)
  missing : ∀ k, last log k = none → c.checkIfKeyExists k = false ∧
    c.getValueWithoutPositionChange k = [] ∧ c.getValueWithoutPositionChangeNew k = ([],false)
  evicts : (∃ k v, Oldest log k v ∧ c.evictLRElementFromCache.1 = (k,v) ∧
      c.evictLRElementFromCache.2.accessList = c.accessList.filter (fun n => n.key ≠ k)) ∨
    ((∀ k, last log k = none) ∧ c.evictLRElementFromCache = (([],[]),c))

namespace Cache

theorem evict_last {c : Cache} (shape : c.accessList.getLast? = some n) :
    c.evictLRElementFromCache.1 = (n.key,n.value) ∧
      c.evictLRElementFromCache.2.accessList = c.accessList.filter (fun m => m.key ≠ n.key) := by
  obtain ⟨front,whole⟩ := List.getLast?_eq_some_iff.mp shape
  unfold evictLRElementFromCache
  split
  · rename_i none
    rw [none] at shape
    cases shape
  · rename_i last found
    rw [found] at shape
    cases shape
    exact ⟨rfl,(dropLast_eq_filter c.linked.keys whole).symm⟩

theorem evict_empty {c : Cache} (none : c.accessList = []) : c.evictLRElementFromCache = (([],[]),c) := by
  unfold evictLRElementFromCache
  split
  · rfl
  · rename_i last found
    rw [none] at found
    cases found

theorem held_keys (c : Cache) : c.held = c.accessList.map Node.key := by
  simp [held,entries,Function.comp_def]

-- A cache whose entries are the rows of a log does what the log says.
theorem recorded {c : Cache} (same : c.entries = rows log) : c.Recorded log := by
  have present : ∀ k, k ∈ c.held ↔ ∃ t v, last log k = some (t,v) := by
    intro k
    simp only [mem_held,same,mem_rows]
    exact exists_comm
  refine ⟨c.linked.keys,?_,c.linked.ids,c.linked.map,?_,?_,?_,?_⟩
  · rw [← held_keys]
    exact present
  · rw [same]
    exact rows_ordered log
  · intro k t v found
    have entry : (k,v) ∈ c.entries := by
      rw [same]
      exact mem_rows.mpr ⟨t,found⟩
    obtain ⟨new,plain⟩ := get_present entry
    exact ⟨checkIfKeyExists_iff.mpr (mem_held.mpr ⟨v,entry⟩),plain,new⟩
  · intro k none
    have absent : k ∉ c.held := by simp [present,none]
    refine ⟨?_,?_,get_absent absent⟩
    · rw [checkIfKeyExists,absent_find absent]
      rfl
    · rw [getValueWithoutPositionChange,absent_find absent]
  · cases shape : c.accessList.getLast? with
    | none =>
      have empty := List.getLast?_eq_none_iff.mp shape
      refine .inr ⟨rows_eq_nil.mp ?_,evict_empty empty⟩
      rw [← same,entries,empty]
      rfl
    | some n =>
      have oldest : (rows log).getLast? = some (n.key,n.value) := by
        rw [← same,entries,List.getLast?_map,shape]
        rfl
      exact .inl ⟨n.key,n.value,rows_oldest oldest,evict_last shape⟩

end Cache

namespace Logged

theorem call_rows {s : Logged} (call : CacheCall) (same : s.cache.entries = rows s.log) :
    (s.call call).cache.entries = rows (s.call call).log := by
  cases call with
  | insertIntoCache key value => simp [Logged.call,Cache.after,Cache.events,rows,same]
  | removeKey key => simp [Logged.call,Cache.after,Cache.events,rows,same]
  | evictLRElementFromCache =>
    cases shape : s.cache.accessList.getLast? with
    | none =>
      have none := List.getLast?_eq_none_iff.mp shape
      simp only [Logged.call,Cache.after,Cache.events,Cache.evict_empty none,none,List.isEmpty_nil,if_true,List.nil_append]
      exact same
    | some n =>
      obtain ⟨answer,left⟩ := Cache.evict_last shape
      have some : s.cache.accessList.isEmpty = false := by
        cases list : s.cache.accessList with
        | nil => rw [list] at shape; cases shape
        | cons => rfl
      simp only [Logged.call,Cache.after,Cache.events,some,Bool.false_eq_true,if_false,answer,List.cons_append,List.nil_append,
        rows,← same]
      rw [Cache.entries,left]
      exact Cache.filter_entries s.cache.accessList n.key
  | checkIfKeyExists | getValueWithoutPositionChange | getValueWithoutPositionChangeNew | size => exact same

theorem run_rows {s : Logged} (calls : List CacheCall) (same : s.cache.entries = rows s.log) :
    (s.run calls).cache.entries = rows (s.run calls).log := by
  induction calls generalizing s with
  | nil => exact same
  | cons call rest ih => exact ih (call_rows call same)

end Logged

theorem Construction.built_rows (made : Construction) : made.built.cache.entries = rows made.built.log := by
  induction made with
  | default => rfl
  | vectors keys values =>
    unfold Construction.built
    split
    · exact Logged.run_rows _ rfl
    · rfl
  | moved other calls ih => exact Logged.run_rows calls ih

-- After every sequence of calls, whichever constructor the cache is from.
theorem calls_recorded (made : Construction) (calls : List CacheCall) :
    (made.built.run calls).cache.Recorded (made.built.run calls).log :=
  Cache.recorded (Logged.run_rows calls made.built_rows)

end TsWaffle
