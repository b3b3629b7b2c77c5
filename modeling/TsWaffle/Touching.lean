import TsWaffle.Caching
import TsWaffle.Lib.Runs

namespace TsWaffle
open Text

namespace Cache

-- cacheMap[key]->second: the iterator that operator[] stores for a missing key
-- points to no node.
def subscript (c : Cache) (key : Str) : Except Fault Str :=
  match c.cacheMap.find? key with
  | none => .error .undefined
  | some iterator => .ok (c.deref iterator)

-- The first test asks whether the key is there, where every other function asks
-- whether it is missing. Erasing the node, pushing a new one to the front and
-- storing its iterator is what insertIntoCache does to a present key.
def getValue (c : Cache) (key : Str) : Except Fault (Str × Cache) :=
  if c.checkIfKeyExists key then .ok ([],c)
  else do
    let val ← c.subscript key
    return (val,c.insertIntoCache key val)

theorem getValue_present {c : Cache} (present : key ∈ c.held) : c.getValue key = .ok ([],c) :=
  if_pos (checkIfKeyExists_iff.mpr present)

theorem getValue_absent {c : Cache} (absent : key ∉ c.held) : c.getValue key = .error .undefined := by
  rw [getValue,if_neg (by rw [checkIfKeyExists_iff]; exact absent),subscript,absent_find absent]
  rfl

-- A call of getValue that returns what the plain lookup returns, moves a present
-- key to the front and touches nothing else.
def Agrees (c : Cache) (key : Str) : Prop :=
  ∃ value next, c.getValue key = .ok (value,next) ∧ value = c.getValueWithoutPositionChange key ∧
    (key ∈ c.held → next.entries = (key,value) :: c.entries.filter (fun row => row.1 ≠ key)) ∧
    (key ∉ c.held → next = c)

theorem agrees_iff (c : Cache) (key : Str) : c.Agrees key ↔ c.entries.head? = some (key,[]) := by
  by_cases present : key ∈ c.held
  · constructor
    · intro agrees
      obtain ⟨value,next,ran,_,moved,_⟩ := agrees
      rw [getValue_present present] at ran
      cases ran
      rw [moved present]
      rfl
    · intro first
      obtain ⟨rest,shape⟩ := List.head?_eq_some_iff.mp first
      have entry : (key,[]) ∈ c.entries := by simp [shape]
      have others : ∀ row ∈ rest, row.1 ≠ key := by
        have distinct := c.held_nodup
        rw [held,shape,List.map_cons,List.nodup_cons] at distinct
        intro row member same
        exact distinct.1 (List.mem_map.mpr ⟨row,member,same⟩)
      refine ⟨[],c,getValue_present present,(get_present entry).2.symm,?_,fun absent => absurd present absent⟩
      intro _
      have kept : rest.filter (fun row => row.1 ≠ key) = rest :=
        List.filter_eq_self.mpr (fun row member => decide_eq_true (others row member))
      rw [shape,List.filter_cons_of_neg (by simp),kept]
  · constructor
    · intro agrees
      obtain ⟨value,next,ran,_⟩ := agrees
      rw [getValue_absent present] at ran
      cases ran
    · intro first
      obtain ⟨rest,shape⟩ := List.head?_eq_some_iff.mp first
      exact absurd (mem_held.mpr ⟨[],by simp [shape]⟩) present

end Cache

inductive CacheOperation where
  | call (call : CacheCall)
  | getValue (key : Str)

def Cache.perform (c : Cache) : CacheOperation → Except Fault Cache
  | .call call => .ok (c.after call)
  | .getValue key => do
    let (_,next) ← c.getValue key
    return next

def Cache.Touches (c : Cache) : CacheOperation → Prop
  | .call _ => True
  | .getValue key => c.Agrees key

-- The key is the most recent entry already, and its value is the empty string.
def Cache.Untouched (c : Cache) : CacheOperation → Prop
  | .call _ => True
  | .getValue key => c.entries.head? = some (key,[])

theorem Cache.touches_iff (c : Cache) (operation : CacheOperation) : c.Touches operation ↔ c.Untouched operation := by
  cases operation with
  | call => exact Iff.rfl
  | getValue key => exact c.agrees_iff key

-- In every run, whichever constructor the cache is from.
theorem touches_agree_iff (made : Construction) (operations : List CacheOperation) :
    Runs.Admissible Cache.perform Cache.Touches made.built.cache operations ↔
      Runs.Admissible Cache.perform Cache.Untouched made.built.cache operations :=
  ⟨Runs.Admissible.imp (fun c operation => (c.touches_iff operation).mp) operations,
    Runs.Admissible.imp (fun c operation => (c.touches_iff operation).mpr) operations⟩

def oneEntry : Construction := .vectors [str "a"] [str "x"] 10

theorem getValue_disagrees :
    ¬ Runs.Admissible Cache.perform Cache.Touches oneEntry.built.cache [.getValue (str "a")] ∧
      oneEntry.built.cache.getValueWithoutPositionChange (str "a") = str "x" ∧
      oneEntry.built.cache.getValue (str "a") = .ok ([],oneEntry.built.cache) ∧
      oneEntry.built.cache.getValue (str "b") = .error .undefined := by
  have entries : oneEntry.built.cache.entries = [(str "a",str "x")] := rfl
  refine ⟨?_,(Cache.get_present (by simp [entries])).2,Cache.getValue_present (by simp [Cache.held,entries]),
    Cache.getValue_absent (by decide +kernel)⟩
  intro admissible
  have first := (Cache.agrees_iff _ _).mp admissible.1
  cases first

end TsWaffle
