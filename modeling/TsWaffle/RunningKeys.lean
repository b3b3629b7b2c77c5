import TsWaffle.Lib.Table
import TsWaffle.Lib.OrderedSet
import TsWaffle.Values

namespace TsWaffle
open Text

-- The promises set so far. Setting one a second time throws future_error.
abbrev Promises := Table Nat Answer

def set_value (ps : Promises) (promise : Nat) (answer : Answer) : Except Fault Promises :=
  if promise ∈ ps then .error .future_error else .ok (ps.insert promise answer)

theorem set_value_fresh (fresh : promise ∉ ps) : set_value ps promise answer = .ok (ps.insert promise answer) := by
  simp [set_value,fresh]

structure ThreadSafeUnorderedMap where
  m_map_ : Table Str (List (Option Nat))
  get_map : Table Str (OrderedSet Int)
  request_map : Table Int (List Str × Option Nat)
  get_cache : Table Str Str

namespace ThreadSafeUnorderedMap

def empty : ThreadSafeUnorderedMap := ⟨∅,∅,∅,∅⟩

def present (s : ThreadSafeUnorderedMap) (key : Str) : Bool := decide (key ∈ s.m_map_) || decide (key ∈ s.get_map)

def insertIfNotPresent (s : ThreadSafeUnorderedMap) (key : Str) : Bool × ThreadSafeUnorderedMap :=
  (s.present key,{s with m_map_:=s.m_map_.insert key ((s.m_map_.find? key).getD [] ++ [none])})

def insertIfNotPresentGet (s : ThreadSafeUnorderedMap) (key : Str) (value : Nat) (request_id : Int) :
    Bool × ThreadSafeUnorderedMap :=
  let waiting := (s.get_map.find? key).getD ∅
  let row := (s.request_map.find? request_id).getD ([],none)
  (s.present key,{s with get_map:=s.get_map.insert key (waiting.insert request_id),
                         request_map:=s.request_map.insert request_id (row.1 ++ [key],some value)})

-- The promise is recorded by the first key of a request only; exit(1) ends the process.
def insert_cache (s : ThreadSafeUnorderedMap) (request_id : Int) (key value : Str) (p : Nat) :
    Except Fault ThreadSafeUnorderedMap :=
  match s.get_cache.find? key with
  | some old => if old ≠ value then .error .exit else .ok (register s)
  | none => .ok (register s)
where
  register (s : ThreadSafeUnorderedMap) : ThreadSafeUnorderedMap :=
    let row := (s.request_map.find? request_id).getD ([],some p)
    {s with get_cache:=s.get_cache.insert key value,
            request_map:=s.request_map.insert request_id (row.1 ++ [key],row.2)}

def isFulfilled (s : ThreadSafeUnorderedMap) (request_id : Int) : Bool × ThreadSafeUnorderedMap :=
  let (row,request_map) := s.request_map.fetch request_id ([],none)
  (row.1.all (fun key => decide (key ∈ s.get_cache)),{s with request_map:=request_map})

-- first[0] of an empty list and a null promise are both undefined. Every key has
-- just been found by isFulfilled, so get_cache[key] creates nothing here.
def clearPromises (s : ThreadSafeUnorderedMap) (ps : Promises) (request_id : Int) : Except Fault Promises :=
  match s.request_map.find? request_id with
  | some (key :: keys,some promise) =>
    set_value ps promise (.sum ((key :: keys).map (fun k => (k,(s.get_cache.find? k).getD []))))
  | _ => .error .undefined

def clearWaiting (s : ThreadSafeUnorderedMap) (ps : Promises) :
    List Int → Except Fault (ThreadSafeUnorderedMap × Promises)
  | [] => .ok (s,ps)
  | request_id :: rest =>
    let (fulfilled,s) := s.isFulfilled request_id
    if fulfilled then do
      let ps ← s.clearPromises ps request_id
      let s := {s with request_map:=s.request_map.erase request_id}
      if s.request_map.isEmpty then .ok ({s with get_map:=∅,get_cache:=∅},ps)
      else clearWaiting s ps rest
    else clearWaiting s ps rest

def tryClearPromises (s : ThreadSafeUnorderedMap) (ps : Promises) (key value : Str) :
    Except Fault (ThreadSafeUnorderedMap × Promises) :=
  let s := {s with m_map_:=s.m_map_.erase key}
  match s.get_map.find? key with
  | none => .ok (s,ps)
  | some waiting => clearWaiting {s with get_cache:=s.get_cache.insert key value} ps waiting.toList

-- First loop of tryClearAllPromises: the ids to erase and the promises set.
def sweep (s : ThreadSafeUnorderedMap) (ps : Promises) : List Int → Except Fault (List Int × Promises)
  | [] => .ok ([],ps)
  | request_id :: rest =>
    if (s.isFulfilled request_id).1 then do
      let ps ← s.clearPromises ps request_id
      let (erased,ps) ← sweep s ps rest
      return (request_id :: erased,ps)
    else sweep s ps rest

-- order is the order in which the hash map is walked.
def tryClearAllPromises (s : ThreadSafeUnorderedMap) (ps : Promises) (order : List Int → List Int) :
    Except Fault (ThreadSafeUnorderedMap × Promises) := do
  let (to_erase,ps) ← sweep s ps (order s.request_map.keys)
  let s := {s with request_map:=s.request_map.eraseAll to_erase}
  if s.request_map.isEmpty then return ({s with get_map:=∅,get_cache:=∅},ps)
  else return (s,ps)

def deliver (s : ThreadSafeUnorderedMap) (ps : Promises) (value : Str → Str) :
    List Str → Except Fault (ThreadSafeUnorderedMap × Promises)
  | [] => .ok (s,ps)
  | key :: rest => do
    let (s,ps) ← s.tryClearPromises ps key (value key)
    deliver s ps value rest

end ThreadSafeUnorderedMap
end TsWaffle
