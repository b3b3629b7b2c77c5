import TsWaffle.TimestampIndex
import TsWaffle.Cache
import TsWaffle.RunningKeys
import TsWaffle.EncryptionEngine
import TsWaffle.Lib.Runs

namespace TsWaffle
open Text

-- The source declares these as int; only the range of B matters.
structure Config where
  R : Nat
  B : Nat
  F : Nat
  D : Nat
  cacheBatches : Nat
  object_size_ : Nat
  redisBulkLength : Nat
  small : B < 2^31

-- The keyed functions of encryption_engine, seen from the proxy. The first
-- argument of the encryption is the randomness of one call.
structure Env where
  prf : Str → Str
  encryptNonDeterministic : Nat → Str → Str
  decryptNonDeterministic : Str → Str

structure Env.Lawful (env : Env) : Prop where
  injective : Function.Injective env.prf
  roundTrip : ∀ seed v, env.decryptNonDeterministic (env.encryptNonDeterministic seed v) = v

def Env.label (env : Env) (key : Str) (freq : Int) : Str := env.prf (key ++ chr '#' :: to_string freq)

inductive StorageOp where
  | put_batch | get_batch | delete_batch
  deriving DecidableEq

-- One call of the storage interface, with the timeStamp it was made under.
structure StorageCall where
  op : StorageOp
  batch : Int
  labels : List Str
  deriving DecidableEq

structure Proxy where
  realBst : FrequencySmoother
  fakeBst : FrequencySmoother
  cache : Cache
  EvictedItems : Table Str Str
  runningKeys : ThreadSafeUnorderedMap
  keys_to_be_deleted : List Str
  timeStamp : Int
  keysNotUsed : List (List Str)
  storage : Table Str Str
  promises : Promises
  calls : List StorageCall

structure Operation where
  key : Str
  value : Str

namespace Proxy

def put_batch (s : Proxy) (rows : List (Str × Str)) : Proxy :=
  {s with storage:=s.storage.insertAll rows,calls:=s.calls ++ [⟨.put_batch,s.timeStamp,rows.map Prod.fst⟩]}

def delete_batch (s : Proxy) (labels : List Str) : Proxy :=
  {s with storage:=s.storage.eraseAll labels,calls:=s.calls ++ [⟨.delete_batch,s.timeStamp,labels⟩]}

-- A missing label comes back as a null reply, and as_string throws on it.
def fetchAll (storage : Table Str Str) : List Str → Except Fault (List Str)
  | [] => .ok []
  | label :: rest =>
    match storage.find? label with
    | none => .error .redis_error
    | some reply => do
      let replies ← fetchAll storage rest
      return reply :: replies

def get_batch (s : Proxy) (labels : List Str) : Except Fault (List Str × Proxy) := do
  let replies ← fetchAll s.storage labels
  return (replies,{s with calls:=s.calls ++ [⟨.get_batch,s.timeStamp,labels⟩]})

-- One round of clearThread; pop blocks on an empty queue. Nothing else takes from
-- the queue, so popping at the moment of the deletion is no restriction.
def clearThread (s : Proxy) : Proxy :=
  match s.keysNotUsed with
  | [] => s
  | keyVectorNotUsed :: rest =>
    let s := {s with keysNotUsed:=rest}
    if keyVectorNotUsed.length > 0 then s.delete_batch keyVectorNotUsed else s

def clearRounds : Nat → Proxy → Proxy
  | 0,s => s
  | n+1,s => clearRounds n s.clearThread

def removeReal (s : Proxy) (key : Str) : Except Fault Proxy :=
  match s.realBst.removeKey key with
  | (_,.error fault) => .error fault
  | (realBst,.ok ()) => .ok {s with realBst:=realBst}

def insertReal (s : Proxy) (key : Str) : Except Fault Proxy :=
  match s.realBst.insert key with
  | (_,.error fault) => .error fault
  | (realBst,.ok ()) => .ok {s with realBst:=realBst}

def remove_oldest_data (s : Proxy) (storage_batch : List Str) (currentKey : Str) :
    Except Fault (Proxy × List Str) := do
  let (oldest_key,realBst) ← s.realBst.getOldestKey s.keys_to_be_deleted currentKey
  let s := {s with realBst:=realBst}
  let state : Nat := if (s.cache.getValueWithoutPositionChangeNew oldest_key).2 then 1 else 0
  let state := if evictedValue s.EvictedItems oldest_key ≠ [] then 2 else state
  if state = 0 then
    let (isPresentInRunningKeys,runningKeys) := s.runningKeys.insertIfNotPresent oldest_key
    let storage_batch := if isPresentInRunningKeys then storage_batch else storage_batch ++ [oldest_key]
    return ({s with runningKeys:=runningKeys,keys_to_be_deleted:=s.keys_to_be_deleted ++ [oldest_key]},storage_batch)
  else if state = 1 then
    let s ← {s with cache:=(s.cache.removeKey oldest_key).1}.removeReal oldest_key
    return (s,storage_batch)
  else
    let s ← {s with EvictedItems:=s.EvictedItems.erase oldest_key}.removeReal oldest_key
    return (s,storage_batch)

-- The GET branch of create_security_batch, for one bucket of a request.
def requestKey (s : Proxy) (storage_batch : List Str) (currentKey : Str) (promise : Nat) (request_id : Int) :
    Except Fault (Proxy × List Str) :=
  if s.realBst.checkIfUniqueItemWithTimeStampExists currentKey = false then do
    let promises ← set_value s.promises promise .invalid
    return ({s with promises:=promises},storage_batch)
  else
    let (val,isPresentInCache) := s.cache.getValueWithoutPositionChangeNew currentKey
    let valEvicted := evictedValue s.EvictedItems currentKey
    if isPresentInCache then do
      let runningKeys ← s.runningKeys.insert_cache request_id currentKey val promise
      return ({s with runningKeys:=runningKeys},storage_batch)
    else if valEvicted ≠ [] then do
      let runningKeys ← s.runningKeys.insert_cache request_id currentKey valEvicted promise
      return ({s with runningKeys:=runningKeys},storage_batch)
    else
      let (isPresentInRunningKeys,runningKeys) := s.runningKeys.insertIfNotPresentGet currentKey promise request_id
      return ({s with runningKeys:=runningKeys},
        if isPresentInRunningKeys then storage_batch else storage_batch ++ [currentKey])

-- Its PUT branch: retire the item's oldest bucket, then write the new one.
def storeKey (s : Proxy) (storage_batch : List Str) (currentKey value : Str) (promise : Nat) :
    Except Fault (Proxy × List Str) := do
  let (s,storage_batch) ← s.remove_oldest_data storage_batch currentKey
  let s ← {s with cache:=s.cache.insertIntoCache currentKey value}.insertReal currentKey
  let s := {s with realBst:=s.realBst.setFrequency currentKey s.timeStamp}
  let promises ← set_value s.promises promise (.stored (s.cache.getValueWithoutPositionChange currentKey))
  return ({s with promises:=promises},storage_batch)

def create_security_batch (s : Proxy) (storage_batch : List Str) (op : Operation) (promise : Nat)
    (request_id : Int) : Except Fault (Proxy × List Str) :=
  if op.value = [] then s.requestKey storage_batch op.key promise request_id
  else s.storeKey storage_batch op.key op.value promise

end Proxy

-- get_split_keys on the sorted timestamps: lower_bound and one step back, then
-- upper_bound.
def select (available : List Int) (start_timestamp end_timestamp : Int) : List Int :=
  let timestamps_vector := available.insertionSort (· ≤ ·)
  let lower_bound := timestamps_vector.findIdx (fun t => decide (start_timestamp ≤ t))
  let lower_bound := if lower_bound ≠ 0 then lower_bound-1 else lower_bound
  let upper_bound := timestamps_vector.findIdx (fun t => decide (end_timestamp < t))
  if lower_bound < upper_bound then (timestamps_vector.take upper_bound).drop lower_bound else []

def part (parts : List Str) (i : Nat) : Except Fault Str :=
  match parts[i]? with
  | some text => .ok text
  | none => .error .undefined

def get_split_keys (realBst : FrequencySmoother) (get_key : Str) : Except Fault (List Str × FrequencySmoother) := do
  let parts := getlines (chr '@') [] get_key
  let key_name ← part parts 0
  let second ← part parts 1
  let start_timestamp ← stol second
  let third ← part parts 2
  let end_timestamp ← stol third
  let (available_timestamps,realBst) := realBst.get_timestamp_for_key key_name
  return ((select available_timestamps.toList start_timestamp end_timestamp).map (bucketKey key_name),realBst)

-- What one execute_batch takes from outside: the walk over request_map, the walk
-- over promiseSatisfy, the values of rand(), and how often clearThread comes
-- between get_batch and put_batch.
structure Choice where
  walk : List Int → List Int
  order : List Str → List Str
  seeds : Nat → Nat
  draws : Nat → Nat → Nat
  clears : Nat
  walked : ∀ ids, (walk ids).Perm ids
  ordered : ∀ keys, (order keys).Perm keys

-- A loop over keys to read: each row is one readBatchMap[stKey] = key together
-- with one storage_keys.push_back(stKey).
def readKeys (env : Env) (clock : Int) : List Str → FrequencySmoother → List (Str × Str) × FrequencySmoother
  | [],bst => ([],bst)
  | key :: rest,bst =>
    let (freq,bst) := bst.getFrequency key
    let (rows,bst) := readKeys env clock rest (bst.setFrequency key clock)
    ((env.label key freq,key) :: rows,bst)

-- The loop that tops the batch up from the least recently used real keys. Its
-- iterator is not compared with end().
def fill (cache : Cache) (evicted : Table Str Str) :
    Nat → List Entry → ThreadSafeUnorderedMap → Except Fault (List Str × ThreadSafeUnorderedMap)
  | 0,_,running => .ok ([],running)
  | _+1,[],_ => .error .undefined
  | count+1,it :: rest,running =>
    if cache.checkIfKeyExists it.key = false ∧ it.key ∉ evicted then
      let (isPresentInRunningKeys,running) := running.insertIfNotPresent it.key
      if isPresentInRunningKeys then fill cache evicted (count+1) rest running
      else do
        let (keys,running) ← fill cache evicted count rest running
        return (it.key :: keys,running)
    else fill cache evicted (count+1) rest running

-- B-(operations.size()+F) in the unsigned arithmetic the comparison is made in.
def fillCount (cfg : Config) (operations : Nat) : Nat := (cfg.B+(2^64-(operations+cfg.F) % 2^64)) % 2^64

-- The fake loop. A least key that is running stays least, so the loop never ends.
def readFakes (env : Env) (clock : Int) : Nat → FrequencySmoother → ThreadSafeUnorderedMap →
    Except Fault (List (Str × Str) × FrequencySmoother × ThreadSafeUnorderedMap)
  | 0,fakeBst,running => .ok ([],fakeBst,running)
  | n+1,fakeBst,running =>
    match fakeBst.accessTree.toList with
    | [] => .error .undefined
    | fakeMin :: _ =>
      let (isPresentInRunningKeys,running) := running.insertIfNotPresent fakeMin.key
      if isPresentInRunningKeys then .error .diverges
      else do
        let (freq,fakeBst) := fakeBst.getFrequency fakeMin.key
        let (rows,fakeBst,running) ← readFakes env clock n (fakeBst.setFrequency fakeMin.key clock) running
        return ((env.label fakeMin.key freq,fakeMin.key) :: rows,fakeBst,running)

structure WriteBack where
  proxy : Proxy
  writeBatch : List (Str × Str)
  promiseSatisfy : Table Str Str
  tempEvictedItems : List Str

def writeReal (env : Env) (seed : Nat) (key response : Str) (w : WriteBack) : Except Fault WriteBack :=
  let (kv_pair,cache) := w.proxy.cache.evictLRElementFromCache
  let (freq,realBst) := w.proxy.realBst.getFrequency kv_pair.1
  let s := {w.proxy with cache:=cache,realBst:=realBst,
                         EvictedItems:=w.proxy.EvictedItems.insert kv_pair.1 kv_pair.2}
  let value := env.decryptNonDeterministic response
  let w : WriteBack := ⟨s,w.writeBatch ++ [(env.label kv_pair.1 freq,env.encryptNonDeterministic seed kv_pair.2)],
    w.promiseSatisfy.insert key value,w.tempEvictedItems ++ [kv_pair.1]⟩
  if key ∈ s.keys_to_be_deleted then do
    let s ← s.removeReal key
    return {w with proxy:={s with keys_to_be_deleted:=s.keys_to_be_deleted.filter (· ≠ key)}}
  else
    let value := if s.cache.checkIfKeyExists key then s.cache.getValueWithoutPositionChange key else value
    .ok {w with proxy:={s with cache:=s.cache.insertIntoCache key value}}

def writeFake (cfg : Config) (env : Env) (seed : Nat) (draws : Nat → Nat) (key response : Str) (w : WriteBack) :
    WriteBack :=
  let (freq,fakeBst) := w.proxy.fakeBst.getFrequency key
  let value := env.encryptNonDeterministic seed (EncryptionEngine.gen_random cfg.object_size_ draws)
  {w with proxy:={w.proxy with fakeBst:=fakeBst},writeBatch:=w.writeBatch ++ [(env.label key freq,value)],
          promiseSatisfy:=w.promiseSatisfy.insert key (env.decryptNonDeterministic response)}

-- The loop over the replies: the first real of them belong to real keys.
def writeBack (cfg : Config) (env : Env) (choice : Choice) (readBatchMap : Table Str Str) (real : Nat) :
    Nat → List (Str × Str) → WriteBack → Except Fault WriteBack
  | _,[],w => .ok w
  | i,(stKey,response) :: rest,w => do
    let key := (readBatchMap.find? stKey).getD []
    let w ← if i < real then writeReal env (choice.seeds i) key response w
      else .ok (writeFake cfg env (choice.seeds i) (choice.draws i) key response w)
    writeBack cfg env choice readBatchMap real (i+1) rest w

def execute_batch (cfg : Config) (env : Env) (choice : Choice) (operations : List Str) (s : Proxy) :
    Except Fault Proxy := do
  let s := {s with timeStamp:=s.timeStamp+1}
  let (requested,realBst) := readKeys env s.timeStamp operations s.realBst
  let (realKeysNotInCache,runningKeys) ←
    fill s.cache s.EvictedItems (fillCount cfg operations.length) realBst.accessTree.toList s.runningKeys
  let (filled,realBst) := readKeys env s.timeStamp realKeysNotInCache realBst
  let (faked,fakeBst,runningKeys) ← readFakes env s.timeStamp cfg.F s.fakeBst runningKeys
  let s := {s with realBst:=realBst,fakeBst:=fakeBst,runningKeys:=runningKeys}
  let readBatchMap : Table Str Str := Table.insertAll ∅ (requested ++ filled ++ faked)
  let storage_keys := (requested ++ filled ++ faked).map Prod.fst
  let (responses,s) ← s.get_batch storage_keys
  let s := Proxy.clearRounds choice.clears s
  let w ← writeBack cfg env choice readBatchMap (operations.length+realKeysNotInCache.length) 0
    (storage_keys.zip responses) ⟨s,[],∅,[]⟩
  let s := w.proxy.put_batch w.writeBatch
  let s := {s with EvictedItems:=s.EvictedItems.eraseAll w.tempEvictedItems}
  let (runningKeys,promises) ← s.runningKeys.deliver s.promises
    (fun key => (w.promiseSatisfy.find? key).getD []) (choice.order w.promiseSatisfy.keys)
  return {s with runningKeys:=runningKeys,promises:=promises,keysNotUsed:=s.keysNotUsed ++ [storage_keys]}

end TsWaffle
