import TsWaffle.Consumer
import TsWaffle.Lib.Threads

namespace TsWaffle
open Text Threads

namespace FrequencySmoother

-- insert and removeKey lock twice: m_mutex_ for the map and the tree, then
-- itemTimeStampMutex for the stamps.
def insertEntry (s : FrequencySmoother) (key : Str) : FrequencySmoother :=
  {s with accessFreqs:=s.accessFreqs.insert key 0,accessTree:=s.accessTree.insert ⟨key,0⟩}

def insertStamp (s : FrequencySmoother) (key : Str) : Except Fault FrequencySmoother :=
  if s.needTimeStamp then
    match get_key_timestamp_split key with
    | .error fault => .error fault
    | .ok (item,ts) =>
      let stamps := (s.uniqueItemWithTimeStamp.find? item).getD ∅
      .ok {s with uniqueItemWithTimeStamp:=s.uniqueItemWithTimeStamp.insert item (stamps.insert ts)}
  else .ok s

def removeEntry (s : FrequencySmoother) (key : Str) : FrequencySmoother :=
  let (old,accessFreqs) := s.accessFreqs.fetch key 0
  {s with accessFreqs:=accessFreqs.erase key,accessTree:=s.accessTree.erase ⟨key,old⟩}

def removeStamp (s : FrequencySmoother) (key : Str) : Except Fault FrequencySmoother :=
  if s.needTimeStamp then
    match get_key_timestamp_split key with
    | .error fault => .error fault
    | .ok (item,ts) =>
      match s.uniqueItemWithTimeStamp.find? item with
      | none => .ok s
      | some stamps =>
        let left := stamps.erase ts
        if left = ∅ then .ok {s with uniqueItemWithTimeStamp:=s.uniqueItemWithTimeStamp.erase item}
        else .ok {s with uniqueItemWithTimeStamp:=s.uniqueItemWithTimeStamp.insert item left}
  else .ok s

theorem insert_sections (s : FrequencySmoother) (key : Str) :
    (s.insertEntry key).insertStamp key = .ok t ↔ s.insert key = (t,.ok ()) := by
  unfold insertStamp insertEntry insert
  dsimp only
  split
  · cases get_key_timestamp_split key <;> simp
  · simp

theorem removeKey_sections (s : FrequencySmoother) (key : Str) :
    (s.removeEntry key).removeStamp key = .ok t ↔ s.removeKey key = (t,.ok ()) := by
  unfold removeStamp removeEntry removeKey
  dsimp only
  split
  · cases get_key_timestamp_split key with
    | error fault => simp
    | ok parts =>
      dsimp only
      cases s.uniqueItemWithTimeStamp.find? parts.1 with
      | none => simp
      | some stamps => by_cases bare : stamps.erase parts.2 = ∅ <;> simp [bare]
  · simp

end FrequencySmoother

-- A GET popped by a consumer and split: its promise, the consumer's request_id and
-- the keys it asks for.
structure Query where
  promise : Nat
  request_id : Int
  db_keys : List Str
  deriving DecidableEq

-- What the threads share. bstMutex says whether a consumer holds m_mutex_ of
-- realBst over several steps, handed counts the promises made. queries and
-- registered record the GETs split and who has put a key into which entry of
-- request_map.
structure Shared where
  proxy : Proxy
  operation_queues_ : List (List (Operation × Nat))
  bstMutex : Bool
  handed : Nat
  queries : List Query
  registered : List (Int × Nat)

inductive Stop where
  | blocked
  | fault (fault : Fault)

-- The locals of consumer_thread at the head of its inner loop.
structure Locals where
  storage_batch : List Str
  i : Nat
  request_id : Int

abbrev Thread := Prog Shared Stop

namespace Interleaving

def onProxy (f : Proxy → Except Fault (α × Proxy)) : Thread α :=
  .atomic (fun s =>
    match f s.proxy with
    | .ok (a,proxy) => .ok (a,{s with proxy:=proxy})
    | .error fault => .error (.fault fault))

-- A method of realBst under m_mutex_.
def onTree (f : FrequencySmoother → α × FrequencySmoother) : Thread α :=
  .atomic (fun s =>
    if s.bstMutex then .error .blocked
    else .ok ((f s.proxy.realBst).1,{s with proxy:={s.proxy with realBst:=(f s.proxy.realBst).2}}))

-- One under itemTimeStampMutex.
def onStamps (f : FrequencySmoother → Except Fault (α × FrequencySmoother)) : Thread α :=
  onProxy (fun s =>
    match f s.realBst with
    | .ok (a,realBst) => .ok (a,{s with realBst:=realBst})
    | .error fault => .error fault)

def look (f : Proxy → α) : Thread α := onProxy (fun s => .ok (f s,s))
def change (f : Proxy → Proxy) : Thread Unit := onProxy (fun s => .ok ((),f s))

def getFrequency (key : Str) : Thread Int := onTree (fun bst => bst.getFrequency key)
def setFrequency (key : Str) (value : Int) : Thread Unit := onTree (fun bst => ((),bst.setFrequency key value))
def timeStamp : Thread Int := look Proxy.timeStamp

def insertReal (key : Str) : Thread Unit := do
  onTree (fun bst => ((),bst.insertEntry key))
  onStamps (fun bst => do return ((),← bst.insertStamp key))

def removeReal (key : Str) : Thread Unit := do
  onTree (fun bst => ((),bst.removeEntry key))
  onStamps (fun bst => do return ((),← bst.removeStamp key))

def insertIfNotPresent (key : Str) : Thread Bool :=
  onProxy (fun s => let (isPresent,runningKeys) := s.runningKeys.insertIfNotPresent key
    .ok (isPresent,{s with runningKeys:=runningKeys}))

def set_value (promise : Nat) (answer : Answer) : Thread Unit :=
  onProxy (fun s => do
    let promises ← TsWaffle.set_value s.promises promise answer
    return ((),{s with promises:=promises}))

-- A key is put into the entry of a request.
def register (request_id : Int) (promise : Nat)
    (f : ThreadSafeUnorderedMap → Except Fault (α × ThreadSafeUnorderedMap)) : Thread α :=
  .atomic (fun s =>
    match f s.proxy.runningKeys with
    | .ok (a,runningKeys) =>
      .ok (a,{s with proxy:={s.proxy with runningKeys:=runningKeys},registered:=s.registered ++ [(request_id,promise)]})
    | .error fault => .error (.fault fault))

-- The blocking pop behind the test of the queue's size: only the consumer itself
-- takes from its queue.
def pop (id : Nat) : Thread (Operation × Nat) :=
  .atomic (fun s =>
    match s.operation_queues_[id]? with
    | some (item :: rest) => .ok (item,{s with operation_queues_:=s.operation_queues_.set id rest})
    | _ => .error .blocked)

-- The text is taken apart on locals; get_timestamp_for_key is the one locked step.
def get_split_keys (promise : Nat) (request_id : Int) (get_key : Str) : Thread (List Str) :=
  .atomic (fun s =>
    match TsWaffle.get_split_keys s.proxy.realBst get_key with
    | .ok (db_keys,realBst) =>
      .ok (db_keys,{s with proxy:={s.proxy with realBst:=realBst},queries:=s.queries ++ [⟨promise,request_id,db_keys⟩]})
    | .error fault => .error (.fault fault))

def remove_oldest_data (storage_batch : List Str) (currentKey : Str) : Thread (List Str) := do
  let oldest_key ← onProxy (fun s => do
    let (oldest_key,realBst) ← s.realBst.getOldestKey s.keys_to_be_deleted currentKey
    return (oldest_key,{s with realBst:=realBst}))
  let isPresentInCache ← look (fun s => (s.cache.getValueWithoutPositionChangeNew oldest_key).2)
  let valEvicted ← look (fun s => evictedValue s.EvictedItems oldest_key)
  let state : Nat := if isPresentInCache then 1 else 0
  let state := if valEvicted ≠ [] then 2 else state
  if state = 0 then do
    let isPresentInRunningKeys ← insertIfNotPresent oldest_key
    change (fun s => {s with keys_to_be_deleted:=s.keys_to_be_deleted ++ [oldest_key]})
    return if isPresentInRunningKeys then storage_batch else storage_batch ++ [oldest_key]
  else if state = 1 then do
    change (fun s => {s with cache:=(s.cache.removeKey oldest_key).1})
    removeReal oldest_key
    return storage_batch
  else do
    change (fun s => {s with EvictedItems:=s.EvictedItems.erase oldest_key})
    removeReal oldest_key
    return storage_batch

-- The GET branch of create_security_batch.
def requestKey (promise : Nat) (request_id : Int) (storage_batch : List Str) (currentKey : Str) : Thread (List Str) := do
  let known ← onTree (fun bst => (bst.checkIfUniqueItemWithTimeStampExists currentKey,bst))
  if known = false then do
    set_value promise .invalid
    return storage_batch
  else do
    let (val,isPresentInCache) ← look (fun s => s.cache.getValueWithoutPositionChangeNew currentKey)
    let valEvicted ← look (fun s => evictedValue s.EvictedItems currentKey)
    if isPresentInCache then do
      register request_id promise (fun running => do return ((),← running.insert_cache request_id currentKey val promise))
      return storage_batch
    else if valEvicted ≠ [] then do
      register request_id promise
        (fun running => do return ((),← running.insert_cache request_id currentKey valEvicted promise))
      return storage_batch
    else do
      let isPresentInRunningKeys ← register request_id promise
        (fun running => .ok (running.insertIfNotPresentGet currentKey promise request_id))
      return if isPresentInRunningKeys then storage_batch else storage_batch ++ [currentKey]

-- Its PUT branch.
def storeKey (promise : Nat) (storage_batch : List Str) (currentKey value : Str) : Thread (List Str) := do
  let storage_batch ← remove_oldest_data storage_batch currentKey
  change (fun s => {s with cache:=s.cache.insertIntoCache currentKey value})
  insertReal currentKey
  let clock ← timeStamp
  setFrequency currentKey clock
  let stored ← look (fun s => s.cache.getValueWithoutPositionChange currentKey)
  set_value promise (.stored stored)
  return storage_batch

def create_security_batch (promise : Nat) (request_id : Int) (storage_batch : List Str) (op : Operation) :
    Thread (List Str) :=
  if op.value = [] then requestKey promise request_id storage_batch op.key
  else storeKey promise storage_batch op.key op.value

def requestKeys (promise : Nat) (request_id : Int) : List Str → List Str → Nat → Thread (List Str × Nat)
  | [],storage_batch,i => return (storage_batch,i)
  | key :: rest,storage_batch,i => do
    let storage_batch ← create_security_batch promise request_id storage_batch ⟨key,[]⟩
    requestKeys promise request_id rest storage_batch (i+1)

-- One operation taken by the inner loop.
def serve (id : Nat) (l : Locals) : Thread Locals := do
  let (op,promise) ← pop id
  if op.value = [] then do
    let db_keys ← get_split_keys promise l.request_id op.key
    let (storage_batch,i) ← requestKeys promise l.request_id db_keys l.storage_batch l.i
    return ⟨storage_batch,i,l.request_id+1⟩
  else do
    let storage_batch ← create_security_batch promise (-1) l.storage_batch op
    return ⟨storage_batch,l.i+1,l.request_id⟩

-- What a round takes from outside. clearThread is outside the consumers here, so
-- clears is not read; attempts bounds the passes of the fake loop, and a run in
-- which they take more is a run with a larger bound.
structure Round extends Choice where
  attempts : Nat

def readKeys (env : Env) : List Str → Thread (List (Str × Str))
  | [] => return []
  | key :: rest => do
    let freq ← getFrequency key
    let clock ← timeStamp
    setFrequency key clock
    let rows ← readKeys env rest
    return (env.label key freq,key) :: rows

-- The walk over the tree under the lock its caller holds: nothing else changes it.
def fill : Nat → List Entry → Thread (List Str)
  | 0,_ => return []
  | _+1,[] => onProxy (fun _ => .error .undefined)
  | count+1,it :: rest => do
    let cached ← look (fun s => s.cache.checkIfKeyExists it.key)
    if cached then fill (count+1) rest
    else do
      let evicted ← look (fun s => decide (it.key ∈ s.EvictedItems))
      if evicted then fill (count+1) rest
      else do
        let isPresentInRunningKeys ← insertIfNotPresent it.key
        if isPresentInRunningKeys then fill (count+1) rest
        else do
          let keys ← fill count rest
          return it.key :: keys

def lock : Thread (List Entry) :=
  .atomic (fun s => if s.bstMutex then .error .blocked else .ok (s.proxy.realBst.accessTree.toList,{s with bstMutex:=true}))

def unlock : Thread Unit := .atomic (fun s => .ok ((),{s with bstMutex:=false}))

def onFakes (f : FrequencySmoother → Except Fault (α × FrequencySmoother)) : Thread α :=
  onProxy (fun s =>
    match f s.fakeBst with
    | .ok (a,fakeBst) => .ok (a,{s with fakeBst:=fakeBst})
    | .error fault => .error fault)

def readFakes (env : Env) : Nat → Nat → Thread (List (Str × Str))
  | _,0 => return []
  | 0,_+1 => .atomic (fun _ => .error .blocked)
  | attempts+1,n+1 => do
    let fakeMinKey ← onFakes (fun bst =>
      match bst.accessTree.toList with
      | [] => .error .undefined
      | fakeMin :: _ => .ok (fakeMin.key,bst))
    let isPresentInRunningKeys ← insertIfNotPresent fakeMinKey
    if isPresentInRunningKeys then readFakes env attempts (n+1)
    else do
      let freq ← onFakes (fun bst => .ok (bst.getFrequency fakeMinKey))
      let clock ← timeStamp
      onFakes (fun bst => .ok ((),bst.setFrequency fakeMinKey clock))
      let rows ← readFakes env attempts n
      return (env.label fakeMinKey freq,fakeMinKey) :: rows

-- The locals of the loop over the replies.
structure Written where
  writeBatch : List (Str × Str)
  promiseSatisfy : Table Str Str
  tempEvictedItems : List Str

-- Evicting takes the locks of cache and EvictedItems together.
def writeReal (env : Env) (seed : Nat) (key response : Str) (w : Written) : Thread Written := do
  let kv_pair ← onProxy (fun s =>
    let (kv_pair,cache) := s.cache.evictLRElementFromCache
    .ok (kv_pair,{s with cache:=cache,EvictedItems:=s.EvictedItems.insert kv_pair.1 kv_pair.2}))
  let freq ← getFrequency kv_pair.1
  let value := env.decryptNonDeterministic response
  let w : Written := ⟨w.writeBatch ++ [(env.label kv_pair.1 freq,env.encryptNonDeterministic seed kv_pair.2)],
    w.promiseSatisfy.insert key value,w.tempEvictedItems ++ [kv_pair.1]⟩
  let doomed ← look (fun s => decide (key ∈ s.keys_to_be_deleted))
  if doomed then do
    removeReal key
    change (fun s => {s with keys_to_be_deleted:=s.keys_to_be_deleted.filter (· ≠ key)})
    return w
  else do
    let cached ← look (fun s => s.cache.checkIfKeyExists key)
    let value ← (if cached then look (fun s => s.cache.getValueWithoutPositionChange key) else pure value)
    change (fun s => {s with cache:=s.cache.insertIntoCache key value})
    return w

def writeFake (cfg : Config) (env : Env) (seed : Nat) (draws : Nat → Nat) (key response : Str) (w : Written) :
    Thread Written := do
  let freq ← onFakes (fun bst => .ok (bst.getFrequency key))
  let value := env.encryptNonDeterministic seed (EncryptionEngine.gen_random cfg.object_size_ draws)
  return ⟨w.writeBatch ++ [(env.label key freq,value)],
    w.promiseSatisfy.insert key (env.decryptNonDeterministic response),w.tempEvictedItems⟩

def writeBack (cfg : Config) (env : Env) (round : Round) (readBatchMap : Table Str Str) (real : Nat) :
    Nat → List (Str × Str) → Written → Thread Written
  | _,[],w => return w
  | i,(stKey,response) :: rest,w => do
    let key := (readBatchMap.find? stKey).getD []
    let w ← (if i < real then writeReal env (round.seeds i) key response w
      else writeFake cfg env (round.seeds i) (round.draws i) key response w)
    writeBack cfg env round readBatchMap real (i+1) rest w

def eraseEvicted : List Str → Thread Unit
  | [] => return ()
  | key :: rest => do
    change (fun s => {s with EvictedItems:=s.EvictedItems.erase key})
    eraseEvicted rest

def tryClearPromises (key value : Str) : Thread Unit :=
  onProxy (fun s => do
    let (runningKeys,promises) ← s.runningKeys.tryClearPromises s.promises key value
    return ((),{s with runningKeys:=runningKeys,promises:=promises}))

def deliver (value : Str → Str) : List Str → Thread Unit
  | [] => return ()
  | key :: rest => do
    tryClearPromises key (value key)
    deliver value rest

def tryClearAllPromises (walk : List Int → List Int) : Thread Unit :=
  onProxy (fun s => do
    let (runningKeys,promises) ← s.runningKeys.tryClearAllPromises s.promises walk
    return ((),{s with runningKeys:=runningKeys,promises:=promises}))

def execute_batch (cfg : Config) (env : Env) (round : Round) (operations : List Str) : Thread Unit := do
  change (fun s => {s with timeStamp:=s.timeStamp+1})
  let requested ← readKeys env operations
  let it ← lock
  let realKeysNotInCache ← fill (fillCount cfg operations.length) it
  unlock
  let filled ← readKeys env realKeysNotInCache
  let faked ← readFakes env round.attempts cfg.F
  let readBatchMap : Table Str Str := Table.insertAll ∅ (requested ++ filled ++ faked)
  let storage_keys := (requested ++ filled ++ faked).map Prod.fst
  let responses ← onProxy (fun s => s.get_batch storage_keys)
  let w ← writeBack cfg env round readBatchMap (operations.length+realKeysNotInCache.length) 0
    (storage_keys.zip responses) ⟨[],∅,[]⟩
  change (fun s => s.put_batch w.writeBatch)
  eraseEvicted (round.order w.tempEvictedItems.dedup)
  deliver (fun key => (w.promiseSatisfy.find? key).getD []) (round.order w.promiseSatisfy.keys)
  change (fun s => {s with keysNotUsed:=s.keysNotUsed ++ [storage_keys]})

-- The end of a round; the next one starts with empty locals.
def close (cfg : Config) (env : Env) (round : Round) (l : Locals) : Thread Locals := do
  tryClearAllPromises round.walk
  execute_batch cfg env round l.storage_batch
  return ⟨[],0,l.request_id⟩

-- The test of the inner loop.
def consumer_thread (cfg : Config) (env : Env) (id : Nat) (l : Locals) (round : Round) : Thread Locals :=
  if l.i < cfg.R then serve id l else close cfg env round l

-- Clients give a promise to one of the queues, and clearThread works in between.
inductive Outside : Shared → Shared → Prop where
  | push (queue_id : Nat) (r : Request) (wf : r.WellFormed) : Outside s
      {s with operation_queues_:=s.operation_queues_.modify (queue_id % s.operation_queues_.length)
                (fun queue => queue ++ [(r.operation,s.handed)]),
              handed:=s.handed+1}
  | clear : Outside s {s with proxy:=s.proxy.clearThread}

-- init starts num_cores consumers, each with its own queue.
def started (num_cores : Nat) (proxy : Proxy) : State (Fin num_cores) Shared Stop Locals :=
  ⟨⟨proxy,List.replicate num_cores [],false,0,[],[]⟩,fun _ => .ret ⟨[],0,0⟩⟩

def Reached (cfg : Config) (env : Env) (num_cores : Nat) (proxy : Proxy) :
    State (Fin num_cores) Shared Stop Locals → Prop :=
  Reachable (fun id => consumer_thread cfg env id) Outside (started num_cores proxy)

-- No two GETs in flight share an entry, and a promise that is set holds the sum
-- over exactly the keys of its own request.
structure Isolated (s : Shared) : Prop where
  entries : ∀ id p q, (id,p) ∈ s.registered → (id,q) ∈ s.registered →
    p ∉ s.proxy.promises → q ∉ s.proxy.promises → p = q
  answers : ∀ g ∈ s.queries, ∀ answer, s.proxy.promises.find? g.promise = some answer →
    ∃ pairs, answer = .sum pairs ∧ pairs.map Prod.fst = g.db_keys

end Interleaving
end TsWaffle
