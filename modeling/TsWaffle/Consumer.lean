import TsWaffle.Proxy

namespace TsWaffle
open Text Runs

-- The requests a client can make that are well formed: item@timestamp with a
-- value, and item@start@end without one.
inductive Request where
  | put (item : Str) (ts : Int) (value : Str)
  | get (item : Str) (start_timestamp end_timestamp : Int)

namespace Request

def operation : Request → Operation
  | put item ts value => ⟨bucketKey item ts,value⟩
  | get item start_timestamp end_timestamp =>
    ⟨item ++ chr '@' :: (to_string start_timestamp ++ chr '@' :: to_string end_timestamp),[]⟩

def WellFormed : Request → Prop
  | put item ts value => TsWaffle.WellFormed item ts ∧ value ≠ []
  | get item start_timestamp end_timestamp => chr '@' ∉ item ∧ Fits64 start_timestamp ∧ Fits64 end_timestamp

instance : ∀ r : Request, Decidable r.WellFormed
  | put _ _ _ => inferInstanceAs (Decidable (_ ∧ _))
  | get _ _ _ => inferInstanceAs (Decidable (_ ∧ _))

-- The pair a PUT writes.
def written : Request → Option (Str × Str)
  | put item ts value => some (bucketKey item ts,value)
  | get _ _ _ => none

end Request

-- The proxy with the locals of consumer_thread. loaded and requests record what
-- init was given and what has been popped; the n-th request popped has promise n.
structure Server where
  proxy : Proxy
  storage_batch : List Str
  i : Nat
  request_id : Int
  loaded : List (Str × Str)
  requests : List Request

namespace Server

def requestKeys (promise : Nat) : List Str → Server → Except Fault Server
  | [],s => .ok s
  | key :: rest,s => do
    let (proxy,storage_batch) ← s.proxy.create_security_batch s.storage_batch ⟨key,[]⟩ promise s.request_id
    requestKeys promise rest {s with proxy:=proxy,storage_batch:=storage_batch,i:=s.i+1}

-- One request popped by consumer_thread.
def serve (s : Server) (r : Request) : Except Fault Server := do
  let op := r.operation
  let promise := s.requests.length
  let s := {s with requests:=s.requests ++ [r]}
  if op.value = [] then
    let (db_keys,realBst) ← get_split_keys s.proxy.realBst op.key
    let s ← requestKeys promise db_keys {s with proxy:={s.proxy with realBst:=realBst}}
    return {s with request_id:=s.request_id+1}
  else
    let (proxy,storage_batch) ← s.proxy.create_security_batch s.storage_batch op promise (-1)
    return {s with proxy:=proxy,storage_batch:=storage_batch,i:=s.i+1}

-- The end of a round of consumer_thread; the next round starts with empty locals.
def close (cfg : Config) (env : Env) (s : Server) (choice : Choice) : Except Fault Server := do
  let (runningKeys,promises) ← s.proxy.runningKeys.tryClearAllPromises s.proxy.promises choice.walk
  let proxy ← execute_batch cfg env choice s.storage_batch {s.proxy with runningKeys:=runningKeys,promises:=promises}
  return {s with proxy:=proxy,storage_batch:=[],i:=0}

inductive Action where
  | serve (r : Request)
  | close (choice : Choice)
  | clear

-- The consumer and clearThread: the storage is touched by execute_batch and by
-- clearThread only, so these three steps give every interleaving.
def step (cfg : Config) (env : Env) (s : Server) : Action → Except Fault Server
  | .serve r => s.serve r
  | .close choice => s.close cfg env choice
  | .clear => .ok {s with proxy:=s.proxy.clearThread}

-- The value last written for a key, by init or by a PUT.
def writes (s : Server) : List (Str × Str) := s.loaded ++ s.requests.filterMap Request.written

def lastIn (key : Str) : List (Str × Str) → Option Str
  | [] => none
  | (k,v) :: rest => (lastIn key rest).or (if k = key then some v else none)

def last (s : Server) (key : Str) : Option Str := lastIn key s.writes

end Server

-- The values of rand() that init uses: the indices of the keys to cache, the fake
-- keys with their values, and the order of keyValueMap.
structure FakeDraw where
  length : Nat
  chars : Nat → Nat
  value : Nat → Nat

structure Draws where
  indices : List Nat
  fakes : List FakeDraw
  seeds : Nat → Nat
  order : List Str → List Str
  ordered : ∀ keys, (order keys).Perm keys

def loadKeys (env : Env) (seeds : Nat → Nat) : Nat → List (Str × Str) → FrequencySmoother → Table Str Str →
    Except Fault (FrequencySmoother × Table Str Str)
  | _,[],realBst,keyValueMap => .ok (realBst,keyValueMap)
  | i,(key,value) :: rest,realBst,keyValueMap =>
    match realBst.insert key with
    | (_,.error fault) => .error fault
    | (realBst,.ok ()) =>
      let (freq,realBst) := realBst.getFrequency key
      loadKeys env seeds (i+1) rest realBst
        (keyValueMap.insert (env.label key freq) (env.encryptNonDeterministic (seeds i) value))

-- The loop that draws the keys to cache. Drawing on without success is the only
-- way it does not end; rand()%0 is undefined.
def chooseCached (env : Env) (pairs : List (Str × Str)) (cacheCapacity : Nat) :
    List Nat → List (Str × Str) → FrequencySmoother → Table Str Str →
    Except Fault (List (Str × Str) × FrequencySmoother × Table Str Str)
  | draws,chosen,realBst,keyValueMap =>
    if chosen.length < cacheCapacity then
      match draws with
      | [] => .error .diverges
      | index :: rest =>
        match pairs[index % pairs.length]? with
        | none => .error .undefined
        | some (key,value) =>
          if key ∈ chosen.map Prod.fst then chooseCached env pairs cacheCapacity rest chosen realBst keyValueMap
          else
            let (freq,realBst) := realBst.getFrequency key
            chooseCached env pairs cacheCapacity rest (chosen ++ [(key,value)]) realBst
              (keyValueMap.erase (env.label key freq))
    else .ok (chosen,realBst,keyValueMap)

def loadFakes (cfg : Config) (env : Env) (seeds : Nat → Nat) : Nat → List FakeDraw → List Str →
    FrequencySmoother → Table Str Str → Except Fault (FrequencySmoother × Table Str Str)
  | 0,_,_,fakeBst,keyValueMap => .ok (fakeBst,keyValueMap)
  | _+1,[],_,_,_ => .error .diverges
  | n+1,draw :: rest,tempFakeKeys,fakeBst,keyValueMap =>
    let fakeKey := str "fake" ++ EncryptionEngine.gen_random (draw.length % 10+5) draw.chars
    if fakeKey ∈ tempFakeKeys then loadFakes cfg env seeds (n+1) rest tempFakeKeys fakeBst keyValueMap
    else
      match fakeBst.insert fakeKey with
      | (_,.error fault) => .error fault
      | (fakeBst,.ok ()) =>
        let (freq,fakeBst) := fakeBst.getFrequency fakeKey
        let value := env.encryptNonDeterministic (seeds n) (EncryptionEngine.gen_random cfg.object_size_ draw.value)
        loadFakes cfg env seeds n rest (tempFakeKeys ++ [fakeKey]) fakeBst
          (keyValueMap.insert (env.label fakeKey freq) value)

-- The upload in portions of redisBulkLength.
def upload (redisBulkLength : Nat) : List (Str × Str) → List (Str × Str) → Proxy → Proxy
  | [],final,s => if final.length > 0 then s.put_batch final else s
  | row :: rest,final,s =>
    let final := final ++ [row]
    if final.length = redisBulkLength then upload redisBulkLength rest [] (s.put_batch final)
    else upload redisBulkLength rest final s

def init (cfg : Config) (env : Env) (draws : Draws) (pairs : List (Str × Str)) : Except Fault Server := do
  let (realBst,keyValueMap) ← loadKeys env draws.seeds 0 pairs (.new true) ∅
  let cacheCapacity := cfg.cacheBatches*pairs.length/100
  let (chosen,realBst,keyValueMap) ← chooseCached env pairs cacheCapacity draws.indices [] realBst keyValueMap
  let (fakeBst,keyValueMap) ← loadFakes cfg env draws.seeds cfg.D draws.fakes [] (.new false) keyValueMap
  let rows := (draws.order keyValueMap.keys).map (fun key => (key,(keyValueMap.find? key).getD []))
  let proxy := upload cfg.redisBulkLength rows []
    ⟨realBst,fakeBst,.load chosen,∅,.empty,[],0,[],∅,∅,[]⟩
  return ⟨proxy,[],0,0,pairs,[]⟩

end TsWaffle
