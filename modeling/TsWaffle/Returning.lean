import TsWaffle.Consumer

namespace TsWaffle
open Text Runs
variable {cfg : Config} {env : Env} {s t : Proxy} {batch after : List Str}

-- Everything the GET branch of create_security_batch does when it returns,
-- whatever state it is called in.
inductive Requested (s : Proxy) (batch : List Str) (key : Str) (promise : Nat) (request_id : Int) :
    Proxy → List Str → Prop
  | unknown (promises : Promises) (dead : key ∉ s.realBst.accessFreqs)
      (set : set_value s.promises promise .invalid = .ok promises) :
      Requested s batch key promise request_id {s with promises:=promises} batch
  | given (value : Str) (running : ThreadSafeUnorderedMap) (live : key ∈ s.realBst.accessFreqs)
      (source : s.cache.getValueWithoutPositionChangeNew key = (value,true) ∨
        (s.cache.checkIfKeyExists key = false ∧ value = evictedValue s.EvictedItems key ∧ value ≠ []))
      (registered : s.runningKeys.insert_cache request_id key value promise = .ok running) :
      Requested s batch key promise request_id {s with runningKeys:=running} batch
  | pending (live : key ∈ s.realBst.accessFreqs) (uncached : s.cache.checkIfKeyExists key = false)
      (unevicted : evictedValue s.EvictedItems key = []) :
      Requested s batch key promise request_id
        {s with runningKeys:=(s.runningKeys.insertIfNotPresentGet key promise request_id).2}
        (if s.runningKeys.present key then batch else batch ++ [key])

theorem insert_cache_register {r running : ThreadSafeUnorderedMap} {request_id : Int}
    (ran : r.insert_cache request_id key value promise = .ok running) :
    running = ThreadSafeUnorderedMap.insert_cache.register request_id key value promise r := by
  unfold ThreadSafeUnorderedMap.insert_cache at ran
  split at ran
  · split at ran
    · cases ran
    · cases ran; rfl
  · cases ran; rfl

theorem insert_cache_present {r running : ThreadSafeUnorderedMap} {request_id : Int}
    (ran : r.insert_cache request_id key value promise = .ok running) (k : Str) :
    running.present k = r.present k := by
  rw [insert_cache_register ran]
  rfl

theorem cached_flag (c : Cache) (key : Str) : (c.getValueWithoutPositionChangeNew key).2 = c.checkIfKeyExists key := by
  unfold Cache.getValueWithoutPositionChangeNew Cache.checkIfKeyExists
  cases c.cacheMap.find? key <;> rfl

theorem requestKey_returned (ran : s.requestKey batch key promise request_id = .ok (t,after)) :
    Requested s batch key promise request_id t after := by
  unfold Proxy.requestKey at ran
  have flag := cached_flag s.cache key
  split at ran
  · rename_i dead
    obtain ⟨qs,set,same⟩ := bind_ok ran
    cases same
    exact .unknown qs (by simpa [FrequencySmoother.checkIfUniqueItemWithTimeStampExists] using dead) set
  · rename_i live
    have present : key ∈ s.realBst.accessFreqs := by
      simpa [FrequencySmoother.checkIfUniqueItemWithTimeStampExists] using live
    generalize fetched : s.cache.getValueWithoutPositionChangeNew key = pair at ran flag
    obtain ⟨val,isPresentInCache⟩ := pair
    dsimp only at ran flag
    split at ran
    · rename_i held
      subst held
      obtain ⟨running,registered,same⟩ := bind_ok ran
      cases same
      exact .given val running present (.inl fetched) registered
    · rename_i absent
      rw [Bool.not_eq_true] at absent
      subst absent
      split at ran
      · rename_i evicted
        obtain ⟨running,registered,same⟩ := bind_ok ran
        cases same
        exact .given _ running present (.inr ⟨flag.symm,rfl,evicted⟩) registered
      · rename_i unevicted
        cases ran
        exact .pending present flag.symm (not_not.mp unevicted)

-- The index lookups make an empty set for an unknown item at most.
theorem get_split_keys_returned {bst next : FrequencySmoother} (ran : get_split_keys bst text = .ok (keys,next)) :
    ∃ item start stop, keys = (select (bst.timestamps item).toList start stop).map (bucketKey item) ∧
      next = (bst.get_timestamp_for_key item).2 := by
  unfold get_split_keys at ran
  dsimp only at ran
  obtain ⟨item,_,ran⟩ := bind_ok ran
  obtain ⟨_,_,ran⟩ := bind_ok ran
  obtain ⟨start,_,ran⟩ := bind_ok ran
  obtain ⟨_,_,ran⟩ := bind_ok ran
  obtain ⟨stop,_,ran⟩ := bind_ok ran
  cases ran
  exact ⟨item,start,stop,by rw [FrequencySmoother.get_timestamp_for_key_value],rfl⟩

theorem getOldestKey_returned {bst next : FrequencySmoother} (ran : bst.getOldestKey scheduled key = .ok (oldest,next)) :
    ∃ item ts o, get_key_timestamp_split key = .ok (item,ts) ∧ o ∈ bst.timestamps item ∧ oldest = bucketKey item o ∧
      next = (bst.get_timestamp_for_key item).2 := by
  unfold FrequencySmoother.getOldestKey at ran
  split at ran
  · cases ran
  · rename_i item ts read
    have listed : (bst.uniqueItemWithTimeStamp.fetch item ∅).1 = bst.timestamps item := Table.fetch_value _ _ _
    dsimp only at ran
    rw [listed] at ran
    split at ran
    · cases ran
    · rename_i o rest shape
      cases ran
      exact ⟨item,ts,o,read,OrderedSet.mem_toList.mp (by rw [shape]; exact List.mem_cons_self),rfl,rfl⟩

theorem removeReal_returned (ran : s.removeReal key = .ok t) :
    t = {s with realBst:=(s.realBst.removeKey key).1} ∧ (s.realBst.removeKey key).2 = .ok () := by
  unfold Proxy.removeReal at ran
  split at ran
  · cases ran
  · rename_i bst shape
    cases ran
    rw [shape]
    exact ⟨rfl,rfl⟩

theorem insertReal_returned (ran : s.insertReal key = .ok t) :
    t = {s with realBst:=(s.realBst.insert key).1} ∧ (s.realBst.insert key).2 = .ok () := by
  unfold Proxy.insertReal at ran
  split at ran
  · cases ran
  · rename_i bst shape
    cases ran
    rw [shape]
    exact ⟨rfl,rfl⟩

-- The three ways remove_oldest_data deals with the item's oldest bucket.
inductive Retired (s : Proxy) (batch : List Str) (key oldest : Str) (bst : FrequencySmoother) : Proxy → List Str → Prop
  | scheduled (uncached : s.cache.checkIfKeyExists oldest = false) (unevicted : evictedValue s.EvictedItems oldest = []) :
      Retired s batch key oldest bst
        {s with realBst:=bst,runningKeys:=(s.runningKeys.insertIfNotPresent oldest).2,
                keys_to_be_deleted:=s.keys_to_be_deleted ++ [oldest]}
        (if s.runningKeys.present oldest then batch else batch ++ [oldest])
  | cached (held : s.cache.checkIfKeyExists oldest = true) (parsed : (bst.removeKey oldest).2 = .ok ()) :
      Retired s batch key oldest bst
        {s with realBst:=(bst.removeKey oldest).1,cache:=(s.cache.removeKey oldest).1} batch
  | evicted (value : evictedValue s.EvictedItems oldest ≠ []) (parsed : (bst.removeKey oldest).2 = .ok ()) :
      Retired s batch key oldest bst
        {s with realBst:=(bst.removeKey oldest).1,EvictedItems:=s.EvictedItems.erase oldest} batch

theorem remove_oldest_data_returned (ran : s.remove_oldest_data batch key = .ok (t,after)) :
    ∃ oldest bst, s.realBst.getOldestKey s.keys_to_be_deleted key = .ok (oldest,bst) ∧
      Retired s batch key oldest bst t after := by
  unfold Proxy.remove_oldest_data at ran
  obtain ⟨⟨oldest,bst⟩,found,rest⟩ := bind_ok ran
  refine ⟨oldest,bst,found,?_⟩
  dsimp only at rest
  rw [cached_flag] at rest
  by_cases evicted : evictedValue s.EvictedItems oldest = []
  · cases held : s.cache.checkIfKeyExists oldest with
    | true =>
      simp only [evicted,held,ne_eq,not_true,if_false,if_true,Nat.one_ne_zero] at rest
      obtain ⟨m,removed,same⟩ := bind_ok rest
      obtain ⟨shape,parsed⟩ := removeReal_returned removed
      cases same
      rw [shape]
      exact .cached held parsed
    | false =>
      simp only [evicted,held,ne_eq,not_true,if_false,if_true,Bool.false_eq_true] at rest
      cases rest
      exact .scheduled held evicted
  · simp only [evicted,ne_eq,not_false_iff,if_true,OfNat.ofNat_ne_zero,if_false,OfNat.ofNat_ne_one] at rest
    obtain ⟨m,removed,same⟩ := bind_ok rest
    obtain ⟨shape,parsed⟩ := removeReal_returned removed
    cases same
    rw [shape]
    exact .evicted evicted parsed

-- The PUT branch: the oldest bucket goes, the new one is cached and indexed.
theorem storeKey_returned (ran : s.storeKey batch key value promise = .ok (t,after)) :
    ∃ oldest bst m promises, s.realBst.getOldestKey s.keys_to_be_deleted key = .ok (oldest,bst) ∧
      Retired s batch key oldest bst m after ∧ (m.realBst.insert key).2 = .ok () ∧
      t = {m with cache:=m.cache.insertIntoCache key value,realBst:=m.realBst.store key m.timeStamp,
                  promises:=promises} ∧
      set_value m.promises promise (.stored ((m.cache.insertIntoCache key value).getValueWithoutPositionChange key)) =
        .ok promises := by
  unfold Proxy.storeKey at ran
  obtain ⟨⟨m,left⟩,retired,rest⟩ := bind_ok ran
  obtain ⟨oldest,bst,found,cases_⟩ := remove_oldest_data_returned retired
  obtain ⟨n,inserted,last⟩ := bind_ok rest
  obtain ⟨shape,parsed⟩ := insertReal_returned inserted
  obtain ⟨qs,set,same⟩ := bind_ok last
  cases same
  subst shape
  exact ⟨oldest,bst,m,qs,found,cases_,parsed,rfl,set⟩

variable {a b : Server}

-- The sub-operations of a GET, one after the other.
theorem requestKeys_uncons (ran : Server.requestKeys promise (key :: rest) a = .ok b) :
    ∃ p more, Requested a.proxy a.storage_batch key promise a.request_id p more ∧
      Server.requestKeys promise rest {a with proxy:=p,storage_batch:=more,i:=a.i+1} = .ok b := by
  unfold Server.requestKeys at ran
  obtain ⟨⟨p,more⟩,one,tail⟩ := bind_ok ran
  exact ⟨p,more,requestKey_returned one,tail⟩

-- What every sub-operation keeps the whole GET keeps.
theorem requestKeys_rule {I : Proxy → List Str → Prop} (keys : List Str)
    (keeps : ∀ p batch key request_id q after, key ∈ keys → Requested p batch key promise request_id q after →
      I p batch → I q after)
    (holds : I a.proxy a.storage_batch) (ran : Server.requestKeys promise keys a = .ok b) :
    I b.proxy b.storage_batch := by
  induction keys generalizing a with
  | nil =>
    cases ran
    exact holds
  | cons key rest ih =>
    obtain ⟨p,more,done,tail⟩ := requestKeys_uncons ran
    have next := keeps _ _ key _ p more List.mem_cons_self done holds
    exact ih (fun p batch k id q after member => keeps p batch k id q after (List.mem_cons_of_mem _ member))
      (a:={a with proxy:=p,storage_batch:=more,i:=a.i+1}) next tail

-- A popped request takes one of two ways, told apart by its value.
theorem serve_returned {r : Request} (ran : a.serve r = .ok b) :
    (r.operation.value = [] ∧ ∃ keys bst m, get_split_keys a.proxy.realBst r.operation.key = .ok (keys,bst) ∧
      Server.requestKeys a.requests.length keys
        {a with proxy:={a.proxy with realBst:=bst},requests:=a.requests ++ [r]} = .ok m ∧
      b = {m with request_id:=m.request_id+1}) ∨
    (r.operation.value ≠ [] ∧ ∃ p more,
      a.proxy.storeKey a.storage_batch r.operation.key r.operation.value a.requests.length = .ok (p,more) ∧
      b = {a with proxy:=p,storage_batch:=more,i:=a.i+1,requests:=a.requests ++ [r]}) := by
  unfold Server.serve at ran
  dsimp only at ran
  split at ran
  · rename_i asked
    obtain ⟨⟨keys,bst⟩,split,rest⟩ := bind_ok ran
    obtain ⟨m,done,same⟩ := bind_ok rest
    cases same
    exact .inl ⟨asked,keys,bst,m,split,done,rfl⟩
  · rename_i stored
    obtain ⟨⟨p,more⟩,one,same⟩ := bind_ok ran
    cases same
    rw [Proxy.create_security_batch,if_neg stored] at one
    exact .inr ⟨stored,p,more,one,rfl⟩

theorem serve_returned_get (ran : a.serve (.get item start stop) = .ok b) :
    ∃ keys bst m, get_split_keys a.proxy.realBst (Request.get item start stop).operation.key = .ok (keys,bst) ∧
      Server.requestKeys a.requests.length keys
        {a with proxy:={a.proxy with realBst:=bst},requests:=a.requests ++ [.get item start stop]} = .ok m ∧
      b = {m with request_id:=m.request_id+1} := by
  rcases serve_returned ran with ⟨_,asked⟩ | ⟨stored,_⟩
  · exact asked
  · exact absurd rfl stored

theorem serve_returned_put (filled : value ≠ []) (ran : a.serve (.put item ts value) = .ok b) :
    ∃ p more, a.proxy.storeKey a.storage_batch (bucketKey item ts) value a.requests.length = .ok (p,more) ∧
      b = {a with proxy:=p,storage_batch:=more,i:=a.i+1,requests:=a.requests ++ [.put item ts value]} := by
  rcases serve_returned ran with ⟨asked,_⟩ | ⟨_,stored⟩
  · exact absurd asked filled
  · exact stored

-- The stages of one execute_batch that returns.
structure Stages (cfg : Config) (env : Env) (choice : Choice) (operations : List Str) (s : Proxy) where
  filled : List Str
  topped : ThreadSafeUnorderedMap
  faked : List (Str × Str)
  fakeBst : FrequencySmoother
  widened : ThreadSafeUnorderedMap
  responses : List Str
  w : WriteBack
  running : ThreadSafeUnorderedMap
  promises : Promises

namespace Stages
variable {choice : Choice} {operations : List Str} (stages : Stages cfg env choice operations s)

def requested (_ : Stages cfg env choice operations s) : List (Str × Str) × FrequencySmoother :=
  readKeys env (s.timeStamp+1) operations s.realBst

def topping : List (Str × Str) × FrequencySmoother := readKeys env (s.timeStamp+1) stages.filled stages.requested.2

-- The keys the batch reads, real ones first.
def real : List Str := operations ++ stages.filled
def fake : List Str := stages.faked.map Prod.snd

def rows : List (Str × Str) := stages.requested.1 ++ stages.topping.1 ++ stages.faked

def labels : List Str := stages.rows.map Prod.fst

-- The proxy at the start of the write-back loop.
def middle : Proxy := Proxy.clearRounds choice.clears
  {s with timeStamp:=s.timeStamp+1,realBst:=stages.topping.2,fakeBst:=stages.fakeBst,runningKeys:=stages.widened,
          calls:=s.calls ++ [⟨.get_batch,s.timeStamp+1,stages.labels⟩]}

-- The write-back loop after n replies.
def iterate (n : Nat) : Except Fault WriteBack :=
  writeBack cfg env choice (Table.insertAll ∅ stages.rows) (operations.length+stages.filled.length) 0
    ((stages.labels.zip stages.responses).take n) ⟨stages.middle,[],∅,[]⟩

-- The loops that choose the keys have ended and the replies are there.
structure Fetched : Prop where
  fills : fill s.cache s.EvictedItems (fillCount cfg operations.length) stages.requested.2.accessTree.toList s.runningKeys =
    .ok (stages.filled,stages.topped)
  fakes : readFakes env (s.timeStamp+1) cfg.F s.fakeBst stages.topped =
    .ok (stages.faked,stages.fakeBst,stages.widened)
  replies : Proxy.fetchAll s.storage stages.labels = .ok stages.responses

structure Followed (t : Proxy) : Prop extends stages.Fetched where
  writes : writeBack cfg env choice (Table.insertAll ∅ stages.rows) (operations.length+stages.filled.length) 0
    (stages.labels.zip stages.responses) ⟨stages.middle,[],∅,[]⟩ = .ok stages.w
  delivers : stages.w.proxy.runningKeys.deliver stages.w.proxy.promises
    (fun key => (stages.w.promiseSatisfy.find? key).getD []) (choice.order stages.w.promiseSatisfy.keys) =
    .ok (stages.running,stages.promises)
  result : t = {stages.w.proxy.put_batch stages.w.writeBatch with
    EvictedItems:=stages.w.proxy.EvictedItems.eraseAll stages.w.tempEvictedItems,runningKeys:=stages.running,
    promises:=stages.promises,keysNotUsed:=stages.w.proxy.keysNotUsed ++ [stages.labels]}

end Stages

theorem execute_batch_returned (ran : execute_batch cfg env choice operations s = .ok t) :
    ∃ stages : Stages cfg env choice operations s, stages.Followed t := by
  unfold execute_batch at ran
  obtain ⟨⟨filled,topped⟩,fills,ran⟩ := bind_ok ran
  obtain ⟨⟨faked,fakeBst,widened⟩,fakes,ran⟩ := bind_ok ran
  obtain ⟨⟨responses,fetched⟩,replies,ran⟩ := bind_ok ran
  unfold Proxy.get_batch at replies
  obtain ⟨_,replied,same⟩ := bind_ok replies
  cases same
  obtain ⟨w,writes,ran⟩ := bind_ok ran
  obtain ⟨⟨running,promises⟩,delivers,ran⟩ := bind_ok ran
  cases ran
  exact ⟨⟨filled,topped,faked,fakeBst,widened,responses,w,running,promises⟩,⟨fills,fakes,replied⟩,writes,delivers,rfl⟩

theorem close_returned (ran : a.close cfg env choice = .ok b) :
    ∃ swept promises p, a.proxy.runningKeys.tryClearAllPromises a.proxy.promises choice.walk = .ok (swept,promises) ∧
      execute_batch cfg env choice a.storage_batch {a.proxy with runningKeys:=swept,promises:=promises} = .ok p ∧
      b = {a with proxy:=p,storage_batch:=[],i:=0} := by
  unfold Server.close at ran
  obtain ⟨⟨swept,promises⟩,sweeps,rest⟩ := bind_ok ran
  obtain ⟨p,executed,same⟩ := bind_ok rest
  cases same
  exact ⟨swept,promises,p,sweeps,executed,rfl⟩

end TsWaffle
