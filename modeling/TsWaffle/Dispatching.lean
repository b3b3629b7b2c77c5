import TsWaffle.Draining
import TsWaffle.Indexing
import TsWaffle.Spelling
import TsWaffle.Consuming

namespace TsWaffle
open Text Runs

-- What a client sends. The single requests are batches of one key.
inductive Message where
  | get_batch (keys : List Str)
  | put_batch (keys values : List Str)

-- The loop of async_put_batch and put_batch; values[i] is not checked there.
def put_futures (values : List Str) : Nat → List Str → Except Fault (List Operation)
  | _,[] => .ok []
  | i,key :: rest => do
    let value ← part values i
    let operations ← put_futures values (i+1) rest
    return ⟨key,value⟩ :: operations

-- What a message puts on the operation queue.
def Message.operations : Message → Except Fault (List Operation)
  | .get_batch keys => .ok (keys.map (fun key => ⟨key,[]⟩))
  | .put_batch keys values => put_futures values 0 keys

-- One operation popped by consumer_thread, whatever its key and its value are.
def dispatch (s : Server) (promise : Nat) (op : Operation) : Except Fault Server :=
  if op.value = [] then do
    let (db_keys,realBst) ← get_split_keys s.proxy.realBst op.key
    let s ← Server.requestKeys promise db_keys {s with proxy:={s.proxy with realBst:=realBst}}
    return {s with request_id:=s.request_id+1}
  else do
    let (proxy,storage_batch) ← s.proxy.create_security_batch s.storage_batch op promise (-1)
    return {s with proxy:=proxy,storage_batch:=storage_batch,i:=s.i+1}

-- On the requests of a Request this is what serve does.
theorem serve_dispatch (s : Server) (r : Request) :
    s.serve r = dispatch {s with requests:=s.requests ++ [r]} s.requests.length r.operation := rfl

-- The server behind its one operation queue; the n-th operation popped has promise n.
structure Front where
  server : Server
  queue : List Operation
  popped : Nat

inductive Event where
  | receive (message : Message)
  | pop
  | close (choice : Choice)
  | clear

namespace Front

-- Messages of several clients that interleave key by key are messages of one key each.
def step (cfg : Config) (env : Env) (st : Front) : Event → Except Fault Front
  | .receive message => do
    let operations ← message.operations
    return {st with queue:=st.queue ++ operations}
  | .pop =>
    match st.queue with
    | [] => .ok st
    | op :: rest => do
      let server ← dispatch st.server st.popped op
      return ⟨server,rest,st.popped+1⟩
  | .close choice => do
    let server ← st.server.close cfg env choice
    return {st with server:=server}
  | .clear => .ok {st with server:={st.server with proxy:=st.server.proxy.clearThread}}

end Front

-- get_split_keys finds its three parts, and numbers in two of them.
def readable (key : Str) : Bool :=
  match getlines (chr '@') [] key with
  | _ :: second :: third :: _ => (stol second).isOk && (stol third).isOk
  | _ => false

-- The key is spelled item@to_string(timestamp), and the item has a bucket.
def storable (bst : FrequencySmoother) (key : Str) : Bool :=
  match get_key_timestamp_split key with
  | .ok (item,ts) => decide (key = bucketKey item ts ∧ (bst.timestamps item).toList ≠ [])
  | .error _ => false

def acceptable (s : Server) (op : Operation) : Bool :=
  if op.value = [] then readable op.key else storable s.proxy.realBst op.key

def Acceptable (st : Front) : Event → Prop
  | .receive (.put_batch keys values) => keys.length ≤ values.length
  | .pop => ∀ op ∈ st.queue.head?, acceptable st.server op = true
  | _ => True

instance : ∀ event, Decidable (Acceptable st event)
  | .receive (.put_batch _ _) => inferInstanceAs (Decidable (_ ≤ _))
  | .receive (.get_batch _) => inferInstanceAs (Decidable True)
  | .pop => Option.decidableForallMem st.queue.head?
  | .close _ => inferInstanceAs (Decidable True)
  | .clear => inferInstanceAs (Decidable True)

theorem put_futures_returns (values : List Str) (n : Nat) (keys : List Str) :
    (∃ ops, put_futures values n keys = .ok ops) ↔ keys = [] ∨ n+keys.length ≤ values.length := by
  induction keys generalizing n with
  | nil => exact iff_of_true ⟨[],rfl⟩ (.inl rfl)
  | cons key rest ih =>
    unfold put_futures part
    cases found : values[n]? with
    | none =>
      have short := List.getElem?_eq_none_iff.mp found
      refine iff_of_false ?_ ?_
      · intro returned
        obtain ⟨ops,ran⟩ := returned
        cases ran
      · rw [List.length_cons]
        intro either
        rcases either with none | enough
        · cases none
        · omega
    | some value =>
      obtain ⟨below,_⟩ := List.getElem?_eq_some_iff.mp found
      have later := ih (n+1)
      constructor
      · intro returned
        obtain ⟨ops,ran⟩ := returned
        obtain ⟨_,_,ran⟩ := bind_ok ran
        obtain ⟨others,tail,_⟩ := bind_ok ran
        refine .inr ?_
        rcases later.mp ⟨others,tail⟩ with rfl | enough
        · rw [List.length_cons,List.length_nil]
          omega
        · rw [List.length_cons]
          omega
      · intro either
        have enough : n+(rest.length+1) ≤ values.length := by
          rcases either with none | enough
          · cases none
          · exact enough
        obtain ⟨others,tail⟩ := later.mpr (.inr (by omega))
        refine ⟨⟨key,value⟩ :: others,?_⟩
        simp only [tail,bind,Except.bind,pure,Except.pure]

theorem operations_return (message : Message) :
    (∃ ops, message.operations = .ok ops) ↔ Acceptable st (.receive message) := by
  cases message with
  | get_batch keys => exact iff_of_true ⟨_,rfl⟩ trivial
  | put_batch keys values =>
    refine (put_futures_returns values 0 keys).trans ?_
    rw [Nat.zero_add]
    constructor
    · intro either
      rcases either with rfl | enough
      · exact Nat.zero_le _
      · exact enough
    · exact .inr

namespace FrequencySmoother
variable {s t : FrequencySmoother}

-- Every bucket the index lists is live. The converse may fail: a batch makes an
-- entry for a key that has been removed after it was asked for.
structure Grounded (s : FrequencySmoother) : Prop where
  stamped : s.needTimeStamp = true
  listed : ∀ item, ∀ ts ∈ s.timestamps item, WellFormed item ts ∧ bucketKey item ts ∈ s.accessFreqs

theorem Grounded.grown (valid : Grounded s) (stamped : t.needTimeStamp = s.needTimeStamp)
    (index : ∀ item, t.timestamps item = s.timestamps item) (live : ∀ k ∈ s.accessFreqs, k ∈ t.accessFreqs) :
    Grounded t := by
  refine ⟨stamped.trans valid.stamped,?_⟩
  intro item ts member
  rw [index] at member
  obtain ⟨wf,present⟩ := valid.listed item ts member
  exact ⟨wf,live _ present⟩

theorem Grounded.getFrequency (valid : Grounded s) (key : Str) : Grounded (s.getFrequency key).2 := by
  refine valid.grown rfl (fun _ => rfl) ?_
  intro k present
  change k ∈ (s.accessFreqs.fetch key 0).2
  obtain ⟨f,found⟩ := Table.mem_iff.mp present
  rw [Table.mem_iff,Table.fetch_find]
  split
  · exact ⟨_,rfl⟩
  · exact ⟨f,found⟩

theorem Grounded.setFrequency (valid : Grounded s) (key : Str) (value : Int) : Grounded (s.setFrequency key value) := by
  refine valid.grown rfl (fun _ => rfl) ?_
  intro k present
  obtain ⟨f,found⟩ := Table.mem_iff.mp present
  rw [Table.mem_iff,setFrequency_freqs]
  split
  · exact ⟨_,rfl⟩
  · exact ⟨f,found⟩

theorem Grounded.looked_up (valid : Grounded s) (item : Str) : Grounded (s.get_timestamp_for_key item).2 :=
  valid.grown rfl (fetch_timestamps s item) (fun _ live => live)

theorem Grounded.insert (valid : Grounded s) (wf : WellFormed item ts) : Grounded (s.insert (bucketKey item ts)).1 := by
  obtain ⟨_,stamped,index⟩ := insert_wellFormed valid.stamped wf
  refine ⟨stamped,?_⟩
  intro other u member
  rw [insert_live]
  rw [index] at member
  by_cases same : other = item
  · subst same
    rw [if_pos rfl,OrderedSet.mem_insert] at member
    rcases member with rfl | old
    · exact ⟨wf,.inl rfl⟩
    · obtain ⟨good,live⟩ := valid.listed other u old
      exact ⟨good,.inr live⟩
  · rw [if_neg same] at member
    obtain ⟨good,live⟩ := valid.listed other u member
    exact ⟨good,.inr live⟩

theorem Grounded.removeKey (valid : Grounded s) (wf : WellFormed item ts) :
    Grounded (s.removeKey (bucketKey item ts)).1 := by
  obtain ⟨_,stamped,index⟩ := removeKey_wellFormed valid.stamped wf
  refine ⟨stamped,?_⟩
  intro other u member
  obtain ⟨before,differs⟩ := (index other u).mp member
  obtain ⟨good,live⟩ := valid.listed other u before
  refine ⟨good,(removeKey_live s _ _).mpr ⟨?_,live⟩⟩
  intro same
  exact differs (bucketKey_injective good.2.1 wf.2.1 same)

theorem Grounded.store (valid : Grounded s) (wf : WellFormed item ts) (clock : Int) :
    Grounded (s.store (bucketKey item ts) clock) := (valid.insert wf).setFrequency _ _

end FrequencySmoother

namespace ThreadSafeUnorderedMap
variable {r q : ThreadSafeUnorderedMap} {ps qs : Promises} {id : Int} {n : Nat}

-- The promises that are set or will be belong to the first n operations.
structure Owned (n : Nat) (r : ThreadSafeUnorderedMap) (ps : Promises) : Prop where
  set : ∀ p ∈ ps, p < n
  rows : ∀ id ks p, r.request_map.find? id = some (ks,some p) → p < n

theorem Owned.more (owned : Owned n r ps) (le : n ≤ m) : Owned m r ps :=
  ⟨fun p member => lt_of_lt_of_le (owned.set p member) le,fun id ks p row => lt_of_lt_of_le (owned.rows id ks p row) le⟩

theorem Owned.set_value {given : Answer} (owned : Owned n r ps) (small : p < n) (ran : set_value ps p given = .ok qs) :
    Owned n r qs := by
  unfold TsWaffle.set_value at ran
  split at ran
  · cases ran
  · cases ran
    refine ⟨?_,owned.rows⟩
    intro q member
    rcases Table.mem_insert.mp member with rfl | old
    · exact small
    · exact owned.set q old

theorem Owned.settled (owned : Owned n r ps) (settles : Settles r ps q qs) : Owned n q qs := by
  refine ⟨?_,fun id ks p row => owned.rows id ks p (settles.rows id _ row)⟩
  intro p member
  obtain ⟨a,found⟩ := Table.mem_iff.mp member
  rcases settles.answers p a found with before | ⟨id,ks,_,row,_⟩
  · exact owned.set p (Table.mem_iff.mpr ⟨a,before⟩)
  · exact owned.rows id ks p row

theorem Owned.insert_cache (owned : Owned n r ps) (small : p < n) (ran : r.insert_cache id key value p = .ok q) :
    Owned n q ps := by
  have shape := insert_cache_register ran
  subst shape
  refine ⟨owned.set,?_⟩
  intro a ks u row
  simp only [insert_cache.register,Table.find_insert] at row
  split at row
  · cases found : r.request_map.find? id with
    | none =>
      rw [found] at row
      cases row
      exact small
    | some old =>
      rw [found] at row
      obtain ⟨_,promised⟩ := Prod.mk.inj (Option.some.inj row)
      rw [Option.getD_some] at promised
      exact owned.rows id old.1 u (by rw [found,← promised])
  · exact owned.rows a ks u row

theorem Owned.insertIfNotPresentGet (owned : Owned n r ps) (small : p < n) (key : Str) (id : Int) :
    Owned n (r.insertIfNotPresentGet key p id).2 ps := by
  refine ⟨owned.set,?_⟩
  intro a ks u row
  simp only [ThreadSafeUnorderedMap.insertIfNotPresentGet,Table.find_insert] at row
  split at row
  · cases row
    exact small
  · exact owned.rows a ks u row

end ThreadSafeUnorderedMap
variable {cfg : Config} {env : Env} {s t : Server} {p q : Proxy} {batch after : List Str} {n : Nat}

-- What a popped operation finds after n others.
structure Ready (n : Nat) (p : Proxy) : Prop where
  grounded : p.realBst.Grounded
  doomed : ∀ k ∈ p.keys_to_be_deleted, ∃ item ts, WellFormed item ts ∧ k = bucketKey item ts
  owned : ThreadSafeUnorderedMap.Owned n p.runningKeys p.promises

theorem Ready.unset (ready : Ready n p) : n ∉ p.promises := fun member => lt_irrefl n (ready.owned.set n member)

theorem get_split_keys_returns (bst : FrequencySmoother) (key : Str) :
    (∃ out, get_split_keys bst key = .ok out) ↔ readable key = true := by
  unfold get_split_keys readable
  match getlines (chr '@') [] key with
  | [] => exact iff_of_false (fun returned => nomatch returned) Bool.false_ne_true
  | [_] => exact iff_of_false (fun returned => nomatch returned) Bool.false_ne_true
  | [_,second] =>
    refine iff_of_false ?_ Bool.false_ne_true
    intro returned
    obtain ⟨out,ran⟩ := returned
    obtain ⟨_,_,ran⟩ := bind_ok ran
    obtain ⟨_,_,ran⟩ := bind_ok ran
    obtain ⟨_,_,ran⟩ := bind_ok ran
    cases ran
  | _ :: second :: third :: _ =>
    cases one : stol second with
    | error fault =>
      refine iff_of_false ?_ (by simp [one,Except.isOk,Except.toBool])
      intro returned
      obtain ⟨out,ran⟩ := returned
      obtain ⟨_,_,ran⟩ := bind_ok ran
      obtain ⟨_,same,ran⟩ := bind_ok ran
      cases same
      rw [one] at ran
      cases ran
    | ok a =>
      cases two : stol third with
      | error fault =>
        refine iff_of_false ?_ (by simp [two,Except.isOk,Except.toBool])
        intro returned
        obtain ⟨out,ran⟩ := returned
        obtain ⟨_,_,ran⟩ := bind_ok ran
        obtain ⟨_,_,ran⟩ := bind_ok ran
        obtain ⟨_,_,ran⟩ := bind_ok ran
        obtain ⟨_,same,ran⟩ := bind_ok ran
        cases same
        rw [two] at ran
        cases ran
      | ok b =>
        refine iff_of_true ?_ (by simp [one,two,Except.isOk,Except.toBool])
        simp only [part,List.getElem?_cons_zero,List.getElem?_cons_succ,one,two,bind,Except.bind,pure,Except.pure]
        exact ⟨_,rfl⟩

-- A live key is given or left pending; only exit(1) can come between.
theorem requestKey_live {request_id : Int} (live : key ∈ p.realBst.accessFreqs)
    (failed : p.requestKey batch key promise request_id = .error fault) : fault = .exit := by
  have given : ∀ (value : Str), (do
      let runningKeys ← p.runningKeys.insert_cache request_id key value promise
      return ({p with runningKeys:=runningKeys},batch) : Except Fault (Proxy × List Str)) = .error fault → fault = .exit := by
    intro value failed
    unfold ThreadSafeUnorderedMap.insert_cache at failed
    split at failed
    · split at failed
      · cases failed; rfl
      · cases failed
    · cases failed
  unfold Proxy.requestKey at failed
  rw [if_neg (by simpa [FrequencySmoother.checkIfUniqueItemWithTimeStampExists] using live)] at failed
  dsimp only at failed
  split at failed
  · exact given _ failed
  · split at failed
    · exact given _ failed
    · cases failed

theorem requestKeys_live (keys : List Str) (live : ∀ k ∈ keys, k ∈ s.proxy.realBst.accessFreqs)
    (failed : Server.requestKeys promise keys s = .error fault) : fault = .exit := by
  induction keys generalizing s with
  | nil => cases failed
  | cons key rest ih =>
    unfold Server.requestKeys at failed
    cases first : s.proxy.create_security_batch s.storage_batch ⟨key,[]⟩ promise s.request_id with
    | error other =>
      rw [first] at failed
      cases failed
      exact requestKey_live (live key List.mem_cons_self) first
    | ok next =>
      rw [first] at failed
      have same : next.1.realBst = s.proxy.realBst := by
        obtain ⟨q,more⟩ := next
        cases requestKey_returned first <;> rfl
      refine ih (s:={s with proxy:=next.1,storage_batch:=next.2,i:=s.i+1}) ?_ failed
      intro k member
      dsimp only
      rw [same]
      exact live k (List.mem_cons_of_mem _ member)

theorem Requested.ready {request_id : Int} (done : Requested p batch key promise request_id q after) (small : promise < n)
    (ready : Ready n p) : Ready n q := by
  cases done with
  | unknown qs dead set => exact ⟨ready.grounded,ready.doomed,ready.owned.set_value small set⟩
  | given value running live source registered =>
    exact ⟨ready.grounded,ready.doomed,ready.owned.insert_cache small registered⟩
  | pending live uncached unevicted =>
    exact ⟨ready.grounded,ready.doomed,ready.owned.insertIfNotPresentGet small _ _⟩

theorem requestKeys_ready (keys : List Str) (small : promise < n) (ready : Ready n s.proxy)
    (ran : Server.requestKeys promise keys s = .ok t) : Ready n t.proxy := by
  refine requestKeys_rule (I:=fun p _ => Ready n p) keys ?_ ready ran
  intro p batch key request_id q after _ done before
  exact done.ready small before

theorem getOldestKey_grounded {bst next : FrequencySmoother} (grounded : bst.Grounded)
    (ran : bst.getOldestKey scheduled key = .ok (oldest,next)) :
    next.Grounded ∧ ∃ item ts, WellFormed item ts ∧ oldest = bucketKey item ts := by
  obtain ⟨item,_,o,_,listed,rfl,rfl⟩ := getOldestKey_returned ran
  exact ⟨grounded.looked_up item,item,o,(grounded.listed item o listed).1,rfl⟩

theorem Retired.ready (done : Retired p batch key oldest bst q after) (grounded : bst.Grounded)
    (named : ∃ item ts, WellFormed item ts ∧ oldest = bucketKey item ts) (ready : Ready n p) :
    Ready n q ∧ q.promises = p.promises := by
  have fewer : (bst.removeKey oldest).1.Grounded := by
    obtain ⟨item,ts,wf,rfl⟩ := named
    exact grounded.removeKey wf
  cases done with
  | scheduled uncached unevicted =>
    refine ⟨⟨grounded,?_,ready.owned.set,ready.owned.rows⟩,rfl⟩
    intro k member
    rcases List.mem_append.mp member with old | new
    · exact ready.doomed k old
    · rw [List.mem_singleton.mp new]
      exact named
  | cached held parsed => exact ⟨⟨fewer,ready.doomed,ready.owned⟩,rfl⟩
  | evicted value parsed => exact ⟨⟨fewer,ready.doomed,ready.owned⟩,rfl⟩

theorem storeKey_ready (wf : WellFormed item ts) (ready : Ready n p)
    (ran : p.storeKey batch (bucketKey item ts) value n = .ok (q,after)) : Ready (n+1) q := by
  obtain ⟨oldest,bst,m,qs,found,retired,_,rfl,set⟩ := storeKey_returned ran
  obtain ⟨grounded,named⟩ := getOldestKey_grounded ready.grounded found
  obtain ⟨left,_⟩ := retired.ready grounded named ready
  exact ⟨left.grounded.store wf _,left.doomed,(left.owned.more (Nat.le_succ n)).set_value (Nat.lt_succ_self n) set⟩

theorem removeReal_returns (stamped : p.realBst.needTimeStamp = true) (wf : WellFormed item ts) :
    ∃ q, p.removeReal (bucketKey item ts) = .ok q := by
  have parsed := (FrequencySmoother.removeKey_wellFormed stamped wf).1
  unfold Proxy.removeReal
  split
  · rename_i shape
    rw [shape] at parsed
    cases parsed
  · exact ⟨_,rfl⟩

theorem insertReal_returns (stamped : p.realBst.needTimeStamp = true) (wf : WellFormed item ts) :
    ∃ q, p.insertReal (bucketKey item ts) = .ok q := by
  have parsed := (FrequencySmoother.insert_wellFormed stamped wf).1
  unfold Proxy.insertReal
  split
  · rename_i shape
    rw [shape] at parsed
    cases parsed
  · exact ⟨_,rfl⟩

theorem remove_oldest_data_returns (ready : Ready n p) (wf : WellFormed item ts)
    (bucket : (p.realBst.timestamps item).toList ≠ []) (batch : List Str) :
    ∃ out, p.remove_oldest_data batch (bucketKey item ts) = .ok out := by
  obtain ⟨u,listed⟩ := List.exists_mem_of_ne_nil _ bucket
  obtain ⟨o,found,oldest⟩ := FrequencySmoother.getOldestKey_wellFormed wf (OrderedSet.mem_toList.mp listed)
    p.keys_to_be_deleted
  have named := (ready.grounded.listed item o oldest.1).1
  have removes : ∀ m : Proxy, m.realBst = p.realBst → ∃ q, m.removeReal (bucketKey item o) = .ok q := by
    intro m same
    exact removeReal_returns (by rw [same]; exact ready.grounded.stamped) named
  unfold Proxy.remove_oldest_data
  rw [found]
  dsimp only [bind,Except.bind]
  generalize (if evictedValue p.EvictedItems (bucketKey item o) ≠ [] then 2
    else if (p.cache.getValueWithoutPositionChangeNew (bucketKey item o)).2 = true then 1 else 0 : Nat) = state
  split
  · exact ⟨_,rfl⟩
  · split
    · obtain ⟨q,removed⟩ := removes {p with cache:=(p.cache.removeKey (bucketKey item o)).1} rfl
      exact ⟨(q,batch),by rw [removed]; rfl⟩
    · obtain ⟨q,removed⟩ := removes {p with EvictedItems:=p.EvictedItems.erase (bucketKey item o)} rfl
      exact ⟨(q,batch),by rw [removed]; rfl⟩

theorem storeKey_returns (ready : Ready n p) (wf : WellFormed item ts) (bucket : (p.realBst.timestamps item).toList ≠ [])
    (batch : List Str) (value : Str) : ∃ out, p.storeKey batch (bucketKey item ts) value n = .ok out := by
  obtain ⟨⟨m,left⟩,retired⟩ := remove_oldest_data_returns ready wf bucket batch
  obtain ⟨oldest,bst,found,how⟩ := remove_oldest_data_returned retired
  obtain ⟨grounded,named⟩ := getOldestKey_grounded ready.grounded found
  obtain ⟨still,same⟩ := how.ready grounded named ready
  obtain ⟨q,inserted⟩ := insertReal_returns (p:={m with cache:=m.cache.insertIntoCache (bucketKey item ts) value})
    still.grounded.stamped wf
  have unset : n ∉ q.promises := by
    obtain ⟨shape,_⟩ := insertReal_returned inserted
    rw [shape]
    dsimp only
    rw [same]
    exact ready.unset
  unfold Proxy.storeKey
  rw [retired]
  dsimp only [bind,Except.bind]
  rw [inserted]
  dsimp only
  rw [set_value_fresh unset]
  exact ⟨_,rfl⟩

theorem storable_iff (bst : FrequencySmoother) (key : Str) : storable bst key = true ↔
    ∃ item ts, WellFormed item ts ∧ key = bucketKey item ts ∧ (bst.timestamps item).toList ≠ [] := by
  unfold storable
  cases read : get_key_timestamp_split key with
  | error fault =>
    refine iff_of_false Bool.false_ne_true ?_
    intro named
    obtain ⟨item,ts,wf,rfl,_⟩ := named
    rw [bucketKey_split wf] at read
    cases read
  | ok parts =>
    obtain ⟨item,ts⟩ := parts
    rw [decide_eq_true_iff]
    constructor
    · intro both
      exact ⟨item,ts,split_wellFormed read,both⟩
    · intro named
      obtain ⟨other,u,wf,rfl,bucket⟩ := named
      rw [bucketKey_split wf] at read
      cases read
      exact ⟨rfl,bucket⟩

-- An acceptable operation passes, whatever has passed before it.
theorem dispatch_faults {op : Operation} (ready : Ready n s.proxy) (good : acceptable s op = true)
    (failed : dispatch s n op = .error fault) : fault = .exit := by
  unfold dispatch at failed
  unfold acceptable at good
  split at failed
  · rename_i get
    rw [if_pos get] at good
    obtain ⟨⟨keys,bst⟩,split⟩ := (get_split_keys_returns s.proxy.realBst op.key).mpr good
    rw [split] at failed
    have live : ∀ k ∈ keys, k ∈ bst.accessFreqs := by
      intro k member
      obtain ⟨item,ts,listed,rfl⟩ := FrequencySmoother.get_split_keys_listed split member
      obtain ⟨_,_,_,_,rfl⟩ := get_split_keys_returned split
      exact (ready.grounded.listed item ts listed).2
    cases asked : Server.requestKeys n keys {s with proxy:={s.proxy with realBst:=bst}} with
    | error other =>
      have exits := requestKeys_live (s:={s with proxy:={s.proxy with realBst:=bst}}) keys live asked
      dsimp only [bind,Except.bind] at failed
      rw [asked] at failed
      cases failed
      exact exits
    | ok m =>
      dsimp only [bind,Except.bind] at failed
      rw [asked] at failed
      cases failed
  · rename_i put
    rw [if_neg put] at good
    obtain ⟨item,ts,wf,spelled,bucket⟩ := (storable_iff _ _).mp good
    obtain ⟨out,stored⟩ := storeKey_returns ready wf bucket s.storage_batch op.value
    rw [Proxy.create_security_batch,if_neg put,spelled,stored] at failed
    cases failed

theorem dispatch_ready {op : Operation} (ready : Ready n s.proxy) (good : acceptable s op = true)
    (ran : dispatch s n op = .ok t) : Ready (n+1) t.proxy := by
  unfold dispatch at ran
  unfold acceptable at good
  split at ran
  · obtain ⟨⟨keys,bst⟩,split,ran⟩ := bind_ok ran
    obtain ⟨m,asked,same⟩ := bind_ok ran
    cases same
    obtain ⟨item,_,_,_,rfl⟩ := get_split_keys_returned split
    have final := requestKeys_ready
      (s:={s with proxy:={s.proxy with realBst:=(s.proxy.realBst.get_timestamp_for_key item).2}}) keys (Nat.lt_succ_self n)
      ⟨ready.grounded.looked_up item,ready.doomed,ready.owned.more (Nat.le_succ n)⟩ asked
    exact final
  · rename_i put
    rw [if_neg put] at good
    obtain ⟨item,ts,wf,spelled,_⟩ := (storable_iff _ _).mp good
    obtain ⟨⟨q,more⟩,stored,same⟩ := bind_ok ran
    cases same
    rw [Proxy.create_security_batch,if_neg put,spelled] at stored
    exact storeKey_ready wf ready stored

theorem readKeys_grounded (env : Env) (clock : Int) (keys : List Str) {bst : FrequencySmoother} (grounded : bst.Grounded) :
    (readKeys env clock keys bst).2.Grounded := by
  induction keys generalizing bst with
  | nil => exact grounded
  | cons key rest ih => exact ih ((grounded.getFrequency key).setFrequency key clock)

-- The write-back loop removes scheduled keys only, and leaves the promises alone.
theorem writeReal_ready {w v : WriteBack} (ready : Ready n w.proxy) (ran : writeReal env seed key response w = .ok v) :
    Ready n v.proxy := by
  have looked := ready.grounded.getFrequency w.proxy.cache.evictLRElementFromCache.1.1
  unfold writeReal at ran
  dsimp only at ran
  split at ran
  · rename_i doomed
    obtain ⟨q,removed,same⟩ := bind_ok ran
    obtain ⟨shape,_⟩ := removeReal_returned removed
    cases same
    subst shape
    obtain ⟨item,ts,wf,rfl⟩ := ready.doomed key doomed
    refine ⟨looked.removeKey wf,?_,ready.owned⟩
    intro k member
    exact ready.doomed k (List.mem_filter.mp member).1
  · cases ran
    exact ⟨looked,ready.doomed,ready.owned⟩

theorem writeBack_ready (cfg : Config) (choice : Choice) (readBatchMap : Table Str Str) (real i : Nat)
    (rows : List (Str × Str)) {w v : WriteBack} (ready : Ready n w.proxy)
    (ran : writeBack cfg env choice readBatchMap real i rows w = .ok v) : Ready n v.proxy := by
  induction rows generalizing i w with
  | nil => cases ran; exact ready
  | cons row rest ih =>
    unfold writeBack at ran
    split at ran
    · obtain ⟨next,stepped,tail⟩ := bind_ok ran
      exact ih _ (writeReal_ready ready stepped) tail
    · obtain ⟨next,same,tail⟩ := bind_ok ran
      cases same
      exact ih _ (w:=writeFake cfg env (choice.seeds i) (choice.draws i) _ row.2 w)
        ⟨ready.grounded,ready.doomed,ready.owned⟩ tail

theorem close_ready (ready : Ready n s.proxy) (ran : s.close cfg env choice = .ok t) : Ready n t.proxy := by
  obtain ⟨swept,qs,final,sweeps,executed,rfl⟩ := close_returned ran
  obtain ⟨stages,followed⟩ := execute_batch_returned executed
  have owned := ready.owned.settled (ThreadSafeUnorderedMap.tryClearAllPromises_settles sweeps)
  obtain ⟨_,fills⟩ := fill_returned _ _ _ followed.fills
  obtain ⟨_,_,_,fakes⟩ := readFakes_returned _ _ _ followed.fakes
  have wide := fills.trans fakes
  have widened : ThreadSafeUnorderedMap.Owned n stages.widened qs := by
    refine ⟨owned.set,?_⟩
    intro id ks p row
    rw [wide.shape] at row
    exact owned.rows id ks p row
  have middle : Ready n stages.middle := by
    rw [stages.middle_cleared.frame]
    exact ⟨readKeys_grounded env _ _ (readKeys_grounded env _ _ ready.grounded),ready.doomed,widened⟩
  have written := writeBack_ready cfg choice _ _ _ _ (w:=⟨stages.middle,[],∅,[]⟩) middle followed.writes
  have delivered := written.owned.settled (ThreadSafeUnorderedMap.deliver_settles _ _ followed.delivers)
  rw [followed.result]
  exact ⟨written.grounded,written.doomed,delivered⟩

theorem loadKeys_grounded {i : Nat} (seeds : Nat → Nat) (pairs : List (Str × Str)) {bst : FrequencySmoother}
    {m : Table Str Str} (named : ∀ kv ∈ pairs, ∃ item ts, WellFormed item ts ∧ kv.1 = bucketKey item ts)
    (grounded : bst.Grounded) (ran : loadKeys env seeds i pairs bst m = .ok (next,filled)) : next.Grounded :=
  loadKeys_rule (I:=fun _ bst _ => bst.Grounded) seeds [] pairs (by
    intro _ bst _ kv member before next _ inserted
    obtain ⟨item,ts,wf,name⟩ := named kv member
    have grown := before.insert wf
    rw [← name,inserted] at grown
    exact grown.getFrequency _) grounded ran

theorem chooseCached_grounded (pairs : List (Str × Str)) (capacity : Nat) (draws : List Nat) {bst : FrequencySmoother}
    {m : Table Str Str} {chosen : List (Str × Str)} (grounded : bst.Grounded)
    (ran : chooseCached env pairs capacity draws chosen bst m = .ok (out,next,left)) : next.Grounded :=
  (chooseCached_rule (I:=fun _ bst _ => bst.Grounded) (fun _ _ _ _ _ before _ _ => before.getFrequency _)
    draws grounded ran).2

theorem init_ready (cfg : Config) (draws : Draws) (good : Loadable pairs) (ran : init cfg env draws pairs = .ok s) :
    Ready 0 s.proxy := by
  obtain ⟨real,loaded,chosen,chosenBst,left,fakeBst,table,puts,keys,picks,fakes,rfl,_⟩ := init_parts cfg draws ran
  have empty : (FrequencySmoother.new true).Grounded := by
    refine ⟨rfl,?_⟩
    intro item ts listed
    simp [FrequencySmoother.timestamps,FrequencySmoother.new] at listed
  refine ⟨chooseCached_grounded pairs _ draws.indices (loadKeys_grounded draws.seeds pairs good.named empty keys) picks,?_,
    ?_,?_⟩
  · intro k member
    cases member
  · intro p member
    exact absurd member (Table.notMem_empty p)
  · intro id ks p row
    simp [ThreadSafeUnorderedMap.empty] at row

def Front.Ready (st : Front) : Prop := TsWaffle.Ready st.popped st.server.proxy

theorem Front.Ready.step {st next : Front} (event : Event) (ready : st.Ready) (good : Acceptable st event)
    (ran : Front.step cfg env st event = .ok next) : next.Ready := by
  cases event with
  | receive message =>
    obtain ⟨ops,_,same⟩ := bind_ok ran
    cases same
    exact ready
  | pop =>
    unfold Front.step at ran
    dsimp only at ran
    split at ran
    · cases ran
      exact ready
    · rename_i op rest shape
      obtain ⟨server,served,same⟩ := bind_ok ran
      cases same
      exact dispatch_ready ready (good op (by rw [shape]; rfl)) served
  | close choice =>
    obtain ⟨server,closed,same⟩ := bind_ok ran
    cases same
    exact close_ready ready closed
  | clear =>
    cases ran
    have frame := (clearThread_cleared st.server.proxy).frame
    rw [Front.Ready] at ready ⊢
    dsimp only
    rw [frame]
    exact ⟨ready.grounded,ready.doomed,ready.owned⟩

-- The request has been answered with invalid_key_response, which no later step does,
-- and has left no trace.
structure Rejected (s : Server) (promise : Nat) (t : Server) : Prop where
  answered : t.proxy.promises.find? promise = some .invalid
  realBst : t.proxy.realBst = s.proxy.realBst
  cache : t.proxy.cache = s.proxy.cache
  running : t.proxy.runningKeys = s.proxy.runningKeys

-- What is asked of the way of a request into the batch: every index is in range and
-- no exception leaves the loop, and what cannot be served is rejected.
def Met (st : Front) : Event → Prop
  | .receive message => ∃ ops, message.operations = .ok ops
  | .pop => ∀ op ∈ st.queue.head?,
      (∀ fault, dispatch st.server st.popped op = .error fault → fault = .exit) ∧
      (acceptable st.server op = false →
        ∃ t, dispatch st.server st.popped op = .ok t ∧ Rejected st.server st.popped t)
  | _ => True

-- There is no way of rejecting: what the parsers refuse throws or is undefined, and
-- a misspelled PUT is stored.
theorem dispatch_answer {op : Operation} (bad : acceptable s op = false) (ran : dispatch s n op = .ok t) :
    t.proxy.promises.find? n ≠ some .invalid := by
  unfold dispatch at ran
  unfold acceptable at bad
  split at ran
  · rename_i get
    obtain ⟨out,split,_⟩ := bind_ok ran
    rw [if_pos get,(get_split_keys_returns _ _).mp ⟨out,split⟩] at bad
    cases bad
  · rename_i put
    obtain ⟨⟨q,more⟩,stored,same⟩ := bind_ok ran
    cases same
    rw [Proxy.create_security_batch,if_neg put] at stored
    obtain ⟨_,_,m,qs,_,_,_,rfl,set⟩ := storeKey_returned stored
    unfold set_value at set
    split at set
    · cases set
    · cases set
      dsimp only
      rw [Table.find_insert,if_pos rfl]
      intro same
      cases same

theorem Front.Ready.met_iff {st : Front} (ready : st.Ready) (event : Event) : Met st event ↔ Acceptable st event := by
  cases event with
  | receive message => exact operations_return message
  | pop =>
    constructor
    · intro met op first
      by_contra bad
      rw [Bool.not_eq_true] at bad
      obtain ⟨t,ran,rejected⟩ := (met op first).2 bad
      exact dispatch_answer bad ran rejected.answered
    · intro good op first
      refine ⟨fun fault failed => dispatch_faults ready (good op first) failed,?_⟩
      intro bad
      rw [good op first] at bad
      cases bad
  | close choice => exact Iff.rfl
  | clear => exact Iff.rfl

-- A PUT and a GET of item a have been served; a GET without any separator is next.
def mixedEvents : List Event := [.receive (.put_batch [bucketKey (str "a") 4] [str "t"]),
  .receive (.get_batch [str "a@01@2 ",str "a"]),.pop,.pop]

def mixedFront : Front :=
  (run (Front.step sampleConfig sampleEnv) ⟨sampleServer,[],0⟩ mixedEvents).toOption.get (by decide +kernel)

end TsWaffle
