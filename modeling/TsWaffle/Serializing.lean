import TsWaffle.Colliding

namespace TsWaffle.Interleaving
open Text Threads Runs
variable {cfg : Config} {env : Env} {s : Shared} {p q : Proxy} {batch after : List Str} {key : Str} {promise : Nat}

-- A consumer that nobody but the world outside gets in the way of.
abbrev Solo (c : Thread α) (s : Shared) (a : α) (t : Shared) : Prop := Prog.Serial Outside c s a t

theorem look_solo (f : Proxy → α) (s : Shared) : Solo (look f) s (f s.proxy) s := .atomic rfl

theorem change_solo (f : Proxy → Proxy) (s : Shared) : Solo (change f) s () {s with proxy:=f s.proxy} := .atomic rfl

theorem onProxy_solo {f : Proxy → Except Fault (α × Proxy)} (ran : f s.proxy = .ok (a,q)) :
    Solo (onProxy f) s a {s with proxy:=q} := by
  apply Prog.Serial.atomic
  rw [ran]

theorem onTree_solo (f : FrequencySmoother → α × FrequencySmoother) (free : s.bstMutex = false) :
    Solo (onTree f) s (f s.proxy.realBst).1 {s with proxy:={s.proxy with realBst:=(f s.proxy.realBst).2}} := by
  apply Prog.Serial.atomic
  rw [if_neg (by rw [free]; exact Bool.noConfusion)]

theorem getFrequency_solo (key : Str) (free : s.bstMutex = false) :
    Solo (getFrequency key) s (s.proxy.realBst.getFrequency key).1
      {s with proxy:={s.proxy with realBst:=(s.proxy.realBst.getFrequency key).2}} := onTree_solo _ free

theorem setFrequency_solo (key : Str) (value : Int) (free : s.bstMutex = false) :
    Solo (setFrequency key value) s ()
      {s with proxy:={s.proxy with realBst:=s.proxy.realBst.setFrequency key value}} := onTree_solo _ free

theorem onStamps_solo {f : FrequencySmoother → Except Fault (α × FrequencySmoother)} {bst : FrequencySmoother}
    (ran : f s.proxy.realBst = .ok (a,bst)) : Solo (onStamps f) s a {s with proxy:={s.proxy with realBst:=bst}} := by
  apply onProxy_solo
  rw [ran]

theorem set_value_solo {answer : Answer} {qs : Promises} (ran : TsWaffle.set_value s.proxy.promises promise answer = .ok qs) :
    Solo (set_value promise answer) s () {s with proxy:={s.proxy with promises:=qs}} := by
  apply onProxy_solo
  rw [ran]
  rfl

theorem insertIfNotPresent_solo (key : Str) (s : Shared) :
    Solo (insertIfNotPresent key) s (s.proxy.runningKeys.insertIfNotPresent key).1
      {s with proxy:={s.proxy with runningKeys:=(s.proxy.runningKeys.insertIfNotPresent key).2}} := onProxy_solo rfl

theorem register_solo {request_id : Int} {f : ThreadSafeUnorderedMap → Except Fault (α × ThreadSafeUnorderedMap)}
    {r : ThreadSafeUnorderedMap} (ran : f s.proxy.runningKeys = .ok (a,r)) :
    Solo (register request_id promise f) s a
      {s with proxy:={s.proxy with runningKeys:=r},registered:=s.registered ++ [(request_id,promise)]} := by
  apply Prog.Serial.atomic
  rw [ran]

-- The two locked sections of insert and removeKey, one after the other.
theorem insertReal_solo (free : s.bstMutex = false) (ran : s.proxy.insertReal key = .ok q) :
    Solo (insertReal key) s () {s with proxy:=q} := by
  unfold Proxy.insertReal at ran
  split at ran
  · cases ran
  · rename_i bst inserted
    cases ran
    refine (onTree_solo _ free).bind (onStamps_solo ?_)
    dsimp only
    rw [(FrequencySmoother.insert_sections _ _).mpr inserted]
    rfl

theorem removeReal_solo (free : s.bstMutex = false) (ran : s.proxy.removeReal key = .ok q) :
    Solo (removeReal key) s () {s with proxy:=q} := by
  unfold Proxy.removeReal at ran
  split at ran
  · cases ran
  · rename_i bst removed
    cases ran
    refine (onTree_solo _ free).bind (onStamps_solo ?_)
    dsimp only
    rw [(FrequencySmoother.removeKey_sections _ _).mpr removed]
    rfl

theorem remove_oldest_data_solo (free : s.bstMutex = false) (ran : s.proxy.remove_oldest_data batch key = .ok (q,after)) :
    Solo (remove_oldest_data batch key) s after {s with proxy:=q} := by
  unfold Proxy.remove_oldest_data at ran
  obtain ⟨⟨oldest,bst⟩,found,rest⟩ := bind_ok ran
  unfold remove_oldest_data
  refine (onProxy_solo (a:=oldest) (q:={s.proxy with realBst:=bst}) ?_).bind ?_
  · rw [found]
    rfl
  refine (look_solo _ _).bind ((look_solo _ _).bind ?_)
  dsimp only at rest ⊢
  generalize evicted : (if evictedValue s.proxy.EvictedItems oldest ≠ [] then 2
    else if (s.proxy.cache.getValueWithoutPositionChangeNew oldest).2 = true then 1 else 0) = state at rest ⊢
  split
  · rename_i none
    rw [if_pos none] at rest
    cases rest
    exact (insertIfNotPresent_solo _ _).bind ((change_solo _ _).bind .ret)
  · rename_i some_
    rw [if_neg some_] at rest
    split
    · rename_i one
      rw [if_pos one] at rest
      obtain ⟨m,removed,same⟩ := bind_ok rest
      cases same
      exact (change_solo _ _).bind ((removeReal_solo (by exact free) removed).bind .ret)
    · rename_i two
      rw [if_neg two] at rest
      obtain ⟨m,removed,same⟩ := bind_ok rest
      cases same
      exact (change_solo _ _).bind ((removeReal_solo (by exact free) removed).bind .ret)

theorem requestKey_solo {request_id : Int} (free : s.bstMutex = false)
    (ran : s.proxy.requestKey batch key promise request_id = .ok (q,after)) :
    ∃ entries, Solo (requestKey promise request_id batch key) s after {s with proxy:=q,registered:=entries} := by
  unfold Proxy.requestKey at ran
  have known : Solo (onTree (fun bst => (bst.checkIfUniqueItemWithTimeStampExists key,bst))) s
      (s.proxy.realBst.checkIfUniqueItemWithTimeStampExists key) s := onTree_solo _ free
  unfold requestKey
  split at ran
  · rename_i unknown
    obtain ⟨qs,set,same⟩ := bind_ok ran
    cases same
    refine ⟨s.registered,known.bind ?_⟩
    rw [if_pos unknown]
    exact (set_value_solo set).bind .ret
  · rename_i live
    generalize fetched : s.proxy.cache.getValueWithoutPositionChangeNew key = pair at ran
    obtain ⟨val,isPresentInCache⟩ := pair
    have looked := look_solo (fun p => p.cache.getValueWithoutPositionChangeNew key) s
    have left := look_solo (fun p => evictedValue p.EvictedItems key) s
    rw [fetched] at looked
    dsimp only at ran
    refine ⟨s.registered ++ [(request_id,promise)],known.bind ?_⟩
    rw [if_neg live]
    refine looked.bind (left.bind ?_)
    split at ran
    · rename_i cached
      obtain ⟨running,registered,same⟩ := bind_ok ran
      cases same
      rw [if_pos cached]
      refine (register_solo (a:=()) (r:=running) ?_).bind .ret
      rw [registered]
      rfl
    · rename_i uncached
      rw [if_neg uncached]
      split at ran
      · rename_i evicted
        obtain ⟨running,registered,same⟩ := bind_ok ran
        cases same
        rw [if_pos evicted]
        refine (register_solo (a:=()) (r:=running) ?_).bind .ret
        rw [registered]
        rfl
      · rename_i unevicted
        cases ran
        rw [if_neg unevicted]
        exact (register_solo rfl).bind .ret

theorem storeKey_solo {value : Str} (free : s.bstMutex = false)
    (ran : s.proxy.storeKey batch key value promise = .ok (q,after)) :
    Solo (storeKey promise batch key value) s after {s with proxy:=q} := by
  unfold Proxy.storeKey at ran
  obtain ⟨⟨m,left⟩,retired,rest⟩ := bind_ok ran
  obtain ⟨n,inserted,last⟩ := bind_ok rest
  obtain ⟨qs,set,same⟩ := bind_ok last
  cases same
  unfold storeKey
  refine (remove_oldest_data_solo free retired).bind ((change_solo _ _).bind ?_)
  refine (insertReal_solo (by exact free) inserted).bind ((look_solo _ _).bind ?_)
  refine (setFrequency_solo key _ (by exact free)).bind ((look_solo _ _).bind ?_)
  exact (set_value_solo set).bind .ret

theorem readKeys_solo (env : Env) (keys : List Str) (free : s.bstMutex = false) :
    Solo (readKeys env keys) s (TsWaffle.readKeys env s.proxy.timeStamp keys s.proxy.realBst).1
      {s with proxy:={s.proxy with realBst:=(TsWaffle.readKeys env s.proxy.timeStamp keys s.proxy.realBst).2}} := by
  induction keys generalizing s with
  | nil => exact .ret
  | cons key rest ih =>
    refine (getFrequency_solo key free).bind ((look_solo _ _).bind ?_)
    exact (setFrequency_solo key _ (by exact free)).bind ((ih (by exact free)).bind .ret)

theorem fill_solo {count : Nat} {entries : List Entry} {keys : List Str} {running : ThreadSafeUnorderedMap}
    (ran : TsWaffle.fill s.proxy.cache s.proxy.EvictedItems count entries s.proxy.runningKeys = .ok (keys,running)) :
    Solo (fill count entries) s keys {s with proxy:={s.proxy with runningKeys:=running}} := by
  induction entries generalizing s count keys running with
  | nil =>
    cases count with
    | zero =>
      cases ran
      exact .ret
    | succ count => cases ran
  | cons it rest ih =>
    cases count with
    | zero =>
      cases ran
      exact .ret
    | succ count =>
      rw [TsWaffle.fill] at ran
      rw [fill]
      refine (look_solo _ _).bind ?_
      cases cached : s.proxy.cache.checkIfKeyExists it.key with
      | true =>
        rw [if_neg (by simp [cached])] at ran
        exact ih ran
      | false =>
        refine (look_solo _ _).bind ?_
        by_cases evicted : it.key ∈ s.proxy.EvictedItems
        · rw [if_neg (by simp [evicted])] at ran
          rw [if_pos (decide_eq_true evicted)]
          exact ih ran
        · rw [if_pos ⟨cached,evicted⟩] at ran
          rw [if_neg (by simp [evicted])]
          refine (insertIfNotPresent_solo _ _).bind ?_
          dsimp only at ran ⊢
          split at ran
          · rename_i busy
            rw [if_pos busy]
            exact ih ran
          · rename_i idle
            rw [if_neg idle]
            obtain ⟨⟨more,last⟩,tail,same⟩ := bind_ok ran
            cases same
            exact Prog.Serial.bind (ih tail) .ret

theorem readFakes_solo {attempts n : Nat} {rows : List (Str × Str)} {fakeBst : FrequencySmoother}
    {running : ThreadSafeUnorderedMap} (enough : n ≤ attempts)
    (ran : TsWaffle.readFakes env s.proxy.timeStamp n s.proxy.fakeBst s.proxy.runningKeys = .ok (rows,fakeBst,running)) :
    Solo (readFakes env attempts n) s rows {s with proxy:={s.proxy with fakeBst:=fakeBst,runningKeys:=running}} := by
  induction n generalizing s attempts rows fakeBst running with
  | zero =>
    cases ran
    cases attempts <;> exact .ret
  | succ n ih =>
    obtain ⟨attempts,rfl⟩ := Nat.exists_eq_add_of_le' (Nat.le_trans (Nat.le_add_left 1 n) enough)
    unfold TsWaffle.readFakes at ran
    unfold readFakes
    split at ran
    · cases ran
    · rename_i fakeMin more shape
      refine (onProxy_solo (a:=fakeMin.key) (q:=s.proxy) ?_).bind ((insertIfNotPresent_solo _ _).bind ?_)
      · dsimp only
        rw [shape]
      dsimp only at ran ⊢
      split at ran
      · cases ran
      · rename_i idle
        rw [if_neg idle]
        obtain ⟨⟨later,bst,last⟩,tail,same⟩ := bind_ok ran
        cases same
        refine (onProxy_solo rfl).bind ((look_solo _ _).bind ((onProxy_solo rfl).bind ?_))
        exact Prog.Serial.bind (ih (by omega) tail) .ret

def locals (w : WriteBack) : Written := ⟨w.writeBatch,w.promiseSatisfy,w.tempEvictedItems⟩

theorem writeReal_solo {seed : Nat} {response : Str} {w v : WriteBack} (free : s.bstMutex = false)
    (ran : TsWaffle.writeReal env seed key response w = .ok v) :
    Solo (writeReal env seed key response (locals w)) {s with proxy:=w.proxy} (locals v) {s with proxy:=v.proxy} := by
  unfold TsWaffle.writeReal at ran
  unfold writeReal
  refine (onProxy_solo (a:=w.proxy.cache.evictLRElementFromCache.1) (q:={w.proxy with
    cache:=w.proxy.cache.evictLRElementFromCache.2,EvictedItems:=w.proxy.EvictedItems.insert
      w.proxy.cache.evictLRElementFromCache.1.1 w.proxy.cache.evictLRElementFromCache.1.2}) rfl).bind ?_
  refine (getFrequency_solo _ (by exact free)).bind ((look_solo _ _).bind ?_)
  dsimp only at ran ⊢
  split at ran
  · rename_i doomed
    obtain ⟨m,removed,same⟩ := bind_ok ran
    cases same
    rw [if_pos (decide_eq_true doomed)]
    exact (removeReal_solo (by exact free) removed).bind ((change_solo _ _).bind .ret)
  · rename_i stays
    cases ran
    rw [if_neg (by simpa using stays)]
    refine (look_solo _ _).bind ?_
    dsimp only
    cases cached : w.proxy.cache.evictLRElementFromCache.2.checkIfKeyExists key with
    | true =>
      refine (look_solo _ _).bind ?_
      exact (change_solo _ _).bind .ret
    | false =>
      refine Prog.Serial.bind .ret ?_
      exact (change_solo _ _).bind .ret

theorem writeBack_solo {round : Round} {readBatchMap : Table Str Str} {real i : Nat} {rows : List (Str × Str)}
    {w v : WriteBack} (free : s.bstMutex = false)
    (ran : TsWaffle.writeBack cfg env round.toChoice readBatchMap real i rows w = .ok v) :
    Solo (writeBack cfg env round readBatchMap real i rows (locals w)) {s with proxy:=w.proxy} (locals v)
      {s with proxy:=v.proxy} := by
  induction rows generalizing i w with
  | nil =>
    cases ran
    exact .ret
  | cons row rest ih =>
    obtain ⟨stKey,response⟩ := row
    unfold TsWaffle.writeBack at ran
    rw [writeBack]
    dsimp only at ran ⊢
    split at ran
    · rename_i inReal
      obtain ⟨m,one,tail⟩ := bind_ok ran
      rw [if_pos inReal]
      exact (writeReal_solo free one).bind (ih tail)
    · rename_i inFakes
      rw [if_neg inFakes]
      refine Prog.Serial.bind ?_ (ih ran)
      exact (onProxy_solo rfl).bind .ret

theorem eraseEvicted_solo (keys : List Str) (s : Shared) :
    Solo (eraseEvicted keys) s () {s with proxy:={s.proxy with EvictedItems:=s.proxy.EvictedItems.eraseAll keys}} := by
  induction keys generalizing s with
  | nil => exact .ret
  | cons key rest ih => exact (change_solo _ _).bind (ih _)

theorem deliver_solo {value : Str → Str} {keys : List Str} {running : ThreadSafeUnorderedMap} {promises : Promises}
    (ran : s.proxy.runningKeys.deliver s.proxy.promises value keys = .ok (running,promises)) :
    Solo (deliver value keys) s () {s with proxy:={s.proxy with runningKeys:=running,promises:=promises}} := by
  induction keys generalizing s with
  | nil =>
    cases ran
    exact .ret
  | cons key rest ih =>
    unfold ThreadSafeUnorderedMap.deliver at ran
    obtain ⟨⟨m,ps⟩,one,tail⟩ := bind_ok ran
    refine (onProxy_solo (a:=()) (q:={s.proxy with runningKeys:=m,promises:=ps}) ?_).bind (ih tail)
    rw [one]
    rfl

theorem lock_solo (free : s.bstMutex = false) :
    Solo lock s s.proxy.realBst.accessTree.toList {s with bstMutex:=true} := by
  apply Prog.Serial.atomic
  rw [if_neg (by rw [free]; exact Bool.noConfusion)]

theorem unlock_solo : Solo unlock s () {s with bstMutex:=false} := .atomic rfl

-- The rounds of clearThread that come between two steps of the consumer.
theorem clearRounds_solo {c : Thread α} {a : α} {t : Shared} (n : Nat)
    (ran : Solo c {s with proxy:=s.proxy.clearRounds n} a t) : Solo c s a t := by
  induction n generalizing s with
  | zero => exact ran
  | succ n ih => exact .outside .clear (ih ran)

theorem execute_batch_solo {round : Round} {operations : List Str} (enough : cfg.F ≤ round.attempts)
    (free : s.bstMutex = false) (ran : TsWaffle.execute_batch cfg env round.toChoice operations s.proxy = .ok q) :
    Solo (execute_batch cfg env round operations) s () {s with proxy:=q} := by
  obtain ⟨proxy,queues,bstMutex,handed,queries,registered⟩ := s
  dsimp only at free ran
  subst free
  obtain ⟨stages,followed⟩ := execute_batch_returned ran
  let asked : Proxy := {proxy with timeStamp:=proxy.timeStamp+1,realBst:=stages.requested.2}
  let topped : Proxy := {asked with realBst:=stages.topping.2,runningKeys:=stages.topped}
  let fetched : Proxy := {topped with fakeBst:=stages.fakeBst,runningKeys:=stages.widened,
                                      calls:=proxy.calls ++ [⟨.get_batch,proxy.timeStamp+1,stages.labels⟩]}
  have reads : Solo (readKeys env operations)
      ⟨{proxy with timeStamp:=proxy.timeStamp+1},queues,false,handed,queries,registered⟩
      stages.requested.1 ⟨asked,queues,false,handed,queries,registered⟩ := readKeys_solo env operations rfl
  have fills := fill_solo (s:=⟨asked,queues,true,handed,queries,registered⟩) followed.fills
  have tops : Solo (readKeys env stages.filled)
      ⟨{asked with runningKeys:=stages.topped},queues,false,handed,queries,registered⟩
      stages.topping.1 ⟨topped,queues,false,handed,queries,registered⟩ := readKeys_solo env stages.filled rfl
  have fakes := readFakes_solo (s:=⟨topped,queues,false,handed,queries,registered⟩) enough followed.fakes
  unfold execute_batch
  refine (change_solo _ _).bind (reads.bind ((lock_solo rfl).bind (fills.bind (unlock_solo.bind ?_))))
  refine tops.bind (fakes.bind ((onProxy_solo (a:=stages.responses) (q:=fetched) ?_).bind ?_))
  · change (Proxy.fetchAll proxy.storage stages.labels >>= _) = _
    rw [followed.replies]
    rfl
  refine clearRounds_solo round.clears ?_
  have writes := writeBack_solo (s:=⟨stages.middle,queues,false,handed,queries,registered⟩) rfl followed.writes
  have erases := eraseEvicted_solo (round.order stages.w.tempEvictedItems.dedup)
    ⟨stages.w.proxy.put_batch stages.w.writeBatch,queues,false,handed,queries,registered⟩
  have same : ∀ items : Table Str Str, items.eraseAll (round.order stages.w.tempEvictedItems.dedup) =
      items.eraseAll stages.w.tempEvictedItems := by
    intro items
    rw [Table.eraseAll_perm items (round.ordered _),Table.eraseAll_dedup]
  rw [same] at erases
  refine Prog.Serial.bind writes ((change_solo _ _).bind (erases.bind ((deliver_solo followed.delivers).bind ?_)))
  rw [followed.result]
  exact change_solo _ _

variable {a b : Server}

theorem requestKeys_solo (keys : List Str) (free : s.bstMutex = false) (ran : Server.requestKeys promise keys a = .ok b) :
    ∃ entries, Solo (requestKeys promise a.request_id keys a.storage_batch a.i) {s with proxy:=a.proxy}
      (b.storage_batch,b.i) {s with proxy:=b.proxy,registered:=entries} ∧
      b.request_id = a.request_id ∧ b.requests = a.requests := by
  induction keys generalizing s a with
  | nil =>
    cases ran
    exact ⟨s.registered,.ret,rfl,rfl⟩
  | cons key rest ih =>
    unfold Server.requestKeys at ran
    obtain ⟨⟨p,more⟩,one,tail⟩ := bind_ok ran
    rw [Proxy.create_security_batch,if_pos rfl] at one
    obtain ⟨entries,first⟩ := requestKey_solo (s:={s with proxy:=a.proxy}) free one
    obtain ⟨last,later,counter,requests⟩ := ih (s:={s with registered:=entries}) free tail
    refine ⟨last,?_,counter,requests⟩
    rw [requestKeys,create_security_batch,if_pos rfl]
    exact first.bind later

theorem serve_solo (id : Nat) {r : Request} (rest : List (Operation × Nat)) (free : s.bstMutex = false)
    (head : s.operation_queues_[id]? = some ((r.operation,a.requests.length) :: rest)) (ran : a.serve r = .ok b) :
    ∃ queries entries, Solo (serve id ⟨a.storage_batch,a.i,a.request_id⟩) {s with proxy:=a.proxy}
      ⟨b.storage_batch,b.i,b.request_id⟩
      {s with proxy:=b.proxy,operation_queues_:=s.operation_queues_.set id rest,queries:=queries,registered:=entries} ∧
      b.requests = a.requests ++ [r] ∧ (∀ g ∈ s.queries, g ∈ queries) ∧
      (r.operation.value = [] → ∃ g ∈ queries, g.promise = a.requests.length) := by
  have pops : Solo (pop id) {s with proxy:=a.proxy} (r.operation,a.requests.length)
      {s with proxy:=a.proxy,operation_queues_:=s.operation_queues_.set id rest} := by
    apply Prog.Serial.atomic
    dsimp only
    rw [head]
  rcases serve_returned ran with ⟨asked,keys,bst,m,split,requested,rfl⟩ | ⟨stored,p,more,one,rfl⟩
  · let query : Query := ⟨a.requests.length,a.request_id,keys⟩
    have splits : Solo (get_split_keys a.requests.length a.request_id r.operation.key)
        {s with proxy:=a.proxy,operation_queues_:=s.operation_queues_.set id rest} keys
        {s with proxy:={a.proxy with realBst:=bst},operation_queues_:=s.operation_queues_.set id rest,
                queries:=s.queries ++ [query]} := by
      apply Prog.Serial.atomic
      dsimp only
      rw [split]
    obtain ⟨entries,all,counter,requests⟩ := requestKeys_solo
      (s:={s with operation_queues_:=s.operation_queues_.set id rest,queries:=s.queries ++ [query]}) keys free requested
    refine ⟨s.queries ++ [query],entries,pops.bind ?_,requests,?_,fun _ => ⟨query,by simp,rfl⟩⟩
    swap
    · intro g member
      exact List.mem_append_left _ member
    dsimp only
    rw [if_pos asked]
    refine splits.bind (all.bind ?_)
    rw [counter]
    exact .ret
  · refine ⟨s.queries,s.registered,pops.bind ?_,rfl,fun _ member => member,fun asked => absurd asked stored⟩
    dsimp only
    rw [if_neg stored,create_security_batch,if_neg stored]
    exact (storeKey_solo (by exact free) one).bind .ret

theorem close_solo (round : Round) (enough : cfg.F ≤ round.attempts) (free : s.bstMutex = false)
    (ran : a.close cfg env round.toChoice = .ok b) :
    Solo (close cfg env round ⟨a.storage_batch,a.i,a.request_id⟩) {s with proxy:=a.proxy}
      ⟨b.storage_batch,b.i,b.request_id⟩ {s with proxy:=b.proxy} ∧ b.requests = a.requests := by
  obtain ⟨swept,promises,p,sweeps,executed,rfl⟩ := close_returned ran
  refine ⟨?_,rfl⟩
  unfold close
  refine (onProxy_solo (a:=()) (q:={a.proxy with runningKeys:=swept,promises:=promises}) ?_).bind ?_
  · dsimp only
    rw [sweeps]
    rfl
  exact (execute_batch_solo enough (by exact free) executed).bind .ret

-- The system stands where the sequential server does: the consumer i is at the
-- head of its loop, no request is left in a queue, and every GET has been split.
structure Mirrors {num_cores : Nat} (i : Fin num_cores) (a : Server)
    (s : State (Fin num_cores) Shared Stop Locals) : Prop where
  proxy : s.shared.proxy = a.proxy
  locals : s.threads i = .ret ⟨a.storage_batch,a.i,a.request_id⟩
  unlocked : s.shared.bstMutex = false
  queues : s.shared.operation_queues_ = List.replicate num_cores []
  handed : s.shared.handed = a.requests.length
  asked : ∀ n r, a.requests[n]? = some r → r.operation.value = [] → ∃ g ∈ s.shared.queries, g.promise = n

-- The tests consumer_thread makes before it serves and before it closes.
def Turn (cfg : Config) (a : Server) : Server.Action → Prop
  | .serve r => a.i < cfg.R ∧ r.WellFormed
  | .close _ => cfg.R ≤ a.i
  | .clear => True

section
variable {num_cores : Nat} {i : Fin num_cores} {start : Proxy} {t : State (Fin num_cores) Shared Stop Locals}

theorem push_replicate {ν : Type} (i : Fin num_cores) (item : ν) :
    (List.replicate num_cores []).modify (i % num_cores) (fun queue => queue ++ [item]) =
      (List.replicate num_cores []).set i [item] := by
  rw [Nat.mod_eq_of_lt i.isLt]
  apply List.ext_getElem?
  intro j
  rw [List.getElem?_modify,List.getElem?_set,List.length_replicate,if_pos i.isLt,List.getElem?_replicate]
  split
  · rename_i same
    rw [← same,if_pos i.isLt]
    rfl
  · exact id_map' _

-- A client gives the request to the consumer, and the consumer takes it.
theorem serve_reached {r : Request} (reached : Reached cfg env num_cores start t) (mirrors : Mirrors i a t)
    (room : a.i < cfg.R) (wf : r.WellFormed) (ran : a.serve r = .ok b) :
    ∃ u, Reached cfg env num_cores start u ∧ Mirrors i b u := by
  have pushed := reached.step (.outside (.push i r wf))
  rw [mirrors.queues,mirrors.handed,List.length_replicate,push_replicate] at pushed
  have begun := pushed.step (.next i plainRound mirrors.locals)
  obtain ⟨queries,entries,solo,requests,kept,split⟩ := serve_solo i []
    (s:={t.shared with operation_queues_:=(List.replicate num_cores []).set i [(r.operation,a.requests.length)],
                       handed:=a.requests.length+1}) mirrors.unlocked (by simp) ran
  have serving : consumer_thread cfg env i ⟨a.storage_batch,a.i,a.request_id⟩ plainRound =
      serve i ⟨a.storage_batch,a.i,a.request_id⟩ := if_pos room
  have ended := begun.serial i (Function.update_self ..) rfl (by
    rw [serving]
    have here := solo
    rw [← mirrors.proxy] at here
    exact here)
  refine ⟨_,ended,rfl,Function.update_self ..,mirrors.unlocked,?_,?_,?_⟩
  · dsimp only
    rw [List.set_set,List.set_replicate_self]
  · dsimp only
    rw [requests,List.length_append,List.length_singleton]
  · intro n other found get
    rw [requests,List.getElem?_append] at found
    split at found
    · obtain ⟨g,member,same⟩ := mirrors.asked n other found get
      exact ⟨g,kept g member,same⟩
    · rename_i late
      rw [List.getElem?_singleton] at found
      split at found
      · cases found
        obtain ⟨g,member,same⟩ := split get
        exact ⟨g,member,by omega⟩
      · cases found

theorem close_reached {choice : Choice} (reached : Reached cfg env num_cores start t) (mirrors : Mirrors i a t)
    (full : cfg.R ≤ a.i) (ran : a.close cfg env choice = .ok b) :
    ∃ u, Reached cfg env num_cores start u ∧ Mirrors i b u := by
  let round : Round := {choice with attempts:=cfg.F}
  obtain ⟨solo,requests⟩ := close_solo (s:=t.shared) round le_rfl mirrors.unlocked ran
  have begun := reached.step (.next i round mirrors.locals)
  have closing : consumer_thread cfg env i ⟨a.storage_batch,a.i,a.request_id⟩ round =
      close cfg env round ⟨a.storage_batch,a.i,a.request_id⟩ := if_neg (by simpa using full)
  have ended := begun.serial i (Function.update_self ..) rfl (by
    rw [closing]
    have here := solo
    rw [← mirrors.proxy] at here
    exact here)
  refine ⟨_,ended,rfl,Function.update_self ..,mirrors.unlocked,mirrors.queues,?_,?_⟩
  · rw [requests]
    exact mirrors.handed
  · rw [requests]
    exact mirrors.asked

theorem step_reached {action : Server.Action} (reached : Reached cfg env num_cores start t) (mirrors : Mirrors i a t)
    (turn : Turn cfg a action) (ran : Server.step cfg env a action = .ok b) :
    ∃ u, Reached cfg env num_cores start u ∧ Mirrors i b u := by
  cases action with
  | serve r => exact serve_reached reached mirrors turn.1 turn.2 ran
  | close choice => exact close_reached reached mirrors turn ran
  | clear =>
    cases ran
    refine ⟨_,reached.step (.outside .clear),?_,mirrors.locals,mirrors.unlocked,mirrors.queues,
      mirrors.handed,mirrors.asked⟩
    dsimp only
    rw [mirrors.proxy]

-- Every run of the sequential server is a run of the consumers' system, whatever
-- their number: one of them works and the others stay at the head of their loops.
theorem run_reached (actions : List Server.Action) (reached : Reached cfg env num_cores start t) (mirrors : Mirrors i a t)
    (turns : Admissible (Server.step cfg env) (Turn cfg) a actions) (ran : run (Server.step cfg env) a actions = .ok b) :
    ∃ u, Reached cfg env num_cores start u ∧ Mirrors i b u := by
  induction actions generalizing a t with
  | nil =>
    cases ran
    exact ⟨t,reached,mirrors⟩
  | cons action rest ih =>
    obtain ⟨next,stepped,tail⟩ := run_uncons ran
    obtain ⟨u,further,mirrored⟩ := step_reached reached mirrors turns.1 stepped
    exact ih further mirrored (turns.2 next stepped) tail

theorem init_mirrors {draws : Draws} {pairs : List (Str × Str)} (i : Fin num_cores)
    (ran : init cfg env draws pairs = .ok a) : Mirrors i a (started num_cores a.proxy) := by
  obtain ⟨_,_,_,_,_,_,_,_,_,_,_,rfl,_⟩ := init_parts cfg draws ran
  exact ⟨rfl,rfl,rfl,rfl,rfl,nofun⟩

-- What the system of one consumer keeps holds of the sequential server: no GET is
-- answered with the text for an invalid key.
theorem run_sums {draws : Draws} {pairs : List (Str × Str)} {actions : List Server.Action} {r : Request} {n : Nat}
    {answer : Answer} (loadable : Loadable pairs) (loaded : init cfg env draws pairs = .ok a)
    (turns : Admissible (Server.step cfg env) (Turn cfg) a actions) (ran : run (Server.step cfg env) a actions = .ok b)
    (asked : b.requests[n]? = some r) (get : r.operation.value = []) (answered : b.proxy.promises.find? n = some answer) :
    ∃ pairs, answer = .sum pairs := by
  obtain ⟨u,reached,mirrors⟩ := run_reached actions .start (init_mirrors (0 : Fin 1) loaded) turns ran
  have isolated := alone_isolated (init_calm loadable loaded) reached
  obtain ⟨g,member,rfl⟩ := mirrors.asked n r asked get
  rw [← mirrors.proxy] at answered
  obtain ⟨pairs,sum,_⟩ := isolated.answers g member answer answered
  exact ⟨pairs,sum⟩

end

end TsWaffle.Interleaving
