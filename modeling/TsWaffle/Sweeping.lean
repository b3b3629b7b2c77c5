import TsWaffle.Dispatching

namespace TsWaffle
open Text Runs
variable {cfg : Config} {env : Env} {p q : Proxy} {s t : Server} {batch after : List Str} {key : Str} {promise : Nat}

-- A step that has nothing to do with the storage server or with clearThread.
structure Unstored (p q : Proxy) : Prop where
  storage : q.storage = p.storage
  calls : q.calls = p.calls
  queue : q.keysNotUsed = p.keysNotUsed

theorem Unstored.refl (p : Proxy) : Unstored p p := ⟨rfl,rfl,rfl⟩

theorem Unstored.trans {r : Proxy} (one : Unstored p q) (two : Unstored q r) : Unstored p r :=
  ⟨two.storage.trans one.storage,two.calls.trans one.calls,two.queue.trans one.queue⟩

theorem Requested.unstored {request_id : Int} (done : Requested p batch key promise request_id q after) : Unstored p q := by
  cases done <;> exact ⟨rfl,rfl,rfl⟩

theorem Retired.unstored (done : Retired p batch key oldest bst q after) : Unstored p q := by
  cases done <;> exact ⟨rfl,rfl,rfl⟩

theorem storeKey_unstored (ran : p.storeKey batch key value promise = .ok (q,after)) : Unstored p q := by
  obtain ⟨oldest,bst,m,promises,_,retired,_,rfl,_⟩ := storeKey_returned ran
  exact retired.unstored.trans ⟨rfl,rfl,rfl⟩

theorem requestKeys_unstored (keys : List Str) (ran : Server.requestKeys promise keys s = .ok t) : Unstored s.proxy t.proxy :=
  requestKeys_rule (I:=fun p _ => Unstored s.proxy p) keys (fun _ _ _ _ _ _ _ done before => before.trans done.unstored)
    (.refl s.proxy) ran

theorem dispatch_unstored {op : Operation} (ran : dispatch s promise op = .ok t) : Unstored s.proxy t.proxy := by
  unfold dispatch at ran
  split at ran
  · obtain ⟨⟨keys,bst⟩,_,ran⟩ := bind_ok ran
    obtain ⟨m,asked,same⟩ := bind_ok ran
    cases same
    exact Unstored.trans (q:={s.proxy with realBst:=bst}) ⟨rfl,rfl,rfl⟩ (requestKeys_unstored keys asked)
  · rename_i filled
    obtain ⟨⟨p,more⟩,stored,same⟩ := bind_ok ran
    cases same
    unfold Proxy.create_security_batch at stored
    rw [if_neg filled] at stored
    exact storeKey_unstored stored

theorem writeReal_unstored {w v : WriteBack} (ran : writeReal env seed key response w = .ok v) : Unstored w.proxy v.proxy := by
  unfold writeReal at ran
  dsimp only at ran
  split at ran
  · obtain ⟨p,removed,same⟩ := bind_ok ran
    obtain ⟨shape,_⟩ := removeReal_returned removed
    cases same
    subst shape
    exact ⟨rfl,rfl,rfl⟩
  · cases ran
    exact ⟨rfl,rfl,rfl⟩

theorem writeBack_unstored (cfg : Config) (choice : Choice) (readBatchMap : Table Str Str) (real i : Nat)
    (rows : List (Str × Str)) {w v : WriteBack} (ran : writeBack cfg env choice readBatchMap real i rows w = .ok v) :
    Unstored w.proxy v.proxy := by
  induction rows generalizing i w with
  | nil =>
    cases ran
    exact .refl _
  | cons row rest ih =>
    unfold writeBack at ran
    split at ran
    · obtain ⟨next,stepped,tail⟩ := bind_ok ran
      exact (writeReal_unstored stepped).trans (ih _ tail)
    · obtain ⟨next,same,tail⟩ := bind_ok ran
      cases same
      refine Unstored.trans ?_ (ih _ (w:=writeFake cfg env (choice.seeds i) (choice.draws i) _ row.2 w) tail)
      exact ⟨rfl,rfl,rfl⟩

-- A property of what the storage holds, of the calls made so far, of the rows that
-- wait for clearThread and of those a batch has read and not put there yet, kept by
-- each of the proxy's dealings with them.
structure Closed (I : Table Str Str → List StorageCall → List (List Str) → List Str → Prop) : Prop where
  put : ∀ {m calls queue reading} batch rows, I m calls queue reading →
    I (m.insertAll rows) (calls ++ [⟨.put_batch,batch,rows.map Prod.fst⟩]) queue reading
  get : ∀ {m calls queue} batch labels, I m calls queue [] → I m (calls ++ [⟨.get_batch,batch,labels⟩]) queue labels
  queued : ∀ {m calls queue reading}, I m calls queue reading → I m calls (queue ++ [reading]) []
  delete : ∀ {m calls row queue reading} batch, I m calls (row :: queue) reading →
    I (m.eraseAll row) (calls ++ [⟨.delete_batch,batch,row⟩]) queue reading
  skip : ∀ {m calls queue reading}, I m calls ([] :: queue) reading → I m calls queue reading

namespace Closed
variable {I : Table Str Str → List StorageCall → List (List Str) → List Str → Prop} {reading : List Str}

theorem unstored (unstored : Unstored p q) (holds : I p.storage p.calls p.keysNotUsed reading) :
    I q.storage q.calls q.keysNotUsed reading := by
  rw [unstored.storage,unstored.calls,unstored.queue]
  exact holds

theorem clearThread (closed : Closed I) (holds : I p.storage p.calls p.keysNotUsed reading) :
    I p.clearThread.storage p.clearThread.calls p.clearThread.keysNotUsed reading := by
  unfold Proxy.clearThread
  split
  · exact holds
  · rename_i row rest queue
    rw [queue] at holds
    dsimp only
    split
    · exact closed.delete p.timeStamp holds
    · rename_i empty
      rw [List.length_eq_zero_iff.mp (Nat.eq_zero_of_not_pos empty)] at holds
      exact closed.skip holds

theorem clearRounds (closed : Closed I) (n : Nat) (holds : I p.storage p.calls p.keysNotUsed reading) :
    I (Proxy.clearRounds n p).storage (Proxy.clearRounds n p).calls (Proxy.clearRounds n p).keysNotUsed reading := by
  induction n generalizing p with
  | zero => exact holds
  | succ n ih => exact ih (closed.clearThread holds)

theorem execute_batch {choice : Choice} {operations : List Str} (closed : Closed I)
    (holds : I p.storage p.calls p.keysNotUsed [])
    (ran : execute_batch cfg env choice operations p = .ok q) : I q.storage q.calls q.keysNotUsed [] := by
  obtain ⟨stages,followed⟩ := execute_batch_returned ran
  have middle : I stages.middle.storage stages.middle.calls stages.middle.keysNotUsed stages.labels :=
    closed.clearRounds choice.clears (closed.get (p.timeStamp+1) stages.labels holds)
  have written := unstored (writeBack_unstored cfg choice _ _ _ _ followed.writes) middle
  rw [followed.result]
  exact closed.queued (closed.put stages.w.proxy.timeStamp stages.w.writeBatch written)

theorem close {choice : Choice} (closed : Closed I) (holds : I s.proxy.storage s.proxy.calls s.proxy.keysNotUsed [])
    (ran : s.close cfg env choice = .ok t) : I t.proxy.storage t.proxy.calls t.proxy.keysNotUsed [] := by
  obtain ⟨running,promises,p,_,executed,rfl⟩ := close_returned ran
  exact closed.execute_batch (p:={s.proxy with runningKeys:=running,promises:=promises}) holds executed

theorem upload (closed : Closed I) (n : Nat) (rows final : List (Str × Str))
    (holds : I p.storage p.calls p.keysNotUsed []) :
    I (upload n rows final p).storage (upload n rows final p).calls (upload n rows final p).keysNotUsed [] := by
  induction rows generalizing final p with
  | nil =>
    unfold TsWaffle.upload
    split
    · exact closed.put p.timeStamp final holds
    · exact holds
  | cons row rest ih =>
    unfold TsWaffle.upload
    dsimp only
    split
    · exact ih _ (closed.put p.timeStamp _ holds)
    · exact ih _ holds

theorem init {draws : Draws} {pairs : List (Str × Str)} (closed : Closed I) (nothing : I ∅ [] [] [])
    (ran : init cfg env draws pairs = .ok s) : I s.proxy.storage s.proxy.calls s.proxy.keysNotUsed [] := by
  unfold TsWaffle.init at ran
  obtain ⟨⟨realBst,keyValueMap⟩,_,ran⟩ := bind_ok ran
  obtain ⟨⟨chosen,realBst,keyValueMap⟩,_,ran⟩ := bind_ok ran
  obtain ⟨⟨fakeBst,keyValueMap⟩,_,ran⟩ := bind_ok ran
  cases ran
  exact closed.upload _ _ _ nothing

-- One step of the server's threads, and one step of the server with its queue.
theorem step {action : Server.Action} (closed : Closed I) (holds : I s.proxy.storage s.proxy.calls s.proxy.keysNotUsed [])
    (ran : Server.step cfg env s action = .ok t) : I t.proxy.storage t.proxy.calls t.proxy.keysNotUsed [] := by
  cases action with
  | serve r =>
    have served : s.serve r = .ok t := ran
    rw [serve_dispatch] at served
    exact unstored (dispatch_unstored (s:={s with requests:=s.requests ++ [r]}) served) holds
  | close choice => exact closed.close holds ran
  | clear =>
    cases ran
    exact closed.clearThread holds

theorem front_step {st next : Front} (event : Event) (closed : Closed I)
    (holds : I st.server.proxy.storage st.server.proxy.calls st.server.proxy.keysNotUsed [])
    (ran : Front.step cfg env st event = .ok next) :
    I next.server.proxy.storage next.server.proxy.calls next.server.proxy.keysNotUsed [] := by
  cases event with
  | receive message =>
    obtain ⟨operations,_,same⟩ := bind_ok ran
    cases same
    exact holds
  | pop =>
    unfold Front.step at ran
    dsimp only at ran
    split at ran
    · cases ran
      exact holds
    · obtain ⟨server,dispatched,same⟩ := bind_ok ran
      cases same
      exact unstored (dispatch_unstored dispatched) holds
  | close choice =>
    obtain ⟨server,closes,same⟩ := bind_ok ran
    cases same
    exact closed.close holds closes
  | clear =>
    cases ran
    exact closed.clearThread holds

theorem run (actions : List Server.Action) (closed : Closed I)
    (holds : I s.proxy.storage s.proxy.calls s.proxy.keysNotUsed [])
    (ran : run (Server.step cfg env) s actions = .ok t) : I t.proxy.storage t.proxy.calls t.proxy.keysNotUsed [] := by
  induction actions generalizing s with
  | nil =>
    cases ran
    exact holds
  | cons action rest ih =>
    obtain ⟨next,stepped,tail⟩ := run_uncons ran
    exact ih (closed.step holds stepped) tail

theorem front_run {st last : Front} (events : List Event) (closed : Closed I)
    (holds : I st.server.proxy.storage st.server.proxy.calls st.server.proxy.keysNotUsed [])
    (ran : Runs.run (Front.step cfg env) st events = .ok last) :
    I last.server.proxy.storage last.server.proxy.calls last.server.proxy.keysNotUsed [] := by
  induction events generalizing st with
  | nil =>
    cases ran
    exact holds
  | cons event rest ih =>
    obtain ⟨next,stepped,tail⟩ := run_uncons ran
    exact ih (closed.front_step event holds stepped) tail

end Closed

-- The labels a call leaves in the storage.
def StorageCall.apply (held : Finset Str) (c : StorageCall) : Finset Str :=
  match c.op with
  | .put_batch => held ∪ c.labels.toFinset
  | .get_batch => held
  | .delete_batch => held \ c.labels.toFinset

-- What the storage holds, told from the calls it has received.
def replay (calls : List StorageCall) : Finset Str := calls.foldl StorageCall.apply ∅

theorem replay_append (calls : List StorageCall) (c : StorageCall) : replay (calls ++ [c]) = c.apply (replay calls) :=
  List.foldl_append

-- Everything read is deleted, waits to be deleted, or is still being read, in the
-- order it was read in; and the storage holds what its calls say.
structure Swept (m : Table Str Str) (calls : List StorageCall) (queue : List (List Str)) (reading : List Str) : Prop where
  order : logged .get_batch calls = logged .delete_batch calls ++ queue.flatten ++ reading
  held : ∀ l, l ∈ m ↔ l ∈ replay calls

theorem swept_start : Swept ∅ [] [] [] := by
  refine ⟨rfl,?_⟩
  intro l
  simp [replay]

theorem swept_closed : Closed Swept := by
  refine ⟨?_,?_,?_,?_,?_⟩
  · intro m calls queue reading batch rows swept
    refine ⟨?_,?_⟩
    · simpa [logged] using swept.order
    · intro l
      simp only [replay_append,StorageCall.apply,Table.mem_insertAll,Finset.mem_union,List.mem_toFinset,swept.held l]
      exact or_comm
  · intro m calls queue batch labels swept
    refine ⟨?_,?_⟩
    · have order := swept.order
      rw [List.append_nil] at order
      simp only [logged_append,order]
      simp [logged]
    · intro l
      rw [replay_append]
      exact swept.held l
  · intro m calls queue reading swept
    refine ⟨?_,swept.held⟩
    simpa using swept.order
  · intro m calls row queue reading batch swept
    refine ⟨?_,?_⟩
    · have order := swept.order
      rw [List.flatten_cons] at order
      simp only [logged_append,order]
      simp [logged]
    · intro l
      simp only [replay_append,StorageCall.apply,Table.mem_iff,Table.find_eraseAll,Finset.mem_sdiff,List.mem_toFinset,
        ← swept.held l]
      by_cases listed : l ∈ row <;> simp [listed]
  · intro m calls queue reading swept
    exact ⟨swept.order,swept.held⟩

-- Between two batches nothing is being read.
def Tidy (p : Proxy) : Prop := Swept p.storage p.calls p.keysNotUsed []

-- Whatever the clients send and whenever the threads step: what has been read is
-- deleted in the order of its reading, each label at most as often as it was read,
-- and the storage can be told from its calls.
theorem reads_swept_in_order {draws : Draws} {pairs : List (Str × Str)} (started : init cfg env draws pairs = .ok s)
    (events : List Event) (ran : run (Front.step cfg env) ⟨s,[],0⟩ events = .ok last) :
    logged .get_batch last.server.proxy.calls =
        logged .delete_batch last.server.proxy.calls ++ last.server.proxy.keysNotUsed.flatten ∧
      ∀ l, l ∈ last.server.proxy.storage ↔ l ∈ replay last.server.proxy.calls := by
  have swept := swept_closed.front_run events (swept_closed.init swept_start started) ran
  exact ⟨by simpa using swept.order,swept.held⟩

def sweptEvents : List Event := mixedEvents ++ [.close sampleChoice,.close sampleChoice,.clear]

def sweptFront : Front :=
  (run (Front.step sampleConfig sampleEnv) ⟨sampleServer,[],0⟩ sweptEvents).toOption.get (by decide +kernel)

theorem sweptFront_ran : run (Front.step sampleConfig sampleEnv) ⟨sampleServer,[],0⟩ sweptEvents = .ok sweptFront :=
  toOption_get _

theorem sample_reads_swept :
    logged .get_batch sweptFront.server.proxy.calls =
        logged .delete_batch sweptFront.server.proxy.calls ++ sweptFront.server.proxy.keysNotUsed.flatten ∧
      (logged .delete_batch sweptFront.server.proxy.calls).length = 6 :=
  ⟨(reads_swept_in_order sampleStarted.ran sweptEvents sweptFront_ran).1,by decide +kernel⟩

end TsWaffle
