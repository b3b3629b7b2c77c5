import TsWaffle.Spreading
import TsWaffle.Dispatching

namespace TsWaffle
open Text Runs Server
variable {cfg : Config} {env : Env} {s t : Server} {st next : Front} {pairs : List (Str × Str)} {draws : Draws} {width : Nat}
  {requests : List Request} {future : List Operation}

-- The server does not look at the requests it has recorded.
def Server.recording (s : Server) (asked : List Request) : Server := {s with requests:=asked}

theorem requestKeys_recording (promise : Nat) (keys : List Str) (s : Server) (asked : List Request) :
    requestKeys promise keys (s.recording asked) = (requestKeys promise keys s).map (·.recording asked) := by
  induction keys generalizing s with
  | nil => rfl
  | cons key rest ih =>
    have proxy : (s.recording asked).proxy = s.proxy := rfl
    have batch : (s.recording asked).storage_batch = s.storage_batch := rfl
    have id : (s.recording asked).request_id = s.request_id := rfl
    rw [requestKeys,requestKeys,proxy,batch,id]
    cases s.proxy.create_security_batch s.storage_batch ⟨key,[]⟩ promise s.request_id with
    | error fault => rfl
    | ok next => exact ih {s with proxy:=next.1,storage_batch:=next.2,i:=s.i+1}

theorem dispatch_recording (s : Server) (promise : Nat) (op : Operation) (asked : List Request) :
    dispatch (s.recording asked) promise op = (dispatch s promise op).map (·.recording asked) := by
  have proxy : (s.recording asked).proxy = s.proxy := rfl
  have batch : (s.recording asked).storage_batch = s.storage_batch := rfl
  unfold dispatch
  rw [proxy,batch]
  split
  · cases get_split_keys s.proxy.realBst op.key with
    | error fault => rfl
    | ok read =>
      have keys := requestKeys_recording promise read.1 {s with proxy:={s.proxy with realBst:=read.2}} asked
      simp only [bind,Except.bind,Server.recording] at keys ⊢
      rw [keys]
      cases requestKeys promise read.1 {s with proxy:={s.proxy with realBst:=read.2}} <;> rfl
  · cases s.proxy.create_security_batch s.storage_batch op promise (-1) <;> rfl

theorem close_recording (s : Server) (choice : Choice) (asked : List Request) :
    (s.recording asked).close cfg env choice = (s.close cfg env choice).map (·.recording asked) := by
  have proxy : (s.recording asked).proxy = s.proxy := rfl
  have batch : (s.recording asked).storage_batch = s.storage_batch := rfl
  unfold Server.close
  rw [proxy,batch]
  cases s.proxy.runningKeys.tryClearAllPromises s.proxy.promises choice.walk with
  | error fault => rfl
  | ok swept =>
    simp only [bind,Except.bind]
    cases execute_batch cfg env choice s.storage_batch {s.proxy with runningKeys:=swept.1,promises:=swept.2} <;> rfl

-- What an event puts on the queue.
def Event.operations : Event → List Operation
  | .receive message => message.operations.toOption.getD []
  | _ => []

-- The loops of consumer_thread over a queue that messages arrive on.
def Attended (cfg : Config) (st : Front) : Event → Prop
  | .receive _ => True
  | .pop => st.server.i < cfg.R
  | .close _ => cfg.R ≤ st.server.i
  | .clear => True

instance : ∀ event, Decidable (Attended cfg st event)
  | .receive _ => inferInstanceAs (Decidable True)
  | .pop => inferInstanceAs (Decidable (_ < _))
  | .close _ => inferInstanceAs (Decidable (_ ≤ _))
  | .clear => inferInstanceAs (Decidable True)

-- Every message's loop over its keys comes to its end.
def Whole (event : Event) : Prop := ∀ message, event = .receive message → message.operations.toOption.isSome = true

-- The front is a server that has been given the requests it has popped; what waits
-- in the queue and what is still to come are the requests after them.
structure Mirrors (requests : List Request) (future : List Operation) (st : Front) (s : Server) : Prop where
  same : ∃ asked, st.server = s.recording asked
  popped : st.popped = s.requests.length
  plan : ∃ waiting, requests = s.requests ++ waiting ∧ waiting.map Request.operation = st.queue ++ future

-- The server's part in an event: nothing, or one of its actions.
structure Keeps (cfg : Config) (env : Env) (pairs : List (Str × Str)) (width : Nat) (requests : List Request)
    (future : List Operation) (s : Server) (next : Front) (actions : List Action) (t : Server) : Prop where
  paced : Admissible (step cfg env) (Paced cfg) s actions
  ran : run (step cfg env) s actions = .ok t
  sound : Sound cfg env t
  flowing : Flowing cfg pairs width t
  mirrors : Mirrors requests future next t

theorem Flowing.one (lawful : env.Lawful) (flowing : Flowing cfg pairs width s) (sound : Sound cfg env s)
    (ample : Ample cfg pairs width) (paced : Paced cfg s action)
    (workload : Workload cfg.R pairs s.requests (requested [action])) :
    ∃ t, step cfg env s action = .ok t ∧ Admissible (step cfg env) (Paced cfg) s [action] ∧
      run (step cfg env) s [action] = .ok t ∧ Sound cfg env t ∧ Flowing cfg pairs width t ∧
      t.requests = s.requests ++ requested [action] := by
  obtain ⟨_,t,ran,after,still,popped⟩ := flowing.next lawful sound ample paced workload
  exact ⟨t,ran,⟨paced,fun _ _ => trivial⟩,by rw [run_cons ran]; rfl,after,still,popped⟩

theorem Mirrors.pop (lawful : env.Lawful) (ample : Ample cfg pairs width) (sound : Sound cfg env s)
    (flowing : Flowing cfg pairs width s) (workload : Workload cfg.R pairs [] requests) (mirrors : Mirrors requests future st s)
    (early : st.server.i < cfg.R) :
    ∃ next actions t, Front.step cfg env st .pop = .ok next ∧ Keeps cfg env pairs width requests future s next actions t := by
  obtain ⟨asked,same⟩ := mirrors.same
  obtain ⟨waiting,whole,queued⟩ := mirrors.plan
  obtain ⟨server,queue,popped⟩ := st
  dsimp only at same queued early
  cases queue with
  | nil => exact ⟨_,[],s,rfl,trivial,rfl,sound,flowing,mirrors⟩
  | cons op rest =>
    cases waiting with
    | nil => cases queued
    | cons q later =>
      obtain ⟨first,others⟩ := List.cons.inj queued
      have paced : Paced cfg s (.serve q) := by
        rw [same] at early
        exact early
      rw [whole,workload_append] at workload
      obtain ⟨t,ran,one,ran',after,still,grown⟩ := flowing.one lawful sound ample paced ⟨workload.2.1,trivial⟩
      have served : dispatch server popped op = .ok (t.recording asked) := by
        have dispatched := dispatch_recording {s with requests:=s.requests ++ [q]} s.requests.length q.operation asked
        rw [← serve_dispatch,show s.serve q = .ok t from ran,first,← mirrors.popped] at dispatched
        rw [same]
        exact dispatched
      refine ⟨⟨t.recording asked,rest,popped+1⟩,[.serve q],t,?_,one,ran',after,still,⟨asked,rfl⟩,?_,later,?_,others⟩
      · simp only [Front.step,served,bind,Except.bind,pure,Except.pure]
      · rw [grown,List.length_append,← mirrors.popped]
        rfl
      · rw [whole,grown,List.append_assoc]
        rfl

theorem Mirrors.close (lawful : env.Lawful) (ample : Ample cfg pairs width) (sound : Sound cfg env s)
    (flowing : Flowing cfg pairs width s) (mirrors : Mirrors requests future st s) (full : cfg.R ≤ st.server.i)
    (choice : Choice) :
    ∃ next t, Front.step cfg env st (.close choice) = .ok next ∧
      Keeps cfg env pairs width requests future s next [.close choice] t := by
  obtain ⟨asked,same⟩ := mirrors.same
  have paced : Paced cfg s (.close choice) := by
    rw [same] at full
    exact full
  obtain ⟨t,ran,one,ran',after,still,grown⟩ := flowing.one lawful sound ample paced trivial
  have closed : st.server.close cfg env choice = .ok (t.recording asked) := by
    rw [same,close_recording,show s.close cfg env choice = .ok t from ran]
    rfl
  have kept : t.requests = s.requests := by simpa [requested] using grown
  refine ⟨{st with server:=t.recording asked},t,?_,one,ran',after,still,⟨asked,rfl⟩,?_,?_⟩
  · simp only [Front.step,closed,bind,Except.bind,pure,Except.pure]
  · rw [kept]
    exact mirrors.popped
  · rw [kept]
    exact mirrors.plan

theorem Mirrors.clear (lawful : env.Lawful) (ample : Ample cfg pairs width) (sound : Sound cfg env s)
    (flowing : Flowing cfg pairs width s) (mirrors : Mirrors requests future st s) :
    ∃ next t, Front.step cfg env st .clear = .ok next ∧ Keeps cfg env pairs width requests future s next [.clear] t := by
  obtain ⟨asked,same⟩ := mirrors.same
  have paced : Paced cfg s .clear := trivial
  obtain ⟨t,ran,one,ran',after,still,_⟩ := flowing.one lawful sound ample paced trivial
  cases ran
  refine ⟨_,_,rfl,one,ran',after,still,⟨asked,?_⟩,mirrors.popped,mirrors.plan⟩
  rw [same]
  rfl

theorem Mirrors.receive {message : Message} (sound : Sound cfg env s) (flowing : Flowing cfg pairs width s)
    (mirrors : Mirrors requests (Event.operations (.receive message) ++ future) st s)
    (whole : message.operations.toOption.isSome = true) :
    ∃ next, Front.step cfg env st (.receive message) = .ok next ∧ Keeps cfg env pairs width requests future s next [] s := by
  obtain ⟨waiting,split,queued⟩ := mirrors.plan
  cases received : message.operations with
  | error fault => simp [received,Except.toOption] at whole
  | ok operations =>
    refine ⟨{st with queue:=st.queue ++ operations},?_,trivial,rfl,sound,flowing,mirrors.same,mirrors.popped,waiting,split,?_⟩
    · simp only [Front.step,received,bind,Except.bind,pure,Except.pure]
    · rw [queued,List.append_assoc]
      simp [Event.operations,received,Except.toOption]

theorem Mirrors.step (lawful : env.Lawful) (ample : Ample cfg pairs width) (event : Event) (sound : Sound cfg env s)
    (flowing : Flowing cfg pairs width s) (workload : Workload cfg.R pairs [] requests)
    (mirrors : Mirrors requests (event.operations ++ future) st s) (attended : Attended cfg st event) (whole : Whole event) :
    ∃ next actions t, Front.step cfg env st event = .ok next ∧
      Keeps cfg env pairs width requests future s next actions t := by
  cases event with
  | receive message =>
    obtain ⟨next,stepped,keeps⟩ := mirrors.receive sound flowing (whole message rfl)
    exact ⟨next,[],s,stepped,keeps⟩
  | pop => exact mirrors.pop lawful ample sound flowing workload attended
  | close choice =>
    obtain ⟨next,t,stepped,keeps⟩ := Mirrors.close lawful ample sound flowing mirrors attended choice
    exact ⟨next,[.close choice],t,stepped,keeps⟩
  | clear =>
    obtain ⟨next,t,stepped,keeps⟩ := Mirrors.clear lawful ample sound flowing mirrors
    exact ⟨next,[.clear],t,stepped,keeps⟩

theorem Keeps.trans {first later : List Action} {u : Server} {middle last : Front} {some_ : List Operation}
    (one : Keeps cfg env pairs width requests some_ s middle first t)
    (two : Keeps cfg env pairs width requests future t last later u) :
    Keeps cfg env pairs width requests future s last (first ++ later) u := by
  obtain ⟨paced,ran⟩ := run_chain first later one.paced one.ran two.paced two.ran
  exact ⟨paced,ran,two.sound,two.flowing,two.mirrors⟩

theorem Mirrors.run (lawful : env.Lawful) (ample : Ample cfg pairs width) (events : List Event) (sound : Sound cfg env s)
    (flowing : Flowing cfg pairs width s) (workload : Workload cfg.R pairs [] requests)
    (mirrors : Mirrors requests (events.flatMap Event.operations ++ future) st s)
    (attended : Admissible (Front.step cfg env) (Attended cfg) st events) (whole : ∀ event ∈ events, Whole event) :
    ∃ next actions t, Runs.run (Front.step cfg env) st events = .ok next ∧
      Keeps cfg env pairs width requests future s next actions t := by
  induction events generalizing st s with
  | nil => exact ⟨st,[],s,rfl,trivial,rfl,sound,flowing,mirrors⟩
  | cons event rest ih =>
    rw [List.flatMap_cons,List.append_assoc] at mirrors
    obtain ⟨middle,first,t,stepped,one⟩ := mirrors.step lawful ample event sound flowing workload attended.1
      (whole event List.mem_cons_self)
    obtain ⟨last,later,u,ran,two⟩ := ih one.sound one.flowing one.mirrors (attended.2 middle stepped)
      (fun other member => whole other (List.mem_cons_of_mem _ member))
    exact ⟨last,first ++ later,u,by rw [run_cons stepped]; exact ran,one.trans two⟩

theorem Started.mirrors (started : Started cfg env draws pairs s) (sent : requests.map Request.operation = future) :
    Mirrors requests future ⟨s,[],0⟩ s := by
  have unasked := started.initial.unasked
  refine ⟨⟨s.requests,rfl⟩,?_,requests,?_,sent⟩
  · rw [unasked]
    rfl
  · rw [unasked]
    rfl

-- However the messages arrive between the steps of the consumer, and whatever part
-- of them has arrived, at the end of a batch exactly the operations popped are answered.
theorem played_answered (started : Started cfg env draws pairs s) (ample : Ample cfg pairs width) (events : List Event)
    (choice : Choice) (workload : Workload cfg.R pairs [] requests)
    (whole : ∀ event ∈ events, Whole event)
    (sent : events.flatMap Event.operations ++ future = requests.map Request.operation)
    (attended : Admissible (Front.step cfg env) (Attended cfg) ⟨s,[],0⟩ (events ++ [.close choice])) :
    ∃ last, Runs.run (Front.step cfg env) ⟨s,[],0⟩ (events ++ [.close choice]) = .ok last ∧
      last.queue ++ future = (requests.drop last.popped).map Request.operation ∧
      (∀ n, n ∈ last.server.proxy.promises ↔ n < last.popped) ∧
      ∀ n item a b, n < last.popped → requests[n]? = some (.get item a b) → last.server.proxy.promises.find? n =
        some (.sum (((Reference.load pairs).after (requests.take n)).answer item a b)) := by
  obtain ⟨before,finally_⟩ := attended.append
  obtain ⟨middle,first,m,ran,one⟩ := (started.mirrors sent.symm).run started.lawful ample events
    started.sound started.flowing workload before whole
  obtain ⟨last,t,stepped,two⟩ :=
    Mirrors.close started.lawful ample one.sound one.flowing one.mirrors (finally_ middle ran).1 choice
  have both := one.trans two
  obtain ⟨waiting,split,queued⟩ := both.mirrors.plan
  have unasked := started.initial.unasked
  have grown := run_requests _ both.ran
  rw [unasked,List.nil_append] at grown
  rw [grown] at split
  have asked : Workload cfg.R pairs s.requests (requested (first ++ [.close choice])) := by
    rw [split,workload_append] at workload
    rw [unasked]
    exact workload.1
  have refining := flowing_run started.lawful ample _ started.sound started.flowing both.paced asked
  obtain ⟨u,same,_,answered⟩ := refining_answered started _ refining
  rw [both.ran] at same
  cases same
  obtain ⟨promised,sums⟩ := answered (.inr ⟨first,choice,rfl⟩)
  obtain ⟨asked,recorded⟩ := both.mirrors.same
  have promises : last.server.proxy.promises = t.proxy.promises := by rw [recorded]; rfl
  have count : last.popped = (requested (first ++ [.close choice])).length := by rw [both.mirrors.popped,grown]
  refine ⟨last,?_,?_,?_,?_⟩
  · rw [run_append,ran]
    exact (run_cons stepped).trans rfl
  · rw [split,count,List.drop_left,queued]
  · rw [promises,count]
    exact promised
  · intro n item a b below get
    rw [count] at below
    rw [promises]
    have inside : (requested (first ++ [.close choice]))[n]? = some (.get item a b) := by
      rwa [split,List.getElem?_append_left below] at get
    rw [sums n item a b inside,split,List.take_append_of_le_length (by omega)]

end TsWaffle
