import TsWaffle.Responder
import TsWaffle.Lib.Runs
import TsWaffle.Lib.Table
import TsWaffle.Lib.Places

namespace TsWaffle.Connecting
open Text Runs Places
open Responder (Kind SequenceId Call Sent Waiter Aligned collect tupleOf)

-- A client and the handler of its connection. client_id_ is what get_client_id
-- gave it; handling is a call that the handler has queued the futures of, but not
-- yet the sequence_id. received and failed count what was written to the connection
-- and what the transport threw on.
structure Connection where
  client_id_ : Option Int
  registered : Bool
  sequence_num : Int
  handling : Option Nat
  received : List Sent
  failed : Nat

structure State where
  client_id_gen_ : Int
  clients_ : Table Int Nat
  connections : List Connection
  responder : Responder.State

-- getHandler's, before the client's init has gone on.
def accepted : Connection := ⟨none,false,0,none,[],0⟩

-- An int64_t, which fetch_add wraps and which nothing initializes.
def wrap (x : Int) : Int := x.bmod (2^64)

def start (first : Int) : State := ⟨wrap first,∅,[],Responder.start⟩

-- The steps of a client's init, of the handler threads and of the responder
-- thread. A connection's next request is read when its last has been handled.
inductive Action where
  | connect
  | get_client_id (c : Nat)
  | register_client_id (c : Nat)
  | request (c : Nat) (kind : Kind) (keys : Nat)
  | sequence (c : Nat)
  | take
  | send (fails : Bool)

def Connection.async_response (m : Sent) (fails : Bool) (x : Connection) : Connection :=
  if fails then {x with failed:=x.failed+1} else {x with received:=x.received ++ [m]}

-- Both early ends print a line.
def async_respond_client (s : State) (m : Sent) (fails : Bool) : State :=
  if m.seq.client_id = -1 then s
  else
    match s.clients_.find? m.seq.client_id with
    | none => s
    | some c => {s with connections:=s.connections.modify c (Connection.async_response m fails)}

-- The hash map keeps the first of two clients with one id.
def add_client (m : Table Int Nat) (client_id : Int) (c : Nat) : Table Int Nat :=
  if client_id ∈ m then m else m.insert client_id c

def step (future : Waiter → Str) (s : State) : Action → Except Fault State
  | .connect => .ok {s with connections:=s.connections ++ [accepted]}
  | .get_client_id c =>
    match s.connections[c]? with
    | some x =>
      if x.client_id_ = none then
        .ok {s with client_id_gen_:=wrap (s.client_id_gen_+1),
                    connections:=s.connections.set c {x with client_id_:=some s.client_id_gen_}}
      else .error .diverges
    | none => .error .diverges
  | .register_client_id c =>
    match s.connections[c]? with
    | some x =>
      match x.client_id_,x.registered with
      | some id,false =>
        .ok {s with clients_:=add_client s.clients_ id c,connections:=s.connections.set c {x with registered:=true}}
      | _,_ => .error .diverges
    | none => .error .diverges
  | .request c kind keys =>
    match s.connections[c]? with
    | some x =>
      match x.client_id_,x.registered,x.handling with
      | some id,true,none =>
        match Responder.step future s.responder (.respond ⟨kind,⟨id,x.sequence_num,0⟩,keys⟩) with
        | some responder =>
          .ok {s with responder,
                      connections:=s.connections.set c
                        {x with sequence_num:=x.sequence_num+1,
                                handling:=if kind.pushesSequence then some s.responder.calls.length else none}}
        | none => .error .diverges
      | _,_,_ => .error .diverges
    | none => .error .diverges
  | .sequence c =>
    match s.connections[c]? with
    | some x =>
      match x.handling with
      | some call =>
        match Responder.step future s.responder (.sequence call) with
        | some responder => .ok {s with responder,connections:=s.connections.set c {x with handling:=none}}
        | none => .error .diverges
      | none => .error .diverges
    | none => .error .diverges
  | .take =>
    match Responder.step future s.responder .take with
    | some responder => .ok {s with responder}
    | none => .error .diverges
  | .send fails =>
    match Responder.step future s.responder .send with
    | some responder =>
      match responder.sent.getLast? with
      | some m => .ok (async_respond_client {s with responder} m fails)
      | none => .error .diverges
    | none => .error .diverges

variable {future : Waiter → Str} {s next : State} {c d : Nat} {kind : Kind} {keys : Nat} {x y : Connection}
  {first id : Int} {who : Option Int × Bool} {fails : Bool}

-- What each step can do.
theorem get_client_id_ran (ran : step future s (.get_client_id c) = .ok next) :
    ∃ x, s.connections[c]? = some x ∧ x.client_id_ = none ∧
      next = {s with client_id_gen_:=wrap (s.client_id_gen_+1),
                     connections:=s.connections.set c {x with client_id_:=some s.client_id_gen_}} := by
  simp only [step] at ran
  split at ran
  · split at ran
    · cases ran
      exact ⟨_,‹_›,‹_›,rfl⟩
    · cases ran
  · cases ran

theorem register_client_id_ran (ran : step future s (.register_client_id c) = .ok next) :
    ∃ x id, s.connections[c]? = some x ∧ x.client_id_ = some id ∧ x.registered = false ∧
      next = {s with clients_:=add_client s.clients_ id c,connections:=s.connections.set c {x with registered:=true}} := by
  simp only [step] at ran
  split at ran
  · split at ran
    · cases ran
      exact ⟨_,_,‹_›,‹_›,‹_›,rfl⟩
    · cases ran
  · cases ran

theorem request_ran (ran : step future s (.request c kind keys) = .ok next) :
    ∃ x id responder, s.connections[c]? = some x ∧ x.client_id_ = some id ∧ x.registered = true ∧ x.handling = none ∧
      Responder.step future s.responder (.respond ⟨kind,⟨id,x.sequence_num,0⟩,keys⟩) = some responder ∧
      next = {s with responder,
                     connections:=s.connections.set c
                       {x with sequence_num:=x.sequence_num+1,
                               handling:=if kind.pushesSequence then some s.responder.calls.length else none}} := by
  simp only [step] at ran
  split at ran
  · split at ran
    · split at ran
      · cases ran
        exact ⟨_,_,_,‹_›,‹_›,‹_›,‹_›,‹_›,rfl⟩
      · cases ran
    · cases ran
  · cases ran

theorem sequence_ran (ran : step future s (.sequence c) = .ok next) :
    ∃ x call responder, s.connections[c]? = some x ∧ x.handling = some call ∧
      Responder.step future s.responder (.sequence call) = some responder ∧
      next = {s with responder,connections:=s.connections.set c {x with handling:=none}} := by
  simp only [step] at ran
  split at ran
  · split at ran
    · split at ran
      · cases ran
        exact ⟨_,_,_,‹_›,‹_›,‹_›,rfl⟩
      · cases ran
    · cases ran
  · cases ran

theorem take_ran (ran : step future s .take = .ok next) :
    ∃ responder, Responder.step future s.responder .take = some responder ∧ next = {s with responder} := by
  simp only [step] at ran
  split at ran
  · cases ran
    exact ⟨_,‹_›,rfl⟩
  · cases ran

theorem send_ran (ran : step future s (.send fails) = .ok next) :
    ∃ responder m, Responder.step future s.responder .send = some responder ∧ responder.sent.getLast? = some m ∧
      next = async_respond_client {s with responder} m fails := by
  simp only [step] at ran
  split at ran
  · split at ran
    · cases ran
      exact ⟨_,_,‹_›,‹_›,rfl⟩
    · cases ran
  · cases ran

-- Who has which id, and who has registered.
def State.ids (s : State) : List (Option Int × Bool) := s.connections.map (fun x => (x.client_id_,x.registered))

def drawnBy (ids : List (Option Int × Bool)) : Nat := ids.countP (fun who => who.1.isSome)

structure Identified (first gen : Int) (clients_ : Table Int Nat) (ids : List (Option Int × Bool)) : Prop where
  coming : gen = wrap (first+drawnBy ids)
  drawn : ∀ (c : Nat) id registered, ids[c]? = some (some id,registered) → ∃ i < drawnBy ids, id = wrap (first+i)
  apart : ∀ (c d : Nat) id registered other, ids[c]? = some (some id,registered) → ids[d]? = some (some id,other) → c = d
  listed : ∀ (c : Nat) id, clients_.find? id = some c ↔ ids[c]? = some (some id,true)
  named : ∀ c : Nat, ids[c]? ≠ some (none,true)

variable {gen : Int} {clients_ : Table Int Nat} {ids : List (Option Int × Bool)}

theorem ids_at : s.ids[c]? = some who ↔ ∃ x, s.connections[c]? = some x ∧ (x.client_id_,x.registered) = who := by
  unfold State.ids
  rw [List.getElem?_map,Option.map_eq_some_iff]

-- Fewer than 2^64 draws apart, no id comes twice.
theorem wrap_inj {i j : Nat} (below : i < 2^64) (under : j < 2^64) (same : wrap (first+i) = wrap (first+j)) : i = j := by
  have cancelled := (Int.bmod_add_cancel_left first).mp same
  simp only [Int.bmod_def] at cancelled
  split at cancelled <;> split at cancelled <;> omega

theorem wrap_next (i : Nat) : wrap (wrap (first+i)+1) = wrap (first+(i+1 : Nat)) := by
  unfold wrap
  rw [Int.bmod_add_bmod,Nat.cast_succ,add_assoc]

theorem start_identified (first : Int) : Identified first (wrap first) ∅ [] := by
  refine ⟨by simp [drawnBy],?_,?_,?_,?_⟩
  · intro c id registered at_
    cases at_
  · intro c d id registered other at_
    cases at_
  · intro c id
    constructor
    · intro found
      cases found
    · intro at_
      cases at_
  · intro c at_
    cases at_

theorem Identified.connected (valid : Identified first gen clients_ ids) :
    Identified first gen clients_ (ids ++ [(none,false)]) := by
  have count : drawnBy (ids ++ [(none,false)]) = drawnBy ids := by simp [drawnBy]
  have old : ∀ {c : Nat} {id : Int} {registered : Bool}, (ids ++ [(none,false)])[c]? = some (some id,registered) →
      ids[c]? = some (some id,registered) := by
    intro c id registered at_
    rcases lt_or_ge c ids.length with below | above
    · rwa [List.getElem?_append_left below] at at_
    · rw [List.getElem?_append_right above,List.getElem?_singleton] at at_
      split at at_ <;> cases at_
  have still : ∀ {c : Nat} {who : Option Int × Bool}, ids[c]? = some who → (ids ++ [(none,false)])[c]? = some who := by
    intro c who at_
    obtain ⟨below,_⟩ := List.getElem?_eq_some_iff.mp at_
    rw [List.getElem?_append_left below]
    exact at_
  refine ⟨?_,?_,?_,?_,?_⟩
  · rw [count]
    exact valid.coming
  · intro c id registered at_
    rw [count]
    exact valid.drawn c id registered (old at_)
  · intro c d id registered other one two
    exact valid.apart c d id registered other (old one) (old two)
  · intro c id
    exact (valid.listed c id).trans ⟨still,old⟩
  · intro c at_
    rcases lt_or_ge c ids.length with below | above
    · rw [List.getElem?_append_left below] at at_
      exact valid.named c at_
    · rw [List.getElem?_append_right above,List.getElem?_singleton] at at_
      split at at_ <;> cases at_

-- The id that comes next is nobody's.
theorem Identified.unused (valid : Identified first gen clients_ ids) (few : drawnBy ids < 2^64) (registered : Bool) :
    ids[c]? ≠ some (some gen,registered) := by
  intro at_
  obtain ⟨i,below,drawn⟩ := valid.drawn c gen registered at_
  rw [valid.coming] at drawn
  have same := wrap_inj few (below.trans few) drawn
  omega

theorem drawnBy_lt (at_ : ids[c]? = some (none,false)) (few : ids.length ≤ 2^64) : drawnBy ids < 2^64 := by
  have member := List.mem_of_getElem? at_
  have least : drawnBy ids < ids.length := by
    refine lt_of_le_of_ne List.countP_le_length ?_
    intro all
    have drew := List.countP_eq_length.mp all _ member
    cases drew
  omega

theorem Identified.gave (valid : Identified first gen clients_ ids) (at_ : ids[c]? = some (none,false))
    (few : ids.length ≤ 2^64) : Identified first (wrap (gen+1)) clients_ (ids.set c (some gen,false)) := by
  have unused : ∀ {c : Nat} {registered : Bool}, ids[c]? ≠ some (some gen,registered) := fun {c} {registered} =>
    valid.unused (drawnBy_lt at_ few) registered
  have count : drawnBy (ids.set c (some gen,false)) = drawnBy ids+1 := by
    have moved := count_moved at_ (some gen,false) (fun who => who.1.isSome)
    simpa [drawnBy] using moved
  refine ⟨?_,?_,?_,?_,?_⟩
  · rw [count,valid.coming,wrap_next]
  · intro d id registered now
    rw [count]
    obtain ⟨_,drew⟩ | ⟨_,before⟩ := moved_cases now
    · cases drew
      exact ⟨drawnBy ids,Nat.lt_succ_self _,valid.coming⟩
    · obtain ⟨i,below,drawn⟩ := valid.drawn d id registered before
      exact ⟨i,Nat.lt_succ_of_lt below,drawn⟩
  · intro d e id registered other one two
    obtain ⟨first_,drew⟩ | ⟨_,before⟩ := moved_cases one
    · cases drew
      obtain ⟨second,_⟩ | ⟨_,held⟩ := moved_cases two
      · exact first_.trans second.symm
      · exact absurd held unused
    · obtain ⟨_,drew⟩ | ⟨_,held⟩ := moved_cases two
      · cases drew
        exact absurd before unused
      · exact valid.apart d e id registered other before held
  · intro d id
    rw [valid.listed]
    by_cases same : d = c
    · subst same
      rw [at_,at_moved at_]
      simp
    · rw [at_others same]
  · intro d now
    obtain ⟨_,drew⟩ | ⟨_,before⟩ := moved_cases now
    · cases drew
    · exact valid.named d before

theorem Identified.enrolled (valid : Identified first gen clients_ ids) (at_ : ids[c]? = some (some id,false)) :
    Identified first gen (add_client clients_ id c) (ids.set c (some id,true)) := by
  have count : drawnBy (ids.set c (some id,true)) = drawnBy ids := by
    have moved := count_moved at_ (some id,true) (fun who => who.1.isSome)
    simpa [drawnBy] using moved
  have was : ∀ {d : Nat} {other : Int} {registered : Bool}, (ids.set c (some id,true))[d]? = some (some other,registered) →
      ∃ before, ids[d]? = some (some other,before) := by
    intro d other registered now
    obtain ⟨rfl,drew⟩ | ⟨_,before⟩ := moved_cases now
    · cases drew
      exact ⟨false,at_⟩
    · exact ⟨registered,before⟩
  have absent : id ∉ clients_ := by
    intro member
    obtain ⟨d,found⟩ := Table.mem_iff.mp member
    have listed := (valid.listed d id).mp found
    obtain rfl := valid.apart c d id _ _ at_ listed
    rw [at_] at listed
    cases listed
  refine ⟨?_,?_,?_,?_,?_⟩
  · rw [count]
    exact valid.coming
  · intro d other registered now
    rw [count]
    obtain ⟨before,held⟩ := was now
    exact valid.drawn d other before held
  · intro d e other registered still one two
    obtain ⟨_,held⟩ := was one
    obtain ⟨_,kept⟩ := was two
    exact valid.apart d e other _ _ held kept
  · intro d other
    unfold add_client
    rw [if_neg absent,Table.find_insert]
    by_cases mine : other = id
    · subst mine
      simp only [if_true]
      constructor
      · intro found
        cases found
        exact at_moved at_ _
      · intro now
        obtain ⟨same,_⟩ | ⟨_,before⟩ := moved_cases now
        · rw [same]
        · rw [valid.apart c d other _ _ at_ before]
    · rw [if_neg mine,valid.listed]
      by_cases same : d = c
      · subst same
        rw [at_,at_moved at_]
        simp [Ne.symm mine]
      · rw [at_others same]
  · intro d now
    obtain ⟨_,drew⟩ | ⟨_,before⟩ := moved_cases now
    · cases drew
    · exact valid.named d before

-- What the responder has of one client: its requests, the sequence_ids pushed for
-- them and the responses under them.
def requestsOf (r : Responder.State) (id : Int) : List Call := r.calls.filter (fun call => call.seq_id.client_id = id)

def sequences (r : Responder.State) : List SequenceId := r.sent.map Sent.seq ++ r.sequence_queue_

def sequencesOf (r : Responder.State) (id : Int) : List SequenceId := (sequences r).filter (fun seq => seq.client_id = id)

def sentTo (r : Responder.State) (id : Int) : List Sent := r.sent.filter (fun m => m.seq.client_id = id)

def pending (r : Responder.State) (x : Connection) : List SequenceId :=
  (x.handling.bind (r.calls[·]?)).toList.map Call.seq_id

def numbers (id : Int) (n : Nat) : List SequenceId := (List.range n).map (fun k => ⟨id,k,0⟩)

variable {r after : Responder.State} {call : Nat} {m : Sent}

structure Story (r : Responder.State) (id : Int) (x : Connection) : Prop where
  numbered : (requestsOf r id).map Call.seq_id = numbers id (requestsOf r id).length
  counted : x.sequence_num = (requestsOf r id).length
  begun : ∀ call, x.handling = some call → ∃ c, r.calls[call]? = some c ∧ c.seq_id.client_id = id
  pushed : sequencesOf r id ++ pending r x = ((requestsOf r id).filter (·.kind.pushesSequence)).map Call.seq_id
  delivered : id ≠ -1 → x.received.Sublist (sentTo r id) ∧ x.received.length+x.failed = (sentTo r id).length
  nameless : id = -1 → x.received = []

-- A client not heard of.
theorem story_starts (unheard : requestsOf r id = []) (unpushed : sequencesOf r id = []) (registered : Bool) :
    Story r id ⟨some id,registered,0,none,[],0⟩ := by
  have unsent : sentTo r id = [] := by
    have mapped : (sentTo r id).map Sent.seq = [] := by
      have parts := unpushed
      unfold sequencesOf sequences at parts
      rw [List.filter_append,List.filter_map] at parts
      exact (List.append_eq_nil_iff.mp parts).1
    exact List.map_eq_nil_iff.mp mapped
  refine ⟨by rw [unheard]; rfl,by rw [unheard]; rfl,?_,?_,?_,fun _ => rfl⟩
  · intro call none_
    cases none_
  · rw [unheard,unpushed]
    rfl
  · intro _
    rw [unsent]
    exact ⟨List.Sublist.refl _,rfl⟩

theorem Story.registered (story : Story r id x) (registered : Bool) : Story r id {x with registered} :=
  ⟨story.numbered,story.counted,story.begun,story.pushed,story.delivered,story.nameless⟩

theorem pending_kept (story : Story r id x) (more : List Call) (calls : after.calls = r.calls ++ more) :
    pending after x = pending r x := by
  unfold pending
  cases handled : x.handling with
  | none => rfl
  | some call =>
    obtain ⟨c,found,_⟩ := story.begun call handled
    rw [Option.bind_some,Option.bind_some,calls,found,Responder.call_kept found]

-- What another client does adds calls at most: nothing of this client moves.
theorem Story.unmoved (story : Story r id x) (more : List Call) (calls : after.calls = r.calls ++ more)
    (requests : requestsOf after id = requestsOf r id) (pushes : sequencesOf after id = sequencesOf r id)
    (responses : id ≠ -1 → sentTo after id = sentTo r id) : Story after id x := by
  refine ⟨?_,?_,?_,?_,?_,story.nameless⟩
  · rw [requests]
    exact story.numbered
  · rw [requests]
    exact story.counted
  · intro call handled
    obtain ⟨c,found,mine⟩ := story.begun call handled
    rw [calls]
    exact ⟨c,Responder.call_kept found _,mine⟩
  · rw [requests,pushes,pending_kept story more calls]
    exact story.pushed
  · intro named
    rw [responses named]
    exact story.delivered named

-- Whatever keeps calls and what is pushed and sent keeps every story.
theorem Story.kept (story : Story r id x) (calls : after.calls = r.calls) (queue : after.sequence_queue_ = r.sequence_queue_)
    (sent : after.sent = r.sent) : Story after id x := by
  have requests : requestsOf after id = requestsOf r id := by unfold requestsOf; rw [calls]
  have pushes : sequencesOf after id = sequencesOf r id := by unfold sequencesOf sequences; rw [sent,queue]
  have responses : sentTo after id = sentTo r id := by unfold sentTo; rw [sent]
  exact story.unmoved [] (by rw [calls,List.append_nil]) requests pushes (fun _ => responses)

theorem responded (ran : Responder.step future r (.respond request) = some after) :
    after.calls = r.calls ++ [request] ∧ after.sequence_queue_ = r.sequence_queue_ ∧ after.sent = r.sent := by
  cases Option.some.inj ran
  exact ⟨rfl,rfl,rfl⟩

theorem sequenced (ran : Responder.step future r (.sequence call) = some after) :
    ∃ c, r.calls[call]? = some c ∧ after.calls = r.calls ∧ after.sequence_queue_ = r.sequence_queue_ ++ [c.seq_id] ∧
      after.sent = r.sent := by
  simp only [Responder.step] at ran
  split at ran
  · cases ran
  · split at ran
    · cases ran
      exact ⟨_,‹_›,rfl,rfl,rfl⟩
    · cases ran

theorem took (ran : Responder.step future r .take = some after) :
    after.calls = r.calls ∧ after.sequence_queue_ = r.sequence_queue_ ∧ after.sent = r.sent := by
  simp only [Responder.step] at ran
  split at ran
  · cases ran
    exact ⟨rfl,rfl,rfl⟩
  · cases ran

theorem sends (ran : Responder.step future r .send = some after) (latest : after.sent.getLast? = some m) :
    after.calls = r.calls ∧ after.sent = r.sent ++ [m] ∧ m.seq :: after.sequence_queue_ = r.sequence_queue_ := by
  simp only [Responder.step] at ran
  split at ran
  · cases ran
    rw [List.getLast?_concat] at latest
    cases latest
    exact ⟨rfl,rfl,Eq.symm ‹_›⟩
  · cases ran

-- Another client's request.
theorem Story.others_request (story : Story r id x) {request : Call} (other : request.seq_id.client_id ≠ id)
    (ran : Responder.step future r (.respond request) = some after) : Story after id x := by
  obtain ⟨calls,queue,sent⟩ := responded ran
  have requests : requestsOf after id = requestsOf r id := by
    unfold requestsOf
    rw [calls,List.filter_append,List.filter_singleton]
    simp [other]
  have pushes : sequencesOf after id = sequencesOf r id := by unfold sequencesOf sequences; rw [sent,queue]
  have responses : sentTo after id = sentTo r id := by unfold sentTo; rw [sent]
  exact story.unmoved _ calls requests pushes (fun _ => responses)

theorem Story.requests (story : Story r id x) (free : x.handling = none)
    (ran : Responder.step future r (.respond ⟨kind,⟨id,x.sequence_num,0⟩,keys⟩) = some after) :
    Story after id {x with sequence_num:=x.sequence_num+1,
                           handling:=if kind.pushesSequence then some r.calls.length else none} := by
  obtain ⟨calls,queue,sent⟩ := responded ran
  have requests : requestsOf after id = requestsOf r id ++ [⟨kind,⟨id,x.sequence_num,0⟩,keys⟩] := by
    unfold requestsOf
    rw [calls,List.filter_append,List.filter_singleton]
    simp
  have pushes : sequencesOf after id = sequencesOf r id := by unfold sequencesOf sequences; rw [sent,queue]
  have responses : sentTo after id = sentTo r id := by unfold sentTo; rw [sent]
  have latest : after.calls[r.calls.length]? = some ⟨kind,⟨id,x.sequence_num,0⟩,keys⟩ := by
    rw [calls,List.getElem?_append_right (le_refl _),Nat.sub_self]
    rfl
  have pushed := story.pushed
  unfold pending at pushed
  rw [free,Option.bind_none,Option.toList_none,List.map_nil,List.append_nil] at pushed
  refine ⟨?_,?_,?_,?_,?_,story.nameless⟩
  · rw [requests,List.map_append,List.length_append,story.numbered,story.counted]
    simp [numbers,List.range_succ]
  · rw [requests,List.length_append,story.counted]
    push_cast
    rfl
  · intro call handled
    dsimp only at handled
    split at handled
    · cases handled
      exact ⟨_,latest,rfl⟩
    · cases handled
  · rw [requests,pushes,pushed,List.filter_append,List.filter_singleton]
    unfold pending
    dsimp only
    split
    · rw [Option.bind_some,latest]
      simp [*]
    · simp [*]
  · rw [responses]
    exact story.delivered

theorem sequences_pushed (id : Int) (queue : after.sequence_queue_ = r.sequence_queue_ ++ [seq]) (sent : after.sent = r.sent) :
    sequencesOf after id = sequencesOf r id ++ if seq.client_id = id then [seq] else [] := by
  unfold sequencesOf sequences
  rw [queue,sent,← List.append_assoc,List.filter_append,List.filter_singleton]
  simp

theorem Story.others_push (story : Story r id x) (found : r.calls[call]? = some request)
    (other : request.seq_id.client_id ≠ id) (ran : Responder.step future r (.sequence call) = some after) :
    Story after id x := by
  obtain ⟨c,at_,calls,queue,sent⟩ := sequenced ran
  rw [found] at at_
  cases at_
  have requests : requestsOf after id = requestsOf r id := by unfold requestsOf; rw [calls]
  have pushes := sequences_pushed id queue sent
  rw [if_neg other,List.append_nil] at pushes
  have responses : sentTo after id = sentTo r id := by unfold sentTo; rw [sent]
  exact story.unmoved [] (by rw [calls,List.append_nil]) requests pushes (fun _ => responses)

-- The handler's second push.
theorem Story.pushes (story : Story r id x) (handled : x.handling = some call)
    (ran : Responder.step future r (.sequence call) = some after) : Story after id {x with handling:=none} := by
  obtain ⟨c,at_,calls,queue,sent⟩ := sequenced ran
  obtain ⟨request,found,mine⟩ := story.begun call handled
  rw [found] at at_
  obtain rfl : request = c := Option.some.inj at_
  have requests : requestsOf after id = requestsOf r id := by unfold requestsOf; rw [calls]
  have pushes := sequences_pushed id queue sent
  rw [if_pos mine] at pushes
  have responses : sentTo after id = sentTo r id := by unfold sentTo; rw [sent]
  have waited : pending r x = [request.seq_id] := by
    unfold pending
    rw [handled,Option.bind_some,found]
    rfl
  refine ⟨?_,?_,?_,?_,?_,story.nameless⟩
  · rw [requests]
    exact story.numbered
  · rw [requests]
    exact story.counted
  · intro call none_
    cases none_
  · rw [requests,pushes,← waited,story.pushed]
    unfold pending
    simp
  · rw [responses]
    exact story.delivered

-- A response leaves the sequence_ids as they are, those sent and those queued taken
-- together.
theorem sequences_sent (sent : after.sent = r.sent ++ [m]) (queue : m.seq :: after.sequence_queue_ = r.sequence_queue_) :
    sequences after = sequences r := by
  unfold sequences
  rw [sent,← queue]
  simp

theorem Story.others_response (story : Story r id x) (other : m.seq.client_id ≠ id ∨ id = -1)
    (ran : Responder.step future r .send = some after) (latest : after.sent.getLast? = some m) : Story after id x := by
  obtain ⟨calls,sent,queue⟩ := sends ran latest
  have requests : requestsOf after id = requestsOf r id := by unfold requestsOf; rw [calls]
  have pushes : sequencesOf after id = sequencesOf r id := by unfold sequencesOf; rw [sequences_sent sent queue]
  refine story.unmoved [] (by rw [calls,List.append_nil]) requests pushes ?_
  intro named
  unfold sentTo
  rw [sent,List.filter_append,List.filter_singleton]
  simp [other.resolve_right named]

theorem Story.responded (story : Story r id x) (mine : m.seq.client_id = id) (named : id ≠ -1)
    (ran : Responder.step future r .send = some after) (latest : after.sent.getLast? = some m) :
    Story after id (x.async_response m fails) := by
  obtain ⟨calls,sent,queue⟩ := sends ran latest
  have requests : requestsOf after id = requestsOf r id := by unfold requestsOf; rw [calls]
  have pushes : sequencesOf after id = sequencesOf r id := by unfold sequencesOf; rw [sequences_sent sent queue]
  have same : (x.async_response m fails).handling = x.handling ∧ (x.async_response m fails).sequence_num = x.sequence_num := by
    unfold Connection.async_response
    split <;> exact ⟨rfl,rfl⟩
  have waits : pending after (x.async_response m fails) = pending r x := by unfold pending; rw [calls,same.1]
  have responses : sentTo after id = sentTo r id ++ [m] := by
    unfold sentTo
    rw [sent,List.filter_append,List.filter_singleton]
    simp [mine]
  refine ⟨?_,?_,?_,?_,?_,fun nameless => absurd nameless named⟩
  · rw [requests]
    exact story.numbered
  · rw [requests,same.2]
    exact story.counted
  · rw [calls,same.1]
    exact story.begun
  · rw [requests,pushes,waits]
    exact story.pushed
  · intro _
    obtain ⟨among,counts⟩ := story.delivered named
    rw [responses,List.length_append,List.length_singleton]
    unfold Connection.async_response
    split
    · refine ⟨among.trans (List.sublist_append_left _ _),?_⟩
      dsimp only
      omega
    · refine ⟨among.append (List.Sublist.refl _),?_⟩
      rw [List.length_append,List.length_singleton]
      dsimp only
      omega

-- The responder knows registered clients only.
structure Heard (r : Responder.State) (ids : List (Option Int × Bool)) : Prop where
  calls : ∀ request ∈ r.calls, ∃ c : Nat, ids[c]? = some (some request.seq_id.client_id,true)
  pushes : ∀ seq ∈ sequences r, ∃ c : Nat, ids[c]? = some (some seq.client_id,true)

theorem Heard.mono {more : List (Option Int × Bool)} (heard : Heard r ids)
    (keeps : ∀ (c : Nat) id, ids[c]? = some (some id,true) → more[c]? = some (some id,true)) : Heard r more := by
  constructor
  · intro request member
    obtain ⟨c,at_⟩ := heard.calls request member
    exact ⟨c,keeps c _ at_⟩
  · intro seq member
    obtain ⟨c,at_⟩ := heard.pushes seq member
    exact ⟨c,keeps c _ at_⟩

theorem keeps_registered (at_ : ids[c]? = some (had,false)) (who : Option Int × Bool) (d : Nat) (id : Int)
    (held : ids[d]? = some (some id,true)) : (ids.set c who)[d]? = some (some id,true) := by
  have other : d ≠ c := by
    intro same
    subst same
    rw [at_] at held
    cases held
  rw [at_others other]
  exact held

-- Nothing has been heard of an id that no registered client has.
theorem Heard.nothing (heard : Heard r ids) (nobody : ∀ c : Nat, ids[c]? ≠ some (some id,true)) :
    requestsOf r id = [] ∧ sequencesOf r id = [] := by
  constructor
  · refine List.filter_eq_nil_iff.mpr ?_
    intro request member mine
    obtain ⟨c,at_⟩ := heard.calls request member
    rw [of_decide_eq_true mine] at at_
    exact nobody c at_
  · refine List.filter_eq_nil_iff.mpr ?_
    intro seq member mine
    obtain ⟨c,at_⟩ := heard.pushes seq member
    rw [of_decide_eq_true mine] at at_
    exact nobody c at_

structure Coherent (first : Int) (s : State) : Prop where
  identified : Identified first s.client_id_gen_ s.clients_ s.ids
  story : ∀ (c : Nat) x id, s.connections[c]? = some x → x.client_id_ = some id → Story s.responder id x
  fresh : ∀ (c : Nat) x, s.connections[c]? = some x → x.registered = false → x = ⟨x.client_id_,false,0,none,[],0⟩
  heard : Heard s.responder s.ids

theorem start_coherent (first : Int) : Coherent first (start first) := by
  refine ⟨start_identified first,?_,?_,?_,?_⟩
  · intro c x id at_
    cases at_
  · intro c x at_
    cases at_
  · intro request member
    cases member
  · intro seq member
    cases member

theorem ids_of (found : s.connections[c]? = some x) (has : x.client_id_ = some id) :
    s.ids[c]? = some (some id,x.registered) := ids_at.mpr ⟨x,found,by rw [has]⟩

theorem connect_coherent (whole : Coherent first s) (ran : step future s .connect = .ok next) :
    Coherent first next := by
  obtain rfl := Except.ok.inj ran
  have ids : State.ids {s with connections:=s.connections ++ [accepted]} = s.ids ++ [(none,false)] := List.map_append
  have old : ∀ {c : Nat} {x : Connection}, (s.connections ++ [accepted])[c]? = some x →
      s.connections[c]? = some x ∨ x = accepted := by
    intro c x at_
    rcases lt_or_ge c s.connections.length with below | above
    · rw [List.getElem?_append_left below] at at_
      exact .inl at_
    · rw [List.getElem?_append_right above,List.getElem?_singleton] at at_
      split at at_
      · exact .inr (Option.some.inj at_).symm
      · cases at_
  refine ⟨?_,?_,?_,?_⟩
  · rw [ids]
    exact whole.identified.connected
  · intro c x id at_ has
    rcases old at_ with before | rfl
    · exact whole.story c x id before has
    · cases has
  · intro c x at_ unregistered
    rcases old at_ with before | rfl
    · exact whole.fresh c x before unregistered
    · rfl
  · rw [ids]
    refine whole.heard.mono ?_
    intro c id at_
    obtain ⟨below,_⟩ := List.getElem?_eq_some_iff.mp at_
    rw [List.getElem?_append_left below]
    exact at_

theorem get_client_id_coherent (whole : Coherent first s) (few : s.connections.length ≤ 2^64)
    (ran : step future s (.get_client_id c) = .ok next) : Coherent first next := by
  obtain ⟨x,found,none_,rfl⟩ := get_client_id_ran ran
  have at_ : s.ids[c]? = some (none,x.registered) := ids_at.mpr ⟨x,found,by rw [none_]⟩
  have unregistered : x.registered = false := by
    cases was : x.registered with
    | false => rfl
    | true =>
      rw [was] at at_
      exact absurd at_ (whole.identified.named c)
  rw [unregistered] at at_
  have few_ : s.ids.length ≤ 2^64 := by
    rw [State.ids,List.length_map]
    exact few
  have ids : State.ids {s with client_id_gen_:=wrap (s.client_id_gen_+1),
                               connections:=s.connections.set c {x with client_id_:=some s.client_id_gen_}} =
      s.ids.set c (some s.client_id_gen_,false) := by
    rw [State.ids,State.ids,List.map_set]
    rw [unregistered]
  have blank := whole.fresh c x found unregistered
  obtain ⟨unheard,unpushed⟩ := whole.heard.nothing fun _ => whole.identified.unused (drawnBy_lt at_ few_) true
  refine ⟨?_,?_,?_,?_⟩
  · rw [ids]
    exact whole.identified.gave at_ few_
  · intro d y id now has
    obtain ⟨_,rfl⟩ | ⟨_,before⟩ := moved_cases now
    · cases has
      rw [blank]
      exact story_starts unheard unpushed false
    · exact whole.story d y id before has
  · intro d y now unregistered_
    obtain ⟨_,rfl⟩ | ⟨_,before⟩ := moved_cases now
    · rw [blank]
    · exact whole.fresh d y before unregistered_
  · rw [ids]
    exact whole.heard.mono (keeps_registered at_ _)

theorem register_coherent (whole : Coherent first s) (ran : step future s (.register_client_id c) = .ok next) :
    Coherent first next := by
  obtain ⟨x,id,found,has,unregistered,rfl⟩ := register_client_id_ran ran
  have at_ := ids_of found has
  rw [unregistered] at at_
  have ids : State.ids {s with clients_:=add_client s.clients_ id c,
                               connections:=s.connections.set c {x with registered:=true}} =
      s.ids.set c (some id,true) := by
    rw [State.ids,State.ids,List.map_set]
    rw [has]
  refine ⟨?_,?_,?_,?_⟩
  · rw [ids]
    exact whole.identified.enrolled at_
  · intro d y other now has_
    obtain ⟨_,rfl⟩ | ⟨_,before⟩ := moved_cases now
    · exact (whole.story c x other found has_).registered true
    · exact whole.story d y other before has_
  · intro d y now unregistered_
    obtain ⟨_,rfl⟩ | ⟨_,before⟩ := moved_cases now
    · cases unregistered_
    · exact whole.fresh d y before unregistered_
  · rw [ids]
    exact whole.heard.mono (keeps_registered at_ _)

-- The other steps leave who has which id alone.
theorem ids_kept (found : s.connections[c]? = some x) (same : y.client_id_ = x.client_id_ ∧ y.registered = x.registered) :
    (s.connections.set c y).map (fun x => (x.client_id_,x.registered)) = s.ids := by
  rw [List.map_set,same.1,same.2]
  refine List.ext_getElem? ?_
  intro d
  by_cases mine : d = c
  · subst mine
    have at_ : s.ids[d]? = some (x.client_id_,x.registered) := ids_at.mpr ⟨x,found,rfl⟩
    rw [at_]
    exact at_moved at_ _
  · exact at_others mine _

theorem Coherent.stranger (whole : Coherent first s) (found : s.connections[c]? = some x) (has : x.client_id_ = some id)
    (other : d ≠ c) (held : s.connections[d]? = some y) {another : Int} (theirs : y.client_id_ = some another) :
    id ≠ another := by
  intro same
  subst same
  exact other (whole.identified.apart d c _ _ _ (ids_of held theirs) (ids_of found has))

theorem request_coherent (whole : Coherent first s) (ran : step future s (.request c kind keys) = .ok next) :
    Coherent first next := by
  obtain ⟨x,id,responder,found,has,registered,free,responds,rfl⟩ := request_ran ran
  obtain ⟨calls,queue,sent⟩ := responded responds
  have at_ := ids_of found has
  rw [registered] at at_
  have mine := whole.story c x id found has
  have ids := ids_kept (y:={x with sequence_num:=x.sequence_num+1,
                                   handling:=if kind.pushesSequence then some s.responder.calls.length else none})
    found ⟨rfl,rfl⟩
  refine ⟨?_,?_,?_,?_⟩
  · unfold State.ids
    rw [ids]
    exact whole.identified
  · intro d y other now has_
    obtain ⟨_,rfl⟩ | ⟨apart,before⟩ := moved_cases now
    · obtain rfl : id = other := Option.some.inj (has.symm.trans has_)
      exact mine.requests free responds
    · exact (whole.story d y other before has_).others_request (whole.stranger found has apart before has_) responds
  · intro d y now unregistered
    obtain ⟨_,rfl⟩ | ⟨_,before⟩ := moved_cases now
    · rw [registered] at unregistered
      cases unregistered
    · exact whole.fresh d y before unregistered
  · unfold State.ids
    rw [ids]
    constructor
    · dsimp only
      rw [calls]
      intro request member
      rcases List.mem_append.mp member with old | new
      · exact whole.heard.calls request old
      · rw [List.mem_singleton.mp new]
        exact ⟨c,at_⟩
    · dsimp only
      unfold sequences
      rw [queue,sent]
      exact whole.heard.pushes

theorem sequence_coherent (whole : Coherent first s) (ran : step future s (.sequence c) = .ok next) :
    Coherent first next := by
  obtain ⟨x,call,responder,found,handled,pushes,rfl⟩ := sequence_ran ran
  obtain ⟨request,called,calls,queue,sent⟩ := sequenced pushes
  have registered : x.registered = true := by
    cases was : x.registered with
    | true => rfl
    | false =>
      have blank := whole.fresh c x found was
      rw [blank] at handled
      cases handled
  obtain ⟨id,has⟩ : ∃ id, x.client_id_ = some id := by
    cases had : x.client_id_ with
    | some id => exact ⟨id,rfl⟩
    | none => exact absurd (ids_at.mpr ⟨x,found,by rw [had,registered]⟩) (whole.identified.named c)
  have at_ := ids_of found has
  rw [registered] at at_
  have mine := whole.story c x id found has
  obtain ⟨same,at_call,owned⟩ := mine.begun call handled
  rw [called] at at_call
  obtain rfl : request = same := Option.some.inj at_call
  have ids := ids_kept (y:={x with handling:=none}) found ⟨rfl,rfl⟩
  refine ⟨?_,?_,?_,?_⟩
  · unfold State.ids
    rw [ids]
    exact whole.identified
  · intro d y other now has_
    obtain ⟨_,rfl⟩ | ⟨apart,before⟩ := moved_cases now
    · obtain rfl : id = other := Option.some.inj (has.symm.trans has_)
      exact mine.pushes handled pushes
    · have strange := whole.stranger found has apart before has_
      rw [← owned] at strange
      exact (whole.story d y other before has_).others_push called strange pushes
  · intro d y now unregistered
    obtain ⟨_,rfl⟩ | ⟨_,before⟩ := moved_cases now
    · rw [registered] at unregistered
      cases unregistered
    · exact whole.fresh d y before unregistered
  · unfold State.ids
    rw [ids]
    constructor
    · dsimp only
      rw [calls]
      exact whole.heard.calls
    · dsimp only
      unfold sequences
      rw [queue,sent,← List.append_assoc]
      intro seq member
      rcases List.mem_append.mp member with old | new
      · exact whole.heard.pushes seq old
      · rw [List.mem_singleton.mp new,owned]
        exact ⟨c,at_⟩

theorem take_coherent (whole : Coherent first s) (ran : step future s .take = .ok next) : Coherent first next := by
  obtain ⟨responder,takes,rfl⟩ := take_ran ran
  obtain ⟨calls,queue,sent⟩ := took takes
  refine ⟨whole.identified,?_,whole.fresh,?_,?_⟩
  · intro c x id found has
    exact (whole.story c x id found has).kept calls queue sent
  · dsimp only
    rw [calls]
    exact whole.heard.calls
  · dsimp only
    unfold sequences
    rw [queue,sent]
    exact whole.heard.pushes

theorem modified (found : s.connections[c]? = some x) (f : Connection → Connection) :
    s.connections.modify c f = s.connections.set c (f x) := by
  rw [List.modify_eq_set_getElem?,found]
  rfl

-- A response finds its client, unless the id is the one that stands for none.
theorem send_coherent (whole : Coherent first s) (ran : step future s (.send fails) = .ok next) : Coherent first next := by
  obtain ⟨responder,m,responds,latest,rfl⟩ := send_ran ran
  obtain ⟨calls,sent,queue⟩ := sends responds latest
  have heard : Heard responder s.ids := by
    constructor
    · rw [calls]
      exact whole.heard.calls
    · rw [sequences_sent sent queue]
      exact whole.heard.pushes
  obtain ⟨c,at_⟩ := heard.pushes m.seq (by simp [sequences,sent])
  obtain ⟨x,found,who⟩ := ids_at.mp at_
  obtain ⟨has,registered⟩ := Prod.mk.inj who
  unfold async_respond_client
  by_cases nameless : m.seq.client_id = -1
  · rw [if_pos nameless]
    refine ⟨whole.identified,?_,whole.fresh,heard⟩
    intro d y id held has_
    refine (whole.story d y id held has_).others_response ?_ responds latest
    by_cases same : m.seq.client_id = id
    · exact .inr (same.symm.trans nameless)
    · exact .inl same
  · rw [if_neg nameless,(whole.identified.listed c m.seq.client_id).mpr at_]
    dsimp only
    rw [modified found]
    have same : (x.async_response m fails).client_id_ = x.client_id_ ∧ (x.async_response m fails).registered = x.registered := by
      unfold Connection.async_response
      split <;> exact ⟨rfl,rfl⟩
    have ids := ids_kept found same
    refine ⟨?_,?_,?_,?_⟩
    · unfold State.ids
      rw [ids]
      exact whole.identified
    · intro d y id now has_
      obtain ⟨_,rfl⟩ | ⟨apart,before⟩ := moved_cases now
      · have mine : some m.seq.client_id = some id := has.symm.trans (same.1.symm.trans has_)
        obtain rfl := Option.some.inj mine
        exact (whole.story c x _ found has).responded rfl nameless responds latest
      · exact (whole.story d y id before has_).others_response (.inl (whole.stranger found has apart before has_))
          responds latest
    · intro d y now unregistered
      obtain ⟨_,rfl⟩ | ⟨_,before⟩ := moved_cases now
      · rw [same.2,registered] at unregistered
        cases unregistered
      · exact whole.fresh d y before unregistered
    · unfold State.ids
      rw [ids]
      exact heard

theorem step_coherent (whole : Coherent first s) (few : s.connections.length ≤ 2^64)
    (ran : step future s action = .ok next) : Coherent first next := by
  cases action with
  | connect => exact connect_coherent whole ran
  | get_client_id c => exact get_client_id_coherent whole few ran
  | register_client_id c => exact register_coherent whole ran
  | request c kind keys => exact request_coherent whole ran
  | sequence c => exact sequence_coherent whole ran
  | take => exact take_coherent whole ran
  | send fails => exact send_coherent whole ran

-- Connections are never forgotten.
theorem step_connections (ran : step future s action = .ok next) : s.connections.length ≤ next.connections.length := by
  cases action with
  | connect =>
    cases ran
    simp
  | get_client_id c =>
    obtain ⟨_,_,_,rfl⟩ := get_client_id_ran ran
    simp
  | register_client_id c =>
    obtain ⟨_,_,_,_,_,rfl⟩ := register_client_id_ran ran
    simp
  | request c kind keys =>
    obtain ⟨_,_,_,_,_,_,_,_,rfl⟩ := request_ran ran
    simp
  | sequence c =>
    obtain ⟨_,_,_,_,_,_,rfl⟩ := sequence_ran ran
    simp
  | take =>
    obtain ⟨_,_,rfl⟩ := take_ran ran
    simp
  | send fails =>
    obtain ⟨_,_,_,_,rfl⟩ := send_ran ran
    unfold async_respond_client
    split
    · simp
    · split <;> simp

theorem run_connections (actions : List Action) (ran : run (step future) s actions = .ok last) :
    s.connections.length ≤ last.connections.length := by
  induction actions generalizing s with
  | nil =>
    cases ran
    exact le_refl _
  | cons action rest ih =>
    obtain ⟨next,stepped,tail⟩ := run_uncons ran
    exact (step_connections stepped).trans (ih tail)

theorem run_coherent (actions : List Action) (whole : Coherent first s) (few : last.connections.length ≤ 2^64)
    (ran : run (step future) s actions = .ok last) : Coherent first last := by
  induction actions generalizing s with
  | nil =>
    cases ran
    exact whole
  | cons action rest ih =>
    have fewer := (run_connections (action :: rest) ran).trans few
    obtain ⟨next,stepped,tail⟩ := run_uncons ran
    exact ih (step_coherent whole fewer stepped) tail

-- The queue of the sequence_ids keeps step with the calls.
def State.InOrder (s : State) : Action → Prop
  | .sequence c => ∀ call ∈ s.connections[c]?.bind Connection.handling, ∀ earlier < call, earlier ∈ s.responder.sequenced
  | _ => True

instance : ∀ (s : State) (action : Action), Decidable (s.InOrder action)
  | s,.sequence c => inferInstanceAs (Decidable
      (∀ call ∈ s.connections[c]?.bind Connection.handling, ∀ earlier < call, earlier ∈ s.responder.sequenced))
  | _,.connect | _,.get_client_id _ | _,.register_client_id _ | _,.request _ _ _ | _,.take | _,.send _ => .isTrue trivial

theorem respond_keeps_responder (s : State) (m : Sent) (fails : Bool) :
    (async_respond_client s m fails).responder = s.responder := by
  unfold async_respond_client
  split
  · rfl
  · split <;> rfl

theorem step_aligned (valid : Aligned future s.responder) (order : s.InOrder action)
    (ran : step future s action = .ok next) : Aligned future next.responder := by
  cases action with
  | connect =>
    cases ran
    exact valid
  | get_client_id c =>
    obtain ⟨_,_,_,rfl⟩ := get_client_id_ran ran
    exact valid
  | register_client_id c =>
    obtain ⟨_,_,_,_,_,rfl⟩ := register_client_id_ran ran
    exact valid
  | request c kind keys =>
    obtain ⟨_,_,_,_,_,_,_,responds,rfl⟩ := request_ran ran
    exact Responder.respond_aligned valid responds
  | sequence c =>
    obtain ⟨x,call,_,found,handled,pushes,rfl⟩ := sequence_ran ran
    have calling : call ∈ s.connections[c]?.bind Connection.handling := by
      rw [found]
      exact handled
    exact Responder.sequence_aligned valid (order call calling) pushes
  | take =>
    obtain ⟨_,takes,rfl⟩ := take_ran ran
    exact Responder.take_aligned valid takes
  | send fails =>
    obtain ⟨_,_,responds,_,rfl⟩ := send_ran ran
    rw [respond_keeps_responder]
    exact Responder.send_aligned valid responds

-- What a client is to be answered: each of its requests under its own sequence_id,
-- with the results of its own futures.
def answers (future : Waiter → Str) (calls : List Call) : List (Nat × SequenceId × List Str) :=
  (calls.zipIdx).map (fun at_ => (at_.2,at_.1.seq_id,collect future (tupleOf at_.2 at_.1)))

def answersTo (future : Waiter → Str) (r : Responder.State) (id : Int) : List (Nat × SequenceId × List Str) :=
  (answers future r.calls).filter (fun answer => answer.2.1.client_id = id)

theorem aligned_answers (valid : Aligned future r) :
    r.sent.map (fun m => (m.call,m.seq,m.results)) = (answers future r.calls).take r.sent.length := by
  refine List.ext_getElem? ?_
  intro n
  rcases lt_or_ge n r.sent.length with below | above
  · have nth : r.sent[n].call = n := by
      have at_ := congrArg (fun l => l[n]?) valid.tuples
      have small : n < r.calls.length := by
        have lengths := congrArg List.length valid.tuples
        simp only [List.length_append,List.length_map,List.length_range] at lengths
        omega
      simpa [List.getElem?_append,below,small] using at_
    have member : r.sent[n] ∈ r.sent := List.getElem_mem below
    obtain ⟨c,found,results,seq⟩ := valid.routed r.sent[n] member
    rw [nth] at found results
    rw [List.getElem?_map,List.getElem?_eq_getElem below,List.getElem?_take_of_lt below,answers,List.getElem?_map,
      List.getElem?_zipIdx,found,Option.map_some,nth,results,seq]
    simp
  · rw [List.getElem?_eq_none (by simpa using above),List.getElem?_eq_none (by simp; omega)]

theorem aligned_answersTo (valid : Aligned future r) (id : Int) :
    (sentTo r id).map (fun m => (m.call,m.seq,m.results)) <+: answersTo future r id := by
  have whole : (sentTo r id).map (fun m => (m.call,m.seq,m.results)) =
      ((answers future r.calls).take r.sent.length).filter (fun answer => answer.2.1.client_id = id) := by
    rw [← aligned_answers valid,List.filter_map]
    rfl
  rw [whole]
  exact (List.take_prefix _ _).filter _

-- Whatever the id generator held, and however the inits, the handlers and the
-- responder interleave: no two clients have one id, and a client hears of its own
-- requests only, in their order. Where the two queues keep step, the results it
-- reads are those of the requests.
theorem responses_reach_their_clients (ran : run (step future) (start first) actions = .ok s)
    (few : s.connections.length ≤ 2^64) :
    (∀ (c d : Nat) x y id, s.connections[c]? = some x → s.connections[d]? = some y → x.client_id_ = some id →
      y.client_id_ = some id → c = d) ∧
    ∀ (c : Nat) x id, s.connections[c]? = some x → x.client_id_ = some id →
      (requestsOf s.responder id).map Call.seq_id = numbers id (requestsOf s.responder id).length ∧
      (sentTo s.responder id).map Sent.seq <+:
        ((requestsOf s.responder id).filter (·.kind.pushesSequence)).map Call.seq_id ∧
      (if id = -1 then x.received = []
        else x.received.Sublist (sentTo s.responder id) ∧ x.received.length+x.failed = (sentTo s.responder id).length) ∧
      (Admissible (step future) State.InOrder (start first) actions →
        (sentTo s.responder id).map (fun m => (m.call,m.seq,m.results)) <+: answersTo future s.responder id) := by
  have whole := run_coherent actions (start_coherent first) few ran
  constructor
  · intro c d x y id found held has theirs
    exact whole.identified.apart c d id _ _ (ids_of found has) (ids_of held theirs)
  · intro c x id found has
    have story := whole.story c x id found has
    refine ⟨story.numbered,?_,?_,?_⟩
    · rw [← story.pushed]
      have parts : sequencesOf s.responder id =
          (sentTo s.responder id).map Sent.seq ++ s.responder.sequence_queue_.filter (fun seq => seq.client_id = id) := by
        unfold sequencesOf sequences sentTo
        rw [List.filter_append,List.filter_map]
        rfl
      rw [parts,List.append_assoc]
      exact List.prefix_append _ _
    · split
      · exact story.nameless ‹_›
      · exact story.delivered ‹_›
    · intro order
      have valid := run_preserves (fun _ _ _ valid now stepped => step_aligned valid now stepped) actions
        (Responder.start_aligned future) order ran
      exact aligned_answersTo valid id

-- Two clients and four requests; one response does not get through.
def twoClients : List Action :=
  [.connect,.connect,.get_client_id 1,.get_client_id 0,.register_client_id 0,.register_client_id 1,
   .request 1 .async_get_batch 2,.sequence 1,.request 0 .async_put_batch 1,.take,.sequence 0,.send false,.take,
   .request 1 .async_get_batch 1,.send true,.sequence 1,.take,.send false,.request 0 .async_get_batch 1]

theorem twoClients_ran : (run (step Responder.named) (start 0) twoClients).toOption.isSome = true := by decide +kernel

def answeredClients : State := Option.get _ twoClients_ran

theorem two_clients_hear :
    (sentTo answeredClients.responder 0).map (fun m => (m.call,m.seq,m.results)) <+:
        answersTo Responder.named answeredClients.responder 0 ∧
      (sentTo answeredClients.responder 0).length = 2 := by
  obtain ⟨_,each⟩ := responses_reach_their_clients (toOption_get twoClients_ran) (by decide +kernel)
  obtain ⟨x,found⟩ : ∃ x, answeredClients.connections[1]? = some x ∧ x.client_id_ = some 0 := by
    refine ⟨answeredClients.connections[1]?.get (by decide +kernel),?_,?_⟩
    · rw [Option.some_get]
    · decide +kernel
  exact ⟨(each 1 x 0 found.1 found.2).2.2.2 (by decide +kernel),by decide +kernel⟩

end TsWaffle.Connecting
