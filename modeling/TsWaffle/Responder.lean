import TsWaffle.Lib.Text

namespace TsWaffle.Responder
open Text

structure SequenceId where
  client_id : Int
  client_seq_no : Int
  server_seq_no : Int
  deriving DecidableEq

inductive Kind where
  | async_get | async_put | async_get_batch | async_put_batch
  deriving DecidableEq

-- The single calls announce themselves as GET, the put as well.
def Kind.op_code : Kind → Nat
  | .async_get | .async_put => 0
  | .async_get_batch => 2
  | .async_put_batch => 3

def Kind.pushesSequence : Kind → Bool
  | .async_get | .async_put => false
  | .async_get_batch | .async_put_batch => true

structure Call where
  kind : Kind
  seq_id : SequenceId
  keys : Nat

-- A future is named by the call that made it and its position there.
structure Waiter where
  call : Nat
  position : Nat

structure Tuple where
  call : Nat
  op_code : Nat
  seq_id : SequenceId
  waiters : List Waiter

structure Sent where
  seq : SequenceId
  op_code : Nat
  call : Nat
  results : List Str
  deriving DecidableEq

structure State where
  calls : List Call
  respond_queue_ : List Tuple
  sequence_queue_ : List SequenceId
  between : List Nat
  sequenced : List Nat
  holding : Option Tuple
  sent : List Sent

def start : State := ⟨[],[],[],[],[],none,[]⟩

-- respond and sequence are the two queue pushes of a handler thread; take and
-- send are the two halves of one round of responder_thread.
inductive Action where
  | respond (c : Call)
  | sequence (call : Nat)
  | take
  | send

def waitersOf (call : Nat) (c : Call) : List Waiter := (List.range c.keys).map (fun i => ⟨call,i⟩)

def tupleOf (call : Nat) (c : Call) : Tuple := ⟨call,c.kind.op_code,c.seq_id,waitersOf call c⟩

def collect (future : Waiter → Str) (t : Tuple) : List Str :=
  t.waiters.map (fun w => if t.op_code = 3 then str "PUT SUCCESSFUL" else future w)

def step (future : Waiter → Str) (s : State) : Action → Option State
  | .respond c =>
    let call := s.calls.length
    some {s with calls:=s.calls ++ [c],
                 respond_queue_:=s.respond_queue_ ++ [tupleOf call c],
                 between:=if c.kind.pushesSequence then s.between ++ [call] else s.between}
  | .sequence call =>
    match s.calls[call]? with
    | none => none
    | some c =>
      if call ∈ s.between then
        some {s with sequence_queue_:=s.sequence_queue_ ++ [c.seq_id],between:=s.between.erase call,
                     sequenced:=s.sequenced ++ [call]}
      else none
  | .take =>
    match s.holding,s.respond_queue_ with
    | none,tuple :: rest => some {s with holding:=some tuple,respond_queue_:=rest}
    | _,_ => none
  -- The tuple's own seq_id is read and then overwritten by the queue's.
  | .send =>
    match s.holding,s.sequence_queue_ with
    | some tuple,seq :: rest =>
      some {s with holding:=none,sequence_queue_:=rest,
                   sent:=s.sent ++ [⟨seq,tuple.op_code,tuple.call,collect future tuple⟩]}
    | _,_ => none

def run (future : Waiter → Str) : State → List Action → Option State
  | s,[] => some s
  | s,action :: rest => (step future s action).bind (run future · rest)

-- Every response sent carries the sequence_id of the call whose futures gave its results.
def Routed (future : Waiter → Str) (s : State) : Prop :=
  ∀ m ∈ s.sent, ∃ c, s.calls[m.call]? = some c ∧ m.results = collect future (tupleOf m.call c) ∧ m.seq = c.seq_id

-- A call pushes its sequence_id only when every call that queued its futures
-- before it has pushed its own; a single call never does.
def InOrder (s : State) : Action → Prop
  | .sequence call => ∀ earlier < call, earlier ∈ s.sequenced
  | _ => True

def Ordered (future : Waiter → Str) : State → List Action → Prop
  | _,[] => True
  | s,action :: rest => InOrder s action ∧ ∀ next, step future s action = some next → Ordered future next rest

-- Tuples leave the queues in the order of the calls, and the sequence_ids pushed
-- so far are those of the first calls.
structure Aligned (future : Waiter → Str) (s : State) : Prop where
  tuples : s.sent.map Sent.call ++ s.holding.toList.map Tuple.call ++ s.respond_queue_.map Tuple.call =
    List.range s.calls.length
  made : ∀ t ∈ s.holding.toList ++ s.respond_queue_, ∃ c, s.calls[t.call]? = some c ∧ t = tupleOf t.call c
  produced : ∀ m ∈ s.sent, ∃ c, s.calls[m.call]? = some c ∧ m.results = collect future (tupleOf m.call c)
  sequences : s.sent.map Sent.seq ++ s.sequence_queue_ = (s.calls.take s.sequenced.length).map Call.seq_id
  pushed : s.sequenced = List.range s.sequenced.length
  within : s.sequenced.length ≤ s.calls.length
  once : s.between.Nodup
  unpushed : ∀ call ∈ s.between, call < s.calls.length ∧ call ∉ s.sequenced

theorem start_aligned (future : Waiter → Str) : Aligned future start := by
  refine ⟨rfl,?_,?_,rfl,rfl,le_refl _,.nil,?_⟩ <;> simp [start]

theorem Aligned.next_call (valid : Aligned future s) (waiting : call ∈ s.between)
    (order : ∀ earlier < call, earlier ∈ s.sequenced) : call = s.sequenced.length := by
  have absent := (valid.unpushed call waiting).2
  rw [valid.pushed,List.mem_range] at absent
  by_contra differs
  have gap : s.sequenced.length < call := by omega
  have listed := order s.sequenced.length gap
  rw [valid.pushed] at listed
  simp at listed

theorem call_kept {calls : List Call} {i : Nat} (found : calls[i]? = some c) (more : List Call) :
    (calls ++ more)[i]? = some c := by
  obtain ⟨below,_⟩ := List.getElem?_eq_some_iff.mp found
  rw [List.getElem?_append_left below]
  exact found

theorem respond_aligned (valid : Aligned future s) (ran : step future s (.respond c) = some next) :
    Aligned future next := by
  cases Option.some.inj ran
  have within := valid.within
  refine ⟨?_,?_,?_,?_,valid.pushed,?_,?_,?_⟩
  · simp only [List.map_append,List.map_cons,List.map_nil,List.length_append,List.length_singleton,
      List.range_succ,← valid.tuples,List.append_assoc]
    rfl
  · intro t member
    simp only [← List.append_assoc,List.mem_append,List.mem_singleton] at member
    rcases member with old | new
    · obtain ⟨d,found,same⟩ := valid.made t (List.mem_append.mpr old)
      exact ⟨d,call_kept found _,same⟩
    · subst new
      exact ⟨c,by simp [tupleOf],rfl⟩
  · intro m member
    obtain ⟨d,found,results⟩ := valid.produced m member
    exact ⟨d,call_kept found _,results⟩
  · dsimp only
    rw [List.take_append_of_le_length within]
    exact valid.sequences
  · simp only [List.length_append]
    omega
  · dsimp only
    split
    · refine List.nodup_append.mpr ⟨valid.once,by simp,?_⟩
      intro a old b new
      have below := (valid.unpushed a old).1
      rw [List.mem_singleton] at new
      omega
    · exact valid.once
  · intro call member
    have listed : call ∈ s.between ∨ call = s.calls.length := by
      by_cases pushes : c.kind.pushesSequence <;> simp_all
    simp only [List.length_append,List.length_singleton]
    rcases listed with old | new
    · obtain ⟨below,absent⟩ := valid.unpushed call old
      exact ⟨by omega,absent⟩
    · subst new
      refine ⟨by omega,?_⟩
      rw [valid.pushed,List.mem_range]
      omega

theorem sequence_aligned (valid : Aligned future s) (order : ∀ earlier < call, earlier ∈ s.sequenced)
    (ran : step future s (.sequence call) = some next) : Aligned future next := by
  simp only [step] at ran
  cases made : s.calls[call]? with
  | none => rw [made] at ran; cases ran
  | some c =>
    rw [made] at ran
    by_cases waiting : call ∈ s.between
    · simp only [waiting,if_true,Option.some.injEq] at ran
      subst ran
      have position := valid.next_call waiting order
      have below := (valid.unpushed call waiting).1
      refine ⟨valid.tuples,valid.made,valid.produced,?_,?_,?_,valid.once.erase call,?_⟩
      · have whole := valid.sequences
        simp only [List.length_append,List.length_singleton,List.take_add_one,← position,made,List.map_append,
          ← List.append_assoc]
        rw [whole,position]
        rfl
      · simp only [List.length_append,List.length_singleton,List.range_succ,← position]
        rw [position,← valid.pushed]
      · simp only [List.length_append,List.length_singleton]
        omega
      · intro other member
        obtain ⟨differs,listed⟩ := (valid.once.mem_erase_iff).mp member
        obtain ⟨bound,absent⟩ := valid.unpushed other listed
        refine ⟨bound,?_⟩
        simp only [List.mem_append,List.mem_singleton]
        exact not_or.mpr ⟨absent,differs⟩
    · simp only [waiting,if_false] at ran
      cases ran

theorem take_aligned (valid : Aligned future s) (ran : step future s .take = some next) : Aligned future next := by
  simp only [step] at ran
  split at ran
  · rename_i tuple rest held queue
    cases Option.some.inj ran
    have tuples := valid.tuples
    have made := valid.made
    simp only [held,queue,Option.toList_none,List.map_nil,List.append_nil,List.nil_append] at tuples made
    refine ⟨by simpa using tuples,by simpa using made,valid.produced,valid.sequences,valid.pushed,valid.within,
      valid.once,valid.unpushed⟩
  · cases ran

theorem send_aligned (valid : Aligned future s) (ran : step future s .send = some next) : Aligned future next := by
  simp only [step] at ran
  split at ran
  · rename_i tuple seq rest held queue
    cases Option.some.inj ran
    have tuples := valid.tuples
    have sequences := valid.sequences
    simp only [held,queue] at tuples sequences
    refine ⟨by simpa using tuples,?_,?_,by simpa using sequences,valid.pushed,valid.within,valid.once,valid.unpushed⟩
    · intro t member
      exact valid.made t (List.mem_append_right _ (by simpa using member))
    · intro m member
      rcases List.mem_append.mp member with old | new
      · exact valid.produced m old
      · rw [List.mem_singleton] at new
        subst new
        obtain ⟨c,found,same⟩ := valid.made tuple (by simp [held])
        exact ⟨c,found,congrArg (collect future) same⟩
  · cases ran

theorem step_aligned (valid : Aligned future s) (order : InOrder s action)
    (ran : step future s action = some next) : Aligned future next := by
  cases action with
  | respond c => exact respond_aligned valid ran
  | sequence call => exact sequence_aligned valid order ran
  | take => exact take_aligned valid ran
  | send => exact send_aligned valid ran

theorem run_aligned (actions : List Action) (valid : Aligned future s) (order : Ordered future s actions)
    (ran : run future s actions = some last) : Aligned future last := by
  induction actions generalizing s with
  | nil => cases Option.some.inj ran; exact valid
  | cons action rest ih =>
    obtain ⟨now,later⟩ := order
    obtain ⟨next,stepped,tail⟩ := Option.bind_eq_some_iff.mp ran
    exact ih (step_aligned valid now stepped) (later next stepped) tail

-- The n-th response answers the n-th call and carries the n-th sequence_id pushed.
theorem Aligned.routed (valid : Aligned future s) : Routed future s := by
  intro m member
  obtain ⟨c,found,results⟩ := valid.produced m member
  refine ⟨c,found,results,?_⟩
  obtain ⟨n,below,rfl⟩ := List.mem_iff_getElem.mp member
  have nth : s.sent[n].call = n := by
    have at_ := congrArg (fun l => l[n]?) valid.tuples
    have small : n < s.calls.length := by
      have lengths := congrArg List.length valid.tuples
      simp only [List.length_append,List.length_map,List.length_range] at lengths
      omega
    simpa [List.getElem?_append,below,small] using at_
  have seq := congrArg (fun l => l[n]?) valid.sequences
  rw [nth] at found
  simp only [List.getElem?_append,List.length_map,below,if_true,List.getElem?_map,List.getElem?_take,
    List.getElem?_eq_getElem below,Option.map_some] at seq
  split at seq
  · rw [found] at seq
    exact Option.some.inj seq
  · cases seq

-- Any number of clients and any interleaving: the responses of every run whose
-- sequence_ids are pushed in the order of the futures go to the calls they answer.
theorem ordered_runs_route (future : Waiter → Str) (actions : List Action) (s : State)
    (order : Ordered future start actions) (ran : run future start actions = some s) : Routed future s :=
  (run_aligned actions (start_aligned future) order ran).routed

def batchOf (client : Int) (keys : Nat) : Call := ⟨.async_get_batch,⟨client,0,0⟩,keys⟩
def named (w : Waiter) : Str := to_string w.call ++ to_string w.position

theorem ordered_runs_route_two_clients :
    (let actions := [.respond (batchOf 1 1),.respond (batchOf 2 1),.sequence 0,.take,.sequence 1,.send,.take,.send]
     ∃ s, run named start actions = some s ∧ Ordered named start actions ∧ s.sent.length = 2 ∧ Routed named s) := by
  have order : Ordered named start
      [.respond (batchOf 1 1),.respond (batchOf 2 1),.sequence 0,.take,.sequence 1,.send,.take,.send] := by
    simp [Ordered,InOrder,step,start,batchOf,Kind.pushesSequence]
  exact ⟨_,rfl,order,rfl,ordered_runs_route named _ _ order rfl⟩

-- Two handlers queue their futures in one order and their sequence_ids in the other.
theorem swapped_pushes_misroute :
    ¬ ∀ future actions s, run future start actions = some s → Routed future s := by
  intro always
  let actions := [Action.respond (batchOf 1 1),.respond (batchOf 2 1),.sequence 1,.sequence 0,.take,.send]
  obtain ⟨c,found,_,routed⟩ := always named actions _ rfl ⟨⟨2,0,0⟩,2,0,[to_string 0 ++ to_string 0]⟩ (by decide)
  cases found
  exact absurd routed (by decide)

end TsWaffle.Responder
