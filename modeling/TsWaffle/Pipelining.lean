import TsWaffle.Responder
import TsWaffle.Lib.Runs
import TsWaffle.Lib.Places

namespace TsWaffle.AsyncProxyClient
open Text Runs Places
open Responder (Kind)

-- What the client notes of a request: GET, PUT, GET_BATCH and PUT_BATCH.
def type : Kind → Nat
  | .async_get => 0
  | .async_put => 1
  | .async_get_batch => 2
  | .async_put_batch => 3

-- Where a thread stands in get, put, get_batch or put_batch, which differ in the
-- call they make only. A thread that is woken locks the mutex again and then
-- tests again, like one that comes in.
inductive Caller where
  | away
  | locking (kind : Kind)
  | testing (kind : Kind)
  | parking (kind : Kind)
  | waiting (kind : Kind)
  | sending (kind : Kind)
  | pushing (kind : Kind)
  | leaving
  deriving DecidableEq

-- Where the response thread stands in read_responses.
inductive Reader where
  | testing | popping | notifying | receiving | ended
  deriving DecidableEq

-- The thread in finish; made counts its pushes.
inductive Finisher where
  | absent
  | pushing (made : Nat)
  | returned
  deriving DecidableEq

-- sent and answered are what has gone over the connection. size_ is written with
-- every push and pop, and is the length of the queue.
structure Client where
  in_flight_limit_ : Nat
  m_mtx_ : Option Nat
  callers : List Caller
  sequence_num : Int
  sent : List (Int × Kind)
  requests_ : List Nat
  reader : Reader
  done_ : Bool
  finisher : Finisher
  answered : Nat
  total_ : Nat
  deriving DecidableEq

-- What recv_response comes to: a result, an exception of the server, or the
-- timeout of the socket.
inductive Response where
  | result (out : List Str)
  | exception
  | timeout

-- Each action is one atomic step of one thread; wake is a spurious wakeup, and
-- notify names the waiting thread that notify_one picks.
inductive Action where
  | call (i : Nat) (kind : Kind)
  | lock (i : Nat)
  | test (i : Nat)
  | wait (i : Nat)
  | wake (i : Nat)
  | send (i : Nat)
  | push (i : Nat)
  | leave (i : Nat)
  | loop
  | pop
  | notify (w : Option Nat)
  | receive (response : Response)
  | finish
  | dummy
  | join

def start (limit threads : Nat) : Client :=
  ⟨limit,none,List.replicate threads .away,0,[],[],.testing,false,.absent,0,0⟩

def Client.move (s : Client) (i : Nat) (there : Caller) : Client := {s with callers:=s.callers.set i there}

def Caller.waits : Caller → Bool
  | .waiting _ => true
  | _ => false

-- A step that is not possible yet waits. After a timeout _return is empty, and
-- its first element is printed all the same; nothing catches the exception.
def step (s : Client) : Action → Except Fault Client
  | .call i kind =>
    match s.callers[i]? with
    | some .away => .ok (s.move i (.locking kind))
    | _ => .error .diverges
  | .lock i =>
    match s.m_mtx_,s.callers[i]? with
    | none,some (.locking kind) => .ok {s.move i (.testing kind) with m_mtx_:=some i}
    | _,_ => .error .diverges
  | .test i =>
    match s.callers[i]? with
    | some (.testing kind) =>
      if s.in_flight_limit_ ≤ s.requests_.length then .ok (s.move i (.parking kind)) else .ok (s.move i (.sending kind))
    | _ => .error .diverges
  | .wait i =>
    match s.callers[i]? with
    | some (.parking kind) => .ok {s.move i (.waiting kind) with m_mtx_:=none}
    | _ => .error .diverges
  | .wake i =>
    match s.callers[i]? with
    | some (.waiting kind) => .ok (s.move i (.locking kind))
    | _ => .error .diverges
  | .send i =>
    match s.callers[i]? with
    | some (.sending kind) =>
      .ok {s.move i (.pushing kind) with sequence_num:=s.sequence_num+1,sent:=s.sent ++ [(s.sequence_num,kind)]}
    | _ => .error .diverges
  | .push i =>
    match s.callers[i]? with
    | some (.pushing kind) => .ok {s.move i .leaving with requests_:=s.requests_ ++ [type kind]}
    | _ => .error .diverges
  | .leave i =>
    match s.callers[i]? with
    | some .leaving => .ok {s.move i .away with m_mtx_:=none}
    | _ => .error .diverges
  | .loop =>
    match s.reader with
    | .testing => if s.done_ then .ok {s with reader:=.ended} else .ok {s with reader:=.popping}
    | _ => .error .diverges
  | .pop =>
    match s.reader,s.requests_ with
    | .popping,_ :: rest => .ok {s with reader:=.notifying,requests_:=rest}
    | _,_ => .error .diverges
  | .notify none =>
    match s.reader with
    | .notifying => if s.callers.any Caller.waits then .error .diverges else .ok {s with reader:=.receiving}
    | _ => .error .diverges
  | .notify (some i) =>
    match s.reader,s.callers[i]? with
    | .notifying,some (.waiting kind) => .ok {s.move i (.locking kind) with reader:=.receiving}
    | _,_ => .error .diverges
  | .receive (.result out) =>
    match s.reader with
    | .receiving =>
      if s.answered < s.sent.length then
        if out = [] then .error .undefined
        else .ok {s with reader:=.testing,answered:=s.answered+1,total_:=s.total_+out.length}
      else .error .diverges
    | _ => .error .diverges
  | .receive .timeout => if s.reader = .receiving then .error .undefined else .error .diverges
  | .receive .exception => if s.reader = .receiving then .error .exit else .error .diverges
  | .finish =>
    match s.finisher with
    | .absent => .ok {s with done_:=true,finisher:=.pushing 0}
    | _ => .error .diverges
  | .dummy =>
    match s.finisher with
    | .pushing made =>
      if made < 5 then .ok {s with requests_:=s.requests_ ++ [type .async_get_batch],finisher:=.pushing (made+1)}
      else .error .diverges
    | _ => .error .diverges
  | .join => if s.finisher = .pushing 5 ∧ s.reader = .ended then .ok {s with finisher:=.returned} else .error .diverges

-- What a step that is taken has met and does.
inductive Moved (s : Client) : Action → Client → Prop where
  | call (kind : Kind) (found : s.callers[i]? = some .away) : Moved s (.call i kind) (s.move i (.locking kind))
  | lock (free : s.m_mtx_ = none) (found : s.callers[i]? = some (.locking kind)) :
      Moved s (.lock i) {s.move i (.testing kind) with m_mtx_:=some i}
  | park (found : s.callers[i]? = some (.testing kind)) (full : s.in_flight_limit_ ≤ s.requests_.length) :
      Moved s (.test i) (s.move i (.parking kind))
  | pass (found : s.callers[i]? = some (.testing kind)) (room : s.requests_.length < s.in_flight_limit_) :
      Moved s (.test i) (s.move i (.sending kind))
  | wait (found : s.callers[i]? = some (.parking kind)) : Moved s (.wait i) {s.move i (.waiting kind) with m_mtx_:=none}
  | wake (found : s.callers[i]? = some (.waiting kind)) : Moved s (.wake i) (s.move i (.locking kind))
  | send (found : s.callers[i]? = some (.sending kind)) :
      Moved s (.send i) {s.move i (.pushing kind) with sequence_num:=s.sequence_num+1,sent:=s.sent ++ [(s.sequence_num,kind)]}
  | push (found : s.callers[i]? = some (.pushing kind)) :
      Moved s (.push i) {s.move i .leaving with requests_:=s.requests_ ++ [type kind]}
  | leave (found : s.callers[i]? = some .leaving) : Moved s (.leave i) {s.move i .away with m_mtx_:=none}
  | stop (at_ : s.reader = .testing) (done : s.done_ = true) : Moved s .loop {s with reader:=.ended}
  | again (at_ : s.reader = .testing) (more : s.done_ = false) : Moved s .loop {s with reader:=.popping}
  | pop (at_ : s.reader = .popping) (shape : s.requests_ = front :: rest) :
      Moved s .pop {s with reader:=.notifying,requests_:=rest}
  | unheard (at_ : s.reader = .notifying) (none_ : s.callers.any Caller.waits = false) :
      Moved s (.notify none) {s with reader:=.receiving}
  | notify (at_ : s.reader = .notifying) (found : s.callers[i]? = some (.waiting kind)) :
      Moved s (.notify (some i)) {s.move i (.locking kind) with reader:=.receiving}
  | receive (at_ : s.reader = .receiving) (open_ : s.answered < s.sent.length) (filled : out ≠ []) :
      Moved s (.receive (.result out)) {s with reader:=.testing,answered:=s.answered+1,total_:=s.total_+out.length}
  | finish (first : s.finisher = .absent) : Moved s .finish {s with done_:=true,finisher:=.pushing 0}
  | dummy (at_ : s.finisher = .pushing made) (more : made < 5) :
      Moved s .dummy {s with requests_:=s.requests_ ++ [type .async_get_batch],finisher:=.pushing (made+1)}
  | join (pushed : s.finisher = .pushing 5) (ended : s.reader = .ended) : Moved s .join {s with finisher:=.returned}

theorem step_moved {s t : Client} {action : Action} (ran : step s action = .ok t) : Moved s action t := by
  cases action with
  | call i kind =>
    simp only [step] at ran
    split at ran
    · cases ran
      exact .call kind ‹_›
    · cases ran
  | lock i =>
    simp only [step] at ran
    split at ran
    · cases ran
      exact .lock ‹_› ‹_›
    · cases ran
  | test i =>
    simp only [step] at ran
    split at ran
    · split at ran
      · cases ran
        exact .park ‹_› ‹_›
      · cases ran
        exact .pass ‹_› (by omega)
    · cases ran
  | wait i =>
    simp only [step] at ran
    split at ran
    · cases ran
      exact .wait ‹_›
    · cases ran
  | wake i =>
    simp only [step] at ran
    split at ran
    · cases ran
      exact .wake ‹_›
    · cases ran
  | send i =>
    simp only [step] at ran
    split at ran
    · cases ran
      exact .send ‹_›
    · cases ran
  | push i =>
    simp only [step] at ran
    split at ran
    · cases ran
      exact .push ‹_›
    · cases ran
  | leave i =>
    simp only [step] at ran
    split at ran
    · cases ran
      exact .leave ‹_›
    · cases ran
  | loop =>
    simp only [step] at ran
    split at ran
    · split at ran
      · cases ran
        exact .stop ‹_› ‹_›
      · cases ran
        exact .again ‹_› (Bool.eq_false_of_not_eq_true ‹_›)
    · cases ran
  | pop =>
    simp only [step] at ran
    split at ran
    · cases ran
      exact .pop ‹_› ‹_›
    · cases ran
  | notify w =>
    cases w with
    | none =>
      simp only [step] at ran
      split at ran
      · split at ran
        · cases ran
        · cases ran
          exact .unheard ‹_› (Bool.eq_false_of_not_eq_true ‹_›)
      · cases ran
    | some i =>
      simp only [step] at ran
      split at ran
      · cases ran
        exact .notify ‹_› ‹_›
      · cases ran
  | receive response =>
    cases response with
    | result out =>
      simp only [step] at ran
      split at ran
      · split at ran
        · split at ran
          · cases ran
          · cases ran
            exact .receive ‹_› ‹_› ‹_›
        · cases ran
      · cases ran
    | timeout | exception =>
      simp only [step] at ran
      split at ran <;> cases ran
  | finish =>
    simp only [step] at ran
    split at ran
    · cases ran
      exact .finish ‹_›
    · cases ran
  | dummy =>
    simp only [step] at ran
    split at ran
    · split at ran
      · cases ran
        exact .dummy ‹_› ‹_›
      · cases ran
    · cases ran
  | join =>
    simp only [step] at ran
    split at ran
    · rename_i both
      cases ran
      exact .join both.1 both.2
    · cases ran

-- The threads inside the lock that have no place in the queue yet, those that
-- have made sure of one, and those that have sent their request.
def Caller.early : Caller → Bool
  | .testing _ | .parking _ | .leaving => true
  | _ => false

def Caller.sends : Caller → Bool
  | .sending _ => true
  | _ => false

def Caller.pushes : Caller → Bool
  | .pushing _ => true
  | _ => false

def Caller.inside (c : Caller) : Bool := c.early || c.sends || c.pushes

theorem count_inside (callers : List Caller) :
    callers.countP Caller.inside = callers.countP Caller.early+callers.countP Caller.sends+callers.countP Caller.pushes := by
  induction callers with
  | nil => rfl
  | cons c rest ih =>
    simp only [List.countP_cons,ih]
    cases c <;> simp [Caller.inside,Caller.early,Caller.sends,Caller.pushes] <;> omega

-- The request the response thread has taken from the queue and has no answer for.
def Reader.taken : Reader → Nat
  | .notifying | .receiving => 1
  | _ => 0

def Finisher.dummies : Finisher → Nat
  | .absent => 0
  | .pushing made => made
  | .returned => 5

-- One thread is inside the lock; what it is about to push has its place; and what
-- has been sent is answered, taken, in the queue or about to be.
structure Placed (s : Client) : Prop where
  single : s.callers.countP Caller.early+s.callers.countP Caller.sends+s.callers.countP Caller.pushes =
    s.m_mtx_.toList.length
  room : s.requests_.length+s.callers.countP Caller.sends+s.callers.countP Caller.pushes ≤
    s.in_flight_limit_+s.finisher.dummies
  counted : s.sent.length+s.finisher.dummies =
    s.answered+s.reader.taken+s.requests_.length+s.callers.countP Caller.pushes

theorem start_placed (limit threads : Nat) : Placed (start limit threads) := by
  have away : ∀ p : Caller → Bool, p .away = false → (start limit threads).callers.countP p = 0 := by
    intro p none_
    simp [start,List.countP_replicate,none_]
  have early := away Caller.early rfl
  have sends := away Caller.sends rfl
  have pushes := away Caller.pushes rfl
  refine ⟨?_,?_,?_⟩
  · rw [early,sends,pushes]
    rfl
  · rw [sends,pushes]
    exact Nat.zero_le _
  · rw [pushes]
    rfl

section
variable {s : Client} {i : Nat} {here : Caller} {kind : Kind}

-- A thread that stays inside the lock or outside of it, and makes sure of nothing.
theorem Placed.moves (placed : Placed s) (found : s.callers[i]? = some here) (there : Caller)
    (early : here.early = there.early) (sends : here.sends = there.sends) (pushes : here.pushes = there.pushes) :
    Placed (s.move i there) := by
  have counted : ∀ p : Caller → Bool, p here = p there → (s.callers.set i there).countP p = s.callers.countP p := by
    intro p same
    have moved := count_moved found there p
    rw [same] at moved
    omega
  refine ⟨?_,?_,?_⟩
  · simp only [Client.move,counted _ early,counted _ sends,counted _ pushes]
    exact placed.single
  · simp only [Client.move,counted _ sends,counted _ pushes]
    exact placed.room
  · simp only [Client.move,counted _ pushes]
    exact placed.counted

theorem moved_counts (found : s.callers[i]? = some here) (there : Caller) :
    ((s.callers.set i there).countP Caller.early+here.early.toNat = s.callers.countP Caller.early+there.early.toNat) ∧
      ((s.callers.set i there).countP Caller.sends+here.sends.toNat = s.callers.countP Caller.sends+there.sends.toNat) ∧
      (s.callers.set i there).countP Caller.pushes+here.pushes.toNat = s.callers.countP Caller.pushes+there.pushes.toNat :=
  ⟨count_moved found there _,count_moved found there _,count_moved found there _⟩

-- Releasing the mutex, to wait or to leave.
theorem Placed.unlocks (placed : Placed s) (found : s.callers[i]? = some here) (there : Caller) (inside : here.early = true)
    (outside : there.early = false) (sends : here.sends = there.sends) (pushes : here.pushes = there.pushes) :
    Placed {s.move i there with m_mtx_:=none} := by
  obtain ⟨single,room,counted⟩ := placed
  have one : s.m_mtx_.toList.length ≤ 1 := by cases s.m_mtx_ <;> simp
  obtain ⟨early,sent,pushed⟩ := moved_counts found there
  rw [inside,outside,Bool.toNat_true,Bool.toNat_false] at early
  rw [sends] at sent
  rw [pushes] at pushed
  refine ⟨?_,?_,?_⟩ <;> simp only [Client.move,Option.toList_none,List.length_nil] <;> omega

theorem Moved.placed {t : Client} (moved : Moved s action t) (placed : Placed s) : Placed t := by
  obtain ⟨single,room,counted⟩ := placed
  have one : s.m_mtx_.toList.length ≤ 1 := by cases s.m_mtx_ <;> simp
  cases moved with
  | call kind found => exact Placed.moves ⟨single,room,counted⟩ found _ rfl rfl rfl
  | wake found => exact Placed.moves ⟨single,room,counted⟩ found _ rfl rfl rfl
  | park found full => exact Placed.moves ⟨single,room,counted⟩ found _ rfl rfl rfl
  | lock free found =>
    obtain ⟨early,sends,pushes⟩ := moved_counts found (.testing ‹Kind›)
    simp only [Caller.early,Caller.sends,Caller.pushes,Bool.toNat_false,Bool.toNat_true] at early sends pushes
    rw [free,Option.toList_none,List.length_nil] at single
    refine ⟨?_,?_,?_⟩ <;> simp only [Client.move,Option.toList_some,List.length_singleton] <;> omega
  | pass found free =>
    -- the lock is its own, so nobody else is about to push
    obtain ⟨early,sends,pushes⟩ := moved_counts found (.sending ‹Kind›)
    simp only [Caller.early,Caller.sends,Caller.pushes,Bool.toNat_false,Bool.toNat_true] at early sends pushes
    refine ⟨?_,?_,?_⟩ <;> simp only [Client.move] <;> omega
  | wait found => exact Placed.unlocks ⟨single,room,counted⟩ found _ rfl rfl rfl rfl
  | leave found => exact Placed.unlocks ⟨single,room,counted⟩ found _ rfl rfl rfl rfl
  | send found =>
    obtain ⟨early,sends,pushes⟩ := moved_counts found (.pushing ‹Kind›)
    simp only [Caller.early,Caller.sends,Caller.pushes,Bool.toNat_false,Bool.toNat_true] at early sends pushes
    refine ⟨?_,?_,?_⟩ <;> simp only [Client.move,List.length_append,List.length_singleton] <;> omega
  | push found =>
    obtain ⟨early,sends,pushes⟩ := moved_counts found .leaving
    simp only [Caller.early,Caller.sends,Caller.pushes,Bool.toNat_false,Bool.toNat_true] at early sends pushes
    refine ⟨?_,?_,?_⟩ <;> simp only [Client.move,List.length_append,List.length_singleton] <;> omega
  | stop at_ done =>
    rw [at_] at counted
    exact ⟨single,room,counted⟩
  | again at_ more =>
    rw [at_] at counted
    exact ⟨single,room,counted⟩
  | pop at_ shape =>
    rw [shape,List.length_cons] at room counted
    rw [at_] at counted
    simp only [Reader.taken] at counted
    refine ⟨single,?_,?_⟩ <;> simp only [Reader.taken] <;> omega
  | unheard at_ none_ =>
    rw [at_] at counted
    exact ⟨single,room,counted⟩
  | notify at_ found =>
    rw [at_] at counted
    obtain ⟨still,space,same⟩ :=
      Placed.moves ⟨single,room,by rw [at_]; exact counted⟩ found (.locking ‹Kind›) rfl rfl rfl
    simp only [Client.move,at_] at same
    exact ⟨still,space,same⟩
  | receive at_ open_ filled =>
    rw [at_] at counted
    simp only [Reader.taken] at counted
    refine ⟨single,room,?_⟩
    simp only [Reader.taken]
    omega
  | finish first =>
    rw [first] at room counted
    exact ⟨single,room,counted⟩
  | dummy at_ more =>
    rw [at_] at room counted
    simp only [Finisher.dummies] at room counted
    refine ⟨single,?_,?_⟩ <;> simp only [Finisher.dummies,List.length_append,List.length_singleton] <;> omega
  | join pushed ended =>
    rw [pushed] at room counted
    exact ⟨single,room,counted⟩

end

-- The sequence numbers go out in their order.
structure Numbered (s : Client) : Prop where
  numbers : s.sent.map Prod.fst = (List.range s.sent.length).map Int.ofNat
  next : s.sequence_num = s.sent.length

theorem Moved.numbered {s t : Client} (moved : Moved s action t) (numbered : Numbered s) : Numbered t := by
  cases moved with
  | send found =>
    obtain ⟨numbers,next⟩ := numbered
    refine ⟨?_,?_⟩
    · rw [List.map_append,List.length_append,List.length_singleton,List.range_succ,List.map_append,numbers,next]
      rfl
    · rw [List.length_append,List.length_singleton,next]
      rfl
  | _ => exact ⟨numbered.numbers,numbered.next⟩

-- How far finish has come.
structure Finishing (s : Client) : Prop where
  few : s.finisher.dummies ≤ 5
  done : s.done_ = false ↔ s.finisher = .absent
  ended : s.reader = .ended → s.done_ = true

theorem Moved.finishing {s t : Client} (moved : Moved s action t) (finishing : Finishing s) : Finishing t := by
  obtain ⟨few,done,ended⟩ := finishing
  cases moved with
  | stop at_ over_ => exact ⟨few,done,fun _ => over_⟩
  | again | pop | unheard | receive => exact ⟨few,done,nofun⟩
  | notify => exact ⟨few,done,nofun⟩
  | finish first => exact ⟨Nat.zero_le _,by simp,fun _ => rfl⟩
  | dummy at_ more =>
    refine ⟨by simp only [Finisher.dummies]; omega,?_,ended⟩
    rw [at_] at done
    simpa using done
  | join pushed gone =>
    refine ⟨le_refl _,?_,ended⟩
    rw [pushed] at done
    simpa using done
  | _ => exact ⟨few,done,ended⟩

theorem Placed.in_flight {s : Client} (placed : Placed s) : s.sent.length ≤ s.answered+s.in_flight_limit_+1 := by
  obtain ⟨single,room,counted⟩ := placed
  have taken : s.reader.taken ≤ 1 := by cases s.reader <;> simp [Reader.taken]
  omega

theorem Moved.limit {s t : Client} (moved : Moved s action t) : t.in_flight_limit_ = s.in_flight_limit_ := by
  cases moved <;> rfl

structure Orderly (limit : Nat) (s : Client) : Prop where
  placed : Placed s
  numbered : Numbered s
  finishing : Finishing s
  limit : s.in_flight_limit_ = limit

theorem start_orderly (limit threads : Nat) : Orderly limit (start limit threads) :=
  ⟨start_placed limit threads,⟨rfl,rfl⟩,⟨Nat.zero_le _,by simp [start],by simp [start]⟩,rfl⟩

theorem run_orderly (actions : List Action) {limit : Nat} {s t : Client} (orderly : Orderly limit s)
    (ran : run step s actions = .ok t) : Orderly limit t := by
  induction actions generalizing s with
  | nil =>
    cases ran
    exact orderly
  | cons action rest ih =>
    obtain ⟨next,stepped,tail⟩ := run_uncons ran
    have moved := step_moved stepped
    exact ih ⟨moved.placed orderly.placed,moved.numbered orderly.numbered,moved.finishing orderly.finishing,
      moved.limit.trans orderly.limit⟩ tail

-- One get_batch of thread 0 that finds room, and one round of the response thread
-- that wakes nobody.
def request : List Action :=
  [.call 0 .async_get_batch,.lock 0,.test 0,.send 0,.push 0,.leave 0]

def round : List Action := [.pop,.notify none,.receive (.result [[]]),.loop]

-- However the threads interleave, one of them at a time is inside the lock, the
-- requests go out under the numbers 0, 1, 2 and so on, at most one more than the
-- limit is unanswered, and the queue is over the limit by the pushes of finish only.
theorem requests_in_flight (limit threads : Nat) (actions : List Action) (ran : run step (start limit threads) actions = .ok t) :
    t.sent.length ≤ t.answered+limit+1 ∧
      t.requests_.length ≤ limit+(if t.finisher = .absent then 0 else 5) ∧
      t.sent.map Prod.fst = (List.range t.sent.length).map Int.ofNat ∧
      t.callers.countP Caller.inside ≤ 1 := by
  obtain ⟨placed,numbered,finishing,same⟩ := run_orderly actions (start_orderly limit threads) ran
  have open_ := placed.in_flight
  have room := placed.room
  have few := finishing.few
  rw [same] at open_ room
  refine ⟨open_,?_,numbered.numbers,?_⟩
  · split
    · rename_i absent
      rw [absent,Finisher.dummies] at room
      omega
    · omega
  · rw [count_inside,placed.single]
    cases t.m_mtx_ <;> simp

-- The bound is met: the first request is taken from the queue, the second fills it.
theorem two_in_flight :
    ∃ t, run step (start 1 1) (.loop :: request ++ .pop :: request) = .ok t ∧ t.sent.length = 2 ∧
      t.sent.length ≤ t.answered+1+1 :=
  ⟨_,rfl,rfl,(requests_in_flight 1 1 (.loop :: request ++ .pop :: request) rfl).1⟩

end TsWaffle.AsyncProxyClient
