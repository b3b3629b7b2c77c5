import TsWaffle.Proxy
import TsWaffle.Lib.Runs

namespace TsWaffle
open Text

-- How the values of a type are copied: into a new object, and into one that exists.
structure Copying (T : Type) where
  construct : T → T
  assign : T → T → T

-- The copy functions of a class that declares none.
def Copying.defaulted : Copying T := ⟨fun rhs => rhs,fun _ rhs => rhs⟩

-- std::pair copies its members, each with the functions of its own type.
def Copying.pair (first : Copying S) (second : Copying T) : Copying (S × T) where
  construct rhs := (first.construct rhs.1,second.construct rhs.2)
  assign this rhs := (first.assign this.1 rhs.1,second.assign this.2 rhs.2)

-- The copy constructor of operation is the default; its operator= copies nothing
-- and returns *this.
def Operation.copying : Copying Operation := ⟨fun rhs => rhs,fun this _ => this⟩

structure Queue (T : Type) where
  m_queue_ : List T
  size_ : Int32

namespace Queue

def empty : Queue T := ⟨[],0⟩
def size (q : Queue T) : Int := q.size_.toInt

-- Either push: moving the item in stores what copying it does.
def push (copy : Copying T) (q : Queue T) (item : T) : Queue T := ⟨q.m_queue_ ++ [copy.construct item],q.size_+1⟩

-- Either pop of an empty queue waits for a push.
def pop (copy : Copying T) (q : Queue T) : Except Fault (T × Queue T) :=
  match q.m_queue_ with
  | [] => .error .diverges
  | front :: rest => .ok (copy.construct front,⟨rest,q.size_-1⟩)

def popInto (copy : Copying T) (q : Queue T) (item : T) : Except Fault (T × Queue T) :=
  match q.m_queue_ with
  | [] => .error .diverges
  | front :: rest => .ok (copy.assign item front,⟨rest,q.size_-1⟩)

end Queue

-- popInto is pop(T&); its item is what the caller's object holds before the call.
inductive QueueCall (T : Type) where
  | push (item : T)
  | pop
  | popInto (item : T)

-- A queue next to all that has been pushed and all that has been delivered.
structure Served (T : Type) where
  queue : Queue T
  pushed : List T
  delivered : List T

namespace Served

def empty : Served T := ⟨.empty,[],[]⟩

def step (copy : Copying T) (s : Served T) : QueueCall T → Except Fault (Served T)
  | .push item => .ok ⟨s.queue.push copy item,s.pushed ++ [item],s.delivered⟩
  | .pop => do
    let (item,queue) ← s.queue.pop copy
    return ⟨queue,s.pushed,s.delivered ++ [item]⟩
  | .popInto item => do
    let (item,queue) ← s.queue.popInto copy item
    return ⟨queue,s.pushed,s.delivered ++ [item]⟩

-- What was delivered and what is held are together what was pushed, in that order.
structure Fifo (s : Served T) : Prop where
  order : s.delivered ++ s.queue.m_queue_ = s.pushed
  size : s.queue.size = s.queue.m_queue_.length

-- The element assigned is the front, and the count fits an int.
def Kept (copy : Copying T) (s : Served T) : QueueCall T → Prop
  | .push _ => s.queue.m_queue_.length+1 < 2^31
  | .pop => True
  | .popInto item => ∀ front ∈ s.queue.m_queue_.head?, copy.assign item front = front

theorem empty_fifo : (empty : Served T).Fifo := ⟨rfl,rfl⟩

theorem size_push (count : Int32) (n : Nat) (same : count.toInt = n) : (count+1).toInt = (n+1 : Nat) ↔ n+1 < 2^31 := by
  have below := count.toInt_lt
  have wrapped : (count+1).toInt = (count.toInt+1).bmod (2^32) := Int32.toInt_add count 1
  rw [wrapped,same,Int.bmod_def]
  omega

theorem size_pop (count : Int32) (n : Nat) (same : count.toInt = (n+1 : Nat)) : (count-1).toInt = n := by
  have below := count.toInt_lt
  have wrapped : (count-1).toInt = (count.toInt-1).bmod (2^32) := Int32.toInt_sub count 1
  rw [wrapped,same,Int.bmod_def]
  omega

variable {copy : Copying T}

-- Either pop: the front leaves, and something is delivered for it.
theorem Fifo.deliver {s : Served T} (fifo : s.Fifo) (shape : s.queue.m_queue_ = front :: rest) (item : T) :
    Fifo ⟨⟨rest,s.queue.size_-1⟩,s.pushed,s.delivered ++ [item]⟩ ↔ item = front := by
  have order := fifo.order
  have size := fifo.size
  rw [shape] at order size
  constructor
  · intro next
    have both := next.order.trans order.symm
    simpa using both
  · rintro rfl
    exact ⟨by simp [← order],size_pop _ _ size⟩

theorem Fifo.step_iff {s : Served T} (copies : ∀ item, copy.construct item = item) (fifo : s.Fifo) (call : QueueCall T) :
    (∀ next, s.step copy call = .ok next → next.Fifo) ↔ s.Kept copy call := by
  cases call with
  | push item =>
    have counted := size_push s.queue.size_ s.queue.m_queue_.length fifo.size
    constructor
    · intro kept
      have size := (kept _ rfl).size
      simp only [Queue.size,Queue.push,List.length_append,List.length_singleton] at size
      exact counted.mp size
    · intro few next stepped
      cases stepped
      refine ⟨?_,?_⟩
      · simp [Queue.push,copies,← fifo.order]
      · simpa [Queue.size,Queue.push] using counted.mpr few
  | pop =>
    refine ⟨fun _ => trivial,?_⟩
    intro _ next stepped
    cases shape : s.queue.m_queue_ with
    | nil => simp [Served.step,Queue.pop,shape,bind,Except.bind] at stepped
    | cons front rest =>
      simp only [Served.step,Queue.pop,shape,bind,Except.bind,pure,Except.pure] at stepped
      cases stepped
      exact (fifo.deliver shape _).mpr (copies front)
  | popInto item =>
    cases shape : s.queue.m_queue_ with
    | nil => simp [Served.step,Queue.popInto,Kept,shape,bind,Except.bind]
    | cons front rest =>
      have delivered := fifo.deliver shape (copy.assign item front)
      simpa [Served.step,Queue.popInto,Kept,shape,bind,Except.bind,pure,Except.pure] using delivered

-- Of every run of calls, up to a pop that waits.
theorem fifo_iff (copies : ∀ item, copy.construct item = item) (calls : List (QueueCall T)) :
    (∀ earlier later s, calls = earlier ++ later → Runs.run (step copy) empty earlier = .ok s → s.Fifo) ↔
      Runs.Admissible (step copy) (Kept copy) empty calls :=
  Runs.run_always_iff (fun _ call fifo => fifo.step_iff copies call) calls empty_fifo

-- Runs that use pop() alone, as the threads of the proxy do.
theorem pops_kept (calls : List (QueueCall T)) {s : Served T} (plain : ∀ item, QueueCall.popInto item ∉ calls)
    (few : s.queue.m_queue_.length+calls.length < 2^31) : Runs.Admissible (step copy) (Kept copy) s calls := by
  induction calls generalizing s with
  | nil => trivial
  | cons call rest ih =>
    have later : ∀ item, QueueCall.popInto item ∉ rest := fun item member => plain item (List.mem_cons_of_mem _ member)
    rw [List.length_cons] at few
    cases call with
    | push item =>
      refine ⟨by simp only [Kept]; omega,?_⟩
      intro next stepped
      cases stepped
      apply ih later
      simp only [Queue.push,List.length_append,List.length_singleton]
      omega
    | pop =>
      refine ⟨trivial,?_⟩
      intro next stepped
      cases shape : s.queue.m_queue_ with
      | nil => simp [Served.step,Queue.pop,shape,bind,Except.bind] at stepped
      | cons front queue =>
        simp only [Served.step,Queue.pop,shape,bind,Except.bind,pure,Except.pure] at stepped
        cases stepped
        rw [shape,List.length_cons] at few
        apply ih later
        simp only
        omega
    | popInto item => exact absurd List.mem_cons_self (plain item)

theorem pops_fifo (copies : ∀ item, copy.construct item = item) (calls : List (QueueCall T))
    (plain : ∀ item, QueueCall.popInto item ∉ calls) (few : calls.length < 2^31) :
    ∀ earlier later s, calls = earlier ++ later → Runs.run (step copy) empty earlier = .ok s → s.Fifo :=
  (fifo_iff copies calls).mpr (pops_kept calls plain (by simpa [empty,Queue.empty] using few))

end Served

-- The queue of an operation and the pointer to its promise.
def requestCopying : Copying (Operation × P) := .pair Operation.copying .defaulted

-- pop(T&) is given an object that has the key and the value of the front already.
def SameOperation (s : Served (Operation × P)) : QueueCall (Operation × P) → Prop
  | .push _ => s.queue.m_queue_.length+1 < 2^31
  | .pop => True
  | .popInto item => ∀ front ∈ s.queue.m_queue_.head?, item.1.key = front.1.key ∧ item.1.value = front.1.value

theorem sameOperation_iff (s : Served (Operation × P)) (call : QueueCall (Operation × P)) :
    s.Kept requestCopying call ↔ SameOperation s call := by
  cases call with
  | push | pop => exact Iff.rfl
  | popInto item =>
    have assigned : ∀ front : Operation × P, requestCopying.assign item front = front ↔
        item.1.key = front.1.key ∧ item.1.value = front.1.value := by
      intro front
      obtain ⟨⟨key,value⟩,promise⟩ := front
      obtain ⟨⟨mine,old⟩,prior⟩ := item
      simp [requestCopying,Copying.pair,Operation.copying,Copying.defaulted]
    simp only [Served.Kept,SameOperation,assigned]

theorem requests_fifo_iff (calls : List (QueueCall (Operation × P))) :
    (∀ earlier later s, calls = earlier ++ later →
      Runs.run (Served.step requestCopying) .empty earlier = .ok s → s.Fifo) ↔
      Runs.Admissible (Served.step requestCopying) SameOperation .empty calls := by
  rw [Served.fifo_iff (fun _ => rfl) calls]
  exact ⟨Runs.Admissible.imp (fun s call => (sameOperation_iff s call).mp) calls,
    Runs.Admissible.imp (fun s call => (sameOperation_iff s call).mpr) calls⟩

theorem pop_into_loses : ¬ ∀ earlier later s,
    ([.push (⟨str "k",str "v"⟩,0),.popInto (⟨[],[]⟩,1)] : List (QueueCall (Operation × Nat))) = earlier ++ later →
      Runs.run (Served.step requestCopying) .empty earlier = .ok s → s.Fifo := by
  intro always
  have fifo := always _ [] ⟨⟨[],0⟩,[(⟨str "k",str "v"⟩,0)],[(⟨[],[]⟩,0)]⟩ (List.append_nil _).symm rfl
  have order := fifo.order
  cases order

end TsWaffle
