import TsWaffle.Pipelining

namespace TsWaffle.AsyncProxyClient
open Text Runs Places
open Responder (Kind)

-- A thread that has found the queue full, and one that will look at it or add to it.
def Caller.stalled : Caller → Bool
  | .parking _ | .waiting _ => true
  | _ => false

def Caller.moving : Caller → Bool
  | .locking _ | .testing _ | .sending _ | .pushing _ => true
  | _ => false

def Reader.owes : Reader → Nat
  | .notifying => 1
  | _ => 0

-- Enough is still to come for those who wait: each pop is going to notify, and
-- each thread that moves to push or to find the queue full itself.
def Owed (s : Client) : Prop :=
  0 < s.callers.countP Caller.stalled → s.in_flight_limit_ ≤ s.requests_.length+s.reader.owes+s.callers.countP Caller.moving

-- No notify_one finds nobody while a thread has tested but does not wait yet.
def Heard (s : Client) : Action → Prop
  | .notify none => s.callers.countP Caller.stalled = 0
  | _ => True

-- A thread that moves without coming to wait or going away.
theorem Owed.moves {s : Client} {room : Nat} (found : s.callers[i]? = some here) (there : Caller)
    (stalled : there.stalled.toNat ≤ here.stalled.toNat) (moving : here.moving.toNat ≤ there.moving.toNat)
    (owed : 0 < s.callers.countP Caller.stalled → s.in_flight_limit_ ≤ room+s.callers.countP Caller.moving) :
    0 < (s.callers.set i there).countP Caller.stalled →
      s.in_flight_limit_ ≤ room+(s.callers.set i there).countP Caller.moving := by
  have before := count_moved found there Caller.stalled
  have after := count_moved found there Caller.moving
  omega

theorem Moved.owed {s t : Client} (moved : Moved s action t) (heard : Heard s action) (owed : Owed s) : Owed t := by
  cases moved with
  | call kind found => exact Owed.moves found _ (le_refl _) (Nat.zero_le _) owed
  | wake found => exact Owed.moves found _ (Nat.zero_le _) (Nat.zero_le _) owed
  | lock free found | pass found room | wait found | send found | leave found =>
    exact Owed.moves found _ (le_refl _) (le_refl _) owed
  | park found full =>
    intro _
    simp only [Client.move]
    omega
  | push found =>
    have stalled := count_moved found .leaving Caller.stalled
    have moving := count_moved found .leaving Caller.moving
    simp only [Caller.stalled,Caller.moving,Bool.toNat_false,Bool.toNat_true] at stalled moving
    intro some_
    simp only [Client.move,List.length_append,List.length_singleton] at some_ ⊢
    have still := owed (by omega)
    omega
  | stop at_ over_ | again at_ more | receive at_ open_ filled =>
    intro some_
    have still := owed some_
    rw [at_] at still
    exact still
  | pop at_ shape =>
    intro some_
    have still := owed some_
    rw [at_,shape,List.length_cons] at still
    simp only [Reader.owes] at still ⊢
    omega
  | unheard at_ none_ =>
    intro some_
    exact absurd heard (Nat.pos_iff_ne_zero.mp some_)
  | notify at_ found =>
    -- one debt less, and one thread more on its way
    have stalled := count_moved found (.locking ‹Kind›) Caller.stalled
    have moving := count_moved found (.locking ‹Kind›) Caller.moving
    simp only [Caller.stalled,Caller.moving,Bool.toNat_false,Bool.toNat_true] at stalled moving
    have still := owed (by omega)
    rw [at_] at still
    intro _
    simp only [Client.move,Reader.owes] at still ⊢
    omega
  | finish first => exact owed
  | dummy at_ more =>
    intro some_
    have still := owed some_
    simp only [List.length_append,List.length_singleton]
    omega
  | join pushed gone => exact owed

theorem run_owed (actions : List Action) {s t : Client} (owed : Owed s) (heard : Admissible step Heard s actions)
    (ran : run step s actions = .ok t) : Owed t :=
  run_preserves (fun _ _ _ holds now stepped => (step_moved stepped).owed now holds) actions owed heard ran

-- Nothing is left to be answered and nobody moves, and still a thread waits.
structure Stranded (s : Client) : Prop where
  some_ : ∃ c ∈ s.callers, c.waits = true
  still : ∀ c ∈ s.callers, c = .away ∨ c.waits = true
  reader : s.reader = .popping
  requests : s.requests_ = []
  answered : s.answered = s.sent.length
  open_ : s.finisher = .absent

-- Only somebody from outside the client can end it: a new call, a spurious wakeup
-- or finish.
theorem Stranded.stuck {s : Client} (stranded : Stranded s) (ran : step s action = .ok t) :
    (∃ i kind, action = .call i kind) ∨ (∃ i, action = .wake i) ∨ action = .finish := by
  have nowhere : ∀ {i : Nat} {c : Caller}, s.callers[i]? = some c → c = .away ∨ c.waits = true :=
    fun found => stranded.still _ (List.mem_of_getElem? found)
  have reader := stranded.reader
  cases step_moved ran with
  | call kind found => exact .inl ⟨_,kind,rfl⟩
  | wake found => exact .inr (.inl ⟨_,rfl⟩)
  | finish first => exact .inr (.inr rfl)
  | lock free found | park found full | pass found room | wait found | send found | push found | leave found =>
    simpa [Caller.waits] using nowhere found
  | stop at_ over_ | again at_ more | unheard at_ none_ | notify at_ found | receive at_ open_ filled =>
    rw [reader] at at_
    cases at_
  | pop at_ shape =>
    rw [stranded.requests] at shape
    cases shape
  | dummy at_ more =>
    rw [stranded.open_] at at_
    cases at_
  | join pushed gone =>
    rw [stranded.open_] at pushed
    cases pushed

theorem Owed.not_stranded {s : Client} (owed : Owed s) (positive : 0 < s.in_flight_limit_) : ¬ Stranded s := by
  intro stranded
  obtain ⟨c,member,waits⟩ := stranded.some_
  have stalled : 0 < s.callers.countP Caller.stalled := by
    refine List.countP_pos_iff.mpr ⟨c,member,?_⟩
    cases c <;> simp_all [Caller.waits,Caller.stalled]
  have moving : s.callers.countP Caller.moving = 0 := by
    refine List.countP_eq_zero.mpr (fun c member => ?_)
    rcases stranded.still c member with rfl | waits
    · simp [Caller.moving]
    · cases c <;> simp_all [Caller.waits,Caller.moving]
  have enough := owed stalled
  rw [stranded.requests,stranded.reader,moving] at enough
  simp only [Reader.owes,List.length_nil] at enough
  omega

theorem request_ran {s : Client} (away : s.callers[0]? = some .away) (free : s.m_mtx_ = none)
    (room : s.requests_.length < s.in_flight_limit_) :
    run step s request = .ok {s with sequence_num:=s.sequence_num+1,sent:=s.sent ++ [(s.sequence_num,.async_get_batch)],
                                     requests_:=s.requests_ ++ [type .async_get_batch]} := by
  obtain ⟨rest,shape⟩ : ∃ rest, s.callers = .away :: rest := by
    cases listed : s.callers with
    | nil => simp [listed] at away
    | cons c rest =>
      rw [listed,List.getElem?_cons_zero,Option.some.injEq] at away
      exact ⟨rest,by rw [away]⟩
  simp [request,run,step,Client.move,shape,free,Nat.not_le.mpr room,bind,Except.bind]

theorem requests_ran (n : Nat) {s : Client} (away : s.callers[0]? = some .away) (free : s.m_mtx_ = none)
    (room : s.requests_.length+n ≤ s.in_flight_limit_) :
    ∃ next sent requests, run step s (List.replicate n request).flatten =
      .ok {s with sequence_num:=next,sent:=sent,requests_:=requests} ∧
      sent.length = s.sent.length+n ∧ requests.length = s.requests_.length+n := by
  induction n generalizing s with
  | zero => exact ⟨_,_,_,rfl,rfl,rfl⟩
  | succ n ih =>
    have first := request_ran away free (by omega)
    let later : Client := {s with sequence_num:=s.sequence_num+1,sent:=s.sent ++ [(s.sequence_num,.async_get_batch)],
                                  requests_:=s.requests_ ++ [type .async_get_batch]}
    obtain ⟨next,sent,requests,ran,more,longer⟩ := ih (s:=later) away free (by simp [later]; omega)
    refine ⟨next,sent,requests,?_,?_,?_⟩
    · rw [List.replicate_succ,List.flatten_cons,run_append,first]
      exact ran
    · simp only [later,List.length_append,List.length_singleton] at more
      omega
    · simp only [later,List.length_append,List.length_singleton] at longer
      omega

theorem rounds_ran {s : Client} (quiet : s.callers.any Caller.waits = false) (more : s.done_ = false)
    (popping : s.reader = .popping) (open_ : s.answered+s.requests_.length ≤ s.sent.length) :
    ∃ total, run step s (List.replicate s.requests_.length round).flatten =
      .ok {s with requests_:=[],answered:=s.answered+s.requests_.length,total_:=total} := by
  obtain ⟨limit,lock,callers,next,sent,requests,reader,done,finisher,answered,total⟩ := s
  dsimp only at quiet more popping open_
  subst more popping
  induction requests generalizing answered total with
  | nil => exact ⟨total,rfl⟩
  | cons front rest ih =>
    rw [List.length_cons] at open_
    obtain ⟨last,ran⟩ := ih (answered+1) (total+1) (by omega)
    have below : answered < sent.length := by omega
    refine ⟨last,?_⟩
    have first : run step (⟨limit,lock,callers,next,sent,front :: rest,.popping,false,finisher,answered,total⟩ : Client) round =
        .ok ⟨limit,lock,callers,next,sent,rest,.popping,false,finisher,answered+1,total+1⟩ := by
      simp [round,run,step,quiet,below,bind,Except.bind]
    rw [List.length_cons,List.replicate_succ,List.flatten_cons,run_append,first]
    refine ran.trans ?_
    rw [show answered+1+rest.length = answered+(rest.length+1) by omega]

-- The queue is filled; thread 0 comes once more and finds it full; and all its
-- requests are answered before it waits.
def late (limit : Nat) : List Action :=
  [.loop] ++ (List.replicate limit request).flatten ++ [.call 0 .async_get_batch,.lock 0,.test 0] ++
    (List.replicate limit round).flatten ++ [.wait 0]

theorem late_strands (limit others : Nat) :
    ∃ t, run step (start limit (others+1)) (late limit) = .ok t ∧ Stranded t := by
  obtain ⟨next,sent,requests,filled,many,full⟩ := requests_ran limit
    (s:={start limit (others+1) with reader:=.popping}) (by simp [start]) rfl (by simp [start])
  simp only [start,List.length_nil,Nat.zero_add] at many full
  obtain ⟨total,drained⟩ := rounds_ran
    (s:=⟨limit,some 0,.parking .async_get_batch :: List.replicate others .away,next,sent,requests,.popping,false,.absent,0,0⟩)
    (by simp [Caller.waits]) rfl rfl (by dsimp only; omega)
  refine ⟨⟨limit,none,.waiting .async_get_batch :: List.replicate others .away,next,sent,[],.popping,false,.absent,limit,total⟩,
    ?_,?_⟩
  · have begun : run step (start limit (others+1)) [.loop] = .ok {start limit (others+1) with reader:=.popping} := rfl
    have tested : run step
        (⟨limit,none,List.replicate (others+1) .away,next,sent,requests,.popping,false,.absent,0,0⟩ : Client)
        [.call 0 .async_get_batch,.lock 0,.test 0] =
        .ok ⟨limit,some 0,.parking .async_get_batch :: List.replicate others .away,next,sent,requests,.popping,false,.absent,0,0⟩ := by
      simp [run,step,Client.move,List.replicate_succ,full,bind,Except.bind]
    simp only [late,run_append,begun,bind,Except.bind,filled]
    simp only [start,tested]
    rw [full] at drained
    simp only [drained]
    simp [run,step,Client.move,bind,Except.bind]
  · refine ⟨⟨_,List.mem_cons_self,rfl⟩,?_,rfl,rfl,many.symm,rfl⟩
    intro c member
    rcases List.mem_cons.mp member with rfl | other
    · exact .inr rfl
    · exact .inl (List.eq_of_mem_replicate other)

theorem start_owed (limit threads : Nat) : Owed (start limit threads) := by
  intro some_
  simp [start,List.countP_replicate,Caller.stalled] at some_

-- notify_one is called without the mutex. Whatever the limit, a thread can be left
-- waiting with all its requests answered, and then nothing inside the client moves;
-- but only after a notification that came between a test and its wait.
theorem stranding_needs_lost_notification (limit others : Nat) (positive : 0 < limit) :
    (∃ actions t, run step (start limit (others+1)) actions = .ok t ∧ Stranded t ∧
        ∀ action next, step t action = .ok next →
          (∃ i kind, action = .call i kind) ∨ (∃ i, action = .wake i) ∨ action = .finish) ∧
      ∀ actions t, Admissible step Heard (start limit (others+1)) actions →
        run step (start limit (others+1)) actions = .ok t → ¬ Stranded t := by
  refine ⟨?_,?_⟩
  · obtain ⟨t,ran,stranded⟩ := late_strands limit others
    exact ⟨late limit,t,ran,stranded,fun _ _ stepped => stranded.stuck stepped⟩
  · intro actions t heard ran
    have owed := run_owed actions (start_owed limit (others+1)) heard ran
    apply owed.not_stranded
    rw [(run_orderly actions (start_orderly limit (others+1)) ran).limit]
    exact positive

theorem limit_2000_strands : 0 < 2000 ∧ ∃ actions t, run step (start 2000 1) actions = .ok t ∧ Stranded t := by
  obtain ⟨actions,t,ran,stranded,_⟩ := (stranding_needs_lost_notification 2000 0 (by decide)).1
  exact ⟨by decide,actions,t,ran,stranded⟩

-- No thread calls while another is in finish.
def Uncalled : Action → Prop
  | .call _ _ => False
  | _ => True

-- The response thread waits for a request, or for an answer that is not coming.
structure Deaf (s : Client) : Prop where
  away : ∀ c ∈ s.callers, c = .away
  answered : s.sent.length ≤ s.answered
  reader : s.reader ≠ .testing ∧ s.reader ≠ .ended
  finisher : s.finisher ≠ .returned

theorem Deaf.stays {s t : Client} (deaf : Deaf s) (uncalled : Uncalled action) (ran : step s action = .ok t) : Deaf t := by
  obtain ⟨away,answered,reader,finisher⟩ := deaf
  have nowhere : ∀ {i : Nat} {c : Caller}, s.callers[i]? = some c → c = .away :=
    fun found => away _ (List.mem_of_getElem? found)
  cases step_moved ran with
  | call kind found => exact absurd uncalled id
  | lock free found | park found full | pass found room | wait found | wake found | send found | push found | leave found
  | notify at_ found => cases nowhere found
  | stop at_ over_ | again at_ more => exact absurd at_ reader.1
  | pop at_ shape => exact ⟨away,answered,by simp,finisher⟩
  | unheard at_ none_ => exact ⟨away,answered,by simp,finisher⟩
  | receive at_ open_ filled => omega
  | finish first => exact ⟨away,answered,reader,by simp⟩
  | dummy at_ more => exact ⟨away,answered,reader,by simp⟩
  | join pushed gone => exact absurd gone reader.2

theorem Deaf.stays_run (actions : List Action) {s t : Client} (deaf : Deaf s) (uncalled : ∀ action ∈ actions, Uncalled action)
    (ran : run step s actions = .ok t) : Deaf t := by
  induction actions generalizing s with
  | nil =>
    cases ran
    exact deaf
  | cons action rest ih =>
    obtain ⟨next,stepped,tail⟩ := run_uncons ran
    exact ih (deaf.stays (uncalled _ List.mem_cons_self) stepped)
      (fun a member => uncalled a (List.mem_cons_of_mem _ member)) tail

-- What is left of finish when the response thread comes to its loop test.
def closing : List Action := [.loop,.dummy,.dummy,.dummy,.dummy,.dummy,.join]

-- finish, the rest of the round the response thread is in, and its end.
def finishing : Reader → List Action
  | .popping => [.finish,.pop,.notify none,.receive (.result [[]])]
  | .notifying => [.finish,.notify none,.receive (.result [[]])]
  | .receiving => [.finish,.receive (.result [[]])]
  | _ => [.finish]

theorem finishing_uncalled (reader : Reader) : ∀ action ∈ finishing reader ++ closing, Uncalled action := by
  cases reader <;> simp [finishing,closing,Uncalled]

theorem finishing_ran {s : Client} (away : ∀ c ∈ s.callers, c = .away) (first : s.finisher = .absent)
    (running : s.reader ≠ .ended) (open_ : s.reader ≠ .testing → s.answered < s.sent.length)
    (queued : s.reader = .popping → s.requests_ ≠ []) :
    ∃ t, run step s (finishing s.reader ++ closing) = .ok t ∧ t.finisher = .returned := by
  have quiet : s.callers.any Caller.waits = false := by
    rw [List.any_eq_false]
    intro c member
    rw [away c member]
    simp [Caller.waits]
  obtain ⟨limit,lock,callers,next,sent,requests,reader,done,finisher,answered,total⟩ := s
  dsimp only at first running open_ queued quiet
  subst first
  cases reader with
  | testing => exact ⟨_,rfl,rfl⟩
  | ended => exact absurd rfl running
  | popping =>
    have below := open_ (by simp)
    obtain ⟨front,rest,rfl⟩ := List.exists_cons_of_ne_nil (queued rfl)
    simp [finishing,closing,run,step,quiet,below,bind,Except.bind]
  | notifying =>
    have below := open_ (by simp)
    simp [finishing,closing,run,step,quiet,below,bind,Except.bind]
  | receiving =>
    have below := open_ (by simp)
    simp [finishing,closing,run,step,below,bind,Except.bind]

-- finish stores its flag and then pushes; a response thread that has run out of
-- requests has passed its loop test, and takes the first dummy for a request.
-- So the join comes back only where that test or an answer is still to come.
theorem finish_returns_iff (limit threads : Nat) (earlier : List Action) (m : Client)
    (ran : run step (start limit threads) earlier = .ok m) (away : ∀ c ∈ m.callers, c = .away) (first : m.finisher = .absent) :
    (∃ later t, (∀ action ∈ later, Uncalled action) ∧ run step m later = .ok t ∧ t.finisher = .returned) ↔
      m.reader = .testing ∨ m.answered < m.sent.length := by
  obtain ⟨placed,_,finishing_,_⟩ := run_orderly earlier (start_orderly limit threads) ran
  have running : m.reader ≠ .ended := by
    intro ended
    have done := finishing_.ended ended
    rw [finishing_.done.mpr first] at done
    cases done
  constructor
  · rintro ⟨later,t,uncalled,on,returned⟩
    by_contra neither
    obtain ⟨passed,answered⟩ := not_or.mp neither
    have deaf : Deaf m := ⟨away,by omega,⟨passed,running⟩,by simp [first]⟩
    exact (deaf.stays_run later uncalled on).finisher returned
  · intro one
    have counted := placed.counted
    have pushes : m.callers.countP Caller.pushes = 0 := by
      refine List.countP_eq_zero.mpr (fun c member => ?_)
      rw [away c member]
      simp [Caller.pushes]
    rw [pushes,first] at counted
    obtain ⟨t,on,returned⟩ := finishing_ran away first running (fun passed => one.resolve_left passed) (by
      intro popping empty
      rw [popping,empty] at counted
      have open_ := one.resolve_left (by simp [popping])
      simp only [Finisher.dummies,Reader.taken,List.length_nil] at counted
      omega)
    exact ⟨_,t,finishing_uncalled m.reader,on,returned⟩

-- A client whose one request has been sent, and then answered.
def sentClient : Client :=
  ⟨2000,none,[.away],1,[(0,.async_get_batch)],[type .async_get_batch],.popping,false,.absent,0,0⟩

def answeredClient : Client := {sentClient with requests_:=[],answered:=1,total_:=1}

theorem sent_client_finishes :
    (∃ later t, (∀ action ∈ later, Uncalled action) ∧ run step sentClient later = .ok t ∧ t.finisher = .returned) ∧
      ¬ ∃ later t, (∀ action ∈ later, Uncalled action) ∧ run step answeredClient later = .ok t ∧ t.finisher = .returned := by
  have sent := finish_returns_iff 2000 1 (.loop :: request) sentClient rfl (by simp [sentClient]) rfl
  have answered :=
    finish_returns_iff 2000 1 (.loop :: request ++ round) answeredClient rfl (by simp [answeredClient,sentClient]) rfl
  refine ⟨sent.mpr (.inr (by decide)),?_⟩
  rw [answered]
  decide

end TsWaffle.AsyncProxyClient
