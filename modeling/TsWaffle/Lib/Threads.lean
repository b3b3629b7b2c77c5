import Mathlib.Logic.Function.Basic

namespace TsWaffle.Threads
variable {σ ε α β γ ι κ : Type}

-- A thread as the sequence of its atomic steps on the shared state. A step whose
-- outcome is an error is not taken: it waits, or it ends the process.
inductive Prog (σ ε : Type) (α : Type) : Type 1 where
  | ret (a : α)
  | act {β : Type} (f : σ → Except ε (β × σ)) (k : β → Prog σ ε α)

namespace Prog

def bind : Prog σ ε α → (α → Prog σ ε γ) → Prog σ ε γ
  | ret a,g => g a
  | act f k,g => act f (fun b => bind (k b) g)

instance : Monad (Prog σ ε) where
  pure := ret
  bind := bind

def atomic (f : σ → Except ε (β × σ)) : Prog σ ε β := act f ret

-- R is what the others may do between two steps, G what a step does to them.
def Safe (R G : σ → σ → Prop) (Q : α → σ → Prop) : Prog σ ε α → σ → Prop
  | ret a,s => ∀ t, R s t → Q a t
  | act f k,s => ∀ t, R s t → ∀ b u, f t = .ok (b,u) → G t u ∧ Safe R G Q (k b) u

-- The first n steps of a thread that runs alone.
def advance : Nat → Prog σ ε α → σ → Except ε (Prog σ ε α × σ)
  | 0,p,s => .ok (p,s)
  | _+1,ret a,s => .ok (ret a,s)
  | n+1,act f k,s =>
    match f s with
    | .ok (b,t) => advance n (k b) t
    | .error e => .error e

theorem bind_assoc (p : Prog σ ε α) (f : α → Prog σ ε β) (g : β → Prog σ ε γ) :
    p >>= f >>= g = p >>= fun a => f a >>= g := by
  induction p with
  | ret a => rfl
  | act h k ih => exact congrArg (act h) (funext ih)

theorem advance_act {p : Prog σ ε α} {f : σ → Except ε (β × σ)} {k : β → Prog σ ε α} {s t : σ} {b : β} {n : Nat}
    {P : σ → Prop} (shape : p = .act f k) (ran : f s = .ok (b,t))
    (more : ∃ q u, (k b).advance n t = .ok (q,u) ∧ P u) : ∃ q u, p.advance (n+1) s = .ok (q,u) ∧ P u := by
  rw [shape,Prog.advance,ran]
  exact more

-- From s the thread comes to its end with a, in t, while nobody but the world
-- outside acts between its steps.
inductive Serial (outside : σ → σ → Prop) : Prog σ ε α → σ → α → σ → Prop where
  | ret {a : α} {s : σ} : Serial outside (ret a) s a s
  | act {β : Type} {f : σ → Except ε (β × σ)} {k : β → Prog σ ε α} {s u t : σ} {b : β} {a : α}
      (ran : f s = .ok (b,u)) (rest : Serial outside (k b) u a t) : Serial outside (act f k) s a t
  | outside {p : Prog σ ε α} {s u t : σ} {a : α} (did : outside s u) (rest : Serial outside p u a t) :
      Serial outside p s a t

variable {R G outside : σ → σ → Prop} {I : σ → Prop} {Q : α → σ → Prop} {p : Prog σ ε α} {s t u : σ}

theorem Serial.atomic {f : σ → Except ε (α × σ)} {a : α} (ran : f s = .ok (a,t)) :
    Serial outside (Prog.atomic f) s a t := .act ran .ret

theorem Serial.bind {g : α → Prog σ ε γ} {a : α} {c : γ} (first : Serial outside p s a t) (later : Serial outside (g a) t c u) : Serial outside (p >>= g) s c u := by
  induction first with
  | ret => exact later
  | act ran _ ih => exact .act ran (ih later)
  | outside did _ ih => exact .outside did (ih later)

theorem Safe.rely (trans : ∀ s t u, R s t → R t u → R s u) (safe : Safe R G Q p s) (other : R s t) :
    Safe R G Q p t := by
  cases p with
  | ret a => exact fun u next => safe u (trans s t u other next)
  | act f k => exact fun u next => safe u (trans s t u other next)

def Stable (R : σ → σ → Prop) (I : σ → Prop) : Prop := ∀ s t, I s → R s t → I t

-- From a state in I the thread runs safely, and in Q if it comes to an end.
def Triple (R G : σ → σ → Prop) (I : σ → Prop) (p : Prog σ ε α) (Q : α → σ → Prop) : Prop :=
  ∀ s, I s → Safe R G Q p s

theorem triple_pure {a : α} (stable : Stable R (Q a)) : Triple R G (Q a) (pure a : Prog σ ε α) Q :=
  fun s holds t other => stable s t holds other

theorem triple_atomic {f : σ → Except ε (α × σ)} (stable : Stable R I) (after : ∀ a, Stable R (Q a))
    (each : ∀ s a t, I s → f s = .ok (a,t) → G s t ∧ Q a t) : Triple R G I (atomic f) Q := by
  intro s holds t other a u ran
  obtain ⟨guaranteed,reached⟩ := each t a u (stable s t holds other) ran
  exact ⟨guaranteed,fun v next => after a u v reached next⟩

theorem Triple.bind {g : α → Prog σ ε γ} {T : γ → σ → Prop} (refl : ∀ s, R s s) (first : Triple R G I p Q)
    (later : ∀ a, Triple R G (Q a) (g a) T) : Triple R G I (p >>= g) T := by
  intro s holds
  have safe := first s holds
  clear first holds
  induction p generalizing s with
  | ret a => exact later a s (safe s (refl s))
  | act f k ih =>
    intro t other b u ran
    obtain ⟨guaranteed,rest⟩ := safe t other b u ran
    exact ⟨guaranteed,ih b u rest⟩

theorem Triple.post {T : α → σ → Prop} (triple : Triple R G I p Q) (weaker : ∀ a s, Q a s → T a s) : Triple R G I p T := by
  intro s holds
  have safe := triple s holds
  clear triple holds
  induction p generalizing s with
  | ret a => exact fun t other => weaker a t (safe t other)
  | act f k ih =>
    intro t other b u ran
    obtain ⟨guaranteed,rest⟩ := safe t other b u ran
    exact ⟨guaranteed,ih b u rest⟩

end Prog

structure State (ι σ ε α : Type) where
  shared : σ
  threads : ι → Prog σ ε α

-- A thread takes its next step, a thread that has ended goes on with what it
-- returned, or the world outside the threads acts.
inductive Step [DecidableEq ι] (next : ι → α → κ → Prog σ ε α) (outside : σ → σ → Prop) :
    State ι σ ε α → State ι σ ε α → Prop where
  | act {τ : Type} {s : State ι σ ε α} {f : σ → Except ε (τ × σ)} {k : τ → Prog σ ε α} {b : τ} {u : σ} (i : ι)
      (at_ : s.threads i = .act f k) (ran : f s.shared = .ok (b,u)) :
      Step next outside s ⟨u,Function.update s.threads i (k b)⟩
  | next {s : State ι σ ε α} {a : α} (i : ι) (c : κ) (at_ : s.threads i = .ret a) :
      Step next outside s ⟨s.shared,Function.update s.threads i (next i a c)⟩
  | outside {s : State ι σ ε α} {u : σ} (did : outside s.shared u) : Step next outside s ⟨u,s.threads⟩

inductive Reachable [DecidableEq ι] (next : ι → α → κ → Prog σ ε α) (outside : σ → σ → Prop)
    (start : State ι σ ε α) : State ι σ ε α → Prop where
  | start : Reachable next outside start start
  | step {s t : State ι σ ε α} (reached : Reachable next outside start s) (moved : Step next outside s t) :
      Reachable next outside start t

-- One decision of a scheduler: whose step it is, and with what a thread that has
-- ended goes on.
inductive Move (ι κ : Type) where
  | act (i : ι)
  | next (i : ι) (c : κ)

def schedule [DecidableEq ι] (next : ι → α → κ → Prog σ ε α) :
    List (Move ι κ) → State ι σ ε α → Except ε (State ι σ ε α)
  | [],s => .ok s
  | .act i :: rest,s =>
    match s.threads i with
    | .ret _ => schedule next rest s
    | .act f k =>
      match f s.shared with
      | .ok (b,u) => schedule next rest ⟨u,Function.update s.threads i (k b)⟩
      | .error e => .error e
  | .next i c :: rest,s =>
    match s.threads i with
    | .ret a => schedule next rest ⟨s.shared,Function.update s.threads i (next i a c)⟩
    | .act _ _ => schedule next rest s

section
variable [DecidableEq ι] {next : ι → α → κ → Prog σ ε α} {outside : σ → σ → Prop} {start s : State ι σ ε α}
  {R G : ι → σ → σ → Prop} {Q : ι → α → σ → Prop} {I : σ → Prop}

-- Threads that are each safe among the others are safe together: what one
-- guarantees is what the others rely on.
theorem Reachable.safe (trans : ∀ i s t u, R i s t → R i t u → R i s u) (refl : ∀ i s, R i s s)
    (apart : ∀ i j s t, i ≠ j → G i s t → R j s t) (world : ∀ i s t, outside s t → R i s t)
    (again : ∀ i a c, Prog.Triple (R i) (G i) (Q i a) (next i a c) (Q i))
    (first : ∀ i, Prog.Safe (R i) (G i) (Q i) (start.threads i) start.shared)
    (reached : Reachable next outside start s) :
    ∀ i, Prog.Safe (R i) (G i) (Q i) (s.threads i) s.shared := by
  induction reached with
  | start => exact first
  | step reached moved ih =>
    intro j
    cases moved with
    | @act _ _ f k b u i at_ ran =>
      have here := ih i
      rw [at_] at here
      obtain ⟨guaranteed,rest⟩ := here _ (refl i _) b u ran
      dsimp only
      by_cases same : j = i
      · subst same
        rw [Function.update_self]
        exact rest
      · rw [Function.update_of_ne same]
        exact (ih j).rely (trans j) (apart i j _ _ (Ne.symm same) guaranteed)
    | @next _ a i c at_ =>
      dsimp only
      by_cases same : j = i
      · subst same
        rw [Function.update_self]
        have here := ih j
        rw [at_] at here
        exact again j a c _ (here _ (refl j _))
      · rw [Function.update_of_ne same]
        exact ih j
    | outside did => exact (ih j).rely (trans j) (world j _ _ did)

theorem Reachable.invariant (trans : ∀ i s t u, R i s t → R i t u → R i s u) (refl : ∀ i s, R i s s)
    (apart : ∀ i j s t, i ≠ j → G i s t → R j s t) (world : ∀ i s t, outside s t → R i s t)
    (again : ∀ i a c, Prog.Triple (R i) (G i) (Q i a) (next i a c) (Q i))
    (first : ∀ i, Prog.Safe (R i) (G i) (Q i) (start.threads i) start.shared)
    (acts : ∀ i s t, G i s t → I s → I t) (worldly : ∀ s t, outside s t → I s → I t) (initially : I start.shared)
    (reached : Reachable next outside start s) : I s.shared := by
  induction reached with
  | start => exact initially
  | step reached moved ih =>
    cases moved with
    | @act _ _ f k b u i at_ ran =>
      have here := reached.safe trans refl apart world again first i
      rw [at_] at here
      exact acts i _ _ (here _ (refl i _) b u ran).1 ih
    | next i c at_ => exact ih
    | outside did => exact worldly _ _ did ih

theorem Reachable.schedule {t : State ι σ ε α} (moves : List (Move ι κ)) (reached : Reachable next outside start s)
    (ran : Threads.schedule next moves s = .ok t) : Reachable next outside start t := by
  induction moves generalizing s with
  | nil =>
    cases ran
    exact reached
  | cons move rest ih =>
    cases move with
    | act i =>
      rw [Threads.schedule] at ran
      split at ran
      · exact ih reached ran
      · rename_i f k at_
        split at ran
        · rename_i b u did
          exact ih (reached.step (.act i at_ did)) ran
        · cases ran
    | next i c =>
      rw [Threads.schedule] at ran
      split at ran
      · rename_i a at_
        exact ih (reached.step (.next i c at_)) ran
      · exact ih reached ran

theorem Reachable.advance {p : Prog σ ε α} {u : σ} (i : ι) (n : Nat) (reached : Reachable next outside start s)
    (ran : Prog.advance n (s.threads i) s.shared = .ok (p,u)) :
    Reachable next outside start ⟨u,Function.update s.threads i p⟩ := by
  induction n generalizing s with
  | zero =>
    cases ran
    rw [Function.update_eq_self]
    exact reached
  | succ n ih =>
    cases at_ : s.threads i with
    | ret a =>
      rw [at_] at ran
      cases ran
      rw [← at_,Function.update_eq_self]
      exact reached
    | act f k =>
      rw [at_,Prog.advance] at ran
      cases did : f s.shared with
      | error e => rw [did] at ran; cases ran
      | ok both =>
        obtain ⟨b,t⟩ := both
        rw [did] at ran
        have alone : Prog.advance n (Function.update s.threads i (k b) i) t = .ok (p,u) := by
          rw [Function.update_self]
          exact ran
        have more := ih (reached.step (.act i at_ did)) alone
        rwa [Function.update_idem] at more

theorem Reachable.serial {p : Prog σ ε α} {before after : σ} {a : α} (i : ι) (reached : Reachable next outside start s)
    (at_ : s.threads i = p) (here : s.shared = before) (ran : Prog.Serial outside p before a after) :
    Reachable next outside start ⟨after,Function.update s.threads i (.ret a)⟩ := by
  induction ran generalizing s with
  | ret =>
    rw [← at_,Function.update_eq_self,← here]
    exact reached
  | act did _ ih =>
    subst here
    have more := ih (reached.step (.act i at_ did)) (Function.update_self ..) rfl
    rwa [Function.update_idem] at more
  | @outside _ _ u _ _ did _ ih =>
    subst here
    exact ih (s:=⟨u,s.threads⟩) (reached.step (.outside did)) at_ rfl

end
end TsWaffle.Threads
