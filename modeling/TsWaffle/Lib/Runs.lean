import Mathlib

namespace TsWaffle.Runs
variable {σ α ε : Type} {step : σ → α → Except ε σ}

def run (step : σ → α → Except ε σ) : σ → List α → Except ε σ
  | s,[] => .ok s
  | s,action :: rest => step s action >>= (run step · rest)

-- Every action meets its condition in the state it is taken in.
def Admissible (step : σ → α → Except ε σ) (Cond : σ → α → Prop) : σ → List α → Prop
  | _,[] => True
  | s,action :: rest => Cond s action ∧ ∀ next, step s action = .ok next → Admissible step Cond next rest

theorem run_cons (stepped : step s action = .ok next) : run step s (action :: rest) = run step next rest := by
  simp only [run,stepped]
  rfl

-- A computation that returns comes apart into its parts, a run into its first
-- step and the rest.
theorem bind_ok {x : Except ε σ} {f : σ → Except ε α} (ran : x >>= f = .ok last) :
    ∃ middle, x = .ok middle ∧ f middle = .ok last := by
  cases x with
  | error fault => cases ran
  | ok middle => exact ⟨middle,rfl,ran⟩

theorem run_uncons (ran : run step s (action :: rest) = .ok last) :
    ∃ next, step s action = .ok next ∧ run step next rest = .ok last := bind_ok ran

theorem toOption_get {x : Except ε σ} (returned : x.toOption.isSome = true) : x = .ok (x.toOption.get returned) := by
  cases x with
  | error fault => cases returned
  | ok s => rfl

instance decideAdmissible {Cond : σ → α → Prop} [∀ s action, Decidable (Cond s action)] :
    ∀ s actions, Decidable (Admissible step Cond s actions)
  | _,[] => .isTrue trivial
  | s,action :: rest =>
    match stepped : step s action with
    | .error _ => decidable_of_iff (Cond s action) (by simp [Admissible,stepped])
    | .ok next =>
      have : Decidable (Admissible step Cond next rest) := decideAdmissible next rest
      decidable_of_iff (Cond s action ∧ Admissible step Cond next rest) (by simp [Admissible,stepped])

-- A step that is possible and keeps the invariant wherever its condition holds
-- makes every admissible run possible, with the invariant at its end.
theorem run_invariant {Inv : σ → Prop} {Cond : σ → α → Prop}
    (keeps : ∀ s action, Inv s → Cond s action → ∃ next, step s action = .ok next ∧ Inv next)
    (actions : List α) (holds : Inv s) (admissible : Admissible step Cond s actions) :
    ∃ last, run step s actions = .ok last ∧ Inv last := by
  induction actions generalizing s with
  | nil => exact ⟨s,rfl,holds⟩
  | cons action rest ih =>
    obtain ⟨now,later⟩ := admissible
    obtain ⟨next,stepped,kept⟩ := keeps s action holds now
    obtain ⟨last,ran,final⟩ := ih kept (later next stepped)
    exact ⟨last,by rw [run_cons stepped]; exact ran,final⟩

-- The same for runs that may stop: what the steps that return keep holds wherever
-- the run has got to.
theorem run_preserves {Inv : σ → Prop} {Cond : σ → α → Prop}
    (keeps : ∀ s action next, Inv s → Cond s action → step s action = .ok next → Inv next)
    (actions : List α) (holds : Inv s) (admissible : Admissible step Cond s actions)
    (ran : run step s actions = .ok last) : Inv last := by
  induction actions generalizing s with
  | nil => cases ran; exact holds
  | cons action rest ih =>
    obtain ⟨next,stepped,tail⟩ := run_uncons ran
    exact ih (keeps s action next holds admissible.1 stepped) (admissible.2 next stepped) tail

-- A computation that may fail, but not with this fault.
def Avoids (fault : ε) (x : Except ε σ) : Prop := x ≠ .error fault

theorem avoids_ok (fault : ε) (s : σ) : Avoids fault (.ok s : Except ε σ) := by
  intro same
  cases same

theorem avoids_error {fault other : ε} (differs : other ≠ fault) : Avoids fault (.error other : Except ε σ) := by
  intro same
  cases same
  exact differs rfl

theorem avoids_ite {fault : ε} {c : Prop} [Decidable c] {x y : Except ε σ} (one : Avoids fault x) (two : Avoids fault y) :
    Avoids fault (if c then x else y) := by
  split
  · exact one
  · exact two

theorem Avoids.bind {fault : ε} {x : Except ε σ} {f : σ → Except ε α} (first : Avoids fault x)
    (rest : ∀ s, x = .ok s → Avoids fault (f s)) : Avoids fault (x >>= f) := by
  cases x with
  | error other =>
    intro same
    cases same
    exact first rfl
  | ok s => exact rest s rfl

theorem run_avoids {Inv : σ → Prop} {Cond : σ → α → Prop} {fault : ε}
    (keeps : ∀ s action next, Inv s → Cond s action → step s action = .ok next → Inv next)
    (avoids : ∀ s action, Inv s → Cond s action → Avoids fault (step s action))
    (actions : List α) (holds : Inv s) (admissible : Admissible step Cond s actions) :
    Avoids fault (run step s actions) := by
  induction actions generalizing s with
  | nil => exact avoids_ok fault s
  | cons action rest ih =>
    refine (avoids s action holds admissible.1).bind ?_
    intro next stepped
    exact ih (keeps s action next holds admissible.1 stepped) (admissible.2 next stepped)

theorem run_append (s : σ) (earlier later : List α) :
    run step s (earlier ++ later) = run step s earlier >>= (run step · later) := by
  induction earlier generalizing s with
  | nil => rfl
  | cons action rest ih =>
    simp only [List.cons_append,run]
    cases step s action with
    | error fault => rfl
    | ok next => exact ih next

-- A fold whose steps keep the invariant exactly where their condition holds.
theorem fold_always_iff {next : σ → α → σ} {I : σ → Prop} {C : σ → α → Prop} (start : I s)
    (each : ∀ s action, I s → (I (next s action) ↔ C s action)) (actions : List α) :
    (∀ earlier later, actions = earlier ++ later → I (earlier.foldl next s)) ↔
      ∀ earlier action later, actions = earlier ++ action :: later → C (earlier.foldl next s) action := by
  constructor
  · intro always earlier action later split
    have before := always earlier (action :: later) split
    have after := always (earlier ++ [action]) later (by simp [split])
    rw [List.foldl_append] at after
    exact (each _ action before).mp after
  · intro kept earlier
    induction earlier using List.reverseRecOn with
    | nil => intro later _; exact start
    | append_singleton earlier action ih =>
      intro later split
      have shape : actions = earlier ++ action :: later := by simp [split]
      have before := ih (action :: later) shape
      rw [List.foldl_append]
      exact (each _ action before).mpr (kept earlier action later shape)

-- The same for runs that may stop: the invariant holds wherever the run has got to
-- exactly when every action meets its condition.
theorem run_always_iff {I : σ → Prop} {C : σ → α → Prop}
    (each : ∀ s action, I s → ((∀ next, step s action = .ok next → I next) ↔ C s action))
    (actions : List α) (start : I s) :
    (∀ earlier later t, actions = earlier ++ later → run step s earlier = .ok t → I t) ↔ Admissible step C s actions := by
  induction actions generalizing s with
  | nil =>
    refine ⟨fun _ => trivial,?_⟩
    intro _ earlier later t split ran
    obtain ⟨rfl,_⟩ := List.append_eq_nil_iff.mp split.symm
    cases ran
    exact start
  | cons action rest ih =>
    constructor
    · intro always
      have now : ∀ next, step s action = .ok next → I next :=
        fun next stepped => always [action] rest next rfl (by rw [run_cons stepped]; rfl)
      refine ⟨(each s action start).mp now,?_⟩
      intro next stepped
      refine (ih (now next stepped)).mp ?_
      intro earlier later t split ran
      refine always (action :: earlier) later t (by rw [split]; rfl) ?_
      rw [run_cons stepped]
      exact ran
    · intro admissible earlier later t split ran
      cases earlier with
      | nil =>
        cases ran
        exact start
      | cons first earlier =>
        obtain ⟨rfl,shape⟩ := List.cons.inj split
        obtain ⟨next,stepped,tail⟩ := run_uncons ran
        have kept := (each s action start).mpr admissible.1 next stepped
        exact (ih kept).mpr (admissible.2 next stepped) earlier later t shape tail

theorem Admissible.imp {Weak Strong : σ → α → Prop} (weaker : ∀ s action, Strong s action → Weak s action)
    (actions : List α) (admissible : Admissible step Strong s actions) : Admissible step Weak s actions := by
  induction actions generalizing s with
  | nil => trivial
  | cons action rest ih =>
    exact ⟨weaker s action admissible.1,fun next stepped => ih (admissible.2 next stepped)⟩

theorem Admissible.both {One Two : σ → α → Prop} (actions : List α) (one : Admissible step One s actions)
    (two : Admissible step Two s actions) : Admissible step (fun s action => One s action ∧ Two s action) s actions := by
  induction actions generalizing s with
  | nil => trivial
  | cons action rest ih =>
    exact ⟨⟨one.1,two.1⟩,fun next stepped => ih (one.2 next stepped) (two.2 next stepped)⟩

theorem Admissible.append {Cond : σ → α → Prop} (earlier later : List α)
    (admissible : Admissible step Cond s (earlier ++ later)) :
    Admissible step Cond s earlier ∧
      ∀ middle, run step s earlier = .ok middle → Admissible step Cond middle later := by
  induction earlier generalizing s with
  | nil =>
    refine ⟨trivial,?_⟩
    intro middle ran
    cases ran
    exact admissible
  | cons action rest ih =>
    obtain ⟨now,after⟩ := admissible
    refine ⟨⟨now,fun next stepped => (ih (after next stepped)).1⟩,?_⟩
    intro middle ran
    obtain ⟨next,stepped,tail⟩ := run_uncons ran
    exact (ih (after next stepped)).2 middle tail

-- One run after another.
theorem run_chain {Cond : σ → α → Prop} (earlier later : List α) (one : Admissible step Cond s earlier)
    (ran : run step s earlier = .ok middle) (two : Admissible step Cond middle later) (on : run step middle later = .ok last) :
    Admissible step Cond s (earlier ++ later) ∧ run step s (earlier ++ later) = .ok last := by
  refine ⟨?_,by rw [run_append,ran]; exact on⟩
  induction earlier generalizing s with
  | nil =>
    cases ran
    exact two
  | cons action rest ih =>
    obtain ⟨next,stepped,tail⟩ := run_uncons ran
    refine ⟨one.1,?_⟩
    intro other same
    rw [stepped] at same
    cases same
    exact ih (one.2 next stepped) tail

end TsWaffle.Runs
