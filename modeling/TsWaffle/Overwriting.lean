import TsWaffle.Placement
import TsWaffle.Reference

namespace TsWaffle
open Text Runs Server
variable {cfg : Config} {env : Env} {s t : Server} {pairs : List (Str × Str)} {draws : Draws} {k v : Str}

instance : ∀ action, Decidable (Behind s action)
  | .serve (.put item ts _) => inferInstanceAs (Decidable (bucketKey item ts ∉ s.proxy.cache.held →
      ∀ f ∈ s.proxy.realBst.accessFreqs.find? (bucketKey item ts), f < s.proxy.timeStamp))
  | .serve (.get _ _ _) => inferInstanceAs (Decidable True)
  | .close _ => inferInstanceAs (Decidable True)
  | .clear => inferInstanceAs (Decidable True)

-- Steps whose PUTs may overwrite a live key, where that leaves no trace.
def Cautious (cfg : Config) (s : Server) (action : Action) : Prop :=
  Regular cfg s action ∧ Safe s action ∧ Behind s action

instance (action : Action) : Decidable (Cautious cfg s action) := inferInstanceAs (Decidable (_ ∧ _ ∧ _))

theorem cautious_layered (lawful : env.Lawful) (cfg : Config) :
    Layered cfg env (Cautious cfg) (fun s => Ledger env s.proxy) := by
  refine ⟨?_,?_⟩
  · intro s action _ _ now
    exact ⟨now.1,now.2.1⟩
  · intro s action t sound ledger now stepped
    exact stepped.ledger lawful sound now.2.2 ledger

-- A step inside a batch that neither writes this key nor retires it.
def Spares (k : Str) (s : Server) : Action → Prop
  | .serve (.put item ts _) => bucketKey item ts ≠ k ∧ ∀ u ∈ s.proxy.realBst.oldest? item, bucketKey item u ≠ k
  | .serve (.get _ _ _) => True
  | .close _ => False
  | .clear => True

instance : ∀ action, Decidable (Spares k s action)
  | .serve (.put item _ _) =>
    have := Option.decidableForallMem (p:=fun u => bucketKey item u ≠ k) (s.proxy.realBst.oldest? item)
    inferInstanceAs (Decidable (_ ∧ _))
  | .serve (.get _ _ _) => inferInstanceAs (Decidable True)
  | .close _ => inferInstanceAs (Decidable False)
  | .clear => inferInstanceAs (Decidable True)

-- The key stays live through the batch, with this value.
def Holding (k v : Str) (s : Server) : Prop := Remaining s k ∧ s.last k = some v

theorem put_holding (sound : Sound cfg env s) (oldest : s.proxy.realBst.Oldest item u)
    (safe : PutSafe s (bucketKey item ts) (bucketKey item u)) :
    Holding (bucketKey item ts) v ((s.retire (bucketKey item u)).record item ts v) := by
  exact ⟨(record_remaining _ _ _ _ _ (put_unscheduled sound oldest safe)).mpr (.inl rfl),by rw [last_record,if_pos rfl]⟩

theorem Stepped.holding (stepped : Stepped cfg env s action t) (sound : Sound cfg env s) (spares : Spares k s action)
    (holding : Holding k v s) : Holding k v t := by
  obtain ⟨remaining,value⟩ := holding
  cases stepped with
  | get item a b running batch i state => exact ⟨remaining,(congrFun (last_get s item a b) k).trans value⟩
  | put item ts w u wf oldest safe =>
    refine ⟨?_,?_⟩
    · rw [record_remaining _ _ _ _ _ (put_unscheduled sound oldest safe),retire_remaining]
      exact .inr ⟨remaining,Ne.symm (spares.2 u (FrequencySmoother.mem_oldest.mpr oldest))⟩
    · rw [last_record,if_neg (Ne.symm spares.1),retire_last]
      exact value
  | close choice _ real fake evicted done => exact spares.elim
  | clear p cleared =>
    have frame := cleared.frame
    rw [frame]
    exact ⟨remaining,value⟩

-- Every label a batch passed to get_batch was in the storage.
def Fetched (s t : Server) : Prop := ∃ reads rest,
  t.proxy.calls = s.proxy.calls ++ ⟨.get_batch,t.proxy.timeStamp,reads⟩ :: rest ∧ ∀ l ∈ reads, l ∈ s.proxy.storage

theorem Executed.fetched (done : Executed cfg env s t real fake evicted) (sound : Sound cfg env s) : Fetched s t := by
  obtain ⟨rounds,calls,_⟩ := done.calls
  exact ⟨_,_,calls,fun l member => (rows_stored sound.resident done.plan).1 l member⟩

theorem every_batch_fetched (started : Started cfg env draws pairs s) (actions : List Action)
    (admissible : Admissible (step cfg env) (Cautious cfg) s actions) (earlier later : List Action) (choice : Choice)
    (shape : actions = earlier ++ .close choice :: later) :
    ∃ m t, run (step cfg env) s earlier = .ok m ∧ m.close cfg env choice = .ok t ∧ Fetched m t := by
  rw [shape,List.append_cons] at admissible
  obtain ⟨m,t,_,_,_,ran,closed,_,sound,_,done,_,_⟩ := (cautious_layered started.lawful cfg).batch started.lawful
    started.sound (started.initial.ledger started.lawful started.loadable) earlier choice admissible.append.1
  exact ⟨m,t,ran,closed,done.fetched sound⟩

-- From the PUT to the end of its batch.
theorem batch_holds (lawful : env.Lawful) (sound : Sound cfg env s) (ledger : Ledger env s.proxy)
    (holding : Holding k v s) (middle : List Action) (choice : Choice)
    (admissible : Admissible (step cfg env) (Cautious cfg) s (middle ++ [.close choice]))
    (spared : Admissible (step cfg env) (Spares k) s middle) :
    ∃ t f, run (step cfg env) s (middle ++ [.close choice]) = .ok t ∧
      t.proxy.realBst.accessFreqs.find? k = some f ∧ Placed env t.proxy k v f := by
  have cautious := cautious_layered lawful cfg
  have sparing : Layered cfg env (fun s action => Cautious cfg s action ∧ Spares k s action)
      (fun s => Ledger env s.proxy ∧ Holding k v s) := by
    refine ⟨?_,?_⟩
    · intro s action sound both now
      exact cautious.allowed s action sound both.1 now.1
    · intro s action t sound both now stepped
      exact ⟨cautious.kept s action t sound both.1 now.1 stepped,stepped.holding sound now.2 both.2⟩
  obtain ⟨before,after⟩ := admissible.append
  obtain ⟨m,ran,middleSound,middleLedger,remaining,value⟩ :=
    sparing.run lawful sound ⟨ledger,holding⟩ middle (Admissible.both middle before spared)
  obtain ⟨t,closed,stepped,last,still⟩ := cautious.step lawful middleSound middleLedger (after m ran).1
  cases stepped with
  | close _ _ real fake evicted done =>
    obtain ⟨f,found⟩ := Table.mem_iff.mp (done.live_iff.mpr ⟨remaining.2,remaining.1⟩)
    obtain ⟨w,written,placed⟩ := placed_last last.resident still found
    rw [done.last_eq,value] at written
    cases written
    refine ⟨t,f,?_,found,placed⟩
    rw [run_append,ran]
    exact run_cons closed

-- A PUT on a cached key that is the only bucket of its item.
def rewritingPut : Action := .serve (.put (str "b") 1 (str "t"))
def batchRest : List Action := [.serve (.get (str "c") 0 9)]

-- A PUT on the oldest bucket of its item, which lies in the storage: the PUT
-- schedules the very key it writes, and the batch deletes it.
def selfRetiringActions : List Action :=
  [.serve (.get (str "c") 0 9),.serve (.put (str "a") 1 (str "t")),.close sampleChoice]

end TsWaffle
