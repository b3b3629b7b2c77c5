import TsWaffle.Batches
import TsWaffle.Loading

namespace TsWaffle
open Text Runs Server
variable {cfg : Config} {env : Env} {s t : Server} {pairs : List (Str × Str)} {draws : Draws}

-- What a run starts from: a codec and a prf that do their work, and an init that
-- returns with something in the cache.
structure Started (cfg : Config) (env : Env) (draws : Draws) (pairs : List (Str × Str)) (s : Server) : Prop where
  lawful : env.Lawful
  loadable : Loadable pairs
  warm : 1 ≤ cfg.cacheBatches*pairs.length/100
  ran : init cfg env draws pairs = .ok s

theorem Started.initial (started : Started cfg env draws pairs s) : Initial cfg env pairs s :=
  init_initial started.lawful draws started.loadable started.warm started.ran

theorem Started.sound (started : Started cfg env draws pairs s) : Sound cfg env s :=
  started.initial.sound started.loadable

-- A PUT names an item that has a bucket.
def Backed (s : Server) : Request → Prop
  | .put item _ _ => (s.proxy.realBst.timestamps item).toList ≠ []
  | .get _ _ _ => True

instance : ∀ r, Decidable (Backed s r)
  | .put _ _ _ => inferInstanceAs (Decidable (_ ≠ _))
  | .get _ _ _ => inferInstanceAs (Decidable True)

-- The steps of consumer_thread on well-formed requests, with batches that fit,
-- and those of clearThread at any time.
def Regular (cfg : Config) (s : Server) : Action → Prop
  | .serve r => s.i < cfg.R ∧ r.WellFormed ∧ Backed s r
  | .close _ => cfg.R ≤ s.i ∧ Fits cfg s
  | .clear => True

instance : ∀ action, Decidable (Regular cfg s action)
  | .serve _ => inferInstanceAs (Decidable (_ ∧ _))
  | .close _ => inferInstanceAs (Decidable (_ ∧ _))
  | .clear => inferInstanceAs (Decidable True)

-- The run has just come out of init or of an execute_batch.
def AtBoundary (actions : List Action) : Prop :=
  actions = [] ∨ ∃ earlier choice, actions = earlier ++ [.close choice]

-- What a request must find so that no later step trips over it.
def Safe (s : Server) : Action → Prop
  | .serve (.put item ts _) => ∀ u ∈ s.proxy.realBst.oldest? item, PutSafe s (bucketKey item ts) (bucketKey item u)
  | .serve (.get item a b) => ∀ k ∈ s.selected item a b, Agreeing s.proxy k
  | .close _ => True
  | .clear => True

instance {p : Proxy} {k : Str} : Decidable (Clean p k) :=
  inferInstanceAs (Decidable (∀ f ∈ p.realBst.accessFreqs.find? k, f = 0 ∨ f = p.timeStamp))

instance {k o : Str} : Decidable (PutSafe s k o) :=
  decidable_of_iff ((k = o → k ∈ s.proxy.cache.held) ∧ k ∉ s.storage_batch ∧ (k ≠ o → Clean s.proxy k) ∧
      (k ∈ s.proxy.cache.held → k ≠ o →
        s.proxy.keys_to_be_deleted.dedup.length+1 < s.proxy.cache.entries.length))
    ⟨fun all => ⟨all.1,all.2.1,all.2.2.1,all.2.2.2⟩,fun all => ⟨all.self,all.idle,all.clean,all.room⟩⟩

instance {p : Proxy} {key : Str} : Decidable (Agreeing p key) :=
  decidable_of_iff (∀ row ∈ p.cache.entries, row.1 = key → ∀ w ∈ p.runningKeys.get_cache.find? key, w = row.2)
    ⟨fun all v w cached found => all (key,v) cached rfl w found,
      fun all row cached same w found => all row.2 w (same ▸ cached) found⟩

instance : ∀ action, Decidable (Safe s action)
  | .serve (.put item _ _) => Option.decidableForallMem (s.proxy.realBst.oldest? item)
  | .serve (.get _ _ _) => inferInstanceAs (Decidable (∀ k ∈ _, _))
  | .close _ => inferInstanceAs (Decidable True)
  | .clear => inferInstanceAs (Decidable True)

-- Everything a step can do.
inductive Stepped (cfg : Config) (env : Env) (s : Server) : Action → Server → Prop
  | get (item : Str) (a b : Int) (running : ThreadSafeUnorderedMap) (batch : List Str) (i : Nat)
      (state : Requesting (s.asking item a b) s.requests.length (s.selected item a b) running batch i) :
      Stepped cfg env s (.serve (.get item a b))
        {(s.asking item a b).registering running batch i with request_id:=s.request_id+1}
  | put (item : Str) (ts : Int) (v : Str) (u : Int) (wf : (Request.put item ts v).WellFormed)
      (oldest : s.proxy.realBst.Oldest item u) (safe : PutSafe s (bucketKey item ts) (bucketKey item u)) :
      Stepped cfg env s (.serve (.put item ts v)) ((s.retire (bucketKey item u)).record item ts v)
  | close (choice : Choice) (t : Server) (real fake : List Str) (evicted : List (Str × Str))
      (done : Executed cfg env s t real fake evicted) : Stepped cfg env s (.close choice) t
  | clear (p : Proxy) (cleared : Cleared s.proxy p) : Stepped cfg env s .clear {s with proxy:=p}

theorem backed_oldest (wf : (Request.put item ts v).WellFormed)
    (backed : Backed s (.put item ts v)) : ∃ u, s.proxy.realBst.Oldest item u := by
  obtain ⟨u,bucket⟩ := List.exists_mem_of_ne_nil _ backed
  obtain ⟨o,_,oldest⟩ := FrequencySmoother.getOldestKey_wellFormed wf.1 bucket []
  exact ⟨o,oldest⟩

theorem step_stepped (lawful : env.Lawful) (sound : Sound cfg env s) (action : Action)
    (regular : Regular cfg s action) (safe : Safe s action) :
    ∃ t, step cfg env s action = .ok t ∧ Stepped cfg env s action t := by
  cases action with
  | serve r =>
    obtain ⟨_,wf,backed⟩ := regular
    cases r with
    | put item ts v =>
      obtain ⟨u,oldest⟩ := backed_oldest wf backed
      exact ⟨_,serve_put sound.resident sound.building wf oldest,.put item ts v u wf oldest (safe u (FrequencySmoother.mem_oldest.mpr oldest))⟩
    | get item a b =>
      obtain ⟨running,batch,i,ran,state⟩ := serve_get sound wf safe
      exact ⟨_,ran,.get item a b running batch i state⟩
  | close choice =>
    obtain ⟨t,real,fake,evicted,ran,done⟩ := close_executes lawful sound regular.2 choice
    exact ⟨t,ran,.close choice t real fake evicted done⟩
  | clear => exact ⟨_,rfl,.clear _ (clearThread_cleared _)⟩

theorem Stepped.sound (lawful : env.Lawful) (stepped : Stepped cfg env s action t) (sound : Sound cfg env s) :
    Sound cfg env t := by
  cases stepped with
  | get item a b running batch i state => exact get_sound sound state
  | put item ts v u wf oldest safe => exact put_sound sound wf oldest safe
  | close choice _ real fake evicted done => exact executed_sound lawful sound done
  | clear p cleared => exact cleared_sound sound cleared

-- Nothing is under way between two batches.
structure Rested (s : Server) : Prop where
  batch : s.storage_batch = []
  idle : s.proxy.runningKeys = .empty
  unscheduled : s.proxy.keys_to_be_deleted = []

theorem Initial.rested (start : Initial cfg env pairs s) : Rested s := ⟨start.batch,start.idle,start.unscheduled⟩

theorem Executed.rested (done : Executed cfg env s t real fake evicted) : Rested t :=
  ⟨by rw [done.frame],done.settled,done.cleared⟩

section
variable {Layer : Server → Prop} {Cond : Server → Action → Prop}

-- A property of the states on top of Sound, under a condition that makes every
-- step regular and safe.
structure Layered (cfg : Config) (env : Env) (Cond : Server → Action → Prop) (Layer : Server → Prop) : Prop where
  allowed : ∀ s action, Sound cfg env s → Layer s → Cond s action → Regular cfg s action ∧ Safe s action
  kept : ∀ s action t, Sound cfg env s → Layer s → Cond s action → Stepped cfg env s action t → Layer t

theorem Layered.add {More : Server → Prop} (layered : Layered cfg env Cond Layer)
    (kept : ∀ s action t, Sound cfg env s → Layer s → More s → Cond s action → Stepped cfg env s action t → More t) :
    Layered cfg env Cond (fun s => Layer s ∧ More s) := by
  refine ⟨?_,?_⟩
  · rintro s action sound ⟨holds,_⟩ now
    exact layered.allowed s action sound holds now
  · rintro s action t sound ⟨holds,more⟩ now stepped
    exact ⟨layered.kept s action t sound holds now stepped,kept s action t sound holds more now stepped⟩

theorem Layered.step (lawful : env.Lawful) (layered : Layered cfg env Cond Layer) (sound : Sound cfg env s)
    (holds : Layer s) (now : Cond s action) :
    ∃ t, Server.step cfg env s action = .ok t ∧ Stepped cfg env s action t ∧ Sound cfg env t ∧ Layer t := by
  obtain ⟨regular,safe⟩ := layered.allowed s action sound holds now
  obtain ⟨t,ran,stepped⟩ := step_stepped lawful sound action regular safe
  exact ⟨t,ran,stepped,stepped.sound lawful sound,layered.kept s action t sound holds now stepped⟩

theorem Layered.run (lawful : env.Lawful) (layered : Layered cfg env Cond Layer) (sound : Sound cfg env s)
    (holds : Layer s) (actions : List Action) (admissible : Admissible (Server.step cfg env) Cond s actions) :
    ∃ t, Runs.run (Server.step cfg env) s actions = .ok t ∧ Sound cfg env t ∧ Layer t := by
  have keeps : ∀ s action, Sound cfg env s ∧ Layer s → Cond s action →
      ∃ t, Server.step cfg env s action = .ok t ∧ Sound cfg env t ∧ Layer t := by
    intro s action both now
    obtain ⟨t,ran,_,after,still⟩ := layered.step lawful both.1 both.2 now
    exact ⟨t,ran,after,still⟩
  exact run_invariant keeps actions ⟨sound,holds⟩ admissible

-- The batch at the end of a run, with the state it was executed in.
theorem Layered.batch (lawful : env.Lawful) (layered : Layered cfg env Cond Layer) (sound : Sound cfg env s)
    (holds : Layer s) (earlier : List Action) (choice : Choice)
    (admissible : Admissible (Server.step cfg env) Cond s (earlier ++ [.close choice])) :
    ∃ m t real fake evicted, Runs.run (Server.step cfg env) s earlier = .ok m ∧ m.close cfg env choice = .ok t ∧
      Runs.run (Server.step cfg env) s (earlier ++ [.close choice]) = .ok t ∧ Sound cfg env m ∧ Layer m ∧
      Executed cfg env m t real fake evicted ∧ Sound cfg env t ∧ Layer t := by
  obtain ⟨before,after⟩ := admissible.append
  obtain ⟨m,ran,middle,between⟩ := layered.run lawful sound holds earlier before
  obtain ⟨t,closed,stepped,last,still⟩ := layered.step lawful middle between (after m ran).1
  cases stepped with
  | close _ _ real fake evicted done =>
    refine ⟨m,t,real,fake,evicted,ran,closed,?_,middle,between,done,last,still⟩
    rw [run_append,ran]
    exact run_cons closed

theorem Layered.boundary (lawful : env.Lawful) (layered : Layered cfg env Cond Layer) (start : Initial cfg env pairs s)
    (sound : Sound cfg env s) (holds : Layer s) (actions : List Action) (boundary : AtBoundary actions)
    (admissible : Admissible (Server.step cfg env) Cond s actions) :
    ∃ t, Runs.run (Server.step cfg env) s actions = .ok t ∧ Sound cfg env t ∧ Layer t ∧ Rested t := by
  rcases boundary with rfl | ⟨earlier,choice,rfl⟩
  · exact ⟨s,rfl,sound,holds,start.rested⟩
  · obtain ⟨_,t,_,_,_,_,_,ran,_,_,done,last,still⟩ := layered.batch lawful sound holds earlier choice admissible
    exact ⟨t,ran,last,still,done.rested⟩

end

-- A small server to evaluate runs on: three items, of which b is cached, and one
-- fake key.
def sampleEnv : Env := ⟨List.reverse,fun seed v => v ++ [UInt8.ofNat seed],List.dropLast⟩

theorem sampleEnv_lawful : sampleEnv.Lawful := ⟨List.reverse_injective,fun seed v => by simp [sampleEnv]⟩

def sampleConfig : Config := ⟨2,3,1,1,25,2,10,by decide⟩
def sampleDraws : Draws := ⟨[3],[⟨0,id,id⟩],id,id,fun keys => .refl keys⟩
def sampleChoice : Choice := ⟨id,id,id,fun _ i => i,1,fun ids => .refl ids,fun keys => .refl keys⟩
def samplePairs : List (Str × Str) := [(bucketKey (str "a") 1,str "p"),(bucketKey (str "a") 2,str "q"),
  (bucketKey (str "a") 3,str "r"),(bucketKey (str "b") 1,str "s"),(bucketKey (str "c") 1,str "x")]

theorem samplePairs_loadable : Loadable samplePairs := by
  refine ⟨?_,by decide⟩
  intro kv member
  simp only [samplePairs,List.mem_cons,List.not_mem_nil,or_false] at member
  rcases member with rfl | rfl | rfl | rfl | rfl
  · exact ⟨str "a",1,by decide,rfl⟩
  · exact ⟨str "a",2,by decide,rfl⟩
  · exact ⟨str "a",3,by decide,rfl⟩
  · exact ⟨str "b",1,by decide,rfl⟩
  · exact ⟨str "c",1,by decide,rfl⟩

def sampleServer : Server :=
  (init sampleConfig sampleEnv sampleDraws samplePairs).toOption.get (by decide +kernel)

theorem sampleStarted : Started sampleConfig sampleEnv sampleDraws samplePairs sampleServer :=
  ⟨sampleEnv_lawful,samplePairs_loadable,by decide,toOption_get _⟩

-- A GET over two buckets, then a PUT that retires the oldest of them.
def sampleActions : List Action := [.serve (.get (str "a") 1 2),.close sampleChoice,
  .serve (.put (str "a") 4 (str "t")),.serve (.get (str "b") 0 9),.clear]

end TsWaffle
