import TsWaffle.Consuming
import TsWaffle.Returning

namespace TsWaffle
open Text Runs Server
variable {cfg : Config} {env : Env} {draws : Draws} {pairs : List (Str × Str)} {p : Proxy} {s t : Server} {k key : Str}
  {r running : ThreadSafeUnorderedMap} {request_id : Int}

-- A bucket that a GET has to fetch: live, and neither at hand nor on its way.
def Fetchable (p : Proxy) (k : Str) : Prop :=
  k ∈ p.realBst.accessFreqs ∧ p.cache.checkIfKeyExists k = false ∧ evictedValue p.EvictedItems k = [] ∧
    p.runningKeys.present k = false

instance : Decidable (Fetchable p k) := inferInstanceAs (Decidable (_ ∧ _))

-- Asking for one bucket lengthens the batch when the bucket is fetchable, and
-- leaves every other bucket as fetchable as it was.
theorem Requested.length (done : Requested p batch key promise request_id q after) :
    after.length = batch.length+(if Fetchable p key then 1 else 0) := by
  cases done with
  | unknown qs dead set => simp [Fetchable,dead]
  | given v running live source registered =>
    have elsewhere : ¬ Fetchable p key := by
      rintro ⟨_,uncached,unevicted,_⟩
      rcases source with cached | ⟨_,rfl,filled⟩
      · have flag := cached_flag p.cache key
        rw [cached,uncached] at flag
        cases flag
      · exact filled unevicted
    simp [elsewhere]
  | pending live uncached unevicted =>
    cases running : p.runningKeys.present key with
    | true => simp [Fetchable,running]
    | false => simp [Fetchable,live,uncached,unevicted,running]

theorem Requested.fetchable (done : Requested p batch key promise request_id q after) (other : k ≠ key) :
    Fetchable q k ↔ Fetchable p k := by
  cases done with
  | unknown qs dead set => rfl
  | given v running live source registered => simp [Fetchable,insert_cache_present registered]
  | pending live uncached unevicted =>
    have same : (p.runningKeys.insertIfNotPresentGet key promise request_id).2.present k = p.runningKeys.present k := by
      rw [Bool.eq_iff_iff,ThreadSafeUnorderedMap.present_iff,ThreadSafeUnorderedMap.present_iff]
      simp [ThreadSafeUnorderedMap.insertIfNotPresentGet,other]
    simp [Fetchable,same]

theorem requestKeys_length (keys : List Str) (distinct : keys.Nodup) (ran : requestKeys promise keys s = .ok t) :
    t.storage_batch.length = s.storage_batch.length+(keys.filter (fun k => Fetchable s.proxy k)).length ∧
      t.i = s.i+keys.length := by
  induction keys generalizing s with
  | nil => cases ran; simp
  | cons key rest ih =>
    obtain ⟨fresh,others⟩ := List.nodup_cons.mp distinct
    obtain ⟨p,more,done,tail⟩ := requestKeys_uncons ran
    obtain ⟨length,count⟩ := ih others tail
    have same : rest.filter (fun k => Fetchable p k) = rest.filter (fun k => Fetchable s.proxy k) := by
      apply List.filter_congr
      intro k member
      have other : k ≠ key := by rintro rfl; exact fresh member
      simp [done.fetchable other]
    dsimp only at length count
    rw [same,done.length] at length
    refine ⟨?_,?_⟩
    · rw [length,List.filter_cons]
      by_cases fetched : Fetchable s.proxy key
      · simp only [fetched,if_true,decide_true,List.length_cons]
        omega
      · simp [fetched]
    · rw [count,List.length_cons]
      omega

theorem selected_nodup (s : Server) (item : Str) (a b : Int) : (s.selected item a b).Nodup := by
  have sorted := select_sorted (s.proxy.realBst.timestamps item).sorted a b
  refine List.Nodup.map ?_ (sorted.imp (fun less => ne_of_lt less))
  intro x y same
  exact to_string_injective (List.cons.inj (List.append_cancel_left same)).2

-- The buckets a GET has to fetch, in the state it is popped in.
def fetchedKeys (s : Server) (item : Str) (a b : Int) : List Str :=
  (s.selected item a b).filter (fun k => Fetchable s.proxy k)

theorem get_length (wf : (Request.get item a b).WellFormed) (ran : s.serve (.get item a b) = .ok t) :
    t.storage_batch.length = s.storage_batch.length+(fetchedKeys s item a b).length ∧
      t.i = s.i+(s.selected item a b).length := by
  obtain ⟨keys,bst,m,split,done,rfl⟩ := serve_returned_get ran
  rw [get_split_keys_get _ wf.1 wf.2.1 wf.2.2] at split
  cases split
  have grown := requestKeys_length (s:=s.asking item a b) (t:=m) (s.selected item a b) (selected_nodup s item a b) done
  exact grown

theorem Retired.length (done : Retired p batch key oldest bst q after) : after.length ≤ batch.length+1 := by
  cases done with
  | scheduled uncached unevicted =>
    split
    · omega
    · simp
  | cached held parsed => omega
  | evicted value parsed => omega

theorem put_length (filled : v ≠ []) (ran : s.serve (.put item ts v) = .ok t) :
    t.storage_batch.length ≤ s.storage_batch.length+1 ∧ t.i = s.i+1 := by
  obtain ⟨p,more,stored,rfl⟩ := serve_returned_put filled ran
  obtain ⟨oldest,bst,m,qs,_,retired,_⟩ := storeKey_returned stored
  exact ⟨retired.length,rfl⟩

-- The steps of consumer_thread on well-formed requests, whatever comes of them.
def Accepting (cfg : Config) (s : Server) : Action → Prop
  | .serve r => s.i < cfg.R ∧ r.WellFormed
  | _ => True

-- What a GET has to fetch fits into the batch beside the fake reads.
def HasRoom (cfg : Config) (s : Server) : Action → Prop
  | .serve (.get item a b) => s.storage_batch.length+(fetchedKeys s item a b).length+cfg.F ≤ cfg.B
  | _ => True

instance : ∀ action, Decidable (Accepting cfg s action)
  | .serve _ => inferInstanceAs (Decidable (_ ∧ _))
  | .close _ => inferInstanceAs (Decidable True)
  | .clear => inferInstanceAs (Decidable True)

instance : ∀ action, Decidable (HasRoom cfg s action)
  | .serve (.put _ _ _) => inferInstanceAs (Decidable True)
  | .serve (.get _ _ _) => inferInstanceAs (Decidable (_ ≤ _))
  | .close _ => inferInstanceAs (Decidable True)
  | .clear => inferInstanceAs (Decidable True)

-- A batch never holds more than i operations, and it leaves room for the fake reads.
structure Bounded (cfg : Config) (s : Server) : Prop where
  counted : s.storage_batch.length ≤ s.i
  room : s.storage_batch.length+cfg.F ≤ cfg.B

theorem step_bounded (wide : cfg.R+cfg.F ≤ cfg.B) (bounded : Bounded cfg s) (accepting : Accepting cfg s action)
    (room : HasRoom cfg s action) (ran : step cfg env s action = .ok t) : Bounded cfg t := by
  obtain ⟨counted,fits⟩ := bounded
  cases action with
  | serve r =>
    obtain ⟨more,wf⟩ := accepting
    cases r with
    | put item ts v =>
      obtain ⟨length,count⟩ := put_length wf.2 ran
      exact ⟨by omega,by omega⟩
    | get item a b =>
      obtain ⟨length,count⟩ := get_length wf ran
      have fewer : (fetchedKeys s item a b).length ≤ (s.selected item a b).length := List.length_filter_le _ _
      change s.storage_batch.length+(fetchedKeys s item a b).length+cfg.F ≤ cfg.B at room
      exact ⟨by omega,by omega⟩
  | close choice =>
    obtain ⟨_,_,_,_,_,rfl⟩ := close_returned ran
    exact ⟨le_refl _,by simp only [List.length_nil]; omega⟩
  | clear =>
    cases ran
    exact ⟨counted,fits⟩

theorem init_bounded (wide : cfg.R+cfg.F ≤ cfg.B) (ran : init cfg env draws pairs = .ok s) : Bounded cfg s := by
  unfold init at ran
  obtain ⟨_,_,ran⟩ := bind_ok ran
  obtain ⟨_,_,ran⟩ := bind_ok ran
  obtain ⟨_,_,ran⟩ := bind_ok ran
  cases ran
  exact ⟨le_refl _,by simp only [List.length_nil]; omega⟩

-- In a run whose GETs all find room, every batch handed to execute_batch leaves
-- room for its F fake reads, and the unsigned loop bound is the difference itself.
theorem batches_fit (wide : cfg.R+cfg.F ≤ cfg.B) (started : init cfg env draws pairs = .ok s) (actions : List Action)
    (admissible : Admissible (step cfg env) (fun s action => Accepting cfg s action ∧ HasRoom cfg s action) s actions)
    (earlier later : List Action) (choice : Choice) (m : Server) (shape : actions = earlier ++ Action.close choice :: later)
    (ran : run (step cfg env) s earlier = .ok m) :
    m.storage_batch.length+cfg.F ≤ cfg.B ∧
      fillCount cfg m.storage_batch.length = cfg.B-(m.storage_batch.length+cfg.F) := by
  rw [shape] at admissible
  have bounded := run_preserves (fun s action t holds now stepped => step_bounded wide holds now.1 now.2 stepped) earlier
    (init_bounded wide started) admissible.append.1 ran
  exact ⟨bounded.room,fillCount_exact cfg bounded.room⟩

theorem sample_batches_fit :
    Admissible (step sampleConfig sampleEnv)
      (fun s action => Accepting sampleConfig s action ∧ HasRoom sampleConfig s action) sampleServer
      (sampleActions ++ [Action.close sampleChoice]) ∧
    ∀ m, run (step sampleConfig sampleEnv) sampleServer sampleActions = .ok m →
      m.storage_batch.length+1 ≤ 3 ∧ fillCount sampleConfig m.storage_batch.length = 3-(m.storage_batch.length+1) :=
  ⟨by decide +kernel,fun m ran => batches_fit (by decide) sampleStarted.ran (sampleActions ++ [Action.close sampleChoice])
    (by decide +kernel) sampleActions [] sampleChoice m rfl ran⟩

def wideGet : List Action := [.serve (.get (str "a") 1 3)]

def crowdedServer : Server :=
  (run (step sampleConfig sampleEnv) sampleServer wideGet).toOption.get (by decide +kernel)

-- One GET over three uncached buckets, where the batch has room for two.
theorem wide_get_overfills_batch :
    ¬ ∀ (cfg : Config) (env : Env) (draws : Draws) (pairs : List (Str × Str)) (s : Server) (actions earlier later : List Action)
        (choice : Choice) (m : Server),
      cfg.R+cfg.F ≤ cfg.B → init cfg env draws pairs = .ok s → Admissible (step cfg env) (Accepting cfg) s actions →
      actions = earlier ++ Action.close choice :: later → run (step cfg env) s earlier = .ok m →
      m.storage_batch.length+cfg.F ≤ cfg.B := by
  intro always
  have fits := always sampleConfig sampleEnv sampleDraws samplePairs sampleServer (wideGet ++ [.close sampleChoice]) wideGet []
    sampleChoice crowdedServer (by decide) sampleStarted.ran (by decide +kernel) rfl (toOption_get _)
  exact absurd fits (by decide +kernel)

end TsWaffle
