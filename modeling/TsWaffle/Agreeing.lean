import TsWaffle.Draining
import TsWaffle.Consuming

namespace TsWaffle
open Text Runs Server
variable {cfg : Config} {env : Env} {s t : Server} {p q : Proxy} {batch after : List Str} {key : Str}

-- exit(1) is called by insert_cache only: the other faults of a step are thrown or
-- undefined.
theorem split_fault (failed : get_key_timestamp_split key = .error fault) : fault = .invalid_argument := by
  unfold get_key_timestamp_split at failed
  split at failed
  · cases failed; rfl
  · split at failed
    · cases failed; rfl
    · split at failed
      · cases failed
      · cases failed; rfl

theorem removeReal_avoids (p : Proxy) (key : Str) : Avoids .exit (p.removeReal key) := by
  unfold Proxy.removeReal
  split
  · rename_i bst fault shape
    apply avoids_error
    have failed := congrArg Prod.snd shape
    unfold FrequencySmoother.removeKey at failed
    dsimp only at failed
    split at failed
    · split at failed
      · rename_i early
        cases failed
        rw [split_fault early]
        decide
      · split at failed
        · cases failed
        · split at failed
          · cases failed
          · cases failed
    · cases failed
  · exact avoids_ok _ _

theorem insertReal_avoids (p : Proxy) (key : Str) : Avoids .exit (p.insertReal key) := by
  unfold Proxy.insertReal
  split
  · rename_i bst fault shape
    apply avoids_error
    have failed := congrArg Prod.snd shape
    unfold FrequencySmoother.insert at failed
    dsimp only at failed
    split at failed
    · split at failed
      · rename_i early
        cases failed
        rw [split_fault early]
        decide
      · cases failed
    · cases failed
  · exact avoids_ok _ _

theorem getOldestKey_avoids (bst : FrequencySmoother) (scheduled : List Str) (key : Str) :
    Avoids .exit (bst.getOldestKey scheduled key) := by
  unfold FrequencySmoother.getOldestKey
  split
  · rename_i early
    rw [split_fault early]
    exact avoids_error (by decide)
  · dsimp only
    split
    · exact avoids_error (by decide)
    · exact avoids_ok _ _

theorem set_value_avoids (ps : Promises) (promise : Nat) (answer : Answer) : Avoids .exit (set_value ps promise answer) := by
  unfold set_value
  exact avoids_ite (avoids_error (by decide)) (avoids_ok _ _)

theorem part_avoids (parts : List Str) (n : Nat) : Avoids .exit (part parts n) := by
  unfold part
  split
  · exact avoids_ok _ _
  · exact avoids_error (by decide)

theorem stol_avoids (text : Str) : Avoids .exit (stol text) := by
  unfold stol
  exact avoids_ite (avoids_error (by decide)) (avoids_ite (avoids_ok _ _) (avoids_error (by decide)))

theorem get_split_keys_avoids (bst : FrequencySmoother) (text : Str) : Avoids .exit (get_split_keys bst text) := by
  unfold get_split_keys
  refine (part_avoids _ _).bind (fun name _ => (part_avoids _ _).bind (fun second _ => (stol_avoids _).bind
    (fun start _ => (part_avoids _ _).bind (fun third _ => (stol_avoids _).bind (fun stop _ => ?_)))))
  exact avoids_ok _ _

theorem remove_oldest_data_avoids (p : Proxy) (batch : List Str) (key : Str) :
    Avoids .exit (p.remove_oldest_data batch key) := by
  unfold Proxy.remove_oldest_data
  refine (getOldestKey_avoids _ _ _).bind ?_
  intro pair _
  exact avoids_ite (avoids_ok _ _) (avoids_ite ((removeReal_avoids _ _).bind (fun _ _ => avoids_ok _ _))
    ((removeReal_avoids _ _).bind (fun _ _ => avoids_ok _ _)))

theorem storeKey_avoids (p : Proxy) (batch : List Str) (key value : Str) (promise : Nat) :
    Avoids .exit (p.storeKey batch key value promise) := by
  unfold Proxy.storeKey
  exact (remove_oldest_data_avoids _ _ _).bind (fun _ _ => (insertReal_avoids _ _).bind
    (fun _ _ => (set_value_avoids _ _ _).bind (fun _ _ => avoids_ok _ _)))

namespace ThreadSafeUnorderedMap
variable (r : ThreadSafeUnorderedMap) (ps : Promises)

theorem clearPromises_avoids (id : Int) : Avoids .exit (r.clearPromises ps id) := by
  unfold clearPromises
  split
  · exact set_value_avoids _ _ _
  · exact avoids_error (by decide)

theorem clearWaiting_avoids (ids : List Int) : Avoids .exit (r.clearWaiting ps ids) := by
  induction ids generalizing r ps with
  | nil => exact avoids_ok _ _
  | cons id rest ih =>
    unfold clearWaiting
    exact avoids_ite ((clearPromises_avoids _ _ _).bind (fun _ _ => avoids_ite (avoids_ok _ _) (ih _ _))) (ih _ _)

theorem deliver_avoids (value : Str → Str) (keys : List Str) : Avoids .exit (r.deliver ps value keys) := by
  induction keys generalizing r ps with
  | nil => exact avoids_ok _ _
  | cons key rest ih =>
    unfold deliver
    refine Avoids.bind ?_ (fun next _ => ih next.1 next.2)
    unfold tryClearPromises
    dsimp only
    split
    · exact avoids_ok _ _
    · exact clearWaiting_avoids _ _ _

theorem sweep_avoids (ids : List Int) : Avoids .exit (r.sweep ps ids) := by
  induction ids generalizing ps with
  | nil => exact avoids_ok _ _
  | cons id rest ih =>
    unfold sweep
    exact avoids_ite ((clearPromises_avoids _ _ _).bind (fun _ _ => (ih _).bind (fun _ _ => avoids_ok _ _))) (ih _)

theorem tryClearAllPromises_avoids (order : List Int → List Int) : Avoids .exit (r.tryClearAllPromises ps order) := by
  unfold tryClearAllPromises
  refine (sweep_avoids _ _ _).bind ?_
  intro swept _
  exact avoids_ite (avoids_ok _ _) (avoids_ok _ _)

end ThreadSafeUnorderedMap

theorem fill_avoids (cache : Cache) (evicted : Table Str Str) (entries : List Entry) (count : Nat)
    (running : ThreadSafeUnorderedMap) : Avoids .exit (fill cache evicted count entries running) := by
  induction entries generalizing count running with
  | nil =>
    cases count with
    | zero => exact avoids_ok _ _
    | succ count => exact avoids_error (by decide)
  | cons it rest ih =>
    cases count with
    | zero => exact avoids_ok _ _
    | succ count =>
      rw [fill]
      exact avoids_ite (avoids_ite (ih _ _) ((ih _ _).bind (fun _ _ => avoids_ok _ _))) (ih _ _)

theorem readFakes_avoids (env : Env) (clock : Int) (n : Nat) (bst : FrequencySmoother) (running : ThreadSafeUnorderedMap) :
    Avoids .exit (readFakes env clock n bst running) := by
  induction n generalizing bst running with
  | zero => exact avoids_ok _ _
  | succ n ih =>
    unfold readFakes
    split
    · exact avoids_error (by decide)
    · exact avoids_ite (avoids_error (by decide)) ((ih _ _).bind (fun _ _ => avoids_ok _ _))

theorem fetchAll_avoids (storage : Table Str Str) (labels : List Str) : Avoids .exit (Proxy.fetchAll storage labels) := by
  induction labels with
  | nil => exact avoids_ok _ _
  | cons label rest ih =>
    unfold Proxy.fetchAll
    split
    · exact avoids_error (by decide)
    · exact ih.bind (fun _ _ => avoids_ok _ _)

theorem writeReal_avoids (env : Env) (seed : Nat) (key response : Str) (w : WriteBack) :
    Avoids .exit (writeReal env seed key response w) := by
  unfold writeReal
  exact avoids_ite ((removeReal_avoids _ _).bind (fun _ _ => avoids_ok _ _)) (avoids_ok _ _)

theorem writeBack_avoids (cfg : Config) (env : Env) (choice : Choice) (readBatchMap : Table Str Str) (real n : Nat)
    (rows : List (Str × Str)) (w : WriteBack) : Avoids .exit (writeBack cfg env choice readBatchMap real n rows w) := by
  induction rows generalizing n w with
  | nil => exact avoids_ok _ _
  | cons row rest ih =>
    unfold writeBack
    exact avoids_ite ((writeReal_avoids _ _ _ _ _).bind (fun _ _ => ih _ _)) ((avoids_ok _ _).bind (fun _ _ => ih _ _))

theorem close_avoids (cfg : Config) (env : Env) (s : Server) (choice : Choice) : Avoids .exit (s.close cfg env choice) := by
  unfold Server.close
  refine (ThreadSafeUnorderedMap.tryClearAllPromises_avoids _ _ _).bind (fun swept _ => Avoids.bind ?_ (fun _ _ => avoids_ok _ _))
  unfold execute_batch
  refine (fill_avoids _ _ _ _ _).bind (fun filled _ => (readFakes_avoids _ _ _ _ _).bind (fun faked _ => Avoids.bind ?_
    (fun fetched _ => (writeBack_avoids _ _ _ _ _ _ _ _).bind (fun w _ =>
      (ThreadSafeUnorderedMap.deliver_avoids _ _ _ _).bind (fun _ _ => avoids_ok _ _)))))
  unfold Proxy.get_batch
  exact (fetchAll_avoids _ _).bind (fun _ _ => avoids_ok _ _)

-- What the GETs of a batch have been given is what the cache still holds; every key
-- that is running is in the batch.
structure Coherent (p : Proxy) (batch : List Str) : Prop where
  items : p.EvictedItems = ∅
  attached : p.runningKeys.Attached
  running : ∀ k, p.runningKeys.present k = true → k ∈ batch
  agreed : ∀ k v w, (k,v) ∈ p.cache.entries → p.runningKeys.get_cache.find? k = some w → v = w

theorem Coherent.unevicted (coherent : Coherent p batch) (key : Str) : evictedValue p.EvictedItems key = [] := by
  rw [evictedValue,coherent.items]
  rfl

theorem Cache.get_entry {c : Cache} (found : c.getValueWithoutPositionChangeNew key = (value,true)) :
    (key,value) ∈ c.entries := by
  have flag := cached_flag c key
  rw [found] at flag
  obtain ⟨v,listed⟩ := Cache.mem_held.mp (Cache.checkIfKeyExists_iff.mp flag.symm)
  rw [(Cache.get_present listed).1] at found
  cases found
  exact listed

theorem insert_cache_avoids (r : ThreadSafeUnorderedMap) (request_id : Int) (key value : Str) (promise : Nat)
    (agrees : ∀ w, r.get_cache.find? key = some w → w = value) :
    Avoids .exit (r.insert_cache request_id key value promise) := by
  unfold ThreadSafeUnorderedMap.insert_cache
  split
  · rename_i old found
    rw [if_neg (not_not.mpr (agrees old found))]
    exact avoids_ok _ _
  · exact avoids_ok _ _

theorem Coherent.requestKey_avoids (coherent : Coherent p batch) (key : Str) (promise : Nat) (request_id : Int) :
    Avoids .exit (p.requestKey batch key promise request_id) := by
  unfold Proxy.requestKey
  refine avoids_ite ((set_value_avoids _ _ _).bind (fun _ _ => avoids_ok _ _)) ?_
  generalize fetched : p.cache.getValueWithoutPositionChangeNew key = pair
  obtain ⟨val,isPresentInCache⟩ := pair
  dsimp only
  split
  · rename_i held
    subst held
    refine (insert_cache_avoids _ _ _ _ _ ?_).bind (fun _ _ => avoids_ok _ _)
    intro w given
    exact (coherent.agreed key val w (Cache.get_entry fetched) given).symm
  · rw [if_neg (not_not.mpr (coherent.unevicted key))]
    exact avoids_ok _ _

-- A key is appended to the batch unless it is running, and then it is there.
theorem Coherent.enqueued (coherent : Coherent p batch) (key : Str) :
    key ∈ (if p.runningKeys.present key then batch else batch ++ [key]) ∧
      ∀ k, p.runningKeys.present k = true → k ∈ if p.runningKeys.present key then batch else batch ++ [key] := by
  split
  · rename_i busy
    exact ⟨coherent.running key busy,coherent.running⟩
  · refine ⟨by simp,?_⟩
    intro k busy
    exact List.mem_append_left _ (coherent.running k busy)

theorem Requested.coherent {request_id : Int} (done : Requested p batch key promise request_id q after)
    (coherent : Coherent p batch) : Coherent q after := by
  cases done with
  | unknown qs dead set => exact ⟨coherent.items,coherent.attached,coherent.running,coherent.agreed⟩
  | given value running live source registered =>
    have entry : (key,value) ∈ p.cache.entries := by
      rcases source with cached | ⟨_,evicted,some_⟩
      · exact Cache.get_entry cached
      · rw [evicted,coherent.unevicted] at some_
        exact absurd rfl some_
    obtain ⟨attached,given⟩ := ThreadSafeUnorderedMap.insert_cache_attached coherent.attached registered
    refine ⟨coherent.items,attached,?_,?_⟩
    · intro k busy
      rw [insert_cache_present registered] at busy
      exact coherent.running k busy
    · intro k v w listed found
      rw [given,Table.find_insert] at found
      split at found
      · rename_i same
        cases found
        rw [same] at listed
        exact Cache.entry_unique listed entry
      · exact coherent.agreed k v w listed found
  | pending live uncached unevicted =>
    obtain ⟨here,others⟩ := coherent.enqueued key
    refine ⟨coherent.items,ThreadSafeUnorderedMap.insertIfNotPresentGet_attached coherent.attached _ _ _,?_,
      coherent.agreed⟩
    intro k busy
    rw [ThreadSafeUnorderedMap.present_iff] at busy
    simp only [ThreadSafeUnorderedMap.insertIfNotPresentGet,Table.mem_insert] at busy
    rcases busy with plain | same | waiting
    · exact others k ((ThreadSafeUnorderedMap.present_iff _ _).mpr (.inl plain))
    · rw [same]
      exact here
    · exact others k ((ThreadSafeUnorderedMap.present_iff _ _).mpr (.inr waiting))

theorem requestKeys_coherent (keys : List Str) (coherent : Coherent s.proxy s.storage_batch)
    (ran : requestKeys promise keys s = .ok t) : Coherent t.proxy t.storage_batch := by
  refine requestKeys_rule keys ?_ coherent ran
  intro p batch key request_id q after _ done before
  exact done.coherent before

theorem requestKeys_avoids (keys : List Str) (coherent : Coherent s.proxy s.storage_batch) :
    Avoids .exit (requestKeys promise keys s) := by
  induction keys generalizing s with
  | nil => exact avoids_ok _ _
  | cons key rest ih =>
    unfold requestKeys
    refine (coherent.requestKey_avoids key promise s.request_id).bind ?_
    intro next done
    exact ih (s:={s with proxy:=next.1,storage_batch:=next.2,i:=s.i+1}) ((requestKey_returned done).coherent coherent)

theorem Retired.coherent (done : Retired p batch key oldest bst q after) (coherent : Coherent p batch) :
    Coherent q after ∧ q.runningKeys.get_cache = p.runningKeys.get_cache := by
  cases done with
  | scheduled uncached unevicted =>
    obtain ⟨here,others⟩ := coherent.enqueued oldest
    refine ⟨⟨coherent.items,coherent.attached,?_,coherent.agreed⟩,rfl⟩
    intro k busy
    rcases (ThreadSafeUnorderedMap.insertIfNotPresent_present _ _ _).mp busy with rfl | old
    · exact here
    · exact others k old
  | cached held parsed =>
    refine ⟨⟨coherent.items,coherent.attached,coherent.running,?_⟩,rfl⟩
    intro k v w listed given
    rw [Cache.removeKey_entries] at listed
    exact coherent.agreed k v w (List.mem_filter.mp listed).1 given
  | evicted value parsed => exact absurd (coherent.unevicted oldest) value

theorem storeKey_coherent (coherent : Coherent p batch)
    (steady : ∀ old, p.runningKeys.get_cache.find? key = some old → old = value)
    (ran : p.storeKey batch key value promise = .ok (q,after)) : Coherent q after := by
  obtain ⟨oldest,bst,m,qs,found,retired,_,rfl,_⟩ := storeKey_returned ran
  obtain ⟨left,same⟩ := retired.coherent coherent
  refine ⟨left.items,left.attached,left.running,?_⟩
  intro k v w listed given
  dsimp only at listed given
  rw [Cache.insertIntoCache_entries] at listed
  rcases List.mem_cons.mp listed with now | before
  · cases now
    rw [same] at given
    exact (steady w given).symm
  · exact left.agreed k v w (List.mem_filter.mp before).1 given

-- A batch that returns leaves nothing running and nothing given.
theorem close_coherent (lawful : env.Lawful) (coherent : Coherent s.proxy s.storage_batch)
    (ran : s.close cfg env choice = .ok t) : Coherent t.proxy t.storage_batch := by
  obtain ⟨swept,qs,final,sweeps,executed,rfl⟩ := close_returned ran
  obtain ⟨stages,followed⟩ := execute_batch_returned executed
  obtain ⟨w,more,satisfied,written⟩ := followed.writtenBack lawful
  have left := followed.left written
  obtain ⟨_,fills⟩ := fill_returned _ _ _ followed.fills
  obtain ⟨_,_,_,fakes⟩ := readFakes_returned _ _ _ followed.fakes
  have wide := fills.trans fakes
  have asked : ∀ k, s.proxy.runningKeys.present k = true → k ∈ stages.real := by
    intro k busy
    exact List.mem_append_left _ (coherent.running k busy)
  have draining := ThreadSafeUnorderedMap.tryClearAllPromises_draining (choice.order stages.w.promiseSatisfy.keys)
    coherent.attached (choice.walked _) (by
      intro k waiting
      exact written.delivered.mpr (.inl (asked k ((ThreadSafeUnorderedMap.present_iff _ _).mpr (.inr waiting))))) sweeps
  have delivers := followed.delivers
  rw [written.running] at delivers
  obtain ⟨none,unwaited,ungiven⟩ := ThreadSafeUnorderedMap.deliver_drains _ _ (draining.widened wide) delivers
  have plain : ∀ k, k ∉ stages.running.m_map_ := by
    intro k member
    obtain ⟨before,unread,unfaked⟩ := followed.still_plain written member
    rcases wide.plain k before with old | new
    · refine unread (asked k ?_)
      rw [ThreadSafeUnorderedMap.present_iff] at old ⊢
      rw [ThreadSafeUnorderedMap.tryClearAllPromises_plain sweeps] at old
      exact old.imp_right (ThreadSafeUnorderedMap.tryClearAllPromises_waiting sweeps k)
    · rcases List.mem_append.mp new with filled | faked
      · exact unread (List.mem_append_right _ filled)
      · exact unfaked faked
  refine ⟨?_,?_,?_,?_⟩
  · dsimp only
    rw [left.items]
    apply Table.eq_empty
    intro k member
    obtain ⟨v,found⟩ := Table.mem_iff.mp member
    obtain ⟨kept,before⟩ := Table.find_eraseAll_some found
    rcases written.real.items k (Table.mem_iff.mpr ⟨v,before⟩) with old | temporary
    · rw [stages.middle_cleared.frame] at old
      dsimp only at old
      rw [coherent.items] at old
      exact Table.notMem_empty k old
    · exact kept temporary
  · intro id ks op row
    dsimp only at row
    rw [left.running,none] at row
    simp at row
  · intro k busy
    dsimp only at busy
    rw [left.running,ThreadSafeUnorderedMap.present_iff,unwaited] at busy
    exact busy.elim (fun member => absurd member (plain k)) (fun member => absurd member (Table.notMem_empty k))
  · intro k v u _ given
    dsimp only at given
    rw [left.running,ungiven] at given
    simp at given

-- A PUT gives a key that a GET of the batch has taken from the cache the value it
-- was taken with.
def Steady (s : Server) : Action → Prop
  | .serve (.put item ts value) => ∀ old ∈ s.proxy.runningKeys.get_cache.find? (bucketKey item ts), old = value
  | _ => True

instance : ∀ action, Decidable (Steady s action)
  | .serve (.put item ts _) => Option.decidableForallMem (s.proxy.runningKeys.get_cache.find? (bucketKey item ts))
  | .serve (.get _ _ _) => inferInstanceAs (Decidable True)
  | .close _ => inferInstanceAs (Decidable True)
  | .clear => inferInstanceAs (Decidable True)

theorem serve_coherent {r : Request} (coherent : Coherent s.proxy s.storage_batch) (steady : Steady s (.serve r))
    (ran : s.serve r = .ok t) : Coherent t.proxy t.storage_batch := by
  rcases serve_returned ran with ⟨_,keys,bst,m,_,asked,rfl⟩ | ⟨filled,q,more,stored,rfl⟩
  · have before : Coherent {s.proxy with realBst:=bst} s.storage_batch :=
      ⟨coherent.items,coherent.attached,coherent.running,coherent.agreed⟩
    have final := requestKeys_coherent (s:={s with proxy:={s.proxy with realBst:=bst},requests:=s.requests ++ [r]})
      keys before asked
    exact final
  · cases r with
    | get item start stop => exact absurd rfl filled
    | put item ts value => exact storeKey_coherent coherent steady stored

theorem serve_avoids {r : Request} (coherent : Coherent s.proxy s.storage_batch) : Avoids .exit (s.serve r) := by
  unfold Server.serve
  dsimp only
  split
  · refine (get_split_keys_avoids _ _).bind ?_
    intro split _
    refine Avoids.bind ?_ (fun _ _ => avoids_ok _ _)
    exact requestKeys_avoids (s:={s with proxy:={s.proxy with realBst:=split.2},requests:=s.requests ++ [r]}) split.1
      ⟨coherent.items,coherent.attached,coherent.running,coherent.agreed⟩
  · rename_i filled
    rw [Proxy.create_security_batch,if_neg filled]
    exact (storeKey_avoids _ _ _ _ _).bind (fun _ _ => avoids_ok _ _)

theorem step_coherent (lawful : env.Lawful) (action : Action) (coherent : Coherent s.proxy s.storage_batch)
    (steady : Steady s action) (ran : step cfg env s action = .ok t) : Coherent t.proxy t.storage_batch := by
  cases action with
  | serve r => exact serve_coherent coherent steady ran
  | close choice => exact close_coherent lawful coherent ran
  | clear =>
    cases ran
    have frame := (clearThread_cleared s.proxy).frame
    rw [frame]
    exact ⟨coherent.items,coherent.attached,coherent.running,coherent.agreed⟩

theorem step_avoids (action : Action) (coherent : Coherent s.proxy s.storage_batch) :
    Avoids .exit (step cfg env s action) := by
  cases action with
  | serve r => exact serve_avoids coherent
  | close choice => exact close_avoids cfg env s choice
  | clear => exact avoids_ok _ _

theorem init_coherent (cfg : Config) (draws : Draws) (ran : init cfg env draws pairs = .ok s) :
    Coherent s.proxy s.storage_batch := by
  obtain ⟨real,loaded,chosen,chosenBst,left,fakeBst,table,puts,keys,picks,fakes,rfl,_⟩ := init_parts cfg draws ran
  refine ⟨rfl,?_,?_,?_⟩
  · intro id ks op row
    simp [ThreadSafeUnorderedMap.empty] at row
  · intro k busy
    simp [ThreadSafeUnorderedMap.present,ThreadSafeUnorderedMap.empty] at busy
  · intro k v w _ given
    simp [ThreadSafeUnorderedMap.empty] at given

-- One consumer with well-formed requests, PUTs for items that have a bucket, batches
-- closed when R keys have been asked for.
def Valid (cfg : Config) (s : Server) : Action → Prop
  | .serve r => s.i < cfg.R ∧ r.WellFormed ∧ Backed s r
  | .close _ => cfg.R ≤ s.i
  | .clear => True

instance : ∀ action, Decidable (Valid cfg s action)
  | .serve _ => inferInstanceAs (Decidable (_ ∧ _))
  | .close _ => inferInstanceAs (Decidable (_ ≤ _))
  | .clear => inferInstanceAs (Decidable True)

-- b@1 is cached with the value s.
def tripleConfig : Config := ⟨3,3,1,1,25,2,10,sampleConfig.small⟩
def tripleServer : Server := (init tripleConfig sampleEnv sampleDraws samplePairs).toOption.get (by decide +kernel)

theorem tripleStarted : Started tripleConfig sampleEnv sampleDraws samplePairs tripleServer :=
  ⟨sampleEnv_lawful,samplePairs_loadable,by decide,toOption_get _⟩

def rewriting (value : Str) : List Action :=
  [.serve (.get (str "b") 1 1),.serve (.put (str "b") 1 value),.serve (.get (str "b") 1 1)]

end TsWaffle
