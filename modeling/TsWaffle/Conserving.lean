import TsWaffle.Reference
import TsWaffle.Staging
import TsWaffle.Lib.Counting

namespace TsWaffle
open Text Runs Server Counting
variable {cfg : Config} {env : Env} {s t : Server} {pairs : List (Str × Str)} {draws : Draws} {seen : List Str}
  {action : Action} {choice : Choice} {N C : Nat}

-- At most one PUT of an item in a batch; seen are the items written since the
-- batch was begun.
def Once (seen : List Str) : Action → Prop
  | .serve (.put item _ _) => item ∉ seen
  | _ => True

def seenAfter (seen : List Str) : Action → List Str
  | .serve (.put item _ _) => item :: seen
  | .close _ => []
  | _ => seen

def OncePerBatch : List Str → List Action → Prop
  | _,[] => True
  | seen,action :: rest => Once seen action ∧ OncePerBatch (seenAfter seen action) rest

instance : ∀ action, Decidable (Once seen action)
  | .serve (.put _ _ _) => inferInstanceAs (Decidable (_ ∉ _))
  | .serve (.get _ _ _) => inferInstanceAs (Decidable True)
  | .close _ => inferInstanceAs (Decidable True)
  | .clear => inferInstanceAs (Decidable True)

instance decideOncePerBatch : ∀ seen actions, Decidable (OncePerBatch seen actions)
  | _,[] => .isTrue trivial
  | seen,action :: rest =>
    have : Decidable (OncePerBatch (seenAfter seen action) rest) := decideOncePerBatch _ rest
    inferInstanceAs (Decidable (_ ∧ _))

theorem OncePerBatch.left (earlier later : List Action) (once : OncePerBatch seen (earlier ++ later)) :
    OncePerBatch seen earlier := by
  induction earlier generalizing seen with
  | nil => trivial
  | cons action rest ih => exact ⟨once.1,ih once.2⟩

-- A scheduled key belongs to an item of the batch.
def ScheduledFrom (seen : List Str) (s : Server) : Prop :=
  ∀ k ∈ s.proxy.keys_to_be_deleted, ∃ item ∈ seen, ∃ u, WellFormed item u ∧ k = bucketKey item u

theorem retire_scheduled (s : Server) (o k : Str) (member : k ∈ (s.retire o).proxy.keys_to_be_deleted) :
    k ∈ s.proxy.keys_to_be_deleted ∨ k = o := by
  by_cases held : o ∈ s.proxy.cache.held
  · rw [retire_cached held] at member
    exact .inl member
  · rw [retire_uncached held] at member
    simpa using member

theorem Stepped.scheduled_from (stepped : Stepped cfg env s action t) (sound : Sound cfg env s)
    (scheduled : ScheduledFrom seen s) : ScheduledFrom (seenAfter seen action) t := by
  cases stepped with
  | get item a b running batch i state => exact scheduled
  | put item ts v u wf oldest safe =>
    intro k member
    rcases retire_scheduled s _ k member with old | rfl
    · obtain ⟨other,listed,w,good,name⟩ := scheduled k old
      exact ⟨other,List.mem_cons_of_mem _ listed,w,good,name⟩
    · exact ⟨item,List.mem_cons_self,u,((sound.resident.exact.index item u).mp oldest.1).1,rfl⟩
  | close choice _ real fake evicted done =>
    intro k member
    rw [done.cleared] at member
    cases member
  | clear p cleared =>
    have frame := cleared.frame
    intro k member
    rw [frame] at member
    exact scheduled k member

theorem once_unscheduled (sound : Sound cfg env s) (scheduled : ScheduledFrom seen s) (once : Once seen action) :
    Unscheduled s action := by
  cases action with
  | serve r =>
    cases r with
    | put item ts v =>
      intro u first doomed
      have oldest := FrequencySmoother.mem_oldest.mp first
      have wf := ((sound.resident.exact.index item u).mp oldest.1).1
      obtain ⟨other,listed,w,good,name⟩ := scheduled _ doomed
      obtain ⟨rfl,_⟩ := bucketKey_injective wf.2.1 good.2.1 name
      exact once listed
    | get item a b => trivial
  | close choice => trivial
  | clear => trivial

-- The sizes of the two structures in the middle of a batch: every scheduled key
-- counts once more in both until the batch is executed.
structure Sized (cfg : Config) (N C : Nat) (s : Server) : Prop where
  once : s.proxy.keys_to_be_deleted.Nodup
  cached : s.proxy.cache.entries.length = C+s.proxy.keys_to_be_deleted.length
  keys : s.proxy.realBst.accessFreqs.keys.length = N+s.proxy.keys_to_be_deleted.length
  fakes : s.proxy.fakeBst.accessFreqs.keys.length = cfg.D

-- What retiring the oldest bucket does to the sizes, whether it was cached or is
-- only scheduled.
theorem retire_sizes {o : Str} (live : o ∈ s.proxy.realBst.accessFreqs)
    (free : o ∉ s.proxy.keys_to_be_deleted) (sized : Sized cfg N C s) :
    (s.retire o).proxy.keys_to_be_deleted.Nodup ∧
      (s.retire o).proxy.cache.entries.length+1 = C+(s.retire o).proxy.keys_to_be_deleted.length ∧
      (s.retire o).proxy.realBst.accessFreqs.keys.length+1 = N+(s.retire o).proxy.keys_to_be_deleted.length ∧
      (s.retire o).proxy.fakeBst = s.proxy.fakeBst := by
  have cached := sized.cached
  have keys := sized.keys
  by_cases held : o ∈ s.proxy.cache.held
  · rw [retire_cached held]
    have shorter := Cache.filter_length s.proxy.cache o
    have removed := length_without s.proxy.realBst.accessFreqs.keys_nodup
      (s.proxy.realBst.removeKey o).1.accessFreqs.keys_nodup (List.nodup_singleton o)
      (by intro a member; rw [List.mem_singleton] at member; subst member; exact Table.mem_keys.mpr live)
      (by intro a; simp only [Table.mem_keys,FrequencySmoother.removeKey_live,List.mem_singleton,ne_eq])
    have some_ : 0 < s.proxy.cache.entries.length := by
      have size : s.proxy.cache.held.length = s.proxy.cache.entries.length := by simp [Cache.held]
      rw [← size]
      exact List.length_pos_of_mem held
    rw [if_pos held] at shorter
    rw [List.length_singleton] at removed
    refine ⟨sized.once,?_,?_,rfl⟩
    · dsimp only
      rw [Cache.removeKey_entries,shorter]
      omega
    · dsimp only
      omega
  · rw [retire_uncached held]
    refine ⟨?_,?_,?_,rfl⟩
    · rw [← List.concat_eq_append]
      exact List.Nodup.concat free sized.once
    · dsimp only
      rw [List.length_append,List.length_singleton]
      omega
    · dsimp only
      rw [List.length_append,List.length_singleton]
      omega

theorem record_sizes (item : Str) (ts : Int) (v : Str) (uncached : bucketKey item ts ∉ s.proxy.cache.held)
    (dead : bucketKey item ts ∉ s.proxy.realBst.accessFreqs) :
    (s.record item ts v).proxy.cache.entries.length = s.proxy.cache.entries.length+1 ∧
      (s.record item ts v).proxy.realBst.accessFreqs.keys.length = s.proxy.realBst.accessFreqs.keys.length+1 := by
  refine ⟨?_,?_⟩
  · simp only [record,Cache.insertIntoCache_entries,Cache.entries_filter_absent uncached,List.length_cons]
  · apply length_added s.proxy.realBst.accessFreqs.keys_nodup (Table.keys_nodup _)
      (fun member => dead (Table.mem_keys.mp member))
    intro a
    rw [Table.mem_keys,Table.mem_keys]
    exact store_live _ _ _ _

theorem retire_held (s : Server) (o k : Str) (held : k ∈ (s.retire o).proxy.cache.held) : k ∈ s.proxy.cache.held := by
  by_cases was : o ∈ s.proxy.cache.held
  · rw [retire_cached was] at held
    exact ((Cache.mem_held_remove _ _ _).mp held).2
  · rw [retire_uncached was] at held
    exact held

theorem put_sized (sound : Sound cfg env s) (oldest : s.proxy.realBst.Oldest item u)
    (dead : bucketKey item ts ∉ s.proxy.realBst.accessFreqs) (free : bucketKey item u ∉ s.proxy.keys_to_be_deleted)
    (sized : Sized cfg N C s) (v : Str) : Sized cfg N C ((s.retire (bucketKey item u)).record item ts v) := by
  have live := ((sound.resident.exact.index item u).mp oldest.1).2
  obtain ⟨once,cached,keys,fakes⟩ := retire_sizes live free sized
  obtain ⟨longer,more⟩ := record_sizes (s:=s.retire (bucketKey item u)) item ts v
    (fun held => dead (sound.resident.live _ (retire_held s _ _ held)))
    (fun there => dead (retire_live s _ _ there))
  refine ⟨once,?_,?_,?_⟩
  · rw [longer]
    exact cached
  · rw [more]
    exact keys
  · change (s.retire (bucketKey item u)).proxy.fakeBst.accessFreqs.keys.length = cfg.D
    rw [fakes]
    exact sized.fakes

-- The scheduled keys are read and dropped: each costs the cache one entry.
theorem executed_sized (sound : Sound cfg env s) (done : Executed cfg env s t real fake evicted)
    (sized : Sized cfg N C s) : Sized cfg N C t := by
  have inside : ∀ k ∈ s.proxy.keys_to_be_deleted, k ∈ real := fun k doomed => done.batch k (sound.building.scheduled k doomed)
  have lengths := congrArg List.length done.queue
  have parts := List.length_eq_length_filter_add (l:=real) (fun k => decide (k ∈ s.proxy.keys_to_be_deleted))
  have met := length_met done.plan.distinct sized.once inside
  have count := done.count
  have cached := sized.cached
  have keys := sized.keys
  have removed := length_without s.proxy.realBst.accessFreqs.keys_nodup t.proxy.realBst.accessFreqs.keys_nodup sized.once
    (fun k doomed => Table.mem_keys.mpr (done.plan.live k (inside k doomed)))
    (by intro k; rw [Table.mem_keys,Table.mem_keys]; exact done.live_iff)
  simp only [List.length_append,List.length_reverse,List.length_map,decide_not] at lengths
  refine ⟨by simp [done.cleared],?_,?_,?_⟩
  · rw [done.cleared,List.length_nil]
    omega
  · rw [done.cleared,List.length_nil]
    omega
  · rw [(Table.keys_perm (fun k => done.fake_iff)).length_eq]
    exact sized.fakes

theorem Stepped.sized (stepped : Stepped cfg env s action t) (sound : Sound cfg env s) (known : Known s)
    (novel : Novel s action) (unscheduled : Unscheduled s action) (sized : Sized cfg N C s) : Sized cfg N C t := by
  cases stepped with
  | get item a b running batch i state => exact ⟨sized.once,sized.cached,sized.keys,sized.fakes⟩
  | put item ts v u wf oldest safe =>
    have dead : bucketKey item ts ∉ s.proxy.realBst.accessFreqs := fun live => novel (known.written _ live)
    exact put_sized sound oldest dead (unscheduled u (FrequencySmoother.mem_oldest.mpr oldest)) sized v
  | close choice _ real fake evicted done => exact executed_sized sound done sized
  | clear p cleared =>
    have frame := cleared.frame
    rw [frame]
    exact ⟨sized.once,sized.cached,sized.keys,sized.fakes⟩

theorem sized_layered (cfg : Config) (env : Env) (N C : Nat) :
    Layered cfg env (Retaining cfg) (fun s => Known s ∧ Sized cfg N C s) := by
  have growing := growing_layered cfg env
  refine ⟨?_,?_⟩
  · intro s action sound layer now
    exact growing.allowed s action sound layer.1 now.1
  · intro s action t sound layer now stepped
    exact ⟨growing.kept s action t sound layer.1 now.1 stepped,stepped.sized sound layer.1 now.1.2 now.2 layer.2⟩

theorem Started.sized (started : Started cfg env draws pairs s) :
    Sized cfg pairs.length (cfg.cacheBatches*pairs.length/100) s := by
  have initial := started.initial
  obtain ⟨names,distinct,count,_,_,freqs⟩ := init_fakes cfg draws started.ran
  refine ⟨by simp [initial.unscheduled],?_,?_,?_⟩
  · rw [init_cache_length started.lawful draws started.loadable started.ran,initial.unscheduled,List.length_nil,
      Nat.add_zero]
  · have perm : s.proxy.realBst.accessFreqs.keys.Perm (pairs.map Prod.fst) := by
      apply (List.perm_ext_iff_of_nodup (Table.keys_nodup _) started.loadable.distinct).mpr
      intro k
      rw [Table.mem_keys]
      exact initial.live
    rw [perm.length_eq,initial.unscheduled,List.length_map,List.length_nil,Nat.add_zero]
  · have perm : s.proxy.fakeBst.accessFreqs.keys.Perm names := by
      apply (List.perm_ext_iff_of_nodup (Table.keys_nodup _) distinct).mpr
      intro k
      rw [Table.mem_keys,Table.mem_iff,freqs]
      split <;> simp_all
    rw [perm.length_eq,count]

theorem Started.scheduled_from (started : Started cfg env draws pairs s) : ScheduledFrom [] s := by
  intro k member
  rw [started.initial.unscheduled] at member
  cases member

-- Runs of growing steps with at most one PUT of an item in a batch never meet a
-- bucket that is scheduled already.
theorem once_retaining (lawful : env.Lawful) (actions : List Action) (sound : Sound cfg env s) (known : Known s)
    (scheduled : ScheduledFrom seen s) (once : OncePerBatch seen actions)
    (admissible : Admissible (step cfg env) (Growing cfg) s actions) :
    Admissible (step cfg env) (Retaining cfg) s actions := by
  induction actions generalizing s seen with
  | nil => trivial
  | cons action rest ih =>
    obtain ⟨now,later⟩ := admissible
    obtain ⟨t,ran,stepped,after,still⟩ := (growing_layered cfg env).step lawful sound known now
    refine ⟨⟨now,once_unscheduled sound scheduled once.1⟩,?_⟩
    intro next other
    rw [ran] at other
    cases other
    exact ih after still (stepped.scheduled_from sound scheduled) once.2 (later _ ran)

-- The same steps without a word on the fill loop and the fake keys: only the
-- operations have to leave room for the fake reads.
def Conserving (cfg : Config) (s : Server) : Action → Prop
  | .serve r => s.i < cfg.R ∧ r.WellFormed ∧ Backed s r ∧ Novel s (.serve r)
  | .close _ => cfg.R ≤ s.i ∧ s.storage_batch.length+cfg.F ≤ cfg.B
  | .clear => True

instance : ∀ action, Decidable (Conserving cfg s action)
  | .serve _ => inferInstanceAs (Decidable (_ ∧ _))
  | .close _ => inferInstanceAs (Decidable (_ ∧ _))
  | .clear => inferInstanceAs (Decidable True)

theorem closed_fits (sound : Sound cfg env s) (fakes : s.proxy.fakeBst.accessFreqs.keys.length = cfg.D)
    (ops : s.storage_batch.length+cfg.F ≤ cfg.B) (ran : s.close cfg env choice = .ok t) : Fits cfg s := by
  obtain ⟨swept,qs,p,sweeps,executed,_⟩ := close_returned ran
  obtain ⟨stages,followed⟩ := execute_batch_returned executed
  exact (followed.toFetched.staged sound ops (le_of_eq fakes) sweeps).fits

theorem conserving_growing (sound : Sound cfg env s) (fakes : s.proxy.fakeBst.accessFreqs.keys.length = cfg.D)
    (now : Conserving cfg s action) (ran : step cfg env s action = .ok t) : Growing cfg s action := by
  cases action with
  | serve r => exact ⟨⟨now.1,now.2.1,now.2.2.1⟩,now.2.2.2⟩
  | close choice => exact ⟨⟨now.1,closed_fits sound fakes now.2 ran⟩,trivial⟩
  | clear => exact ⟨trivial,trivial⟩

-- A run that has returned has had enough keys and fakes in each of its batches.
theorem conserving_retaining {final : Server} (lawful : env.Lawful) (actions : List Action) (sound : Sound cfg env s)
    (layer : Known s ∧ Sized cfg N C s) (scheduled : ScheduledFrom seen s) (once : OncePerBatch seen actions)
    (admissible : Admissible (step cfg env) (Conserving cfg) s actions) (ran : run (step cfg env) s actions = .ok final) :
    Admissible (step cfg env) (Retaining cfg) s actions := by
  induction actions generalizing s seen with
  | nil => trivial
  | cons action rest ih =>
    obtain ⟨next,stepped,tail⟩ := run_uncons ran
    have growing := conserving_growing sound layer.2.fakes admissible.1 stepped
    have now : Retaining cfg s action := ⟨growing,once_unscheduled sound scheduled once.1⟩
    obtain ⟨t,same,moved,after,still⟩ := (sized_layered cfg env N C).step lawful sound layer now
    rw [stepped] at same
    cases same
    refine ⟨now,?_⟩
    intro other again
    rw [stepped] at again
    cases again
    exact ih after still (moved.scheduled_from sound scheduled) once.2 (admissible.2 _ stepped) tail

-- The caches evictLRElementFromCache is called on when the batch of s is executed.
def EvictsFrom (cfg : Config) (env : Env) (s : Server) (choice : Choice) (c : Cache) : Prop :=
  ∃ swept promises, s.proxy.runningKeys.tryClearAllPromises s.proxy.promises choice.walk = .ok (swept,promises) ∧
    ∃ stages : Stages cfg env choice s.storage_batch {s.proxy with runningKeys:=swept,promises:=promises},
      stages.Fetched ∧ ∃ n < stages.real.length, ∃ w, stages.iterate n = .ok w ∧ c = w.proxy.cache

theorem evicts_occupied (lawful : env.Lawful) (sound : Sound cfg env s) (ops : s.storage_batch.length+cfg.F ≤ cfg.B)
    (fakes : s.proxy.fakeBst.accessFreqs.keys.length = cfg.D) (evicts : EvictsFrom cfg env s choice c) : c.size ≠ 0 := by
  obtain ⟨swept,qs,sweeps,stages,reached,n,_,w,ran,rfl⟩ := evicts
  have staged := reached.staged sound ops (le_of_eq fakes) sweeps
  have evictable := fetching_evictable sound staged.plan staged.moved staged.middle
  obtain ⟨v,evicted,_,_,again,progress⟩ := staged.iterations lawful sound n
  rw [ran] at again
  cases again
  have occupied := progress.occupied evictable (by
    rw [List.map_map]
    exact (List.map_id (stages.real.take n)).symm ▸ staged.plan.distinct.sublist (List.take_sublist n _))
  rw [Cache.size_eq]
  exact fun none => occupied (List.length_eq_zero_iff.mp none)

-- Of the live keys all but the cached ones can be filled with, also while keys
-- are scheduled.
theorem uncached_length (sound : Sound cfg env s) (sized : Sized cfg N C s) :
    (uncachedKeys s.proxy).length+C = N := by
  have parts := length_without s.proxy.realBst.accessFreqs.keys_nodup
    (s.proxy.realBst.accessFreqs.keys_nodup.filter (· ∉ s.proxy.cache.held)) s.proxy.cache.held_nodup
    (fun k held => Table.mem_keys.mpr (sound.resident.live k held))
    (by intro k; rw [List.mem_filter,decide_eq_true_eq,and_comm])
  have cached := sized.cached
  have keys := sized.keys
  have size : s.proxy.cache.held.length = s.proxy.cache.entries.length := by simp [Cache.held]
  unfold uncachedKeys
  omega

theorem fill_returns (sound : Sound cfg env s) (ops : s.storage_batch.length+cfg.F ≤ cfg.B)
    (fillable : cfg.B-cfg.F ≤ (uncachedKeys s.proxy).length) (choice : Choice) :
    ∃ filled, FilledWith cfg env s choice filled ∧ filled.length = cfg.B-cfg.F-s.storage_batch.length := by
  obtain ⟨swept,qs,sweeps,_⟩ := ThreadSafeUnorderedMap.tryClearAllPromises_delivers sound.building.registered
    (fun _ => []) choice.walk (choice.walked _) s.storage_batch
    (fun k member => (sound.building.running k).mp ((ThreadSafeUnorderedMap.present_iff _ _).mpr (.inr member)))
    (fun k member => (sound.building.running k).mp ((ThreadSafeUnorderedMap.present_iff _ _).mpr (.inl member)))
  have live : ∀ k ∈ s.storage_batch, k ∈ s.proxy.realBst.accessFreqs := fun k member => (sound.building.absent k member).1
  have tree := (readKeys_exact env (s.proxy.timeStamp+1) _ _ live sound.resident.exact).tree
  have same : ∀ k, k ∈ (readKeys env (s.proxy.timeStamp+1) s.storage_batch s.proxy.realBst).2.accessFreqs ↔
      k ∈ s.proxy.realBst.accessFreqs := by
    intro k
    rw [Table.mem_iff,readKeys_freqs env _ _ _ k live]
    by_cases member : k ∈ s.storage_batch
    · simp [member,live k member]
    · simp [member,Table.mem_iff]
  obtain ⟨filled,topped,ran,filling⟩ := filling_phase sound.resident ops fillable (swept_present sound choice sweeps) tree same
  refine ⟨filled,⟨swept,qs,topped,sweeps,ran⟩,?_⟩
  rw [filling.count]
  omega

end TsWaffle
