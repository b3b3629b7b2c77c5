import TsWaffle.Execution

namespace TsWaffle
open Text
variable {cfg : Config} {env : Env} {s : Server} {real fake : List Str} {bst fakeBst : FrequencySmoother}

-- The proxy between get_batch and the write-back loop, before clearThread.
def fetching (env : Env) (s : Proxy) (real fake : List Str) (bst fakeBst : FrequencySmoother)
    (running : ThreadSafeUnorderedMap) (promises : Promises) : Proxy :=
  {s with timeStamp:=s.timeStamp+1,realBst:=bst,fakeBst:=fakeBst,runningKeys:=running,promises:=promises,
          calls:=s.calls ++ [⟨.get_batch,s.timeStamp+1,readLabels env s real fake⟩]}

theorem moved_live (plan : Plan cfg p real fake) (moved : Moved p real fake bst fakeBst) :
    k ∈ bst.accessFreqs ↔ k ∈ p.realBst.accessFreqs := by
  rw [Table.mem_iff,moved.freqs]
  by_cases member : k ∈ real
  · simp [member,plan.live k member]
  · simp [member,Table.mem_iff]

theorem moved_fake (plan : Plan cfg p real fake) (moved : Moved p real fake bst fakeBst) :
    k ∈ fakeBst.accessFreqs ↔ k ∈ p.fakeBst.accessFreqs := by
  rw [Table.mem_iff,moved.fakeFreqs]
  by_cases member : k ∈ fake
  · simp [member,plan.fakeLive k member]
  · simp [member,Table.mem_iff]

theorem fetching_evictable (sound : Sound cfg env s) (plan : Plan cfg s.proxy real fake)
    (moved : Moved s.proxy real fake bst fakeBst)
    (cleared : Cleared (fetching env s.proxy real fake bst fakeBst running promises) mid) : Evictable mid := by
  rw [cleared.frame]
  refine ⟨moved.exact,?_,?_,sound.roomy⟩
  · intro k member
    exact (moved_live plan moved).mpr (sound.resident.live k member)
  · intro k member doomed
    exact (sound.building.absent k (sound.building.scheduled k doomed)).2 member

-- The pairs the real replies stand for are the last values of the keys read.
theorem real_arrivals (lawful : env.Lawful) (sound : Sound cfg env s) (plan : Plan cfg s.proxy real fake) :
    arrivals env (Table.insertAll ∅ (batchRows env s.proxy real fake)) (replies s.proxy.storage (realRows env s.proxy real)) =
      real.map (fun k => (k,(s.last k).getD [])) := by
  rw [arrivals_replies env _ _ _ (rows_nodup lawful sound.resident plan)
    (fun row member => List.mem_append_left _ member)]
  simp only [realRows,List.map_map]
  apply List.map_congr_left
  intro k member
  simp [(rows_stored sound.resident plan).2 k member]

theorem fake_arrivals (lawful : env.Lawful) (sound : Sound cfg env s) (plan : Plan cfg s.proxy real fake) :
    (arrivals env (Table.insertAll ∅ (batchRows env s.proxy real fake))
      (replies s.proxy.storage (fakeRows env s.proxy fake))).map Prod.fst = fake := by
  rw [arrivals_replies env _ _ _ (rows_nodup lawful sound.resident plan)
    (fun row member => List.mem_append_right _ member)]
  simp [fakeRows,Function.comp_def]

theorem labels_fetched (sound : Sound cfg env s) (plan : Plan cfg s.proxy real fake) {p : Proxy}
    (same : p.storage = s.proxy.storage) :
    p.get_batch (readLabels env s.proxy real fake) =
      .ok ((readLabels env s.proxy real fake).map (fun l => (s.proxy.storage.find? l).getD []),
        {p with calls:=p.calls ++ [⟨.get_batch,p.timeStamp,readLabels env s.proxy real fake⟩]}) := by
  have fetched := fetchAll_present s.proxy.storage (readLabels env s.proxy real fake)
    (rows_stored sound.resident plan).1
  simp only [Proxy.get_batch,same,fetched]
  rfl

-- The proxy when the write-back loop has ended in w, put_batch is made and the
-- promises are delivered.
def finished (env : Env) (s : Proxy) (real fake : List Str) (w : WriteBack) (promises : Promises) : Proxy :=
  let p := w.proxy.put_batch w.writeBatch
  {p with EvictedItems:=p.EvictedItems.eraseAll w.tempEvictedItems,runningKeys:=.empty,promises:=promises,
          keysNotUsed:=p.keysNotUsed ++ [readLabels env s real fake]}

theorem execute_batch_eq (sound : Sound cfg env s) (choice : Choice) {filled : List Str}
    {first : FrequencySmoother} {swept topped widened : ThreadSafeUnorderedMap} {qs rs : Promises} {w : WriteBack}
    (plan : Plan cfg s.proxy (s.storage_batch ++ filled) fake)
    (requested : readKeys env (s.proxy.timeStamp+1) s.storage_batch s.proxy.realBst =
      (realRows env s.proxy s.storage_batch,first))
    (filling : fill s.proxy.cache s.proxy.EvictedItems (fillCount cfg s.storage_batch.length)
      first.accessTree.toList swept = .ok (filled,topped))
    (topping : readKeys env (s.proxy.timeStamp+1) filled first = (realRows env s.proxy filled,bst))
    (faking : readFakes env (s.proxy.timeStamp+1) cfg.F s.proxy.fakeBst topped =
      .ok (fakeRows env s.proxy fake,fakeBst,widened))
    (written : writeBack cfg env choice (Table.insertAll ∅ (batchRows env s.proxy (s.storage_batch ++ filled) fake))
      (s.storage_batch ++ filled).length 0
      (replies s.proxy.storage (realRows env s.proxy (s.storage_batch ++ filled)) ++
        replies s.proxy.storage (fakeRows env s.proxy fake))
      ⟨Proxy.clearRounds choice.clears (fetching env s.proxy (s.storage_batch ++ filled) fake bst fakeBst widened qs),
        [],∅,[]⟩ = .ok w)
    (delivered : w.proxy.runningKeys.deliver w.proxy.promises (fun key => (w.promiseSatisfy.find? key).getD [])
      (choice.order w.promiseSatisfy.keys) = .ok (.empty,rs)) :
    execute_batch cfg env choice s.storage_batch {s.proxy with runningKeys:=swept,promises:=qs} =
      .ok (finished env s.proxy (s.storage_batch ++ filled) fake w rs) := by
  have rows : realRows env s.proxy s.storage_batch ++ realRows env s.proxy filled ++ fakeRows env s.proxy fake =
      batchRows env s.proxy (s.storage_batch ++ filled) fake := by simp [batchRows,realRows]
  have zipped := zip_replies s.proxy.storage (batchRows env s.proxy (s.storage_batch ++ filled) fake)
  have fetched := labels_fetched sound plan
    (p:={s.proxy with timeStamp:=s.proxy.timeStamp+1,realBst:=bst,fakeBst:=fakeBst,runningKeys:=widened,promises:=qs}) rfl
  unfold readLabels at fetched
  have whole : replies s.proxy.storage (batchRows env s.proxy (s.storage_batch ++ filled) fake) =
      replies s.proxy.storage (realRows env s.proxy (s.storage_batch ++ filled)) ++
        replies s.proxy.storage (fakeRows env s.proxy fake) := by simp [replies,batchRows]
  have done : writeBack cfg env choice (Table.insertAll ∅ (batchRows env s.proxy (s.storage_batch ++ filled) fake))
      (s.storage_batch.length+filled.length) 0
      (((batchRows env s.proxy (s.storage_batch ++ filled) fake).map Prod.fst).zip
        (((batchRows env s.proxy (s.storage_batch ++ filled) fake).map Prod.fst).map
          (fun l => (s.proxy.storage.find? l).getD [])))
      ⟨Proxy.clearRounds choice.clears (fetching env s.proxy (s.storage_batch ++ filled) fake bst fakeBst widened qs),
        [],∅,[]⟩ = .ok w := by
    rw [zipped,whole,← List.length_append]
    exact written
  simp only [execute_batch,requested,filling,topping,faking,rows,bind,Except.bind,fetched]
  simp only [fetching,readLabels] at done
  rw [done]
  dsimp only [Proxy.put_batch]
  rw [delivered]
  rfl

-- The keys that pass through the cache during a batch are distinct.
theorem queue_nodup {c : Cache} {through : List (Str × Str)} (distinct : real.Nodup)
    (uncached : ∀ k ∈ real, k ∉ c.held) (value : Str → Str) (keep : Str → Bool)
    (queue : through = c.entries.reverse ++ (real.filter keep).map (fun k => (k,value k))) :
    (through.map Prod.fst).Nodup := by
  have keys : through.map Prod.fst = c.held.reverse ++ real.filter keep := by
    rw [queue,List.map_append,List.map_reverse,List.map_map]
    exact congrArg _ (List.map_id _)
  rw [keys]
  refine List.nodup_append.mpr ⟨List.nodup_reverse.mpr c.held_nodup,distinct.filter _,?_⟩
  intro a held b read same
  subst same
  exact uncached a (List.mem_of_mem_filter read) (List.mem_reverse.mp held)

theorem answer_congr (running : ThreadSafeUnorderedMap) (one two : Str → Str) (ks : List Str)
    (same : ∀ k ∈ ks, k ∉ running.get_cache → one k = two k) : running.answer one ks = running.answer two ks := by
  unfold ThreadSafeUnorderedMap.answer
  congr 1
  apply List.map_congr_left
  intro k member
  cases found : running.get_cache.find? k with
  | some v => rfl
  | none =>
    have absent := Table.find_none.mp found
    simp [same k member absent]

theorem Plan.all_nodup {p : Proxy} (plan : Plan cfg p real fake) (valid : Resident cfg env last p) :
    (real ++ fake).Nodup := by
  refine List.nodup_append.mpr ⟨plan.distinct,plan.fakeDistinct,?_⟩
  intro a isReal b isFake same
  subst same
  exact valid.real_ne_fake (plan.live a isReal) (plan.fakeLive a isFake)

-- The loop of deliveries, over everything the batch has read.
theorem batch_delivered (sound : Sound cfg env s) (plan : Plan cfg s.proxy real fake) (choice : Choice)
    (batch : ∀ k ∈ s.storage_batch, k ∈ real) {swept widened : ThreadSafeUnorderedMap} {qs : Promises}
    (ran : s.proxy.runningKeys.tryClearAllPromises s.proxy.promises choice.walk = .ok (swept,qs))
    (shape : widened = {swept with m_map_:=widened.m_map_}) (added : ∀ k ∈ widened.m_map_, k ∈ real ∨ k ∈ fake)
    (pairs fakes : List (Str × Str)) (arrived : pairs = real.map (fun k => (k,(s.last k).getD [])))
    (faked : fakes.map Prod.fst = fake) :
    ∃ rs, widened.deliver qs (fun key => (((∅ : Table Str Str).insertAll (pairs ++ fakes)).find? key).getD [])
        (choice.order ((∅ : Table Str Str).insertAll (pairs ++ fakes)).keys) = .ok (.empty,rs) ∧
      (∀ id ks n, s.proxy.runningKeys.request_map.find? id = some (ks,some n) →
        rs.find? n = some (s.proxy.runningKeys.answer (fun k => (s.last k).getD []) ks)) ∧
      ∀ n, (∀ id ks, s.proxy.runningKeys.request_map.find? id ≠ some (ks,some n)) →
        rs.find? n = s.proxy.promises.find? n := by
  have keys : (pairs ++ fakes).map Prod.fst = real ++ fake := by
    rw [List.map_append,faked,arrived,List.map_map]
    exact congrArg (· ++ fake) (List.map_id _)
  have listed : ∀ k, k ∈ choice.order ((∅ : Table Str Str).insertAll (pairs ++ fakes)).keys ↔ k ∈ real ∨ k ∈ fake := by
    intro k
    rw [(choice.ordered _).mem_iff,Table.mem_keys,Table.mem_insertAll,keys,List.mem_append]
    simp
  have waiting : ∀ k ∈ s.proxy.runningKeys.get_map, k ∈ real := by
    intro k member
    exact batch k ((sound.building.running k).mp ((ThreadSafeUnorderedMap.present_iff _ _).mpr (.inr member)))
  have plain : ∀ k ∈ s.proxy.runningKeys.m_map_, k ∈ real := by
    intro k member
    exact batch k ((sound.building.running k).mp ((ThreadSafeUnorderedMap.present_iff _ _).mpr (.inl member)))
  obtain ⟨rs,delivered,answers,others⟩ := ThreadSafeUnorderedMap.settle sound.building.registered
    (fun key => (((∅ : Table Str Str).insertAll (pairs ++ fakes)).find? key).getD []) choice.walk (choice.walked _)
    (choice.order ((∅ : Table Str Str).insertAll (pairs ++ fakes)).keys)
    ((choice.ordered _).nodup_iff.mpr (Table.keys_nodup _)) (fun k member => (listed k).mpr (.inl (waiting k member)))
    (fun k member => (listed k).mpr (.inl (plain k member))) ran widened.m_map_ (fun k member => (listed k).mpr (added k member))
  rw [← shape] at delivered
  refine ⟨rs,delivered,?_,others⟩
  intro id ks n row
  rw [answers id ks n row]
  congr 1
  apply answer_congr
  intro k member uncached
  obtain ⟨_,_,supplied⟩ := sound.building.registered.rows id ks _ row
  obtain ⟨ids,found,_⟩ := (supplied k member).resolve_left uncached
  have read := waiting k (Table.mem_iff.mpr ⟨ids,found⟩)
  have present := Table.find_insertAll_present ∅ (pairs ++ fakes) k ((s.last k).getD [])
    (by rw [keys]; exact plan.all_nodup sound.resident)
    (List.mem_append_left _ (by rw [arrived]; exact List.mem_map.mpr ⟨k,read,rfl⟩))
  simp [present]

-- The parts of the proxy that clearThread and the write-back loop leave alone.
structure Untouched (s : Server) (bst fakeBst : FrequencySmoother) (running : ThreadSafeUnorderedMap)
    (promises : Promises) (mid : Proxy) : Prop where
  realBst : mid.realBst = bst
  fakeBst : mid.fakeBst = fakeBst
  cache : mid.cache = s.proxy.cache
  items : mid.EvictedItems = s.proxy.EvictedItems
  scheduled : mid.keys_to_be_deleted = s.proxy.keys_to_be_deleted
  clock : mid.timeStamp = s.proxy.timeStamp+1
  running : mid.runningKeys = running
  promises : mid.promises = promises

theorem Cleared.untouched
    (cleared : Cleared (fetching env s.proxy real fake bst fakeBst running promises) mid) :
    Untouched s bst fakeBst running promises mid := by
  rw [cleared.frame]
  exact ⟨rfl,rfl,rfl,rfl,rfl,rfl,rfl,rfl⟩

section
variable {running : ThreadSafeUnorderedMap} {qs rs : Promises} {mid : Proxy} {w : WriteBack} {evicted more : List (Str × Str)}

theorem scheduled_read (sound : Sound cfg env s) (batch : ∀ k ∈ s.storage_batch, k ∈ real) :
    ∀ k ∈ s.proxy.keys_to_be_deleted, k ∈ real := fun k doomed => batch k (sound.building.scheduled k doomed)

theorem done_keys (s : Server) (real : List Str) : (real.map (fun k => (k,(s.last k).getD []))).map Prod.fst = real := by
  simp [Function.comp_def]

theorem finished_queue (mids : Untouched s bst fakeBst running qs mid)
    (progress : Progress env mid (real.map (fun k => (k,(s.last k).getD []))) evicted w) :
    evicted ++ w.proxy.cache.entries.reverse = s.proxy.cache.entries.reverse ++
      (real.filter (· ∉ s.proxy.keys_to_be_deleted)).map (fun k => (k,(s.last k).getD [])) := by
  rw [progress.queue,mids.cache,mids.scheduled,List.filter_map]
  rfl

-- What is evicted is live and not about to be deleted.
theorem finished_unscheduled (sound : Sound cfg env s) (plan : Plan cfg s.proxy real fake)
    (batch : ∀ k ∈ s.storage_batch, k ∈ real) (mids : Untouched s bst fakeBst running qs mid)
    (progress : Progress env mid (real.map (fun k => (k,(s.last k).getD []))) evicted w) :
    ∀ kv ∈ evicted, kv.1 ∉ s.proxy.keys_to_be_deleted ∧ kv.1 ∈ s.proxy.realBst.accessFreqs := by
  intro kv member
  have through : kv ∈ evicted ++ w.proxy.cache.entries.reverse := List.mem_append_left _ member
  rw [finished_queue mids progress] at through
  simp only [List.mem_append,List.mem_reverse,List.mem_map,List.mem_filter,decide_eq_true_eq] at through
  rcases through with cached | ⟨k,⟨read,free⟩,rfl⟩
  · have held : kv.1 ∈ s.proxy.cache.held := Cache.mem_held.mpr ⟨kv.2,cached⟩
    exact ⟨fun doomed => plan.uncached _ (scheduled_read sound batch _ doomed) held,sound.resident.live _ held⟩
  · exact ⟨free,plan.live k read⟩

theorem finished_freqs (sound : Sound cfg env s) (moved : Moved s.proxy real fake bst fakeBst)
    (batch : ∀ k ∈ s.storage_batch, k ∈ real) (mids : Untouched s bst fakeBst running qs mid)
    (progress : Progress env mid (real.map (fun k => (k,(s.last k).getD []))) evicted w) :
    ∀ k, w.proxy.realBst.accessFreqs.find? k = if k ∈ s.proxy.keys_to_be_deleted then none
      else if k ∈ real then some (s.proxy.timeStamp+1) else s.proxy.realBst.accessFreqs.find? k := by
  intro k
  rw [progress.freqs k,done_keys,mids.scheduled,mids.realBst,moved.freqs]
  by_cases doomed : k ∈ s.proxy.keys_to_be_deleted
  · simp [doomed,scheduled_read sound batch k doomed]
  · simp [doomed]

theorem finished_current (mids : Untouched s bst fakeBst running qs mid)
    (unscheduled : ∀ kv ∈ evicted, kv.1 ∉ s.proxy.keys_to_be_deleted ∧ kv.1 ∈ s.proxy.realBst.accessFreqs)
    (progress : Progress env mid (real.map (fun k => (k,(s.last k).getD []))) evicted w) :
    ∀ kv ∈ evicted, w.proxy.realBst.freq kv.1 = mid.realBst.freq kv.1 := by
  intro kv member
  have free := (unscheduled kv member).1
  simp [FrequencySmoother.freq,progress.freqs,mids.scheduled,free]

theorem finished_labels (moved : Moved s.proxy real fake bst fakeBst) (mids : Untouched s bst fakeBst running qs mid)
    (current : ∀ kv ∈ evicted, w.proxy.realBst.freq kv.1 = mid.realBst.freq kv.1)
    (progress : Progress env mid (real.map (fun k => (k,(s.last k).getD []))) evicted w)
    (labels : more.map Prod.fst = fake.map (fun k => env.label k (mid.fakeBst.freq k))) :
    (w.writeBatch ++ more).map Prod.fst = writeLabels env w.proxy evicted fake := by
  have first := congrArg (List.map Prod.fst) progress.writes
  have clock : w.proxy.timeStamp = s.proxy.timeStamp+1 := by rw [progress.frame]; exact mids.clock
  simp only [List.map_map,Function.comp_def] at first
  rw [List.map_append,labels,writeLabels,clock]
  congr 1
  · refine first.trans (List.map_congr_left ?_)
    intro kv member
    rw [current kv member]
  · apply List.map_congr_left
    intro k member
    simp [FrequencySmoother.freq,mids.fakeBst,moved.fakeFreqs,member]

theorem finished_fresh (lawful : env.Lawful) (sound : Sound cfg env s) (plan : Plan cfg s.proxy real fake)
    (mids : Untouched s bst fakeBst running qs mid)
    (unscheduled : ∀ kv ∈ evicted, kv.1 ∉ s.proxy.keys_to_be_deleted ∧ kv.1 ∈ s.proxy.realBst.accessFreqs)
    (progress : Progress env mid (real.map (fun k => (k,(s.last k).getD []))) evicted w) :
    (writeLabels env w.proxy evicted fake).Nodup := by
  have distinct := queue_nodup plan.distinct plan.uncached (fun k => (s.last k).getD []) _ (finished_queue mids progress)
  rw [List.map_append] at distinct
  refine List.nodup_append.mpr ⟨?_,plan.fakeDistinct.map_on (fun a _ b _ same => (env.label_injective lawful same).1),?_⟩
  · refine (List.Nodup.of_map Prod.fst (List.nodup_append.mp distinct).1).map_on ?_
    intro a inA b inB same
    exact List.inj_on_of_nodup_map (List.nodup_append.mp distinct).1 inA inB (env.label_injective lawful same).1
  · intro a isReal b isFake same
    obtain ⟨kv,member,rfl⟩ := List.mem_map.mp isReal
    obtain ⟨k,listed,rfl⟩ := List.mem_map.mp isFake
    have equal := (env.label_injective lawful same).1
    exact sound.resident.real_ne_fake (unscheduled kv member).2 (equal ▸ plan.fakeLive k listed)

theorem finished_stored (current : ∀ kv ∈ evicted, w.proxy.realBst.freq kv.1 = mid.realBst.freq kv.1)
    (progress : Progress env mid (real.map (fun k => (k,(s.last k).getD []))) evicted w)
    (fresh : ((w.writeBatch ++ more).map Prod.fst).Nodup) :
    ∀ kv ∈ evicted, ∃ c, (w.proxy.storage.insertAll (w.writeBatch ++ more)).find?
      (env.label kv.1 (w.proxy.realBst.freq kv.1)) = some c ∧ env.decryptNonDeterministic c = kv.2 := by
  intro kv member
  have listed : (env.label kv.1 (mid.realBst.freq kv.1),kv.2) ∈
      w.writeBatch.map (fun row => (row.1,env.decryptNonDeterministic row.2)) := by
    rw [progress.writes]
    exact List.mem_map.mpr ⟨kv,member,rfl⟩
  obtain ⟨row,here,same⟩ := List.mem_map.mp listed
  obtain ⟨label,value⟩ := Prod.mk.inj same
  refine ⟨row.2,?_,value⟩
  rw [current kv member,← label]
  exact Table.find_insertAll_present _ _ _ _ fresh (List.mem_append_left _ here)

theorem finished_executed (lawful : env.Lawful) (sound : Sound cfg env s) (plan : Plan cfg s.proxy real fake)
    (moved : Moved s.proxy real fake bst fakeBst) (batch : ∀ k ∈ s.storage_batch, k ∈ real)
    (cleared : Cleared (fetching env s.proxy real fake bst fakeBst running qs) mid)
    (progress : Progress env mid (real.map (fun k => (k,(s.last k).getD []))) evicted w)
    (labels : more.map Prod.fst = fake.map (fun k => env.label k (mid.fakeBst.freq k)))
    (answers : ∀ id ks n, s.proxy.runningKeys.request_map.find? id = some (ks,some n) →
      rs.find? n = some (s.proxy.runningKeys.answer (fun k => (s.last k).getD []) ks))
    (others : ∀ n, (∀ id ks, s.proxy.runningKeys.request_map.find? id ≠ some (ks,some n)) →
      rs.find? n = s.proxy.promises.find? n) (satisfy : Table Str Str) :
    Executed cfg env s
      {s with proxy:=finished env s.proxy real fake
                {w with writeBatch:=w.writeBatch ++ more,promiseSatisfy:=satisfy} rs,
              storage_batch:=[],i:=0} real fake evicted := by
  have mids := cleared.untouched
  have unscheduled := finished_unscheduled sound plan batch mids progress
  have current := finished_current mids unscheduled progress
  have written := finished_labels moved mids current progress labels
  have fresh := finished_fresh lawful sound plan mids unscheduled progress
  rw [← written] at fresh
  have clock : w.proxy.timeStamp = s.proxy.timeStamp+1 := by rw [progress.frame]; exact mids.clock
  have storage : w.proxy.storage = mid.storage := by rw [progress.frame]
  have fakeSame : w.proxy.fakeBst = fakeBst := by rw [progress.frame]; exact mids.fakeBst
  obtain ⟨rounds,calls,deletes⟩ := cleared.deletes
  have queue := finished_queue mids progress
  have freqs := finished_freqs sound moved batch mids progress
  have stored := finished_stored current progress fresh
  refine ⟨plan,batch,progress.exact,freqs,?_,?_,queue,?_,stored,?_,?_,?_,⟨rounds,?_,deletes⟩,?_,answers,others,rfl,clock,rfl,?_,?_⟩
  · change w.proxy.fakeBst.TreeExact
    rw [fakeSame]
    exact moved.fakeTree
  · intro k
    change w.proxy.fakeBst.accessFreqs.find? k = _
    rw [fakeSame]
    exact moved.fakeFreqs k
  · rw [progress.count,List.length_map]
  · intro k member
    have listed : env.label k w.proxy.timeStamp ∈ (w.writeBatch ++ more).map Prod.fst := by
      rw [written]
      exact List.mem_append_right _ (List.mem_map.mpr ⟨k,member,rfl⟩)
    exact (Table.mem_insertAll _ _ _).mpr (.inl listed)
  · intro l unwritten unused
    have outside : l ∉ (w.writeBatch ++ more).map Prod.fst := by rw [written]; exact unwritten
    refine (Table.find_insertAll_absent _ _ _ outside).trans ?_
    rw [storage]
    exact cleared.kept l unused
  · intro l member
    rcases (Table.mem_insertAll _ _ _).mp member with new | old
    · exact .inl (written ▸ new)
    · rw [storage] at old
      exact .inr (cleared.fewer l old)
  · have callsSame : w.proxy.calls = mid.calls := by rw [progress.frame]
    simp only [finished,Proxy.put_batch,callsSame,calls,written,clock]
    simp [fetching,writeLabels,clock]
  · intro row member
    have queueSame : w.proxy.keysNotUsed = mid.keysNotUsed := by rw [progress.frame]
    simp only [finished,Proxy.put_batch,queueSame,List.mem_append,List.mem_singleton] at member
    exact member.imp_left (cleared.queue row)
  · have left := progress.scheduled
    rw [done_keys,mids.scheduled] at left
    refine left.trans (List.filter_eq_nil_iff.mpr ?_)
    intro k doomed
    simpa using scheduled_read sound batch k doomed
  · apply Table.eq_empty
    intro k member
    simp only [finished,Proxy.put_batch,Table.mem_iff,Table.find_eraseAll] at member
    obtain ⟨v,found⟩ := member
    split at found
    · cases found
    · rename_i kept
      rcases progress.items k (Table.mem_iff.mpr ⟨v,found⟩) with before | temp
      · rw [mids.items,sound.resident.items] at before
        exact Table.notMem_empty k before
      · exact kept temp

end

-- The keys the fill loop takes when s is closed.
def FilledWith (cfg : Config) (env : Env) (s : Server) (choice : Choice) (filled : List Str) : Prop :=
  ∃ swept promises topped,
    s.proxy.runningKeys.tryClearAllPromises s.proxy.promises choice.walk = .ok (swept,promises) ∧
    fill s.proxy.cache s.proxy.EvictedItems (fillCount cfg s.storage_batch.length)
      (readKeys env (s.proxy.timeStamp+1) s.storage_batch s.proxy.realBst).2.accessTree.toList swept = .ok (filled,topped)

-- One batch, whatever GETs and PUTs it was built from.
theorem close_fills (lawful : env.Lawful) (sound : Sound cfg env s) (fits : Fits cfg s) (choice : Choice) :
    ∃ t filled fake evicted, s.close cfg env choice = .ok t ∧ FilledWith cfg env s choice filled ∧
      Executed cfg env s t (s.storage_batch ++ filled) fake evicted := by
  obtain ⟨swept,qs,ranSweep,_⟩ := ThreadSafeUnorderedMap.tryClearAllPromises_delivers sound.building.registered
    (fun _ => []) choice.walk (choice.walked _) s.storage_batch
    (fun k member => (sound.building.running k).mp ((ThreadSafeUnorderedMap.present_iff _ _).mpr (.inr member)))
    (fun k member => (sound.building.running k).mp ((ThreadSafeUnorderedMap.present_iff _ _).mpr (.inl member)))
  obtain ⟨plainSame,waitSame⟩ := ThreadSafeUnorderedMap.tryClearAllPromises_present sound.building.registered
    choice.walk (choice.walked _) ranSweep
  have present : ∀ k, swept.present k = true ↔ k ∈ s.storage_batch := by
    intro k
    rw [← sound.building.running k]
    simp [ThreadSafeUnorderedMap.present,plainSame,waitSame]
  obtain ⟨first,filled,topped,bst,fake,fakeBst,widened,requested,filling,topping,faking,plan,moved,wide⟩ :=
    reading_phase sound fits present
  have cleared := clearRounds_cleared choice.clears
    (fetching env s.proxy (s.storage_batch ++ filled) fake bst fakeBst widened qs)
  generalize middle : Proxy.clearRounds choice.clears
    (fetching env s.proxy (s.storage_batch ++ filled) fake bst fakeBst widened qs) = mid at cleared
  have mids := cleared.untouched
  have arrived := real_arrivals lawful sound plan
  have faked := fake_arrivals lawful sound plan
  have arrivedKeys : (arrivals env (Table.insertAll ∅ (batchRows env s.proxy (s.storage_batch ++ filled) fake))
      (replies s.proxy.storage (realRows env s.proxy (s.storage_batch ++ filled)))).map Prod.fst =
      s.storage_batch ++ filled := by
    rw [arrived,List.map_map]
    exact List.map_id _
  obtain ⟨w,evicted,more,progress,written,labels⟩ := writing_phase cfg lawful choice
    (Table.insertAll ∅ (batchRows env s.proxy (s.storage_batch ++ filled) fake))
    (fetching_evictable sound plan moved cleared) (replies s.proxy.storage (realRows env s.proxy (s.storage_batch ++ filled)))
    (replies s.proxy.storage (fakeRows env s.proxy fake)) (by rw [arrivedKeys]; exact plan.distinct)
    (by rw [arrivedKeys,mids.realBst]; exact fun k member => (moved_live plan moved).mpr (plan.live k member))
    (by rw [arrivedKeys,mids.cache]; exact plan.uncached)
    (by rw [faked,mids.fakeBst]; exact fun k member => (moved_fake plan moved).mpr (plan.fakeLive k member))
  have batch : ∀ k ∈ s.storage_batch, k ∈ s.storage_batch ++ filled := fun k member => List.mem_append_left _ member
  have added : ∀ k ∈ widened.m_map_, k ∈ s.storage_batch ++ filled ∨ k ∈ fake := by
    intro k member
    rcases wide.plain k member with before | later
    · exact .inl (batch k ((present k).mp before))
    · exact (List.mem_append.mp later).imp_left (fun inFilled => List.mem_append_right _ inFilled)
  obtain ⟨rs,delivered,answers,others⟩ :=
    batch_delivered sound plan choice batch ranSweep wide.shape added _ _ arrived faked
  rw [faked] at labels
  rw [arrived] at progress
  have executed := finished_executed lawful sound plan moved batch cleared progress labels answers others
  have length : (replies s.proxy.storage (realRows env s.proxy (s.storage_batch ++ filled))).length =
      (s.storage_batch ++ filled).length := by simp [replies,realRows]
  rw [length,← middle] at written
  have running : w.proxy.runningKeys = widened := by rw [progress.frame]; exact mids.running
  have promises : w.proxy.promises = qs := by rw [progress.frame]; exact mids.promises
  have ran := execute_batch_eq sound choice plan requested filling topping faking written
    (by rw [running,promises]; exact delivered)
  refine ⟨_,filled,_,_,?_,⟨swept,qs,topped,ranSweep,?_⟩,executed ∅⟩
  · simp only [Server.close,ranSweep,bind,Except.bind]
    rw [ran]
    rfl
  · rw [requested]
    exact filling

theorem close_executes (lawful : env.Lawful) (sound : Sound cfg env s) (fits : Fits cfg s) (choice : Choice) :
    ∃ t real fake evicted, s.close cfg env choice = .ok t ∧ Executed cfg env s t real fake evicted := by
  obtain ⟨t,filled,fake,evicted,ran,_,done⟩ := close_fills lawful sound fits choice
  exact ⟨t,_,fake,evicted,ran,done⟩

end TsWaffle
