import TsWaffle.Residence
import TsWaffle.WritingBack

namespace TsWaffle
open Text
variable {cfg : Config} {env : Env} {last : Str → Option Str} {s : Server} {p : Proxy} {real fake : List Str}

theorem FrequencySmoother.tree_keys_nodup {bst : FrequencySmoother} (tree : bst.TreeExact) :
    (bst.accessTree.toList.map Entry.key).Nodup := by
  apply List.Nodup.map_on ?_ bst.accessTree.nodup
  intro a inA b inB same
  have one := (tree a).mp inA
  have two := (tree b).mp inB
  rw [same,two] at one
  cases a
  cases b
  simp_all

theorem fillCount_exact (cfg : Config) (fits : n+cfg.F ≤ cfg.B) : fillCount cfg n = cfg.B-(n+cfg.F) := by
  have small := cfg.small
  unfold fillCount
  omega

-- The keys the fill loop can choose from: live and not cached.
def uncachedKeys (s : Proxy) : List Str := s.realBst.accessFreqs.keys.filter (· ∉ s.cache.held)

-- A batch fits: room for the fake reads, and enough uncached keys to fill it.
structure Fits (cfg : Config) (s : Server) : Prop where
  ops : s.storage_batch.length+cfg.F ≤ cfg.B
  fakes : cfg.F ≤ cfg.D
  fillable : cfg.B-cfg.F ≤ (uncachedKeys s.proxy).length

instance : Decidable (Fits cfg s) :=
  decidable_of_iff (s.storage_batch.length+cfg.F ≤ cfg.B ∧ cfg.F ≤ cfg.D ∧ cfg.B-cfg.F ≤ (uncachedKeys s.proxy).length)
    ⟨fun all => ⟨all.1,all.2.1,all.2.2⟩,fun all => ⟨all.ops,all.fakes,all.fillable⟩⟩

-- Of the uncached keys, those already in the batch are not taken again; the rest
-- are enough.
theorem enough_eligible {bst : FrequencySmoother} {running : ThreadSafeUnorderedMap}
    (fillable : cfg.B-cfg.F ≤ (uncachedKeys s.proxy).length) (items : s.proxy.EvictedItems = ∅) (tree : bst.TreeExact)
    (same : ∀ k, k ∈ bst.accessFreqs ↔ k ∈ s.proxy.realBst.accessFreqs)
    (present : ∀ k, running.present k = true ↔ k ∈ s.storage_batch) :
    cfg.B-(s.storage_batch.length+cfg.F) ≤ (bst.accessTree.toList.filter
      (fun e => Eligible s.proxy.cache s.proxy.EvictedItems running e)).length := by
  have free := (s.proxy.realBst.accessFreqs.keys_nodup.filter (· ∉ s.proxy.cache.held))
  have parts := List.length_eq_length_filter_add (l:=uncachedKeys s.proxy) (fun k => decide (k ∈ s.storage_batch))
  have taken : ((uncachedKeys s.proxy).filter (fun k => decide (k ∈ s.storage_batch))).length ≤ s.storage_batch.length := by
    apply (List.subperm_of_subset (free.filter _) ?_).length_le
    intro k member
    simpa using (List.mem_filter.mp member).2
  have rest : ((uncachedKeys s.proxy).filter (fun k => !decide (k ∈ s.storage_batch))).length ≤
      ((bst.accessTree.toList.filter
        (fun e => Eligible s.proxy.cache s.proxy.EvictedItems running e)).map Entry.key).length := by
    apply (List.subperm_of_subset (free.filter _) ?_).length_le
    intro k member
    simp only [List.mem_filter,decide_eq_true_eq,Bool.not_eq_true',decide_eq_false_iff_not] at member
    obtain ⟨⟨live,uncached⟩,outside⟩ := member
    obtain ⟨f,found⟩ := Table.mem_iff.mp ((same k).mpr (Table.mem_keys.mp live))
    refine List.mem_map.mpr ⟨⟨k,f⟩,List.mem_filter.mpr ⟨(tree ⟨k,f⟩).mpr found,?_⟩,rfl⟩
    have idle : running.present k = false := by
      rw [Bool.eq_false_iff]
      intro busy
      exact outside ((present k).mp busy)
    simp [Eligible,items,uncached,idle]
  simp only [List.length_map] at rest
  omega

def realRows (env : Env) (s : Proxy) (keys : List Str) : List (Str × Str) :=
  keys.map (fun k => (env.label k (s.realBst.freq k),k))
def fakeRows (env : Env) (s : Proxy) (keys : List Str) : List (Str × Str) :=
  keys.map (fun k => (env.label k (s.fakeBst.freq k),k))

-- The keys a batch reads.
structure Plan (cfg : Config) (s : Proxy) (real fake : List Str) : Prop where
  distinct : real.Nodup
  count : real.length+cfg.F = cfg.B
  live : ∀ k ∈ real, k ∈ s.realBst.accessFreqs
  uncached : ∀ k ∈ real, k ∉ s.cache.held
  fakeDistinct : fake.Nodup
  fakeCount : fake.length = cfg.F
  fakeLive : ∀ k ∈ fake, k ∈ s.fakeBst.accessFreqs

-- The smoothers after the frequencies of these keys are moved to the new clock.
structure Moved (s : Proxy) (real fake : List Str) (bst fakeBst : FrequencySmoother) : Prop where
  exact : bst.Exact
  freqs : ∀ a, bst.accessFreqs.find? a = if a ∈ real then some (s.timeStamp+1) else s.realBst.accessFreqs.find? a
  fakeTree : fakeBst.TreeExact
  fakeFreqs : ∀ a, fakeBst.accessFreqs.find? a =
    if a ∈ fake then some (s.timeStamp+1) else s.fakeBst.accessFreqs.find? a

structure Filling (cfg : Config) (s : Server) (swept topped : ThreadSafeUnorderedMap) (filled : List Str) : Prop where
  count : filled.length = cfg.B-(s.storage_batch.length+cfg.F)
  distinct : filled.Nodup
  live : ∀ k ∈ filled, k ∈ s.proxy.realBst.accessFreqs
  uncached : ∀ k ∈ filled, k ∉ s.proxy.cache.held
  fresh : ∀ k ∈ filled, k ∉ s.storage_batch
  wide : swept.Widened topped filled

theorem filling_phase (valid : Resident cfg env s.last s.proxy) (ops : s.storage_batch.length+cfg.F ≤ cfg.B)
    (fillable : cfg.B-cfg.F ≤ (uncachedKeys s.proxy).length)
    {swept : ThreadSafeUnorderedMap} (present : ∀ k, swept.present k = true ↔ k ∈ s.storage_batch)
    {bst : FrequencySmoother} (tree : bst.TreeExact)
    (same : ∀ k, k ∈ bst.accessFreqs ↔ k ∈ s.proxy.realBst.accessFreqs) :
    ∃ filled topped, fill s.proxy.cache s.proxy.EvictedItems (fillCount cfg s.storage_batch.length)
        bst.accessTree.toList swept = .ok (filled,topped) ∧ Filling cfg s swept topped filled := by
  have keysNodup := FrequencySmoother.tree_keys_nodup tree
  have enough := enough_eligible fillable valid.items tree same present
  rw [← fillCount_exact cfg ops] at enough
  obtain ⟨topped,ran,wide⟩ := fill_takes s.proxy.cache s.proxy.EvictedItems _ _ swept keysNodup enough
  refine ⟨_,topped,ran,by rw [fillers_length enough,fillCount_exact cfg ops],fillers_nodup keysNodup,?_,?_,?_,wide⟩
  · intro k member
    obtain ⟨e,listed,rfl,_⟩ := fillers_eligible member
    exact (same e.key).mp (Table.mem_iff.mpr ⟨e.freq,(tree e).mp listed⟩)
  · intro k member
    obtain ⟨e,_,rfl,eligible⟩ := fillers_eligible member
    exact eligible.1
  · intro k member listed
    obtain ⟨e,_,rfl,eligible⟩ := fillers_eligible member
    have idle := eligible.2.2
    rw [(present e.key).mpr listed] at idle
    cases idle

theorem faking_phase (valid : Resident cfg env s.last s.proxy) (fits : Fits cfg s) (topped : ThreadSafeUnorderedMap)
    (named : ∀ k, topped.present k = true → chr '@' ∈ k) :
    ∃ fake fakeBst widened, readFakes env (s.proxy.timeStamp+1) cfg.F s.proxy.fakeBst topped =
        .ok (fakeRows env s.proxy fake,fakeBst,widened) ∧
      FakesRead (s.proxy.timeStamp+1) cfg.F s.proxy.fakeBst fakeBst topped widened fake := by
  obtain ⟨names,distinct,many,live⟩ := valid.fakeCount
  have fakes := fits.fakes
  apply readFakes_spec env _ _ _ _ valid.fakeTree ?_ names distinct ?_ (by omega)
  · intro k stale
    obtain ⟨f,found,_⟩ := stale
    rw [Bool.eq_false_iff]
    intro busy
    exact valid.fakeNames k (Table.mem_iff.mpr ⟨f,found⟩) (named k busy)
  · intro k member
    obtain ⟨f,found⟩ := Table.mem_iff.mp (live k member)
    have age := valid.fakeAge k f found
    exact ⟨f,found,by omega⟩

-- The three loops that choose what the batch reads.
theorem reading_phase (sound : Sound cfg env s) (fits : Fits cfg s) {swept : ThreadSafeUnorderedMap}
    (present : ∀ k, swept.present k = true ↔ k ∈ s.storage_batch) :
    ∃ first filled topped bst fake fakeBst widened,
      readKeys env (s.proxy.timeStamp+1) s.storage_batch s.proxy.realBst =
        (realRows env s.proxy s.storage_batch,first) ∧
      fill s.proxy.cache s.proxy.EvictedItems (fillCount cfg s.storage_batch.length) first.accessTree.toList swept =
        .ok (filled,topped) ∧
      readKeys env (s.proxy.timeStamp+1) filled first = (realRows env s.proxy filled,bst) ∧
      readFakes env (s.proxy.timeStamp+1) cfg.F s.proxy.fakeBst topped =
        .ok (fakeRows env s.proxy fake,fakeBst,widened) ∧
      Plan cfg s.proxy (s.storage_batch ++ filled) fake ∧ Moved s.proxy (s.storage_batch ++ filled) fake bst fakeBst ∧
      swept.Widened widened (filled ++ fake) := by
  have batchLive : ∀ k ∈ s.storage_batch, k ∈ s.proxy.realBst.accessFreqs :=
    fun k member => (sound.building.absent k member).1
  have rows := readKeys_rows env (s.proxy.timeStamp+1) _ _ sound.building.distinct batchLive
  have firstExact := readKeys_exact env (s.proxy.timeStamp+1) _ _ batchLive sound.resident.exact
  have firstFreqs := fun a => readKeys_freqs env (s.proxy.timeStamp+1) _ _ a batchLive
  generalize whole : readKeys env (s.proxy.timeStamp+1) s.storage_batch s.proxy.realBst = pair at rows firstExact firstFreqs
  obtain ⟨firstRows,first⟩ := pair
  dsimp only at rows firstExact firstFreqs
  have same : ∀ k, k ∈ first.accessFreqs ↔ k ∈ s.proxy.realBst.accessFreqs := by
    intro k
    rw [Table.mem_iff,firstFreqs]
    by_cases member : k ∈ s.storage_batch
    · simp [member,batchLive k member]
    · simp [member,Table.mem_iff]
  obtain ⟨filled,topped,ran,filling⟩ := filling_phase sound.resident fits.ops fits.fillable present firstExact.tree same
  have filledLive : ∀ k ∈ filled, k ∈ first.accessFreqs := fun k member => (same k).mpr (filling.live k member)
  obtain ⟨fake,fakeBst,widened,faked,read⟩ := faking_phase sound.resident fits topped (by
    intro k busy
    rcases filling.wide.present busy with before | added
    · exact sound.resident.real_at (batchLive k ((present k).mp before))
    · exact sound.resident.real_at (filling.live k added))
  refine ⟨first,filled,topped,(readKeys env (s.proxy.timeStamp+1) filled first).2,fake,fakeBst,widened,
    by rw [rows]; rfl,ran,?_,faked,⟨?_,?_,?_,?_,read.distinct,read.count,?_⟩,⟨?_,?_,read.tree,read.freqs⟩,
    filling.wide.trans read.wide⟩
  · refine Prod.ext ?_ rfl
    rw [readKeys_rows env _ _ _ filling.distinct filledLive]
    apply List.map_congr_left
    intro k member
    simp [FrequencySmoother.freq,firstFreqs,filling.fresh k member]
  · refine List.nodup_append.mpr ⟨sound.building.distinct,filling.distinct,?_⟩
    intro a old b new equal
    subst equal
    exact filling.fresh a new old
  · have ops := fits.ops
    rw [List.length_append,filling.count]
    omega
  · intro k member
    exact (List.mem_append.mp member).elim (batchLive k) (filling.live k)
  · intro k member
    exact (List.mem_append.mp member).elim (fun old => (sound.building.absent k old).2) (filling.uncached k)
  · intro k member
    obtain ⟨f,found,_⟩ := read.stale k member
    exact Table.mem_iff.mpr ⟨f,found⟩
  · exact readKeys_exact env _ _ _ filledLive firstExact
  · intro a
    rw [readKeys_freqs env _ _ _ a filledLive,firstFreqs]
    by_cases one : a ∈ filled <;> by_cases two : a ∈ s.storage_batch <;> simp [one,two]

-- The rows of a batch in the order of storage_keys.
def batchRows (env : Env) (s : Proxy) (real fake : List Str) : List (Str × Str) :=
  realRows env s real ++ fakeRows env s fake

theorem rows_nodup (lawful : env.Lawful) (valid : Resident cfg env last p) (plan : Plan cfg p real fake) :
    ((batchRows env p real fake).map Prod.fst).Nodup := by
  simp only [batchRows,realRows,fakeRows,List.map_append,List.map_map]
  refine List.nodup_append.mpr ⟨?_,?_,?_⟩
  · exact plan.distinct.map_on (fun a _ b _ same => (env.label_injective lawful same).1)
  · exact plan.fakeDistinct.map_on (fun a _ b _ same => (env.label_injective lawful same).1)
  · intro a inReal b inFake same
    obtain ⟨k,isReal,rfl⟩ := List.mem_map.mp inReal
    obtain ⟨l,isFake,rfl⟩ := List.mem_map.mp inFake
    obtain ⟨equal,_⟩ := env.label_injective lawful same
    exact valid.real_ne_fake (plan.live k isReal) (equal ▸ plan.fakeLive l isFake)

-- Every label of the batch is in the storage, and a real one holds the last value.
theorem rows_stored (valid : Resident cfg env last p) (plan : Plan cfg p real fake) :
    (∀ l ∈ (batchRows env p real fake).map Prod.fst, l ∈ p.storage) ∧
      ∀ k ∈ real, last k = some (env.decryptNonDeterministic ((p.storage.find? (env.label k (p.realBst.freq k))).getD [])) := by
  have stored : ∀ k ∈ real, ∃ c, p.storage.find? (env.label k (p.realBst.freq k)) = some c ∧
      last k = some (env.decryptNonDeterministic c) := by
    intro k member
    exact valid.stored k _ (FrequencySmoother.freq_find (plan.live k member)) (plan.uncached k member)
  refine ⟨?_,?_⟩
  · intro l member
    simp only [batchRows,realRows,fakeRows,List.map_append,List.map_map,List.mem_append,List.mem_map] at member
    rcases member with ⟨k,isReal,rfl⟩ | ⟨k,isFake,rfl⟩
    · obtain ⟨c,found,_⟩ := stored k isReal
      exact Table.mem_iff.mpr ⟨c,found⟩
    · exact valid.fakeStored k _ (FrequencySmoother.freq_find (plan.fakeLive k isFake))
  · intro k member
    obtain ⟨c,found,value⟩ := stored k member
    rw [found]
    exact value

def replies (storage : Table Str Str) (rows : List (Str × Str)) : List (Str × Str) :=
  rows.map (fun row => (row.1,(storage.find? row.1).getD []))

theorem zip_replies (storage : Table Str Str) (rows : List (Str × Str)) :
    (rows.map Prod.fst).zip ((rows.map Prod.fst).map (fun l => (storage.find? l).getD [])) = replies storage rows := by
  induction rows with
  | nil => rfl
  | cons row rest ih => simp [replies] at ih ⊢; exact ih

theorem arrivals_replies (env : Env) (storage : Table Str Str) (rows part : List (Str × Str))
    (distinct : (rows.map Prod.fst).Nodup) (inside : ∀ row ∈ part, row ∈ rows) :
    arrivals env (Table.insertAll ∅ rows) (replies storage part) =
      part.map (fun row => (row.2,env.decryptNonDeterministic ((storage.find? row.1).getD []))) := by
  simp only [arrivals,replies,List.map_map]
  apply List.map_congr_left
  intro row member
  simp [Table.find_insertAll_present ∅ rows row.1 row.2 distinct (inside row member)]

theorem writing_phase (cfg : Config) (lawful : env.Lawful) (choice : Choice) (map : Table Str Str) {mid : Proxy} (valid : Evictable mid)
    (realPart fakePart : List (Str × Str))
    (distinct : ((arrivals env map realPart).map Prod.fst).Nodup)
    (live : ∀ k ∈ (arrivals env map realPart).map Prod.fst, k ∈ mid.realBst.accessFreqs)
    (uncached : ∀ k ∈ (arrivals env map realPart).map Prod.fst, k ∉ mid.cache.held)
    (fakeLive : ∀ k ∈ (arrivals env map fakePart).map Prod.fst, k ∈ mid.fakeBst.accessFreqs) :
    ∃ w evicted more, Progress env mid (arrivals env map realPart) evicted w ∧
      writeBack cfg env choice map realPart.length 0 (realPart ++ fakePart) ⟨mid,[],∅,[]⟩ =
        .ok {w with writeBatch:=w.writeBatch ++ more,
                    promiseSatisfy:=Table.insertAll ∅ (arrivals env map realPart ++ arrivals env map fakePart)} ∧
      more.map Prod.fst =
        ((arrivals env map fakePart).map Prod.fst).map (fun k => env.label k (mid.fakeBst.freq k)) := by
  obtain ⟨w,evicted,ran,state⟩ := writeBack_real lawful cfg choice map valid realPart realPart.length 0 (by simp)
    (Progress.start env mid valid) (by simpa using distinct) (by simpa using live) uncached
  rw [List.nil_append] at state
  have fakeBst : w.proxy.fakeBst = mid.fakeBst := by rw [state.frame]
  obtain ⟨more,faked,labels⟩ := writeBack_fake cfg env choice map fakePart realPart.length (0+realPart.length) (by simp) w
    (by rw [fakeBst]; exact fakeLive)
  refine ⟨w,evicted,more,state,?_,by rw [← fakeBst]; exact labels⟩
  have satisfied : Table.insertAll ∅ (arrivals env map realPart ++ arrivals env map fakePart) =
      w.promiseSatisfy.insertAll (arrivals env map fakePart) := by
    rw [state.satisfied]
    simp [Table.insertAll]
  rw [writeBack_append,ran,satisfied]
  exact faked

-- The labels a batch reads and the labels it writes.
def readLabels (env : Env) (s : Proxy) (real fake : List Str) : List Str := (batchRows env s real fake).map Prod.fst
def writeLabels (env : Env) (t : Proxy) (evicted : List (Str × Str)) (fake : List Str) : List Str :=
  evicted.map (fun kv => env.label kv.1 (t.realBst.freq kv.1)) ++ fake.map (fun k => env.label k t.timeStamp)

theorem mem_readLabels {l : Str} : l ∈ readLabels env p real fake ↔
    (∃ k ∈ real, l = env.label k (p.realBst.freq k)) ∨ ∃ k ∈ fake, l = env.label k (p.fakeBst.freq k) := by
  simp only [readLabels,batchRows,realRows,fakeRows,List.map_append,List.map_map,List.mem_append,List.mem_map,
    Function.comp_apply,eq_comm]

-- What a batch does, from the state s in which it is closed to the state t in
-- which the next one begins.
structure Executed (cfg : Config) (env : Env) (s t : Server) (real fake : List Str) (evicted : List (Str × Str)) :
    Prop where
  plan : Plan cfg s.proxy real fake
  batch : ∀ k ∈ s.storage_batch, k ∈ real
  exact : t.proxy.realBst.Exact
  freqs : ∀ k, t.proxy.realBst.accessFreqs.find? k = if k ∈ s.proxy.keys_to_be_deleted then none
    else if k ∈ real then some (s.proxy.timeStamp+1) else s.proxy.realBst.accessFreqs.find? k
  fakeTree : t.proxy.fakeBst.TreeExact
  fakeFreqs : ∀ k, t.proxy.fakeBst.accessFreqs.find? k =
    if k ∈ fake then some (s.proxy.timeStamp+1) else s.proxy.fakeBst.accessFreqs.find? k
  queue : evicted ++ t.proxy.cache.entries.reverse = s.proxy.cache.entries.reverse ++
    (real.filter (· ∉ s.proxy.keys_to_be_deleted)).map (fun k => (k,(s.last k).getD []))
  count : evicted.length = real.length
  stored : ∀ kv ∈ evicted, ∃ c, t.proxy.storage.find? (env.label kv.1 (t.proxy.realBst.freq kv.1)) = some c ∧
    env.decryptNonDeterministic c = kv.2
  fakeStored : ∀ k ∈ fake, env.label k t.proxy.timeStamp ∈ t.proxy.storage
  kept : ∀ l, l ∉ writeLabels env t.proxy evicted fake → (∀ row ∈ s.proxy.keysNotUsed, l ∉ row) →
    t.proxy.storage.find? l = s.proxy.storage.find? l
  fewer : ∀ l ∈ t.proxy.storage, l ∈ writeLabels env t.proxy evicted fake ∨ l ∈ s.proxy.storage
  calls : ∃ rounds, t.proxy.calls = s.proxy.calls ++
      (⟨.get_batch,t.proxy.timeStamp,readLabels env s.proxy real fake⟩ :: rounds ++
        [⟨.put_batch,t.proxy.timeStamp,writeLabels env t.proxy evicted fake⟩]) ∧
    ∀ c ∈ rounds, c.op = .delete_batch ∧ c.labels ∈ s.proxy.keysNotUsed
  unused : ∀ row ∈ t.proxy.keysNotUsed, row ∈ s.proxy.keysNotUsed ∨ row = readLabels env s.proxy real fake
  answers : ∀ id ks n, s.proxy.runningKeys.request_map.find? id = some (ks,some n) →
    t.proxy.promises.find? n = some (s.proxy.runningKeys.answer (fun k => (s.last k).getD []) ks)
  others : ∀ n, (∀ id ks, s.proxy.runningKeys.request_map.find? id ≠ some (ks,some n)) →
    t.proxy.promises.find? n = s.proxy.promises.find? n
  frame : t = {s with proxy:=t.proxy,storage_batch:=[],i:=0}
  clock : t.proxy.timeStamp = s.proxy.timeStamp+1
  settled : t.proxy.runningKeys = .empty
  cleared : t.proxy.keys_to_be_deleted = []
  items : t.proxy.EvictedItems = ∅

-- A key has the new clock if the batch has read it, and else what it had.
theorem Executed.freq_now (done : Executed cfg env s t real fake evicted)
    (found : t.proxy.realBst.accessFreqs.find? k = some f) :
    (k ∈ real ∧ f = s.proxy.timeStamp+1) ∨ (k ∉ real ∧ s.proxy.realBst.accessFreqs.find? k = some f) := by
  rw [done.freqs] at found
  split at found
  · cases found
  · split at found
    · rename_i read
      cases found
      exact .inl ⟨read,rfl⟩
    · rename_i unread
      exact .inr ⟨unread,found⟩

theorem Executed.fakeFreq_now (done : Executed cfg env s t real fake evicted)
    (found : t.proxy.fakeBst.accessFreqs.find? k = some f) :
    (k ∈ fake ∧ f = s.proxy.timeStamp+1) ∨ (k ∉ fake ∧ s.proxy.fakeBst.accessFreqs.find? k = some f) := by
  rw [done.fakeFreqs] at found
  split at found
  · rename_i read
    cases found
    exact .inl ⟨read,rfl⟩
  · rename_i unread
    exact .inr ⟨unread,found⟩

end TsWaffle
