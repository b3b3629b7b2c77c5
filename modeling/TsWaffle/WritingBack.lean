import TsWaffle.Reading

namespace TsWaffle
open Text

-- What rounds of clearThread can do to the proxy: drop labels of the queue.
structure Cleared (s t : Proxy) : Prop where
  frame : t = {s with storage:=t.storage,calls:=t.calls,keysNotUsed:=t.keysNotUsed}
  kept : ∀ l, (∀ row ∈ s.keysNotUsed, l ∉ row) → t.storage.find? l = s.storage.find? l
  fewer : ∀ l ∈ t.storage, l ∈ s.storage
  queue : ∀ row ∈ t.keysNotUsed, row ∈ s.keysNotUsed
  deletes : ∃ rounds, t.calls = s.calls ++ rounds ∧
    ∀ c ∈ rounds, c.op = .delete_batch ∧ c.labels ∈ s.keysNotUsed

theorem Cleared.refl (s : Proxy) : Cleared s s :=
  ⟨rfl,fun _ _ => rfl,fun _ member => member,fun _ member => member,[],by simp,by simp⟩

theorem Cleared.trans (one : Cleared s t) (two : Cleared t u) : Cleared s u := by
  refine ⟨?_,?_,?_,?_,?_⟩
  · rw [two.frame,one.frame]
  · intro l unused
    rw [two.kept l (fun row member => unused row (one.queue row member)),one.kept l unused]
  · intro l member; exact one.fewer l (two.fewer l member)
  · intro row member; exact one.queue row (two.queue row member)
  · obtain ⟨first,before,deletes⟩ := one.deletes
    obtain ⟨second,after,more⟩ := two.deletes
    refine ⟨first ++ second,by rw [after,before,List.append_assoc],?_⟩
    intro c member
    rcases List.mem_append.mp member with left | right
    · exact deletes c left
    · exact ⟨(more c right).1,one.queue _ (more c right).2⟩

theorem clearThread_cleared (s : Proxy) : Cleared s s.clearThread := by
  unfold Proxy.clearThread
  split
  · exact .refl s
  · rename_i row rest shape
    have suffix_ : ∀ r ∈ rest, r ∈ s.keysNotUsed := by
      intro r member
      rw [shape]
      exact List.mem_cons_of_mem _ member
    have head : row ∈ s.keysNotUsed := by rw [shape]; exact List.mem_cons_self
    dsimp only
    split
    · refine ⟨rfl,?_,?_,suffix_,[⟨.delete_batch,s.timeStamp,row⟩],rfl,?_⟩
      · intro l unused
        simp [Proxy.delete_batch,Table.find_eraseAll,unused row head]
      · intro l member
        rw [Table.mem_iff] at member ⊢
        obtain ⟨v,found⟩ := member
        exact ⟨v,(Table.find_eraseAll_some found).2⟩
      · intro c member
        rw [List.mem_singleton] at member
        subst member
        exact ⟨rfl,head⟩
    · exact ⟨rfl,fun _ _ => rfl,fun _ member => member,suffix_,[],by simp,by simp⟩

theorem clearRounds_cleared (n : Nat) (s : Proxy) : Cleared s (Proxy.clearRounds n s) := by
  induction n generalizing s with
  | zero => exact .refl s
  | succ n ih => exact (clearThread_cleared s).trans (ih s.clearThread)

theorem insertAll_concat (m : Table Str Str) (rows : List (Str × Str)) (row : Str × Str) :
    m.insertAll (rows ++ [row]) = (m.insertAll rows).insert row.1 row.2 := by
  simp [Table.insertAll]

-- The state a batch is written back from: cached keys are live and none of them
-- is scheduled, and there is one more of them than scheduled keys.
structure Evictable (s : Proxy) : Prop where
  exact : s.realBst.Exact
  live : ∀ k ∈ s.cache.held, k ∈ s.realBst.accessFreqs
  unscheduled : ∀ k ∈ s.cache.held, k ∉ s.keys_to_be_deleted
  room : s.keys_to_be_deleted.dedup.length < s.cache.entries.length

-- The loop after some pairs are done, seen from the state s it started in. The
-- cache is a queue: what has been evicted, followed by what is cached, is the
-- queue at the start followed by the pairs that were not scheduled.
structure Progress (env : Env) (s : Proxy) (done evicted : List (Str × Str)) (w : WriteBack) : Prop where
  queue : evicted ++ w.proxy.cache.entries.reverse =
    s.cache.entries.reverse ++ done.filter (fun kv => kv.1 ∉ s.keys_to_be_deleted)
  count : evicted.length = done.length
  writes : w.writeBatch.map (fun row => (row.1,env.decryptNonDeterministic row.2)) =
    evicted.map (fun kv => (env.label kv.1 (s.realBst.freq kv.1),kv.2))
  exact : w.proxy.realBst.Exact
  freqs : ∀ a, w.proxy.realBst.accessFreqs.find? a =
    if a ∈ s.keys_to_be_deleted ∧ a ∈ done.map Prod.fst then none else s.realBst.accessFreqs.find? a
  scheduled : w.proxy.keys_to_be_deleted = s.keys_to_be_deleted.filter (· ∉ done.map Prod.fst)
  items : ∀ k ∈ w.proxy.EvictedItems, k ∈ s.EvictedItems ∨ k ∈ w.tempEvictedItems
  satisfied : w.promiseSatisfy = Table.insertAll ∅ done
  frame : w.proxy = {s with cache:=w.proxy.cache,realBst:=w.proxy.realBst,EvictedItems:=w.proxy.EvictedItems,
                            keys_to_be_deleted:=w.proxy.keys_to_be_deleted}

theorem Progress.start (env : Env) (s : Proxy) (valid : Evictable s) : Progress env s [] [] ⟨s,[],∅,[]⟩ := by
  refine ⟨by simp,rfl,rfl,valid.exact,by simp,by simp,fun k member => .inl member,rfl,rfl⟩

theorem scheduled_bound {done : List (Str × Str)} (distinct : (done.map Prod.fst).Nodup) (ktd : List Str) :
    (done.filter (fun kv => kv.1 ∈ ktd)).length ≤ ktd.dedup.length := by
  have keys : ((done.filter (fun kv => kv.1 ∈ ktd)).map Prod.fst).Nodup :=
    distinct.sublist (List.Sublist.map _ List.filter_sublist)
  rw [← List.length_map (f:=Prod.fst)]
  apply (List.subperm_of_subset keys ?_).length_le
  intro k member
  obtain ⟨kv,listed,rfl⟩ := List.mem_map.mp member
  rw [List.mem_dedup]
  simpa using (List.mem_filter.mp listed).2

-- There is always an entry left to evict.
theorem Progress.occupied (valid : Evictable s) (state : Progress env s done evicted w)
    (distinct : (done.map Prod.fst).Nodup) : w.proxy.cache.entries ≠ [] := by
  intro empty
  have lengths := congrArg List.length state.queue
  have parts := List.length_eq_length_filter_add (l:=done) (fun kv => decide (kv.1 ∈ s.keys_to_be_deleted))
  have bound := scheduled_bound distinct s.keys_to_be_deleted
  have room := valid.room
  have count := state.count
  simp only [empty,List.reverse_nil,List.append_nil,List.length_append,List.length_reverse,decide_not] at lengths parts
  omega

theorem Progress.held_origin (state : Progress env s done evicted w) (kv : Str × Str) (present : kv ∈ w.proxy.cache.entries) :
    kv ∈ s.cache.entries ∨ (kv ∈ done ∧ kv.1 ∉ s.keys_to_be_deleted) := by
  have queued : kv ∈ evicted ++ w.proxy.cache.entries.reverse := by simp [present]
  rw [state.queue] at queued
  simpa using queued

theorem Progress.evicts (valid : Evictable s) (state : Progress env s done evicted w)
    (distinct : (done.map Prod.fst).Nodup) (live : ∀ k ∈ done.map Prod.fst, k ∈ s.realBst.accessFreqs) :
    ∃ rest k v, w.proxy.cache.evictLRElementFromCache = ((k,v),rest) ∧
      w.proxy.cache.entries = rest.entries ++ [(k,v)] ∧ k ∈ w.proxy.realBst.accessFreqs ∧
      w.proxy.realBst.freq k = s.realBst.freq k := by
  obtain ⟨front,⟨k,v⟩,shape⟩ := (List.eq_nil_or_concat' w.proxy.cache.entries).resolve_left (state.occupied valid distinct)
  have origin := state.held_origin (k,v) (by rw [shape]; simp)
  have present : k ∈ s.realBst.accessFreqs ∧ k ∉ s.keys_to_be_deleted := by
    rcases origin with cached | ⟨arrived,free⟩
    · have held : k ∈ s.cache.held := Cache.mem_held.mpr ⟨v,cached⟩
      exact ⟨valid.live k held,valid.unscheduled k held⟩
    · exact ⟨live k (List.mem_map.mpr ⟨_,arrived,rfl⟩),free⟩
  have same : w.proxy.realBst.accessFreqs.find? k = s.realBst.accessFreqs.find? k := by
    rw [state.freqs k,if_neg (fun both => present.2 both.1)]
  obtain ⟨pair,rest⟩ := Cache.evict_entries shape
  refine ⟨_,k,v,Prod.ext pair rfl,by rw [rest]; exact shape,?_,by simp [FrequencySmoother.freq,same]⟩
  rw [Table.mem_iff,same]
  exact Table.mem_iff.mp present.1

theorem removeReal_ok {s : Proxy} (valid : s.realBst.Exact) (live : key ∈ s.realBst.accessFreqs) :
    s.removeReal key = .ok {s with realBst:=(s.realBst.removeKey key).1} ∧ (s.realBst.removeKey key).1.Exact := by
  obtain ⟨item,ts,wf,rfl⟩ := valid.named key live
  have removed := (FrequencySmoother.removeKey_wellFormed valid.stamped wf).1
  refine ⟨?_,FrequencySmoother.removeKey_exact valid wf⟩
  unfold Proxy.removeReal
  split
  · rename_i bst fault shape
    rw [shape] at removed
    cases removed
  · rename_i bst shape
    rw [shape]

theorem Progress.items_evicted (state : Progress env s done evicted w) (k v : Str) (a : Str)
    (member : a ∈ w.proxy.EvictedItems.insert k v) : a ∈ s.EvictedItems ∨ a ∈ w.tempEvictedItems ++ [k] := by
  rcases Table.mem_insert.mp member with rfl | old
  · exact .inr (by simp)
  · exact (state.items a old).imp_right (fun before => List.mem_append_left _ before)

-- The entry evicted is written under the label it has been read back with.
theorem Progress.writes_evicted (lawful : env.Lawful) (state : Progress env s done evicted w)
    (same : w.proxy.realBst.freq k = s.realBst.freq k) (seed : Nat) (v : Str) :
    (w.writeBatch ++ [(env.label k (w.proxy.realBst.freq k),env.encryptNonDeterministic seed v)]).map
      (fun row => (row.1,env.decryptNonDeterministic row.2)) =
      (evicted ++ [(k,v)]).map (fun kv => (env.label kv.1 (s.realBst.freq kv.1),kv.2)) := by
  rw [List.map_append,List.map_append,state.writes]
  simp [lawful.roundTrip,same]

theorem Progress.satisfied_next (state : Progress env s done evicted w) (key value : Str) :
    w.promiseSatisfy.insert key value = Table.insertAll ∅ (done ++ [(key,value)]) := by
  rw [insertAll_concat,state.satisfied]

theorem Progress.still_scheduled (state : Progress env s done evicted w) (fresh : key ∉ done.map Prod.fst) :
    key ∈ w.proxy.keys_to_be_deleted ↔ key ∈ s.keys_to_be_deleted := by
  rw [state.scheduled,List.mem_filter]
  simpa using fun _ => by simpa using fresh

theorem Progress.still_live (state : Progress env s done evicted w) (fresh : key ∉ done.map Prod.fst)
    (present : key ∈ s.realBst.accessFreqs) : key ∈ w.proxy.realBst.accessFreqs := by
  rw [Table.mem_iff,state.freqs key,if_neg (fun both => fresh both.2)]
  exact Table.mem_iff.mp present

theorem Progress.still_uncached (state : Progress env s done evicted w) (fresh : key ∉ done.map Prod.fst)
    (uncached : key ∉ s.cache.held) {rest : Cache} (shape : w.proxy.cache.entries = rest.entries ++ [kv]) :
    key ∉ rest.held := by
  intro held
  obtain ⟨old,member⟩ := Cache.mem_held.mp held
  rcases state.held_origin (key,old) (by rw [shape]; simp [member]) with cached | ⟨arrived,_⟩
  · exact uncached (Cache.mem_held.mpr ⟨old,cached⟩)
  · exact fresh (List.mem_map.mpr ⟨_,arrived,rfl⟩)

theorem mem_done_next {done : List (Str × Str)} (a key value : Str) :
    a ∈ (done ++ [(key,value)]).map Prod.fst ↔ a ∈ done.map Prod.fst ∨ a = key := by
  rw [List.map_append,List.mem_append]
  exact or_congr_right List.mem_singleton

-- A scheduled key is removed for good instead of being cached.
theorem writeReal_scheduled (lawful : env.Lawful) (state : Progress env s done evicted w)
    (evict : w.proxy.cache.evictLRElementFromCache = ((k,v),rest))
    (shape : w.proxy.cache.entries = rest.entries ++ [(k,v)]) (cachedLive : k ∈ w.proxy.realBst.accessFreqs)
    (sameFreq : w.proxy.realBst.freq k = s.realBst.freq k) (fresh : key ∉ done.map Prod.fst)
    (present : key ∈ s.realBst.accessFreqs) (doomed : key ∈ s.keys_to_be_deleted) (seed : Nat) (response : Str) :
    ∃ after, writeReal env seed key response w = .ok after ∧
      Progress env s (done ++ [(key,env.decryptNonDeterministic response)]) (evicted ++ [(k,v)]) after := by
  have scheduled := (state.still_scheduled fresh).mpr doomed
  have frame := state.frame
  let popped : Proxy := {w.proxy with cache:=rest,
                                      EvictedItems:=w.proxy.EvictedItems.insert k v}
  obtain ⟨removed,exact_⟩ := removeReal_ok (s:=popped) state.exact (state.still_live fresh present)
  refine ⟨⟨{popped with realBst:=(w.proxy.realBst.removeKey key).1,
                        keys_to_be_deleted:=w.proxy.keys_to_be_deleted.filter (· ≠ key)},
    w.writeBatch ++ [(env.label k (w.proxy.realBst.freq k),env.encryptNonDeterministic seed v)],
    w.promiseSatisfy.insert key (env.decryptNonDeterministic response),w.tempEvictedItems ++ [k]⟩,?_,
    ?_,?_,state.writes_evicted lawful sameFreq seed v,exact_,?_,?_,state.items_evicted k v,state.satisfied_next key _,?_⟩
  · simp only [writeReal,evict,FrequencySmoother.getFrequency_present cachedLive,scheduled,if_true]
    exact congrArg (fun out => out >>= _) removed
  · have queued : (evicted ++ [(k,v)]) ++ rest.entries.reverse = evicted ++ w.proxy.cache.entries.reverse := by
      rw [shape]; simp
    rw [List.filter_append]
    simp only [popped,queued,state.queue]
    simp [doomed]
  · simp [state.count]
  · intro a
    rw [FrequencySmoother.removeKey_freqs,state.freqs a]
    by_cases same : a = key <;> simp only [mem_done_next,same,doomed,or_true,and_true,or_false,if_true,if_false]
  · rw [state.scheduled,List.filter_filter]
    apply List.filter_congr
    intro a _
    simp only [mem_done_next,not_or,Bool.decide_and,and_comm]
  · simp only [popped]
    rw [frame]

theorem writeReal_kept (lawful : env.Lawful) (state : Progress env s done evicted w)
    (evict : w.proxy.cache.evictLRElementFromCache = ((k,v),rest))
    (shape : w.proxy.cache.entries = rest.entries ++ [(k,v)]) (cachedLive : k ∈ w.proxy.realBst.accessFreqs)
    (sameFreq : w.proxy.realBst.freq k = s.realBst.freq k) (fresh : key ∉ done.map Prod.fst)
    (uncached : key ∉ s.cache.held) (spared : key ∉ s.keys_to_be_deleted) (seed : Nat) (response : Str) :
    ∃ after, writeReal env seed key response w = .ok after ∧
      Progress env s (done ++ [(key,env.decryptNonDeterministic response)]) (evicted ++ [(k,v)]) after := by
  have unscheduled : key ∉ w.proxy.keys_to_be_deleted := fun member => spared ((state.still_scheduled fresh).mp member)
  have gone := state.still_uncached fresh uncached shape
  have missing : rest.checkIfKeyExists key = false := by
    rw [Bool.eq_false_iff]
    intro found
    exact gone (Cache.checkIfKeyExists_iff.mp found)
  have frame := state.frame
  refine ⟨⟨{w.proxy with
      cache:=rest.insertIntoCache key (env.decryptNonDeterministic response),
      EvictedItems:=w.proxy.EvictedItems.insert k v},
    w.writeBatch ++ [(env.label k (w.proxy.realBst.freq k),env.encryptNonDeterministic seed v)],
    w.promiseSatisfy.insert key (env.decryptNonDeterministic response),w.tempEvictedItems ++ [k]⟩,?_,
    ?_,?_,state.writes_evicted lawful sameFreq seed v,state.exact,?_,?_,state.items_evicted k v,
    state.satisfied_next key _,?_⟩
  · simp only [writeReal,evict,FrequencySmoother.getFrequency_present cachedLive,unscheduled,if_false,missing,
      Bool.false_eq_true]
  · have queued : (evicted ++ [(k,v)]) ++ rest.entries.reverse = evicted ++ w.proxy.cache.entries.reverse := by
      rw [shape]; simp
    rw [List.filter_append]
    simp only [Cache.insertIntoCache_entries,Cache.entries_filter_absent gone,List.reverse_cons,
      ← List.append_assoc,queued,state.queue]
    simp [spared]
  · simp [state.count]
  · intro a
    rw [state.freqs a]
    by_cases same : a = key <;> simp only [mem_done_next,same,spared,false_and,or_false,if_false]
  · rw [state.scheduled]
    apply List.filter_congr
    intro a member
    have other : a ≠ key := by intro same; exact spared (same ▸ member)
    simp only [mem_done_next,other,or_false]
  · rw [frame]

theorem writeReal_progress (lawful : env.Lawful) (valid : Evictable s) (state : Progress env s done evicted w)
    (distinct : (done.map Prod.fst).Nodup) (live : ∀ k ∈ done.map Prod.fst, k ∈ s.realBst.accessFreqs)
    (fresh : key ∉ done.map Prod.fst) (present : key ∈ s.realBst.accessFreqs) (uncached : key ∉ s.cache.held)
    (seed : Nat) (response : Str) :
    ∃ after kv, writeReal env seed key response w = .ok after ∧
      Progress env s (done ++ [(key,env.decryptNonDeterministic response)]) (evicted ++ [kv]) after := by
  obtain ⟨rest,k,v,evict,shape,cachedLive,sameFreq⟩ := state.evicts valid distinct live
  by_cases doomed : key ∈ s.keys_to_be_deleted
  · obtain ⟨after,ran,next⟩ :=
      writeReal_scheduled lawful state evict shape cachedLive sameFreq fresh present doomed seed response
    exact ⟨after,(k,v),ran,next⟩
  · obtain ⟨after,ran,next⟩ :=
      writeReal_kept lawful state evict shape cachedLive sameFreq fresh uncached doomed seed response
    exact ⟨after,(k,v),ran,next⟩

theorem writeBack_append (cfg : Config) (env : Env) (choice : Choice) (readBatchMap : Table Str Str) (real i : Nat)
    (rows more : List (Str × Str)) (w : WriteBack) :
    writeBack cfg env choice readBatchMap real i (rows ++ more) w =
      writeBack cfg env choice readBatchMap real i rows w >>=
        writeBack cfg env choice readBatchMap real (i+rows.length) more := by
  induction rows generalizing i w with
  | nil => rfl
  | cons row rest ih =>
    simp only [List.cons_append,writeBack,List.length_cons,ih,Nat.add_assoc,Nat.add_comm 1]
    split <;> exact (bind_assoc _ _ _).symm

-- The pairs the replies of a list of labels stand for.
def arrivals (env : Env) (readBatchMap : Table Str Str) (rows : List (Str × Str)) : List (Str × Str) :=
  rows.map (fun row => ((readBatchMap.find? row.1).getD [],env.decryptNonDeterministic row.2))

theorem writeBack_real (lawful : env.Lawful) (cfg : Config) (choice : Choice) (readBatchMap : Table Str Str)
    (valid : Evictable s) (rows : List (Str × Str)) (real i : Nat) (within : i+rows.length ≤ real)
    (state : Progress env s done evicted w)
    (distinct : ((done ++ arrivals env readBatchMap rows).map Prod.fst).Nodup)
    (live : ∀ k ∈ (done ++ arrivals env readBatchMap rows).map Prod.fst, k ∈ s.realBst.accessFreqs)
    (uncached : ∀ k ∈ (arrivals env readBatchMap rows).map Prod.fst, k ∉ s.cache.held) :
    ∃ after gone, writeBack cfg env choice readBatchMap real i rows w = .ok after ∧
      Progress env s (done ++ arrivals env readBatchMap rows) gone after := by
  induction rows generalizing i w done evicted with
  | nil => exact ⟨w,evicted,rfl,by simpa [arrivals] using state⟩
  | cons row rest ih =>
    have first : i < real := by simp only [List.length_cons] at within; omega
    have unfolded : done ++ arrivals env readBatchMap (row :: rest) =
        (done ++ [((readBatchMap.find? row.1).getD [],env.decryptNonDeterministic row.2)]) ++
          arrivals env readBatchMap rest := by simp [arrivals]
    have split := distinct
    rw [List.map_append,List.nodup_append] at split
    have fresh : (readBatchMap.find? row.1).getD [] ∉ done.map Prod.fst := by
      intro member
      exact split.2.2 _ member _ (by simp [arrivals]) rfl
    obtain ⟨next,kv,stepped,after⟩ := writeReal_progress lawful valid state split.1
      (fun k member => live k (by rw [List.map_append]; exact List.mem_append_left _ member)) fresh
      (live _ (by simp [arrivals])) (uncached _ (by simp [arrivals])) (choice.seeds i) row.2
    rw [unfolded] at distinct live
    obtain ⟨last,gone,ran,final⟩ := ih (i+1) (by simp only [List.length_cons] at within; omega) after distinct live
      (fun k member => uncached k (by
        simp only [arrivals,List.map_cons,List.mem_cons] at member ⊢
        exact .inr member))
    refine ⟨last,gone,?_,by rw [unfolded]; exact final⟩
    simp only [writeBack,first,if_true,stepped,bind,Except.bind]
    exact ran

theorem writeBack_fake (cfg : Config) (env : Env) (choice : Choice) (readBatchMap : Table Str Str)
    (rows : List (Str × Str)) (real i : Nat) (beyond : real ≤ i) (w : WriteBack)
    (live : ∀ k ∈ (arrivals env readBatchMap rows).map Prod.fst, k ∈ w.proxy.fakeBst.accessFreqs) :
    ∃ more, writeBack cfg env choice readBatchMap real i rows w =
        .ok {w with writeBatch:=w.writeBatch ++ more,
                    promiseSatisfy:=w.promiseSatisfy.insertAll (arrivals env readBatchMap rows)} ∧
      more.map Prod.fst =
        ((arrivals env readBatchMap rows).map Prod.fst).map (fun k => env.label k (w.proxy.fakeBst.freq k)) := by
  induction rows generalizing i w with
  | nil => exact ⟨[],by simp [writeBack,arrivals,Table.insertAll],rfl⟩
  | cons row rest ih =>
    have later : ¬ i < real := by omega
    have present := live ((readBatchMap.find? row.1).getD []) (by simp [arrivals])
    obtain ⟨more,ran,labels⟩ := ih (i+1) (by omega)
      (writeFake cfg env (choice.seeds i) (choice.draws i) ((readBatchMap.find? row.1).getD []) row.2 w) (by
        intro k member
        simp only [writeFake,FrequencySmoother.getFrequency_present present]
        apply live
        simp only [arrivals,List.map_cons,List.mem_cons] at member ⊢
        exact .inr member)
    simp only [writeFake,FrequencySmoother.getFrequency_present present] at ran labels
    refine ⟨(env.label ((readBatchMap.find? row.1).getD []) (w.proxy.fakeBst.freq ((readBatchMap.find? row.1).getD [])),
      env.encryptNonDeterministic (choice.seeds i) (EncryptionEngine.gen_random cfg.object_size_ (choice.draws i))) ::
      more,?_,?_⟩
    · simp only [writeBack,later,if_false,bind,Except.bind,writeFake,FrequencySmoother.getFrequency_present present]
      rw [ran]
      simp [arrivals,Table.insertAll]
    · rw [List.map_cons,labels]
      rfl

end TsWaffle
