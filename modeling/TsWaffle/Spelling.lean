import TsWaffle.Following
import TsWaffle.Loading

namespace TsWaffle
open Text Runs Server
variable {cfg : Config} {env : Env} {s t : Server} {p q : Proxy} {pairs : List (Str × Str)} {draws : Draws} {k key : Str}

-- A key the parser accepts has an '@' in it, as has every key built from an item
-- and a timestamp; a fake key has none.
theorem split_at (read : get_key_timestamp_split key = .ok parts) : chr '@' ∈ key := by
  unfold get_key_timestamp_split at read
  split at read
  · cases read
  · rename_i i found
    obtain ⟨below,same,_⟩ := List.findIdx?_eq_some_iff_getElem.mp found
    rw [← beq_iff_eq.mp same]
    exact List.getElem_mem below

theorem bucketKey_at (item : Str) (ts : Int) : chr '@' ∈ bucketKey item ts := by
  simp [bucketKey]

-- The names the real side of the proxy works with, in any state of any run.
structure Spelled (p : Proxy) (batch : List Str) : Prop where
  tree : ∀ e ∈ p.realBst.accessTree, chr '@' ∈ e.key
  batch : ∀ k ∈ batch, chr '@' ∈ k
  running : ∀ k, p.runningKeys.present k = true → chr '@' ∈ k
  cached : ∀ k ∈ p.cache.held, chr '@' ∈ k

-- What serving a request leaves alone.
structure Aside (p q : Proxy) : Prop where
  fakeBst : q.fakeBst = p.fakeBst
  clock : q.timeStamp = p.timeStamp
  calls : q.calls = p.calls

-- A key enters the storage batch unless it runs already.
theorem enlarged_spelled {batch : List Str} (before : ∀ k ∈ batch, chr '@' ∈ k) (named : chr '@' ∈ key) {running : Prop}
    [Decidable running] : ∀ k ∈ (if running then batch else batch ++ [key]), chr '@' ∈ k := by
  intro k member
  split at member
  · exact before k member
  · rcases List.mem_append.mp member with old | new
    · exact before k old
    · rw [List.mem_singleton.mp new]
      exact named

theorem Requested.spelled {request_id : Int} (done : Requested p batch key promise request_id q after)
    (named : chr '@' ∈ key) (spelled : Spelled p batch) : Spelled q after ∧ Aside p q := by
  cases done with
  | unknown qs dead set => exact ⟨⟨spelled.tree,spelled.batch,spelled.running,spelled.cached⟩,rfl,rfl,rfl⟩
  | given v running live source registered =>
    refine ⟨⟨spelled.tree,spelled.batch,?_,spelled.cached⟩,rfl,rfl,rfl⟩
    intro k busy
    rw [insert_cache_present registered] at busy
    exact spelled.running k busy
  | pending live uncached unevicted =>
    refine ⟨⟨spelled.tree,?_,?_,spelled.cached⟩,rfl,rfl,rfl⟩
    · exact enlarged_spelled spelled.batch named
    · intro k busy
      rw [ThreadSafeUnorderedMap.present_iff] at busy
      simp only [ThreadSafeUnorderedMap.insertIfNotPresentGet,Table.mem_insert] at busy
      rcases busy with plain | same | waiting
      · exact spelled.running k ((ThreadSafeUnorderedMap.present_iff _ _).mpr (.inl plain))
      · rw [same]
        exact named
      · exact spelled.running k ((ThreadSafeUnorderedMap.present_iff _ _).mpr (.inr waiting))

theorem Aside.trans (one : Aside p q) (two : Aside q r) : Aside p r :=
  ⟨two.fakeBst.trans one.fakeBst,two.clock.trans one.clock,two.calls.trans one.calls⟩

theorem requestKeys_spelled (keys : List Str) (named : ∀ k ∈ keys, chr '@' ∈ k) (spelled : Spelled s.proxy s.storage_batch)
    (ran : requestKeys promise keys s = .ok t) : Spelled t.proxy t.storage_batch ∧ Aside s.proxy t.proxy := by
  refine requestKeys_rule (I:=fun p batch => Spelled p batch ∧ Aside s.proxy p) keys ?_ ⟨spelled,rfl,rfl,rfl⟩ ran
  intro p batch key request_id q after member done before
  obtain ⟨next,aside⟩ := done.spelled (named key member) before.1
  exact ⟨next,before.2.trans aside⟩

theorem Retired.spelled (done : Retired p batch key oldest bst q after) (named : chr '@' ∈ oldest)
    (same : bst.accessTree = p.realBst.accessTree) (spelled : Spelled p batch) : Spelled q after ∧ Aside p q := by
  have fewer : ∀ e ∈ (bst.removeKey oldest).1.accessTree, chr '@' ∈ e.key := by
    intro e listed
    rw [(FrequencySmoother.removeKey_parts _ _).2,OrderedSet.mem_erase,same] at listed
    exact spelled.tree e listed.1
  cases done with
  | scheduled uncached unevicted =>
    refine ⟨⟨?_,?_,?_,spelled.cached⟩,rfl,rfl,rfl⟩
    · intro e listed
      dsimp only at listed
      rw [same] at listed
      exact spelled.tree e listed
    · exact enlarged_spelled spelled.batch named
    · intro k busy
      rcases (ThreadSafeUnorderedMap.insertIfNotPresent_present _ _ _).mp busy with rfl | old
      · exact named
      · exact spelled.running k old
  | cached held parsed =>
    refine ⟨⟨fewer,spelled.batch,spelled.running,?_⟩,rfl,rfl,rfl⟩
    intro k member
    exact spelled.cached k ((Cache.mem_held_remove _ _ _).mp member).2
  | evicted value parsed => exact ⟨⟨fewer,spelled.batch,spelled.running,spelled.cached⟩,rfl,rfl,rfl⟩

theorem store_listed (bst : FrequencySmoother) (key : Str) (clock : Int) (listed : e ∈ (bst.store key clock).accessTree) :
    e.key = key ∨ e ∈ bst.accessTree := by
  rcases (FrequencySmoother.setFrequency_mem _ _ _ _).mp listed with rfl | ⟨old,_⟩
  · exact .inl rfl
  · rw [(FrequencySmoother.insert_parts bst key).2,OrderedSet.mem_insert] at old
    rcases old with rfl | before
    · exact .inl rfl
    · exact .inr before

theorem storeKey_spelled (spelled : Spelled p batch) (ran : p.storeKey batch key value promise = .ok (q,after)) :
    Spelled q after ∧ Aside p q := by
  obtain ⟨oldest,bst,m,qs,found,retired,_,rfl,_⟩ := storeKey_returned ran
  obtain ⟨item,ts,o,read,_,rfl,rfl⟩ := getOldestKey_returned found
  have named := split_at read
  obtain ⟨left,aside⟩ := retired.spelled (bucketKey_at item o) rfl spelled
  refine ⟨⟨?_,left.batch,left.running,?_⟩,aside.fakeBst,aside.clock,aside.calls⟩
  · intro e listed
    rcases store_listed _ _ _ listed with same | old
    · rw [same]
      exact named
    · exact left.tree e old
  · intro k member
    rcases (Cache.mem_held_insert _ _ _ _).mp member with rfl | old
    · exact named
    · exact left.cached k old

theorem serve_spelled {r : Request} (spelled : Spelled s.proxy s.storage_batch) (ran : s.serve r = .ok t) :
    Spelled t.proxy t.storage_batch ∧ Aside s.proxy t.proxy := by
  rcases serve_returned ran with ⟨_,keys,bst,m,split,asked,rfl⟩ | ⟨_,q,more,stored,rfl⟩
  · obtain ⟨item,a,b,rfl,rfl⟩ := get_split_keys_returned split
    have named : ∀ k ∈ (select (s.proxy.realBst.timestamps item).toList a b).map (bucketKey item), chr '@' ∈ k := by
      intro k member
      obtain ⟨ts,_,rfl⟩ := List.mem_map.mp member
      exact bucketKey_at item ts
    have before : Spelled {s.proxy with realBst:=(s.proxy.realBst.get_timestamp_for_key item).2} s.storage_batch :=
      ⟨spelled.tree,spelled.batch,spelled.running,spelled.cached⟩
    obtain ⟨final,aside⟩ := requestKeys_spelled
      (s:={s with proxy:={s.proxy with realBst:=(s.proxy.realBst.get_timestamp_for_key item).2},
                  requests:=s.requests ++ [r]}) _ named before asked
    exact ⟨final,aside.fakeBst,aside.clock,aside.calls⟩
  · exact storeKey_spelled spelled stored

-- Every key that is loaded has been parsed.
theorem insert_parsed {bst next : FrequencySmoother} (stamped : bst.needTimeStamp = true)
    (ran : bst.insert key = (next,.ok ())) : chr '@' ∈ key ∧ next.needTimeStamp = true ∧
      next.accessTree = bst.accessTree.insert ⟨key,0⟩ := by
  have parts := (FrequencySmoother.insert_parts bst key).2
  rw [ran] at parts
  unfold FrequencySmoother.insert at ran
  simp only [stamped,if_true] at ran
  split at ran
  · cases ran
  · rename_i item ts read
    cases ran
    exact ⟨split_at read,rfl,parts⟩

-- The labels written at init are of real names or at frequency 0.
def NamedRows (env : Env) (m : Table Str Str) : Prop := ∀ l ∈ m, ∃ k f, l = env.label k f ∧ chr '@' ∈ k

theorem loadKeys_spelled {i : Nat} (seeds : Nat → Nat) (pairs : List (Str × Str)) (bst : FrequencySmoother) {m : Table Str Str}
    (stamped : bst.needTimeStamp = true) (tree : ∀ e ∈ bst.accessTree, chr '@' ∈ e.key) (rows : NamedRows env m)
    (ran : loadKeys env seeds i pairs bst m = .ok (after,filled)) :
    (∀ e ∈ after.accessTree, chr '@' ∈ e.key) ∧ (∀ kv ∈ pairs, chr '@' ∈ kv.1) ∧ NamedRows env filled := by
  have loaded := loadKeys_rule
    (I:=fun done bst m => bst.needTimeStamp = true ∧ (∀ e ∈ bst.accessTree, chr '@' ∈ e.key) ∧
      (∀ kv ∈ done, chr '@' ∈ kv.1) ∧ NamedRows env m) seeds [] pairs (by
    intro done bst m kv _ before next cipher inserted
    obtain ⟨stamped,tree,others,rows⟩ := before
    obtain ⟨named,still,listed⟩ := insert_parsed stamped inserted
    refine ⟨still,?_,?_,?_⟩
    · intro e member
      change e ∈ next.accessTree at member
      rw [listed,OrderedSet.mem_insert] at member
      rcases member with rfl | old
      · exact named
      · exact tree e old
    · intro other member
      rcases List.mem_append.mp member with old | new
      · exact others other old
      · rw [List.mem_singleton.mp new]
        exact named
    · intro l member
      rcases Table.mem_insert.mp member with rfl | old
      · exact ⟨kv.1,_,rfl,named⟩
      · exact rows l old) ⟨stamped,tree,by simp,rows⟩ ran
  exact ⟨loaded.2.1,loaded.2.2⟩

theorem chooseCached_spelled (pairs : List (Str × Str)) (capacity : Nat) (draws : List Nat) {bst : FrequencySmoother}
    {m : Table Str Str} {chosen : List (Str × Str)} (named : ∀ kv ∈ pairs, chr '@' ∈ kv.1)
    (before : ∀ kv ∈ chosen, chr '@' ∈ kv.1) (rows : NamedRows env m)
    (ran : chooseCached env pairs capacity draws chosen bst m = .ok (out,after,left)) :
    (∀ kv ∈ out, chr '@' ∈ kv.1) ∧ after.accessTree = bst.accessTree ∧ NamedRows env left :=
  (chooseCached_rule (I:=fun chosen next m => (∀ kv ∈ chosen, chr '@' ∈ kv.1) ∧ next.accessTree = bst.accessTree ∧
      NamedRows env m) (by
    intro chosen next m kv member before _ _
    obtain ⟨spelled,same,rows⟩ := before
    refine ⟨?_,same,fun l listed => rows l (Table.mem_erase.mp listed).2⟩
    intro other listed
    rcases List.mem_append.mp listed with old | new
    · exact spelled other old
    · rw [List.mem_singleton.mp new]
      exact named kv member) draws ⟨before,rfl,rows⟩ ran).2

theorem load_held (rows : List (Str × Str)) (c : Cache)
    (member : k ∈ (rows.foldl (fun c row => c.insertIntoCache row.1 row.2) c).held) :
    k ∈ rows.map Prod.fst ∨ k ∈ c.held := by
  induction rows generalizing c with
  | nil => exact .inr member
  | cons row rest ih =>
    rcases ih _ member with later | now
    · exact .inl (List.mem_cons_of_mem _ later)
    · rcases (Cache.mem_held_insert _ _ _ _).mp now with rfl | old
      · exact .inl List.mem_cons_self
      · exact .inr old

theorem init_spelled (cfg : Config) (draws : Draws) (ran : init cfg env draws pairs = .ok s) :
    Spelled s.proxy s.storage_batch ∧ s.proxy.timeStamp = 0 ∧
      ∀ c ∈ s.proxy.calls, c.op = .put_batch ∧ c.batch = 0 ∧
        ∀ l ∈ c.labels, ∃ k f, l = env.label k f ∧ (chr '@' ∈ k ∨ f = 0) := by
  obtain ⟨real,loaded,chosen,chosenBst,left,fakeBst,table,puts,keys,picks,fakes,rfl,log,ops⟩ := init_parts cfg draws ran
  have nothing : NamedRows env ∅ := by
    intro l member
    exact absurd member (Table.notMem_empty l)
  obtain ⟨tree,named,rows⟩ := loadKeys_spelled draws.seeds pairs (.new true) rfl (by
    intro e member
    exact absurd member (OrderedSet.notMem_empty e)) nothing keys
  obtain ⟨picked,same,others⟩ := chooseCached_spelled pairs _ draws.indices named (by
    intro kv member
    cases member) rows picks
  have noFakes : FakesLoaded env [] (.new false) left left :=
    ⟨rfl,FrequencySmoother.new_tree false,by simp [FrequencySmoother.new],by simp,by simp,[],rfl,rfl⟩
  obtain ⟨names,_,drawn⟩ := loadFakes_spec cfg draws.seeds cfg.D draws.fakes noFakes fakes
  obtain ⟨more,inserts,labels⟩ := drawn.rows
  refine ⟨⟨?_,?_,?_,?_⟩,rfl,?_⟩
  · intro e listed
    dsimp only at listed
    rw [same] at listed
    exact tree e listed
  · intro k member
    cases member
  · intro k busy
    simp [ThreadSafeUnorderedMap.present,ThreadSafeUnorderedMap.empty] at busy
  · intro k member
    rcases load_held chosen Cache.empty member with listed | none
    · obtain ⟨kv,inside,rfl⟩ := List.mem_map.mp listed
      exact picked kv inside
    · cases none
  · intro c member
    obtain ⟨op,batch⟩ := ops c member
    refine ⟨op,batch,?_⟩
    intro l listed
    have written : l ∈ logged .put_batch puts := by
      simp only [logged,List.mem_flatMap,List.mem_filter,decide_eq_true_eq]
      exact ⟨c,⟨member,op⟩,listed⟩
    rw [log] at written
    have stored : l ∈ table := Table.mem_keys.mp ((draws.ordered table.keys).mem_iff.mp written)
    rw [inserts,Table.mem_insertAll,labels] at stored
    rcases stored with isFake | isReal
    · obtain ⟨k,_,rfl⟩ := List.mem_map.mp isFake
      exact ⟨k,0,rfl,.inr rfl⟩
    · obtain ⟨k,f,same,at_⟩ := others l isReal
      exact ⟨k,f,same,.inl at_⟩

end TsWaffle
