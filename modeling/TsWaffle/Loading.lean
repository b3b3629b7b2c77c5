import TsWaffle.Residence

namespace TsWaffle
open Text Runs
variable {cfg : Config} {env : Env} {bst : FrequencySmoother} {m : Table Str Str}

theorem insertAll_append (m : Table Str Str) (one two : List (Str × Str)) :
    m.insertAll (one ++ two) = (m.insertAll one).insertAll two := by
  simp [Table.insertAll]

structure KeysLoaded (env : Env) (pairs : List (Str × Str)) (bst after : FrequencySmoother) (m filled : Table Str Str) :
    Prop where
  exact : after.Exact
  freqs : ∀ k, after.accessFreqs.find? k = if k ∈ pairs.map Prod.fst then some 0 else bst.accessFreqs.find? k
  rows : ∃ rows, filled = m.insertAll rows ∧
    rows.map (fun row => (row.1,env.decryptNonDeterministic row.2)) = pairs.map (fun kv => (env.label kv.1 0,kv.2))

theorem loadKeys_spec (lawful : env.Lawful) (seeds : Nat → Nat) (pairs : List (Str × Str)) (i : Nat)
    (valid : bst.Exact) (named : ∀ kv ∈ pairs, ∃ item ts, WellFormed item ts ∧ kv.1 = bucketKey item ts)
    (distinct : (pairs.map Prod.fst).Nodup) (fresh : ∀ k ∈ pairs.map Prod.fst, k ∉ bst.accessFreqs) :
    ∃ after filled, loadKeys env seeds i pairs bst m = .ok (after,filled) ∧ KeysLoaded env pairs bst after m filled := by
  induction pairs generalizing i bst m with
  | nil => exact ⟨bst,m,rfl,valid,by simp,[],rfl,rfl⟩
  | cons kv rest ih =>
    obtain ⟨key,value⟩ := kv
    obtain ⟨item,ts,wf,name⟩ := named (key,value) List.mem_cons_self
    dsimp only at name
    subst name
    obtain ⟨absent,tail⟩ := List.nodup_cons.mp distinct
    have unknown := fresh (bucketKey item ts) List.mem_cons_self
    have inserted := (FrequencySmoother.insert_wellFormed valid.stamped wf).1
    have parts := (FrequencySmoother.insert_parts bst (bucketKey item ts)).1
    have grown := FrequencySmoother.insert_exact valid wf unknown
    generalize whole : bst.insert (bucketKey item ts) = pair at inserted parts grown
    obtain ⟨next,outcome⟩ := pair
    dsimp only at inserted parts grown
    subst inserted
    have freqs : ∀ k, next.accessFreqs.find? k = if k = bucketKey item ts then some 0 else bst.accessFreqs.find? k := by
      intro k
      rw [parts,Table.find_insert]
    have read : next.getFrequency (bucketKey item ts) = (0,next) := by
      rw [FrequencySmoother.getFrequency_present (Table.mem_iff.mpr ⟨0,by simp [freqs]⟩)]
      simp [FrequencySmoother.freq,freqs]
    obtain ⟨after,filled,ran,loaded⟩ := ih (i:=i+1)
      (m:=m.insert (env.label (bucketKey item ts) 0) (env.encryptNonDeterministic (seeds i) value)) grown
      (fun kv member => named kv (List.mem_cons_of_mem _ member)) tail (by
        intro k member live
        obtain ⟨f,found⟩ := Table.mem_iff.mp live
        have differs : k ≠ bucketKey item ts := by rintro rfl; exact absent member
        rw [freqs,if_neg differs] at found
        exact fresh k (List.mem_cons_of_mem _ member) (Table.mem_iff.mpr ⟨f,found⟩))
    obtain ⟨rows,inserts,contents⟩ := loaded.rows
    refine ⟨after,filled,?_,loaded.exact,?_,
      (env.label (bucketKey item ts) 0,env.encryptNonDeterministic (seeds i) value) :: rows,?_,?_⟩
    · simp only [loadKeys,whole,read]
      exact ran
    · intro k
      rw [loaded.freqs,freqs]
      by_cases same : k = bucketKey item ts <;> by_cases later : k ∈ rest.map Prod.fst <;>
        simp only [List.map_cons,List.mem_cons,same,later,true_or,false_or,if_true,if_false,ite_self]
    · rw [inserts]
      rfl
    · simp only [List.map_cons,contents,lawful.roundTrip]

-- What every key that is chosen keeps, the loop keeps; it ends when enough are chosen.
theorem chooseCached_rule {I : List (Str × Str) → FrequencySmoother → Table Str Str → Prop} {pairs : List (Str × Str)}
    {capacity : Nat} (each : ∀ chosen bst m, ∀ kv ∈ pairs, I chosen bst m → chosen.length < capacity →
      kv.1 ∉ chosen.map Prod.fst →
        I (chosen ++ [kv]) (bst.getFrequency kv.1).2 (m.erase (env.label kv.1 (bst.getFrequency kv.1).1)))
    (draws : List Nat) {chosen : List (Str × Str)} (start : I chosen bst m)
    (ran : chooseCached env pairs capacity draws chosen bst m = .ok (out,after,left)) :
    capacity ≤ out.length ∧ I out after left := by
  induction draws generalizing chosen bst m with
  | nil =>
    rw [chooseCached] at ran
    split at ran
    · cases ran
    · rename_i full
      cases ran
      exact ⟨Nat.le_of_not_lt full,start⟩
  | cons index rest ih =>
    rw [chooseCached] at ran
    split at ran
    · rename_i room
      dsimp only at ran
      split at ran
      · cases ran
      · rename_i key value picked
        split at ran
        · exact ih start ran
        · rename_i fresh
          exact ih (each chosen bst m (key,value) (List.mem_of_getElem? picked) start room fresh) ran
    · rename_i full
      cases ran
      exact ⟨Nat.le_of_not_lt full,start⟩

theorem loadKeys_rule {I : List (Str × Str) → FrequencySmoother → Table Str Str → Prop} (seeds : Nat → Nat)
    (done pairs : List (Str × Str)) (each : ∀ done bst m, ∀ kv ∈ pairs, I done bst m → ∀ next cipher,
      bst.insert kv.1 = (next,.ok ()) →
        I (done ++ [kv]) (next.getFrequency kv.1).2 (m.insert (env.label kv.1 (next.getFrequency kv.1).1) cipher))
    {i : Nat} (start : I done bst m)
    (ran : loadKeys env seeds i pairs bst m = .ok (after,filled)) : I (done ++ pairs) after filled := by
  induction pairs generalizing i done bst m with
  | nil =>
    cases ran
    simpa using start
  | cons kv rest ih =>
    unfold loadKeys at ran
    split at ran
    · cases ran
    · rename_i next inserted
      have first := each done bst m kv List.mem_cons_self start next (env.encryptNonDeterministic (seeds i) kv.2) inserted
      have last := ih (done ++ [kv]) (fun done bst m kv member => each done bst m kv (List.mem_cons_of_mem _ member)) first ran
      simpa using last

-- What choosing the cached keys leaves: their labels are gone from keyValueMap.
structure Chosen (env : Env) (pairs chosen : List (Str × Str)) (m left : Table Str Str) : Prop where
  inside : ∀ kv ∈ chosen, kv ∈ pairs
  distinct : (chosen.map Prod.fst).Nodup
  left : ∀ l, left.find? l = if l ∈ chosen.map (fun kv => env.label kv.1 0) then none else m.find? l

theorem Chosen.next {left : Table Str Str} (state : Chosen env pairs chosen m left) (member : kv ∈ pairs)
    (fresh : kv.1 ∉ chosen.map Prod.fst) :
    Chosen env pairs (chosen ++ [kv]) m (left.erase (env.label kv.1 0)) := by
  refine ⟨?_,?_,?_⟩
  · intro other listed
    rcases List.mem_append.mp listed with old | new
    · exact state.inside other old
    · rw [List.mem_singleton.mp new]
      exact member
  · rw [List.map_append]
    refine List.nodup_append.mpr ⟨state.distinct,by simp,?_⟩
    intro a old b new same
    rw [List.map_singleton,List.mem_singleton] at new
    exact fresh (new ▸ same ▸ old)
  · intro l
    have added : l ∈ (chosen ++ [kv]).map (fun kv => env.label kv.1 0) ↔
        l ∈ chosen.map (fun kv => env.label kv.1 0) ∨ l = env.label kv.1 0 := by
      rw [List.map_append,List.mem_append]
      exact or_congr_right List.mem_singleton
    rw [Table.find_erase,state.left]
    by_cases same : l = env.label kv.1 0
    · rw [if_pos same,if_pos (added.mpr (.inr same))]
    · simp only [added,same,or_false,if_false]

theorem chooseCached_spec (pairs : List (Str × Str)) (capacity : Nat) (draws : List Nat) {chosen : List (Str × Str)}
    {left : Table Str Str} (zero : ∀ kv ∈ pairs, bst.accessFreqs.find? kv.1 = some 0)
    (state : Chosen env pairs chosen m left)
    (ran : chooseCached env pairs capacity draws chosen bst left = .ok (cached,after,rest)) :
    after = bst ∧ capacity ≤ cached.length ∧ Chosen env pairs cached m rest := by
  obtain ⟨many,same,picked⟩ := chooseCached_rule (I:=fun chosen next left => next = bst ∧ Chosen env pairs chosen m left)
    (by
      intro chosen next left kv member before _ fresh
      obtain ⟨rfl,state⟩ := before
      have freq := zero kv member
      have read : next.getFrequency kv.1 = (0,next) := by
        rw [FrequencySmoother.getFrequency_present (Table.mem_iff.mpr ⟨0,freq⟩)]
        simp [FrequencySmoother.freq,freq]
      rw [read]
      exact ⟨rfl,state.next member fresh⟩) draws ⟨rfl,state⟩ ran
  exact ⟨same,many,picked⟩

-- The fake keys drawn so far, each at frequency 0 and with a row in keyValueMap.
structure FakesLoaded (env : Env) (names : List Str) (bst : FrequencySmoother) (m filled : Table Str Str) : Prop where
  plain : bst.needTimeStamp = false
  tree : bst.TreeExact
  freqs : ∀ k, bst.accessFreqs.find? k = if k ∈ names then some 0 else none
  distinct : names.Nodup
  spelled : ∀ k ∈ names, chr '@' ∉ k
  rows : ∃ rows, filled = m.insertAll rows ∧ rows.map Prod.fst = names.map (fun k => env.label k 0)

theorem fake_spelling (len : Nat) (draws : Nat → Nat) : chr '@' ∉ str "fake" ++ EncryptionEngine.gen_random len draws := by
  intro member
  rcases List.mem_append.mp member with word | suffix_
  · revert word; decide
  · have listed := EncryptionEngine.gen_random_chars len draws _ suffix_
    revert listed; decide

theorem loadFakes_spec (cfg : Config) (seeds : Nat → Nat) (n : Nat) (draws : List FakeDraw) {names : List Str}
    {filled : Table Str Str} (state : FakesLoaded env names bst m filled)
    (ran : loadFakes cfg env seeds n draws names bst filled = .ok (after,rest)) :
    ∃ more, more.length = names.length+n ∧ FakesLoaded env more after m rest := by
  induction draws generalizing n names bst filled with
  | nil =>
    cases n with
    | zero => cases ran; exact ⟨names,rfl,state⟩
    | succ n => cases ran
  | cons draw draws ih =>
    cases n with
    | zero => cases ran; exact ⟨names,rfl,state⟩
    | succ n =>
      simp only [loadFakes] at ran
      split at ran
      · obtain ⟨more,count,final⟩ := ih (n+1) state ran
        exact ⟨more,count,final⟩
      · rename_i unused
        have spelled := fake_spelling (draw.length % 10+5) draw.chars
        generalize str "fake" ++ EncryptionEngine.gen_random (draw.length % 10+5) draw.chars = fakeKey at ran unused spelled
        have inserted : (bst.insert fakeKey).2 = .ok () := by simp [FrequencySmoother.insert,state.plain]
        have plain : (bst.insert fakeKey).1.needTimeStamp = false := by simp [FrequencySmoother.insert,state.plain]
        have parts := (FrequencySmoother.insert_parts bst fakeKey).1
        have tree : (bst.insert fakeKey).1.TreeExact := by
          refine (FrequencySmoother.insert_tree state.tree fakeKey).mpr ?_
          intro f found
          rw [state.freqs,if_neg unused] at found
          cases found
        generalize bst.insert fakeKey = pair at ran inserted plain parts tree
        obtain ⟨next,outcome⟩ := pair
        dsimp only at inserted plain parts tree
        subst inserted
        have freqs : ∀ k, next.accessFreqs.find? k = if k ∈ names ++ [fakeKey] then some 0 else none := by
          intro k
          rw [parts,Table.find_insert,state.freqs]
          by_cases same : k = fakeKey <;> by_cases old : k ∈ names <;> simp [same,old]
        have read : next.getFrequency fakeKey = (0,next) := by
          rw [FrequencySmoother.getFrequency_present (Table.mem_iff.mpr ⟨0,by simp [freqs]⟩)]
          simp [FrequencySmoother.freq,freqs]
        dsimp only at ran
        rw [read] at ran
        obtain ⟨rows,inserts,labels⟩ := state.rows
        have grown : FakesLoaded env (names ++ [fakeKey]) next m (filled.insert (env.label fakeKey 0)
            (env.encryptNonDeterministic (seeds n) (EncryptionEngine.gen_random cfg.object_size_ draw.value))) := by
          refine ⟨plain,tree,freqs,?_,?_,rows ++ [(env.label fakeKey 0,_)],by rw [insertAll_append,← inserts]; rfl,?_⟩
          · refine List.nodup_append.mpr ⟨state.distinct,by simp,?_⟩
            intro a old b new same
            rw [List.mem_singleton] at new
            subst new
            subst same
            exact unused old
          · intro k member
            rcases List.mem_append.mp member with old | new
            · exact state.spelled k old
            · rw [List.mem_singleton] at new
              subst new
              exact spelled
          · rw [List.map_append,List.map_append,labels]
            rfl
        obtain ⟨more,count,final⟩ := ih n grown ran
        refine ⟨more,?_,final⟩
        rw [count,List.length_append,List.length_singleton]
        omega

theorem load_entries (rows : List (Str × Str)) (distinct : (rows.map Prod.fst).Nodup) :
    (Cache.load rows).entries = rows.reverse := by
  have grown : ∀ (c : Cache), (∀ k ∈ rows.map Prod.fst, k ∉ c.held) →
      (rows.foldl (fun c row => c.insertIntoCache row.1 row.2) c).entries = rows.reverse ++ c.entries := by
    induction rows with
    | nil => intro c _; rfl
    | cons row rest ih =>
      intro c fresh
      obtain ⟨absent,tail⟩ := List.nodup_cons.mp distinct
      have unheld := fresh row.1 List.mem_cons_self
      rw [List.foldl_cons,ih tail]
      · rw [Cache.insertIntoCache_entries,Cache.entries_filter_absent unheld]
        simp
      · intro k member held
        rw [Cache.held,Cache.insertIntoCache_entries,Cache.entries_filter_absent unheld,List.map_cons,List.mem_cons] at held
        rcases held with same | old
        · exact absent (same ▸ member)
        · exact fresh k (List.mem_cons_of_mem _ member) old
  have whole := grown Cache.empty (by simp [Cache.held,Cache.entries,Cache.empty])
  simpa [Cache.load,Cache.entries,Cache.empty] using whole

-- The upload writes every row once, in portions.
theorem upload_spec (n : Nat) (rows final : List (Str × Str)) (s : Proxy) :
    ∃ puts, upload n rows final s =
        {s with storage:=s.storage.insertAll (final ++ rows),calls:=s.calls ++ puts} ∧
      logged .put_batch puts = (final ++ rows).map Prod.fst ∧
      ∀ c ∈ puts, c.op = .put_batch ∧ c.batch = s.timeStamp := by
  induction rows generalizing final s with
  | nil =>
    by_cases some_ : final.length > 0
    · exact ⟨[⟨.put_batch,s.timeStamp,final.map Prod.fst⟩],by simp [upload,some_,Proxy.put_batch],by simp [logged],by simp⟩
    · have none : final = [] := by simpa using some_
      exact ⟨[],by simp [upload,none,Table.insertAll],by simp [none,logged],by simp⟩
  | cons row rest ih =>
    have shape : final ++ row :: rest = (final ++ [row]) ++ rest := by simp
    by_cases full : (final ++ [row]).length = n
    · obtain ⟨puts,ran,labels,ops⟩ := ih [] (s.put_batch (final ++ [row]))
      rw [List.nil_append] at ran labels
      refine ⟨⟨.put_batch,s.timeStamp,(final ++ [row]).map Prod.fst⟩ :: puts,?_,?_,?_⟩
      · simp only [upload,full,if_true]
        rw [ran,shape,insertAll_append]
        simp only [Proxy.put_batch,List.append_assoc,List.singleton_append]
      · have split : (final ++ [row] ++ rest).map Prod.fst = (final ++ [row]).map Prod.fst ++ rest.map Prod.fst :=
          List.map_append
        rw [shape,split,← labels]
        simp [logged]
      · intro c member
        rcases List.mem_cons.mp member with rfl | later
        · exact ⟨rfl,rfl⟩
        · exact ops c later
    · obtain ⟨puts,ran,labels,ops⟩ := ih (final ++ [row]) s
      rw [← shape] at ran labels
      exact ⟨puts,by simp only [upload,full,if_false]; exact ran,labels,ops⟩

-- What init is promised about its input.
structure Loadable (pairs : List (Str × Str)) : Prop where
  named : ∀ kv ∈ pairs, ∃ item ts, WellFormed item ts ∧ kv.1 = bucketKey item ts
  distinct : (pairs.map Prod.fst).Nodup

theorem lastIn_distinct (pairs : List (Str × Str)) (distinct : (pairs.map Prod.fst).Nodup) (member : (k,v) ∈ pairs) :
    Server.lastIn k pairs = some v := by
  induction pairs with
  | nil => cases member
  | cons row rest ih =>
    obtain ⟨absent,tail⟩ := List.nodup_cons.mp distinct
    have unknown : ∀ a, a ∉ rest.map Prod.fst → Server.lastIn a rest = none := by
      clear ih distinct member absent tail
      intro a
      induction rest with
      | nil => simp [Server.lastIn]
      | cons other rest ih =>
        intro outside
        simp only [List.map_cons,List.mem_cons,not_or] at outside
        simp [Server.lastIn,ih outside.2,Ne.symm outside.1]
    rcases List.mem_cons.mp member with rfl | later
    · simp [Server.lastIn,unknown _ absent]
    · simp [Server.lastIn,ih tail later]

-- The table init uploads: every real key that is not cached, and every fake key,
-- at frequency 0.
structure Uploaded (env : Env) (pairs chosen : List (Str × Str)) (names : List Str) (m : Table Str Str) : Prop where
  real : ∀ k v, (k,v) ∈ pairs → k ∉ chosen.map Prod.fst →
    ∃ c, m.find? (env.label k 0) = some c ∧ env.decryptNonDeterministic c = v
  fake : ∀ k ∈ names, env.label k 0 ∈ m
  only : ∀ l ∈ m, ∃ k, l = env.label k 0 ∧ (k ∈ names ∨ k ∈ pairs.map Prod.fst ∧ k ∉ chosen.map Prod.fst)

theorem Env.label_mem {env : Env} (lawful : env.Lawful) {rows : List (Str × Str)} :
    env.label k f ∈ rows.map (fun kv => env.label kv.1 f) ↔ k ∈ rows.map Prod.fst := by
  simp only [List.mem_map]
  constructor
  · intro listed
    obtain ⟨kv,member,same⟩ := listed
    exact ⟨kv,member,(env.label_injective lawful same).1⟩
  · intro listed
    obtain ⟨kv,member,same⟩ := listed
    exact ⟨kv,member,by rw [same]⟩

theorem Loadable.labels_nodup (lawful : env.Lawful) (good : Loadable pairs) :
    (pairs.map (fun kv => env.label kv.1 0)).Nodup := by
  have shape : pairs.map (fun kv => env.label kv.1 0) = (pairs.map Prod.fst).map (fun k => env.label k 0) := by
    rw [List.map_map]
    rfl
  rw [shape]
  exact good.distinct.map (fun a b same => (env.label_injective lawful same).1)

theorem rows_labels {rows pairs : List (Str × Str)}
    (contents : rows.map (fun row => (row.1,env.decryptNonDeterministic row.2)) =
      pairs.map (fun kv => (env.label kv.1 0,kv.2))) :
    rows.map Prod.fst = pairs.map (fun kv => env.label kv.1 0) := by
  have firsts := congrArg (List.map Prod.fst) contents
  rw [List.map_map,List.map_map] at firsts
  exact firsts

theorem KeysLoaded.find (lawful : env.Lawful) (good : Loadable pairs) (keys : KeysLoaded env pairs bst real ∅ loaded)
    (member : (k,v) ∈ pairs) :
    ∃ c, loaded.find? (env.label k 0) = some c ∧ env.decryptNonDeterministic c = v := by
  obtain ⟨rows,loads,contents⟩ := keys.rows
  have listed : (env.label k 0,v) ∈ rows.map (fun row => (row.1,env.decryptNonDeterministic row.2)) := by
    rw [contents]
    exact List.mem_map.mpr ⟨(k,v),member,rfl⟩
  obtain ⟨⟨l,c⟩,row,same⟩ := List.mem_map.mp listed
  cases same
  have distinct : (rows.map Prod.fst).Nodup := by
    rw [rows_labels contents]
    exact good.labels_nodup lawful
  exact ⟨c,by rw [loads]; exact Table.find_insertAll_present _ _ _ _ distinct row,rfl⟩

theorem KeysLoaded.only (keys : KeysLoaded env pairs bst real ∅ loaded) (present : l ∈ loaded) :
    l ∈ pairs.map (fun kv => env.label kv.1 0) := by
  obtain ⟨rows,loads,contents⟩ := keys.rows
  rw [loads,Table.mem_insertAll] at present
  rw [← rows_labels contents]
  exact present.resolve_right (Table.notMem_empty l)

theorem uploaded_spec (lawful : env.Lawful) (good : Loadable pairs) {real fake : FrequencySmoother}
    {loaded left filled : Table Str Str} (keys : KeysLoaded env pairs bst real ∅ loaded)
    (picked : Chosen env pairs chosen loaded left) (fakes : FakesLoaded env names fake left filled) :
    Uploaded env pairs chosen names filled := by
  obtain ⟨more,fills,labels⟩ := fakes.rows
  have apart : ∀ kv ∈ pairs, kv.1 ∉ names := by
    intro kv member isFake
    obtain ⟨item,ts,_,name⟩ := good.named kv member
    apply fakes.spelled _ isFake
    rw [name]
    simp [bucketKey]
  refine ⟨?_,?_,?_⟩
  · intro k v member uncached
    obtain ⟨c,found,value⟩ := keys.find lawful good member
    refine ⟨c,?_,value⟩
    rw [fills,Table.find_insertAll_absent,picked.left,if_neg]
    · exact found
    · rw [Env.label_mem lawful]
      exact uncached
    · rw [labels]
      intro isFake
      obtain ⟨a,named,same⟩ := List.mem_map.mp isFake
      obtain ⟨rfl,_⟩ := env.label_injective lawful same
      exact apart _ member named
  · intro k member
    rw [fills,Table.mem_insertAll,labels]
    exact .inl (List.mem_map.mpr ⟨k,member,rfl⟩)
  · intro l member
    rw [fills,Table.mem_insertAll,labels] at member
    rcases member with isFake | old
    · obtain ⟨k,named,rfl⟩ := List.mem_map.mp isFake
      exact ⟨k,rfl,.inl named⟩
    · obtain ⟨c,found⟩ := Table.mem_iff.mp old
      rw [picked.left] at found
      split at found
      · cases found
      · rename_i unchosen
        obtain ⟨kv,listed,rfl⟩ := List.mem_map.mp (keys.only (Table.mem_iff.mpr ⟨c,found⟩))
        rw [Env.label_mem lawful] at unchosen
        exact ⟨kv.1,rfl,.inr ⟨List.mem_map.mpr ⟨kv,listed,rfl⟩,unchosen⟩⟩

-- The state init leaves.
structure Initial (cfg : Config) (env : Env) (pairs : List (Str × Str)) (s : Server) : Prop where
  exact : s.proxy.realBst.Exact
  freqs : ∀ k, s.proxy.realBst.accessFreqs.find? k = if k ∈ pairs.map Prod.fst then some 0 else none
  cached : ∀ kv ∈ s.proxy.cache.entries, kv ∈ pairs
  some_ : 0 < s.proxy.cache.entries.length
  stored : ∀ k v, (k,v) ∈ pairs → k ∉ s.proxy.cache.held →
    ∃ c, s.proxy.storage.find? (env.label k 0) = some c ∧ env.decryptNonDeterministic c = v
  fakeTree : s.proxy.fakeBst.TreeExact
  fakeFreqs : ∀ k f, s.proxy.fakeBst.accessFreqs.find? k = some f → f = 0
  fakeNames : ∀ k ∈ s.proxy.fakeBst.accessFreqs, chr '@' ∉ k
  fakeStored : ∀ k ∈ s.proxy.fakeBst.accessFreqs, env.label k 0 ∈ s.proxy.storage
  fakeCount : ∃ names : List Str, names.Nodup ∧ cfg.D ≤ names.length ∧ ∀ k ∈ names, k ∈ s.proxy.fakeBst.accessFreqs
  items : s.proxy.EvictedItems = ∅
  idle : s.proxy.runningKeys = .empty
  unscheduled : s.proxy.keys_to_be_deleted = []
  clock : s.proxy.timeStamp = 0
  queue : s.proxy.keysNotUsed = []
  unset : s.proxy.promises = ∅
  calls : ∀ c ∈ s.proxy.calls, c.op = .put_batch ∧ c.batch = 0
  once : (logged .put_batch s.proxy.calls).Nodup
  written : ∀ l, l ∈ logged .put_batch s.proxy.calls ↔ l ∈ s.proxy.storage
  labels : ∀ l ∈ s.proxy.storage, ∃ k, l = env.label k 0 ∧
    (k ∈ s.proxy.fakeBst.accessFreqs ∨ k ∈ s.proxy.realBst.accessFreqs ∧ k ∉ s.proxy.cache.held)
  batch : s.storage_batch = []
  loaded : s.loaded = pairs
  unasked : s.requests = []

namespace Initial
variable {s : Server}

theorem live (start : Initial cfg env pairs s) : k ∈ s.proxy.realBst.accessFreqs ↔ k ∈ pairs.map Prod.fst := by
  rw [Table.mem_iff,start.freqs]
  split <;> simp_all

theorem last_loaded (start : Initial cfg env pairs s) (good : Loadable pairs) (member : (k,v) ∈ pairs) :
    s.last k = some v := by
  simp only [Server.last,Server.writes,start.loaded,start.unasked,List.filterMap_nil,List.append_nil]
  exact lastIn_distinct pairs good.distinct member

theorem sound (start : Initial cfg env pairs s) (good : Loadable pairs) : Sound cfg env s := by
  have noReads : logged .get_batch s.proxy.calls = [] :=
    logged_other (fun c member => by simp [(start.calls c member).1])
  have zero : ∀ k f, s.proxy.realBst.accessFreqs.find? k = some f → k ∈ pairs.map Prod.fst ∧ f = 0 := by
    intro k f found
    rw [start.freqs] at found
    split at found
    · rename_i listed; cases found; exact ⟨listed,rfl⟩
    · cases found
  refine ⟨⟨start.exact,?_,?_,?_,?_,start.items,start.fakeTree,start.fakeNames,?_,?_,start.fakeCount,?_,?_⟩,
    ⟨?_,?_,?_,?_,?_,?_,?_,?_,?_⟩,?_⟩
  · intro k f found
    rw [start.clock,(zero k f found).2]
  · intro k held
    obtain ⟨v,member⟩ := Cache.mem_held.mp held
    exact start.live.mpr (List.mem_map.mpr ⟨(k,v),start.cached _ member,rfl⟩)
  · intro k v member
    exact start.last_loaded good (start.cached _ member)
  · intro k f found uncached
    obtain ⟨listed,rfl⟩ := zero k f found
    obtain ⟨⟨a,v⟩,member,rfl⟩ := List.mem_map.mp listed
    obtain ⟨c,stored,value⟩ := start.stored a v member uncached
    exact ⟨c,stored,by rw [start.last_loaded good member,value]⟩
  · intro k f found
    rw [start.clock,start.fakeFreqs k f found]
  · intro k f found
    rw [start.fakeFreqs k f found]
    exact start.fakeStored k (Table.mem_iff.mpr ⟨f,found⟩)
  · simp [start.queue]
  · simp [noReads]
  · simp [start.batch]
  · simp [start.batch]
  · simp [start.batch,start.idle,ThreadSafeUnorderedMap.present,ThreadSafeUnorderedMap.empty]
  · simp [start.unscheduled]
  · rw [start.idle]
    exact ThreadSafeUnorderedMap.empty_registered _
  · simp [start.idle,ThreadSafeUnorderedMap.empty]
  · simp [start.idle,ThreadSafeUnorderedMap.empty]
  · simp [start.unset]
  · simp [start.idle,ThreadSafeUnorderedMap.empty]
  · simpa [Roomy,start.unscheduled] using start.some_

end Initial

theorem copied_find {m : Table Str Str} {keys : List Str} (whole : keys.Perm m.keys) (l : Str) :
    (Table.insertAll ∅ (keys.map (fun key => (key,(m.find? key).getD [])))).find? l = m.find? l := by
  have firsts : (keys.map (fun key => (key,(m.find? key).getD []))).map Prod.fst = keys := by
    rw [List.map_map]
    exact List.map_id keys
  have distinct : keys.Nodup := whole.nodup_iff.mpr m.keys_nodup
  cases found : m.find? l with
  | none =>
    rw [Table.find_insertAll_absent,Table.find_empty]
    rw [firsts,whole.mem_iff,Table.mem_keys]
    exact Table.find_none.mp found
  | some c =>
    apply Table.find_insertAll_present _ _ _ _ (by rw [firsts]; exact distinct)
    have listed : l ∈ keys := whole.mem_iff.mpr (Table.mem_keys.mpr (Table.mem_iff.mpr ⟨c,found⟩))
    exact List.mem_map.mpr ⟨l,listed,by rw [found]; rfl⟩

theorem init_parts (cfg : Config) (draws : Draws) (ran : init cfg env draws pairs = .ok s) :
    ∃ real loaded chosen chosenBst left fakeBst filled puts,
      loadKeys env draws.seeds 0 pairs (.new true) ∅ = .ok (real,loaded) ∧
      chooseCached env pairs (cfg.cacheBatches*pairs.length/100) draws.indices [] real loaded =
        .ok (chosen,chosenBst,left) ∧
      loadFakes cfg env draws.seeds cfg.D draws.fakes [] (.new false) left = .ok (fakeBst,filled) ∧
      s = ⟨⟨chosenBst,fakeBst,.load chosen,∅,.empty,[],0,[],
        Table.insertAll ∅ ((draws.order filled.keys).map (fun key => (key,(filled.find? key).getD []))),∅,puts⟩,
        [],0,0,pairs,[]⟩ ∧
      logged .put_batch puts = draws.order filled.keys ∧ ∀ c ∈ puts, c.op = .put_batch ∧ c.batch = 0 := by
  unfold init at ran
  obtain ⟨⟨real,loaded⟩,keys,ran⟩ := bind_ok ran
  obtain ⟨⟨chosen,chosenBst,left⟩,picks,ran⟩ := bind_ok ran
  obtain ⟨⟨fakeBst,filled⟩,fakes,ran⟩ := bind_ok ran
  cases ran
  obtain ⟨puts,sent,log,ops⟩ := upload_spec cfg.redisBulkLength
    ((draws.order filled.keys).map (fun key => (key,(filled.find? key).getD []))) []
    ⟨chosenBst,fakeBst,.load chosen,∅,.empty,[],0,[],∅,∅,[]⟩
  have rowKeys : ((draws.order filled.keys).map (fun key => (key,(filled.find? key).getD []))).map Prod.fst =
      draws.order filled.keys := by
    rw [List.map_map]
    exact List.map_id _
  rw [List.nil_append] at sent
  rw [List.nil_append,rowKeys] at log
  exact ⟨real,loaded,chosen,chosenBst,left,fakeBst,filled,puts,keys,picks,fakes,by rw [sent]; rfl,log,ops⟩

theorem load_chosen_held (distinct : (chosen.map Prod.fst).Nodup) : k ∈ (Cache.load chosen).held ↔ k ∈ chosen.map Prod.fst := by
  rw [Cache.held,load_entries chosen distinct,List.map_reverse,List.mem_reverse]

theorem zeros_live {bst : FrequencySmoother} {names : List Str}
    (zeros : ∀ k, bst.accessFreqs.find? k = if k ∈ names then some 0 else none) (k : Str) :
    k ∈ bst.accessFreqs ↔ k ∈ names := by
  rw [Table.mem_iff,zeros]
  split <;> simp_all

theorem init_initial (lawful : env.Lawful) (draws : Draws) (good : Loadable pairs)
    (filled : 1 ≤ cfg.cacheBatches*pairs.length/100) (ran : init cfg env draws pairs = .ok s) :
    Initial cfg env pairs s := by
  obtain ⟨real,loaded,chosen,chosenBst,left,fakeBst,table,puts,keys,picks,fakes,rfl,labels,ops⟩ := init_parts cfg draws ran
  obtain ⟨after,m,again,keysLoaded⟩ := loadKeys_spec (m:=∅) lawful draws.seeds pairs 0 FrequencySmoother.new_exact
    good.named good.distinct (by simp [FrequencySmoother.new])
  rw [keys] at again
  cases again
  have zero : ∀ k, real.accessFreqs.find? k = if k ∈ pairs.map Prod.fst then some 0 else none := by
    intro k
    rw [keysLoaded.freqs]
    rfl
  have noneChosen : Chosen env pairs [] loaded loaded := ⟨by simp,by simp,by simp⟩
  obtain ⟨rfl,many,picked⟩ := chooseCached_spec pairs _ draws.indices
    (fun kv member => by rw [zero,if_pos (List.mem_map.mpr ⟨kv,member,rfl⟩)]) noneChosen picks
  have noFakes : FakesLoaded env [] (.new false) left left :=
    ⟨rfl,FrequencySmoother.new_tree false,by simp [FrequencySmoother.new],by simp,by simp,[],rfl,rfl⟩
  obtain ⟨names,count,fakesLoaded⟩ := loadFakes_spec cfg draws.seeds cfg.D draws.fakes noFakes fakes
  have uploaded := uploaded_spec lawful good keysLoaded picked fakesLoaded
  have storage : ∀ l, (Table.insertAll ∅
      ((draws.order table.keys).map (fun key => (key,(table.find? key).getD [])))).find? l = table.find? l :=
    copied_find (draws.ordered table.keys)
  have kept : ∀ l, l ∈ Table.insertAll ∅
      ((draws.order table.keys).map (fun key => (key,(table.find? key).getD []))) ↔ l ∈ table := by
    intro l
    rw [Table.mem_iff,Table.mem_iff,storage]
  have entries := load_entries chosen picked.distinct
  have held : ∀ k, k ∈ (Cache.load chosen).held ↔ k ∈ chosen.map Prod.fst := fun k => load_chosen_held picked.distinct
  have live : ∀ k, k ∈ chosenBst.accessFreqs ↔ k ∈ pairs.map Prod.fst := fun k => zeros_live zero k
  have isFake : ∀ k, k ∈ fakeBst.accessFreqs ↔ k ∈ names := fun k => zeros_live fakesLoaded.freqs k
  refine ⟨keysLoaded.exact,zero,?_,?_,?_,fakesLoaded.tree,?_,?_,?_,⟨names,fakesLoaded.distinct,by simp [count],?_⟩,
    rfl,rfl,rfl,rfl,rfl,rfl,ops,?_,?_,?_,rfl,rfl,rfl⟩
  · intro kv member
    dsimp only at member
    rw [entries,List.mem_reverse] at member
    exact picked.inside kv member
  · simp only [entries,List.length_reverse]
    omega
  · intro k v member uncached
    dsimp only at uncached ⊢
    rw [storage]
    exact uploaded.real k v member (fun cached => uncached ((held k).mpr cached))
  · intro k f found
    rw [fakesLoaded.freqs] at found
    split at found
    · cases found; rfl
    · cases found
  · intro k member
    exact fakesLoaded.spelled k ((isFake k).mp member)
  · intro k member
    exact (kept _).mpr (uploaded.fake k ((isFake k).mp member))
  · intro k member
    exact (isFake k).mpr member
  · change (logged .put_batch puts).Nodup
    rw [labels]
    exact (draws.ordered table.keys).nodup_iff.mpr table.keys_nodup
  · intro l
    dsimp only
    rw [kept,labels,(draws.ordered table.keys).mem_iff,Table.mem_keys]
  · intro l member
    obtain ⟨k,rfl,named | ⟨real,uncached⟩⟩ := uploaded.only l ((kept l).mp member)
    · exact ⟨k,rfl,.inl ((isFake k).mpr named)⟩
    · exact ⟨k,rfl,.inr ⟨(live k).mpr real,fun cached => uncached ((held k).mp cached)⟩⟩

theorem chooseCached_length (pairs : List (Str × Str)) (capacity : Nat) (draws : List Nat) {chosen : List (Str × Str)}
    (few : chosen.length ≤ capacity)
    (ran : chooseCached env pairs capacity draws chosen bst m = .ok (out,after,left)) : out.length = capacity := by
  obtain ⟨many,small⟩ := chooseCached_rule (I:=fun chosen _ _ => chosen.length ≤ capacity) (by
    intro chosen _ _ kv _ _ room _
    rw [List.length_append,List.length_singleton]
    omega) draws few ran
  omega

-- The fake keys init draws: D of them, none with an '@', all at frequency 0.
theorem init_fakes (cfg : Config) (draws : Draws) (ran : init cfg env draws pairs = .ok s) :
    ∃ names : List Str, names.Nodup ∧ names.length = cfg.D ∧ (∀ k ∈ names, chr '@' ∉ k) ∧
      s.proxy.fakeBst.TreeExact ∧
      ∀ k, s.proxy.fakeBst.accessFreqs.find? k = if k ∈ names then some 0 else none := by
  obtain ⟨real,loaded,chosen,chosenBst,left,fakeBst,table,puts,_,_,fakes,rfl,_⟩ := init_parts cfg draws ran
  have noFakes : FakesLoaded env [] (.new false) left left :=
    ⟨rfl,FrequencySmoother.new_tree false,by simp [FrequencySmoother.new],by simp,by simp,[],rfl,rfl⟩
  obtain ⟨names,count,loaded⟩ := loadFakes_spec cfg draws.seeds cfg.D draws.fakes noFakes fakes
  exact ⟨names,loaded.distinct,by simpa using count,loaded.spelled,loaded.tree,loaded.freqs⟩

theorem init_cache_length (lawful : env.Lawful) (draws : Draws) (good : Loadable pairs)
    (ran : init cfg env draws pairs = .ok s) :
    s.proxy.cache.entries.length = cfg.cacheBatches*pairs.length/100 := by
  obtain ⟨real,loaded,chosen,chosenBst,left,fakeBst,table,puts,keys,picks,_,rfl,_⟩ := init_parts cfg draws ran
  obtain ⟨after,m,again,keysLoaded⟩ := loadKeys_spec (m:=∅) lawful draws.seeds pairs 0 FrequencySmoother.new_exact
    good.named good.distinct (by simp [FrequencySmoother.new])
  rw [keys] at again
  cases again
  have noneChosen : Chosen env pairs [] loaded loaded := ⟨by simp,by simp,by simp⟩
  obtain ⟨_,_,picked⟩ := chooseCached_spec pairs _ draws.indices (fun kv member => by
    rw [keysLoaded.freqs,if_pos (List.mem_map.mpr ⟨kv,member,rfl⟩)]) noneChosen picks
  change (Cache.load chosen).entries.length = _
  rw [load_entries chosen picked.distinct,List.length_reverse]
  exact chooseCached_length pairs _ draws.indices (Nat.zero_le _) picks

end TsWaffle
