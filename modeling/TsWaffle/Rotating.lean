import TsWaffle.Spelling
import TsWaffle.Consuming
import TsWaffle.Lib.Rotation

namespace TsWaffle
open Text Runs Server Rotation
variable {cfg : Config} {env : Env} {s t : Server} {p : Proxy} {pairs : List (Str × Str)} {draws : Draws} {choice : Choice}

-- The entries of the tree that are behind the clock, in tree order.
def behind (bst : FrequencySmoother) (clock : Int) : List Entry :=
  bst.accessTree.toList.filter (fun e => decide (e.freq < clock))

-- Moving the least entry to the clock takes it out of those behind.
theorem behind_moved {bst : FrequencySmoother} (tree : bst.TreeExact) (shape : bst.accessTree.toList = least :: rest)
    (old : least.freq < clock) : behind bst clock = least :: behind (bst.setFrequency least.key clock) clock := by
  have found : bst.accessFreqs.find? least.key = some least.freq := by
    apply (tree least).mp
    rw [← OrderedSet.mem_toList,shape]
    exact List.mem_cons_self
  have sorted := bst.accessTree.sorted
  rw [shape] at sorted
  obtain ⟨above,tail⟩ := List.pairwise_cons.mp sorted
  have split : behind bst clock = least :: rest.filter (fun e => decide (e.freq < clock)) := by
    rw [behind,shape,List.filter_cons,if_pos (decide_eq_true old)]
  rw [split]
  congr 1
  apply List.Pairwise.eq_of_mem_iff (tail.filter _) ((OrderedSet.sorted _).filter _)
  intro e
  rw [List.mem_filter,List.mem_filter,OrderedSet.mem_toList,FrequencySmoother.setFrequency_mem,found,Option.getD_some]
  constructor
  · intro both
    obtain ⟨member,early⟩ := both
    refine ⟨.inr ⟨?_,?_⟩,early⟩
    · rw [← OrderedSet.mem_toList,shape]
      exact List.mem_cons_of_mem _ member
    · exact (ne_of_lt (above e member)).symm
  · intro both
    obtain ⟨place,early⟩ := both
    rcases place with rfl | ⟨listed,other⟩
    · exact absurd (of_decide_eq_true early) (lt_irrefl clock)
    · rw [← OrderedSet.mem_toList,shape] at listed
      exact ⟨(List.mem_cons.mp listed).resolve_left other,early⟩

-- The loop takes the least n entries behind the clock, in order.
theorem readFakes_first (env : Env) (clock : Int) (n : Nat) {bst : FrequencySmoother} {running : ThreadSafeUnorderedMap}
    (tree : bst.TreeExact) (enough : n ≤ (behind bst clock).length)
    (ran : readFakes env clock n bst running = .ok (rows,after)) :
    rows.map Prod.snd = ((behind bst clock).take n).map Entry.key := by
  induction n generalizing bst running rows after with
  | zero => cases ran; rfl
  | succ n ih =>
    unfold readFakes at ran
    split at ran
    · cases ran
    · rename_i least rest shape
      have old : least.freq < clock := by
        obtain ⟨e,member⟩ := List.exists_mem_of_length_pos (Nat.lt_of_lt_of_le (Nat.succ_pos n) enough)
        obtain ⟨listed,early⟩ := List.mem_filter.mp member
        exact lt_of_le_of_lt (Entry.freq_le (OrderedSet.head_le shape listed)) (of_decide_eq_true early)
      have live : least.key ∈ bst.accessFreqs := by
        refine Table.mem_iff.mpr ⟨least.freq,(tree least).mp ?_⟩
        rw [← OrderedSet.mem_toList,shape]
        exact List.mem_cons_self
      have moved := behind_moved tree shape old
      dsimp only at ran
      split at ran
      · cases ran
      · obtain ⟨⟨others,final⟩,taken,same⟩ := bind_ok ran
        cases same
        rw [FrequencySmoother.getFrequency_present live] at taken
        rw [moved,List.length_cons] at enough
        have keys := ih (FrequencySmoother.setFrequency_tree tree _ _) (Nat.le_of_succ_le_succ enough) taken
        rw [List.map_cons,keys,moved,List.take_succ_cons,List.map_cons]

theorem FrequencySmoother.tree_keys {bst : FrequencySmoother} (tree : bst.TreeExact) :
    (bst.accessTree.toList.map Entry.key).Perm bst.accessFreqs.keys := by
  apply (List.perm_ext_iff_of_nodup (FrequencySmoother.tree_keys_nodup tree) (Table.keys_nodup _)).mpr
  intro k
  rw [List.mem_map,Table.mem_keys,Table.mem_iff]
  constructor
  · intro some_
    obtain ⟨e,listed,rfl⟩ := some_
    exact ⟨e.freq,(tree e).mp listed⟩
  · intro some_
    obtain ⟨f,found⟩ := some_
    exact ⟨⟨k,f⟩,(tree ⟨k,f⟩).mpr found,rfl⟩

-- A fake label that was written is current, or was read again in time.
def Recalled (cfg : Config) (env : Env) (p : Proxy) : Prop :=
  ∀ c ∈ p.calls, c.op = .put_batch → ∀ k ∈ p.fakeBst.accessFreqs, ∀ f, env.label k f ∈ c.labels →
    c.batch = f ∧ (f = p.fakeBst.freq k ∨
      ∃ r ∈ p.calls, r.op = .get_batch ∧ env.label k f ∈ r.labels ∧ r.batch ≤ f+((cfg.D-1)/cfg.F+1 : Nat))

structure Rotating (cfg : Config) (env : Env) (s : Server) : Prop where
  spelled : Spelled s.proxy s.storage_batch
  tree : s.proxy.fakeBst.TreeExact
  names : ∀ k ∈ s.proxy.fakeBst.accessFreqs, chr '@' ∉ k ∧ k ≠ []
  count : s.proxy.fakeBst.accessFreqs.keys.length = cfg.D
  age : ∀ k f, s.proxy.fakeBst.accessFreqs.find? k = some f → f ≤ s.proxy.timeStamp
  paced : Paced cfg.F cfg.D s.proxy.fakeBst.accessFreqs.keys s.proxy.fakeBst.freq s.proxy.timeStamp
  recalled : Recalled cfg env s.proxy

theorem Rotating.aside (rotating : Rotating cfg env s) (spelled : Spelled t.proxy t.storage_batch)
    (aside : Aside s.proxy t.proxy) : Rotating cfg env t := by
  obtain ⟨fakeBst,clock,calls⟩ := aside
  refine ⟨spelled,?_,?_,?_,?_,?_,?_⟩
  · rw [fakeBst]; exact rotating.tree
  · rw [fakeBst]; exact rotating.names
  · rw [fakeBst]; exact rotating.count
  · rw [fakeBst,clock]; exact rotating.age
  · rw [fakeBst,clock]; exact rotating.paced
  · have recalled := rotating.recalled
    rw [Recalled] at recalled ⊢
    rw [fakeBst,calls]
    exact recalled

-- The F least fake keys, in the order of the tree.
def firstFakes (cfg : Config) (p : Proxy) : List Str := (p.fakeBst.accessTree.toList.take cfg.F).map Entry.key

-- Whatever real keys are running, the fake loop ends after F iterations, with the
-- first F entries of the tree.
theorem Rotating.fakes_read (rotating : Rotating cfg env s) (enough : cfg.F ≤ cfg.D) {topped : ThreadSafeUnorderedMap}
    (named : ∀ k, topped.present k = true → chr '@' ∈ k) :
    ∃ bst widened, readFakes env (s.proxy.timeStamp+1) cfg.F s.proxy.fakeBst topped =
        .ok (fakeRows env s.proxy (firstFakes cfg s.proxy),bst,widened) ∧
      FakesRead (s.proxy.timeStamp+1) cfg.F s.proxy.fakeBst bst topped widened (firstFakes cfg s.proxy) := by
  have stale : ∀ k ∈ s.proxy.fakeBst.accessFreqs.keys, Stale s.proxy.fakeBst (s.proxy.timeStamp+1) k := by
    intro k member
    obtain ⟨f,found⟩ := Table.mem_iff.mp (Table.mem_keys.mp member)
    have aged := rotating.age k f found
    exact ⟨f,found,by omega⟩
  obtain ⟨keys,bst,widened,ran,read⟩ := readFakes_spec env (s.proxy.timeStamp+1) cfg.F s.proxy.fakeBst topped rotating.tree (by
    intro k old
    obtain ⟨f,found,_⟩ := old
    rw [Bool.eq_false_iff]
    intro busy
    exact (rotating.names k (Table.mem_iff.mpr ⟨f,found⟩)).1 (named k busy)) s.proxy.fakeBst.accessFreqs.keys
    (Table.keys_nodup _) stale (by rw [rotating.count]; exact enough)
  have all : behind s.proxy.fakeBst (s.proxy.timeStamp+1) = s.proxy.fakeBst.accessTree.toList := by
    apply List.filter_eq_self.mpr
    intro e listed
    have aged := rotating.age e.key e.freq ((rotating.tree e).mp listed)
    rw [decide_eq_true_eq]
    omega
  have size : (behind s.proxy.fakeBst (s.proxy.timeStamp+1)).length = cfg.D := by
    have lengths := (FrequencySmoother.tree_keys rotating.tree).length_eq
    rw [List.length_map] at lengths
    rw [all,lengths,rotating.count]
  have first := readFakes_first env (s.proxy.timeStamp+1) cfg.F rotating.tree (by rw [size]; exact enough) ran
  have names : (keys.map (fun k => (env.label k (s.proxy.fakeBst.freq k),k))).map Prod.snd = keys := by
    rw [List.map_map]
    exact List.map_id keys
  rw [all,names] at first
  have chosen : firstFakes cfg s.proxy = keys := first.symm
  rw [chosen]
  exact ⟨bst,widened,ran,read⟩

-- The first entries of the tree are of no greater frequency than the rest.
theorem first_least {bst : FrequencySmoother} (tree : bst.TreeExact) (n : Nat)
    (early : a ∈ (bst.accessTree.toList.take n).map Entry.key) (live : b ∈ bst.accessFreqs)
    (late : b ∉ (bst.accessTree.toList.take n).map Entry.key) : bst.freq a ≤ bst.freq b := by
  obtain ⟨e,taken,rfl⟩ := List.mem_map.mp early
  have listed : (⟨b,bst.freq b⟩ : Entry) ∈ bst.accessTree.toList := (tree ⟨b,bst.freq b⟩).mpr (FrequencySmoother.freq_find live)
  have below := OrderedSet.taken_before bst.accessTree.sorted n taken listed (by
    intro member
    exact late (List.mem_map.mpr ⟨_,member,rfl⟩))
  have current : bst.freq e.key = e.freq := by
    rw [FrequencySmoother.freq,(tree e).mp (List.mem_of_mem_take taken),Option.getD_some]
  rw [current]
  exact Entry.freq_le (le_of_lt below)

-- The names running when the fill loop has returned.
theorem Spelled.topped {swept topped : ThreadSafeUnorderedMap} (spelled : Spelled s.proxy s.storage_batch)
    (sweeps : s.proxy.runningKeys.tryClearAllPromises s.proxy.promises choice.walk = .ok (swept,qs))
    (fills : fill s.proxy.cache s.proxy.EvictedItems n
      (readKeys env (s.proxy.timeStamp+1) s.storage_batch s.proxy.realBst).2.accessTree.toList swept = .ok (filled,topped)) :
    (∀ k, topped.present k = true → chr '@' ∈ k) ∧ ∀ k ∈ filled, chr '@' ∈ k := by
  obtain ⟨inside,wide⟩ := fill_returned _ _ _ fills
  have entries : ∀ k ∈ (readKeys env (s.proxy.timeStamp+1) s.storage_batch s.proxy.realBst).2.accessTree.toList.map Entry.key,
      chr '@' ∈ k := by
    intro k member
    obtain ⟨e,listed,rfl⟩ := List.mem_map.mp member
    rcases readKeys_tree env _ _ _ listed with old | read
    · exact spelled.tree e old
    · exact spelled.batch e.key read
  refine ⟨?_,fun k member => entries k (inside k member)⟩
  intro k busy
  rcases wide.present busy with old | new
  · apply spelled.running
    rw [ThreadSafeUnorderedMap.present_iff] at old ⊢
    rw [ThreadSafeUnorderedMap.tryClearAllPromises_plain sweeps] at old
    exact old.imp_right (ThreadSafeUnorderedMap.tryClearAllPromises_waiting sweeps k)
  · exact entries k (inside k new)

-- What a batch that returns does to the names, the fake keys and the log, in any
-- state.
structure Rotated (cfg : Config) (env : Env) (s t : Server) : Prop where
  spelled : Spelled t.proxy t.storage_batch
  distinct : (firstFakes cfg s.proxy).Nodup
  count : (firstFakes cfg s.proxy).length = cfg.F
  freqs : ∀ a, t.proxy.fakeBst.accessFreqs.find? a =
    if a ∈ firstFakes cfg s.proxy then some (s.proxy.timeStamp+1) else s.proxy.fakeBst.accessFreqs.find? a
  tree : t.proxy.fakeBst.TreeExact
  clock : t.proxy.timeStamp = s.proxy.timeStamp+1
  calls : ∃ reads rounds writes, t.proxy.calls = s.proxy.calls ++
      (⟨.get_batch,s.proxy.timeStamp+1,reads⟩ :: rounds ++ [⟨.put_batch,s.proxy.timeStamp+1,writes⟩]) ∧
    (∀ c ∈ rounds, c.op = .delete_batch) ∧
    (∀ k ∈ firstFakes cfg s.proxy, env.label k (s.proxy.fakeBst.freq k) ∈ reads) ∧
    ∀ l ∈ writes, ∃ k f, l = env.label k f ∧
      (chr '@' ∈ k ∨ k = [] ∨ (k ∈ firstFakes cfg s.proxy ∧ f = s.proxy.timeStamp+1))

theorem firstFakes_live (tree : p.fakeBst.TreeExact) (member : k ∈ firstFakes cfg p) : k ∈ p.fakeBst.accessFreqs := by
  obtain ⟨e,taken,rfl⟩ := List.mem_map.mp member
  exact Table.mem_iff.mpr ⟨e.freq,(tree e).mp (List.mem_of_mem_take taken)⟩

theorem Stages.tree_named {stages : Stages cfg env choice operations p} {w : WriteBack}
    (wrote : Wrote env stages.middle stages.real w) (old : ∀ e ∈ p.realBst.accessTree, chr '@' ∈ e.key)
    (real : ∀ k ∈ stages.real, chr '@' ∈ k) : ∀ e ∈ w.proxy.realBst.accessTree, chr '@' ∈ e.key := by
  intro e listed
  have before := wrote.tree e listed
  rw [stages.middle_cleared.frame] at before
  rcases readKeys_tree env _ _ _ before with first | chosen
  · rcases readKeys_tree env _ _ _ first with there | asked
    · exact old e there
    · exact real e.key (List.mem_append_left _ asked)
  · exact real e.key (List.mem_append_right _ chosen)

-- A label written is that of a real key, of no key, or of a fake key read in the batch.
theorem Stages.WrittenBack.labels_named {stages : Stages cfg env choice operations p} {w : WriteBack}
    {more satisfied : List (Str × Str)} (written : stages.WrittenBack w more satisfied)
    (held : ∀ k ∈ stages.middle.cache.held, chr '@' ∈ k) (real : ∀ k ∈ stages.real, chr '@' ∈ k)
    (current : ∀ k ∈ stages.fake, stages.fakeBst.freq k = clock) (member : l ∈ (w.writeBatch ++ more).map Prod.fst) :
    ∃ k f, l = env.label k f ∧ (chr '@' ∈ k ∨ k = [] ∨ (k ∈ stages.fake ∧ f = clock)) := by
  rw [List.map_append,written.labels] at member
  rcases List.mem_append.mp member with isReal | isFake
  · obtain ⟨row,listed,rfl⟩ := List.mem_map.mp isReal
    obtain ⟨k,f,same,place⟩ := written.real.labels row listed
    refine ⟨k,f,same,?_⟩
    rcases place with empty | cached | read
    · exact .inr (.inl empty)
    · exact .inl (held k cached)
    · exact .inl (real k read)
  · obtain ⟨k,listed,rfl⟩ := List.mem_map.mp isFake
    exact ⟨k,_,rfl,.inr (.inr ⟨listed,current k listed⟩)⟩

theorem Rotating.rotated (lawful : env.Lawful) (enough : cfg.F ≤ cfg.D) (rotating : Rotating cfg env s)
    (ran : s.close cfg env choice = .ok t) : Rotated cfg env s t := by
  obtain ⟨swept,qs,final,sweeps,executed,rfl⟩ := close_returned ran
  obtain ⟨stages,followed⟩ := execute_batch_returned executed
  obtain ⟨named,filled⟩ := rotating.spelled.topped sweeps followed.fills
  obtain ⟨bst,widened,read,state⟩ := rotating.fakes_read enough named
  have same := followed.fakes
  dsimp only at same
  rw [read] at same
  obtain ⟨rows,rest⟩ := Prod.mk.inj (Except.ok.inj same)
  obtain ⟨fakeBst,wider⟩ := Prod.mk.inj rest
  subst fakeBst
  have names : stages.fake = firstFakes cfg s.proxy := by
    rw [Stages.fake,← rows,fakeRows,List.map_map]
    exact List.map_id _
  have freqNow : ∀ k ∈ stages.fake, stages.fakeBst.freq k = s.proxy.timeStamp+1 := by
    intro k member
    rw [FrequencySmoother.freq,state.freqs,if_pos (names ▸ member),Option.getD_some]
  obtain ⟨w,more,satisfied,written⟩ := followed.writtenBack lawful
  have wrote := written.real
  have left := followed.left written
  have realNamed : ∀ k ∈ stages.real, chr '@' ∈ k := by
    intro k member
    rcases List.mem_append.mp member with asked | taken
    · exact rotating.spelled.batch k asked
    · exact filled k taken
  have heldNamed : ∀ k ∈ stages.middle.cache.held, chr '@' ∈ k := by
    rw [stages.middle_cleared.frame]
    exact rotating.spelled.cached
  refine ⟨⟨?_,?_,?_,?_⟩,state.distinct,state.count,?_,?_,left.clock,?_⟩
  · intro e listed
    dsimp only at listed
    rw [left.realBst] at listed
    exact stages.tree_named wrote rotating.spelled.tree realNamed e listed
  · intro k member
    cases member
  · intro k busy
    dsimp only at busy
    rw [left.running] at busy
    have wide := state.wide
    rw [wider] at wide
    rcases followed.still_running written busy with ⟨plain,_,unread⟩ | waiting
    · rcases wide.plain k plain with before | faked
      · exact named k before
      · exact absurd (names.symm ▸ faked) unread
    · rw [wide.shape] at waiting
      exact named k ((ThreadSafeUnorderedMap.present_iff _ _).mpr (.inr waiting))
  · intro k member
    dsimp only at member
    rw [left.cache] at member
    rcases wrote.held k member with old | arrived
    · exact heldNamed k old
    · exact realNamed k arrived
  · dsimp only
    rw [left.fakeBst]
    exact state.freqs
  · dsimp only
    rw [left.fakeBst]
    exact state.tree
  · obtain ⟨rounds,calls,deletes⟩ := left.calls
    refine ⟨_,rounds,_,calls,deletes,?_,?_⟩
    · intro k member
      rw [Stages.labels,Stages.rows,List.map_append,← rows]
      refine List.mem_append_right _ ?_
      rw [fakeRows,List.map_map]
      exact List.mem_map.mpr ⟨k,member,rfl⟩
    · intro l member
      rw [← names]
      exact written.labels_named heldNamed realNamed freqNow member

theorem Rotated.live_iff (rotated : Rotated cfg env s t) (tree : s.proxy.fakeBst.TreeExact) :
    k ∈ t.proxy.fakeBst.accessFreqs ↔ k ∈ s.proxy.fakeBst.accessFreqs := by
  rw [Table.mem_iff,rotated.freqs]
  by_cases read : k ∈ firstFakes cfg s.proxy
  · simp [read,firstFakes_live tree read]
  · simp [read,Table.mem_iff]

theorem Rotated.freq_eq (rotated : Rotated cfg env s t) (k : Str) : t.proxy.fakeBst.freq k =
    if k ∈ firstFakes cfg s.proxy then s.proxy.timeStamp+1 else s.proxy.fakeBst.freq k := by
  rw [FrequencySmoother.freq,rotated.freqs]
  split <;> rfl

theorem Rotated.turn (rotated : Rotated cfg env s t) (tree : s.proxy.fakeBst.TreeExact) :
    Turn cfg.F s.proxy.fakeBst.accessFreqs.keys (firstFakes cfg s.proxy) s.proxy.fakeBst.freq t.proxy.fakeBst.freq
      s.proxy.timeStamp := by
  refine ⟨rotated.count,rotated.distinct,?_,?_,?_,?_⟩
  · intro k read
    exact Table.mem_keys.mpr (firstFakes_live tree read)
  · intro a early b live late
    exact first_least tree cfg.F early (Table.mem_keys.mp live) late
  · intro k read
    rw [rotated.freq_eq,if_pos read]
  · intro k unread
    rw [rotated.freq_eq,if_neg unread]

theorem Rotated.recalled (lawful : env.Lawful) (positive : 1 ≤ cfg.F) (rotated : Rotated cfg env s t)
    (rotating : Rotating cfg env s) : Recalled cfg env t.proxy := by
  obtain ⟨reads,rounds,writes,calls,deletes,read,written⟩ := rotated.calls
  intro c member put k live f label
  have was := (rotated.live_iff rotating.tree).mp live
  rw [calls] at member
  rcases List.mem_append.mp member with old | new
  · obtain ⟨stamp,place⟩ := rotating.recalled c old put k was f label
    refine ⟨stamp,?_⟩
    rcases place with current | ⟨r,listed,rest⟩
    · rw [rotated.freq_eq]
      by_cases chosen : k ∈ firstFakes cfg s.proxy
      · have aged := rotating.paced.age positive (Table.mem_keys.mpr was)
        refine .inr ⟨⟨.get_batch,s.proxy.timeStamp+1,reads⟩,?_,rfl,?_,?_⟩
        · rw [calls]
          exact List.mem_append_right _ List.mem_cons_self
        · rw [current]
          exact read k chosen
        · dsimp only
          push_cast at aged ⊢
          omega
      · rw [if_neg chosen]
        exact .inl current
    · refine .inr ⟨r,?_,rest⟩
      rw [calls]
      exact List.mem_append_left _ listed
  · simp only [List.cons_append,List.mem_cons,List.mem_append,List.not_mem_nil,or_false] at new
    rcases new with rfl | cleared | rfl
    · cases put
    · rw [deletes c cleared] at put
      cases put
    · obtain ⟨a,g,same,place⟩ := written _ label
      obtain ⟨rfl,rfl⟩ := env.label_injective lawful same
      obtain ⟨plain,filled⟩ := rotating.names k was
      rcases place with named | empty | ⟨chosen,now⟩
      · exact absurd named plain
      · exact absurd empty filled
      · rw [rotated.freq_eq,if_pos chosen]
        exact ⟨now.symm,.inl now⟩

theorem Rotated.rotating (lawful : env.Lawful) (positive : 1 ≤ cfg.F) (rotated : Rotated cfg env s t)
    (rotating : Rotating cfg env s) : Rotating cfg env t := by
  have same := Table.keys_perm (fun k => rotated.live_iff (k:=k) rotating.tree)
  refine ⟨rotated.spelled,rotated.tree,?_,?_,?_,?_,rotated.recalled lawful positive rotating⟩
  · intro k live
    exact rotating.names k ((rotated.live_iff rotating.tree).mp live)
  · rw [same.length_eq]
    exact rotating.count
  · intro k f found
    rw [rotated.freqs] at found
    rw [rotated.clock]
    split at found
    · cases found
      exact le_refl _
    · have aged := rotating.age k f found
      omega
  · rw [rotated.clock]
    exact ((rotated.turn rotating.tree).paced (Table.keys_nodup _) (le_of_eq rotating.count) rotating.paced).perm same.symm

theorem loadFakes_filled (seeds : Nat → Nat) (n : Nat) (draws : List FakeDraw) {names : List Str} {bst : FrequencySmoother}
    {m : Table Str Str} (before : ∀ k ∈ bst.accessFreqs, k ≠ [])
    (ran : loadFakes cfg env seeds n draws names bst m = .ok (after,rest)) : ∀ k ∈ after.accessFreqs, k ≠ [] := by
  induction draws generalizing n names bst m with
  | nil =>
    cases n with
    | zero => cases ran; exact before
    | succ n => cases ran
  | cons draw draws ih =>
    cases n with
    | zero => cases ran; exact before
    | succ n =>
      simp only [loadFakes] at ran
      have filled : str "fake" ++ EncryptionEngine.gen_random (draw.length % 10+5) draw.chars ≠ [] := by
        intro empty
        have word := (List.append_eq_nil_iff.mp empty).1
        revert word
        decide
      generalize str "fake" ++ EncryptionEngine.gen_random (draw.length % 10+5) draw.chars = fakeKey at ran filled
      split at ran
      · exact ih (n+1) before ran
      · split at ran
        · cases ran
        · rename_i next inserted
          refine ih n ?_ ran
          intro k live
          have parts := (FrequencySmoother.insert_parts bst fakeKey).1
          rw [inserted] at parts
          obtain ⟨f,found⟩ := Table.mem_iff.mp live
          simp only [FrequencySmoother.getFrequency,Table.fetch_find] at found
          split at found
          · rename_i same
            rw [same]
            exact filled
          · dsimp only at parts
            rw [parts,Table.find_insert] at found
            split at found
            · rename_i same
              rw [same]
              exact filled
            · exact before k (Table.mem_iff.mpr ⟨f,found⟩)

theorem init_rotating (lawful : env.Lawful) (ran : init cfg env draws pairs = .ok s) : Rotating cfg env s := by
  obtain ⟨spelled,clock,calls⟩ := init_spelled cfg draws ran
  obtain ⟨names,distinct,count,plain,tree,freqs⟩ := init_fakes cfg draws ran
  have live : ∀ k, k ∈ s.proxy.fakeBst.accessFreqs ↔ k ∈ names := by
    intro k
    rw [Table.mem_iff,freqs]
    split <;> simp_all
  have zero : ∀ k, s.proxy.fakeBst.freq k = 0 := by
    intro k
    rw [FrequencySmoother.freq,freqs]
    split <;> rfl
  have filled : ∀ k ∈ s.proxy.fakeBst.accessFreqs, k ≠ [] := by
    obtain ⟨real,loaded,chosen,chosenBst,left,fakeBst,table,puts,_,_,fakes,rfl,_⟩ := init_parts cfg draws ran
    exact loadFakes_filled draws.seeds cfg.D draws.fakes (fun k member => absurd member (Table.notMem_empty k)) fakes
  have size : s.proxy.fakeBst.accessFreqs.keys.length = cfg.D := by
    have perm : s.proxy.fakeBst.accessFreqs.keys.Perm names := by
      apply (List.perm_ext_iff_of_nodup (Table.keys_nodup _) distinct).mpr
      intro k
      rw [Table.mem_keys,live]
    rw [perm.length_eq,count]
  refine ⟨spelled,tree,fun k member => ⟨plain k ((live k).mp member),filled k member⟩,size,?_,?_,?_⟩
  · intro k f found
    rw [freqs] at found
    split at found
    · cases found
      rw [clock]
    · cases found
  · apply paced_start (le_of_eq size)
    intro k _
    rw [zero,clock]
  · intro c member _ k isFake f label
    obtain ⟨_,batch,labels⟩ := calls c member
    obtain ⟨a,g,same,place⟩ := labels _ label
    obtain ⟨rfl,rfl⟩ := env.label_injective lawful same
    rcases place with named | first
    · exact absurd named (plain k ((live k).mp isFake))
    · rw [batch,zero]
      exact ⟨first.symm,.inl first⟩

theorem step_rotating (lawful : env.Lawful) (positive : 1 ≤ cfg.F) (enough : cfg.F ≤ cfg.D) (rotating : Rotating cfg env s)
    (ran : step cfg env s action = .ok t) : Rotating cfg env t := by
  cases action with
  | serve r =>
    obtain ⟨spelled,aside⟩ := serve_spelled rotating.spelled ran
    exact rotating.aside spelled aside
  | close choice => exact (rotating.rotated lawful enough ran).rotating lawful positive rotating
  | clear =>
    cases ran
    have cleared := clearThread_cleared s.proxy
    obtain ⟨rounds,calls,deletes⟩ := cleared.deletes
    have frame := cleared.frame
    have spelled := rotating.spelled
    refine ⟨?_,?_,?_,?_,?_,?_,?_⟩
    · rw [frame]
      exact ⟨spelled.tree,spelled.batch,spelled.running,spelled.cached⟩
    · rw [frame]
      exact rotating.tree
    · rw [frame]
      exact rotating.names
    · rw [frame]
      exact rotating.count
    · rw [frame]
      exact rotating.age
    · rw [frame]
      exact rotating.paced
    · have fakeBst : s.proxy.clearThread.fakeBst = s.proxy.fakeBst := by rw [frame]
      intro c member put k live f label
      dsimp only at member live ⊢
      rw [calls] at member ⊢
      rw [fakeBst] at live ⊢
      rcases List.mem_append.mp member with old | new
      · obtain ⟨stamp,place⟩ := rotating.recalled c old put k live f label
        refine ⟨stamp,place.imp_right ?_⟩
        intro again
        obtain ⟨r,listed,rest⟩ := again
        exact ⟨r,List.mem_append_left _ listed,rest⟩
      · rw [(deletes c new).1] at put
        cases put

-- The batches a run executes.
def executed (actions : List Action) : Nat := actions.countP (fun action => match action with
  | .close _ => true
  | _ => false)

theorem step_clock (lawful : env.Lawful) (enough : cfg.F ≤ cfg.D) (rotating : Rotating cfg env s)
    (ran : step cfg env s action = .ok t) : t.proxy.timeStamp = s.proxy.timeStamp+executed [action] := by
  cases action with
  | serve r =>
    obtain ⟨_,aside⟩ := serve_spelled rotating.spelled ran
    rw [aside.clock]
    exact (add_zero _).symm
  | close choice => exact (rotating.rotated lawful enough ran).clock
  | clear =>
    cases ran
    have frame := (clearThread_cleared s.proxy).frame
    rw [frame]
    exact (add_zero _).symm

theorem run_rotating (lawful : env.Lawful) (positive : 1 ≤ cfg.F) (enough : cfg.F ≤ cfg.D) (actions : List Action)
    (rotating : Rotating cfg env s) (ran : run (step cfg env) s actions = .ok t) :
    Rotating cfg env t ∧ t.proxy.timeStamp = s.proxy.timeStamp+executed actions := by
  induction actions generalizing s with
  | nil =>
    cases ran
    exact ⟨rotating,(add_zero _).symm⟩
  | cons action rest ih =>
    obtain ⟨next,stepped,tail⟩ := run_uncons ran
    obtain ⟨final,clock⟩ := ih (step_rotating lawful positive enough rotating stepped) tail
    refine ⟨final,?_⟩
    have parts : executed (action :: rest) = executed [action]+executed rest := by
      unfold executed
      rw [← List.singleton_append,List.countP_append]
    rw [clock,step_clock lawful enough rotating stepped,parts]
    push_cast
    omega

-- The fake loop of the batch that is executed from s, once the sweep and the fill
-- loop before it have returned.
def FakeLoop (cfg : Config) (env : Env) (s : Server) (choice : Choice)
    (outcome : Except Fault (List (Str × Str) × FrequencySmoother × ThreadSafeUnorderedMap)) : Prop :=
  ∃ swept promises filled topped,
    s.proxy.runningKeys.tryClearAllPromises s.proxy.promises choice.walk = .ok (swept,promises) ∧
    fill s.proxy.cache s.proxy.EvictedItems (fillCount cfg s.storage_batch.length)
      (readKeys env (s.proxy.timeStamp+1) s.storage_batch s.proxy.realBst).2.accessTree.toList swept = .ok (filled,topped) ∧
    outcome = readFakes env (s.proxy.timeStamp+1) cfg.F s.proxy.fakeBst topped

end TsWaffle
