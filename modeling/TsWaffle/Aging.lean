import TsWaffle.Evicting
import TsWaffle.Ledger

namespace TsWaffle
open Text Runs Server
variable {cfg : Config} {env : Env} {s t m : Server} {p : Proxy} {pairs : List (Str × Str)} {draws : Draws}
  {real fake filled chosen : List Str} {evicted : List (Str × Str)} {choice : Choice} {K k : Str} {N C : Nat}

-- The smoother the fill loop scans: the requested keys have been moved to the new
-- clock already.
def scanned (env : Env) (s : Server) : FrequencySmoother :=
  (readKeys env (s.proxy.timeStamp+1) s.storage_batch s.proxy.realBst).2

-- realKeysNotInCache of the batch executed from s.
def realKeysNotInCache (cfg : Config) (env : Env) (s : Server) (choice : Choice) : List Str :=
  match s.proxy.runningKeys.tryClearAllPromises s.proxy.promises choice.walk with
  | .error _ => []
  | .ok (swept,_) =>
    match fill s.proxy.cache s.proxy.EvictedItems (fillCount cfg s.storage_batch.length)
        (scanned env s).accessTree.toList swept with
    | .error _ => []
    | .ok (keys,_) => keys

theorem FilledWith.eq (filling : FilledWith cfg env s choice filled) : realKeysNotInCache cfg env s choice = filled := by
  obtain ⟨swept,qs,topped,sweeps,fills⟩ := filling
  rw [realKeysNotInCache,sweeps]
  dsimp only
  rw [scanned,fills]

-- The fill keys of all the batches of a run, and how many the batches ask for.
def fillsOf (cfg : Config) (env : Env) : Server → List Action → List Str
  | _,[] => []
  | s,action :: rest =>
    (match action with
      | .close choice => realKeysNotInCache cfg env s choice
      | _ => []) ++
    match step cfg env s action with
    | .ok t => fillsOf cfg env t rest
    | .error _ => []

def fillSum (cfg : Config) (env : Env) : Server → List Action → Nat
  | _,[] => 0
  | s,action :: rest =>
    (match action with
      | .close _ => cfg.B-cfg.F-s.storage_batch.length
      | _ => 0) +
    match step cfg env s action with
    | .ok t => fillSum cfg env t rest
    | .error _ => 0

def Precedes (bst : FrequencySmoother) (a b : Str) : Prop := (⟨a,bst.freq a⟩ : Entry) < ⟨b,bst.freq b⟩

theorem scanned_freqs (sound : Sound cfg env s) (k : Str) : (scanned env s).accessFreqs.find? k =
    if k ∈ s.storage_batch then some (s.proxy.timeStamp+1) else s.proxy.realBst.accessFreqs.find? k :=
  readKeys_freqs env _ _ _ k (fun k member => (sound.building.absent k member).1)

-- The scan takes the first keys that are out of the cache and not requested; one
-- that is left out comes after them.
theorem fill_precedes (sound : Sound cfg env s) (filling : FilledWith cfg env s choice filled)
    (live : K ∈ s.proxy.realBst.accessFreqs) (stored : K ∉ s.proxy.cache.held) (unread : K ∉ s.storage_batch ++ filled)
    (member : k ∈ filled) : Precedes (scanned env s) k K := by
  obtain ⟨swept,qs,topped,sweeps,fills⟩ := filling
  have present := swept_present sound choice sweeps
  obtain ⟨unasked,untaken⟩ := not_or.mp (fun either => unread (List.mem_append.mpr either))
  have tree : (scanned env s).TreeExact := (readKeys_exact env (s.proxy.timeStamp+1) _ _
    (fun k listed => (sound.building.absent k listed).1) sound.resident.exact).tree
  have distinct := FrequencySmoother.tree_keys_nodup tree
  have enough := fill_enough _ _ _ distinct fills
  obtain ⟨widened,again,_⟩ := fill_takes s.proxy.cache s.proxy.EvictedItems _ _ swept distinct enough
  have same : filled = fillers s.proxy.cache s.proxy.EvictedItems swept (fillCount cfg s.storage_batch.length)
      (scanned env s).accessTree.toList := by
    have both := Except.ok.inj (fills.symm.trans again)
    exact (Prod.mk.inj both).1
  have found : (scanned env s).accessFreqs.find? K = some ((scanned env s).freq K) := by
    apply FrequencySmoother.freq_find
    rw [Table.mem_iff,scanned_freqs sound,if_neg unasked]
    exact Table.mem_iff.mp live
  have idle : swept.present K = false := by
    rw [Bool.eq_false_iff]
    intro busy
    exact unasked ((present K).mp busy)
  have listed : (⟨K,(scanned env s).freq K⟩ : Entry) ∈ (scanned env s).accessTree.toList.filter
      (fun e => Eligible s.proxy.cache s.proxy.EvictedItems swept e) := by
    refine List.mem_filter.mpr ⟨(tree _).mpr found,decide_eq_true ⟨stored,?_,idle⟩⟩
    rw [sound.resident.items]
    exact Table.notMem_empty K
  rw [same] at member untaken
  obtain ⟨e,taken,rfl⟩ := List.mem_map.mp member
  have before := OrderedSet.taken_before ((scanned env s).accessTree.sorted.filter _) _ taken listed (by
    intro chosen
    exact untaken (List.mem_map.mpr ⟨_,chosen,rfl⟩))
  have inTree := (List.mem_filter.mp (List.mem_of_mem_take taken)).1
  have current : (scanned env s).freq e.key = e.freq := by
    rw [FrequencySmoother.freq,(tree e).mp inTree,Option.getD_some]
  rw [Precedes,current]
  exact before

theorem Precedes.freq_le {bst : FrequencySmoother} (before : Precedes bst a b) : bst.freq a ≤ bst.freq b :=
  Entry.freq_le (le_of_lt before)

-- K has been lying in storage since m, while these fill keys were chosen: each of
-- them is gone or has overtaken K. A live key that was not there at m has come in
-- with a later clock.
structure Waiting (m : Server) (K : Str) (chosen : List Str) (s : Server) : Prop where
  live : K ∈ s.proxy.realBst.accessFreqs
  stored : K ∉ s.proxy.cache.held
  still : s.proxy.realBst.freq K = m.proxy.realBst.freq K
  distinct : chosen.Nodup
  passed : ∀ k ∈ chosen, k ∈ s.writes.map Prod.fst ∧
    ∀ f, s.proxy.realBst.accessFreqs.find? k = some f → m.proxy.realBst.freq K < f
  other : K ∉ chosen
  old : m.proxy.realBst.freq K < m.proxy.timeStamp → ∀ k ∈ chosen, k ∈ m.proxy.realBst.accessFreqs
  clock : m.proxy.timeStamp ≤ s.proxy.timeStamp
  newer : ∀ k f, s.proxy.realBst.accessFreqs.find? k = some f → k ∈ m.proxy.realBst.accessFreqs ∨ m.proxy.timeStamp ≤ f

theorem Waiting.start (live : K ∈ m.proxy.realBst.accessFreqs) (stored : K ∉ m.proxy.cache.held) : Waiting m K [] m := by
  refine ⟨live,stored,rfl,.nil,?_,List.not_mem_nil,?_,le_refl _,?_⟩
  · intro k member
    cases member
  · intro _ k member
    cases member
  · intro k f found
    exact .inl (Table.mem_iff.mpr ⟨f,found⟩)

-- A fill key was live when it was chosen, and had waited at least as long as K.
theorem fill_early (sound : Sound cfg env s) (filling : FilledWith cfg env s choice filled)
    (done : Executed cfg env s t (s.storage_batch ++ filled) fake evicted) (live : K ∈ s.proxy.realBst.accessFreqs)
    (stored : K ∉ s.proxy.cache.held) (unread : K ∉ s.storage_batch ++ filled) (member : k ∈ filled) :
    k ∈ s.proxy.realBst.accessFreqs ∧ s.proxy.realBst.freq k ≤ s.proxy.realBst.freq K := by
  have free : k ∉ s.storage_batch := fun asked => (List.nodup_append.mp done.plan.distinct).2.2 k asked k member rfl
  have ahead := (fill_precedes sound filling live stored unread member).freq_le
  have unasked : K ∉ s.storage_batch := fun asked => unread (List.mem_append_left _ asked)
  rw [FrequencySmoother.freq,FrequencySmoother.freq,scanned_freqs sound,scanned_freqs sound,if_neg free,
    if_neg unasked] at ahead
  exact ⟨done.plan.live k (List.mem_append_right _ member),ahead⟩

-- A batch that does not read K.
theorem Waiting.executed (waiting : Waiting m K chosen s) (sound : Sound cfg env s) (known : Known s)
    (filling : FilledWith cfg env s choice filled)
    (done : Executed cfg env s t (s.storage_batch ++ filled) fake evicted) (unread : K ∉ s.storage_batch ++ filled) :
    Waiting m K (chosen ++ filled) t := by
  have doomed : K ∉ s.proxy.keys_to_be_deleted := fun member => unread (done.batch K (sound.building.scheduled K member))
  have found : t.proxy.realBst.accessFreqs.find? K = s.proxy.realBst.accessFreqs.find? K := by
    rw [done.freqs,if_neg doomed,if_neg unread]
  have aged := sound.resident.age K _ (FrequencySmoother.freq_find waiting.live)
  have clock := done.clock
  have still := waiting.still
  have before := waiting.clock
  have early : ∀ k ∈ filled, k ∈ s.proxy.realBst.accessFreqs ∧ s.proxy.realBst.freq k ≤ s.proxy.realBst.freq K :=
    fun k member => fill_early sound filling done waiting.live waiting.stored unread member
  refine ⟨?_,?_,?_,?_,?_,?_,?_,by omega,?_⟩
  · rw [Table.mem_iff,found]
    exact Table.mem_iff.mp waiting.live
  · intro held
    obtain ⟨v,cached⟩ := Cache.mem_held.mp held
    rcases done.through sound (K,v) (List.mem_append_right _ (List.mem_reverse.mpr cached)) with was | ⟨read,_,_⟩
    · exact waiting.stored (Cache.mem_held.mpr ⟨v,was⟩)
    · exact unread read
  · rw [FrequencySmoother.freq,found]
    exact still
  · refine List.nodup_append.mpr ⟨waiting.distinct,(List.nodup_append.mp done.plan.distinct).2.1,?_⟩
    intro a left b right same
    subst same
    obtain ⟨live,ahead⟩ := early a right
    have overtaken := (waiting.passed a left).2 _ (FrequencySmoother.freq_find live)
    omega
  · intro k member
    rw [done.writes_eq]
    rcases List.mem_append.mp member with left | right
    · obtain ⟨written,overtaken⟩ := waiting.passed k left
      refine ⟨written,?_⟩
      intro f now
      rcases done.freq_now now with ⟨_,rfl⟩ | ⟨_,unmoved⟩
      · omega
      · exact overtaken f unmoved
    · refine ⟨known.written k (early k right).1,?_⟩
      intro f now
      rcases done.freq_now now with ⟨_,rfl⟩ | ⟨other,_⟩
      · omega
      · exact absurd (List.mem_append_right _ right) other
  · intro member
    rcases List.mem_append.mp member with left | right
    · exact waiting.other left
    · exact unread (List.mem_append_right _ right)
  · intro settled k member
    rcases List.mem_append.mp member with left | right
    · exact waiting.old settled k left
    · obtain ⟨live,ahead⟩ := early k right
      refine (waiting.newer k _ (FrequencySmoother.freq_find live)).resolve_right ?_
      omega
  · intro k f now
    rcases done.freq_now now with ⟨_,rfl⟩ | ⟨_,unmoved⟩
    · exact .inr (by omega)
    · exact waiting.newer k f unmoved

-- A PUT of a new key, whatever bucket it retires.
theorem Waiting.put (waiting : Waiting m K chosen s) (known : Known s) (item : Str) (ts : Int) (v o : Str)
    (novel : bucketKey item ts ∉ s.writes.map Prod.fst) :
    Waiting m K chosen ((s.retire o).record item ts v) := by
  have differs : K ≠ bucketKey item ts := by
    intro same
    exact novel (same ▸ known.written K waiting.live)
  have retired : ∀ k f, (s.retire o).proxy.realBst.accessFreqs.find? k = some f →
      s.proxy.realBst.accessFreqs.find? k = some f := by
    intro k f found
    by_cases held : o ∈ s.proxy.cache.held
    · rw [retire_cached held] at found
      dsimp only at found
      rw [FrequencySmoother.removeKey_freqs] at found
      split at found
      · cases found
      · exact found
    · rw [retire_uncached held] at found
      exact found
  have kept : (s.retire o).proxy.realBst.accessFreqs.find? K = s.proxy.realBst.accessFreqs.find? K := by
    by_cases held : o ∈ s.proxy.cache.held
    · have spared : K ≠ o := by
        intro same
        exact waiting.stored (same ▸ held)
      rw [retire_cached held]
      dsimp only
      rw [FrequencySmoother.removeKey_freqs,if_neg spared]
    · rw [retire_uncached held]
  have freqs : ∀ k, ((s.retire o).record item ts v).proxy.realBst.accessFreqs.find? k =
      if k = bucketKey item ts then some s.proxy.timeStamp else (s.retire o).proxy.realBst.accessFreqs.find? k := by
    intro k
    simp only [record,FrequencySmoother.store_freqs,retire_timeStamp]
  refine ⟨?_,?_,?_,waiting.distinct,?_,waiting.other,waiting.old,?_,?_⟩
  · rw [Table.mem_iff,freqs,if_neg differs,kept]
    exact Table.mem_iff.mp waiting.live
  · intro held
    exact waiting.stored (retire_held s o K (((Cache.mem_held_insert _ _ _ _).mp held).resolve_left differs))
  · rw [FrequencySmoother.freq,freqs,if_neg differs,kept]
    exact waiting.still
  · intro k member
    obtain ⟨written,overtaken⟩ := waiting.passed k member
    have elder : k ≠ bucketKey item ts := by
      intro same
      exact novel (same ▸ written)
    refine ⟨?_,?_⟩
    · rw [writes_record,List.map_append]
      exact List.mem_append_left _ written
    · intro f found
      rw [freqs,if_neg elder] at found
      exact overtaken f (retired k f found)
  · change m.proxy.timeStamp ≤ (s.retire o).proxy.timeStamp
    rw [retire_timeStamp]
    exact waiting.clock
  · intro k f found
    rw [freqs] at found
    split at found
    · cases found
      exact .inr waiting.clock
    · exact waiting.newer k f (retired k f found)

theorem put_calls (s : Server) (o item : Str) (ts : Int) (v : Str) :
    ((s.retire o).record item ts v).proxy.calls = s.proxy.calls := by
  change (s.retire o).proxy.calls = s.proxy.calls
  by_cases held : o ∈ s.proxy.cache.held
  · rw [retire_cached held]
  · rw [retire_uncached held]

-- The log only grows.
theorem Stepped.extends (stepped : Stepped cfg env s action t) : ∃ more, t.proxy.calls = s.proxy.calls ++ more := by
  cases stepped with
  | get item a b running batch i state => exact ⟨[],(List.append_nil _).symm⟩
  | put item ts v u wf oldest safe => exact ⟨[],by rw [put_calls,List.append_nil]⟩
  | close choice _ real fake evicted done =>
    obtain ⟨rounds,calls,_⟩ := done.calls
    exact ⟨_,calls⟩
  | clear p cleared =>
    obtain ⟨rounds,calls,_⟩ := cleared.deletes
    exact ⟨rounds,calls⟩

theorem Layered.extends {Cond : Server → Action → Prop} {Layer : Server → Prop} (lawful : env.Lawful)
    (layered : Layered cfg env Cond Layer) (actions : List Action) (sound : Sound cfg env s) (holds : Layer s)
    (admissible : Admissible (Server.step cfg env) Cond s actions)
    (ran : Runs.run (Server.step cfg env) s actions = .ok t) :
    ∃ more, t.proxy.calls = s.proxy.calls ++ more := by
  induction actions generalizing s with
  | nil =>
    cases ran
    exact ⟨[],(List.append_nil _).symm⟩
  | cons action rest ih =>
    obtain ⟨next,stepped,moved,after,still⟩ := layered.step lawful sound holds admissible.1
    rw [run_cons stepped] at ran
    obtain ⟨one,first⟩ := moved.extends
    obtain ⟨two,second⟩ := ih after still (admissible.2 next stepped) ran
    exact ⟨one ++ two,by rw [second,first,List.append_assoc]⟩

-- No call between the two states reads a label of K.
def Unread (env : Env) (K : Str) (s t : Server) : Prop :=
  ∃ more, t.proxy.calls = s.proxy.calls ++ more ∧ ∀ c ∈ more, c.op = .get_batch → ∀ f, env.label K f ∉ c.labels

theorem Unread.split (unread : Unread env K s t) (first : u.proxy.calls = s.proxy.calls ++ one)
    (second : t.proxy.calls = u.proxy.calls ++ two) : Unread env K s u ∧ Unread env K u t := by
  obtain ⟨more,calls,none⟩ := unread
  rw [second,first,List.append_assoc] at calls
  have parts := List.append_cancel_left calls
  subst parts
  exact ⟨⟨one,first,fun c member => none c (List.mem_append_left _ member)⟩,
    ⟨two,second,fun c member => none c (List.mem_append_right _ member)⟩⟩

theorem Unread.executed (unread : Unread env K s t) (done : Executed cfg env s t real fake evicted) : K ∉ real := by
  intro read
  obtain ⟨more,calls,none⟩ := unread
  obtain ⟨rounds,log,_⟩ := done.calls
  rw [log] at calls
  have parts := List.append_cancel_left calls
  refine none _ (by rw [← parts]; exact List.mem_cons_self) rfl (s.proxy.realBst.freq K) ?_
  exact mem_readLabels.mpr (.inl ⟨K,read,rfl⟩)

theorem fillsOf_cons (stepped : step cfg env s action = .ok t) (rest : List Action) :
    fillsOf cfg env s (action :: rest) = fillsOf cfg env s [action] ++ fillsOf cfg env t rest ∧
      fillSum cfg env s (action :: rest) = fillSum cfg env s [action]+fillSum cfg env t rest := by
  simp only [fillsOf,fillSum,stepped,List.append_nil,Nat.add_zero,and_self]

-- One step of the stretch: only a batch chooses fill keys, as many as it has room for.
theorem Waiting.step (lawful : env.Lawful) (waiting : Waiting m K chosen s) (sound : Sound cfg env s) (known : Known s)
    (now : Retaining cfg s action) (ran : Server.step cfg env s action = .ok t) (stepped : Stepped cfg env s action t)
    (unread : Unread env K s t) :
    Waiting m K (chosen ++ fillsOf cfg env s [action]) t ∧
      (fillsOf cfg env s [action]).length = fillSum cfg env s [action] := by
  cases stepped with
  | get item a b running batch i state =>
    simp only [fillsOf,fillSum,ran,List.append_nil,List.length_nil,and_true]
    have writes := writes_get s item a b
    refine ⟨waiting.live,waiting.stored,waiting.still,waiting.distinct,?_,waiting.other,waiting.old,waiting.clock,
      waiting.newer⟩
    intro k member
    obtain ⟨written,overtaken⟩ := waiting.passed k member
    exact ⟨writes.symm ▸ written,overtaken⟩
  | put item ts v u wf oldest safe =>
    simp only [fillsOf,fillSum,ran,List.append_nil,List.length_nil,and_true]
    exact waiting.put known item ts v _ now.1.2
  | close choice _ real fake evicted done =>
    obtain ⟨after,filled,others,gone,closed,filling,finished⟩ := close_fills lawful sound now.1.1.2 choice
    have same : after = t := Except.ok.inj (closed.symm.trans ran)
    subst same
    have left := unread.executed finished
    simp only [fillsOf,fillSum,ran,filling.eq,List.append_nil,Nat.add_zero]
    refine ⟨waiting.executed sound known filling finished left,?_⟩
    have count := finished.plan.count
    rw [List.length_append] at count
    omega
  | clear q cleared =>
    have frame := cleared.frame
    simp only [fillsOf,fillSum,ran,List.append_nil,List.length_nil,and_true]
    rw [frame]
    exact ⟨waiting.live,waiting.stored,waiting.still,waiting.distinct,waiting.passed,waiting.other,waiting.old,
      waiting.clock,waiting.newer⟩

theorem Waiting.run (lawful : env.Lawful) (stretch : List Action) (waiting : Waiting m K chosen s)
    (sound : Sound cfg env s) (layer : Known s ∧ Sized cfg N C s)
    (admissible : Admissible (Server.step cfg env) (Retaining cfg) s stretch)
    (ran : Runs.run (Server.step cfg env) s stretch = .ok t) (unread : Unread env K s t) :
    Waiting m K (chosen ++ fillsOf cfg env s stretch) t ∧
      (fillsOf cfg env s stretch).length = fillSum cfg env s stretch := by
  induction stretch generalizing s chosen with
  | nil =>
    cases ran
    exact ⟨by rw [fillsOf,List.append_nil]; exact waiting,rfl⟩
  | cons action rest ih =>
    have layered := sized_layered cfg env N C
    obtain ⟨next,stepped,moved,after,still⟩ := layered.step lawful sound layer admissible.1
    rw [run_cons stepped] at ran
    obtain ⟨one,first⟩ := moved.extends
    obtain ⟨two,second⟩ := layered.extends lawful rest after still (admissible.2 next stepped) ran
    obtain ⟨before,later⟩ := unread.split first second
    obtain ⟨middle,count⟩ := waiting.step lawful sound layer.1 admissible.1 stepped moved before
    obtain ⟨final,rests⟩ := ih middle after still (admissible.2 next stepped) ran later
    obtain ⟨fills,sums⟩ := fillsOf_cons stepped rest
    rw [fills,sums,← List.append_assoc,List.length_append,count,rests]
    exact ⟨final,rfl⟩

-- With room for a whole batch in the cache, what a batch writes back it has not
-- read: its frequency is behind the batch's clock.
def Settled (env : Env) (p : Proxy) : Prop :=
  ∀ c ∈ p.calls, c.op = .put_batch → c.batch ≤ p.timeStamp ∧
    (0 < c.batch → ∀ k f, chr '@' ∈ k → env.label k f ∈ c.labels → f < c.batch)

theorem Initial.settled (start : Initial cfg env pairs s) : Settled env s.proxy := by
  intro c member _
  rw [(start.calls c member).2,start.clock]
  exact ⟨le_refl _,fun later => absurd later (lt_irrefl 0)⟩

theorem executed_settled (lawful : env.Lawful) (sound : Sound cfg env s) (done : Executed cfg env s t real fake evicted)
    (sized : Sized cfg N C s) (wide : cfg.B-cfg.F ≤ C) (settled : Settled env s.proxy) : Settled env t.proxy := by
  obtain ⟨rounds,calls,deletes⟩ := done.calls
  have clock := done.clock
  intro c member put
  rw [calls] at member
  rcases List.mem_append.mp member with old | new
  · obtain ⟨aged,behind⟩ := settled c old put
    exact ⟨by omega,behind⟩
  · simp only [List.cons_append,List.mem_cons,List.mem_append,List.not_mem_nil,or_false] at new
    rcases new with rfl | cleared | rfl
    · cases put
    · rw [(deletes c cleared).1] at put
      cases put
    · refine ⟨le_refl _,?_⟩
      intro _ k f named label
      rcases Executed.write_label lawful label with ⟨v,gone,rfl⟩ | ⟨isFake,_⟩
      · have held : k ∈ s.proxy.cache.held := Cache.mem_held.mpr ⟨v,done.evicted_cached sized wide gone⟩
        rcases (done.evicted_freq sound gone).2 with ⟨read,_⟩ | ⟨_,_,same⟩
        · exact absurd held (done.plan.uncached k read)
        · have aged := sound.resident.age k _ (FrequencySmoother.freq_find (sound.resident.live k held))
          dsimp only
          omega
      · exact absurd named (sound.resident.fakeNames k (done.plan.fakeLive k isFake))

theorem settled_layered (lawful : env.Lawful) (cfg : Config) (N C : Nat) (wide : cfg.B-cfg.F ≤ C) :
    Layered cfg env (Retaining cfg) (fun s => (Known s ∧ Sized cfg N C s) ∧ Settled env s.proxy) := by
  apply (sized_layered cfg env N C).add
  intro s action t sound layer settled now stepped
  cases stepped with
  | get item a b running batch i state => exact settled
  | put item ts v u wf oldest safe =>
    intro c member put
    rw [put_calls] at member
    obtain ⟨aged,behind⟩ := settled c member put
    refine ⟨?_,behind⟩
    change c.batch ≤ (s.retire (bucketKey item u)).proxy.timeStamp
    rw [retire_timeStamp]
    exact aged
  | close choice _ real fake evicted done => exact executed_settled lawful sound done layer.2 wide settled
  | clear p cleared =>
    obtain ⟨rounds,calls,deletes⟩ := cleared.deletes
    have frame := cleared.frame
    have clock : p.timeStamp = s.proxy.timeStamp := by rw [frame]
    intro c member put
    dsimp only at member ⊢
    rw [calls] at member
    rw [clock]
    rcases List.mem_append.mp member with old | new
    · exact settled c old put
    · rw [(deletes c new).1] at put
      cases put

-- K's current label was written by a batch.
def WrittenBack (env : Env) (K : Str) (s : Server) : Prop :=
  ∃ c ∈ s.proxy.calls, c.op = .put_batch ∧ 0 < c.batch ∧ env.label K (s.proxy.realBst.freq K) ∈ c.labels

-- While K lies in storage unread, the batches fill up with keys that precede it, no
-- key twice; when a batch has written K back, these are keys that were there when
-- the stretch began, so that they run out.
-- Once the clock has passed K, the fill keys are others of the keys live at m.
theorem Waiting.chosen_fewer (waiting : Waiting m K chosen s) (live : K ∈ m.proxy.realBst.accessFreqs)
    (passed : m.proxy.realBst.freq K < m.proxy.timeStamp) :
    chosen.length ≤ m.proxy.realBst.accessFreqs.keys.length-1 := by
  have others : chosen ⊆ m.proxy.realBst.accessFreqs.keys.erase K := by
    intro k member
    have other : k ≠ K := by
      intro same
      exact waiting.other (same ▸ member)
    exact (List.mem_erase_of_ne other).mpr (Table.mem_keys.mpr (waiting.old passed k member))
  have fewer := (List.subperm_of_subset waiting.distinct others).length_le
  rw [List.length_erase_of_mem (Table.mem_keys.mpr live)] at fewer
  exact fewer

def roomyConfig : Config := ⟨1,3,1,1,40,2,10,sampleConfig.small⟩
def roomyDraws : Draws := ⟨[3,4],[⟨0,id,id⟩],id,id,fun keys => .refl keys⟩
def roomyServer : Server := (init roomyConfig sampleEnv roomyDraws samplePairs).toOption.get (by decide +kernel)

theorem roomyStarted : Started roomyConfig sampleEnv roomyDraws samplePairs roomyServer :=
  ⟨sampleEnv_lawful,samplePairs_loadable,by decide,toOption_get _⟩

-- The first batch writes c@1 back; the second one reads two keys that precede it.
def firstBatch : List Action := [.serve (.get (str "b") 0 9),.close sampleChoice]
def secondBatch : List Action := [.serve (.get (str "a") 1 1),.close sampleChoice]
def afterOne : Server := (run (step roomyConfig sampleEnv) roomyServer firstBatch).toOption.get (by decide +kernel)
def afterTwo : Server := (run (step roomyConfig sampleEnv) afterOne secondBatch).toOption.get (by decide +kernel)

theorem sampleEnv_label (k : Str) (f : Int) : (k ++ [chr '#']).reverse <:+ sampleEnv.label k f :=
  ⟨(to_string f).reverse,by simp [Env.label,sampleEnv]⟩

theorem afterTwo_unread : Unread sampleEnv (bucketKey (str "c") 1) afterOne afterTwo := by
  refine ⟨afterTwo.proxy.calls.drop afterOne.proxy.calls.length,by decide +kernel,?_⟩
  have other : ∀ c ∈ afterTwo.proxy.calls.drop afterOne.proxy.calls.length, c.op = .get_batch →
      ∀ l ∈ c.labels, ¬(bucketKey (str "c") 1 ++ [chr '#']).reverse <:+ l := by decide +kernel
  intro c member get f read
  exact other c member get _ read (sampleEnv_label _ f)

theorem afterOne_writtenBack : WrittenBack sampleEnv (bucketKey (str "c") 1) afterOne := by
  have written : ∃ c ∈ afterOne.proxy.calls, c.op = .put_batch ∧ 0 < c.batch ∧
      sampleEnv.label (bucketKey (str "c") 1) (afterOne.proxy.realBst.freq (bucketKey (str "c") 1)) ∈ c.labels := by
    decide +kernel
  exact written

end TsWaffle
