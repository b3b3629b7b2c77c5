import TsWaffle.Isolating

namespace TsWaffle
open Text Threads Runs
variable {cfg : Config} {env : Env} {num_cores : Nat} {proxy : Proxy} {item : Str} {ts : Int}

-- init indexes every key it is given.
theorem loadKeys_indexed {i : Nat} (seeds : Nat → Nat) (pairs : List (Str × Str)) {bst next : FrequencySmoother}
    {m filled : Table Str Str} (named : ∀ kv ∈ pairs, ∃ item ts, WellFormed item ts ∧ kv.1 = bucketKey item ts)
    (grounded : bst.Grounded) (ran : loadKeys env seeds i pairs bst m = .ok (next,filled)) :
    (∀ item, ∀ ts ∈ bst.timestamps item, ts ∈ next.timestamps item) ∧
    ∀ kv ∈ pairs, ∃ item, ∃ ts ∈ next.timestamps item, kv.1 = bucketKey item ts := by
  have loaded := loadKeys_rule
    (I:=fun done now _ => now.Grounded ∧ (∀ item, ∀ ts ∈ bst.timestamps item, ts ∈ now.timestamps item) ∧
      ∀ kv ∈ done, ∃ item, ∃ ts ∈ now.timestamps item, kv.1 = bucketKey item ts) seeds [] pairs (by
    intro done now _ kv member before next _ inserted
    obtain ⟨grounded,older,listed⟩ := before
    obtain ⟨item,ts,wf,name⟩ := named kv member
    obtain ⟨_,_,index⟩ := FrequencySmoother.insert_wellFormed grounded.stamped wf
    have grown := grounded.insert wf
    rw [← name,inserted] at grown index
    have kept : ∀ other, ∀ u ∈ now.timestamps other, u ∈ next.timestamps other := by
      intro other u present
      rw [index]
      split
      · rename_i same
        subst same
        exact OrderedSet.mem_insert.mpr (.inr present)
      · exact present
    refine ⟨grown.getFrequency _,fun other u present => kept other u (older other u present),?_⟩
    intro other present
    rcases List.mem_append.mp present with old | new
    · obtain ⟨a,u,there,spelled⟩ := listed other old
      exact ⟨a,u,kept a u there,spelled⟩
    · rw [List.mem_singleton.mp new]
      refine ⟨item,ts,?_,name⟩
      change ts ∈ next.timestamps item
      rw [index,if_pos rfl]
      exact OrderedSet.mem_insert.mpr (.inl rfl)) ⟨grounded,fun _ _ present => present,by simp⟩ ran
  exact loaded.2

theorem chooseCached_index (pairs : List (Str × Str)) (capacity : Nat) (draws : List Nat) {bst next : FrequencySmoother}
    {m left : Table Str Str} {chosen out : List (Str × Str)}
    (ran : chooseCached env pairs capacity draws chosen bst m = .ok (out,next,left)) :
    next.uniqueItemWithTimeStamp = bst.uniqueItemWithTimeStamp :=
  (chooseCached_rule (I:=fun _ now _ => now.uniqueItemWithTimeStamp = bst.uniqueItemWithTimeStamp)
    (fun _ _ _ _ _ before _ _ => before) draws rfl ran).2

namespace Interleaving

-- Round has to be inhabited for a consumer to go on.
def plainRound : Round :=
  ⟨⟨id,id,fun _ => 0,fun _ _ => 0,0,fun _ => List.Perm.refl _,fun _ => List.Perm.refl _⟩,0⟩

-- A state in which a bucket of the item can be asked for, and nothing is answered yet.
structure Primed (item : Str) (ts : Int) (s : Shared) : Prop where
  unlocked : s.bstMutex = false
  unevicted : s.proxy.EvictedItems = ∅
  unset : s.proxy.promises = ∅
  grounded : s.proxy.realBst.Grounded
  listed : ts ∈ s.proxy.realBst.timestamps item
  agreed : ∀ k v, s.proxy.runningKeys.get_cache.find? k = some v → s.proxy.cache.getValueWithoutPositionChangeNew k = (v,true)

theorem insert_cache_agreed {r : ThreadSafeUnorderedMap} (request_id : Int) (key value : Str) (promise : Nat)
    (agreed : ∀ old, r.get_cache.find? key = some old → old = value) :
    r.insert_cache request_id key value promise =
      .ok (ThreadSafeUnorderedMap.insert_cache.register request_id key value promise r) := by
  unfold ThreadSafeUnorderedMap.insert_cache
  split
  · rename_i old found
    exact if_neg (fun differs => differs (agreed old found))
  · rfl

-- Four steps register a live key, whether it is cached or not, whatever follows.
theorem requestKey_registers {s : Shared} {key : Str} (promise : Nat) (go : List Str → Thread β) (primed : Primed item ts s)
    (live : key ∈ s.proxy.realBst.accessFreqs) :
    ∃ p u, (requestKey promise 0 [] key >>= go).advance 4 s = .ok (p,u) ∧ (Primed item ts u ∧
      u.registered = s.registered ++ [(0,promise)] ∧ u.operation_queues_ = s.operation_queues_) := by
  have known : s.proxy.realBst.checkIfUniqueItemWithTimeStampExists key = true := decide_eq_true live
  have unevicted : evictedValue s.proxy.EvictedItems key = [] := by
    rw [primed.unevicted]
    rfl
  refine Prog.advance_act rfl (b:=true) (t:=s) ?_ ?_
  · rw [if_neg (by rw [primed.unlocked]; exact Bool.noConfusion)]
    dsimp only
    rw [known]
  cases looked : s.proxy.cache.getValueWithoutPositionChangeNew key with
  | mk val present =>
    refine Prog.advance_act rfl (b:=(val,present)) (t:=s) ?_ ?_
    · change Except.ok (s.proxy.cache.getValueWithoutPositionChangeNew key,s) = _
      rw [looked]
    refine Prog.advance_act rfl (b:=[]) (t:=s) ?_ ?_
    · change Except.ok (evictedValue s.proxy.EvictedItems key,s) = _
      rw [unevicted]
    cases present with
    | true =>
      let running := ThreadSafeUnorderedMap.insert_cache.register 0 key val promise s.proxy.runningKeys
      have cached : s.proxy.runningKeys.insert_cache 0 key val promise = .ok running := by
        apply insert_cache_agreed
        intro old found
        have agreed := primed.agreed key old found
        rw [looked] at agreed
        cases agreed
        rfl
      refine Prog.advance_act rfl (b:=())
        (t:={s with proxy:={s.proxy with runningKeys:=running},registered:=s.registered ++ [(0,promise)]}) ?_ ?_
      · dsimp only
        rw [cached]
        rfl
      refine ⟨_,_,rfl,⟨primed.unlocked,primed.unevicted,primed.unset,primed.grounded,primed.listed,?_⟩,rfl,rfl⟩
      intro k v found
      change (s.proxy.runningKeys.get_cache.insert key val).find? k = some v at found
      rw [Table.find_insert] at found
      split at found
      · rename_i same
        cases found
        rw [same]
        exact looked
      · exact primed.agreed k v found
    | false =>
      let running := (s.proxy.runningKeys.insertIfNotPresentGet key promise 0).2
      refine Prog.advance_act rfl (b:=(s.proxy.runningKeys.insertIfNotPresentGet key promise 0).1)
        (t:={s with proxy:={s.proxy with runningKeys:=running},registered:=s.registered ++ [(0,promise)]}) rfl ?_
      exact ⟨_,_,rfl,⟨primed.unlocked,primed.unevicted,primed.unset,primed.grounded,primed.listed,primed.agreed⟩,rfl,rfl⟩

-- With the pop and the split, six steps of a consumer register the first bucket of
-- a GET.
theorem registers {s : Shared} (id promise : Nat) (rest : List (Operation × Nat)) (primed : Primed item ts s)
    (head : s.operation_queues_[id]? = some (((Request.get item ts ts).operation,promise) :: rest)) :
    ∃ p u, (serve id ⟨[],0,0⟩).advance 6 s = .ok (p,u) ∧ (Primed item ts u ∧
      u.registered = s.registered ++ [(0,promise)] ∧ u.operation_queues_ = s.operation_queues_.set id rest) := by
  obtain ⟨wf,_⟩ := primed.grounded.listed item ts primed.listed
  have split := get_split_keys_get s.proxy.realBst wf.2.1 wf.2.2 wf.2.2
  have sorted := (s.proxy.realBst.timestamps item).sorted
  have chosen : ts ∈ select (s.proxy.realBst.timestamps item).toList ts ts :=
    (mem_select sorted ts ts ts).mpr ⟨primed.listed,le_refl ts,.inl (le_refl ts)⟩
  cases keys : select (s.proxy.realBst.timestamps item).toList ts ts with
  | nil => rw [keys] at chosen; cases chosen
  | cons first more =>
    have there : first ∈ s.proxy.realBst.timestamps item := select_sub sorted (by rw [keys]; exact List.mem_cons_self)
    rw [keys,List.map_cons] at split
    let popped : Shared := {s with operation_queues_:=s.operation_queues_.set id rest}
    let asked : Shared := {popped with proxy:={s.proxy with realBst:=(s.proxy.realBst.get_timestamp_for_key item).2},
                                       queries:=s.queries ++ [⟨promise,0,bucketKey item first :: more.map (bucketKey item)⟩]}
    have ready : Primed item ts asked := by
      refine ⟨primed.unlocked,primed.unevicted,primed.unset,primed.grounded.looked_up item,?_,primed.agreed⟩
      rw [FrequencySmoother.fetch_timestamps]
      exact primed.listed
    refine Prog.advance_act rfl (b:=((Request.get item ts ts).operation,promise)) (t:=popped) (by rw [head]) ?_
    refine Prog.advance_act rfl (b:=bucketKey item first :: more.map (bucketKey item)) (t:=asked) (by dsimp only; rw [split]) ?_
    have registered := requestKey_registers promise (fun storage_batch =>
      requestKeys promise 0 (more.map (bucketKey item)) storage_batch 1 >>= fun both => pure (Locals.mk both.1 both.2 1))
      ready (primed.grounded.listed item first there).2
    rw [← Prog.bind_assoc] at registered
    exact registered

-- A consumer at the head of its loop that has room takes an operation.
theorem turn {s : State (Fin num_cores) Shared Stop Locals} {p : Thread Locals} {u : Shared} (i : Fin num_cores) (n : Nat)
    (room : cfg.R ≠ 0) (reached : Reached cfg env num_cores proxy s) (at_ : s.threads i = .ret ⟨[],0,0⟩)
    (ran : (serve i ⟨[],0,0⟩).advance n s.shared = .ok (p,u)) :
    Reached cfg env num_cores proxy ⟨u,Function.update s.threads i p⟩ := by
  have begun := reached.step (.next i plainRound at_)
  have serving : consumer_thread cfg env i ⟨[],0,0⟩ plainRound = serve i ⟨[],0,0⟩ := if_pos (Nat.pos_of_ne_zero room)
  have more := begun.advance (p:=p) (u:=u) i n (by
    dsimp only
    rw [Function.update_self,serving]
    exact ran)
  dsimp only at more
  rwa [Function.update_idem] at more

theorem Primed.push {s : Shared} (primed : Primed item ts s) (queues : List (List (Operation × Nat))) (handed : Nat) :
    Primed item ts {s with operation_queues_:=queues,handed:=handed} :=
  ⟨primed.unlocked,primed.unevicted,primed.unset,primed.grounded,primed.listed,primed.agreed⟩

-- Two consumers count from the same number, so their first GETs share an entry.
theorem entry_shared (two : 2 ≤ num_cores) (room : cfg.R ≠ 0) (primed : Primed item ts (started num_cores proxy).shared) :
    ∃ s, Reached cfg env num_cores proxy s ∧ ¬ Isolated s.shared := by
  obtain ⟨m,rfl⟩ := Nat.exists_eq_add_of_le' two
  obtain ⟨wf,_⟩ := primed.grounded.listed item ts primed.listed
  have asks : (Request.get item ts ts).WellFormed := ⟨wf.2.1,wf.2.2,wf.2.2⟩
  have one : Reached cfg env (m+2) proxy _ := Reachable.start.step (.outside (.push 0 _ asks))
  have both := one.step (.outside (.push 1 _ asks))
  have queues : ((List.replicate (m+2) ([] : List (Operation × Nat))).modify (0 % (m+2))
      (fun queue => queue ++ [((Request.get item ts ts).operation,0)])).modify (1 % (m+2))
      (fun queue => queue ++ [((Request.get item ts ts).operation,1)]) =
      [((Request.get item ts ts).operation,0)] :: [((Request.get item ts ts).operation,1)] :: List.replicate m [] := by
    rw [Nat.zero_mod,Nat.mod_eq_of_lt (by omega)]
    rfl
  simp only [started,List.length_modify,List.length_replicate,queues] at both
  obtain ⟨p,u,ran,ready,entered,left⟩ := registers 0 0 [] (primed.push ([((Request.get item ts ts).operation,0)] ::
    [((Request.get item ts ts).operation,1)] :: List.replicate m []) 2) rfl
  have first : Reached cfg env (m+2) proxy _ := turn ⟨0,by omega⟩ 6 room both rfl ran
  obtain ⟨q,v,follows,final,shared,_⟩ := registers 1 1 [] ready (by rw [left]; rfl)
  have apart : (⟨1,by omega⟩ : Fin (m+2)) ≠ ⟨0,by omega⟩ := by
    rw [ne_eq,Fin.mk.injEq]
    exact Nat.one_ne_zero
  have waits : Function.update (fun _ : Fin (m+2) => (Prog.ret ⟨[],0,0⟩ : Thread Locals)) ⟨0,by omega⟩ p ⟨1,by omega⟩ =
      .ret ⟨[],0,0⟩ := by rw [Function.update_of_ne apart]
  have second : Reached cfg env (m+2) proxy _ := turn ⟨1,by omega⟩ 6 room first waits follows
  refine ⟨_,second,?_⟩
  intro isolated
  have open_ : ∀ r, r ∉ v.proxy.promises := by
    intro r
    rw [final.unset]
    exact Table.notMem_empty r
  have same := isolated.entries 0 0 1 (by rw [shared,entered]; simp) (by rw [shared]; simp) (open_ 0) (open_ 1)
  cases same

end Interleaving

section
variable {draws : Draws} {pairs : List (Str × Str)} {server : Server}

theorem init_unset (ran : init cfg env draws pairs = .ok server) :
    server.proxy.promises = ∅ ∧ server.proxy.runningKeys = .empty ∧ server.proxy.EvictedItems = ∅ := by
  obtain ⟨_,_,_,_,_,_,_,_,_,_,_,rfl,_⟩ := init_parts cfg draws ran
  exact ⟨rfl,rfl,rfl⟩

theorem init_grounded (loadable : Loadable pairs) (ran : init cfg env draws pairs = .ok server) :
    server.proxy.realBst.Grounded := (init_ready cfg draws loadable ran).grounded

theorem init_bare (ran : init cfg env draws [] = .ok server) : Interleaving.Bare server.proxy.realBst := by
  obtain ⟨_,_,_,_,_,_,_,_,keys,picks,_,rfl,_⟩ := init_parts cfg draws ran
  cases keys
  intro item
  rw [FrequencySmoother.timestamps,chooseCached_index _ _ _ picks]
  rfl

theorem init_listed (loadable : Loadable pairs) (filled : pairs ≠ []) (ran : init cfg env draws pairs = .ok server) :
    ∃ item ts, ts ∈ server.proxy.realBst.timestamps item := by
  obtain ⟨_,_,_,_,_,_,_,_,keys,picks,_,rfl,_⟩ := init_parts cfg draws ran
  have empty : (FrequencySmoother.new true).Grounded := by
    refine ⟨rfl,?_⟩
    intro item ts listed
    simp [FrequencySmoother.timestamps,FrequencySmoother.new] at listed
  obtain ⟨_,listed⟩ := loadKeys_indexed _ pairs loadable.named empty keys
  obtain ⟨kv,rest,rfl⟩ := List.exists_cons_of_ne_nil filled
  obtain ⟨item,ts,member,_⟩ := listed kv List.mem_cons_self
  refine ⟨item,ts,?_⟩
  dsimp only
  rw [FrequencySmoother.timestamps,chooseCached_index _ _ _ picks]
  exact member

end

namespace Interleaving
variable {draws : Draws} {pairs : List (Str × Str)} {server : Server}

theorem init_calm (loadable : Loadable pairs) (ran : init cfg env draws pairs = .ok server) :
    Calm 0 [] (started 1 server.proxy).shared := by
  obtain ⟨unset,idle,_⟩ := init_unset ran
  have none : ∀ p, p ∉ server.proxy.promises := by
    intro p
    rw [unset]
    exact Table.notMem_empty p
  refine ⟨⟨List.nodup_nil,List.nodup_nil,nofun,nofun,nofun,⟨⟨[],rfl,List.nodup_nil,nofun,nofun⟩,?_,nofun⟩⟩,?_,
    init_grounded loadable ran⟩
  · intro p member
    exact absurd member (none p)
  · intro id row found
    change server.proxy.runningKeys.request_map.find? id = some row at found
    rw [idle] at found
    cases found

-- One consumer alone is isolated in every run.
theorem alone_isolated {s : State (Fin 1) Shared Stop Locals} (calm : Calm 0 [] (started 1 proxy).shared)
    (reached : Reached cfg env 1 proxy s) : Isolated s.shared := by
  refine Reachable.invariant (R:=fun _ => Others) (G:=fun _ => Settled) (Q:=fun _ l => Calm l.request_id [])
    (fun _ => others_trans) (fun _ => others_refl) ?_ (fun _ _ _ => outside_others) ?_ ?_ (fun _ _ _ after _ => after) ?_
    calm.account.isolated reached
  · intro i j s t differs
    exact absurd (Subsingleton.elim i j) differs
  · intro id l round
    have first : (id : Nat) = 0 := by omega
    rw [first]
    unfold consumer_thread
    split
    · exact serve_calm l
    · refine (close_keeps (calm_keeps l.request_id []) cfg env round l).post ?_
      intro m s both
      rw [both.1]
      exact both.2
  · intro id t other
    exact calm.others other
  · intro s t did isolated
    have other := outside_others did
    refine ⟨?_,?_⟩
    · rw [other.registered,other.promises]; exact isolated.entries
    · rw [other.queries,other.promises]; exact isolated.answers

theorem init_primed (loadable : Loadable pairs) (filled : pairs ≠ []) (ran : init cfg env draws pairs = .ok server) :
    ∃ item ts, Primed item ts (started num_cores server.proxy).shared := by
  obtain ⟨unset,idle,unevicted⟩ := init_unset ran
  obtain ⟨item,ts,listed⟩ := init_listed loadable filled ran
  refine ⟨item,ts,rfl,unevicted,unset,init_grounded loadable ran,listed,?_⟩
  intro k v found
  change server.proxy.runningKeys.get_cache.find? k = some v at found
  rw [idle] at found
  cases found

-- Whatever init has loaded, the consumers are isolated in every run exactly when
-- there is one of them, or when no GET ever asks for a key.
theorem isolated_iff (loadable : Loadable pairs) (ran : init cfg env draws pairs = .ok server) (started_ : 1 ≤ num_cores) :
    (∀ s, Reached cfg env num_cores server.proxy s → Isolated s.shared) ↔ num_cores = 1 ∨ cfg.R = 0 ∨ pairs = [] := by
  obtain ⟨unset,idle,_⟩ := init_unset ran
  have entries : server.proxy.runningKeys.request_map = ∅ := by rw [idle]; rfl
  constructor
  · intro always
    by_contra none
    simp only [not_or] at none
    obtain ⟨several,room,filled⟩ := none
    obtain ⟨item,ts,primed⟩ : ∃ item ts, Primed item ts (started num_cores server.proxy).shared :=
      init_primed loadable filled ran
    obtain ⟨s,reached,shared⟩ : ∃ s, Reached cfg env num_cores server.proxy s ∧ ¬ Isolated s.shared :=
      entry_shared (by omega) room primed
    exact shared (always s reached)
  · intro either s reached
    rcases either with rfl | none | rfl
    · exact alone_isolated (init_calm loadable ran) reached
    · exact idle_isolated none unset entries reached
    · exact bare_isolated (init_bare ran) unset entries reached

-- b@1 is loaded into the cache with the value s, and a round takes one operation.
def eagerConfig : Config := {sampleConfig with R:=1}
def eagerServer : Server := (init eagerConfig sampleEnv sampleDraws samplePairs).toOption.get (by decide +kernel)

theorem eagerStarted : init eagerConfig sampleEnv sampleDraws samplePairs = .ok eagerServer := toOption_get _

theorem isolated_iff_eager :
    (Loadable samplePairs ∧ init eagerConfig sampleEnv sampleDraws samplePairs = .ok eagerServer ∧ 1 ≤ 2) ∧
    ((∀ s, Reached eagerConfig sampleEnv 2 eagerServer.proxy s → Isolated s.shared) ↔
      2 = 1 ∨ eagerConfig.R = 0 ∨ samplePairs = []) :=
  ⟨⟨samplePairs_loadable,eagerStarted,by decide⟩,isolated_iff samplePairs_loadable eagerStarted (by decide)⟩

-- Each of two consumers has been given the same request.
def asking (proxy : Proxy) (r : Request) : State (Fin 2) Shared Stop Locals :=
  ⟨⟨proxy,[[(r.operation,0)],[(r.operation,1)]],false,2,[],[]⟩,fun _ => .ret ⟨[],0,0⟩⟩

theorem asking_reached (proxy : Proxy) {r : Request} (wf : r.WellFormed) : Reached cfg env 2 proxy (asking proxy r) :=
  (Reachable.start.step (.outside (.push 0 r wf))).step (.outside (.push 1 r wf))

-- Both register their key before the first clears the promises.
def doubling : List (Move (Fin 2) Round) :=
  .next 0 plainRound :: List.replicate 6 (.act 0) ++ .next 1 plainRound :: List.replicate 6 (.act 1) ++
    [.next 0 plainRound,.act 0]

def doubled : Option (List Query × Option Answer) :=
  (schedule (fun id : Fin 2 => consumer_thread eagerConfig sampleEnv id) doubling
    (asking eagerServer.proxy (.get (str "b") 1 1))).toOption.map
    (fun s => (s.shared.queries,s.shared.proxy.promises.find? 0))

-- The first GET is answered with the bucket of both.
theorem bucket_summed_twice :
    ¬ ∀ (cfg : Config) (env : Env) (draws : Draws) (pairs : List (Str × Str)) (server : Server), Loadable pairs →
      init cfg env draws pairs = .ok server → ∀ num_cores, 1 ≤ num_cores →
      ∀ s, Reached cfg env num_cores server.proxy s → Isolated s.shared := by
  intro always
  have run : doubled = some ([⟨0,0,[bucketKey (str "b") 1]⟩,⟨1,0,[bucketKey (str "b") 1]⟩],
      some (.sum [(bucketKey (str "b") 1,str "s"),(bucketKey (str "b") 1,str "s")])) := by decide +kernel
  unfold doubled at run
  cases ended : schedule (fun id : Fin 2 => consumer_thread eagerConfig sampleEnv id) doubling
      (asking eagerServer.proxy (.get (str "b") 1 1)) with
  | error e =>
    rw [ended] at run
    cases run
  | ok s =>
    rw [ended] at run
    obtain ⟨queries,answer⟩ := Prod.mk.inj (Option.some.inj run)
    have isolated := always eagerConfig sampleEnv sampleDraws samplePairs eagerServer samplePairs_loadable eagerStarted 2
      (by decide) s ((asking_reached _ (by decide)).schedule doubling ended)
    obtain ⟨pairs,shape,keys⟩ := isolated.answers ⟨0,0,[bucketKey (str "b") 1]⟩ (by rw [queries]; simp) _ answer
    cases shape
    cases keys

end Interleaving
end TsWaffle
