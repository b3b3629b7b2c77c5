import TsWaffle.Evicting
import TsWaffle.Sizing

namespace TsWaffle
open Text Runs Server Counting
variable {cfg : Config} {env : Env} {s t : Server} {p : Proxy} {pairs : List (Str × Str)} {draws : Draws}
  {real fake : List Str} {evicted : List (Str × Str)} {action : Action} {N C : Nat}

-- How many keys of the cache have that frequency.
def stamped (p : Proxy) (u : Int) : Nat := p.cache.held.countP (fun k => p.realBst.freq k = u)

-- What comes into the cache under one clock: the keys a batch reads, and a key for
-- each of the requests popped after it. The keys init has chosen are all of clock 0.
structure Inflow (cfg : Config) (s : Server) : Prop where
  every : ∀ u, 0 < u → stamped s.proxy u ≤ cfg.B-cfg.F+cfg.R
  now : 0 < s.proxy.timeStamp → stamped s.proxy s.proxy.timeStamp ≤ cfg.B-cfg.F+s.i

-- Where a frequency comes from: the batch of that clock has read the key, or a PUT
-- has written it.
def FetchedUnder (env : Env) (s : Server) (k : Str) (f : Int) : Prop :=
  (∃ c ∈ s.proxy.calls, c.op = .get_batch ∧ c.batch = f ∧ ∃ g, env.label k g ∈ c.labels) ∨
    k ∈ (s.requests.filterMap Request.written).map Prod.fst

-- A label that a batch writes for a key of frequency f comes more than n batches
-- after f, for every n that the cache has room for.
def Lingered (cfg : Config) (env : Env) (C : Nat) (s : Server) (c : StorageCall) : Prop :=
  c.op = .put_batch → 0 < c.batch → ∀ l ∈ c.labels.take (cfg.B-cfg.F), ∃ k f, l = env.label k f ∧
    (0 < f → FetchedUnder env s k f ∧ ∀ n : Nat, cfg.B-cfg.F+n*(cfg.B-cfg.F+cfg.R) ≤ C → f+n < c.batch)

structure Lingering (cfg : Config) (env : Env) (C : Nat) (s : Server) : Prop where
  inflow : Inflow cfg s
  origin : ∀ k f, s.proxy.realBst.accessFreqs.find? k = some f → 0 < f → FetchedUnder env s k f
  logged : ∀ c ∈ s.proxy.calls, Lingered cfg env C s c

theorem FetchedUnder.more (fetched : FetchedUnder env s k f) (calls : s.proxy.calls <+: t.proxy.calls)
    (requests : s.requests <+: t.requests) : FetchedUnder env t k f := by
  rcases fetched with ⟨c,member,read⟩ | written
  · exact .inl ⟨c,calls.mem member,read⟩
  · exact .inr (((requests.sublist.filterMap _).map _).mem written)

theorem Lingered.more {c : StorageCall} (lingered : Lingered cfg env C s c) (calls : s.proxy.calls <+: t.proxy.calls)
    (requests : s.requests <+: t.requests) : Lingered cfg env C t c := by
  intro write later l member
  obtain ⟨k,f,name,stays⟩ := lingered write later l member
  exact ⟨k,f,name,fun positive => ⟨(stays positive).1.more calls requests,(stays positive).2⟩⟩

theorem Initial.lingering (start : Initial cfg env pairs s) : Lingering cfg env C s := by
  have flat : ∀ k f, s.proxy.realBst.accessFreqs.find? k = some f → f = 0 := by
    intro k f found
    rw [start.freqs] at found
    split at found
    · exact (Option.some.inj found).symm
    · cases found
  refine ⟨⟨?_,?_⟩,?_,?_⟩
  · intro u positive
    have none : stamped s.proxy u = 0 := by
      rw [stamped,List.countP_eq_zero]
      intro k _
      have zero : s.proxy.realBst.freq k = 0 := by
        rw [FrequencySmoother.freq,start.freqs]
        split <;> rfl
      simp only [zero,decide_eq_true_eq]
      omega
    omega
  · intro positive
    rw [start.clock] at positive
    exact absurd positive (lt_irrefl 0)
  · intro k f found positive
    have zero := flat k f found
    omega
  · intro c member write later
    have start := (start.calls c member).2
    omega

theorem stamped_retire (s : Server) (o : Str) (u : Int) : stamped (s.retire o).proxy u ≤ stamped s.proxy u := by
  have same : stamped (s.retire o).proxy u = (s.retire o).proxy.cache.held.countP (fun k => s.proxy.realBst.freq k = u) := by
    refine List.countP_congr ?_
    intro k held
    rw [retire_freq s o k held]
  rw [same]
  exact (retire_sublist s o).countP_le

theorem stamped_record (item : Str) (ts : Int) (v : Str) (u : Int) :
    stamped (s.record item ts v).proxy u ≤ stamped s.proxy u+if s.proxy.timeStamp = u then 1 else 0 := by
  have freq : ∀ k, (s.record item ts v).proxy.realBst.freq k =
      if k = bucketKey item ts then s.proxy.timeStamp else s.proxy.realBst.freq k := by
    intro k
    simp only [record,FrequencySmoother.freq,FrequencySmoother.store_freqs]
    split <;> rfl
  have held : (s.record item ts v).proxy.cache.held =
      bucketKey item ts :: s.proxy.cache.held.filter (· ≠ bucketKey item ts) := by
    simp only [record,Cache.held,Cache.insertIntoCache_entries,List.map_cons,List.filter_map]
    rfl
  have rest : (s.proxy.cache.held.filter (· ≠ bucketKey item ts)).countP
        (fun k => (s.record item ts v).proxy.realBst.freq k = u) =
      (s.proxy.cache.held.filter (· ≠ bucketKey item ts)).countP (fun k => s.proxy.realBst.freq k = u) := by
    refine List.countP_congr ?_
    intro k member
    rw [freq,if_neg (by simpa using (List.mem_filter.mp member).2)]
  have fewer : (s.proxy.cache.held.filter (· ≠ bucketKey item ts)).countP (fun k => s.proxy.realBst.freq k = u) ≤
      stamped s.proxy u := List.filter_sublist.countP_le
  rw [stamped,held,List.countP_cons,rest,freq,if_pos rfl]
  simp only [decide_eq_true_eq]
  omega

theorem put_inflow (inflow : Inflow cfg s) (early : s.i < cfg.R) (o item : Str) (ts : Int) (v : Str) :
    Inflow cfg ((s.retire o).record item ts v) := by
  have bound : ∀ u, stamped ((s.retire o).record item ts v).proxy u ≤
      stamped s.proxy u+if s.proxy.timeStamp = u then 1 else 0 := by
    intro u
    have recorded := stamped_record (s:=s.retire o) item ts v u
    have retired := stamped_retire s o u
    rw [retire_timeStamp] at recorded
    omega
  have clock : ((s.retire o).record item ts v).proxy.timeStamp = s.proxy.timeStamp := retire_timeStamp s o
  have more : ((s.retire o).record item ts v).i = s.i+1 := congrArg (·+1) (retire_i s o)
  refine ⟨?_,?_⟩
  · intro u positive
    have now := bound u
    split at now
    · rename_i same
      subst same
      have before := inflow.now positive
      omega
    · exact now.trans (inflow.every u positive)
  · rw [clock,more]
    intro positive
    have now := bound s.proxy.timeStamp
    have before := inflow.now positive
    rw [if_pos rfl] at now
    omega

namespace Executed

theorem freq_cached (done : Executed cfg env s t real fake evicted) (sound : Sound cfg env s) (held : k ∈ s.proxy.cache.held) :
    t.proxy.realBst.freq k = s.proxy.realBst.freq k := by
  obtain ⟨v,cached⟩ := Cache.mem_held.mp held
  have free := (done.through_live sound (k,v) (done.passes_cached cached)).1
  rw [FrequencySmoother.freq,done.freqs,if_neg free,if_neg (fun read => done.plan.uncached k read held)]
  rfl

-- What the batch has put into the cache is of the new clock, and nothing else is.
theorem stamped_le (done : Executed cfg env s t real fake evicted) (sound : Sound cfg env s) (u : Int) :
    stamped t.proxy u ≤ if u = t.proxy.timeStamp then cfg.B-cfg.F else stamped s.proxy u := by
  have queue := congrArg (List.countP (fun kv : Str × Str => t.proxy.realBst.freq kv.1 = u)) done.queue
  rw [List.countP_append,List.countP_append,List.countP_reverse,List.countP_reverse] at queue
  have staying : stamped t.proxy u = t.proxy.cache.entries.countP (fun kv => t.proxy.realBst.freq kv.1 = u) := by
    rw [stamped,Cache.held,List.countP_map]
    rfl
  have cached : s.proxy.cache.entries.countP (fun kv => t.proxy.realBst.freq kv.1 = u) = stamped s.proxy u := by
    rw [stamped,Cache.held,List.countP_map]
    refine List.countP_congr ?_
    intro kv member
    rw [done.freq_cached sound (Cache.mem_held.mpr ⟨kv.2,member⟩)]
    rfl
  have clock := done.clock
  have count := done.plan.count
  split
  · rename_i same
    have old : stamped s.proxy u = 0 := by
      rw [stamped,List.countP_eq_zero]
      intro k held
      have live := sound.resident.live k held
      have age := sound.resident.age k _ (FrequencySmoother.freq_find live)
      simp only [decide_eq_true_eq]
      omega
    have few : ((real.filter (· ∉ s.proxy.keys_to_be_deleted)).map (fun k => (k,(s.last k).getD []))).countP
        (fun kv => t.proxy.realBst.freq kv.1 = u) ≤ real.length := by
      refine List.countP_le_length.trans ?_
      rw [List.length_map]
      exact List.length_filter_le _ _
    omega
  · rename_i other
    have none : ((real.filter (· ∉ s.proxy.keys_to_be_deleted)).map (fun k => (k,(s.last k).getD []))).countP
        (fun kv => t.proxy.realBst.freq kv.1 = u) = 0 := by
      rw [List.countP_eq_zero]
      intro kv member
      obtain ⟨k,listed,rfl⟩ := List.mem_map.mp member
      obtain ⟨read,free⟩ := List.mem_filter.mp listed
      have now : t.proxy.realBst.freq k = s.proxy.timeStamp+1 := by
        rw [FrequencySmoother.freq,done.freqs,if_neg (by simpa using free),if_pos read]
        rfl
      simp only [now,decide_eq_true_eq]
      omega
    omega

theorem inflow (done : Executed cfg env s t real fake evicted) (sound : Sound cfg env s) (inflow : Inflow cfg s) :
    Inflow cfg t := by
  have frame := done.frame
  refine ⟨?_,?_⟩
  · intro u positive
    have bound := done.stamped_le sound u
    have before := inflow.every u positive
    split at bound
    · omega
    · exact bound.trans before
  · intro _
    have bound := done.stamped_le sound t.proxy.timeStamp
    rw [if_pos rfl] at bound
    omega

-- The keys of the cache that rank no lower than one that leaves it are all but the
-- batch's evictions, and have come in since.
theorem lingers (done : Executed cfg env s t real fake evicted) (sound : Sound cfg env s) (ordered : Descending s.proxy)
    (sized : Sized cfg N C s) (inflow : Inflow cfg s) (gone : kv ∈ evicted) (positive : 0 < t.proxy.realBst.freq kv.1)
    {n : Nat} (room : cfg.B-cfg.F+n*(cfg.B-cfg.F+cfg.R) ≤ C) : t.proxy.realBst.freq kv.1+n < t.proxy.timeStamp := by
  have cached := sized.cached
  have moved := done.count
  have count := done.plan.count
  have clock := done.clock
  have many := (done.passed sound ordered).outranked done.queue gone
  have same : s.proxy.cache.entries.countP (fun row => t.proxy.realBst.freq kv.1 ≤ t.proxy.realBst.freq row.1) =
      s.proxy.cache.held.countP (fun k => t.proxy.realBst.freq kv.1 ≤ s.proxy.realBst.freq k) := by
    rw [Cache.held,List.countP_map]
    refine List.countP_congr ?_
    intro row member
    rw [done.freq_cached sound (Cache.mem_held.mpr ⟨row.2,member⟩)]
    rfl
  by_contra late
  have recent : s.proxy.cache.held.countP (fun k => t.proxy.realBst.freq kv.1 ≤ s.proxy.realBst.freq k) =
      s.proxy.cache.held.countP (fun k => t.proxy.realBst.freq kv.1 ≤ s.proxy.realBst.freq k ∧
        s.proxy.realBst.freq k < t.proxy.realBst.freq kv.1+n) := by
    refine List.countP_congr ?_
    intro k held
    have age := sound.resident.age k _ (FrequencySmoother.freq_find (sound.resident.live k held))
    simp only [decide_eq_true_eq]
    omega
  have few : s.proxy.cache.held.countP (fun k => t.proxy.realBst.freq kv.1 ≤ s.proxy.realBst.freq k ∧
      s.proxy.realBst.freq k < t.proxy.realBst.freq kv.1+n) ≤ n*(cfg.B-cfg.F+cfg.R) :=
    countP_span (fun u above => inflow.every u (by omega)) n
  omega

end Executed

theorem retire_calls (s : Server) (o : Str) : (s.retire o).proxy.calls = s.proxy.calls := by
  by_cases held : o ∈ s.proxy.cache.held
  · rw [retire_cached held]
  · rw [retire_uncached held]

theorem retire_found {o : Str} (found : (s.retire o).proxy.realBst.accessFreqs.find? k = some f) :
    s.proxy.realBst.accessFreqs.find? k = some f := by
  by_cases held : o ∈ s.proxy.cache.held
  · rw [retire_cached held] at found
    dsimp only at found
    rw [FrequencySmoother.removeKey_freqs] at found
    split at found
    · cases found
    · exact found
  · rw [retire_uncached held] at found
    exact found

theorem executed_lingering (sound : Sound cfg env s) (done : Executed cfg env s t real fake evicted)
    (ordered : Descending s.proxy) (sized : Sized cfg N C s) (lingering : Lingering cfg env C s) : Lingering cfg env C t := by
  obtain ⟨rounds,calls,deletes⟩ := done.calls
  have log : s.proxy.calls <+: t.proxy.calls := ⟨_,calls.symm⟩
  have same : s.requests <+: t.requests := by rw [done.frame]
  have clock := done.clock
  have origin : ∀ k f, t.proxy.realBst.accessFreqs.find? k = some f → 0 < f → FetchedUnder env t k f := by
    intro k f found positive
    rcases done.freq_now found with ⟨read,rfl⟩ | ⟨_,old⟩
    · refine .inl ⟨⟨.get_batch,t.proxy.timeStamp,readLabels env s.proxy real fake⟩,?_,rfl,clock,s.proxy.realBst.freq k,?_⟩
      · rw [calls]
        simp
      · exact mem_readLabels.mpr (.inl ⟨k,read,rfl⟩)
    · exact (lingering.origin k f old positive).more log same
  refine ⟨done.inflow sound lingering.inflow,origin,?_⟩
  intro c member
  rw [calls] at member
  rcases List.mem_append.mp member with old | new
  · exact (lingering.logged c old).more log same
  · rcases List.mem_append.mp new with early | last
    · rcases List.mem_cons.mp early with rfl | round
      · intro write
        cases write
      · intro write
        rw [(deletes c round).1] at write
        cases write
    · rw [List.mem_singleton.mp last]
      intro _ _ l listed
      have count := done.plan.count
      have moved := done.count
      have width : (evicted.map (fun kv => env.label kv.1 (t.proxy.realBst.freq kv.1))).length = cfg.B-cfg.F := by
        rw [List.length_map]
        omega
      rw [writeLabels,← width,List.take_left] at listed
      obtain ⟨kv,gone,rfl⟩ := List.mem_map.mp listed
      refine ⟨kv.1,_,rfl,?_⟩
      intro positive
      obtain ⟨live,_⟩ := done.evicted_freq sound gone
      exact ⟨origin _ _ (FrequencySmoother.freq_find live) positive,
        fun n room => done.lingers sound ordered sized lingering.inflow gone positive room⟩

-- One step of the consumer keeps all of it.
theorem Lingering.step (lingering : Lingering cfg env C s) (sound : Sound cfg env s)
    (ordered : Descending s.proxy) (sized : Sized cfg N C s) (regular : Regular cfg s action)
    (ran : step cfg env s action = .ok t) (stepped : Stepped cfg env s action t) : Lingering cfg env C t := by
  cases stepped with
  | get item a b running batch i state =>
    obtain ⟨_,wf,_⟩ := regular
    have more := (get_length wf ran).2
    have requests : s.requests <+: s.requests ++ [.get item a b] := List.prefix_append _ _
    refine ⟨⟨lingering.inflow.every,?_⟩,?_,?_⟩
    · intro positive
      exact (lingering.inflow.now positive).trans (by omega)
    · intro k f found positive
      exact (lingering.origin k f found positive).more (List.prefix_refl _) requests
    · intro c member
      exact (lingering.logged c member).more (List.prefix_refl _) requests
  | put item ts v u wf oldest safe =>
    have log : ((s.retire (bucketKey item u)).record item ts v).proxy.calls = s.proxy.calls := retire_calls s _
    have asked : ((s.retire (bucketKey item u)).record item ts v).requests = s.requests ++ [.put item ts v] := by
      simp only [record,retire_requests]
    have calls : s.proxy.calls <+: ((s.retire (bucketKey item u)).record item ts v).proxy.calls := by rw [log]
    have requests : s.requests <+: ((s.retire (bucketKey item u)).record item ts v).requests := by
      rw [asked]
      exact List.prefix_append _ _
    refine ⟨put_inflow lingering.inflow regular.1 _ item ts v,?_,?_⟩
    · intro k f found positive
      simp only [record,FrequencySmoother.store_freqs] at found
      split at found
      · rename_i own
        refine .inr ?_
        rw [asked,own]
        simp [Request.written]
      · exact (lingering.origin k f (retire_found found) positive).more calls requests
    · intro c member
      rw [log] at member
      exact (lingering.logged c member).more calls requests
  | close choice _ real fake evicted done => exact executed_lingering sound done ordered sized lingering
  | clear p cleared =>
    obtain ⟨rounds,calls,deletes⟩ := cleared.deletes
    have frame := cleared.frame
    have log : s.proxy.calls <+: ({s with proxy:=p} : Server).proxy.calls := ⟨rounds,calls.symm⟩
    have same : s.requests <+: ({s with proxy:=p} : Server).requests := List.prefix_refl _
    refine ⟨?_,?_,?_⟩
    · rw [frame]
      exact ⟨lingering.inflow.every,lingering.inflow.now⟩
    · intro k f found positive
      rw [frame] at found
      exact (lingering.origin k f found positive).more log same
    · intro c member
      rw [calls] at member
      rcases List.mem_append.mp member with old | new
      · exact (lingering.logged c old).more log same
      · intro write
        rw [(deletes c new).1] at write
        cases write

theorem lingering_run (lawful : env.Lawful) (actions : List Action) (sound : Sound cfg env s)
    (layer : (Known s ∧ Sized cfg N C s) ∧ ∃ marks, Ranked cfg env marks s.proxy) (lingering : Lingering cfg env C s)
    (retaining : Admissible (Server.step cfg env) (Retaining cfg) s actions) (ran : run (Server.step cfg env) s actions = .ok t) :
    Lingering cfg env C t := by
  induction actions generalizing s with
  | nil =>
    cases ran
    exact lingering
  | cons action rest ih =>
    obtain ⟨next,first,tail⟩ := run_uncons ran
    obtain ⟨m,same,stepped,after,still⟩ := (ranked_layered lawful cfg N C).step lawful sound layer retaining.1
    rw [first] at same
    cases same
    obtain ⟨⟨_,sized⟩,_,ranked⟩ := layer
    exact ih after still (lingering.step sound ranked.cache sized retaining.1.1.1 first stepped) (retaining.2 _ first) tail

-- Room for one batch: the key that the first batch reads leaves with the third.
theorem linger_small : 2 < 2^31 := by decide

def lingerConfig : Config := ⟨1,2,1,1,60,2,10,linger_small⟩
def lingerDraws : Draws := ⟨[3,0,1],[⟨0,id,id⟩],id,id,fun keys => .refl keys⟩
def lingerServer : Server := (init lingerConfig sampleEnv lingerDraws samplePairs).toOption.get (by decide +kernel)
def lingerActions : List Action :=
  [.serve (.get (str "a") 1 1),.close sampleChoice,.serve (.put (str "a") 4 (str "t")),.close sampleChoice,
    .serve (.get (str "c") 0 9),.close sampleChoice]
def lingerLast : Server :=
  (run (Server.step lingerConfig sampleEnv) lingerServer lingerActions).toOption.get (by decide +kernel)

theorem lingerStarted : Started lingerConfig sampleEnv lingerDraws samplePairs lingerServer :=
  ⟨sampleEnv_lawful,samplePairs_loadable,by decide,toOption_get _⟩

end TsWaffle
