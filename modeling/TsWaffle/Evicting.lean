import TsWaffle.Conserving
import TsWaffle.Shape
import TsWaffle.Lib.Fifo

namespace TsWaffle
open Text Runs Server
variable {cfg : Config} {env : Env} {s t : Server} {p : Proxy} {pairs : List (Str × Str)} {draws : Draws}
  {real fake : List Str} {evicted : List (Str × Str)} {choice : Choice} {marks : List (Str × Int)}

-- Along the accessList, front to back, the frequencies do not increase.
def Descending (p : Proxy) : Prop := (p.cache.held.map p.realBst.freq).Pairwise (· ≥ ·)

theorem entries_descending :
    (p.cache.entries.map (fun kv => p.realBst.freq kv.1)).Pairwise (· ≥ ·) ↔ Descending p := by
  simp [Descending,Cache.held,List.pairwise_map]

-- The labels that the batches, unlike init, have written for evicted keys: in each
-- write batch they come before the F fake ones.
def evictions (cfg : Config) (calls : List StorageCall) : List Str :=
  (calls.filter (fun c => c.op = .put_batch ∧ 0 < c.batch)).flatMap (fun c => c.labels.take (cfg.B-cfg.F))

theorem evictions_append (one two : List StorageCall) :
    evictions cfg (one ++ two) = evictions cfg one ++ evictions cfg two := by
  simp [evictions]

theorem evictions_other {calls : List StorageCall} (other : ∀ c ∈ calls, c.op ≠ .put_batch ∨ c.batch ≤ 0) :
    evictions cfg calls = [] := by
  rw [evictions,List.filter_eq_nil_iff.mpr]
  · rfl
  · intro c member
    have one := other c member
    simp only [decide_eq_true_eq,not_and,not_lt]
    exact fun same => one.resolve_left (fun differs => differs same)

-- The key and the frequency of everything evicted so far: no later eviction is of
-- a smaller frequency.
structure Ranked (cfg : Config) (env : Env) (marks : List (Str × Int)) (p : Proxy) : Prop where
  cache : Descending p
  written : evictions cfg p.calls = marks.map (fun mark => env.label mark.1 mark.2)
  order : (marks.map Prod.snd).Pairwise (· ≤ ·)
  floor : ∀ mark ∈ marks, ∀ k ∈ p.cache.held, mark.2 ≤ p.realBst.freq k
  age : ∀ mark ∈ marks, mark.2 ≤ p.timeStamp
  clock : 0 ≤ p.timeStamp

theorem Initial.ranked (start : Initial cfg env pairs s) : Ranked cfg env [] s.proxy := by
  refine ⟨?_,?_,.nil,by simp,by simp,by rw [start.clock]⟩
  · have flat : s.proxy.cache.held.map s.proxy.realBst.freq = s.proxy.cache.held.map (fun _ => 0) := by
      apply List.map_congr_left
      intro k _
      rw [FrequencySmoother.freq,start.freqs]
      split <;> rfl
    rw [Descending,flat]
    simp [List.pairwise_replicate]
  · apply evictions_other
    intro c member
    exact .inr (le_of_eq (start.calls c member).2)

theorem retire_freq (s : Server) (o k : Str) (held : k ∈ (s.retire o).proxy.cache.held) :
    (s.retire o).proxy.realBst.freq k = s.proxy.realBst.freq k := by
  by_cases was : o ∈ s.proxy.cache.held
  · rw [retire_cached was] at held ⊢
    have other := ((Cache.mem_held_remove _ _ _).mp held).1
    simp only [FrequencySmoother.freq,FrequencySmoother.removeKey_freqs,if_neg other]
  · rw [retire_uncached was]

theorem retire_sublist (s : Server) (o : Str) : (s.retire o).proxy.cache.held.Sublist s.proxy.cache.held := by
  by_cases was : o ∈ s.proxy.cache.held
  · rw [retire_cached was]
    dsimp only
    rw [Cache.held,Cache.removeKey_entries]
    exact List.filter_sublist.map _
  · rw [retire_uncached was]

theorem retire_ranked (s : Server) (o : Str) (ranked : Ranked cfg env marks s.proxy) :
    Ranked cfg env marks (s.retire o).proxy := by
  have log : (s.retire o).proxy.calls = s.proxy.calls := by
    by_cases was : o ∈ s.proxy.cache.held
    · rw [retire_cached was]
    · rw [retire_uncached was]
  refine ⟨?_,by rw [log]; exact ranked.written,ranked.order,?_,?_,?_⟩
  · rw [Descending,List.map_congr_left (retire_freq s o)]
    exact ranked.cache.sublist ((retire_sublist s o).map _)
  · intro mark listed k held
    rw [retire_freq s o k held]
    exact ranked.floor mark listed k ((retire_sublist s o).mem held)
  · rw [retire_timeStamp]
    exact ranked.age
  · rw [retire_timeStamp]
    exact ranked.clock

-- A PUT puts its key in front, under the highest frequency there is.
theorem record_ranked (item : Str) (ts : Int) (v : Str)
    (age : ∀ k ∈ s.proxy.cache.held, s.proxy.realBst.freq k ≤ s.proxy.timeStamp)
    (ranked : Ranked cfg env marks s.proxy) : Ranked cfg env marks (s.record item ts v).proxy := by
  have freq : ∀ k, (s.record item ts v).proxy.realBst.freq k =
      if k = bucketKey item ts then s.proxy.timeStamp else s.proxy.realBst.freq k := by
    intro k
    simp only [record,FrequencySmoother.freq,FrequencySmoother.store_freqs]
    split <;> rfl
  refine ⟨?_,ranked.written,ranked.order,?_,ranked.age,ranked.clock⟩
  · have held : (s.record item ts v).proxy.cache.held =
        bucketKey item ts :: s.proxy.cache.held.filter (· ≠ bucketKey item ts) := by
      simp only [record,Cache.held,Cache.insertIntoCache_entries,List.map_cons,List.filter_map]
      rfl
    have rest : (s.proxy.cache.held.filter (· ≠ bucketKey item ts)).map (s.record item ts v).proxy.realBst.freq =
        (s.proxy.cache.held.filter (· ≠ bucketKey item ts)).map s.proxy.realBst.freq := by
      apply List.map_congr_left
      intro k member
      rw [freq,if_neg (by simpa using (List.mem_filter.mp member).2)]
    rw [Descending,held,List.map_cons,rest,List.pairwise_cons]
    refine ⟨?_,ranked.cache.sublist (List.filter_sublist.map _)⟩
    intro f member
    obtain ⟨k,listed,rfl⟩ := List.mem_map.mp member
    rw [freq,if_pos rfl]
    exact age k (List.mem_of_mem_filter listed)
  · intro mark listed k held
    rw [freq]
    split
    · exact ranked.age mark listed
    · rename_i other
      exact ranked.floor mark listed k (((Cache.mem_held_insert _ _ _ _).mp held).resolve_left other)

-- What was cached keeps its frequency and what has been read has the new clock: the
-- keys leave the cache in the order of these.
theorem passed_queue (sound : Sound cfg env s) (ordered : Descending s.proxy) {freq : Str → Int}
    (queue : gone ++ kept.reverse = s.proxy.cache.entries.reverse ++ added)
    (old : ∀ kv ∈ s.proxy.cache.entries, freq kv.1 = s.proxy.realBst.freq kv.1)
    (new : ∀ kv ∈ added, freq kv.1 = s.proxy.timeStamp+1) : Fifo.Passed (fun kv => freq kv.1) gone kept := by
  apply Fifo.pass (s.proxy.timeStamp+1) queue
  · rw [List.map_congr_left old]
    exact entries_descending.mpr ordered
  · exact new
  · intro kv cached
    rw [old kv cached]
    have live := sound.resident.live kv.1 (Cache.mem_held.mpr ⟨kv.2,cached⟩)
    have age := sound.resident.age kv.1 _ (FrequencySmoother.freq_find live)
    omega

theorem Executed.passed (done : Executed cfg env s t real fake evicted) (sound : Sound cfg env s)
    (ordered : Descending s.proxy) :
    Fifo.Passed (fun kv => t.proxy.realBst.freq kv.1) evicted t.proxy.cache.entries := by
  have old : ∀ kv ∈ s.proxy.cache.entries, t.proxy.realBst.freq kv.1 = s.proxy.realBst.freq kv.1 := by
    intro kv cached
    have held : kv.1 ∈ s.proxy.cache.held := Cache.mem_held.mpr ⟨kv.2,cached⟩
    have free := (done.through_live sound kv (done.passes_cached cached)).1
    rw [FrequencySmoother.freq,done.freqs,if_neg free,if_neg (fun read => done.plan.uncached kv.1 read held)]
    rfl
  refine passed_queue sound ordered done.queue old ?_
  intro kv member
  obtain ⟨k,listed,rfl⟩ := List.mem_map.mp member
  obtain ⟨read,free⟩ := List.mem_filter.mp listed
  rw [FrequencySmoother.freq,done.freqs,if_neg (by simpa using free),if_pos read]
  rfl

theorem Executed.evictions_eq (done : Executed cfg env s t real fake evicted) (clock : 0 ≤ s.proxy.timeStamp) :
    evictions cfg t.proxy.calls = evictions cfg s.proxy.calls ++
      evicted.map (fun kv => env.label kv.1 (t.proxy.realBst.freq kv.1)) := by
  obtain ⟨rounds,calls,deletes⟩ := done.calls
  have quiet : evictions cfg rounds = [] := evictions_other (fun c member => .inl (by simp [(deletes c member).1]))
  have later : 0 < t.proxy.timeStamp := by
    have moved := done.clock
    omega
  have size : cfg.B-cfg.F = (evicted.map (fun kv => env.label kv.1 (t.proxy.realBst.freq kv.1))).length := by
    have count := done.plan.count
    have moved := done.count
    rw [List.length_map]
    omega
  rw [calls,evictions_append,List.cons_append,← List.singleton_append,evictions_append,evictions_append,quiet]
  simp [evictions,later,writeLabels,size]

theorem executed_ranked (lawful : env.Lawful) (sound : Sound cfg env s) (done : Executed cfg env s t real fake evicted)
    (ranked : Ranked cfg env marks s.proxy) :
    Ranked cfg env (marks ++ evicted.map (fun kv => (kv.1,t.proxy.realBst.freq kv.1))) t.proxy := by
  have passed := done.passed sound ranked.cache
  have clock := done.clock
  have behind : ∀ mark ∈ marks, ∀ kv ∈ evicted ++ t.proxy.cache.entries.reverse, mark.2 ≤ t.proxy.realBst.freq kv.1 := by
    intro mark listed kv member
    obtain ⟨free,live,_⟩ := done.through_live sound kv member
    have aged := ranked.age mark listed
    by_cases read : kv.1 ∈ real
    · rw [FrequencySmoother.freq,done.freqs,if_neg free,if_pos read,Option.getD_some]
      omega
    · rw [FrequencySmoother.freq,done.freqs,if_neg free,if_neg read]
      rcases done.through sound kv member with cached | ⟨listed_,_⟩
      · exact ranked.floor mark listed kv.1 (Cache.mem_held.mpr ⟨kv.2,cached⟩)
      · exact absurd listed_ read
  refine ⟨?_,?_,?_,?_,?_,?_⟩
  · exact entries_descending.mp passed.staying
  · rw [done.evictions_eq ranked.clock,ranked.written,List.map_append,List.map_map]
    rfl
  · rw [List.map_append,List.map_map,List.pairwise_append]
    refine ⟨ranked.order,passed.leaving,?_⟩
    intro f old g new
    obtain ⟨mark,listed,rfl⟩ := List.mem_map.mp old
    obtain ⟨kv,gone,rfl⟩ := List.mem_map.mp new
    exact behind mark listed kv (List.mem_append_left _ gone)
  · intro mark member k held
    obtain ⟨v,cached⟩ := Cache.mem_held.mp held
    rcases List.mem_append.mp member with old | new
    · exact behind mark old (k,v) (List.mem_append_right _ (List.mem_reverse.mpr cached))
    · obtain ⟨kv,gone,rfl⟩ := List.mem_map.mp new
      exact passed.across kv gone (k,v) cached
  · intro mark member
    rcases List.mem_append.mp member with old | new
    · have aged := ranked.age mark old
      omega
    · obtain ⟨kv,gone,rfl⟩ := List.mem_map.mp new
      have live := (done.evicted_freq sound gone).1
      exact (executed_resident lawful sound done).age kv.1 _ (FrequencySmoother.freq_find live)
  · have before := ranked.clock
    omega

theorem Stepped.ranked (lawful : env.Lawful) (stepped : Stepped cfg env s action t) (sound : Sound cfg env s)
    (ranked : ∃ marks, Ranked cfg env marks s.proxy) : ∃ marks, Ranked cfg env marks t.proxy := by
  obtain ⟨marks,ranked⟩ := ranked
  cases stepped with
  | get item a b running batch i state => exact ⟨marks,ranked.cache,ranked.written,ranked.order,ranked.floor,ranked.age,ranked.clock⟩
  | put item ts v u wf oldest safe =>
    refine ⟨marks,record_ranked item ts v ?_ (retire_ranked s _ ranked)⟩
    intro k held
    rw [retire_freq s _ k held,retire_timeStamp]
    have live := sound.resident.live k ((retire_sublist s _).mem held)
    exact sound.resident.age k _ (FrequencySmoother.freq_find live)
  | close choice _ real fake evicted done => exact ⟨_,executed_ranked lawful sound done ranked⟩
  | clear p cleared =>
    obtain ⟨rounds,calls,deletes⟩ := cleared.deletes
    have quiet : evictions cfg rounds = [] := evictions_other (fun c member => .inl (by simp [(deletes c member).1]))
    have frame := cleared.frame
    refine ⟨marks,?_,?_,ranked.order,?_,?_,?_⟩
    · rw [frame]
      exact ranked.cache
    · rw [calls,evictions_append,quiet,List.append_nil]
      exact ranked.written
    · rw [frame]
      exact ranked.floor
    · rw [frame]
      exact ranked.age
    · rw [frame]
      exact ranked.clock

-- The order holds after each iteration of the write-back loop.
theorem Staged.descending (lawful : env.Lawful) (sound : Sound cfg env s) {swept : ThreadSafeUnorderedMap} {qs : Promises}
    {stages : Stages cfg env choice s.storage_batch {s.proxy with runningKeys:=swept,promises:=qs}}
    (staged : Staged s qs stages) (ordered : Descending s.proxy) (ran : stages.iterate n = .ok w) : Descending w.proxy := by
  obtain ⟨v,gone,_,_,again,progress⟩ := staged.iterations lawful sound n
  rw [ran] at again
  cases again
  have mids := staged.middle.untouched
  have bst : stages.middle.realBst = stages.topping.2 := mids.realBst
  have cache : stages.middle.cache = s.proxy.cache := mids.cache
  have doomed : stages.middle.keys_to_be_deleted = s.proxy.keys_to_be_deleted := mids.scheduled
  have queue := progress.queue
  rw [cache,doomed] at queue
  have old : ∀ kv ∈ s.proxy.cache.entries, v.proxy.realBst.freq kv.1 = s.proxy.realBst.freq kv.1 := by
    intro kv cached
    have held : kv.1 ∈ s.proxy.cache.held := Cache.mem_held.mpr ⟨kv.2,cached⟩
    have free : kv.1 ∉ s.proxy.keys_to_be_deleted := fun listed =>
      (sound.building.absent _ (sound.building.scheduled _ listed)).2 held
    rw [FrequencySmoother.freq,progress.freqs,doomed,if_neg (fun both => free both.1),bst,staged.moved.freqs,
      if_neg (fun read => staged.plan.uncached kv.1 read held)]
    rfl
  have passed : Fifo.Passed (fun kv => v.proxy.realBst.freq kv.1) gone v.proxy.cache.entries := by
    refine passed_queue sound ordered queue old ?_
    intro kv member
    obtain ⟨listed,free⟩ := List.mem_filter.mp member
    obtain ⟨k,read,rfl⟩ := List.mem_map.mp listed
    rw [FrequencySmoother.freq,progress.freqs,doomed,if_neg (fun both => of_decide_eq_true free both.1),bst,
      staged.moved.freqs,if_pos (List.mem_of_mem_take read)]
    rfl
  exact entries_descending.mp passed.staying

-- The proxy after one of the iterations of that loop.
def Iterated (cfg : Config) (env : Env) (s : Server) (choice : Choice) (p : Proxy) : Prop :=
  ∃ swept promises, s.proxy.runningKeys.tryClearAllPromises s.proxy.promises choice.walk = .ok (swept,promises) ∧
    ∃ stages : Stages cfg env choice s.storage_batch {s.proxy with runningKeys:=swept,promises:=promises},
      stages.Fetched ∧ ∃ n w, stages.iterate n = .ok w ∧ p = w.proxy

-- The proxy after one of the calls of create_security_batch that a request makes:
-- one for a PUT, one for each bucket of a GET.
def Handled (s : Server) : Request → Proxy → Prop
  | .put item ts v,p => ∃ t, s.serve (.put item ts v) = .ok t ∧ p = t.proxy
  | .get item a b,p => ∃ keys bst n t, get_split_keys s.proxy.realBst (Request.get item a b).operation.key = .ok (keys,bst) ∧
      requestKeys s.requests.length (keys.take n)
        {s with proxy:={s.proxy with realBst:=bst},requests:=s.requests ++ [.get item a b]} = .ok t ∧ p = t.proxy

theorem requestKeys_keeps (keys : List Str) (ran : requestKeys promise keys s = .ok t) :
    t.proxy.cache = s.proxy.cache ∧ t.proxy.realBst = s.proxy.realBst := by
  refine requestKeys_rule (I:=fun p _ => p.cache = s.proxy.cache ∧ p.realBst = s.proxy.realBst) keys ?_ ⟨rfl,rfl⟩ ran
  intro p batch key request_id q after _ done before
  cases done with
  | unknown qs dead set => exact before
  | given v running live source registered => exact before
  | pending live uncached unevicted => exact before

theorem handled_descending {item : Str} {a b : Int} (wf : (Request.get item a b).WellFormed) (ordered : Descending s.proxy)
    (handled : Handled s (.get item a b) p) : Descending p := by
  obtain ⟨keys,bst,n,t,split,ran,rfl⟩ := handled
  rw [get_split_keys_get _ wf.1 wf.2.1 wf.2.2] at split
  cases split
  obtain ⟨cache,real⟩ := requestKeys_keeps _ ran
  rw [Descending,cache,real]
  exact ordered

-- No live key is both read and written back by the batch between s and t.
def Apart (env : Env) (s t : Server) : Prop :=
  ∃ reads rounds writes, t.proxy.calls = s.proxy.calls ++
      (⟨.get_batch,t.proxy.timeStamp,reads⟩ :: rounds ++ [⟨.put_batch,t.proxy.timeStamp,writes⟩]) ∧
    (∀ c ∈ rounds, c.op = .delete_batch) ∧
    ∀ k ∈ s.proxy.realBst.accessFreqs, ∀ f g, env.label k f ∈ reads → env.label k g ∉ writes

-- With room for a whole batch in the cache, only what was cached before is evicted.
theorem Executed.evicted_cached (done : Executed cfg env s t real fake evicted) (sized : Sized cfg N C s)
    (wide : cfg.B-cfg.F ≤ C) (gone : kv ∈ evicted) : kv ∈ s.proxy.cache.entries := by
  have cached := sized.cached
  have count := done.plan.count
  have moved := done.count
  exact Fifo.gone_held done.queue (by omega) gone

theorem executed_apart (lawful : env.Lawful) (sound : Sound cfg env s) (done : Executed cfg env s t real fake evicted)
    (sized : Sized cfg N C s) (wide : cfg.B-cfg.F ≤ C) : Apart env s t := by
  obtain ⟨rounds,calls,deletes⟩ := done.calls
  refine ⟨_,rounds,_,calls,fun c member => (deletes c member).1,?_⟩
  intro k live f g read written
  have plain : k ∉ fake := fun isFake => sound.resident.real_ne_fake live (done.plan.fakeLive k isFake)
  rcases Executed.write_label lawful written with ⟨v,gone,_⟩ | ⟨isFake,_⟩
  · have held : k ∈ s.proxy.cache.held := Cache.mem_held.mpr ⟨v,done.evicted_cached sized wide gone⟩
    rcases Executed.read_label lawful read with ⟨isReal,_⟩ | ⟨isFake,_⟩
    · exact done.plan.uncached k isReal held
    · exact plain isFake
  · exact plain isFake

theorem ranked_layered (lawful : env.Lawful) (cfg : Config) (N C : Nat) :
    Layered cfg env (Retaining cfg) (fun s => (Known s ∧ Sized cfg N C s) ∧ ∃ marks, Ranked cfg env marks s.proxy) :=
  (sized_layered cfg env N C).add (fun _ _ _ sound _ ranked _ stepped => stepped.ranked lawful sound ranked)

end TsWaffle
