import TsWaffle.Novelty

namespace TsWaffle
open Text Runs Server
variable {cfg : Config} {env : Env} {s t : Server} {p : Proxy} {real fake : List Str} {evicted : List (Str × Str)}
  {pairs : List (Str × Str)} {draws : Draws} {k : Str}

-- A label under which a key is kept now.
def RealLabel (env : Env) (p : Proxy) (l : Str) : Prop :=
  ∃ k ∈ p.realBst.accessFreqs, l = env.label k (p.realBst.freq k)
def FakeLabel (env : Env) (p : Proxy) (l : Str) : Prop :=
  ∃ k ∈ p.fakeBst.accessFreqs, l = env.label k (p.fakeBst.freq k)

-- One list of labels a batch passes to the storage: B of them, no two the same,
-- F of them fake.
structure Uniform (cfg : Config) (env : Env) (p : Proxy) (labels : List Str) : Prop where
  count : labels.length = cfg.B
  distinct : labels.Nodup
  parts : ∃ real fake, labels = real ++ fake ∧ real.length = cfg.B-cfg.F ∧ fake.length = cfg.F ∧
    (∀ l ∈ real, RealLabel env p l) ∧ ∀ l ∈ fake, FakeLabel env p l

namespace Executed

theorem through_nodup (done : Executed cfg env s t real fake evicted) :
    ((evicted ++ t.proxy.cache.entries.reverse).map Prod.fst).Nodup :=
  queue_nodup done.plan.distinct done.plan.uncached (fun k => (s.last k).getD []) _ done.queue

theorem evicted_nodup (done : Executed cfg env s t real fake evicted) : (evicted.map Prod.fst).Nodup := by
  have whole := done.through_nodup
  rw [List.map_append] at whole
  exact (List.nodup_append.mp whole).1

theorem evicted_not_held (done : Executed cfg env s t real fake evicted) (gone : (k,v) ∈ evicted) :
    k ∉ t.proxy.cache.held := by
  intro held
  have whole := done.through_nodup
  rw [List.map_append] at whole
  refine (List.nodup_append.mp whole).2.2 k (List.mem_map.mpr ⟨(k,v),gone,rfl⟩) k ?_ rfl
  rw [List.map_reverse,List.mem_reverse]
  exact held

-- An evicted key was read by this batch and has its new frequency, or it was
-- cached before and keeps the one it had.
theorem evicted_freq (done : Executed cfg env s t real fake evicted) (sound : Sound cfg env s)
    (gone : (k,v) ∈ evicted) : k ∈ t.proxy.realBst.accessFreqs ∧
      ((k ∈ real ∧ t.proxy.realBst.freq k = t.proxy.timeStamp) ∨
        (k ∈ s.proxy.cache.held ∧ k ∉ real ∧ t.proxy.realBst.freq k = s.proxy.realBst.freq k)) := by
  have member : (k,v) ∈ evicted ++ t.proxy.cache.entries.reverse := List.mem_append_left _ gone
  obtain ⟨free,live,_⟩ := done.through_live sound (k,v) member
  refine ⟨done.live_iff.mpr ⟨free,live⟩,?_⟩
  rcases done.through sound (k,v) member with cached | ⟨read,_,_⟩
  · have held : k ∈ s.proxy.cache.held := Cache.mem_held.mpr ⟨v,cached⟩
    have unread : k ∉ real := fun read => done.plan.uncached k read held
    refine .inr ⟨held,unread,?_⟩
    rw [FrequencySmoother.freq,done.freqs,if_neg free,if_neg unread]
    rfl
  · refine .inl ⟨read,?_⟩
    rw [FrequencySmoother.freq,done.freqs,if_neg free,if_pos read,done.clock]
    rfl

theorem fake_freq (done : Executed cfg env s t real fake evicted) (read : k ∈ fake) :
    t.proxy.fakeBst.freq k = t.proxy.timeStamp := by
  rw [FrequencySmoother.freq,done.fakeFreqs,if_pos read,done.clock]
  rfl

theorem write_label (lawful : env.Lawful) (member : env.label k g ∈ writeLabels env p evicted fake) :
    (∃ v, (k,v) ∈ evicted ∧ g = p.realBst.freq k) ∨ (k ∈ fake ∧ g = p.timeStamp) := by
  rcases List.mem_append.mp member with wasReal | wasFake
  · obtain ⟨kv,gone,same⟩ := List.mem_map.mp wasReal
    obtain ⟨rfl,rfl⟩ := env.label_injective lawful same
    exact .inl ⟨kv.2,gone,rfl⟩
  · obtain ⟨a,listed,same⟩ := List.mem_map.mp wasFake
    obtain ⟨rfl,rfl⟩ := env.label_injective lawful same
    exact .inr ⟨listed,rfl⟩

theorem writes_nodup (lawful : env.Lawful) (done : Executed cfg env s t real fake evicted) (sound : Sound cfg env s) :
    (writeLabels env t.proxy evicted fake).Nodup := by
  refine List.nodup_append.mpr ⟨?_,?_,?_⟩
  · have shape : evicted.map (fun kv => env.label kv.1 (t.proxy.realBst.freq kv.1)) =
        (evicted.map Prod.fst).map (fun k => env.label k (t.proxy.realBst.freq k)) := by
      rw [List.map_map]
      rfl
    rw [shape]
    exact done.evicted_nodup.map_on (fun a _ b _ same => (env.label_injective lawful same).1)
  · exact done.plan.fakeDistinct.map_on (fun a _ b _ same => (env.label_injective lawful same).1)
  · intro a inReal b inFake same
    obtain ⟨kv,gone,rfl⟩ := List.mem_map.mp inReal
    obtain ⟨l,read,rfl⟩ := List.mem_map.mp inFake
    obtain ⟨equal,_⟩ := env.label_injective lawful same
    have live := (done.through_live sound kv (List.mem_append_left _ gone)).2.1
    exact sound.resident.real_ne_fake live (equal ▸ done.plan.fakeLive l read)

-- A key that is read gets a new frequency, so its label is not written again; a
-- key that was cached is not read.
theorem reads_unwritten (lawful : env.Lawful) (done : Executed cfg env s t real fake evicted) (sound : Sound cfg env s)
    (read : l ∈ readLabels env s.proxy real fake) : l ∉ writeLabels env t.proxy evicted fake := by
  have valid := sound.resident
  intro written
  have clock := done.clock
  rcases mem_readLabels.mp read with ⟨k,isReal,rfl⟩ | ⟨k,isFake,rfl⟩
  · have age := valid.age k _ (FrequencySmoother.freq_find (done.plan.live k isReal))
    rcases write_label lawful written with ⟨v,gone,same⟩ | ⟨other,_⟩
    · rcases (done.evicted_freq sound gone).2 with ⟨_,now⟩ | ⟨_,unread,_⟩
      · omega
      · exact unread isReal
    · exact valid.real_ne_fake (done.plan.live k isReal) (done.plan.fakeLive k other)
  · have age := valid.fakeAge k _ (FrequencySmoother.freq_find (done.plan.fakeLive k isFake))
    rcases write_label lawful written with ⟨v,gone,_⟩ | ⟨_,now⟩
    · have live := (done.through_live sound (k,v) (List.mem_append_left _ gone)).2.1
      exact valid.real_ne_fake live (done.plan.fakeLive k isFake)
    · omega

theorem reads_uniform (lawful : env.Lawful) (done : Executed cfg env s t real fake evicted) (sound : Sound cfg env s) :
    Uniform cfg env s.proxy (readLabels env s.proxy real fake) := by
  have count := done.plan.count
  have fakeCount := done.plan.fakeCount
  refine ⟨?_,rows_nodup lawful sound.resident done.plan,(realRows env s.proxy real).map Prod.fst,
    (fakeRows env s.proxy fake).map Prod.fst,List.map_append,?_,?_,?_,?_⟩
  · simp only [readLabels,batchRows,realRows,fakeRows,List.length_map,List.length_append]
    omega
  · simp only [realRows,List.length_map]
    omega
  · simpa only [fakeRows,List.length_map] using fakeCount
  · intro l member
    simp only [realRows,List.map_map,List.mem_map] at member
    obtain ⟨k,read,rfl⟩ := member
    exact ⟨k,done.plan.live k read,rfl⟩
  · intro l member
    simp only [fakeRows,List.map_map,List.mem_map] at member
    obtain ⟨k,read,rfl⟩ := member
    exact ⟨k,done.plan.fakeLive k read,rfl⟩

theorem writes_uniform (lawful : env.Lawful) (done : Executed cfg env s t real fake evicted) (sound : Sound cfg env s) :
    Uniform cfg env t.proxy (writeLabels env t.proxy evicted fake) := by
  have count := done.plan.count
  have fakeCount := done.plan.fakeCount
  have moved := done.count
  refine ⟨?_,done.writes_nodup lawful sound,evicted.map (fun kv => env.label kv.1 (t.proxy.realBst.freq kv.1)),
    fake.map (fun k => env.label k t.proxy.timeStamp),rfl,?_,?_,?_,?_⟩
  · simp only [writeLabels,List.length_map,List.length_append]
    omega
  · simp only [List.length_map]
    omega
  · simpa only [List.length_map] using fakeCount
  · intro l member
    obtain ⟨⟨k,v⟩,gone,rfl⟩ := List.mem_map.mp member
    exact ⟨k,(done.evicted_freq sound gone).1,rfl⟩
  · intro l member
    obtain ⟨k,read,rfl⟩ := List.mem_map.mp member
    exact ⟨k,done.fake_iff.mpr (done.plan.fakeLive k read),by rw [done.fake_freq read]⟩

end Executed

-- What the server sees of a batch executed from s to t.
structure BatchShape (cfg : Config) (env : Env) (s t : Server) : Prop where
  calls : ∃ reads writes rounds, t.proxy.calls = s.proxy.calls ++
      (⟨.get_batch,t.proxy.timeStamp,reads⟩ :: rounds ++ [⟨.put_batch,t.proxy.timeStamp,writes⟩]) ∧
    (∀ c ∈ rounds, c.op = .delete_batch) ∧ Uniform cfg env s.proxy reads ∧ Uniform cfg env t.proxy writes ∧
    ∀ l ∈ reads, l ∉ writes

end TsWaffle
