import TsWaffle.Closing
import TsWaffle.Storing

namespace TsWaffle
open Text
variable {cfg : Config} {env : Env} {s t : Server} {real fake : List Str} {evicted : List (Str × Str)}

namespace Executed

theorem last_eq (done : Executed cfg env s t real fake evicted) : t.last = s.last := by
  funext k
  rw [done.frame]
  rfl

theorem requests_eq (done : Executed cfg env s t real fake evicted) : t.requests = s.requests := by
  rw [done.frame]

theorem writes_eq (done : Executed cfg env s t real fake evicted) : t.writes = s.writes := by
  rw [done.frame]
  rfl

-- A pair that has been in the cache during the batch: cached before, or read.
theorem through (done : Executed cfg env s t real fake evicted) (sound : Sound cfg env s) (kv : Str × Str)
    (member : kv ∈ evicted ++ t.proxy.cache.entries.reverse) :
    kv ∈ s.proxy.cache.entries ∨
      (kv.1 ∈ real ∧ kv.1 ∉ s.proxy.keys_to_be_deleted ∧ s.last kv.1 = some kv.2) := by
  rw [done.queue] at member
  simp only [List.mem_append,List.mem_reverse,List.mem_map,List.mem_filter,decide_eq_true_eq] at member
  rcases member with cached | ⟨k,⟨read,free⟩,rfl⟩
  · exact .inl cached
  · have value := (rows_stored sound.resident done.plan).2 k read
    exact .inr ⟨read,free,by rw [value]; rfl⟩

theorem through_live (done : Executed cfg env s t real fake evicted) (sound : Sound cfg env s) (kv : Str × Str)
    (member : kv ∈ evicted ++ t.proxy.cache.entries.reverse) :
    kv.1 ∉ s.proxy.keys_to_be_deleted ∧ kv.1 ∈ s.proxy.realBst.accessFreqs ∧ s.last kv.1 = some kv.2 := by
  rcases done.through sound kv member with cached | ⟨read,free,value⟩
  · have held : kv.1 ∈ s.proxy.cache.held := Cache.mem_held.mpr ⟨kv.2,cached⟩
    refine ⟨fun doomed => ?_,sound.resident.live _ held,sound.resident.cached _ _ cached⟩
    exact (sound.building.absent _ (sound.building.scheduled _ doomed)).2 held
  · exact ⟨free,done.plan.live _ read,value⟩

theorem passes_cached (done : Executed cfg env s t real fake evicted) (cached : kv ∈ s.proxy.cache.entries) :
    kv ∈ evicted ++ t.proxy.cache.entries.reverse := by
  rw [done.queue]
  exact List.mem_append_left _ (List.mem_reverse.mpr cached)

theorem passes_read (done : Executed cfg env s t real fake evicted) (read : k ∈ real)
    (free : k ∉ s.proxy.keys_to_be_deleted) :
    (k,(s.last k).getD []) ∈ evicted ++ t.proxy.cache.entries.reverse := by
  rw [done.queue]
  exact List.mem_append_right _ (List.mem_map.mpr ⟨k,List.mem_filter.mpr ⟨read,by simpa using free⟩,rfl⟩)

theorem live_iff (done : Executed cfg env s t real fake evicted) :
    k ∈ t.proxy.realBst.accessFreqs ↔ k ∉ s.proxy.keys_to_be_deleted ∧ k ∈ s.proxy.realBst.accessFreqs := by
  rw [Table.mem_iff,done.freqs]
  by_cases doomed : k ∈ s.proxy.keys_to_be_deleted
  · simp [doomed]
  · by_cases read : k ∈ real
    · simp [doomed,read,done.plan.live k read]
    · simp [doomed,read,Table.mem_iff]

theorem fake_iff (done : Executed cfg env s t real fake evicted) :
    k ∈ t.proxy.fakeBst.accessFreqs ↔ k ∈ s.proxy.fakeBst.accessFreqs := by
  rw [Table.mem_iff,done.fakeFreqs]
  by_cases read : k ∈ fake
  · simp [read,done.plan.fakeLive k read]
  · simp [read,Table.mem_iff]

-- A label of a key that was neither evicted nor read as a fake is not written.
theorem unwritten (lawful : env.Lawful) (stays : ∀ v, (k,v) ∉ evicted) (plain : k ∉ fake) :
    env.label k f ∉ writeLabels env p evicted fake := by
  intro member
  rcases List.mem_append.mp member with wasReal | wasFake
  · obtain ⟨kv,gone,same⟩ := List.mem_map.mp wasReal
    obtain ⟨rfl,_⟩ := env.label_injective lawful same
    exact stays kv.2 gone
  · obtain ⟨a,listed,same⟩ := List.mem_map.mp wasFake
    obtain ⟨rfl,_⟩ := env.label_injective lawful same
    exact plain listed

theorem logged_reads (done : Executed cfg env s t real fake evicted) :
    logged .get_batch t.proxy.calls = logged .get_batch s.proxy.calls ++ readLabels env s.proxy real fake := by
  obtain ⟨rounds,calls,deletes⟩ := done.calls
  have none : logged .get_batch rounds = [] := logged_other (fun c member => by simp [(deletes c member).1])
  rw [calls,logged_append,List.cons_append,← List.singleton_append,logged_append,logged_append,none]
  simp [logged]

theorem logged_writes (done : Executed cfg env s t real fake evicted) :
    logged .put_batch t.proxy.calls = logged .put_batch s.proxy.calls ++ writeLabels env t.proxy evicted fake := by
  obtain ⟨rounds,calls,deletes⟩ := done.calls
  have none : logged .put_batch rounds = [] := logged_other (fun c member => by simp [(deletes c member).1])
  rw [calls,logged_append,List.cons_append,← List.singleton_append,logged_append,logged_append,none]
  simp [logged]

theorem read_label (lawful : env.Lawful) (member : env.label k g ∈ readLabels env p real fake) :
    (k ∈ real ∧ g = p.realBst.freq k) ∨ (k ∈ fake ∧ g = p.fakeBst.freq k) := by
  rcases mem_readLabels.mp member with ⟨a,read,same⟩ | ⟨a,read,same⟩
  · obtain ⟨rfl,rfl⟩ := env.label_injective lawful same
    exact .inl ⟨read,rfl⟩
  · obtain ⟨rfl,rfl⟩ := env.label_injective lawful same
    exact .inr ⟨read,rfl⟩

end Executed

-- A live key that is not cached after the batch was evicted by it, or has stayed
-- where it was.
theorem executed_stored (lawful : env.Lawful) (sound : Sound cfg env s)
    (done : Executed cfg env s t real fake evicted) (found : t.proxy.realBst.accessFreqs.find? k = some f)
    (uncached : k ∉ t.proxy.cache.held) :
    ∃ c, t.proxy.storage.find? (env.label k f) = some c ∧ s.last k = some (env.decryptNonDeterministic c) := by
  have current : t.proxy.realBst.freq k = f := by simp [FrequencySmoother.freq,found]
  obtain ⟨free,live⟩ := done.live_iff.mp (Table.mem_iff.mpr ⟨f,found⟩)
  by_cases passed : ∃ v, (k,v) ∈ evicted ++ t.proxy.cache.entries.reverse
  · obtain ⟨v,member⟩ := passed
    have gone : (k,v) ∈ evicted := by
      refine (List.mem_append.mp member).resolve_right ?_
      intro kept
      exact uncached (Cache.mem_held.mpr ⟨v,List.mem_reverse.mp kept⟩)
    obtain ⟨c,stored,value⟩ := done.stored (k,v) gone
    dsimp only at stored value
    rw [current] at stored
    refine ⟨c,stored,?_⟩
    rw [(done.through_live sound (k,v) member).2.2,value]
  · have unread : k ∉ real := fun read => passed ⟨_,done.passes_read read free⟩
    have before : k ∉ s.proxy.cache.held := by
      intro held
      obtain ⟨v,cached⟩ := Cache.mem_held.mp held
      exact passed ⟨v,done.passes_cached cached⟩
    rw [done.freqs,if_neg free,if_neg unread] at found
    obtain ⟨c,stored,value⟩ := sound.resident.stored k f found before
    refine ⟨c,?_,value⟩
    rw [done.kept _ (Executed.unwritten lawful (fun v gone => passed ⟨v,List.mem_append_left _ gone⟩)
      (fun isFake => sound.resident.real_ne_fake live (done.plan.fakeLive k isFake)))
      (sound.resident.unqueued (.inl found))]
    exact stored

theorem executed_fakeStored (lawful : env.Lawful) (sound : Sound cfg env s)
    (done : Executed cfg env s t real fake evicted) (found : t.proxy.fakeBst.accessFreqs.find? k = some f) :
    env.label k f ∈ t.proxy.storage := by
  have live : k ∈ s.proxy.fakeBst.accessFreqs := done.fake_iff.mp (Table.mem_iff.mpr ⟨f,found⟩)
  rcases done.fakeFreq_now found with ⟨read,rfl⟩ | ⟨unread,before⟩
  · rw [← done.clock]
    exact done.fakeStored k read
  · have stored := sound.resident.fakeStored k f before
    rw [Table.mem_iff] at stored ⊢
    rw [done.kept _ (Executed.unwritten lawful ?_ unread) (sound.resident.unqueued (.inr before))]
    · exact stored
    · intro v gone
      exact sound.resident.real_ne_fake (done.through_live sound (k,v) (List.mem_append_left _ gone)).2.1 live

-- What the batch has read is behind the new clock, and so is every older read.
theorem executed_reads (lawful : env.Lawful) (sound : Sound cfg env s)
    (done : Executed cfg env s t real fake evicted) (member : env.label k g ∈ logged .get_batch t.proxy.calls) :
    g < t.proxy.timeStamp ∧ (∀ f, t.proxy.realBst.accessFreqs.find? k = some f → g < f) ∧
      ∀ f, t.proxy.fakeBst.accessFreqs.find? k = some f → g < f := by
  have valid := sound.resident
  have behind : g < s.proxy.timeStamp+1 ∧
      (∀ f, k ∉ real → s.proxy.realBst.accessFreqs.find? k = some f → g < f) ∧
      ∀ f, k ∉ fake → s.proxy.fakeBst.accessFreqs.find? k = some f → g < f := by
    rw [done.logged_reads,List.mem_append] at member
    rcases member with old | new
    · obtain ⟨clock,isReal,isFake⟩ := valid.reads k g old
      exact ⟨by omega,fun f _ => isReal f,fun f _ => isFake f⟩
    · rcases Executed.read_label lawful new with ⟨read,rfl⟩ | ⟨read,rfl⟩
      · have age := valid.age k _ (FrequencySmoother.freq_find (done.plan.live k read))
        refine ⟨by omega,fun f other => absurd read other,fun f _ found => ?_⟩
        exact absurd (Table.mem_iff.mpr ⟨f,found⟩) (valid.real_ne_fake (done.plan.live k read))
      · have age := valid.fakeAge k _ (FrequencySmoother.freq_find (done.plan.fakeLive k read))
        refine ⟨by omega,fun f _ found => ?_,fun f other => absurd read other⟩
        exact absurd (done.plan.fakeLive k read) (valid.real_ne_fake (Table.mem_iff.mpr ⟨f,found⟩))
  obtain ⟨clock,isReal,isFake⟩ := behind
  rw [done.clock]
  refine ⟨clock,?_,?_⟩
  · intro f found
    rcases done.freq_now found with ⟨_,rfl⟩ | ⟨unread,before⟩
    · exact clock
    · exact isReal f unread before
  · intro f found
    rcases done.fakeFreq_now found with ⟨_,rfl⟩ | ⟨unread,before⟩
    · exact clock
    · exact isFake f unread before

theorem executed_resident (lawful : env.Lawful) (sound : Sound cfg env s)
    (done : Executed cfg env s t real fake evicted) : Resident cfg env t.last t.proxy := by
  have valid := sound.resident
  rw [done.last_eq]
  refine ⟨done.exact,?_,?_,?_,?_,done.items,done.fakeTree,?_,?_,?_,?_,?_,?_⟩
  · intro k f found
    rw [done.clock]
    rcases done.freq_now found with ⟨_,rfl⟩ | ⟨_,before⟩
    · exact le_refl _
    · have age := valid.age k f before
      omega
  · intro k held
    obtain ⟨v,member⟩ := Cache.mem_held.mp held
    obtain ⟨free,live,_⟩ := done.through_live sound (k,v) (by simp [member])
    exact done.live_iff.mpr ⟨free,live⟩
  · intro k v member
    exact (done.through_live sound (k,v) (by simp [member])).2.2
  · intro k f found uncached
    exact executed_stored lawful sound done found uncached
  · intro k member
    exact valid.fakeNames k (done.fake_iff.mp member)
  · intro k f found
    rw [done.clock]
    rcases done.fakeFreq_now found with ⟨_,rfl⟩ | ⟨_,before⟩
    · exact le_refl _
    · have age := valid.fakeAge k f before
      omega
  · intro k f found
    exact executed_fakeStored lawful sound done found
  · obtain ⟨names,distinct,many,live⟩ := valid.fakeCount
    exact ⟨names,distinct,many,fun k member => done.fake_iff.mpr (live k member)⟩
  · intro row member l listed
    rw [done.logged_reads]
    rcases done.unused row member with old | new
    · exact List.mem_append_left _ (valid.queue row old l listed)
    · exact List.mem_append_right _ (new ▸ listed)
  · intro k g member
    exact executed_reads lawful sound done member

theorem executed_building (sound : Sound cfg env s) (done : Executed cfg env s t real fake evicted) :
    Building t.request_id t := by
  have frame := done.frame
  have batch : t.storage_batch = [] := by rw [frame]
  have requests : t.requests = s.requests := by rw [frame]
  refine ⟨by simp [batch],by simp [batch],?_,by simp [done.cleared],?_,?_,?_,?_,?_⟩
  · intro k
    simp [batch,done.settled,ThreadSafeUnorderedMap.present,ThreadSafeUnorderedMap.empty]
  · rw [done.settled]
    exact ThreadSafeUnorderedMap.empty_registered _
  · simp [done.settled,ThreadSafeUnorderedMap.empty]
  · simp [done.settled,ThreadSafeUnorderedMap.empty]
  · intro n member
    rw [requests]
    by_cases owned : ∃ id ks, s.proxy.runningKeys.request_map.find? id = some (ks,some n)
    · obtain ⟨id,ks,row⟩ := owned
      exact sound.building.owners id ks n row
    · have same := done.others n (fun id ks row => owned ⟨id,ks,row⟩)
      apply sound.building.answered n
      rw [Table.mem_iff] at member ⊢
      rw [← same]
      exact member
  · simp [done.settled,ThreadSafeUnorderedMap.empty]

-- Every scheduled key costs the cache one entry, and there was one more.
theorem executed_roomy (sound : Sound cfg env s) (done : Executed cfg env s t real fake evicted) : Roomy t.proxy := by
  have lengths := congrArg List.length done.queue
  have parts := List.length_eq_length_filter_add (l:=real) (fun k => decide (k ∈ s.proxy.keys_to_be_deleted))
  have bound : (real.filter (fun k => decide (k ∈ s.proxy.keys_to_be_deleted))).length ≤
      s.proxy.keys_to_be_deleted.dedup.length := by
    apply (List.subperm_of_subset (done.plan.distinct.filter _) ?_).length_le
    intro k member
    rw [List.mem_dedup]
    simpa using (List.mem_filter.mp member).2
  have room := sound.roomy
  have count := done.count
  unfold Roomy at room ⊢
  simp only [List.length_append,List.length_reverse,List.length_map,decide_not] at lengths
  rw [done.cleared]
  simp only [List.dedup_nil,List.length_nil]
  omega

theorem executed_sound (lawful : env.Lawful) (sound : Sound cfg env s)
    (done : Executed cfg env s t real fake evicted) : Sound cfg env t :=
  ⟨executed_resident lawful sound done,executed_building sound done,executed_roomy sound done⟩

-- clearThread between two steps of the consumer.
theorem cleared_sound (sound : Sound cfg env s) (cleared : Cleared s.proxy p) :
    Sound cfg env {s with proxy:=p} := by
  have valid := sound.resident
  have building := sound.building
  obtain ⟨rounds,calls,deletes⟩ := cleared.deletes
  have frame := cleared.frame
  have reads : logged .get_batch p.calls = logged .get_batch s.proxy.calls := by
    have none : logged .get_batch rounds = [] := logged_other (fun c member => by simp [(deletes c member).1])
    rw [calls,logged_append,none,List.append_nil]
  refine ⟨?_,?_,?_⟩
  · rw [frame]
    refine {valid with stored:=?_,fakeStored:=?_,queue:=?_,reads:=?_}
    · intro k f found uncached
      obtain ⟨c,stored,value⟩ := valid.stored k f found uncached
      exact ⟨c,(cleared.kept _ (valid.unqueued (.inl found))).trans stored,value⟩
    · intro k f found
      have stored := valid.fakeStored k f found
      rw [Table.mem_iff] at stored ⊢
      exact (cleared.kept _ (valid.unqueued (.inr found))).symm ▸ stored
    · intro row member l listed
      exact reads.symm ▸ valid.queue row (cleared.queue row member) l listed
    · intro k g member
      exact valid.reads k g (reads ▸ member)
  · rw [frame]
    exact {building with}
  · rw [frame]
    exact sound.roomy

end TsWaffle
