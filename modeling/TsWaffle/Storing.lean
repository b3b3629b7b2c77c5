import TsWaffle.Serving
import TsWaffle.WritingBack

namespace TsWaffle
open Text
variable {cfg : Config} {env : Env} {last : Str → Option Str} {s : Server} {item o v : Str} {ts : Int} {bound : Int}

namespace Server

-- What remove_oldest_data does with the oldest bucket o.
def retire (s : Server) (o : Str) : Server :=
  if o ∈ s.proxy.cache.held then
    {s with proxy:={s.proxy with cache:=(s.proxy.cache.removeKey o).1,realBst:=(s.proxy.realBst.removeKey o).1}}
  else
    {s with proxy:={s.proxy with runningKeys:=(s.proxy.runningKeys.insertIfNotPresent o).2,
                                 keys_to_be_deleted:=s.proxy.keys_to_be_deleted ++ [o]},
            storage_batch:=if s.proxy.runningKeys.present o then s.storage_batch else s.storage_batch ++ [o]}

-- What the rest of a PUT does.
def record (s : Server) (item : Str) (ts : Int) (v : Str) : Server :=
  {s with proxy:={s.proxy with cache:=s.proxy.cache.insertIntoCache (bucketKey item ts) v,
                               realBst:=s.proxy.realBst.store (bucketKey item ts) s.proxy.timeStamp,
                               promises:=s.proxy.promises.insert s.requests.length (.stored v)},
          i:=s.i+1,requests:=s.requests ++ [.put item ts v]}

theorem last_record (s : Server) (item : Str) (ts : Int) (v k : Str) :
    (s.record item ts v).last k = if k = bucketKey item ts then some v else s.last k := by
  have one : [Request.put item ts v].filterMap Request.written = [(bucketKey item ts,v)] := rfl
  simp only [last,writes,record,List.filterMap_append,one,← List.append_assoc]
  rw [lastIn_append]
  by_cases same : k = bucketKey item ts
  · simp [lastIn,same]
  · simp [lastIn,same,Ne.symm same]

end Server

theorem insertReal_ok {p : Proxy} (stamped : p.realBst.needTimeStamp = true) (wf : WellFormed item ts) :
    p.insertReal (bucketKey item ts) = .ok {p with realBst:=(p.realBst.insert (bucketKey item ts)).1} := by
  have inserted := (FrequencySmoother.insert_wellFormed stamped wf).1
  unfold Proxy.insertReal
  split
  · rename_i bst fault shape
    rw [shape] at inserted
    cases inserted
  · rename_i bst shape
    rw [shape]

theorem remove_oldest_data_eq (valid : Resident cfg env last s.proxy) (wf : WellFormed item ts)
    (oldest : s.proxy.realBst.Oldest item u) :
    s.proxy.remove_oldest_data s.storage_batch (bucketKey item ts) =
      .ok ((s.retire (bucketKey item u)).proxy,(s.retire (bucketKey item u)).storage_batch) := by
  obtain ⟨w,chosen,least⟩ := FrequencySmoother.getOldestKey_wellFormed wf oldest.1 s.proxy.keys_to_be_deleted
  obtain rfl := FrequencySmoother.oldest_unique least oldest
  have live : bucketKey item w ∈ s.proxy.realBst.accessFreqs := ((valid.exact.index item w).mp oldest.1).2
  have unevicted : evictedValue s.proxy.EvictedItems (bucketKey item w) = [] := by simp [evictedValue,valid.items]
  by_cases held : bucketKey item w ∈ s.proxy.cache.held
  · obtain ⟨x,present⟩ := Cache.mem_held.mp held
    have removed := (removeReal_ok (s:={s.proxy with cache:=(s.proxy.cache.removeKey (bucketKey item w)).1})
      valid.exact live).1
    simp only [Proxy.remove_oldest_data,chosen,bind,Except.bind,(Cache.get_present present).1,unevicted,ne_eq,
      not_true_eq_false,if_false,if_true,one_ne_zero,removed,Server.retire,held]
    rfl
  · simp only [Proxy.remove_oldest_data,chosen,bind,Except.bind,Cache.get_absent held,unevicted,ne_eq,
      not_true_eq_false,if_false,if_true,Bool.false_eq_true,Server.retire,held]
    rfl

theorem retire_cached (held : o ∈ s.proxy.cache.held) : s.retire o =
    {s with proxy:={s.proxy with cache:=(s.proxy.cache.removeKey o).1,realBst:=(s.proxy.realBst.removeKey o).1}} :=
  if_pos held

theorem retire_uncached (absent : o ∉ s.proxy.cache.held) : s.retire o =
    {s with proxy:={s.proxy with runningKeys:=(s.proxy.runningKeys.insertIfNotPresent o).2,
                                 keys_to_be_deleted:=s.proxy.keys_to_be_deleted ++ [o]},
            storage_batch:=if s.proxy.runningKeys.present o then s.storage_batch else s.storage_batch ++ [o]} :=
  if_neg absent

theorem store_live (bst : FrequencySmoother) (key k : Str) (clock : Int) :
    k ∈ (bst.store key clock).accessFreqs ↔ k = key ∨ k ∈ bst.accessFreqs := by
  rw [Table.mem_iff,Table.mem_iff,FrequencySmoother.store_freqs]
  by_cases same : k = key <;> simp [same]

theorem retire_resident (valid : Resident cfg env last s.proxy) (live : o ∈ s.proxy.realBst.accessFreqs) :
    Resident cfg env last (s.retire o).proxy := by
  by_cases held : o ∈ s.proxy.cache.held
  · rw [retire_cached held]
    have before : ∀ k f, (s.proxy.realBst.removeKey o).1.accessFreqs.find? k = some f →
        k ≠ o ∧ s.proxy.realBst.accessFreqs.find? k = some f := by
      intro k f found
      rw [FrequencySmoother.removeKey_freqs] at found
      by_cases same : k = o
      · rw [if_pos same] at found; cases found
      · rw [if_neg same] at found; exact ⟨same,found⟩
    refine {valid with exact:=(removeReal_ok valid.exact live).2,age:=?_,live:=?_,cached:=?_,stored:=?_,reads:=?_}
    · intro k f found
      exact valid.age k f (before k f found).2
    · intro k member
      obtain ⟨differs,old⟩ := (Cache.mem_held_remove _ _ _).mp member
      exact (FrequencySmoother.removeKey_live _ _ _).mpr ⟨differs,valid.live k old⟩
    · intro k v member
      rw [Cache.removeKey_entries] at member
      exact valid.cached k v (List.mem_of_mem_filter member)
    · intro k f found uncached
      obtain ⟨differs,old⟩ := before k f found
      exact valid.stored k f old (fun present => uncached ((Cache.mem_held_remove _ _ _).mpr ⟨differs,present⟩))
    · intro k g member
      obtain ⟨clock,real,fake⟩ := valid.reads k g member
      exact ⟨clock,fun f found => real f (before k f found).2,fake⟩
  · rw [retire_uncached held]
    exact {valid with}

theorem retire_building (building : Building bound s) (live : o ∈ s.proxy.realBst.accessFreqs) :
    Building bound (s.retire o) := by
  by_cases held : o ∈ s.proxy.cache.held
  · rw [retire_cached held]
    refine {building with absent:=?_,supplied:=?_}
    · intro k member
      obtain ⟨present,uncached⟩ := building.absent k member
      have differs : k ≠ o := by rintro rfl; exact uncached held
      exact ⟨(FrequencySmoother.removeKey_live _ _ _).mpr ⟨differs,present⟩,
        fun now => uncached ((Cache.mem_held_remove _ _ _).mp now).2⟩
    · intro k member
      by_cases same : k = o
      · exact .inr (fun present => ((FrequencySmoother.removeKey_live _ _ _).mp present).1 same)
      · rcases building.supplied k member with cached | dead
        · exact .inl ((Cache.mem_held_remove _ _ _).mpr ⟨same,cached⟩)
        · exact .inr (fun present => dead ((FrequencySmoother.removeKey_live _ _ _).mp present).2)
  · rw [retire_uncached held]
    have member := mem_enqueued (building.running o)
    have registered : (s.proxy.runningKeys.insertIfNotPresent o).2.Registered s.proxy.promises :=
      ⟨building.registered.rows,building.registered.owners,building.registered.waiting,building.registered.cached⟩
    refine {building with distinct:=?_,absent:=?_,running:=?_,scheduled:=?_,registered:=registered}
    · exact enqueued_nodup (building.running o) building.distinct
    · intro k listed
      rcases (member k).mp listed with rfl | old
      · exact ⟨live,held⟩
      · exact building.absent k old
    · intro k
      exact (ThreadSafeUnorderedMap.insertIfNotPresent_present _ _ _).trans
        ((or_congr_right (building.running k)).trans (member k).symm)
    · intro k doomed
      rcases List.mem_append.mp doomed with old | new
      · exact (member k).mpr (.inr (building.scheduled k old))
      · exact (member k).mpr (.inl (List.mem_singleton.mp new))

-- A frequency that insert and setFrequency move to the clock without a trace.
def Clean (s : Proxy) (k : Str) : Prop :=
  ∀ f, s.realBst.accessFreqs.find? k = some f → f = 0 ∨ f = s.timeStamp

theorem record_resident (valid : Resident cfg env s.last s.proxy) (wf : WellFormed item ts)
    (clean : Clean s.proxy (bucketKey item ts)) (v : Str) :
    Resident cfg env (s.record item ts v).last (s.record item ts v).proxy := by
  have freqs : ∀ k f, (s.proxy.realBst.store (bucketKey item ts) s.proxy.timeStamp).accessFreqs.find? k = some f →
      (k = bucketKey item ts ∧ f = s.proxy.timeStamp) ∨
        (k ≠ bucketKey item ts ∧ s.proxy.realBst.accessFreqs.find? k = some f) := by
    intro k f found
    rw [FrequencySmoother.store_freqs] at found
    by_cases same : k = bucketKey item ts
    · rw [if_pos same] at found
      cases found
      exact .inl ⟨same,rfl⟩
    · rw [if_neg same] at found
      exact .inr ⟨same,found⟩
  refine ⟨FrequencySmoother.store_exact valid.exact wf _ clean,?_,?_,?_,?_,valid.items,valid.fakeTree,valid.fakeNames,
    valid.fakeAge,valid.fakeStored,valid.fakeCount,valid.queue,?_⟩
  · intro k f found
    rcases freqs k f found with ⟨_,now⟩ | ⟨_,old⟩
    · exact le_of_eq now
    · exact valid.age k f old
  · intro k member
    apply (store_live _ _ _ _).mpr
    exact ((Cache.mem_held_insert _ _ _ _).mp member).imp_right (valid.live k)
  · intro k w member
    simp only [Server.record,Cache.insertIntoCache_entries,List.mem_cons,Prod.mk.injEq,List.mem_filter,
      decide_eq_true_eq] at member
    rw [Server.last_record]
    rcases member with ⟨same,valued⟩ | ⟨old,differs⟩
    · rw [if_pos same,valued]
    · rw [if_neg differs]
      exact valid.cached k w old
  · intro k f found uncached
    rcases freqs k f found with ⟨same,_⟩ | ⟨differs,old⟩
    · exact absurd ((Cache.mem_held_insert _ _ _ _).mpr (.inl same)) uncached
    · rw [Server.last_record,if_neg differs]
      exact valid.stored k f old (fun present => uncached ((Cache.mem_held_insert _ _ _ _).mpr (.inr present)))
  · intro k g member
    obtain ⟨clock,real,fake⟩ := valid.reads k g member
    refine ⟨clock,?_,fake⟩
    intro f found
    rcases freqs k f found with ⟨_,now⟩ | ⟨_,old⟩
    · exact now ▸ clock
    · exact real f old

theorem record_building (building : Building bound s) (fresh : bucketKey item ts ∉ s.storage_batch) (v : Str) :
    Building bound (s.record item ts v) := by
  refine ⟨building.distinct,?_,building.running,building.scheduled,?_,building.ids,?_,?_,?_⟩
  · intro k member
    obtain ⟨live,uncached⟩ := building.absent k member
    refine ⟨(store_live _ _ _ _).mpr (.inr live),?_⟩
    intro held
    rcases (Cache.mem_held_insert _ _ _ _).mp held with same | old
    · exact fresh (same ▸ member)
    · exact uncached old
  · refine ⟨?_,building.registered.owners,building.registered.waiting,building.registered.cached⟩
    intro id ks op row
    obtain ⟨filled,⟨p,owned,unset⟩,supplied⟩ := building.registered.rows id ks op row
    refine ⟨filled,⟨p,owned,?_⟩,supplied⟩
    subst owned
    have below := building.owners id ks p row
    simp only [Server.record,Table.mem_insert]
    exact not_or.mpr ⟨by omega,unset⟩
  · intro id ks p row
    have below := building.owners id ks p row
    simp only [Server.record,List.length_append]
    omega
  · intro p member
    simp only [Server.record,Table.mem_insert,List.length_append,List.length_singleton] at member ⊢
    rcases member with same | old
    · omega
    · have below := building.answered p old
      omega
  · intro k member
    rcases building.supplied k member with cached | dead
    · exact .inl ((Cache.mem_held_insert _ _ _ _).mpr (.inr cached))
    · by_cases same : k = bucketKey item ts
      · exact .inl ((Cache.mem_held_insert _ _ _ _).mpr (.inl same))
      · exact .inr (fun live => ((store_live _ _ _ _).mp live).elim same dead)

@[simp] theorem retire_requests (s : Server) (o : Str) : (s.retire o).requests = s.requests := by
  unfold Server.retire; split <;> rfl
@[simp] theorem retire_loaded (s : Server) (o : Str) : (s.retire o).loaded = s.loaded := by
  unfold Server.retire; split <;> rfl
@[simp] theorem retire_i (s : Server) (o : Str) : (s.retire o).i = s.i := by
  unfold Server.retire; split <;> rfl
@[simp] theorem retire_request_id (s : Server) (o : Str) : (s.retire o).request_id = s.request_id := by
  unfold Server.retire; split <;> rfl
@[simp] theorem retire_timeStamp (s : Server) (o : Str) : (s.retire o).proxy.timeStamp = s.proxy.timeStamp := by
  unfold Server.retire; split <;> rfl
@[simp] theorem retire_last (s : Server) (o : Str) : (s.retire o).last = s.last := by
  funext k
  simp [Server.last,Server.writes]

theorem storeKey_eq {p q : Proxy} {batch more : List Str} {n : Nat} (stamped : q.realBst.needTimeStamp = true)
    (wf : WellFormed item ts) (unset : n ∉ q.promises)
    (retired : p.remove_oldest_data batch (bucketKey item ts) = .ok (q,more)) :
    p.storeKey batch (bucketKey item ts) v n =
      .ok ({q with cache:=q.cache.insertIntoCache (bucketKey item ts) v,
                   realBst:=q.realBst.store (bucketKey item ts) q.timeStamp,
                   promises:=q.promises.insert n (.stored v)},more) := by
  have inserted := insertReal_ok (p:={q with cache:=q.cache.insertIntoCache (bucketKey item ts) v}) stamped wf
  have value : (q.cache.insertIntoCache (bucketKey item ts) v).getValueWithoutPositionChange (bucketKey item ts) = v :=
    (Cache.get_present (by simp)).2
  simp only [Proxy.storeKey,retired,bind,Except.bind,inserted,value,set_value_fresh unset]
  rfl

-- A PUT retires the oldest bucket of its item and then writes its own.
theorem serve_put (valid : Resident cfg env s.last s.proxy) (building : Building bound s)
    (wf : (Request.put item ts v).WellFormed) (oldest : s.proxy.realBst.Oldest item u) :
    s.serve (.put item ts v) = .ok ((s.retire (bucketKey item u)).record item ts v) := by
  have live : bucketKey item u ∈ s.proxy.realBst.accessFreqs := ((valid.exact.index item u).mp oldest.1).2
  have stamped := (retire_resident valid live).exact.stamped
  have unset : s.requests.length ∉ (s.retire (bucketKey item u)).proxy.promises := by
    intro member
    have below := (retire_building building live).answered _ member
    simp at below
  have stored := storeKey_eq (v:=v) stamped wf.1 unset (remove_oldest_data_eq valid wf.1 oldest)
  have value : ¬ (Request.put item ts v).operation.value = [] := wf.2
  simp only [Server.serve,if_neg value,Proxy.create_security_batch]
  rw [show (Request.put item ts v).operation.key = bucketKey item ts from rfl,
    show (Request.put item ts v).operation.value = v from rfl,stored]
  simp only [bind,Except.bind,pure,Except.pure,Server.record,retire_requests,retire_loaded,retire_i,retire_request_id]

-- When a PUT leaves no trace that a later step could trip over. The key is not
-- the bucket being retired unless both steps happen in the cache; it is not on
-- its way in from the storage; and its frequency leaves no second tree entry.
structure PutSafe (s : Server) (k o : Str) : Prop where
  self : k = o → k ∈ s.proxy.cache.held
  idle : k ∉ s.storage_batch
  clean : k ≠ o → Clean s.proxy k
  room : k ∈ s.proxy.cache.held → k ≠ o → s.proxy.keys_to_be_deleted.dedup.length+1 < s.proxy.cache.entries.length

theorem PutSafe.fresh (building : Building bound s) (dead : k ∉ s.proxy.realBst.accessFreqs)
    (live : o ∈ s.proxy.realBst.accessFreqs) (valid : Resident cfg env last s.proxy) : PutSafe s k o := by
  refine ⟨?_,?_,?_,?_⟩
  · rintro rfl; exact absurd live dead
  · intro member; exact dead (building.absent k member).1
  · intro _ f found; exact absurd (Table.mem_iff.mpr ⟨f,found⟩) dead
  · intro held; exact absurd (valid.live k held) dead

theorem retire_clean (safe : PutSafe s k o) : Clean (s.retire o).proxy k := by
  intro f found
  rw [retire_timeStamp]
  by_cases same : k = o
  · subst same
    rw [retire_cached (safe.self rfl)] at found
    simp [FrequencySmoother.removeKey_freqs] at found
  · apply safe.clean same
    by_cases held : o ∈ s.proxy.cache.held
    · rw [retire_cached held] at found
      simpa [FrequencySmoother.removeKey_freqs,same] using found
    · rw [retire_uncached held] at found
      exact found

theorem retire_idle (safe : PutSafe s k o) : k ∉ (s.retire o).storage_batch := by
  by_cases held : o ∈ s.proxy.cache.held
  · rw [retire_cached held]
    exact safe.idle
  · rw [retire_uncached held]
    intro member
    dsimp only at member
    split at member
    · exact safe.idle member
    · rcases List.mem_append.mp member with old | new
      · exact safe.idle old
      · rw [List.mem_singleton] at new
        exact held (new ▸ safe.self new)

theorem put_unscheduled (sound : Sound cfg env s) (oldest : s.proxy.realBst.Oldest item u)
    (safe : PutSafe s (bucketKey item ts) (bucketKey item u)) :
    bucketKey item ts ∉ (s.retire (bucketKey item u)).proxy.keys_to_be_deleted := by
  intro doomed
  have live := ((sound.resident.exact.index item u).mp oldest.1).2
  exact retire_idle safe ((retire_building sound.building live).scheduled _ doomed)

theorem dedup_concat (ktd : List Str) (o : Str) : (ktd ++ [o]).dedup.length ≤ ktd.dedup.length+1 := by
  have sub : (ktd ++ [o]).dedup ⊆ ktd.dedup ++ [o] := by
    intro k member
    simpa using member
  have short := (List.subperm_of_subset (List.nodup_dedup _) sub).length_le
  simpa using short

theorem put_roomy (roomy : Roomy s.proxy) (safe : PutSafe s (bucketKey item ts) o) (v : Str) :
    Roomy ((s.retire o).record item ts v).proxy := by
  have room := safe.room
  unfold Roomy at roomy ⊢
  simp only [Server.record,Cache.insertIntoCache_entries,List.length_cons,Cache.filter_length]
  by_cases held : o ∈ s.proxy.cache.held
  · have size := Cache.filter_length s.proxy.cache o
    rw [if_pos held] at size
    have some_ : 0 < s.proxy.cache.entries.length := by omega
    simp only [retire_cached held,Cache.mem_held_remove,Cache.removeKey_entries,size]
    split
    · rename_i both
      have spare := room both.2 both.1
      omega
    · omega
  · have grown := dedup_concat s.proxy.keys_to_be_deleted o
    simp only [retire_uncached held]
    split
    · rename_i cached
      have differs : bucketKey item ts ≠ o := by
        intro same
        rw [same] at cached
        exact held cached
      have spare := room cached differs
      omega
    · omega

theorem put_sound (sound : Sound cfg env s) (wf : (Request.put item ts v).WellFormed)
    (oldest : s.proxy.realBst.Oldest item u) (safe : PutSafe s (bucketKey item ts) (bucketKey item u)) :
    Sound cfg env ((s.retire (bucketKey item u)).record item ts v) := by
  have live := ((sound.resident.exact.index item u).mp oldest.1).2
  have resident := retire_resident sound.resident live
  rw [← retire_last s (bucketKey item u)] at resident
  refine ⟨record_resident resident wf.1 (retire_clean safe) v,?_,put_roomy sound.roomy safe v⟩
  have building := record_building (retire_building sound.building live) (retire_idle safe) v
  simpa [Server.record] using building

end TsWaffle
