import TsWaffle.Sweeping
import TsWaffle.Conserving
import TsWaffle.Ledger

namespace TsWaffle
open Text Runs Server
variable {cfg : Config} {env : Env} {s t : Server} {p : Proxy} {pairs : List (Str × Str)} {draws : Draws} {l o : Str}
  {action : Action}

-- A label the next batch could ask for.
def Current (env : Env) (p : Proxy) (l : Str) : Prop :=
  (∃ k f, p.realBst.accessFreqs.find? k = some f ∧ k ∉ p.cache.held ∧ l = env.label k f) ∨
    ∃ k f, p.fakeBst.accessFreqs.find? k = some f ∧ l = env.label k f

-- What was written and has not been read since can still be read.
def Retrievable (env : Env) (p : Proxy) : Prop :=
  ∀ l ∈ logged .put_batch p.calls, l ∈ logged .get_batch p.calls ∨ Current env p l

theorem Initial.retrievable (start : Initial cfg env pairs s) : Retrievable env s.proxy := by
  intro l written
  obtain ⟨k,rfl,place⟩ := start.labels l ((start.written l).mp written)
  refine .inr (place.symm.imp ?_ ?_)
  · intro here
    obtain ⟨f,found⟩ := Table.mem_iff.mp here.1
    have zero := found
    rw [start.freqs] at zero
    split at zero
    · cases zero
      exact ⟨k,0,found,here.2,rfl⟩
    · cases zero
  · intro here
    obtain ⟨f,found⟩ := Table.mem_iff.mp here
    obtain rfl := start.fakeFreqs k f found
    exact ⟨k,0,found,rfl⟩

theorem retire_retrievable (retrievable : Retrievable env s.proxy) (o : Str) : Retrievable env (s.retire o).proxy := by
  by_cases held : o ∈ s.proxy.cache.held
  · rw [retire_cached held]
    intro l written
    refine (retrievable l written).imp_right ?_
    rintro (⟨k,f,found,uncached,rfl⟩ | fake)
    · have other : k ≠ o := by
        rintro rfl
        exact uncached held
      refine .inl ⟨k,f,?_,fun now => uncached ((Cache.mem_held_remove _ _ _).mp now).2,rfl⟩
      rw [FrequencySmoother.removeKey_freqs,if_neg other]
      exact found
    · exact .inr fake
  · rw [retire_uncached held]
    exact retrievable

theorem record_retrievable (retrievable : Retrievable env s.proxy) (item : Str) (ts : Int) (v : Str)
    (dead : bucketKey item ts ∉ s.proxy.realBst.accessFreqs) : Retrievable env (s.record item ts v).proxy := by
  intro l written
  refine (retrievable l written).imp_right ?_
  rintro (⟨k,f,found,uncached,rfl⟩ | fake)
  · have other : k ≠ bucketKey item ts := by
      rintro rfl
      exact dead (Table.mem_iff.mpr ⟨f,found⟩)
    refine .inl ⟨k,f,?_,fun now => uncached (((Cache.mem_held_insert _ _ _ _).mp now).resolve_left other),rfl⟩
    simp only [record,FrequencySmoother.store_freqs,if_neg other]
    exact found
  · exact .inr fake

-- A batch reads a label or leaves its key as it was.
theorem executed_keeps_current (sound : Sound cfg env s) (done : Executed cfg env s t real fake evicted)
    (current : Current env s.proxy l) : l ∈ readLabels env s.proxy real fake ∨ Current env t.proxy l := by
  rcases current with ⟨k,f,found,uncached,rfl⟩ | ⟨k,f,found,rfl⟩
  · by_cases chosen : k ∈ real
    · refine .inl (mem_readLabels.mpr (.inl ⟨k,chosen,?_⟩))
      rw [FrequencySmoother.freq,found]
      rfl
    · have free : k ∉ s.proxy.keys_to_be_deleted := fun doomed => chosen (done.batch k (sound.building.scheduled k doomed))
      refine .inr (.inl ⟨k,f,?_,?_,rfl⟩)
      · rw [done.freqs,if_neg free,if_neg chosen]
        exact found
      · intro held
        obtain ⟨v,cached⟩ := Cache.mem_held.mp held
        rcases done.through sound (k,v) (List.mem_append_right _ (List.mem_reverse.mpr cached)) with was | read
        · exact uncached (Cache.mem_held.mpr ⟨v,was⟩)
        · exact chosen read.1
  · by_cases chosen : k ∈ fake
    · refine .inl (mem_readLabels.mpr (.inr ⟨k,chosen,?_⟩))
      rw [FrequencySmoother.freq,found]
      rfl
    · refine .inr (.inr ⟨k,f,?_,rfl⟩)
      rw [done.fakeFreqs,if_neg chosen]
      exact found

theorem executed_writes_current (sound : Sound cfg env s) (done : Executed cfg env s t real fake evicted)
    (member : l ∈ writeLabels env t.proxy evicted fake) : Current env t.proxy l := by
  rcases List.mem_append.mp member with wasReal | wasFake
  · obtain ⟨⟨k,v⟩,gone,rfl⟩ := List.mem_map.mp wasReal
    exact .inl ⟨k,_,FrequencySmoother.freq_find (done.evicted_freq sound gone).1,done.evicted_not_held gone,rfl⟩
  · obtain ⟨k,chosen,rfl⟩ := List.mem_map.mp wasFake
    refine .inr ⟨k,_,?_,rfl⟩
    rw [done.fakeFreqs,if_pos chosen,done.clock]

theorem executed_retrievable (sound : Sound cfg env s) (done : Executed cfg env s t real fake evicted)
    (retrievable : Retrievable env s.proxy) : Retrievable env t.proxy := by
  intro l written
  rw [done.logged_reads,List.mem_append]
  rw [done.logged_writes,List.mem_append] at written
  rcases written with old | new
  · rcases retrievable l old with read | current
    · exact .inl (.inl read)
    · exact (executed_keeps_current sound done current).imp_left .inr
  · exact .inr (executed_writes_current sound done new)

theorem Cleared.quiet {q : Proxy} (cleared : Cleared p q) (other : op ≠ .delete_batch) :
    logged op q.calls = logged op p.calls := by
  obtain ⟨rounds,calls,deletes⟩ := cleared.deletes
  have none : logged op rounds = [] := logged_other (fun c member same => other (same ▸ (deletes c member).1))
  rw [calls,logged_append,none,List.append_nil]

theorem cleared_retrievable (cleared : Cleared s.proxy p) (retrievable : Retrievable env s.proxy) : Retrievable env p := by
  intro l written
  rw [cleared.quiet (by simp)] at written ⊢
  have frame := cleared.frame
  rw [frame]
  exact retrievable l written

theorem Stepped.retrievable (stepped : Stepped cfg env s action t) (sound : Sound cfg env s) (known : Known s)
    (now : Growing cfg s action) (retrievable : Retrievable env s.proxy) : Retrievable env t.proxy := by
  cases stepped with
  | get item a b running batch i state => exact retrievable
  | put item ts v u wf oldest safe =>
    apply record_retrievable (retire_retrievable retrievable _)
    intro live
    have before : bucketKey item ts ∈ s.proxy.realBst.accessFreqs := retire_live s _ _ live
    exact now.2 (known.written _ before)
  | close choice _ real fake evicted done => exact executed_retrievable sound done retrievable
  | clear p cleared => exact cleared_retrievable cleared retrievable

theorem mem_replay (calls : List StorageCall) : l ∈ replay calls ↔ ∃ earlier c later, calls = earlier ++ c :: later ∧
    c.op = .put_batch ∧ l ∈ c.labels ∧ ∀ d ∈ later, d.op = .delete_batch → l ∉ d.labels := by
  induction calls using List.reverseRecOn with
  | nil => simp [replay]
  | append_singleton calls last ih =>
    rw [replay_append]
    constructor
    · intro member
      have parted : (last.op = .put_batch ∧ l ∈ last.labels) ∨
          (l ∈ replay calls ∧ (last.op = .delete_batch → l ∉ last.labels)) := by
        cases kind : last.op with
        | put_batch => simpa [StorageCall.apply,kind,or_comm] using member
        | get_batch => simpa [StorageCall.apply,kind] using member
        | delete_batch => simpa [StorageCall.apply,kind] using member
      rcases parted with ⟨put,listed⟩ | ⟨before,spared⟩
      · exact ⟨calls,last,[],rfl,put,listed,by simp⟩
      · obtain ⟨earlier,c,later,shape,put,listed,undeleted⟩ := ih.mp before
        refine ⟨earlier,c,later ++ [last],by simp [shape],put,listed,?_⟩
        intro d member
        rcases List.mem_append.mp member with old | new
        · exact undeleted d old
        · rw [List.mem_singleton] at new
          subst new
          exact spared
    · rintro ⟨earlier,c,later,shape,put,listed,undeleted⟩
      rcases List.eq_nil_or_concat later with rfl | ⟨later,d,rfl⟩
      · obtain ⟨rfl,same⟩ := List.append_inj' shape rfl
        cases same
        simp [StorageCall.apply,put,listed]
      · rw [List.concat_eq_append,← List.cons_append,← List.append_assoc] at shape
        obtain ⟨rfl,same⟩ := List.append_inj' shape rfl
        cases same
        have before : l ∈ replay (earlier ++ c :: later) :=
          ih.mpr ⟨earlier,c,later,rfl,put,listed,fun d member => undeleted d (by simp [member])⟩
        have spared := undeleted last (by simp)
        cases kind : last.op <;> simp_all [StorageCall.apply]

theorem Ordered.read_written (ordered : Ordered calls) (read : l ∈ logged .get_batch calls) :
    l ∈ logged .put_batch calls := by
  obtain ⟨c,member,kind,listed⟩ := mem_logged.mp read
  obtain ⟨earlier,later,rfl⟩ := List.append_of_mem member
  have before := ordered earlier c later rfl
  simp only [StorageCall.Follows,kind] at before
  obtain ⟨w,old,put,label,_⟩ := before l listed
  exact mem_logged.mpr ⟨w,List.mem_append_left _ old,put,label⟩

theorem Ordered.deleted_written (ordered : Ordered (earlier ++ later)) (deleted : l ∈ logged .delete_batch earlier) :
    l ∈ logged .put_batch earlier := by
  obtain ⟨d,member,kind,listed⟩ := mem_logged.mp deleted
  obtain ⟨first,rest,rfl⟩ := List.append_of_mem member
  have before := ordered first d (rest ++ later) (by simp)
  simp only [StorageCall.Follows,kind] at before
  obtain ⟨r,old,get,label⟩ := before l listed
  have reads : Ordered first := by
    intro one c two shape
    exact ordered one c (two ++ d :: (rest ++ later)) (by simp [shape])
  obtain ⟨w,older,put,written⟩ := mem_logged.mp (reads.read_written (mem_logged.mpr ⟨r,old,get,label⟩))
  exact mem_logged.mpr ⟨w,List.mem_append_left _ older,put,written⟩

-- With one write for a label, only its deletion takes it out of the storage.
theorem Ledger.mem_replay (ledger : Ledger env p) :
    l ∈ replay p.calls ↔ l ∈ logged .put_batch p.calls ∧ l ∉ logged .delete_batch p.calls := by
  rw [TsWaffle.mem_replay]
  constructor
  · rintro ⟨earlier,c,later,shape,put,listed,undeleted⟩
    refine ⟨mem_logged.mpr ⟨c,by simp [shape],put,listed⟩,?_⟩
    intro deleted
    rw [shape,logged_append,List.mem_append] at deleted
    have ordered := ledger.ordered
    rw [shape] at ordered
    rcases deleted with before | after
    · have twice := ledger.writtenOnce
      rw [shape,logged_append] at twice
      exact (List.nodup_append.mp twice).2.2 l (ordered.deleted_written before) l
        (mem_logged.mpr ⟨c,List.mem_cons_self,put,listed⟩) rfl
    · obtain ⟨d,member,kind,label⟩ := mem_logged.mp after
      rcases List.mem_cons.mp member with rfl | late
      · rw [put] at kind
        cases kind
      · exact undeleted d late kind label
  · rintro ⟨written,undeleted⟩
    obtain ⟨c,member,put,listed⟩ := mem_logged.mp written
    obtain ⟨earlier,later,shape⟩ := List.append_of_mem member
    refine ⟨earlier,c,later,shape,put,listed,?_⟩
    intro d late kind label
    exact undeleted (mem_logged.mpr ⟨d,by simp [shape,late],kind,label⟩)

-- Every row that waits for clearThread is one whole batch.
def Portioned (cfg : Config) (p : Proxy) : Prop := ∀ row ∈ p.keysNotUsed, row.length = cfg.B

theorem readLabels_length (plan : Plan cfg p real fake) : (readLabels env p real fake).length = cfg.B := by
  have count := plan.count
  have fakes := plan.fakeCount
  simp only [readLabels,batchRows,realRows,fakeRows,List.length_map,List.length_append]
  omega

theorem Stepped.portioned (stepped : Stepped cfg env s action t) (portioned : Portioned cfg s.proxy) :
    Portioned cfg t.proxy := by
  cases stepped with
  | get item a b running batch i state => exact portioned
  | put item ts v u wf oldest safe =>
    by_cases held : bucketKey item u ∈ s.proxy.cache.held
    · rw [retire_cached held]
      exact portioned
    · rw [retire_uncached held]
      exact portioned
  | close choice _ real fake evicted done =>
    intro row member
    rcases done.unused row member with old | rfl
    · exact portioned row old
    · exact readLabels_length done.plan
  | clear p cleared => exact fun row member => portioned row (cleared.queue row member)

-- The labels that the next batch could ask for, with their count.
def currentLabels (env : Env) (p : Proxy) : List Str :=
  (uncachedKeys p).map (fun k => env.label k (p.realBst.freq k)) ++
    p.fakeBst.accessFreqs.keys.map (fun k => env.label k (p.fakeBst.freq k))

theorem mem_currentLabels : l ∈ currentLabels env p ↔ Current env p l := by
  simp only [currentLabels,List.mem_append,List.mem_map,uncachedKeys,List.mem_filter,Table.mem_keys,decide_eq_true_eq]
  constructor
  · rintro (⟨k,⟨live,uncached⟩,rfl⟩ | ⟨k,live,rfl⟩)
    · exact .inl ⟨k,_,FrequencySmoother.freq_find live,uncached,rfl⟩
    · exact .inr ⟨k,_,FrequencySmoother.freq_find live,rfl⟩
  · rintro (⟨k,f,found,uncached,rfl⟩ | ⟨k,f,found,rfl⟩)
    · refine .inl ⟨k,⟨Table.mem_iff.mpr ⟨f,found⟩,uncached⟩,?_⟩
      simp [FrequencySmoother.freq,found]
    · refine .inr ⟨k,Table.mem_iff.mpr ⟨f,found⟩,?_⟩
      simp [FrequencySmoother.freq,found]

theorem currentLabels_nodup (lawful : env.Lawful) (sound : Sound cfg env s) : (currentLabels env s.proxy).Nodup := by
  refine List.nodup_append.mpr ⟨?_,?_,?_⟩
  · exact (s.proxy.realBst.accessFreqs.keys_nodup.filter _).map (fun _ _ same => (env.label_injective lawful same).1)
  · exact s.proxy.fakeBst.accessFreqs.keys_nodup.map (fun _ _ same => (env.label_injective lawful same).1)
  · intro a isReal b isFake same
    obtain ⟨k,member,rfl⟩ := List.mem_map.mp isReal
    obtain ⟨other,fake,rfl⟩ := List.mem_map.mp isFake
    obtain ⟨rfl,_⟩ := env.label_injective lawful same
    exact sound.resident.real_ne_fake (Table.mem_keys.mp (List.mem_of_mem_filter member)) (Table.mem_keys.mp fake)

theorem current_stored (sound : Sound cfg env s) (current : Current env s.proxy l) : l ∈ s.proxy.storage := by
  rcases current with ⟨k,f,found,uncached,rfl⟩ | ⟨k,f,found,rfl⟩
  · obtain ⟨c,stored,_⟩ := sound.resident.stored k f found uncached
    exact Table.mem_iff.mpr ⟨c,stored⟩
  · exact sound.resident.fakeStored k f found

theorem current_unread (sound : Sound cfg env s) (current : Current env s.proxy l) : l ∉ logged .get_batch s.proxy.calls := by
  intro read
  rcases current with ⟨k,f,found,_,rfl⟩ | ⟨k,f,found,rfl⟩
  · exact lt_irrefl _ ((sound.resident.reads k f read).2.1 f found)
  · exact lt_irrefl _ ((sound.resident.reads k f read).2.2 f found)

theorem waiting_iff (tidy : Tidy p) (ledger : Ledger env p) :
    l ∈ p.keysNotUsed.flatten ↔ l ∈ logged .get_batch p.calls ∧ l ∉ logged .delete_batch p.calls := by
  have order := tidy.order
  rw [List.append_nil] at order
  have once := ledger.readOnce
  rw [order] at once ⊢
  have apart := (List.nodup_append.mp once).2.2
  rw [List.mem_append]
  constructor
  · intro waits
    exact ⟨.inr waits,fun deleted => apart l deleted l waits rfl⟩
  · rintro ⟨read,undeleted⟩
    exact read.resolve_left undeleted

theorem stored_iff (sound : Sound cfg env s) (tidy : Tidy s.proxy) (ledger : Ledger env s.proxy)
    (retrievable : Retrievable env s.proxy) :
    l ∈ s.proxy.storage ↔ l ∈ s.proxy.keysNotUsed.flatten ∨ Current env s.proxy l := by
  rw [waiting_iff tidy ledger]
  constructor
  · intro stored
    obtain ⟨written,undeleted⟩ := ledger.mem_replay.mp ((tidy.held l).mp stored)
    exact (retrievable l written).imp_left (fun read => ⟨read,undeleted⟩)
  · rintro (⟨read,undeleted⟩ | current)
    · exact (tidy.held l).mpr (ledger.mem_replay.mpr ⟨ledger.ordered.read_written read,undeleted⟩)
    · exact current_stored sound current

theorem stored_count (lawful : env.Lawful) (sound : Sound cfg env s) (tidy : Tidy s.proxy) (ledger : Ledger env s.proxy)
    (retrievable : Retrievable env s.proxy) (sized : Sized cfg N C s) (portioned : Portioned cfg s.proxy) :
    s.proxy.storage.keys.length+C = N+cfg.D+cfg.B*s.proxy.keysNotUsed.length := by
  have once := ledger.readOnce
  have order := tidy.order
  rw [List.append_nil] at order
  rw [order] at once
  have distinct : (s.proxy.keysNotUsed.flatten ++ currentLabels env s.proxy).Nodup := by
    refine List.nodup_append.mpr ⟨(List.nodup_append.mp once).2.1,currentLabels_nodup lawful sound,?_⟩
    intro a waits b current same
    subst same
    exact current_unread sound (mem_currentLabels.mp current) ((waiting_iff tidy ledger).mp waits).1
  have perm : s.proxy.storage.keys.Perm (s.proxy.keysNotUsed.flatten ++ currentLabels env s.proxy) := by
    apply (List.perm_ext_iff_of_nodup (Table.keys_nodup _) distinct).mpr
    intro l
    rw [Table.mem_keys,List.mem_append,mem_currentLabels]
    exact stored_iff sound tidy ledger retrievable
  have rows : s.proxy.keysNotUsed.flatten.length = cfg.B*s.proxy.keysNotUsed.length := by
    rw [List.length_flatten,List.map_congr_left (g:=fun _ => cfg.B) portioned,List.map_const',List.sum_replicate,smul_eq_mul,
      Nat.mul_comm]
  have free := uncached_length sound sized
  have fakes := sized.fakes
  rw [perm.length_eq,List.length_append,rows,currentLabels,List.length_append,List.length_map,List.length_map]
  omega

theorem accounted_layered (lawful : env.Lawful) (cfg : Config) (N C : Nat) :
    Layered cfg env (Retaining cfg) (fun s => (((Known s ∧ Sized cfg N C s) ∧ Ledger env s.proxy) ∧ Retrievable env s.proxy) ∧
      Portioned cfg s.proxy) := by
  refine (((sized_layered cfg env N C).add ?_).add ?_).add ?_
  · intro s action t sound layer ledger now stepped
    exact stepped.ledger lawful sound (growing_behind layer.1 now.1) ledger
  · intro s action t sound layer retrievable now stepped
    exact stepped.retrievable sound layer.1.1 now.1 retrievable
  · intro s action t sound layer portioned now stepped
    exact stepped.portioned portioned

end TsWaffle
