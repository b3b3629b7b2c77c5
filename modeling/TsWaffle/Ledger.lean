import TsWaffle.Shape

namespace TsWaffle
open Text Runs Server
variable {cfg : Config} {env : Env} {s t : Server} {p q : Proxy} {real fake : List Str} {evicted : List (Str × Str)}
  {pairs : List (Str × Str)} {draws : Draws} {values : Str → Option Str} {k : Str}

-- What has to come before a call: a label is read in a batch after the one that
-- wrote it, and deleted after it was read.
def StorageCall.Follows (c : StorageCall) (earlier : List StorageCall) : Prop :=
  match c.op with
  | .put_batch => True
  | .get_batch => ∀ l ∈ c.labels, ∃ w ∈ earlier, w.op = .put_batch ∧ l ∈ w.labels ∧ w.batch < c.batch
  | .delete_batch => ∀ l ∈ c.labels, ∃ r ∈ earlier, r.op = .get_batch ∧ l ∈ r.labels

def Ordered (calls : List StorageCall) : Prop :=
  ∀ earlier c later, calls = earlier ++ c :: later → c.Follows earlier

theorem mem_logged : l ∈ logged op calls ↔ ∃ c ∈ calls, c.op = op ∧ l ∈ c.labels := by
  simp [logged,and_assoc]

theorem StorageCall.Follows.mono {c : StorageCall} (before : c.Follows earlier) (more : List StorageCall) :
    c.Follows (earlier ++ more) := by
  unfold Follows at before ⊢
  cases kind : c.op with
  | put_batch => trivial
  | get_batch =>
    rw [kind] at before
    intro l member
    obtain ⟨w,listed,rest⟩ := before l member
    exact ⟨w,List.mem_append_left _ listed,rest⟩
  | delete_batch =>
    rw [kind] at before
    intro l member
    obtain ⟨r,listed,rest⟩ := before l member
    exact ⟨r,List.mem_append_left _ listed,rest⟩

theorem Ordered.append (valid : Ordered calls)
    (more : ∀ earlier c later, tail = earlier ++ c :: later → c.Follows (calls ++ earlier)) :
    Ordered (calls ++ tail) := by
  intro earlier c later shape
  rcases List.append_eq_append_iff.mp shape with ⟨rest,rfl,same⟩ | ⟨rest,old,same⟩
  · exact more rest c later same
  · cases rest with
    | nil =>
      rw [List.nil_append] at same
      have first := more [] c later same.symm
      rw [List.append_nil] at old
      rw [List.append_nil,old] at first
      exact first
    | cons d rest =>
      simp only [List.cons_append,List.cons.injEq] at same
      obtain ⟨rfl,_⟩ := same
      exact valid earlier c rest old

-- The whole history of the labels. A label that was written carries a frequency
-- its key has already had; a cached key has left it behind, and so has a key
-- that is no longer live.
structure Ledger (env : Env) (p : Proxy) : Prop where
  bounded : ∀ k g, env.label k g ∈ logged .put_batch p.calls → g ≤ p.timeStamp ∧
    (∀ f, p.realBst.accessFreqs.find? k = some f → g ≤ f ∧ (k ∈ p.cache.held → g < f)) ∧
    (∀ f, p.fakeBst.accessFreqs.find? k = some f → g ≤ f) ∧
    (k ∉ p.realBst.accessFreqs → k ∉ p.fakeBst.accessFreqs → g < p.timeStamp)
  writtenOnce : (logged .put_batch p.calls).Nodup
  readOnce : (logged .get_batch p.calls).Nodup
  backed : ∀ l ∈ p.storage, l ∈ logged .put_batch p.calls
  aged : ∀ c ∈ p.calls, c.op = .put_batch → c.batch ≤ p.timeStamp
  ordered : Ordered p.calls

theorem Initial.ledger (lawful : env.Lawful) (start : Initial cfg env pairs s) (good : Loadable pairs) :
    Ledger env s.proxy := by
  have valid := start.sound good
  have noReads : logged .get_batch s.proxy.calls = [] :=
    logged_other (fun c member => by simp [(start.calls c member).1])
  refine ⟨?_,start.once,by simp [noReads],fun l => (start.written l).mpr,?_,?_⟩
  · intro k g member
    obtain ⟨a,same,place⟩ := start.labels _ ((start.written _).mp member)
    obtain ⟨rfl,rfl⟩ := env.label_injective lawful same
    rw [start.clock]
    refine ⟨le_refl _,?_,?_,?_⟩
    · intro f found
      have live : k ∈ s.proxy.realBst.accessFreqs := Table.mem_iff.mpr ⟨f,found⟩
      rw [start.freqs] at found
      split at found
      · cases found
        refine ⟨le_refl _,fun held => ?_⟩
        rcases place with isFake | ⟨_,uncached⟩
        · exact absurd isFake (valid.resident.real_ne_fake live)
        · exact absurd held uncached
      · cases found
    · intro f found
      rw [start.fakeFreqs k f found]
    · intro dead plain
      rcases place with isFake | ⟨live,_⟩
      · exact absurd isFake plain
      · exact absurd live dead
  · intro c member _
    rw [start.clock,(start.calls c member).2]
  · intro earlier c later shape
    have kind := (start.calls c (by rw [shape]; simp)).1
    simp [StorageCall.Follows,kind]

theorem retire_ledger (valid : Resident cfg env values s.proxy) (ledger : Ledger env s.proxy) (o : Str) :
    Ledger env (s.retire o).proxy := by
  by_cases held : o ∈ s.proxy.cache.held
  · rw [retire_cached held]
    refine {ledger with bounded:=?_}
    intro k g member
    obtain ⟨clock,real,fake,dead⟩ := ledger.bounded k g member
    refine ⟨clock,?_,fake,?_⟩
    · intro f found
      rw [FrequencySmoother.removeKey_freqs] at found
      split at found
      · cases found
      · exact ⟨(real f found).1,fun now => (real f found).2 ((Cache.mem_held_remove _ _ _).mp now).2⟩
    · intro gone plain
      by_cases same : k = o
      · obtain ⟨f,found⟩ := Table.mem_iff.mp (valid.live k (same ▸ held))
        have age := valid.age k f found
        have behind := (real f found).2 (same ▸ held)
        exact lt_of_lt_of_le behind age
      · exact dead (fun live => gone ((FrequencySmoother.removeKey_live _ _ _).mpr ⟨same,live⟩)) plain
  · rw [retire_uncached held]
    exact {ledger with}

-- The frequency a PUT gives its key must be new to the key.
theorem record_ledger (valid : Resident cfg env values s.proxy) (ledger : Ledger env s.proxy) (item : Str) (ts : Int) (v : Str)
    (plain : bucketKey item ts ∉ s.proxy.fakeBst.accessFreqs)
    (behind : bucketKey item ts ∉ s.proxy.cache.held →
      ∀ f, s.proxy.realBst.accessFreqs.find? (bucketKey item ts) = some f → f < s.proxy.timeStamp) :
    Ledger env (s.record item ts v).proxy := by
  refine {ledger with bounded:=?_}
  intro k g member
  obtain ⟨clock,real,fake,dead⟩ := ledger.bounded k g member
  have new : k = bucketKey item ts → g < s.proxy.timeStamp := by
    rintro rfl
    by_cases live : bucketKey item ts ∈ s.proxy.realBst.accessFreqs
    · obtain ⟨f,found⟩ := Table.mem_iff.mp live
      by_cases held : bucketKey item ts ∈ s.proxy.cache.held
      · exact lt_of_lt_of_le ((real f found).2 held) (valid.age _ f found)
      · exact lt_of_le_of_lt (real f found).1 (behind held f found)
    · exact dead live plain
  refine ⟨clock,?_,fake,?_⟩
  · intro f found
    simp only [record,FrequencySmoother.store_freqs] at found
    split at found
    · rename_i same
      cases found
      exact ⟨le_of_lt (new same),fun _ => new same⟩
    · rename_i differs
      refine ⟨(real f found).1,fun now => (real f found).2 ?_⟩
      exact ((Cache.mem_held_insert _ _ _ _).mp now).resolve_left differs
  · intro gone notFake
    exact dead (fun live => gone ((store_live _ _ _ _).mpr (.inr live))) notFake

-- An old label is behind everything the batch has moved; a new one is the current
-- label of a key that is not cached.
theorem executed_bounded (lawful : env.Lawful) (sound : Sound cfg env s)
    (done : Executed cfg env s t real fake evicted) (ledger : Ledger env s.proxy)
    (member : env.label k g ∈ logged .put_batch t.proxy.calls) :
    g ≤ t.proxy.timeStamp ∧
    (∀ f, t.proxy.realBst.accessFreqs.find? k = some f → g ≤ f ∧ (k ∈ t.proxy.cache.held → g < f)) ∧
    (∀ f, t.proxy.fakeBst.accessFreqs.find? k = some f → g ≤ f) ∧
    (k ∉ t.proxy.realBst.accessFreqs → k ∉ t.proxy.fakeBst.accessFreqs → g < t.proxy.timeStamp) := by
  have valid := sound.resident
  have clock := done.clock
  rw [done.logged_writes,List.mem_append] at member
  rcases member with old | new
  · obtain ⟨below,isReal,isFake,_⟩ := ledger.bounded k g old
    refine ⟨by omega,?_,?_,fun _ _ => by omega⟩
    · intro f found
      rcases done.freq_now found with ⟨_,rfl⟩ | ⟨unread,before⟩
      · exact ⟨by omega,fun _ => by omega⟩
      · refine ⟨(isReal f before).1,fun held => (isReal f before).2 ?_⟩
        obtain ⟨v,cached⟩ := Cache.mem_held.mp held
        rcases done.through sound (k,v) (List.mem_append_right _ (List.mem_reverse.mpr cached)) with was | ⟨read,_⟩
        · exact Cache.mem_held.mpr ⟨v,was⟩
        · exact absurd read unread
    · intro f found
      rcases done.fakeFreq_now found with ⟨_,rfl⟩ | ⟨_,before⟩
      · omega
      · exact isFake f before
  · rcases Executed.write_label lawful new with ⟨v,gone,rfl⟩ | ⟨read,rfl⟩
    · obtain ⟨live,cases_⟩ := done.evicted_freq sound gone
      have current := FrequencySmoother.freq_find live
      refine ⟨?_,?_,?_,fun dead => absurd live dead⟩
      · exact (executed_resident lawful sound done).age k _ current
      · intro f found
        rw [current] at found
        cases found
        exact ⟨le_refl _,fun held => absurd held (done.evicted_not_held gone)⟩
      · intro f found
        have isFake := done.fake_iff.mp (Table.mem_iff.mpr ⟨f,found⟩)
        exact absurd isFake (valid.real_ne_fake (done.live_iff.mp live).2)
    · have isFake := done.plan.fakeLive k read
      refine ⟨le_refl _,?_,?_,fun _ plain => absurd (done.fake_iff.mpr isFake) plain⟩
      · intro f found
        have live := (done.live_iff.mp (Table.mem_iff.mpr ⟨f,found⟩)).2
        exact absurd isFake (valid.real_ne_fake live)
      · intro f found
        rw [done.fakeFreqs,if_pos read] at found
        cases found
        omega

-- No label the batch writes was written before.
theorem writes_new (sound : Sound cfg env s) (done : Executed cfg env s t real fake evicted)
    (ledger : Ledger env s.proxy) (member : l ∈ writeLabels env t.proxy evicted fake) : l ∉ logged .put_batch s.proxy.calls := by
  intro old
  have clock := done.clock
  rcases List.mem_append.mp member with wasReal | wasFake
  · obtain ⟨⟨k,v⟩,gone,rfl⟩ := List.mem_map.mp wasReal
    dsimp only at old
    obtain ⟨below,isReal,_,_⟩ := ledger.bounded k _ old
    rcases (done.evicted_freq sound gone).2 with ⟨_,now⟩ | ⟨held,_,same⟩
    · omega
    · have behind := (isReal _ (FrequencySmoother.freq_find (sound.resident.live k held))).2 held
      omega
  · obtain ⟨k,_,rfl⟩ := List.mem_map.mp wasFake
    obtain ⟨below,_⟩ := ledger.bounded k _ old
    omega

theorem reads_new (sound : Sound cfg env s) (done : Executed cfg env s t real fake evicted)
    (member : l ∈ readLabels env s.proxy real fake) : l ∉ logged .get_batch s.proxy.calls := by
  intro old
  rcases mem_readLabels.mp member with ⟨k,read,rfl⟩ | ⟨k,read,rfl⟩
  · have behind := (sound.resident.reads k _ old).2.1 _ (FrequencySmoother.freq_find (done.plan.live k read))
    exact lt_irrefl _ behind
  · have behind := (sound.resident.reads k _ old).2.2 _ (FrequencySmoother.freq_find (done.plan.fakeLive k read))
    exact lt_irrefl _ behind

theorem executed_ordered (sound : Sound cfg env s) (done : Executed cfg env s t real fake evicted)
    (ledger : Ledger env s.proxy) : Ordered t.proxy.calls := by
  have clock := done.clock
  obtain ⟨rounds,calls,deletes⟩ := done.calls
  rw [calls]
  apply ledger.ordered.append
  intro earlier c later shape
  cases earlier with
  | nil =>
    simp only [List.nil_append,List.cons_append,List.cons.injEq] at shape
    obtain ⟨rfl,_⟩ := shape
    intro l member
    have stored := (rows_stored sound.resident done.plan).1 l member
    obtain ⟨w,listed,kind,label⟩ := mem_logged.mp (ledger.backed l stored)
    have age := ledger.aged w listed kind
    exact ⟨w,by simpa using listed,kind,label,by dsimp only; omega⟩
  | cons first earlier =>
    simp only [List.cons_append,List.cons.injEq] at shape
    have member : c ∈ rounds ++ [⟨.put_batch,t.proxy.timeStamp,writeLabels env t.proxy evicted fake⟩] := by
      rw [shape.2]
      simp
    rcases List.mem_append.mp member with cleared | written
    · obtain ⟨kind,row⟩ := deletes c cleared
      apply StorageCall.Follows.mono
      simp only [StorageCall.Follows,kind]
      intro l listed
      obtain ⟨r,before,isRead,label⟩ := mem_logged.mp (sound.resident.queue _ row l listed)
      exact ⟨r,before,isRead,label⟩
    · rw [List.mem_singleton] at written
      subst written
      trivial

theorem executed_ledger (lawful : env.Lawful) (sound : Sound cfg env s)
    (done : Executed cfg env s t real fake evicted) (ledger : Ledger env s.proxy) : Ledger env t.proxy := by
  have clock := done.clock
  obtain ⟨rounds,calls,deletes⟩ := done.calls
  refine ⟨fun k g => executed_bounded lawful sound done ledger,?_,?_,?_,?_,executed_ordered sound done ledger⟩
  · rw [done.logged_writes]
    refine List.nodup_append.mpr ⟨ledger.writtenOnce,done.writes_nodup lawful sound,?_⟩
    intro a old b new same
    exact writes_new sound done ledger (same ▸ new) old
  · rw [done.logged_reads]
    refine List.nodup_append.mpr ⟨ledger.readOnce,rows_nodup lawful sound.resident done.plan,?_⟩
    intro a old b new same
    exact reads_new sound done (same ▸ new) old
  · intro l stored
    rw [done.logged_writes,List.mem_append]
    exact (done.fewer l stored).symm.imp_left (ledger.backed l)
  · intro c member kind
    rw [calls,List.mem_append] at member
    rcases member with old | new
    · have age := ledger.aged c old kind
      omega
    · simp only [List.cons_append,List.mem_cons,List.mem_append,List.not_mem_nil,or_false] at new
      rcases new with rfl | cleared | rfl
      · cases kind
      · rw [(deletes c cleared).1] at kind
        cases kind
      · exact le_refl _

theorem cleared_ledger (sound : Sound cfg env s) (ledger : Ledger env s.proxy) (cleared : Cleared s.proxy p) :
    Ledger env p := by
  obtain ⟨rounds,calls,deletes⟩ := cleared.deletes
  have frame := cleared.frame
  have quiet : ∀ op, op ≠ .delete_batch → logged op p.calls = logged op s.proxy.calls := by
    intro op other
    have none : logged op rounds = [] := logged_other (fun c member same => other (same ▸ (deletes c member).1))
    rw [calls,logged_append,none,List.append_nil]
  have puts := quiet .put_batch (by simp)
  have gets := quiet .get_batch (by simp)
  refine ⟨?_,puts.symm ▸ ledger.writtenOnce,gets.symm ▸ ledger.readOnce,?_,?_,?_⟩
  · intro k g member
    rw [frame]
    exact ledger.bounded k g (puts ▸ member)
  · intro l stored
    rw [puts]
    exact ledger.backed l (cleared.fewer l stored)
  · intro c member kind
    rw [calls,List.mem_append] at member
    rw [frame]
    rcases member with old | new
    · exact ledger.aged c old kind
    · rw [(deletes c new).1] at kind
      cases kind
  · rw [calls]
    apply ledger.ordered.append
    intro earlier c later shape
    obtain ⟨kind,row⟩ := deletes c (by rw [shape]; simp)
    apply StorageCall.Follows.mono
    simp only [StorageCall.Follows,kind]
    intro l listed
    obtain ⟨r,before,isRead,label⟩ := mem_logged.mp (sound.resident.queue _ row l listed)
    exact ⟨r,before,isRead,label⟩

-- A PUT on a live key that is not cached finds it behind the clock.
def Behind (s : Server) : Action → Prop
  | .serve (.put item ts _) => bucketKey item ts ∉ s.proxy.cache.held →
      ∀ f, s.proxy.realBst.accessFreqs.find? (bucketKey item ts) = some f → f < s.proxy.timeStamp
  | _ => True

theorem Stepped.ledger (lawful : env.Lawful) (stepped : Stepped cfg env s action t) (sound : Sound cfg env s)
    (behind : Behind s action) (ledger : Ledger env s.proxy) : Ledger env t.proxy := by
  cases stepped with
  | get item a b running batch i state => exact {ledger with}
  | put item ts v u wf oldest safe =>
    have live := ((sound.resident.exact.index item u).mp oldest.1).2
    apply record_ledger (retire_resident sound.resident live) (retire_ledger sound.resident ledger _)
    · intro isFake
      have before : bucketKey item ts ∈ s.proxy.fakeBst.accessFreqs := by
        by_cases held : bucketKey item u ∈ s.proxy.cache.held
        · rwa [retire_cached held] at isFake
        · rwa [retire_uncached held] at isFake
      apply sound.resident.fakeNames _ before
      simp [bucketKey]
    · intro uncached f found
      rw [retire_timeStamp]
      by_cases held : bucketKey item u ∈ s.proxy.cache.held
      · rw [retire_cached held] at uncached found
        simp only [FrequencySmoother.removeKey_freqs] at found
        split at found
        · cases found
        · rename_i differs
          exact behind (fun now => uncached ((Cache.mem_held_remove _ _ _).mpr ⟨differs,now⟩)) f found
      · rw [retire_uncached held] at uncached found
        exact behind uncached f found
  | close choice _ real fake evicted done => exact executed_ledger lawful sound done ledger
  | clear p cleared => exact cleared_ledger sound ledger cleared

theorem growing_behind (known : Known s) (now : Growing cfg s action) : Behind s action := by
  cases action with
  | serve r =>
    cases r with
    | put item ts v =>
      intro _ f found
      exact absurd (known.written _ (Table.mem_iff.mpr ⟨f,found⟩)) now.2
    | get item a b => trivial
  | close choice => trivial
  | clear => trivial

theorem growing_ledger (lawful : env.Lawful) (cfg : Config) :
    Layered cfg env (Growing cfg) (fun s => Known s ∧ Ledger env s.proxy) :=
  (growing_layered cfg env).add (fun _ _ _ sound known ledger now stepped =>
    stepped.ledger lawful sound (growing_behind known now) ledger)

-- A label has one write, one read in a later batch, and its deletions after that.
structure UsedOnce (calls : List StorageCall) : Prop where
  writtenOnce : (logged .put_batch calls).Nodup
  readOnce : (logged .get_batch calls).Nodup
  ordered : Ordered calls
  undeleted : ∀ earlier c later, calls = earlier ++ c :: later → c.op = .delete_batch →
    ∀ l ∈ c.labels, l ∉ logged .get_batch later

theorem Ledger.usedOnce (ledger : Ledger env p) : UsedOnce p.calls := by
  refine ⟨ledger.writtenOnce,ledger.readOnce,ledger.ordered,?_⟩
  intro earlier c later shape kind l member read
  have before := ledger.ordered earlier c later shape
  simp only [StorageCall.Follows,kind] at before
  obtain ⟨r,listed,isRead,label⟩ := before l member
  have once := ledger.readOnce
  rw [shape,logged_append,← List.singleton_append,logged_append] at once
  exact (List.nodup_append.mp once).2.2 l (mem_logged.mpr ⟨r,listed,isRead,label⟩) l (List.mem_append_right _ read) rfl

end TsWaffle
