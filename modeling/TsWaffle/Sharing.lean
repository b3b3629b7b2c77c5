import TsWaffle.Interleaving
import TsWaffle.Draining
import TsWaffle.Indexing
import TsWaffle.WritingBack
import TsWaffle.Returning

namespace TsWaffle.Interleaving
open Text Threads Runs
variable {R G : Shared → Shared → Prop} {I : Shared → Prop} {s t : Shared}

-- A step that leaves the requests and their answers alone.
structure Quiet (s t : Shared) : Prop where
  queues : t.operation_queues_ = s.operation_queues_
  handed : t.handed = s.handed
  queries : t.queries = s.queries
  registered : t.registered = s.registered
  promises : t.proxy.promises = s.proxy.promises
  entries : t.proxy.runningKeys.request_map = s.proxy.runningKeys.request_map

-- The thread p keeps I among others that do R, and does G itself.
abbrev Keeping (R G : Shared → Shared → Prop) (I : Shared → Prop) (p : Thread α) : Prop := Prog.Triple R G I p (fun _ => I)

-- What a round needs of an assertion: the others, the quiet steps, the clearing
-- steps and the methods of realBst keep it.
structure Keeps (R G : Shared → Shared → Prop) (I : Shared → Prop) : Prop where
  refl : ∀ s, R s s
  stable : Prog.Stable R I
  guaranteed : ∀ s t, I s → I t → G s t
  quiet : ∀ s t, I s → Quiet s t → t.proxy.realBst = s.proxy.realBst → I t
  settled : ∀ s q qs, I s → s.proxy.runningKeys.Settles s.proxy.promises q qs →
    I {s with proxy:={s.proxy with runningKeys:=q,promises:=qs}}
  asked : ∀ key, Keeping R G I (getFrequency key)
  moved : ∀ key value, Keeping R G I (setFrequency key value)
  removed : ∀ key, Keeping R G I (removeReal key)

namespace Keeps

theorem bind {p : Thread α} {f : α → Thread β} {T : β → Shared → Prop} (keeps : Keeps R G I) (first : Keeping R G I p)
    (later : ∀ a, Prog.Triple R G I (f a) T) : Prog.Triple R G I (p >>= f) T := Prog.Triple.bind keeps.refl first later

theorem done (keeps : Keeps R G I) (a : α) : Keeping R G I (pure a) :=
  Prog.triple_pure (Q:=fun _ => I) keeps.stable

theorem atomic (keeps : Keeps R G I) {f : Shared → Except Stop (α × Shared)}
    (each : ∀ s a t, I s → f s = .ok (a,t) → I t) : Keeping R G I (.atomic f) := by
  refine Prog.triple_atomic keeps.stable (fun _ => keeps.stable) ?_
  intro s a t holds ran
  have after := each s a t holds ran
  exact ⟨keeps.guaranteed s t holds after,after⟩

end Keeps

section
variable (keeps : Keeps R G I)
include keeps

theorem onProxy_keeps {f : Proxy → Except Fault (α × Proxy)}
    (quiet : ∀ p a q, f p = .ok (a,q) → q.promises = p.promises ∧
      q.runningKeys.request_map = p.runningKeys.request_map ∧ q.realBst = p.realBst) : Keeping R G I (onProxy f) := by
  apply keeps.atomic
  intro s a t holds ran
  split at ran
  · rename_i b q did
    cases ran
    obtain ⟨promises,entries,tree⟩ := quiet _ _ _ did
    exact keeps.quiet _ _ holds ⟨rfl,rfl,rfl,rfl,promises,entries⟩ tree
  · cases ran

theorem look_keeps (f : Proxy → α) : Keeping R G I (look f) := by
  apply onProxy_keeps keeps
  intro p a q ran
  cases ran
  exact ⟨rfl,rfl,rfl⟩

theorem change_keeps {f : Proxy → Proxy} (quiet : ∀ p, (f p).promises = p.promises ∧
    (f p).runningKeys.request_map = p.runningKeys.request_map ∧ (f p).realBst = p.realBst) :
    Keeping R G I (change f) := by
  apply onProxy_keeps keeps
  intro p a q ran
  cases ran
  exact quiet p

theorem insertIfNotPresent_keeps (key : Str) : Keeping R G I (insertIfNotPresent key) := by
  apply onProxy_keeps keeps
  intro p a q ran
  cases ran
  exact ⟨rfl,rfl,rfl⟩

theorem readKeys_keeps (env : Env) (keys : List Str) : Keeping R G I (readKeys env keys) := by
  induction keys with
  | nil => exact keeps.done _
  | cons key rest ih =>
    apply keeps.bind (keeps.asked key)
    intro freq
    apply keeps.bind (look_keeps keeps Proxy.timeStamp)
    intro clock
    apply keeps.bind (keeps.moved key clock)
    intro _
    apply keeps.bind ih
    intro rows
    exact keeps.done _

theorem fill_keeps (count : Nat) (entries : List Entry) : Keeping R G I (fill count entries) := by
  induction entries generalizing count with
  | nil =>
    cases count with
    | zero => exact keeps.done _
    | succ count =>
      apply onProxy_keeps keeps
      intro p a q ran
      cases ran
  | cons it rest ih =>
    cases count with
    | zero => exact keeps.done _
    | succ count =>
      unfold fill
      apply keeps.bind (look_keeps keeps _)
      intro cached
      split
      · exact ih (count+1)
      apply keeps.bind (look_keeps keeps _)
      intro evicted
      split
      · exact ih (count+1)
      apply keeps.bind (insertIfNotPresent_keeps keeps it.key)
      intro present
      split
      · exact ih (count+1)
      apply keeps.bind (ih count)
      intro keys
      exact keeps.done _

theorem onFakes_keeps (f : FrequencySmoother → Except Fault (α × FrequencySmoother)) : Keeping R G I (onFakes f) := by
  apply onProxy_keeps keeps
  intro p a q ran
  split at ran
  · cases ran
    exact ⟨rfl,rfl,rfl⟩
  · cases ran

theorem readFakes_keeps (env : Env) (attempts n : Nat) : Keeping R G I (readFakes env attempts n) := by
  induction attempts generalizing n with
  | zero =>
    cases n with
    | zero => exact keeps.done _
    | succ n =>
      apply keeps.atomic
      intro s a t _ ran
      cases ran
  | succ attempts ih =>
    cases n with
    | zero => exact keeps.done _
    | succ n =>
      unfold readFakes
      apply keeps.bind (onFakes_keeps keeps _)
      intro fakeMinKey
      apply keeps.bind (insertIfNotPresent_keeps keeps fakeMinKey)
      intro present
      split
      · exact ih (n+1)
      apply keeps.bind (onFakes_keeps keeps _)
      intro freq
      apply keeps.bind (look_keeps keeps Proxy.timeStamp)
      intro clock
      apply keeps.bind (onFakes_keeps keeps _)
      intro _
      apply keeps.bind (ih n)
      intro rows
      exact keeps.done _

theorem lock_keeps : Keeping R G I lock := by
  apply keeps.atomic
  intro s a t holds ran
  split at ran
  · cases ran
  · cases ran
    exact keeps.quiet _ _ holds ⟨rfl,rfl,rfl,rfl,rfl,rfl⟩ rfl

theorem unlock_keeps : Keeping R G I unlock := by
  apply keeps.atomic
  intro s a t holds ran
  cases ran
  exact keeps.quiet _ _ holds ⟨rfl,rfl,rfl,rfl,rfl,rfl⟩ rfl

theorem writeReal_keeps (env : Env) (seed : Nat) (key response : Str) (w : Written) :
    Keeping R G I (writeReal env seed key response w) := by
  unfold writeReal
  refine keeps.bind (onProxy_keeps keeps ?_) ?_
  · intro p a q ran
    cases ran
    exact ⟨rfl,rfl,rfl⟩
  intro kv_pair
  apply keeps.bind (keeps.asked kv_pair.1)
  intro freq
  apply keeps.bind (look_keeps keeps _)
  intro doomed
  split
  · apply keeps.bind (keeps.removed key)
    intro _
    refine keeps.bind (change_keeps keeps ?_) ?_
    · exact fun _ => ⟨rfl,rfl,rfl⟩
    intro _
    exact keeps.done _
  apply keeps.bind (look_keeps keeps _)
  intro cached
  apply keeps.bind
  · split
    · exact look_keeps keeps _
    · exact keeps.done _
  intro value
  refine keeps.bind (change_keeps keeps ?_) ?_
  · exact fun _ => ⟨rfl,rfl,rfl⟩
  intro _
  exact keeps.done _

theorem writeBack_keeps (cfg : Config) (env : Env) (round : Round) (readBatchMap : Table Str Str) (real i : Nat)
    (rows : List (Str × Str)) (w : Written) : Keeping R G I (writeBack cfg env round readBatchMap real i rows w) := by
  induction rows generalizing i w with
  | nil => exact keeps.done _
  | cons row rest ih =>
    unfold writeBack
    apply keeps.bind
    · split
      · exact writeReal_keeps keeps env _ _ _ w
      · apply keeps.bind (onFakes_keeps keeps _)
        intro freq
        exact keeps.done _
    intro next
    exact ih (i+1) next

theorem eraseEvicted_keeps (keys : List Str) : Keeping R G I (eraseEvicted keys) := by
  induction keys with
  | nil => exact keeps.done _
  | cons key rest ih =>
    refine keeps.bind (change_keeps keeps ?_) ?_
    · exact fun _ => ⟨rfl,rfl,rfl⟩
    intro _
    exact ih

theorem clearing_keeps {f : Proxy → Except Fault (ThreadSafeUnorderedMap × Promises)}
    (settles : ∀ p q qs, f p = .ok (q,qs) → p.runningKeys.Settles p.promises q qs) :
    Keeping R G I (onProxy (fun p => do
      let (runningKeys,promises) ← f p
      return ((),{p with runningKeys:=runningKeys,promises:=promises}))) := by
  apply keeps.atomic
  intro s a t holds ran
  split at ran
  · rename_i b after did
    cases ran
    obtain ⟨⟨q,qs⟩,cleared,same⟩ := bind_ok did
    cases same
    exact keeps.settled s q qs holds (settles _ q qs cleared)
  · cases ran

theorem deliver_keeps (value : Str → Str) (keys : List Str) : Keeping R G I (deliver value keys) := by
  induction keys with
  | nil => exact keeps.done _
  | cons key rest ih =>
    apply keeps.bind (clearing_keeps keeps (fun _ _ _ ran => ThreadSafeUnorderedMap.tryClearPromises_settles ran))
    intro _
    exact ih

theorem execute_batch_keeps (cfg : Config) (env : Env) (round : Round) (operations : List Str) :
    Keeping R G I (execute_batch cfg env round operations) := by
  unfold execute_batch
  refine keeps.bind (change_keeps keeps ?_) ?_
  · exact fun _ => ⟨rfl,rfl,rfl⟩
  intro _
  apply keeps.bind (readKeys_keeps keeps env operations)
  intro requested
  apply keeps.bind (lock_keeps keeps)
  intro it
  apply keeps.bind (fill_keeps keeps _ it)
  intro realKeysNotInCache
  apply keeps.bind (unlock_keeps keeps)
  intro _
  apply keeps.bind (readKeys_keeps keeps env realKeysNotInCache)
  intro filled
  apply keeps.bind (readFakes_keeps keeps env _ _)
  intro faked
  refine keeps.bind (onProxy_keeps keeps ?_) ?_
  · intro p a q ran
    obtain ⟨replies,_,same⟩ := bind_ok ran
    cases same
    exact ⟨rfl,rfl,rfl⟩
  intro responses
  apply keeps.bind (writeBack_keeps keeps cfg env round _ _ _ _ _)
  intro w
  refine keeps.bind (change_keeps keeps ?_) ?_
  · exact fun _ => ⟨rfl,rfl,rfl⟩
  intro _
  apply keeps.bind (eraseEvicted_keeps keeps _)
  intro _
  apply keeps.bind (deliver_keeps keeps _ _)
  intro _
  exact change_keeps keeps (fun _ => ⟨rfl,rfl,rfl⟩)

-- A round ends with the counter it began with.
theorem close_keeps (cfg : Config) (env : Env) (round : Round) (l : Locals) :
    Prog.Triple R G I (close cfg env round l) (fun m s => m.request_id = l.request_id ∧ I s) := by
  apply keeps.bind (clearing_keeps keeps (fun _ _ _ ran => ThreadSafeUnorderedMap.tryClearAllPromises_settles ran))
  intro _
  apply keeps.bind (execute_batch_keeps keeps cfg env round l.storage_batch)
  intro _
  exact fun s holds t other => ⟨rfl,keeps.stable s t holds other⟩

end

-- Nothing has been registered or answered.
structure Vacant (L : FrequencySmoother → Prop) (s : Shared) : Prop where
  registered : s.registered = []
  promises : s.proxy.promises = ∅
  entries : s.proxy.runningKeys.request_map = ∅
  tree : L s.proxy.realBst

-- L survives what a round does to realBst.
structure Closed (L : FrequencySmoother → Prop) : Prop where
  getFrequency : ∀ bst key, L bst → L (bst.getFrequency key).2
  setFrequency : ∀ bst key value, L bst → L (bst.setFrequency key value)
  removeEntry : ∀ bst key, L bst → L (bst.removeEntry key)
  removeStamp : ∀ bst key next, L bst → bst.removeStamp key = .ok next → L next

variable {L : FrequencySmoother → Prop}

def KeepsVacant (L : FrequencySmoother → Prop) (s t : Shared) : Prop := Vacant L s → Vacant L t

theorem Vacant.isolated (vacant : Vacant L s) : Isolated s := by
  refine ⟨?_,?_⟩
  · intro id p q member
    rw [vacant.registered] at member
    cases member
  · intro g _ answer found
    rw [vacant.promises,Table.find_empty] at found
    cases found

theorem vacant_atomic {f : Shared → Except Stop (α × Shared)} {Q : α → Shared → Prop}
    (stable : ∀ a, Prog.Stable (KeepsVacant L) (Q a)) (still : ∀ a t, Q a t → Vacant L t)
    (each : ∀ s a t, Vacant L s → f s = .ok (a,t) → Q a t) :
    Prog.Triple (KeepsVacant L) (KeepsVacant L) (Vacant L) (.atomic f) Q := by
  refine Prog.triple_atomic (fun _ _ vacant keep => keep vacant) stable ?_
  intro s a t vacant ran
  have after := each s a t vacant ran
  exact ⟨fun _ => still a t after,after⟩

theorem vacant_step {f : Shared → Except Stop (α × Shared)} (each : ∀ s a t, Vacant L s → f s = .ok (a,t) → Vacant L t) :
    Keeping (KeepsVacant L) (KeepsVacant L) (Vacant L) (.atomic f) :=
  vacant_atomic (Q:=fun _ => Vacant L) (fun _ _ _ vacant keep => keep vacant) (fun _ _ vacant => vacant) each

theorem vacant_onTree {f : FrequencySmoother → α × FrequencySmoother} (kept : ∀ bst, L bst → L (f bst).2) :
    Keeping (KeepsVacant L) (KeepsVacant L) (Vacant L) (onTree f) := by
  apply vacant_step
  intro s a t vacant ran
  split at ran
  · cases ran
  · cases ran
    exact ⟨vacant.registered,vacant.promises,vacant.entries,kept _ vacant.tree⟩

theorem vacant_keeps (closed : Closed L) : Keeps (KeepsVacant L) (KeepsVacant L) (Vacant L) := by
  refine ⟨fun _ vacant => vacant,fun _ _ vacant keep => keep vacant,fun _ _ _ after _ => after,?_,?_,?_,?_,?_⟩
  · intro s t vacant quiet tree
    exact ⟨quiet.registered.trans vacant.registered,quiet.promises.trans vacant.promises,
      quiet.entries.trans vacant.entries,by rw [tree]; exact vacant.tree⟩
  · intro s q qs vacant settles
    refine ⟨vacant.registered,?_,?_,vacant.tree⟩
    · apply Table.eq_empty
      intro p member
      obtain ⟨a,found⟩ := Table.mem_iff.mp member
      rcases settles.answers p a found with before | ⟨id,ks,_,row,_⟩
      · rw [vacant.promises,Table.find_empty] at before
        cases before
      · rw [vacant.entries,Table.find_empty] at row
        cases row
    · apply Table.eq_empty
      intro id member
      obtain ⟨row,found⟩ := Table.mem_iff.mp member
      have before := settles.rows id row found
      rw [vacant.entries,Table.find_empty] at before
      cases before
  · intro key
    exact vacant_onTree (fun bst holds => closed.getFrequency bst key holds)
  · intro key value
    exact vacant_onTree (fun bst holds => closed.setFrequency bst key value holds)
  · intro key
    apply Prog.Triple.bind (fun _ vacant => vacant) (vacant_onTree (fun bst holds => closed.removeEntry bst key holds))
    intro _
    apply vacant_step
    intro s a t vacant ran
    cases did : s.proxy.realBst.removeStamp key with
    | error fault =>
      dsimp only at ran
      rw [did] at ran
      cases ran
    | ok next =>
      dsimp only at ran
      rw [did] at ran
      cases ran
      exact ⟨vacant.registered,vacant.promises,vacant.entries,closed.removeStamp _ key next vacant.tree did⟩

theorem outside_vacant (did : Outside s t) : KeepsVacant L s t := by
  intro vacant
  cases did with
  | push queue_id r wf => exact ⟨vacant.registered,vacant.promises,vacant.entries,vacant.tree⟩
  | clear =>
    refine ⟨vacant.registered,?_,?_,?_⟩
    · rw [(clearThread_cleared s.proxy).frame]; exact vacant.promises
    · rw [(clearThread_cleared s.proxy).frame]; exact vacant.entries
    · rw [(clearThread_cleared s.proxy).frame]; exact vacant.tree

theorem vacant_isolated {cfg : Config} {env : Env} {num_cores : Nat} {proxy : Proxy}
    {reached : State (Fin num_cores) Shared Stop Locals} (ready : Vacant L (started num_cores proxy).shared)
    (serves : ∀ id l round, Keeping (KeepsVacant L) (KeepsVacant L) (Vacant L) (consumer_thread cfg env id l round))
    (run : Reached cfg env num_cores proxy reached) : Isolated reached.shared := by
  apply Vacant.isolated (L:=L)
  refine Reachable.invariant (R:=fun _ => KeepsVacant L) (G:=fun _ => KeepsVacant L) (Q:=fun _ _ => Vacant L)
    (fun _ _ _ _ one two vacant => two (one vacant)) (fun _ _ vacant => vacant) (fun _ _ _ _ _ keep => keep)
    (fun _ _ _ did => outside_vacant did) (fun id l round => serves id l round) ?_ (fun _ _ _ keep => keep)
    (fun _ _ did => outside_vacant did) ready run
  intro id t keep
  exact keep ready

-- No operation is ever taken when a round has room for none.
theorem idle_isolated {cfg : Config} {env : Env} {num_cores : Nat} {proxy : Proxy}
    {reached : State (Fin num_cores) Shared Stop Locals} (idle : cfg.R = 0) (unset : proxy.promises = ∅)
    (entries : proxy.runningKeys.request_map = ∅) (run : Reached cfg env num_cores proxy reached) :
    Isolated reached.shared := by
  have keeps : Keeps (KeepsVacant (fun _ => True)) (KeepsVacant (fun _ => True)) (Vacant (fun _ => True)) :=
    vacant_keeps ⟨fun _ _ _ => trivial,fun _ _ _ _ => trivial,fun _ _ _ => trivial,fun _ _ _ _ _ => trivial⟩
  refine vacant_isolated (L:=fun _ => True) ⟨rfl,unset,entries,trivial⟩ ?_ run
  intro id l round
  unfold consumer_thread
  rw [idle,if_neg (Nat.not_lt_zero _)]
  exact (close_keeps keeps cfg env round l).post (fun _ _ both => both.2)

-- No bucket is indexed.
def Bare (bst : FrequencySmoother) : Prop := ∀ item, bst.timestamps item = ∅

theorem bare_closed : Closed Bare := by
  refine ⟨fun _ _ bare => bare,fun _ _ _ bare => bare,fun _ _ bare => bare,?_⟩
  intro bst key next bare ran
  unfold FrequencySmoother.removeStamp at ran
  split at ran
  · split at ran
    · cases ran
    · rename_i item ts _
      split at ran
      · cases ran
        exact bare
      · rename_i stamps found
        have none : stamps = ∅ := by
          have empty := bare item
          rwa [FrequencySmoother.timestamps,found,Option.getD_some] at empty
        subst none
        dsimp only at ran
        split at ran
        · cases ran
          intro other
          simp only [FrequencySmoother.timestamps,Table.find_erase]
          split
          · rfl
          · exact bare other
        · rename_i left
          refine absurd (OrderedSet.ext ?_) left
          intro u
          simp
  · cases ran
    exact bare

-- Without a bucket a GET asks for nothing, and a PUT finds no oldest bucket.
theorem bare_split (promise : Nat) (request_id : Int) (get_key : Str) :
    Prog.Triple (KeepsVacant Bare) (KeepsVacant Bare) (Vacant Bare) (get_split_keys promise request_id get_key)
      (fun db_keys s => db_keys = [] ∧ Vacant Bare s) := by
  refine vacant_atomic (fun _ _ _ both keep => ⟨both.1,keep both.2⟩) (fun _ _ both => both.2) ?_
  intro s a t vacant ran
  split at ran
  · rename_i db_keys bst did
    cases ran
    refine ⟨?_,vacant.registered,vacant.promises,vacant.entries,?_⟩
    · rw [List.eq_nil_iff_forall_not_mem]
      intro k member
      obtain ⟨item,ts,listed,_⟩ := FrequencySmoother.get_split_keys_listed did member
      rw [vacant.tree item] at listed
      exact OrderedSet.notMem_empty ts listed
    · obtain ⟨item,_,_,_,rfl⟩ := get_split_keys_returned did
      intro other
      rw [FrequencySmoother.fetch_timestamps]
      exact vacant.tree other
  · cases ran

theorem bare_store (promise : Nat) (storage_batch : List Str) (currentKey value : Str) :
    Prog.Triple (KeepsVacant Bare) (KeepsVacant Bare) (Vacant Bare) (storeKey promise storage_batch currentKey value)
      (fun _ _ => False) := by
  have keeps := vacant_keeps bare_closed
  apply Prog.Triple.bind (Q:=fun _ _ => False) keeps.refl
  · apply Prog.Triple.bind (Q:=fun _ _ => False) keeps.refl
    · refine vacant_atomic (fun _ _ _ none _ => none) (fun _ _ none => none.elim) ?_
      intro s a t vacant ran
      split at ran
      · rename_i did
        obtain ⟨⟨oldest,bst⟩,found,_⟩ := bind_ok did
        obtain ⟨item,_,o,_,listed,_⟩ := getOldestKey_returned found
        rw [vacant.tree item] at listed
        exact OrderedSet.notMem_empty o listed
      · cases ran
    · intro _ _ none
      cases none
  · intro _ _ none
    cases none

theorem bare_serve (id : Nat) (l : Locals) :
    Keeping (KeepsVacant Bare) (KeepsVacant Bare) (Vacant Bare) (serve id l) := by
  have keeps := vacant_keeps bare_closed
  apply keeps.bind
  · apply vacant_step
    intro s a t vacant ran
    split at ran
    · cases ran
      exact ⟨vacant.registered,vacant.promises,vacant.entries,vacant.tree⟩
    · cases ran
  intro item
  obtain ⟨op,promise⟩ := item
  dsimp only
  split
  · apply Prog.Triple.bind keeps.refl (bare_split promise l.request_id op.key)
    intro db_keys s both
    obtain ⟨rfl,vacant⟩ := both
    exact keeps.done _ s vacant
  · rename_i put
    rw [create_security_batch,if_neg put]
    apply Prog.Triple.bind keeps.refl (bare_store promise l.storage_batch op.key op.value)
    intro _ _ none
    cases none

theorem bare_isolated {cfg : Config} {env : Env} {num_cores : Nat} {proxy : Proxy}
    {reached : State (Fin num_cores) Shared Stop Locals} (bare : Bare proxy.realBst) (unset : proxy.promises = ∅)
    (entries : proxy.runningKeys.request_map = ∅) (run : Reached cfg env num_cores proxy reached) :
    Isolated reached.shared := by
  refine vacant_isolated ⟨rfl,unset,entries,bare⟩ ?_ run
  intro id l round
  unfold consumer_thread
  split
  · exact bare_serve id l
  · exact (close_keeps (vacant_keeps bare_closed) cfg env round l).post (fun _ _ both => both.2)

end TsWaffle.Interleaving
