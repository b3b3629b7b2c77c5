import TsWaffle.Sharing
import TsWaffle.Dispatching

namespace TsWaffle
open Text Threads Runs

namespace FrequencySmoother
variable {s t : FrequencySmoother}

-- Removing a key, however it is spelled, takes its stamp along.
theorem Grounded.removed (valid : Grounded s) (ran : s.removeKey key = (t,.ok ())) : Grounded t := by
  have same : t = (s.removeKey key).1 := by rw [ran]
  subst same
  cases read : get_key_timestamp_split key with
  | error fault =>
    unfold FrequencySmoother.removeKey at ran
    rw [read] at ran
    dsimp only at ran
    rw [if_pos valid.stamped] at ran
    cases (Prod.mk.inj ran).2
  | ok parts =>
    obtain ⟨item,ts⟩ := parts
    obtain ⟨_,stamped,index⟩ := removeKey_read valid.stamped read
    refine ⟨stamped,?_⟩
    intro other u member
    obtain ⟨before,differs⟩ := (index other u).mp member
    obtain ⟨wf,live⟩ := valid.listed other u before
    refine ⟨wf,(removeKey_live s _ _).mpr ⟨?_,live⟩⟩
    rintro rfl
    rw [bucketKey_split wf] at read
    cases read
    exact differs ⟨rfl,rfl⟩

end FrequencySmoother

namespace Interleaving
variable {s t : Shared} {g : Query} {rid : Int} {mine : List Nat} {L : FrequencySmoother → Prop}

-- With one consumer there is one queue. The promises it is to answer, in the queue
-- and in its hands, are different, unset and nobody's yet.
structure Fresh (mine : List Nat) (s : Shared) : Prop where
  queue : ∃ queue, s.operation_queues_ = [queue] ∧ (mine ++ queue.map Prod.snd).Nodup ∧
    (∀ p ∈ mine ++ queue.map Prod.snd, p < s.handed ∧ p ∉ s.proxy.promises ∧ ∀ g ∈ s.queries, g.promise ≠ p) ∧
    ∀ item ∈ queue, ∃ r : Request, r.WellFormed ∧ item.1 = r.operation
  set : ∀ p ∈ s.proxy.promises, p < s.handed
  asked : ∀ g ∈ s.queries, g.promise < s.handed

-- What clients and clearThread leave alone.
structure Others (s t : Shared) : Prop where
  realBst : t.proxy.realBst = s.proxy.realBst
  runningKeys : t.proxy.runningKeys = s.proxy.runningKeys
  promises : t.proxy.promises = s.proxy.promises
  queries : t.queries = s.queries
  registered : t.registered = s.registered
  fresh : ∀ mine, Fresh mine s → Fresh mine t

theorem others_refl (s : Shared) : Others s s := ⟨rfl,rfl,rfl,rfl,rfl,fun _ fresh => fresh⟩

theorem others_trans (s t u : Shared) (one : Others s t) (two : Others t u) : Others s u :=
  ⟨two.realBst.trans one.realBst,two.runningKeys.trans one.runningKeys,two.promises.trans one.promises,
    two.queries.trans one.queries,two.registered.trans one.registered,fun mine fresh => two.fresh mine (one.fresh mine fresh)⟩

theorem outside_others (did : Outside s t) : Others s t := by
  cases did with
  | push queue_id r wf =>
    refine ⟨rfl,rfl,rfl,rfl,rfl,?_⟩
    intro mine fresh
    obtain ⟨queue,shape,distinct,open_,named⟩ := fresh.queue
    refine ⟨⟨queue ++ [(r.operation,s.handed)],?_,?_,?_,?_⟩,?_,?_⟩
    · dsimp only
      rw [shape]
      simp [Nat.mod_one]
    · rw [List.map_append,← List.append_assoc]
      refine List.Nodup.append distinct (List.nodup_singleton _) ?_
      intro p member last
      rw [List.map_singleton,List.mem_singleton] at last
      have small := (open_ p member).1
      omega
    · intro p member
      rw [List.map_append,← List.append_assoc] at member
      rcases List.mem_append.mp member with old | new
      · obtain ⟨small,unset,unasked⟩ := open_ p old
        exact ⟨Nat.lt_succ_of_lt small,unset,unasked⟩
      · rw [List.map_singleton,List.mem_singleton] at new
        subst new
        refine ⟨Nat.lt_succ_self _,?_,?_⟩
        · intro member
          exact absurd (fresh.set _ member) (lt_irrefl _)
        · intro g member same
          exact absurd (same ▸ fresh.asked g member) (lt_irrefl _)
    · intro item member
      rcases List.mem_append.mp member with old | new
      · exact named item old
      · rw [List.mem_singleton.mp new]
        exact ⟨r,wf,rfl⟩
    · intro p member
      exact Nat.lt_succ_of_lt (fresh.set p member)
    · intro g member
      exact Nat.lt_succ_of_lt (fresh.asked g member)
  | clear =>
    rw [(clearThread_cleared s.proxy).frame]
    exact ⟨rfl,rfl,rfl,rfl,rfl,fun mine fresh => ⟨fresh.queue,fresh.set,fresh.asked⟩⟩

-- The GETs split so far, whatever has become of them; ids from rid on are free.
structure Account (rid : Int) (mine : List Nat) (s : Shared) : Prop where
  ids : (s.queries.map Query.request_id).Nodup
  promises : (s.queries.map Query.promise).Nodup
  earlier : ∀ g ∈ s.queries, g.request_id < rid
  entered : ∀ id p, (id,p) ∈ s.registered → ∃ g ∈ s.queries, g.request_id = id ∧ g.promise = p
  answers : ∀ g ∈ s.queries, ∀ answer, s.proxy.promises.find? g.promise = some answer →
    ∃ pairs, answer = .sum pairs ∧ pairs.map Prod.fst = g.db_keys
  fresh : Fresh mine s

theorem Account.isolated (account : Account rid mine s) : Isolated s := by
  refine ⟨?_,account.answers⟩
  intro id p q one two _ _
  obtain ⟨g,first,named,rfl⟩ := account.entered id p one
  obtain ⟨h,second,also,rfl⟩ := account.entered id q two
  rw [List.inj_on_of_nodup_map account.ids first second (named.trans also.symm)]

theorem Account.others (account : Account rid mine s) (other : Others s t) : Account rid mine t := by
  obtain ⟨_,_,promises,queries,registered,fresh⟩ := other
  refine ⟨?_,?_,?_,?_,?_,fresh mine account.fresh⟩
  · rw [queries]; exact account.ids
  · rw [queries]; exact account.promises
  · rw [queries]; exact account.earlier
  · rw [queries,registered]; exact account.entered
  · rw [queries,promises]; exact account.answers

-- A row holds all the keys of a GET, under its own promise.
def Complete (s : Shared) (id : Int) (row : List Str × Option Nat) : Prop :=
  ∃ g ∈ s.queries, g.request_id = id ∧ row = (g.db_keys,some g.promise)

-- Between two operations.
structure Idle (rid : Int) (mine : List Nat) (L : FrequencySmoother → Prop) (s : Shared) : Prop where
  account : Account rid mine s
  rows : ∀ id row, s.proxy.runningKeys.request_map.find? id = some row → Complete s id row
  tree : L s.proxy.realBst

-- A GET is being registered: its keys are done, then rest.
structure Asking (g : Query) (done rest : List Str) (s : Shared) : Prop where
  account : Account (g.request_id+1) [] s
  asked : g ∈ s.queries
  split : g.db_keys = done ++ rest
  rows : ∀ id row, id ≠ g.request_id → s.proxy.runningKeys.request_map.find? id = some row → Complete s id row
  row : s.proxy.runningKeys.request_map.find? g.request_id = if done = [] then none else some (done,some g.promise)
  tree : s.proxy.realBst.Grounded
  live : ∀ k ∈ rest, k ∈ s.proxy.realBst.accessFreqs

def Settled (_ t : Shared) : Prop := Isolated t

theorem Idle.others (idle : Idle rid mine L s) (other : Others s t) : Idle rid mine L t := by
  refine ⟨idle.account.others other,?_,?_⟩
  · rw [other.runningKeys]
    intro id row found
    obtain ⟨g,member,rest⟩ := idle.rows id row found
    exact ⟨g,by rw [other.queries]; exact member,rest⟩
  · rw [other.realBst]
    exact idle.tree

theorem Asking.others (asking : Asking g done rest s) (other : Others s t) : Asking g done rest t := by
  refine ⟨asking.account.others other,?_,asking.split,?_,?_,?_,?_⟩
  · rw [other.queries]; exact asking.asked
  · rw [other.runningKeys]
    intro id row differs found
    obtain ⟨h,member,rest⟩ := asking.rows id row differs found
    exact ⟨h,by rw [other.queries]; exact member,rest⟩
  · rw [other.runningKeys]; exact asking.row
  · rw [other.realBst]; exact asking.tree
  · rw [other.realBst]; exact asking.live

-- What holds of a consumer that has only clients and clearThread beside it.
abbrev Alone (I : Shared → Prop) (p : Thread α) (Q : α → Shared → Prop) : Prop := Prog.Triple Others Settled I p Q

theorem Alone.bind {I : Shared → Prop} {p : Thread α} {Q : α → Shared → Prop} {f : α → Thread β} {T : β → Shared → Prop}
    (first : Alone I p Q) (later : ∀ a, Alone (Q a) (f a) T) : Alone I (p >>= f) T := Prog.Triple.bind others_refl first later

theorem idle_atomic {f : Shared → Except Stop (α × Shared)} {M : α → FrequencySmoother → Prop} {next : List Nat}
    (each : ∀ s a t, Idle rid mine L s → f s = .ok (a,t) → Idle rid next (M a) t) :
    Alone (Idle rid mine L) (.atomic f) (fun a => Idle rid next (M a)) := by
  refine Prog.triple_atomic (fun _ _ idle other => idle.others other) (fun _ _ _ idle other => idle.others other) ?_
  intro s a t idle ran
  have after := each s a t idle ran
  exact ⟨after.account.isolated,after⟩

theorem Idle.quiet {M : FrequencySmoother → Prop} (idle : Idle rid mine L s) (quiet : Quiet s t) (tree : M t.proxy.realBst) :
    Idle rid mine M t := by
  obtain ⟨queues,handed,queries,registered,promises,entries⟩ := quiet
  have fresh := idle.account.fresh
  refine ⟨⟨?_,?_,?_,?_,?_,⟨?_,?_,?_⟩⟩,?_,tree⟩
  · rw [queries]; exact idle.account.ids
  · rw [queries]; exact idle.account.promises
  · rw [queries]; exact idle.account.earlier
  · rw [queries,registered]; exact idle.account.entered
  · rw [queries,promises]; exact idle.account.answers
  · rw [queues,handed,queries,promises]; exact fresh.queue
  · rw [handed,promises]; exact fresh.set
  · rw [handed,queries]; exact fresh.asked
  · rw [entries]
    intro id row found
    obtain ⟨g,member,rest⟩ := idle.rows id row found
    exact ⟨g,by rw [queries]; exact member,rest⟩

theorem onProxy_idle {f : Proxy → Except Fault (α × Proxy)} {M : α → FrequencySmoother → Prop}
    (quiet : ∀ p a q, f p = .ok (a,q) → q.promises = p.promises ∧ q.runningKeys.request_map = p.runningKeys.request_map)
    (tree : ∀ p a q, f p = .ok (a,q) → L p.realBst → M a q.realBst) :
    Alone (Idle rid mine L) (onProxy f) (fun a => Idle rid mine (M a)) := by
  apply idle_atomic
  intro s a t idle ran
  split at ran
  · rename_i b q did
    cases ran
    obtain ⟨promises,entries⟩ := quiet _ _ _ did
    exact idle.quiet ⟨rfl,rfl,rfl,rfl,promises,entries⟩ (tree _ _ _ did idle.tree)
  · cases ran

theorem onTree_idle {f : FrequencySmoother → α × FrequencySmoother} {M : α → FrequencySmoother → Prop}
    (tree : ∀ bst, L bst → M (f bst).1 (f bst).2) :
    Alone (Idle rid mine L) (onTree f) (fun a => Idle rid mine (M a)) := by
  apply idle_atomic
  intro s a t idle ran
  split at ran
  · cases ran
  · cases ran
    exact idle.quiet ⟨rfl,rfl,rfl,rfl,rfl,rfl⟩ (tree _ idle.tree)

theorem onStamps_idle {f : FrequencySmoother → Except Fault (α × FrequencySmoother)} {M : α → FrequencySmoother → Prop}
    (tree : ∀ bst a next, f bst = .ok (a,next) → L bst → M a next) :
    Alone (Idle rid mine L) (onStamps f) (fun a => Idle rid mine (M a)) := by
  apply onProxy_idle
  · intro p a q ran
    split at ran
    · cases ran; exact ⟨rfl,rfl⟩
    · cases ran
  · intro p a q ran before
    split at ran
    · rename_i did
      cases ran
      exact tree _ _ _ did before
    · cases ran

-- An idle state whose index is in order.
abbrev Calm (rid : Int) (mine : List Nat) : Shared → Prop := Idle rid mine FrequencySmoother.Grounded

-- Between the two locks of insert and of removeKey the index and the map disagree.
theorem insertReal_idle (wf : WellFormed item ts) :
    Alone (Calm rid mine) (insertReal (bucketKey item ts)) (fun _ => Calm rid mine) := by
  apply Alone.bind (Q:=fun _ => Idle rid mine
    (fun bst => ∃ before : FrequencySmoother, before.Grounded ∧ bst = before.insertEntry (bucketKey item ts)))
  · exact onTree_idle (M:=fun _ bst => ∃ before : FrequencySmoother, before.Grounded ∧
      bst = before.insertEntry (bucketKey item ts)) (fun bst grounded => ⟨bst,grounded,rfl⟩)
  · intro _
    apply onStamps_idle (M:=fun _ => FrequencySmoother.Grounded)
    intro bst a next ran made
    obtain ⟨before,grounded,rfl⟩ := made
    obtain ⟨after,did,same⟩ := bind_ok ran
    cases same
    have grown := grounded.insert wf
    rwa [(FrequencySmoother.insert_sections before _).mp did] at grown

theorem removeReal_idle (key : Str) :
    Alone (Calm rid mine) (removeReal key) (fun _ => Calm rid mine) := by
  apply Alone.bind (Q:=fun _ => Idle rid mine
    (fun bst => ∃ before : FrequencySmoother, before.Grounded ∧ bst = before.removeEntry key))
  · exact onTree_idle (M:=fun _ bst => ∃ before : FrequencySmoother, before.Grounded ∧ bst = before.removeEntry key)
      (fun bst grounded => ⟨bst,grounded,rfl⟩)
  · intro _
    apply onStamps_idle (M:=fun _ => FrequencySmoother.Grounded)
    intro bst a next ran made
    obtain ⟨before,grounded,rfl⟩ := made
    obtain ⟨after,did,same⟩ := bind_ok ran
    cases same
    exact grounded.removed ((FrequencySmoother.removeKey_sections before _).mp did)

-- What is answered is answered from complete rows, and nobody awaits those promises.
theorem Idle.settled {q : ThreadSafeUnorderedMap} {qs : Promises} (idle : Idle rid mine L s)
    (settles : s.proxy.runningKeys.Settles s.proxy.promises q qs) :
    Idle rid mine L {s with proxy:={s.proxy with runningKeys:=q,promises:=qs}} := by
  have answered : ∀ p a, qs.find? p = some a → s.proxy.promises.find? p = some a ∨
      ∃ g ∈ s.queries, g.promise = p ∧ ∃ pairs, a = .sum pairs ∧ pairs.map Prod.fst = g.db_keys := by
    intro p a found
    refine (settles.answers p a found).imp_right ?_
    intro new
    obtain ⟨id,ks,pairs,row,shape,named⟩ := new
    obtain ⟨g,member,_,same⟩ := idle.rows id _ row
    obtain ⟨rfl,promised⟩ := Prod.mk.inj same
    exact ⟨g,member,(Option.some.inj promised).symm,pairs,shape,named⟩
  obtain ⟨queue,shape,distinct,open_,named⟩ := idle.account.fresh.queue
  refine ⟨⟨idle.account.ids,idle.account.promises,idle.account.earlier,idle.account.entered,?_,
    ⟨⟨queue,shape,distinct,?_,named⟩,?_,idle.account.fresh.asked⟩⟩,?_,idle.tree⟩
  · intro g member a found
    rcases answered _ _ found with before | ⟨h,other,same,pairs,shape,named⟩
    · exact idle.account.answers g member a before
    · rw [← List.inj_on_of_nodup_map idle.account.promises other member same]
      exact ⟨pairs,shape,named⟩
  · intro p member
    obtain ⟨small,unset,unasked⟩ := open_ p member
    refine ⟨small,?_,unasked⟩
    intro set
    obtain ⟨a,found⟩ := Table.mem_iff.mp set
    rcases answered _ _ found with before | ⟨g,asked,same,_⟩
    · exact unset (Table.mem_iff.mpr ⟨a,before⟩)
    · exact unasked g asked same
  · intro p set
    obtain ⟨a,found⟩ := Table.mem_iff.mp set
    rcases answered _ _ found with before | ⟨g,asked,rfl,_⟩
    · exact idle.account.fresh.set p (Table.mem_iff.mpr ⟨a,before⟩)
    · exact idle.account.fresh.asked g asked
  · intro id row found
    exact idle.rows id row (settles.rows id row found)

theorem calm_keeps (rid : Int) (mine : List Nat) : Keeps Others Settled (Calm rid mine) := by
  refine ⟨others_refl,fun _ _ calm other => calm.others other,fun _ _ _ after => after.account.isolated,?_,
    fun _ _ _ calm settles => calm.settled settles,?_,?_,removeReal_idle⟩
  · intro s t calm quiet tree
    exact calm.quiet quiet (by rw [tree]; exact calm.tree)
  · intro key
    exact onTree_idle (M:=fun _ => FrequencySmoother.Grounded) (fun _ grounded => grounded.getFrequency key)
  · intro key value
    exact onTree_idle (M:=fun _ => FrequencySmoother.Grounded) (fun _ grounded => grounded.setFrequency key value)

-- The promise of a PUT is no GET's.
theorem Idle.stored {qs : Promises} (idle : Idle rid [p] L s) (ran : TsWaffle.set_value s.proxy.promises p answer = .ok qs) :
    Idle rid [] L {s with proxy:={s.proxy with promises:=qs}} := by
  obtain ⟨queue,shape,distinct,open_,named⟩ := idle.account.fresh.queue
  obtain ⟨small,_,unasked⟩ := open_ p (List.mem_append_left _ List.mem_cons_self)
  unfold TsWaffle.set_value at ran
  split at ran
  · cases ran
  cases ran
  obtain ⟨apart,distinct⟩ := List.nodup_cons.mp distinct
  refine ⟨⟨idle.account.ids,idle.account.promises,idle.account.earlier,idle.account.entered,?_,
    ⟨⟨queue,shape,distinct,?_,named⟩,?_,idle.account.fresh.asked⟩⟩,idle.rows,idle.tree⟩
  · intro g member a found
    rw [Table.find_insert,if_neg (unasked g member)] at found
    exact idle.account.answers g member a found
  · intro q member
    obtain ⟨below,unset,foreign⟩ := open_ q (List.mem_cons_of_mem _ member)
    refine ⟨below,?_,foreign⟩
    rw [Table.mem_insert]
    refine not_or.mpr ⟨?_,unset⟩
    rintro rfl
    exact apart member
  · intro q member
    rcases Table.mem_insert.mp member with rfl | old
    · exact small
    · exact idle.account.fresh.set q old

theorem remove_oldest_data_calm (storage_batch : List Str) (currentKey : Str) :
    Alone (Calm rid mine) (remove_oldest_data storage_batch currentKey) (fun _ => Calm rid mine) := by
  have keeps := calm_keeps rid mine
  unfold remove_oldest_data
  apply keeps.bind
  · apply onProxy_idle (M:=fun _ => FrequencySmoother.Grounded)
    · intro p a q ran
      obtain ⟨oldest,_,same⟩ := bind_ok ran
      cases same
      exact ⟨rfl,rfl⟩
    · intro p a q ran grounded
      obtain ⟨⟨oldest,bst⟩,found,same⟩ := bind_ok ran
      cases same
      exact (getOldestKey_grounded grounded found).1
  intro oldest_key
  apply keeps.bind (look_keeps keeps _)
  intro isPresentInCache
  apply keeps.bind (look_keeps keeps _)
  intro valEvicted
  dsimp only
  generalize (if valEvicted ≠ [] then 2 else if isPresentInCache then 1 else 0 : Nat) = state
  split
  · apply keeps.bind (insertIfNotPresent_keeps keeps oldest_key)
    intro present
    refine keeps.bind (change_keeps keeps ?_) ?_
    · exact fun _ => ⟨rfl,rfl,rfl⟩
    intro _
    exact keeps.done _
  split
  · refine keeps.bind (change_keeps keeps ?_) ?_
    · exact fun _ => ⟨rfl,rfl,rfl⟩
    intro _
    apply keeps.bind (keeps.removed oldest_key)
    intro _
    exact keeps.done _
  · refine keeps.bind (change_keeps keeps ?_) ?_
    · exact fun _ => ⟨rfl,rfl,rfl⟩
    intro _
    apply keeps.bind (keeps.removed oldest_key)
    intro _
    exact keeps.done _

theorem storeKey_calm (p : Nat) (storage_batch : List Str) (value : Str) (wf : WellFormed item ts) :
    Alone (Calm rid [p]) (storeKey p storage_batch (bucketKey item ts) value) (fun _ => Calm rid []) := by
  have keeps := calm_keeps rid [p]
  unfold storeKey
  apply keeps.bind (remove_oldest_data_calm storage_batch _)
  intro storage_batch
  refine keeps.bind (change_keeps keeps ?_) ?_
  · exact fun _ => ⟨rfl,rfl,rfl⟩
  intro _
  apply keeps.bind (insertReal_idle wf)
  intro _
  apply keeps.bind (look_keeps keeps Proxy.timeStamp)
  intro clock
  apply keeps.bind (keeps.moved _ clock)
  intro _
  apply keeps.bind (look_keeps keeps _)
  intro stored
  apply Alone.bind (Q:=fun _ => Calm rid [])
  · apply idle_atomic (M:=fun _ => FrequencySmoother.Grounded)
    intro s a t idle ran
    split at ran
    · rename_i b after did
      cases ran
      obtain ⟨qs,set,same⟩ := bind_ok did
      cases same
      exact idle.stored set
    · cases ran
  intro _
  exact (calm_keeps rid []).done _

theorem asking_atomic {f : Shared → Except Stop (α × Shared)} {done rest more left : List Str}
    (each : ∀ s a t, Asking g done rest s → f s = .ok (a,t) → Asking g more left t) :
    Alone (Asking g done rest) (.atomic f) (fun _ => Asking g more left) := by
  refine Prog.triple_atomic (fun _ _ asking other => asking.others other) (fun _ _ _ asking other => asking.others other) ?_
  intro s a t asking ran
  have after := each s a t asking ran
  exact ⟨after.account.isolated,after⟩

theorem asking_pure {a : α} {done rest : List Str} :
    Alone (Asking g done rest) (pure a) (fun _ => Asking g done rest) :=
  Prog.triple_pure (Q:=fun _ => Asking g done rest) (fun _ _ asking other => asking.others other)

theorem look_asking {done rest : List Str} (f : Proxy → α) :
    Alone (Asking g done rest) (look f) (fun _ => Asking g done rest) := by
  apply asking_atomic
  intro s a t asking ran
  cases ran
  exact asking

-- One more key in the row of the GET that is being registered.
theorem Asking.registered {done rest : List Str} {key : Str} {q : ThreadSafeUnorderedMap}
    (asking : Asking g done (key :: rest) s)
    (row : ∀ id, q.request_map.find? id =
      if id = g.request_id then some (done ++ [key],some g.promise) else s.proxy.runningKeys.request_map.find? id) :
    Asking g (done ++ [key]) rest
      {s with proxy:={s.proxy with runningKeys:=q},registered:=s.registered ++ [(g.request_id,g.promise)]} := by
  have account := asking.account
  refine ⟨⟨account.ids,account.promises,account.earlier,?_,account.answers,
    ⟨account.fresh.queue,account.fresh.set,account.fresh.asked⟩⟩,asking.asked,?_,?_,?_,asking.tree,?_⟩
  · intro id p member
    rcases List.mem_append.mp member with old | new
    · exact account.entered id p old
    · cases List.mem_singleton.mp new
      exact ⟨g,asking.asked,rfl,rfl⟩
  · rw [asking.split,List.append_assoc,List.singleton_append]
  · intro id other differs found
    rw [row,if_neg differs] at found
    exact asking.rows id other differs found
  · rw [row,if_pos rfl,if_neg (by simp)]
  · intro k member
    exact asking.live k (List.mem_cons_of_mem _ member)

theorem insert_cache_asking {done rest : List Str} {key value : Str} {q : ThreadSafeUnorderedMap}
    (asking : Asking g done (key :: rest) s)
    (ran : s.proxy.runningKeys.insert_cache g.request_id key value g.promise = .ok q) :
    Asking g (done ++ [key]) rest
      {s with proxy:={s.proxy with runningKeys:=q},registered:=s.registered ++ [(g.request_id,g.promise)]} := by
  apply asking.registered
  have shape := insert_cache_register ran
  subst shape
  intro id
  simp only [ThreadSafeUnorderedMap.insert_cache.register,Table.find_insert,asking.row]
  by_cases first : done = [] <;> simp [first]

theorem insertIfNotPresentGet_asking {done rest : List Str} {key : Str} (asking : Asking g done (key :: rest) s) :
    Asking g (done ++ [key]) rest
      {s with proxy:={s.proxy with runningKeys:=(s.proxy.runningKeys.insertIfNotPresentGet key g.promise g.request_id).2},
              registered:=s.registered ++ [(g.request_id,g.promise)]} := by
  apply asking.registered
  intro id
  simp only [ThreadSafeUnorderedMap.insertIfNotPresentGet,Table.find_insert,asking.row]
  by_cases first : done = [] <;> simp [first]

theorem requestKey_asking {done rest : List Str} (storage_batch : List Str) (key : Str) :
    Alone (Asking g done (key :: rest)) (requestKey g.promise g.request_id storage_batch key)
      (fun _ => Asking g (done ++ [key]) rest) := by
  have given : ∀ value, Alone (Asking g done (key :: rest))
      (register g.request_id g.promise (fun running => do
        return ((),← running.insert_cache g.request_id key value g.promise)))
      (fun _ => Asking g (done ++ [key]) rest) := by
    intro value
    apply asking_atomic
    intro s a t asking ran
    split at ran
    · rename_i b q did
      cases ran
      obtain ⟨r,cached,same⟩ := bind_ok did
      cases same
      exact insert_cache_asking asking cached
    · cases ran
  unfold requestKey
  apply Alone.bind (Q:=fun known s => known = true ∧ Asking g done (key :: rest) s)
  · refine Prog.triple_atomic (fun _ _ asking other => asking.others other)
      (fun _ _ _ both other => ⟨both.1,both.2.others other⟩) ?_
    intro s a t asking ran
    split at ran
    · cases ran
    · cases ran
      exact ⟨asking.account.isolated,decide_eq_true (asking.live key List.mem_cons_self),asking⟩
  intro known s both
  obtain ⟨rfl,asking⟩ := both
  rw [if_neg Bool.noConfusion]
  revert s
  change Alone (Asking g done (key :: rest)) _ _
  apply Alone.bind (look_asking _)
  intro found
  apply Alone.bind (look_asking _)
  intro valEvicted
  split
  · apply Alone.bind (given _)
    intro _
    exact asking_pure
  split
  · apply Alone.bind (given _)
    intro _
    exact asking_pure
  apply Alone.bind (Q:=fun _ => Asking g (done ++ [key]) rest)
  · apply asking_atomic
    intro s a t asking ran
    cases ran
    exact insertIfNotPresentGet_asking asking
  intro present
  exact asking_pure

theorem requestKeys_asking (rest : List Str) {done : List Str} (storage_batch : List Str) (i : Nat) :
    Alone (Asking g done rest) (requestKeys g.promise g.request_id rest storage_batch i)
      (fun _ => Asking g (done ++ rest) []) := by
  induction rest generalizing done storage_batch i with
  | nil =>
    rw [List.append_nil]
    exact asking_pure
  | cons key rest ih =>
    apply Alone.bind (requestKey_asking storage_batch key)
    intro more
    have later : Alone (Asking g (done ++ [key]) rest) (requestKeys g.promise g.request_id rest more (i+1))
        (fun _ => Asking g (done ++ [key] ++ rest) []) := ih more (i+1)
    rwa [List.append_assoc] at later

-- When all keys are in, the row is complete.
theorem Asking.idle {done : List Str} (asking : Asking g done [] s) : Calm (g.request_id+1) [] s := by
  refine ⟨asking.account,?_,asking.tree⟩
  intro id row found
  by_cases same : id = g.request_id
  · subst same
    rw [asking.row] at found
    split at found
    · cases found
    · cases found
      exact ⟨g,asking.asked,rfl,by rw [asking.split,List.append_nil]⟩
  · exact asking.rows id row same found

theorem Fresh.asked_now (fresh : Fresh [p] s) (rid : Int) (db_keys : List Str) (bst : FrequencySmoother) :
    Fresh [] {s with proxy:={s.proxy with realBst:=bst},queries:=s.queries ++ [⟨p,rid,db_keys⟩]} := by
  obtain ⟨queue,shape,distinct,open_,named⟩ := fresh.queue
  obtain ⟨small,_,_⟩ := open_ p (List.mem_append_left _ List.mem_cons_self)
  obtain ⟨apart,distinct⟩ := List.nodup_cons.mp distinct
  refine ⟨⟨queue,shape,distinct,?_,named⟩,fresh.set,?_⟩
  · intro q member
    obtain ⟨below,free,foreign⟩ := open_ q (List.mem_cons_of_mem _ member)
    refine ⟨below,free,?_⟩
    intro g asked
    rcases List.mem_append.mp asked with old | new
    · exact foreign g old
    · rw [List.mem_singleton.mp new]
      rintro rfl
      exact apart member
  · intro g member
    rcases List.mem_append.mp member with old | new
    · exact fresh.asked g old
    · rw [List.mem_singleton.mp new]
      exact small

-- A GET that is split takes the next id, and the promise in the consumer's hands.
theorem Account.asked_now (account : Account rid [p] s) (db_keys : List Str) (bst : FrequencySmoother) :
    Account (rid+1) [] {s with proxy:={s.proxy with realBst:=bst},queries:=s.queries ++ [⟨p,rid,db_keys⟩]} := by
  obtain ⟨queue,_,_,open_,_⟩ := account.fresh.queue
  obtain ⟨_,unset,unasked⟩ := open_ p (List.mem_append_left _ List.mem_cons_self)
  refine ⟨?_,?_,?_,?_,?_,account.fresh.asked_now rid db_keys bst⟩
  · rw [List.map_append]
    refine List.Nodup.append account.ids (List.nodup_singleton _) ?_
    intro id member last
    obtain ⟨g,asked,rfl⟩ := List.mem_map.mp member
    exact ne_of_lt (account.earlier g asked) (List.mem_singleton.mp last)
  · rw [List.map_append]
    refine List.Nodup.append account.promises (List.nodup_singleton _) ?_
    intro q member last
    obtain ⟨g,asked,rfl⟩ := List.mem_map.mp member
    exact unasked g asked (List.mem_singleton.mp last)
  · intro g member
    rcases List.mem_append.mp member with old | new
    · exact lt_trans (account.earlier g old) (lt_add_one rid)
    · rw [List.mem_singleton.mp new]
      exact lt_add_one rid
  · intro id q member
    obtain ⟨g,asked,rest⟩ := account.entered id q member
    exact ⟨g,List.mem_append_left _ asked,rest⟩
  · intro g member a found
    rcases List.mem_append.mp member with old | new
    · exact account.answers g old a found
    · rw [List.mem_singleton.mp new] at found
      exact absurd (Table.mem_iff.mpr ⟨a,found⟩) unset

theorem Idle.asking {bst : FrequencySmoother} (idle : Calm rid [p] s)
    (ran : TsWaffle.get_split_keys s.proxy.realBst get_key = .ok (db_keys,bst)) :
    Asking ⟨p,rid,db_keys⟩ [] db_keys
      {s with proxy:={s.proxy with realBst:=bst},queries:=s.queries ++ [⟨p,rid,db_keys⟩]} := by
  have grounded := idle.tree
  refine ⟨idle.account.asked_now db_keys bst,?_,rfl,?_,?_,?_,?_⟩
  · exact List.mem_append_right _ List.mem_cons_self
  · intro id row _ found
    obtain ⟨g,asked,rest⟩ := idle.rows id row found
    exact ⟨g,List.mem_append_left _ asked,rest⟩
  · rw [if_pos rfl]
    cases found : s.proxy.runningKeys.request_map.find? rid with
    | none => rfl
    | some row =>
      obtain ⟨g,asked,same,_⟩ := idle.rows rid row found
      exact absurd same (ne_of_lt (idle.account.earlier g asked))
  · obtain ⟨item,_,_,_,rfl⟩ := get_split_keys_returned ran
    exact grounded.looked_up item
  · intro k member
    obtain ⟨item,ts,listed,rfl⟩ := FrequencySmoother.get_split_keys_listed ran member
    obtain ⟨_,_,_,_,rfl⟩ := get_split_keys_returned ran
    exact (grounded.listed item ts listed).2

theorem ended (l : Locals) : Alone (Calm l.request_id []) (pure l) (fun l => Calm l.request_id []) :=
  Prog.triple_pure (Q:=fun (l : Locals) => Calm l.request_id []) (fun _ _ idle other => idle.others other)

theorem pop_calm : Alone (Calm rid []) (pop 0)
    (fun item s => (∃ r : Request, r.WellFormed ∧ item.1 = r.operation) ∧ Calm rid [item.2] s) := by
  refine Prog.triple_atomic (fun _ _ idle other => idle.others other)
    (fun _ _ _ both other => ⟨both.1,both.2.others other⟩) ?_
  intro s item t calm ran
  obtain ⟨queue,shape,distinct,open_,named⟩ := calm.account.fresh.queue
  rw [shape] at ran
  cases queue with
  | nil => cases ran
  | cons first rest =>
    cases ran
    have account := calm.account
    have popped : Calm rid [item.2] {s with operation_queues_:=[rest]} :=
      ⟨⟨account.ids,account.promises,account.earlier,account.entered,account.answers,
        ⟨⟨rest,rfl,distinct,open_,fun other member => named other (List.mem_cons_of_mem _ member)⟩,account.fresh.set,
          account.fresh.asked⟩⟩,calm.rows,calm.tree⟩
    exact ⟨popped.account.isolated,named item List.mem_cons_self,popped⟩

theorem serve_calm (l : Locals) :
    Alone (Calm l.request_id []) (serve 0 l) (fun m => Calm m.request_id []) := by
  apply Alone.bind pop_calm
  intro item s both
  obtain ⟨op,promise⟩ := item
  obtain ⟨⟨r,wf,same⟩,calm⟩ := both
  revert s
  change Alone (Calm l.request_id [promise]) _ _
  dsimp only at same ⊢
  split
  · apply Alone.bind (Q:=fun db_keys => Asking ⟨promise,l.request_id,db_keys⟩ [] db_keys)
    · refine Prog.triple_atomic (fun _ _ idle other => idle.others other) (fun _ _ _ asking other => asking.others other) ?_
      intro s db_keys t calm ran
      split at ran
      · rename_i keys bst did
        cases ran
        have asking := calm.asking did
        exact ⟨asking.account.isolated,asking⟩
      · cases ran
    intro db_keys
    apply Alone.bind ((requestKeys_asking (g:=⟨promise,l.request_id,db_keys⟩) db_keys l.storage_batch l.i).post
      (T:=fun _ => Calm (l.request_id+1) []) (fun _ _ asking => asking.idle))
    intro more
    exact ended ⟨more.1,more.2,l.request_id+1⟩
  · rename_i put
    subst same
    cases r with
    | get item start_timestamp end_timestamp => exact absurd rfl put
    | put item ts value =>
      apply Alone.bind (Q:=fun _ => Calm l.request_id [])
      · rw [create_security_batch,if_neg put]
        exact storeKey_calm promise l.storage_batch value wf.1
      intro more
      exact ended ⟨more,l.i+1,l.request_id⟩

end Interleaving
end TsWaffle
