import TsWaffle.Novelty
import TsWaffle.Returning
import TsWaffle.Lib.Window

namespace TsWaffle
open Text Runs Server
variable {cfg : Config} {env : Env} {s t : Server} {pairs : List (Str × Str)} {draws : Draws} {item : Str} {ts : Int}
  {r : Reference}

-- The plain store the proxy stands for: the buckets of each item and their values.
structure Reference where
  buckets : Str → Finset Int
  value : Str → Int → Str

namespace Reference

def write (r : Reference) (item : Str) (ts : Int) (v : Str) (buckets : Finset Int) : Reference :=
  ⟨Function.update r.buckets item buckets,fun i t => if i = item ∧ t = ts then v else r.value i t⟩

def load : List (Str × Str) → Reference
  | [] => ⟨fun _ => ∅,fun _ _ => []⟩
  | (key,v) :: rest =>
    match get_key_timestamp_split key with
    | .ok (item,ts) => (load rest).write item ts v (insert ts ((load rest).buckets item))
    | .error _ => load rest

-- One request: a PUT drops the item's oldest bucket and adds its own.
def serve (r : Reference) : Request → Reference
  | .put item ts v => r.write item ts v (Window.slide (r.buckets item) ts)
  | .get _ _ _ => r

def after (r : Reference) (requests : List Request) : Reference := requests.foldl serve r

def answer (r : Reference) (item : Str) (a b : Int) : List (Str × Str) :=
  (select ((r.buckets item).sort (· ≤ ·)) a b).map (fun t => (bucketKey item t,r.value item t))

theorem after_append (r : Reference) (one two : List Request) : r.after (one ++ two) = (r.after one).after two :=
  List.foldl_append

theorem load_buckets (good : Loadable pairs) (item : Str) (ts : Int) :
    ts ∈ (load pairs).buckets item ↔ WellFormed item ts ∧ bucketKey item ts ∈ pairs.map Prod.fst := by
  induction pairs with
  | nil => simp [load]
  | cons kv rest ih =>
    obtain ⟨key,v⟩ := kv
    obtain ⟨other,u,wf,name⟩ := good.named (key,v) List.mem_cons_self
    have tail : Loadable rest := ⟨fun kv member => good.named kv (List.mem_cons_of_mem _ member),
      (List.nodup_cons.mp good.distinct).2⟩
    dsimp only at name
    subst name
    simp only [load,bucketKey_split wf,write,List.map_cons,List.mem_cons]
    by_cases same : item = other
    · subst same
      rw [Function.update_self,Finset.mem_insert,ih tail]
      constructor
      · rintro (rfl | ⟨good_,later⟩)
        · exact ⟨wf,.inl rfl⟩
        · exact ⟨good_,.inr later⟩
      · rintro ⟨good_,first | later⟩
        · exact .inl (bucketKey_injective good_.2.1 wf.2.1 first).2
        · exact .inr ⟨good_,later⟩
    · rw [Function.update_of_ne same,ih tail]
      constructor
      · rintro ⟨good_,later⟩
        exact ⟨good_,.inr later⟩
      · rintro ⟨good_,first | later⟩
        · exact absurd (bucketKey_injective good_.2.1 wf.2.1 first).1 same
        · exact ⟨good_,later⟩

theorem load_value (good : Loadable pairs) (wf : WellFormed item ts) (member : (bucketKey item ts,v) ∈ pairs) :
    (load pairs).value item ts = v := by
  induction pairs with
  | nil => cases member
  | cons kv rest ih =>
    obtain ⟨key,w⟩ := kv
    obtain ⟨other,u,proper,name⟩ := good.named (key,w) List.mem_cons_self
    obtain ⟨absent,distinct⟩ := List.nodup_cons.mp good.distinct
    dsimp only at name
    subst name
    simp only [load,bucketKey_split proper,write]
    rcases List.mem_cons.mp member with first | later
    · simp only [Prod.mk.injEq] at first
      obtain ⟨key,valued⟩ := first
      rw [if_pos (bucketKey_injective wf.2.1 proper.2.1 key),valued]
    · rw [if_neg,ih ⟨fun kv listed => good.named kv (List.mem_cons_of_mem _ listed),distinct⟩ later]
      rintro ⟨rfl,rfl⟩
      exact absent (List.mem_map.mpr ⟨_,later,rfl⟩)

end Reference

-- The requests a run has popped.
def requested (actions : List Action) : List Request :=
  actions.filterMap (fun action => match action with
    | .serve r => some r
    | _ => none)

theorem requestKeys_requests (promise : Nat) (keys : List Str) (ran : requestKeys promise keys s = .ok t) :
    t.requests = s.requests := by
  induction keys generalizing s with
  | nil =>
    cases ran
    rfl
  | cons key rest ih =>
    obtain ⟨p,more,_,tail⟩ := requestKeys_uncons ran
    have same := ih tail
    exact same

theorem serve_requests {r : Request} (ran : s.serve r = .ok t) : t.requests = s.requests ++ [r] := by
  rcases serve_returned ran with ⟨_,keys,bst,m,_,asked,rfl⟩ | ⟨_,p,more,_,rfl⟩
  · exact requestKeys_requests _ _ asked
  · rfl

theorem close_requests (ran : s.close cfg env choice = .ok t) : t.requests = s.requests := by
  obtain ⟨_,_,_,_,_,rfl⟩ := close_returned ran
  rfl

theorem run_requests (actions : List Action) (ran : run (step cfg env) s actions = .ok t) :
    t.requests = s.requests ++ requested actions := by
  induction actions generalizing s with
  | nil => cases ran; simp [requested]
  | cons action rest ih =>
    cases stepped : step cfg env s action with
    | error fault =>
      simp only [run,stepped] at ran
      cases ran
    | ok next =>
      rw [run_cons stepped] at ran
      rw [ih ran]
      cases action with
      | serve r =>
        rw [serve_requests stepped]
        simp [requested]
      | close choice =>
        rw [close_requests stepped]
        simp [requested]
      | clear =>
        cases stepped
        simp [requested]

-- A live key that is not scheduled for deletion.
def Remaining (s : Server) (k : Str) : Prop := k ∈ s.proxy.realBst.accessFreqs ∧ k ∉ s.proxy.keys_to_be_deleted

-- The proxy agrees with the plain store, once what is scheduled for deletion is
-- taken as deleted.
structure Matches (s : Server) (r : Reference) : Prop where
  buckets : ∀ item ts, ts ∈ r.buckets item ↔ WellFormed item ts ∧ Remaining s (bucketKey item ts)
  values : ∀ item ts v, WellFormed item ts → s.last (bucketKey item ts) = some v → r.value item ts = v

theorem Initial.matches_load (start : Initial cfg env pairs s) (good : Loadable pairs) :
    Matches s (Reference.load pairs) := by
  refine ⟨?_,?_⟩
  · intro item ts
    rw [Reference.load_buckets good,Remaining,start.live,start.unscheduled]
    simp
  · intro item ts v wf value
    have listed : bucketKey item ts ∈ pairs.map Prod.fst := by
      have written := lastIn_mem _ value
      simpa [writes,start.loaded,start.unasked] using written
    obtain ⟨⟨k,w⟩,member,same⟩ := List.mem_map.mp listed
    dsimp only at same
    subst same
    rw [start.last_loaded good member] at value
    cases value
    exact Reference.load_value good wf member

-- A PUT finds the bucket it retires not yet scheduled by an earlier PUT.
def Unscheduled (s : Server) : Action → Prop
  | .serve (.put item _ _) => ∀ u ∈ s.proxy.realBst.oldest? item, bucketKey item u ∉ s.proxy.keys_to_be_deleted
  | _ => True

instance : ∀ action, Decidable (Unscheduled s action)
  | .serve (.put item _ _) => Option.decidableForallMem (s.proxy.realBst.oldest? item)
  | .serve (.get _ _ _) => inferInstanceAs (Decidable True)
  | .close _ => inferInstanceAs (Decidable True)
  | .clear => inferInstanceAs (Decidable True)

theorem retire_remaining (s : Server) (o k : Str) : Remaining (s.retire o) k ↔ Remaining s k ∧ k ≠ o := by
  unfold Remaining
  by_cases held : o ∈ s.proxy.cache.held
  · rw [retire_cached held,FrequencySmoother.removeKey_live]
    tauto
  · rw [retire_uncached held]
    simp only [List.mem_append,List.mem_singleton]
    tauto

theorem record_remaining (s : Server) (item : Str) (ts : Int) (v k : Str)
    (free : bucketKey item ts ∉ s.proxy.keys_to_be_deleted) :
    Remaining (s.record item ts v) k ↔ k = bucketKey item ts ∨ Remaining s k := by
  have live : k ∈ (s.record item ts v).proxy.realBst.accessFreqs ↔
      k = bucketKey item ts ∨ k ∈ s.proxy.realBst.accessFreqs := store_live _ _ _ _
  unfold Remaining
  rw [live]
  by_cases same : k = bucketKey item ts
  · subst same
    simpa [record] using free
  · simp [same,record]

theorem put_matches (wf : WellFormed item ts) (old : WellFormed item u) (remaining : Remaining s (bucketKey item u))
    (least : ∀ w, WellFormed item w → Remaining s (bucketKey item w) → u ≤ w)
    (free : bucketKey item ts ∉ (s.retire (bucketKey item u)).proxy.keys_to_be_deleted) (agree : Matches s r) :
    Matches ((s.retire (bucketKey item u)).record item ts v) (r.serve (.put item ts v)) := by
  have first : u ∈ r.buckets item := (agree.buckets item u).mpr ⟨old,remaining⟩
  have below : ∀ w ∈ r.buckets item, u ≤ w := by
    intro w member
    obtain ⟨proper,here⟩ := (agree.buckets item w).mp member
    exact least w proper here
  refine ⟨?_,?_⟩
  · intro other n
    rw [record_remaining _ _ _ _ _ free,retire_remaining]
    by_cases same : other = item
    · subst same
      simp only [Reference.serve,Reference.write,Function.update_self]
      rw [Window.mem_slide first below,agree.buckets]
      constructor
      · rintro (rfl | ⟨⟨proper,here⟩,differs⟩)
        · exact ⟨wf,.inl rfl⟩
        · exact ⟨proper,.inr ⟨here,fun key => differs (bucketKey_injective proper.2.1 old.2.1 key).2⟩⟩
      · rintro ⟨proper,new | ⟨here,differs⟩⟩
        · exact .inl (bucketKey_injective proper.2.1 wf.2.1 new).2
        · exact .inr ⟨⟨proper,here⟩,fun key => differs (by rw [key])⟩
    · simp only [Reference.serve,Reference.write,Function.update_of_ne same]
      rw [agree.buckets]
      constructor
      · rintro ⟨proper,here⟩
        exact ⟨proper,.inr ⟨here,fun key => same (bucketKey_injective proper.2.1 old.2.1 key).1⟩⟩
      · rintro ⟨proper,new | ⟨here,_⟩⟩
        · exact absurd (bucketKey_injective proper.2.1 wf.2.1 new).1 same
        · exact ⟨proper,here⟩
  · intro other n w proper value
    rw [last_record,retire_last] at value
    simp only [Reference.serve,Reference.write]
    by_cases same : bucketKey other n = bucketKey item ts
    · rw [if_pos same] at value
      cases value
      rw [if_pos (bucketKey_injective proper.2.1 wf.2.1 same)]
    · rw [if_neg same] at value
      rw [if_neg]
      · exact agree.values other n w proper value
      · rintro ⟨rfl,rfl⟩
        exact same rfl

theorem Matches.congr (agree : Matches s r) (remaining : ∀ k, Remaining t k ↔ Remaining s k) (last : t.last = s.last) :
    Matches t r := by
  refine ⟨?_,?_⟩
  · intro item ts
    rw [remaining,agree.buckets]
  · intro item ts v wf value
    rw [last] at value
    exact agree.values item ts v wf value

-- Every step of the proxy is the step of the plain store on the requests popped.
theorem Stepped.matches_after (stepped : Stepped cfg env s action t) (sound : Sound cfg env s)
    (unscheduled : Unscheduled s action) (agree : Matches s (r.after s.requests)) :
    Matches t (r.after t.requests) := by
  cases stepped with
  | get item a b running batch i state =>
    have popped : r.after (s.requests ++ [.get item a b]) = r.after s.requests := by
      rw [Reference.after_append]
      rfl
    change Matches _ (r.after (s.requests ++ [.get item a b]))
    rw [popped]
    exact agree.congr (fun _ => Iff.rfl) (last_get s item a b)
  | put item ts v u wf oldest safe =>
    have live := ((sound.resident.exact.index item u).mp oldest.1).2
    have free := unscheduled u (FrequencySmoother.mem_oldest.mpr oldest)
    have popped : r.after ((s.retire (bucketKey item u)).record item ts v).requests =
        (r.after s.requests).serve (.put item ts v) := by
      simp only [record,retire_requests]
      rw [Reference.after_append]
      rfl
    rw [popped]
    refine put_matches wf.1 ((sound.resident.exact.index item u).mp oldest.1).1 ⟨live,free⟩ ?_ ?_ agree
    · intro w proper here
      exact oldest.2 w ((sound.resident.exact.index item w).mpr ⟨proper,here.1⟩)
    · exact put_unscheduled sound oldest safe
  | close choice _ real fake evicted done =>
    rw [done.requests_eq]
    refine agree.congr ?_ done.last_eq
    intro k
    unfold Remaining
    rw [done.live_iff,done.cleared]
    simp [and_comm]
  | clear p cleared =>
    have frame := cleared.frame
    rw [frame]
    exact agree.congr (fun _ => Iff.rfl) rfl

-- A new bucket for the oldest one: the number of buckets stays.
theorem Stepped.count_after (stepped : Stepped cfg env s action t) (sound : Sound cfg env s) (known : Known s)
    (novel : Novel s action) (unscheduled : Unscheduled s action) (agree : Matches s (r.after s.requests)) (other : Str) :
    ((r.after t.requests).buckets other).card = ((r.after s.requests).buckets other).card := by
  cases stepped with
  | get item a b running batch i state =>
    change ((r.after (s.requests ++ [.get item a b])).buckets other).card = _
    rw [Reference.after_append]
    rfl
  | put item ts v u wf oldest safe =>
    obtain ⟨old,live⟩ := (sound.resident.exact.index item u).mp oldest.1
    have free := unscheduled u (FrequencySmoother.mem_oldest.mpr oldest)
    have fresh : ts ∉ (r.after s.requests).buckets item := by
      intro member
      exact novel (known.written _ ((agree.buckets item ts).mp member).2.1)
    simp only [record,retire_requests]
    rw [Reference.after_append]
    change (Function.update (r.after s.requests).buckets item
      (Window.slide ((r.after s.requests).buckets item) ts) other).card = _
    by_cases same : other = item
    · subst same
      rw [Function.update_self]
      refine Window.slide_card ((agree.buckets other u).mpr ⟨old,live,free⟩) ?_ fresh
      intro w member
      obtain ⟨proper,here⟩ := (agree.buckets other w).mp member
      exact oldest.2 w ((sound.resident.exact.index other w).mpr ⟨proper,here.1⟩)
    · rw [Function.update_of_ne same]
  | close choice _ real fake evicted done =>
    rw [done.requests_eq]
  | clear p cleared => rfl

-- The steps of a run in which no PUT meets a bucket scheduled by another.
def Retaining (cfg : Config) (s : Server) (action : Action) : Prop := Growing cfg s action ∧ Unscheduled s action

instance (action : Action) : Decidable (Retaining cfg s action) := inferInstanceAs (Decidable (_ ∧ _))

-- The layer of such runs over the store r they started with.
structure Tracking (r : Reference) (s : Server) : Prop where
  known : Known s
  agree : Matches s (r.after s.requests)
  count : ∀ item, ((r.after s.requests).buckets item).card = (r.buckets item).card

theorem retaining_layered (cfg : Config) (env : Env) (r : Reference) :
    Layered cfg env (Retaining cfg) (Tracking r) := by
  have growing := growing_layered cfg env
  refine ⟨?_,?_⟩
  · intro s action sound track now
    exact growing.allowed s action sound track.known now.1
  · intro s action t sound track now stepped
    refine ⟨growing.kept s action t sound track.known now.1 stepped,stepped.matches_after sound now.2 track.agree,?_⟩
    intro item
    rw [stepped.count_after sound track.known now.1.2 now.2 track.agree item,track.count]

theorem Initial.tracking (start : Initial cfg env pairs s) (good : Loadable pairs) :
    Tracking (Reference.load pairs) s := by
  have none : (Reference.load pairs).after s.requests = Reference.load pairs := by
    rw [start.unasked]
    rfl
  refine ⟨start.known,?_,?_⟩
  · rw [none]
    exact start.matches_load good
  · intro item
    rw [none]

-- Between batches nothing is scheduled, and the index is the plain store's.
theorem Matches.index (agree : Matches s r) (valid : s.proxy.realBst.Exact)
    (unscheduled : s.proxy.keys_to_be_deleted = []) (item : Str) :
    (s.proxy.realBst.timestamps item).toList.toFinset = r.buckets item := by
  ext ts
  rw [List.mem_toFinset,OrderedSet.mem_toList,valid.index,agree.buckets,Remaining,unscheduled]
  simp

-- Two PUTs of one item in one batch, with the oldest bucket in the storage: both
-- schedule the same bucket.
def crowdedActions : List Action :=
  [.serve (.put (str "a") 4 (str "t")),.serve (.put (str "a") 5 (str "u")),.close sampleChoice]

end TsWaffle
