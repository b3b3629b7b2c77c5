import TsWaffle.Refinement
import TsWaffle.Sizing
import TsWaffle.Conserving

namespace TsWaffle
open Text Runs Server
variable {cfg : Config} {env : Env} {s t : Server} {pairs : List (Str × Str)} {draws : Draws} {r : Reference} {width : Nat}
  {q : Request} {action : Action}

def Request.item : Request → Str
  | put item _ _ => item
  | get item _ _ => item

-- The items named by the last R-1 requests.
def recentItems (R : Nat) (earlier : List Request) : List Str :=
  (earlier.drop (earlier.length-(R-1))).map Request.item

-- What a request has to be after the earlier ones, told from the plain store: a PUT
-- brings a new bucket of an item that has one, and a GET selects a bucket.
def Workable (R : Nat) (pairs : List (Str × Str)) (earlier : List Request) (q : Request) : Prop :=
  q.WellFormed ∧ q.item ∉ recentItems R earlier ∧
    match q with
    | .put item ts _ => (((Reference.load pairs).after earlier).buckets item).Nonempty ∧
        bucketKey item ts ∉ (pairs ++ earlier.filterMap Request.written).map Prod.fst
    | .get item a b => ∃ u ∈ ((Reference.load pairs).after earlier).buckets item, u ≤ b ∧
        (a ≤ u ∨ ∀ w ∈ ((Reference.load pairs).after earlier).buckets item, w < a → w ≤ u)

instance : ∀ q, Decidable (Workable R pairs earlier q)
  | .put _ _ _ => inferInstanceAs (Decidable (_ ∧ _ ∧ _ ∧ _))
  | .get _ _ _ => inferInstanceAs (Decidable (_ ∧ _ ∧ _))

def Workload (R : Nat) (pairs : List (Str × Str)) : List Request → List Request → Prop
  | _,[] => True
  | earlier,q :: rest => Workable R pairs earlier q ∧ Workload R pairs (earlier ++ [q]) rest

instance decideWorkload : ∀ earlier requests, Decidable (Workload R pairs earlier requests)
  | _,[] => .isTrue trivial
  | earlier,q :: rest =>
    have : Decidable (Workload R pairs (earlier ++ [q]) rest) := decideWorkload _ rest
    inferInstanceAs (Decidable (_ ∧ _))

-- Room for the operations of a batch whose last request is a GET of a whole item,
-- and keys enough to fill it.
structure Ample (cfg : Config) (pairs : List (Str × Str)) (width : Nat) : Prop where
  wide : cfg.R-1+width+cfg.F ≤ cfg.B
  fakes : cfg.F ≤ cfg.D
  filled : cfg.B-cfg.F+cfg.cacheBatches*pairs.length/100 ≤ pairs.length
  buckets : ∀ item, ((Reference.load pairs).buckets item).card ≤ width

-- The loops of consumer_thread and nothing else.
def Paced (cfg : Config) (s : Server) : Action → Prop
  | .serve _ => s.i < cfg.R
  | .close _ => cfg.R ≤ s.i
  | .clear => True

instance : ∀ action, Decidable (Paced cfg s action)
  | .serve _ => inferInstanceAs (Decidable (_ < _))
  | .close _ => inferInstanceAs (Decidable (_ ≤ _))
  | .clear => inferInstanceAs (Decidable True)

-- What is scheduled in a batch belongs to the items named in it, and the batch has
-- no more requests than operations.
structure Spread (cfg : Config) (pairs : List (Str × Str)) (width : Nat) (s : Server) : Prop where
  loaded : s.loaded = pairs
  counted : s.storage_batch.length ≤ s.i
  limit : s.i ≤ cfg.R-1+width
  recent : ∃ older recent, s.requests = older ++ recent ∧ recent.length ≤ s.i ∧ ScheduledFrom (recent.map Request.item) s

structure Flowing (cfg : Config) (pairs : List (Str × Str)) (width : Nat) (s : Server) : Prop where
  tracking : Tracking (Reference.load pairs) s
  answering : Answering (Reference.load pairs) s
  sized : Sized cfg pairs.length (cfg.cacheBatches*pairs.length/100) s
  spread : Spread cfg pairs width s

theorem suffix_recent {R : Nat} {older recent : List Request} (short : recent.length ≤ R-1) (member : q ∈ recent) :
    q.item ∈ recentItems R (older ++ recent) := by
  refine List.mem_map.mpr ⟨q,?_,rfl⟩
  rw [List.length_append,List.drop_append_of_le_length (by omega)]
  exact List.mem_append_right _ member

-- An item that the batch has not named has none of its buckets scheduled.
theorem Spread.unscheduled (spread : Spread cfg pairs width s) (early : s.i < cfg.R)
    (apart : item ∉ recentItems cfg.R s.requests) (free : chr '@' ∉ item) :
    bucketKey item u ∉ s.proxy.keys_to_be_deleted := by
  obtain ⟨older,recent,split,short,scheduled⟩ := spread.recent
  intro doomed
  obtain ⟨other,listed,w,good,name⟩ := scheduled _ doomed
  obtain ⟨rfl,_⟩ := bucketKey_injective free good.2.1 name
  obtain ⟨q,member,rfl⟩ := List.mem_map.mp listed
  apply apart
  rw [split]
  exact suffix_recent (by omega) member

-- Such an item has the buckets of the plain store.
theorem Flowing.index (flowing : Flowing cfg pairs width s) (sound : Sound cfg env s) (early : s.i < cfg.R)
    (apart : item ∉ recentItems cfg.R s.requests) (free : chr '@' ∉ item) :
    u ∈ s.proxy.realBst.timestamps item ↔ u ∈ ((Reference.load pairs).after s.requests).buckets item := by
  rw [flowing.tracking.agree.buckets,sound.resident.exact.index,Remaining]
  have idle := flowing.spread.unscheduled early apart free (u:=u)
  tauto

theorem put_refining (flowing : Flowing cfg pairs width s) (sound : Sound cfg env s) (early : s.i < cfg.R)
    (workable : Workable cfg.R pairs s.requests (.put item ts v)) : Refining cfg s (.serve (.put item ts v)) := by
  obtain ⟨wf,apart,⟨u,bucket⟩,fresh⟩ := workable
  have listed := (flowing.index sound early apart wf.1.2.1).mpr bucket
  refine ⟨⟨⟨⟨early,wf,?_⟩,?_⟩,?_⟩,trivial⟩
  · exact List.ne_nil_of_mem (OrderedSet.mem_toList.mpr listed)
  · simpa only [Novel,writes,flowing.spread.loaded] using fresh
  · exact fun _ _ => flowing.spread.unscheduled early apart wf.1.2.1

theorem get_refining (flowing : Flowing cfg pairs width s) (sound : Sound cfg env s) (early : s.i < cfg.R)
    (workable : Workable cfg.R pairs s.requests (.get item a b)) : Refining cfg s (.serve (.get item a b)) := by
  obtain ⟨wf,apart,u,bucket,before,side⟩ := workable
  have index := fun w => flowing.index sound early apart wf.1 (u:=w)
  have sorted := (s.proxy.realBst.timestamps item).sorted
  refine ⟨⟨⟨⟨early,wf,trivial⟩,trivial⟩,trivial⟩,?_,?_⟩
  · apply List.ne_nil_of_mem (a:=bucketKey item u)
    refine List.mem_map.mpr ⟨u,(mem_select sorted a b u).mpr ⟨?_,before,?_⟩,rfl⟩
    · exact OrderedSet.mem_toList.mpr ((index u).mpr bucket)
    · refine side.imp_right ?_
      intro greatest w member
      exact greatest w ((index w).mp (OrderedSet.mem_toList.mp member))
  · intro k member
    obtain ⟨t,_,rfl⟩ := List.mem_map.mp member
    exact flowing.spread.unscheduled early apart wf.1

-- Where the workload has come to, the consumer's next step meets all that the
-- answers depend on.
theorem Flowing.refining (flowing : Flowing cfg pairs width s) (sound : Sound cfg env s) (ample : Ample cfg pairs width)
    (paced : Paced cfg s action) (workload : Workload cfg.R pairs s.requests (requested [action])) :
    Refining cfg s action := by
  cases action with
  | serve q =>
    cases q with
    | put item ts v => exact put_refining flowing sound paced workload.1
    | get item a b => exact get_refining flowing sound paced workload.1
  | close choice =>
    have room := ample.wide
    have counted := flowing.spread.counted
    have limit := flowing.spread.limit
    have free := uncached_length sound flowing.sized
    have filled := ample.filled
    refine ⟨⟨⟨⟨paced,⟨by omega,ample.fakes,by omega⟩⟩,trivial⟩,trivial⟩,trivial⟩
  | clear => exact ⟨⟨⟨trivial,trivial⟩,trivial⟩,trivial⟩

theorem Stepped.loaded_eq (stepped : Stepped cfg env s action t) : t.loaded = s.loaded := by
  cases stepped with
  | get item a b running batch i state => rfl
  | put item ts v u wf oldest safe => exact retire_loaded s _
  | close choice _ real fake evicted done => rw [done.frame]
  | clear p cleared => rfl

theorem ScheduledFrom.mono (scheduled : ScheduledFrom seen s) (more : ∀ item ∈ seen, item ∈ wider) :
    ScheduledFrom wider s := by
  intro k member
  obtain ⟨item,listed,rest⟩ := scheduled k member
  exact ⟨item,more item listed,rest⟩

theorem Flowing.card_le (flowing : Flowing cfg pairs width s) (ample : Ample cfg pairs width) (item : Str) :
    (((Reference.load pairs).after s.requests).buckets item).card ≤ width := by
  rw [flowing.tracking.count]
  exact ample.buckets item

-- A GET asks for no more buckets than its item has.
theorem Flowing.selected_le (flowing : Flowing cfg pairs width s) (sound : Sound cfg env s) (ample : Ample cfg pairs width)
    (early : s.i < cfg.R) (apart : item ∉ recentItems cfg.R s.requests) (free : chr '@' ∉ item) :
    (s.selected item a b).length ≤ width := by
  have sorted := (s.proxy.realBst.timestamps item).sorted
  have distinct : (select (s.proxy.realBst.timestamps item).toList a b).Nodup :=
    (select_sorted sorted a b).imp (fun less => ne_of_lt less)
  rw [selected,List.length_map,← List.toFinset_card_of_nodup distinct]
  refine (Finset.card_le_card ?_).trans (flowing.card_le ample item)
  intro u member
  have listed := select_sub sorted (List.mem_toFinset.mp member)
  exact (flowing.index sound early apart free).mp (OrderedSet.mem_toList.mp listed)

theorem Spread.popped (spread : Spread cfg pairs width s) (sound : Sound cfg env s)
    (stepped : Stepped cfg env s (.serve q) t) (counted : t.storage_batch.length ≤ t.i) (limit : t.i ≤ cfg.R-1+width)
    (more : s.i+1 ≤ t.i) : Spread cfg pairs width t := by
  obtain ⟨older,recent,split,short,scheduled⟩ := spread.recent
  refine ⟨stepped.loaded_eq.trans spread.loaded,counted,limit,older,recent ++ [q],?_,?_,?_⟩
  · rw [stepped.popped,split,List.append_assoc]
    rfl
  · rw [List.length_append,List.length_singleton]
    omega
  · refine (stepped.scheduled_from sound scheduled).mono ?_
    intro item member
    rw [List.map_append,List.mem_append]
    cases q with
    | put other ts v => exact (List.mem_cons.mp member).symm.imp_right List.mem_singleton.mpr
    | get other a b => exact .inl member

theorem Flowing.spread_next (flowing : Flowing cfg pairs width s) (sound : Sound cfg env s) (ample : Ample cfg pairs width)
    (paced : Paced cfg s action) (workload : Workload cfg.R pairs s.requests (requested [action]))
    (refining : Refining cfg s action) (ran : step cfg env s action = .ok t) (stepped : Stepped cfg env s action t) :
    Spread cfg pairs width t := by
  have counted := flowing.spread.counted
  cases action with
  | serve q =>
    cases q with
    | put item ts v =>
      obtain ⟨⟨wf,apart,occupied,fresh⟩,_⟩ := workload
      obtain ⟨longer,count⟩ := put_length wf.2 ran
      have some_ := Finset.card_pos.mpr occupied
      have fewer := flowing.card_le ample item
      have early : s.i < cfg.R := paced
      exact flowing.spread.popped sound stepped (by omega) (by omega) (by omega)
    | get item a b =>
      obtain ⟨⟨wf,apart,_⟩,_⟩ := workload
      obtain ⟨longer,count⟩ := get_length wf ran
      have fetched : (fetchedKeys s item a b).length ≤ (s.selected item a b).length := List.length_filter_le _ _
      have some_ := List.length_pos_of_ne_nil refining.2.1
      have fewer : (s.selected item a b).length ≤ width := flowing.selected_le sound ample paced apart wf.1
      have early : s.i < cfg.R := paced
      exact flowing.spread.popped sound stepped (by omega) (by omega) (by omega)
  | close choice =>
    cases stepped with
    | close _ _ real fake evicted done =>
      have frame := done.frame
      refine ⟨?_,?_,?_,t.requests,[],(List.append_nil _).symm,Nat.zero_le _,?_⟩
      · rw [frame]
        exact flowing.spread.loaded
      · rw [frame]
        exact le_refl _
      · rw [frame]
        exact Nat.zero_le _
      · intro k member
        rw [done.cleared] at member
        cases member
  | clear =>
    cases stepped with
    | clear p cleared =>
      obtain ⟨older,recent,split,short,scheduled⟩ := flowing.spread.recent
      refine ⟨flowing.spread.loaded,counted,flowing.spread.limit,older,recent,split,short,?_⟩
      intro k member
      have frame := cleared.frame
      rw [frame] at member
      exact scheduled k member

theorem Flowing.next (lawful : env.Lawful) (flowing : Flowing cfg pairs width s) (sound : Sound cfg env s)
    (ample : Ample cfg pairs width) (paced : Paced cfg s action)
    (workload : Workload cfg.R pairs s.requests (requested [action])) :
    Refining cfg s action ∧ ∃ t, step cfg env s action = .ok t ∧ Sound cfg env t ∧ Flowing cfg pairs width t ∧
      t.requests = s.requests ++ requested [action] := by
  have refining := flowing.refining sound ample paced workload
  obtain ⟨t,ran,stepped,after,tracking,answering⟩ := (refining_layered cfg env (Reference.load pairs)).step lawful sound
    ⟨flowing.tracking,flowing.answering⟩ refining
  have sized := stepped.sized sound flowing.tracking.known refining.1.1.2 refining.1.2 flowing.sized
  exact ⟨refining,t,ran,after,⟨tracking,answering,sized,flowing.spread_next sound ample paced workload refining ran stepped⟩,
    stepped.popped⟩

theorem workload_append (earlier one two : List Request) : Workload R pairs earlier (one ++ two) ↔
    Workload R pairs earlier one ∧ Workload R pairs (earlier ++ one) two := by
  induction one generalizing earlier with
  | nil => simp [Workload]
  | cons q rest ih => simp only [List.cons_append,Workload,ih,List.append_assoc,List.nil_append,and_assoc]

theorem requested_cons (action : Action) (rest : List Action) :
    requested (action :: rest) = requested [action] ++ requested rest := by
  cases action <;> rfl

-- A condition on the requests alone is enough: the consumer brings it about that
-- every step is one the answers can rely on.
theorem flowing_run (lawful : env.Lawful) (ample : Ample cfg pairs width) (actions : List Action) (sound : Sound cfg env s)
    (flowing : Flowing cfg pairs width s) (paced : Admissible (step cfg env) (Paced cfg) s actions)
    (workload : Workload cfg.R pairs s.requests (requested actions)) :
    Admissible (step cfg env) (Refining cfg) s actions := by
  induction actions generalizing s with
  | nil => trivial
  | cons action rest ih =>
    rw [requested_cons,workload_append] at workload
    obtain ⟨refining,t,ran,after,still,popped⟩ := flowing.next lawful sound ample paced.1 workload.1
    refine ⟨refining,?_⟩
    intro next stepped
    rw [ran] at stepped
    cases stepped
    refine ih after still (paced.2 t ran) ?_
    rw [popped]
    exact workload.2

theorem Started.flowing (started : Started cfg env draws pairs s) : Flowing cfg pairs width s := by
  have initial := started.initial
  have zero : s.i = 0 := by
    obtain ⟨_,_,_,_,_,_,_,_,_,_,_,rfl,_⟩ := init_parts cfg draws started.ran
    rfl
  refine ⟨initial.tracking started.loadable,?_,started.sized,initial.loaded,?_,?_,[],[],?_,?_,started.scheduled_from⟩
  · intro n item a b asked
    rw [initial.unasked] at asked
    cases asked
  · rw [initial.batch]
    exact Nat.zero_le _
  · rw [zero]
    exact Nat.zero_le _
  · exact initial.unasked
  · exact Nat.zero_le _

theorem answered_layered (cfg : Config) (env : Env) (r : Reference) :
    Layered cfg env (Refining cfg) (fun s => (Tracking r s ∧ Answering r s) ∧ Accounted s) := by
  refine (refining_layered cfg env r).add ?_
  intro s action t sound layer accounted now stepped
  refine stepped.accounted sound ?_ accounted
  cases action with
  | serve q =>
    cases q with
    | put item ts v => trivial
    | get item a b => exact now.2.1
  | close choice => trivial
  | clear => trivial

-- A run that ends with a batch has set every promise, and answered the GETs as the
-- plain store does.
theorem refining_answered (started : Started cfg env draws pairs s) (actions : List Action)
    (refining : Admissible (step cfg env) (Refining cfg) s actions) :
    ∃ t, run (step cfg env) s actions = .ok t ∧ t.requests = requested actions ∧
      (AtBoundary actions → (∀ n, n ∈ t.proxy.promises ↔ n < (requested actions).length) ∧
        ∀ n item a b, (requested actions)[n]? = some (.get item a b) → t.proxy.promises.find? n =
          some (.sum (((Reference.load pairs).after ((requested actions).take n)).answer item a b))) := by
  have initial := started.initial
  have tracking := initial.tracking started.loadable
  have answering : Answering (Reference.load pairs) s := by
    intro n item a b asked
    rw [initial.unasked] at asked
    cases asked
  have accounted : Accounted s := by
    intro n below
    rw [initial.unasked] at below
    cases below
  have holds := And.intro (And.intro tracking answering) accounted
  obtain ⟨t,ran,sound,⟨_,answering⟩,accounted⟩ := (answered_layered cfg env (Reference.load pairs)).run started.lawful
    started.sound holds actions refining
  have popped : t.requests = requested actions := by
    rw [run_requests actions ran,initial.unasked,List.nil_append]
  refine ⟨t,ran,popped,?_⟩
  intro boundary
  obtain ⟨u,same,_,_,rested⟩ := (answered_layered cfg env (Reference.load pairs)).boundary started.lawful initial
    started.sound holds actions boundary refining
  rw [ran] at same
  cases same
  have nothing : ∀ id ks n, t.proxy.runningKeys.request_map.find? id ≠ some (ks,some n) := by
    intro id ks n row
    simp [rested.idle,ThreadSafeUnorderedMap.empty] at row
  rw [← popped]
  refine ⟨fun n => ⟨sound.building.answered n,?_⟩,?_⟩
  · intro below
    refine (accounted n below).resolve_right ?_
    rintro ⟨id,ks,row⟩
    exact nothing id ks n row
  · intro n item a b asked
    refine (answering n item a b asked).resolve_right ?_
    rintro ⟨id,ks,row,_⟩
    exact nothing id ks n row

-- Two items that take turns.
def turnsConfig : Config := ⟨2,5,1,1,25,2,10,by decide⟩
def turnsServer : Server :=
  (init turnsConfig sampleEnv sampleDraws samplePairs).toOption.get (by decide +kernel)

theorem turnsStarted : Started turnsConfig sampleEnv sampleDraws samplePairs turnsServer :=
  ⟨sampleEnv_lawful,samplePairs_loadable,by decide,toOption_get _⟩

def turnsActions : List Action :=
  [.serve (.put (str "a") 4 (str "t")),.serve (.get (str "b") 0 9),.close sampleChoice,.clear,.serve (.get (str "a") 2 3),
    .close sampleChoice]

theorem turns_ample : Ample turnsConfig samplePairs 3 := by
  refine ⟨by decide,by decide,by decide,?_⟩
  intro item
  refine (Finset.card_le_card (t:={1,2,3}) ?_).trans (by decide)
  intro u member
  obtain ⟨wf,listed⟩ := (Reference.load_buckets samplePairs_loadable item u).mp member
  simp only [samplePairs,List.map_cons,List.map_nil,List.mem_cons,List.not_mem_nil,or_false] at listed
  rcases listed with same | same | same | same | same
  all_goals
    obtain ⟨_,rfl⟩ := bucketKey_injective wf.2.1 (by decide) same
    decide

end TsWaffle
