import TsWaffle.Returning
import TsWaffle.WritingBack

namespace TsWaffle
open Text Runs
variable {cfg : Config} {env : Env} {s t : Proxy} {choice : Choice} {operations : List Str} {k : Str}

-- Rows of readBatchMap in any state: the label of a row is one of its key.
def Labelled (env : Env) (rows : List (Str × Str)) : Prop := ∀ row ∈ rows, ∃ f, row.1 = env.label row.2 f

theorem Labelled.find (lawful : env.Lawful) (labelled : Labelled env rows) (member : row ∈ rows) :
    (Table.insertAll ∅ rows).find? row.1 = some row.2 := by
  apply Table.find_insertAll_agreed _ _ _ _ ?_ (List.mem_map_of_mem member)
  intro other listed same
  obtain ⟨f,one⟩ := labelled other listed
  obtain ⟨g,two⟩ := labelled row member
  exact (env.label_injective lawful (one.symm.trans (same.trans two))).1

theorem readKeys_keys (env : Env) (clock : Int) (keys : List Str) (bst : FrequencySmoother) :
    (readKeys env clock keys bst).1.map Prod.snd = keys := by
  induction keys generalizing bst with
  | nil => rfl
  | cons key rest ih =>
    simp only [readKeys,List.map_cons]
    rw [ih]

theorem readKeys_labelled (env : Env) (clock : Int) (keys : List Str) (bst : FrequencySmoother) :
    Labelled env (readKeys env clock keys bst).1 := by
  induction keys generalizing bst with
  | nil =>
    intro row member
    cases member
  | cons key rest ih =>
    intro row member
    rcases List.mem_cons.mp member with rfl | later
    · exact ⟨_,rfl⟩
    · exact ih _ row later

-- Reading a key moves its entry of the tree or makes one.
theorem readKeys_tree (env : Env) (clock : Int) (keys : List Str) (bst : FrequencySmoother)
    (listed : e ∈ (readKeys env clock keys bst).2.accessTree) : e ∈ bst.accessTree ∨ e.key ∈ keys := by
  induction keys generalizing bst with
  | nil => exact .inl listed
  | cons key rest ih =>
    rcases ih _ listed with moved | later
    · rcases (FrequencySmoother.setFrequency_mem _ _ _ _).mp moved with rfl | old
      · exact .inr List.mem_cons_self
      · exact .inl old.1
    · exact .inr (List.mem_cons_of_mem _ later)

-- The fill loop takes its keys from the tree, in any state; a key it passes over was
-- running.
theorem fill_returned (cache : Cache) (evicted : Table Str Str) (entries : List Entry) {running : ThreadSafeUnorderedMap}
    (ran : fill cache evicted count entries running = .ok (keys,topped)) :
    (∀ k ∈ keys, k ∈ entries.map Entry.key) ∧ running.Widened topped keys := by
  induction entries generalizing count running keys topped with
  | nil =>
    cases count with
    | zero =>
      cases ran
      refine ⟨?_,.refl _⟩
      intro k member
      cases member
    | succ count => cases ran
  | cons it rest ih =>
    cases count with
    | zero =>
      cases ran
      refine ⟨?_,.refl _⟩
      intro k member
      cases member
    | succ count =>
      rw [fill] at ran
      split at ran
      · dsimp only at ran
        split at ran
        · rename_i busy
          obtain ⟨inside,wide⟩ := ih ran
          exact ⟨fun k member => List.mem_cons_of_mem _ (inside k member),wide.again busy⟩
        · obtain ⟨⟨later,final⟩,taken,same⟩ := bind_ok ran
          cases same
          obtain ⟨inside,wide⟩ := ih taken
          refine ⟨?_,wide.insert⟩
          intro k member
          rcases List.mem_cons.mp member with rfl | chosen
          · exact List.mem_cons_self
          · exact List.mem_cons_of_mem _ (inside k chosen)
      · obtain ⟨inside,wide⟩ := ih ran
        exact ⟨fun k member => List.mem_cons_of_mem _ (inside k member),wide⟩

-- The fake loop in any state.
theorem readFakes_returned (env : Env) (clock : Int) (n : Nat) {bst : FrequencySmoother} {running : ThreadSafeUnorderedMap}
    (ran : readFakes env clock n bst running = .ok (rows,after,widened)) :
    Labelled env rows ∧ (∀ k ∈ bst.accessFreqs, k ∈ after.accessFreqs) ∧
      (∀ k ∈ rows.map Prod.snd, k ∈ after.accessFreqs) ∧ running.Widened widened (rows.map Prod.snd) := by
  induction n generalizing bst running rows after widened with
  | zero =>
    cases ran
    refine ⟨?_,fun k live => live,?_,.refl _⟩
    · intro row member
      cases member
    · intro k member
      cases member
  | succ n ih =>
    unfold readFakes at ran
    split at ran
    · cases ran
    · rename_i least rest shape
      dsimp only at ran
      split at ran
      · cases ran
      · obtain ⟨⟨others,final,last⟩,taken,same⟩ := bind_ok ran
        cases same
        obtain ⟨labelled,kept,live,wide⟩ := ih taken
        have moved : ∀ k, k = least.key ∨ k ∈ bst.accessFreqs → k ∈ final.accessFreqs := by
          intro k place
          apply kept
          rw [Table.mem_iff,FrequencySmoother.setFrequency_freqs]
          by_cases same : k = least.key
          · exact ⟨clock,by rw [if_pos same]⟩
          · obtain ⟨f,found⟩ := Table.mem_iff.mp (place.resolve_left same)
            refine ⟨f,?_⟩
            change (if k = least.key then some clock else (bst.accessFreqs.fetch least.key 0).2.find? k) = some f
            rw [if_neg same,Table.fetch_find,if_neg same]
            exact found
        refine ⟨?_,fun k old => moved k (.inr old),?_,wide.insert⟩
        · intro row member
          rcases List.mem_cons.mp member with rfl | later
          · exact ⟨_,rfl⟩
          · exact labelled row later
        · intro k member
          rcases List.mem_cons.mp member with rfl | later
          · exact moved _ (.inl rfl)
          · exact live k later

-- What is evicted was cached, unless nothing was.
theorem Cache.evict_origin (c : Cache) :
    (c.evictLRElementFromCache.1.1 = [] ∨ c.evictLRElementFromCache.1.1 ∈ c.held) ∧
      ∀ k ∈ c.evictLRElementFromCache.2.held, k ∈ c.held := by
  rcases List.eq_nil_or_concat' c.entries with empty | ⟨front,⟨k,v⟩,shape⟩
  · have none : c.accessList = [] := List.map_eq_nil_iff.mp empty
    unfold Cache.evictLRElementFromCache
    split
    · exact ⟨.inl rfl,fun k member => member⟩
    · rename_i found
      rw [none] at found
      cases found
  · obtain ⟨pair,rest⟩ := Cache.evict_entries shape
    refine ⟨.inr ?_,?_⟩
    · rw [pair]
      exact Cache.mem_held.mpr ⟨v,by rw [shape]; simp⟩
    · intro a member
      obtain ⟨x,listed⟩ := Cache.mem_held.mp member
      rw [rest] at listed
      exact Cache.mem_held.mpr ⟨x,by rw [shape]; exact List.mem_append_left _ listed⟩

-- The write-back loop after the replies of some real keys, in any state.
structure Wrote (env : Env) (s : Proxy) (keys : List Str) (w : WriteBack) : Prop where
  frame : w.proxy = {s with cache:=w.proxy.cache,realBst:=w.proxy.realBst,EvictedItems:=w.proxy.EvictedItems,
                            keys_to_be_deleted:=w.proxy.keys_to_be_deleted}
  held : ∀ k ∈ w.proxy.cache.held, k ∈ s.cache.held ∨ k ∈ keys
  tree : ∀ e ∈ w.proxy.realBst.accessTree, e ∈ s.realBst.accessTree
  items : ∀ k ∈ w.proxy.EvictedItems, k ∈ s.EvictedItems ∨ k ∈ w.tempEvictedItems
  satisfied : ∀ k, k ∈ w.promiseSatisfy ↔ k ∈ keys
  labels : ∀ row ∈ w.writeBatch, ∃ k f, row.1 = env.label k f ∧ (k = [] ∨ k ∈ s.cache.held ∨ k ∈ keys)

theorem Wrote.start (env : Env) (s : Proxy) : Wrote env s [] ⟨s,[],∅,[]⟩ := by
  refine ⟨rfl,fun k held => .inl held,fun e listed => listed,fun k member => .inl member,by simp,?_⟩
  intro row member
  cases member

theorem writeReal_wrote {w v : WriteBack} (state : Wrote env s keys w)
    (ran : writeReal env seed key response w = .ok v) : Wrote env s (keys ++ [key]) v := by
  obtain ⟨origin,fewer⟩ := w.proxy.cache.evict_origin
  have frame := state.frame
  have items : ∀ a, a ∈ w.proxy.EvictedItems.insert w.proxy.cache.evictLRElementFromCache.1.1
      w.proxy.cache.evictLRElementFromCache.1.2 → a ∈ s.EvictedItems ∨
        a ∈ w.tempEvictedItems ++ [w.proxy.cache.evictLRElementFromCache.1.1] := by
    intro a member
    rcases Table.mem_insert.mp member with rfl | old
    · exact .inr (by simp)
    · exact (state.items a old).imp_right (fun before => List.mem_append_left _ before)
  have satisfied : ∀ a, a ∈ w.promiseSatisfy.insert key (env.decryptNonDeterministic response) ↔ a ∈ keys ++ [key] := by
    intro a
    rw [Table.mem_insert,state.satisfied a,List.mem_append,List.mem_singleton,or_comm]
  have labels : ∀ row ∈ w.writeBatch ++ [(env.label w.proxy.cache.evictLRElementFromCache.1.1
      (w.proxy.realBst.getFrequency w.proxy.cache.evictLRElementFromCache.1.1).1,
      env.encryptNonDeterministic seed w.proxy.cache.evictLRElementFromCache.1.2)],
      ∃ k f, row.1 = env.label k f ∧ (k = [] ∨ k ∈ s.cache.held ∨ k ∈ keys ++ [key]) := by
    intro row member
    rcases List.mem_append.mp member with old | new
    · obtain ⟨k,f,same,place⟩ := state.labels row old
      exact ⟨k,f,same,place.imp_right (fun rest => rest.imp_right (fun listed => List.mem_append_left _ listed))⟩
    · rw [List.mem_singleton] at new
      subst new
      refine ⟨_,_,rfl,origin.imp_right ?_⟩
      intro held
      exact (state.held _ held).imp_right (fun listed => List.mem_append_left _ listed)
  have stays : ∀ k ∈ w.proxy.cache.evictLRElementFromCache.2.held, k ∈ s.cache.held ∨ k ∈ keys ++ [key] := by
    intro k member
    exact (state.held k (fewer k member)).imp_right (fun listed => List.mem_append_left _ listed)
  unfold writeReal at ran
  dsimp only at ran
  split at ran
  · obtain ⟨p,removed,same⟩ := bind_ok ran
    obtain ⟨shape,_⟩ := removeReal_returned removed
    cases same
    subst shape
    refine ⟨by dsimp only; rw [frame],stays,?_,items,satisfied,labels⟩
    intro e listed
    dsimp only at listed
    rw [(FrequencySmoother.removeKey_parts _ _).2,OrderedSet.mem_erase] at listed
    exact state.tree e listed.1
  · cases ran
    refine ⟨by dsimp only; rw [frame],?_,state.tree,items,satisfied,labels⟩
    intro k member
    rcases (Cache.mem_held_insert _ _ _ _).mp member with rfl | old
    · exact .inr (by simp)
    · exact stays k old

theorem writeBack_wrote (cfg : Config) (choice : Choice) (readBatchMap : Table Str Str) (real i : Nat)
    (rows : List (Str × Str)) (within : i+rows.length ≤ real) {w v : WriteBack} (state : Wrote env s keys w)
    (ran : writeBack cfg env choice readBatchMap real i rows w = .ok v) :
    Wrote env s (keys ++ (arrivals env readBatchMap rows).map Prod.fst) v := by
  induction rows generalizing i keys w with
  | nil =>
    cases ran
    rw [arrivals,List.map_nil,List.map_nil,List.append_nil]
    exact state
  | cons row rest ih =>
    have first : i < real := by rw [List.length_cons] at within; omega
    unfold writeBack at ran
    simp only [first,if_true] at ran
    obtain ⟨next,stepped,tail⟩ := bind_ok ran
    have later := ih (i+1) (by rw [List.length_cons] at within; omega) (writeReal_wrote state stepped) tail
    rw [List.append_assoc] at later
    exact later

theorem fetchAll_length (storage : Table Str Str) (labels : List Str) {replies : List Str}
    (ran : Proxy.fetchAll storage labels = .ok replies) : replies.length = labels.length := by
  induction labels generalizing replies with
  | nil => cases ran; rfl
  | cons label rest ih =>
    unfold Proxy.fetchAll at ran
    split at ran
    · cases ran
    · obtain ⟨others,fetched,same⟩ := bind_ok ran
      cases same
      rw [List.length_cons,List.length_cons,ih fetched]

theorem arrivals_labelled (lawful : env.Lawful) {rows part : List (Str × Str)} (labelled : Labelled env rows)
    (inside : ∀ row ∈ part, row ∈ rows) (replies : List Str) (whole : replies.length = part.length) :
    (arrivals env (Table.insertAll ∅ rows) ((part.map Prod.fst).zip replies)).map Prod.fst = part.map Prod.snd := by
  induction part generalizing replies with
  | nil => rfl
  | cons row rest ih =>
    cases replies with
    | nil => cases whole
    | cons reply replies =>
      have found := labelled.find lawful (inside row List.mem_cons_self)
      have later := ih (fun other member => inside other (List.mem_cons_of_mem _ member)) replies
        (Nat.succ.inj whole)
      simp only [arrivals,List.map_cons,List.zip_cons_cons,found,Option.getD_some,List.cons.injEq,true_and]
      exact later

theorem Labelled.append (one : Labelled env rows) (two : Labelled env more) : Labelled env (rows ++ more) := by
  intro row member
  rcases List.mem_append.mp member with left | right
  · exact one row left
  · exact two row right

namespace ThreadSafeUnorderedMap
variable {r q : ThreadSafeUnorderedMap} {ps qs : Promises}

theorem clearWaiting_running (ids : List Int) (ran : r.clearWaiting ps ids = .ok (q,qs)) :
    q.m_map_ = r.m_map_ ∧ ∀ k ∈ q.get_map, k ∈ r.get_map := by
  induction ids generalizing r ps with
  | nil =>
    cases ran
    exact ⟨rfl,fun k member => member⟩
  | cons id rest ih =>
    unfold clearWaiting at ran
    dsimp only at ran
    split at ran
    · obtain ⟨more,set,ran⟩ := bind_ok ran
      split at ran
      · cases ran
        refine ⟨rfl,?_⟩
        intro k member
        exact absurd member (Table.notMem_empty k)
      · have later := ih ran
        exact later
    · have later := ih ran
      exact later

theorem tryClearPromises_running (ran : r.tryClearPromises ps key value = .ok (q,qs)) :
    q.m_map_ = r.m_map_.erase key ∧ ∀ k ∈ q.get_map, k ∈ r.get_map := by
  unfold tryClearPromises at ran
  dsimp only at ran
  split at ran
  · cases ran
    exact ⟨rfl,fun k member => member⟩
  · have cleared := clearWaiting_running _ ran
    exact cleared

-- A delivered key is not running any more.
theorem deliver_running (value : Str → Str) (keys : List Str) (ran : r.deliver ps value keys = .ok (q,qs)) :
    (∀ k ∈ q.m_map_, k ∈ r.m_map_ ∧ k ∉ keys) ∧ ∀ k ∈ q.get_map, k ∈ r.get_map := by
  induction keys generalizing r ps with
  | nil =>
    cases ran
    exact ⟨fun k member => ⟨member,List.not_mem_nil⟩,fun k member => member⟩
  | cons key rest ih =>
    unfold deliver at ran
    obtain ⟨⟨next,more⟩,first,tail⟩ := bind_ok ran
    obtain ⟨erased,fewer⟩ := tryClearPromises_running first
    obtain ⟨plain,waiting⟩ := ih tail
    refine ⟨?_,fun k member => fewer k (waiting k member)⟩
    intro k member
    obtain ⟨before,later⟩ := plain k member
    rw [erased,Table.mem_erase] at before
    refine ⟨before.2,?_⟩
    intro listed
    rcases List.mem_cons.mp listed with same | old
    · exact before.1 same
    · exact later old

theorem tryClearAllPromises_waiting (ran : r.tryClearAllPromises ps order = .ok (q,qs)) :
    ∀ k ∈ q.get_map, k ∈ r.get_map := by
  unfold tryClearAllPromises at ran
  obtain ⟨⟨erased,more⟩,swept,ran⟩ := bind_ok ran
  dsimp only at ran
  split at ran
  · cases ran
    intro k member
    exact absurd member (Table.notMem_empty k)
  · cases ran
    exact fun k member => member

end ThreadSafeUnorderedMap

-- What the two parts of the write-back loop leave in a batch that returns.
structure Stages.WrittenBack (stages : Stages cfg env choice operations s) (w : WriteBack)
    (more satisfied : List (Str × Str)) : Prop where
  real : Wrote env stages.middle stages.real w
  whole : stages.w = {w with writeBatch:=w.writeBatch ++ more,promiseSatisfy:=w.promiseSatisfy.insertAll satisfied}
  labels : more.map Prod.fst = stages.fake.map (fun k => env.label k (stages.fakeBst.freq k))
  fakes : satisfied.map Prod.fst = stages.fake

-- The proxy at the start of the loop, and the one the batch leaves.
theorem Stages.middle_cleared (stages : Stages cfg env choice operations s) :
    Cleared {s with timeStamp:=s.timeStamp+1,realBst:=stages.topping.2,fakeBst:=stages.fakeBst,runningKeys:=stages.widened,
                    calls:=s.calls ++ [⟨.get_batch,s.timeStamp+1,stages.labels⟩]} stages.middle :=
  clearRounds_cleared _ _

structure Stages.Left (stages : Stages cfg env choice operations s) (w : WriteBack) (more : List (Str × Str))
    (t : Proxy) : Prop where
  realBst : t.realBst = w.proxy.realBst
  cache : t.cache = w.proxy.cache
  fakeBst : t.fakeBst = stages.fakeBst
  running : t.runningKeys = stages.running
  items : t.EvictedItems = w.proxy.EvictedItems.eraseAll w.tempEvictedItems
  clock : t.timeStamp = s.timeStamp+1
  calls : ∃ rounds, t.calls = s.calls ++ (⟨.get_batch,s.timeStamp+1,stages.labels⟩ :: rounds ++
      [⟨.put_batch,s.timeStamp+1,(w.writeBatch ++ more).map Prod.fst⟩]) ∧ ∀ c ∈ rounds, c.op = .delete_batch

theorem Stages.Followed.left {stages : Stages cfg env choice operations s} {w : WriteBack} (followed : stages.Followed t)
    (written : stages.WrittenBack w more satisfied) : stages.Left w more t := by
  have cleared := stages.middle_cleared
  obtain ⟨rounds,log,deletes⟩ := cleared.deletes
  have middle := cleared.frame
  have frame := written.real.frame
  have result := followed.result
  rw [written.whole] at result
  have clock : w.proxy.timeStamp = s.timeStamp+1 := by rw [frame,middle]
  have calls : w.proxy.calls = stages.middle.calls := by rw [frame]
  subst result
  refine ⟨rfl,rfl,?_,rfl,rfl,clock,rounds,?_,fun c member => (deletes c member).1⟩
  · change w.proxy.fakeBst = stages.fakeBst
    rw [frame,middle]
  · simp only [Proxy.put_batch]
    rw [calls,clock,log]
    simp only [List.append_assoc,List.cons_append,List.nil_append]

theorem Stages.WrittenBack.running {stages : Stages cfg env choice operations s} {w : WriteBack}
    (written : stages.WrittenBack w more satisfied) : stages.w.proxy.runningKeys = stages.widened := by
  rw [written.whole,written.real.frame,stages.middle_cleared.frame]

-- Every key that was read is delivered.
theorem Stages.WrittenBack.delivered {stages : Stages cfg env choice operations s} {w : WriteBack}
    (written : stages.WrittenBack w more satisfied) :
    k ∈ choice.order stages.w.promiseSatisfy.keys ↔ k ∈ stages.real ∨ k ∈ stages.fake := by
  rw [(choice.ordered _).mem_iff,Table.mem_keys,written.whole,Table.mem_insertAll,written.fakes,written.real.satisfied,
    or_comm]

-- A key that is still running after the delivery was running before it and is none
-- of those that were read.
theorem Stages.Followed.still_plain {stages : Stages cfg env choice operations s} {w : WriteBack}
    (followed : stages.Followed t) (written : stages.WrittenBack w more satisfied) (left : k ∈ stages.running.m_map_) :
    k ∈ stages.widened.m_map_ ∧ k ∉ stages.real ∧ k ∉ stages.fake := by
  have delivers := followed.delivers
  rw [written.running] at delivers
  obtain ⟨before,undelivered⟩ := (ThreadSafeUnorderedMap.deliver_running _ _ delivers).1 k left
  rw [written.delivered] at undelivered
  exact ⟨before,not_or.mp undelivered⟩

theorem Stages.Followed.still_running {stages : Stages cfg env choice operations s} {w : WriteBack}
    (followed : stages.Followed t) (written : stages.WrittenBack w more satisfied) (busy : stages.running.present k = true) :
    (k ∈ stages.widened.m_map_ ∧ k ∉ stages.real ∧ k ∉ stages.fake) ∨ k ∈ stages.widened.get_map := by
  have delivers := followed.delivers
  rw [written.running] at delivers
  rcases (ThreadSafeUnorderedMap.present_iff _ _).mp busy with left | right
  · exact .inl (followed.still_plain written left)
  · exact .inr ((ThreadSafeUnorderedMap.deliver_running _ _ delivers).2 k right)

theorem Stages.Followed.writtenBack (lawful : env.Lawful) {stages : Stages cfg env choice operations s}
    (followed : stages.Followed t) : ∃ w more satisfied, stages.WrittenBack w more satisfied := by
  obtain ⟨labelled,_,live,_⟩ := readFakes_returned _ _ _ followed.fakes
  have first : Labelled env (stages.requested.1 ++ stages.topping.1) :=
    (readKeys_labelled _ _ _ _).append (readKeys_labelled _ _ _ _)
  have rowsLabelled : Labelled env stages.rows := first.append labelled
  have realKeys : (stages.requested.1 ++ stages.topping.1).map Prod.snd = stages.real := by
    rw [List.map_append]
    exact congrArg₂ _ (readKeys_keys _ _ _ _) (readKeys_keys _ _ _ _)
  have size : (stages.requested.1 ++ stages.topping.1).length = operations.length+stages.filled.length := by
    rw [← List.length_map (f:=Prod.snd),realKeys,Stages.real,List.length_append]
  have count : stages.responses.length = (stages.requested.1 ++ stages.topping.1).length+stages.faked.length := by
    rw [fetchAll_length _ _ followed.replies,Stages.labels,List.length_map,Stages.rows,List.length_append]
  generalize known : stages.requested.1 ++ stages.topping.1 = front at first realKeys size count
  have rows : stages.rows = front ++ stages.faked := by rw [Stages.rows,known]
  have split : stages.labels.zip stages.responses =
      (front.map Prod.fst).zip (stages.responses.take front.length) ++
        (stages.faked.map Prod.fst).zip (stages.responses.drop front.length) := by
    conv_lhs => rw [← List.take_append_drop front.length stages.responses]
    rw [Stages.labels,rows,List.map_append,List.zip_append]
    rw [List.length_map,List.length_take]
    omega
  have writes := followed.writes
  rw [split,writeBack_append] at writes
  obtain ⟨w,done,rest⟩ := bind_ok writes
  have state := writeBack_wrote cfg choice (Table.insertAll ∅ stages.rows) (operations.length+stages.filled.length) 0
    ((front.map Prod.fst).zip (stages.responses.take front.length)) (by
      rw [List.length_zip,List.length_map,List.length_take]
      omega) (Wrote.start env stages.middle) done
  rw [List.nil_append,arrivals_labelled lawful rowsLabelled (by
    intro row member
    rw [rows]
    exact List.mem_append_left _ member) _ (by rw [List.length_take]; omega),realKeys] at state
  have fakeBst : w.proxy.fakeBst = stages.fakeBst := by
    rw [state.frame,stages.middle_cleared.frame]
  have faked := arrivals_labelled lawful rowsLabelled (by
    intro row member
    rw [rows]
    exact List.mem_append_right front member) (stages.responses.drop front.length) (by rw [List.length_drop]; omega)
  obtain ⟨more,ran,labels⟩ := writeBack_fake cfg env choice (Table.insertAll ∅ stages.rows)
    ((stages.faked.map Prod.fst).zip (stages.responses.drop front.length)) (operations.length+stages.filled.length)
    (0+((front.map Prod.fst).zip (stages.responses.take front.length)).length) (by
      rw [List.length_zip,List.length_map,List.length_take]
      omega) w (by
      rw [faked,fakeBst]
      exact live)
  rw [ran] at rest
  rw [faked,fakeBst] at labels
  exact ⟨w,more,_,state,(Except.ok.inj rest).symm,labels,faked⟩

end TsWaffle
