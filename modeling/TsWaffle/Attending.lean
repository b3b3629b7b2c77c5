import TsWaffle.Registering

namespace TsWaffle.ThreadSafeUnorderedMap
open Text Runs
variable {s t : ThreadSafeUnorderedMap} {ps qs : Promises} {promise : Int → Nat} {id : Int} {key : Str}

-- Every public call that changes the map, in any order.
inductive MapCall where
  | register (c : Registration)
  | deliver (key value : Str)
  | sweep (walk : List Int → List Int) (walked : ∀ ids, (walk ids).Perm ids)

abbrev Held := ThreadSafeUnorderedMap × Promises

def mapCall (promise : Int → Nat) (held : Held) : MapCall → Except Fault Held
  | .register c => do return (← register promise held.1 c,held.2)
  | .deliver key value => held.1.tryClearPromises held.2 key value
  | .sweep walk _ => held.1.tryClearAllPromises held.2 walk

-- A request gets its keys while its promise is unset, and insert_cache does not
-- change the value of a key.
def Permitted (promise : Int → Nat) (held : Held) : MapCall → Prop
  | .register (.pending _ id) => promise id ∉ held.2
  | .register (.cached id key value) => promise id ∉ held.2 ∧ ∀ v ∈ held.1.get_cache.find? key, v = value
  | _ => True

-- A key that requests wait for is delivered while get_cache has no value of it.
def Awaited (held : Held) : MapCall → Prop
  | .deliver key _ => key ∈ held.1.get_map → key ∉ held.1.get_cache
  | _ => True

instance : ∀ held call, Decidable (Permitted promise held call)
  | _,.register (.plain _) => inferInstanceAs (Decidable True)
  | _,.register (.pending _ _) => inferInstanceAs (Decidable (_ ∉ _))
  | held,.register (.cached _ key _) =>
    @instDecidableAnd _ _ inferInstance (Option.decidableForallMem (held.1.get_cache.find? key))
  | _,.deliver _ _ => inferInstanceAs (Decidable True)
  | _,.sweep _ _ => inferInstanceAs (Decidable True)

instance : ∀ held call, Decidable (Awaited held call)
  | _,.register _ => inferInstanceAs (Decidable True)
  | _,.deliver _ _ => inferInstanceAs (Decidable (_ → _))
  | _,.sweep _ _ => inferInstanceAs (Decidable True)

-- The ids isFulfilled is applied to by the loop of tryClearPromises, each with the
-- map it is applied to; clearPromises is applied to those of them it accepts.
def examinedWaiting (s : ThreadSafeUnorderedMap) (ps : Promises) : List Int → List (ThreadSafeUnorderedMap × Int)
  | [] => []
  | request_id :: rest =>
    (s,request_id) ::
      let (fulfilled,s) := s.isFulfilled request_id
      if fulfilled then
        match s.clearPromises ps request_id with
        | .error _ => []
        | .ok ps =>
          let s := {s with request_map:=s.request_map.erase request_id}
          if s.request_map.isEmpty then [] else examinedWaiting s ps rest
      else examinedWaiting s ps rest

def examined (held : Held) : MapCall → List (ThreadSafeUnorderedMap × Int)
  | .register _ => []
  | .deliver key value =>
    match held.1.get_map.find? key with
    | none => []
    | some waiting =>
      let s := {held.1 with m_map_:=held.1.m_map_.erase key,get_cache:=held.1.get_cache.insert key value}
      examinedWaiting s held.2 waiting.toList
  | .sweep walk _ => (walk held.1.request_map.keys).map (fun id => (held.1,id))

-- Every id that is examined is in request_map, with a first key and a promise.
def Attended (held : Held) (call : MapCall) : Prop :=
  ∀ at_ ∈ examined held call, ∃ key keys p, at_.1.request_map.find? at_.2 = some (key :: keys,some p)

-- An id that is waiting under a key without a value belongs to an open request.
structure Opened (promise : Int → Nat) (s : ThreadSafeUnorderedMap) (ps : Promises) : Prop where
  rows : ∀ id ks op, s.request_map.find? id = some (ks,op) → ks ≠ [] ∧ op = some (promise id) ∧ promise id ∉ ps
  waiting : ∀ k ids, s.get_map.find? k = some ids → k ∉ s.get_cache → ∀ id ∈ ids,
    ∃ ks op, s.request_map.find? id = some (ks,op) ∧ k ∈ ks

theorem empty_opened (promise : Int → Nat) (ps : Promises) : Opened promise empty ps := by
  refine ⟨?_,?_⟩ <;> simp [empty]

theorem Opened.row (state : Opened promise s ps) (present : id ∈ s.request_map) :
    ∃ k ks, s.request_map.find? id = some (k :: ks,some (promise id)) := by
  obtain ⟨⟨ks,op⟩,found⟩ := Table.mem_iff.mp present
  obtain ⟨filled,rfl,_⟩ := state.rows id ks op found
  cases ks with
  | nil => exact absurd rfl filled
  | cons k ks => exact ⟨k,ks,found⟩

-- One more key for a request: its row grows, and the key is waited for or cached.
theorem Opened.appended (state : Opened promise s ps) (grown : Appended s t id key (promise id))
    (unset : promise id ∉ ps) (cacheGrows : ∀ k ∈ s.get_cache, k ∈ t.get_cache)
    (waiting : ∀ k ids, t.get_map.find? k = some ids → ∀ a ∈ ids,
      (a = id ∧ k = key) ∨ ∃ old, s.get_map.find? k = some old ∧ a ∈ old) : Opened promise t ps := by
  refine ⟨?_,?_⟩
  · intro a ks op row
    rw [grown a] at row
    by_cases same : a = id
    · rw [if_pos same] at row
      cases row
      exact ⟨by simp,by rw [same],by rw [same]; exact unset⟩
    · rw [if_neg same] at row
      exact state.rows a ks op row
  · intro k ids found uncached a member
    rcases waiting k ids found a member with ⟨rfl,rfl⟩ | ⟨old,before,listed⟩
    · exact ⟨_,_,by rw [grown a,if_pos rfl],by simp⟩
    · obtain ⟨ks,op,row,inside⟩ := state.waiting k old before (fun cached => uncached (cacheGrows k cached)) a listed
      by_cases same : a = id
      · subst same
        exact ⟨_,_,by rw [grown a,if_pos rfl],by simp [keysOf,row,inside]⟩
      · exact ⟨ks,op,by rw [grown a,if_neg same]; exact row,inside⟩

theorem register_opened (state : Opened promise s ps) (c : Registration)
    (permitted : Permitted promise (s,ps) (.register c)) : ∃ t, register promise s c = .ok t ∧ Opened promise t ps := by
  cases c with
  | plain key => exact ⟨_,rfl,state.rows,state.waiting⟩
  | pending key id =>
    have grown : Appended s (s.insertIfNotPresentGet key (promise id) id).2 id key (promise id) := by
      intro a
      simp [insertIfNotPresentGet,keysOf]
    refine ⟨_,rfl,state.appended grown permitted (fun k member => member) ?_⟩
    intro k ids found a member
    simp only [insertIfNotPresentGet,Table.find_insert] at found
    by_cases same : k = key
    · subst same
      rw [if_pos rfl] at found
      cases found
      rcases OrderedSet.mem_insert.mp member with first | old
      · exact .inl ⟨first,rfl⟩
      · cases before : s.get_map.find? k with
        | none => simp [before] at old
        | some waiting => exact .inr ⟨waiting,rfl,by simpa [before] using old⟩
    · rw [if_neg same] at found
      exact .inr ⟨ids,found,member⟩
  | cached id key value =>
    obtain ⟨unset,agrees⟩ := permitted
    have ran : s.insert_cache id key value (promise id) = .ok (insert_cache.register id key value (promise id) s) := by
      unfold insert_cache
      cases found : s.get_cache.find? key with
      | none => rfl
      | some v => simp [agrees v found]
    have grown : Appended s (insert_cache.register id key value (promise id) s) id key (promise id) := by
      intro a
      simp only [insert_cache.register,Table.find_insert,keysOf]
      cases found : s.request_map.find? id with
      | none => rfl
      | some r =>
        obtain ⟨_,promised,_⟩ := state.rows id r.1 r.2 found
        simp [promised]
    refine ⟨_,ran,state.appended grown unset ?_ ?_⟩
    · intro k member; simp [insert_cache.register,member]
    · intro k ids found a member
      exact .inr ⟨ids,found,member⟩

-- A request whose keys are all there is closed: nothing without a value waits for it.
theorem Opened.close_request (state : Opened promise s ps) (distinct : Function.Injective promise)
    (row : s.request_map.find? id = some (ks,op)) (all : ∀ k ∈ ks, k ∈ s.get_cache) (answer : Answer) :
    Opened promise {s with request_map:=s.request_map.erase id} (ps.insert (promise id) answer) := by
  refine ⟨?_,?_⟩
  · intro a ls oq found
    obtain ⟨other,old⟩ := Table.find_erase_some found
    obtain ⟨filled,promised,unset⟩ := state.rows a ls oq old
    refine ⟨filled,promised,?_⟩
    rw [Table.mem_insert]
    exact not_or.mpr ⟨fun clash => other (distinct clash),unset⟩
  · intro k ids found uncached a member
    obtain ⟨ls,oq,old,inside⟩ := state.waiting k ids found uncached a member
    have differs : a ≠ id := by
      intro same
      rw [same,row] at old
      cases old
      exact uncached (all k inside)
    exact ⟨ls,oq,by rw [Table.find_erase,if_neg differs]; exact old,inside⟩

theorem drained_opened (promise : Int → Nat) (ps : Promises) (none : s.request_map.isEmpty = true) :
    Opened promise {s with get_map:=∅,get_cache:=∅} ps := by
  rw [Table.isEmpty_iff] at none
  refine ⟨?_,?_⟩
  · intro id ks op found
    simp [none] at found
  · intro k ids found
    simp at found

-- The loop of tryClearPromises over ids that are all open.
theorem clearWaiting_attended (distinct : Function.Injective promise) (ids : List Int) (once : ids.Nodup)
    (state : Opened promise s ps) (listed : ∀ id ∈ ids, id ∈ s.request_map) :
    (∃ t qs, clearWaiting s ps ids = .ok (t,qs) ∧ Opened promise t qs) ∧
      ∀ at_ ∈ examinedWaiting s ps ids, ∃ key keys p, at_.1.request_map.find? at_.2 = some (key :: keys,some p) := by
  induction ids generalizing s ps with
  | nil => exact ⟨⟨s,ps,rfl,state⟩,fun at_ member => absurd member (by simp [examinedWaiting])⟩
  | cons id rest ih =>
    obtain ⟨fresh,others⟩ := List.nodup_cons.mp once
    obtain ⟨k,ks,row⟩ := state.row (listed id List.mem_cons_self)
    have unset := (state.rows id _ _ row).2.2
    have tested := fulfilled_present row
    by_cases full : (k :: ks).all (fun k => decide (k ∈ s.get_cache)) = true
    · have all : ∀ a ∈ k :: ks, a ∈ s.get_cache := by simpa using full
      have cleared := clear_present row (List.cons_ne_nil k ks) unset
      generalize given : Answer.sum ((k :: ks).map (fun k => (k,(s.get_cache.find? k).getD []))) = answer at cleared
      have closed := state.close_request distinct row all answer
      by_cases last : (s.request_map.erase id).isEmpty = true
      · refine ⟨⟨{s with request_map:=s.request_map.erase id,get_map:=∅,get_cache:=∅},ps.insert (promise id) answer,?_,
          drained_opened (s:={s with request_map:=s.request_map.erase id}) promise _ last⟩,?_⟩
        · simp only [clearWaiting,tested,full,if_true,cleared,bind,Except.bind,last]
        · intro at_ member
          simp only [examinedWaiting,tested,full,if_true,cleared,last,List.mem_singleton] at member
          subst member
          exact ⟨k,ks,_,row⟩
      · rw [Bool.not_eq_true] at last
        have remain : ∀ a ∈ rest, a ∈ s.request_map.erase id := by
          intro a member
          refine Table.mem_erase.mpr ⟨?_,listed a (List.mem_cons_of_mem _ member)⟩
          rintro rfl
          exact fresh member
        obtain ⟨⟨t,qs,ran,final⟩,attended⟩ := ih others closed remain
        refine ⟨⟨t,qs,?_,final⟩,?_⟩
        · simp only [clearWaiting,tested,full,if_true,cleared,bind,Except.bind,last]
          exact ran
        · intro at_ member
          simp only [examinedWaiting,tested,full,if_true,cleared,last,List.mem_cons] at member
          rcases member with rfl | later
          · exact ⟨k,ks,_,row⟩
          · exact attended at_ later
    · obtain ⟨⟨t,qs,ran,final⟩,attended⟩ := ih others state (fun a member => listed a (List.mem_cons_of_mem _ member))
      rw [Bool.not_eq_true] at full
      refine ⟨⟨t,qs,?_,final⟩,?_⟩
      · simp only [clearWaiting,tested,full]
        exact ran
      · intro at_ member
        simp only [examinedWaiting,tested,full,List.mem_cons] at member
        rcases member with rfl | later
        · exact ⟨k,ks,_,row⟩
        · exact attended at_ later

theorem deliver_attended (distinct : Function.Injective promise) (state : Opened promise s ps) (key value : Str)
    (awaited : Awaited (s,ps) (.deliver key value)) :
    (∃ t qs, s.tryClearPromises ps key value = .ok (t,qs) ∧ Opened promise t qs) ∧
      Attended (s,ps) (.deliver key value) := by
  cases found : s.get_map.find? key with
  | none =>
    refine ⟨⟨{s with m_map_:=s.m_map_.erase key},ps,by simp only [tryClearPromises,found],state.rows,state.waiting⟩,?_⟩
    intro at_ member
    simp [examined,found] at member
  | some ids =>
    have uncached := awaited (Table.mem_iff.mpr ⟨ids,found⟩)
    have arrived : Opened promise {s with m_map_:=s.m_map_.erase key,get_cache:=s.get_cache.insert key value} ps := by
      refine ⟨state.rows,?_⟩
      intro k waiting other missing
      exact state.waiting k waiting other (fun cached => missing (Table.mem_insert.mpr (.inr cached)))
    obtain ⟨⟨t,qs,ran,final⟩,attended⟩ := clearWaiting_attended distinct ids.toList ids.nodup arrived (by
      intro id member
      obtain ⟨ks,op,row,_⟩ := state.waiting key ids found uncached id (OrderedSet.mem_toList.mp member)
      exact Table.mem_iff.mpr ⟨_,row⟩)
    refine ⟨⟨t,qs,?_,final⟩,?_⟩
    · simp only [tryClearPromises,found]
      exact ran
    · intro at_ member
      simp only [examined,found] at member
      exact attended at_ member

-- The first loop of tryClearAllPromises sets the promises of the ids it will erase.
theorem sweep_attended (distinct : Function.Injective promise) (ids : List Int) (once : ids.Nodup)
    (rows : ∀ id ∈ ids, ∃ k ks, s.request_map.find? id = some (k :: ks,some (promise id)) ∧ promise id ∉ ps) :
    ∃ erased qs, s.sweep ps ids = .ok (erased,qs) ∧ (∀ id ∈ erased, (s.isFulfilled id).1 = true) ∧
      ∀ id, promise id ∈ qs → promise id ∈ ps ∨ id ∈ erased := by
  induction ids generalizing ps with
  | nil => exact ⟨[],ps,rfl,fun id member => absurd member List.not_mem_nil,fun id set => .inl set⟩
  | cons id rest ih =>
    obtain ⟨fresh,others⟩ := List.nodup_cons.mp once
    obtain ⟨k,ks,row,unset⟩ := rows id List.mem_cons_self
    by_cases full : (s.isFulfilled id).1 = true
    · have cleared := clear_present row (List.cons_ne_nil k ks) unset
      generalize given : Answer.sum ((k :: ks).map (fun k => (k,(s.get_cache.find? k).getD []))) = answer at cleared
      have remain : ∀ a ∈ rest, ∃ k ks, s.request_map.find? a = some (k :: ks,some (promise a)) ∧
          promise a ∉ Table.insert ps (promise id) answer := by
        intro a member
        obtain ⟨l,ls,there,free⟩ := rows a (List.mem_cons_of_mem _ member)
        refine ⟨l,ls,there,?_⟩
        rw [Table.mem_insert]
        refine not_or.mpr ⟨?_,free⟩
        intro clash
        exact fresh (distinct clash ▸ member)
      obtain ⟨erased,qs,ran,accepted,only⟩ := ih others remain
      refine ⟨id :: erased,qs,?_,?_,?_⟩
      · simp only [sweep,full,if_true,cleared,bind,Except.bind,ran]
        rfl
      · intro a member
        rcases List.mem_cons.mp member with rfl | later
        · exact full
        · exact accepted a later
      · intro a set
        rcases only a set with before | later
        · rcases Table.mem_insert.mp before with same | old
          · exact .inr (by simp [distinct same])
          · exact .inl old
        · exact .inr (List.mem_cons_of_mem _ later)
    · obtain ⟨erased,qs,ran,accepted,only⟩ := ih others (fun a member => rows a (List.mem_cons_of_mem _ member))
      refine ⟨erased,qs,?_,accepted,only⟩
      simp only [sweep,full]
      exact ran

theorem tryClearAllPromises_attended (distinct : Function.Injective promise) (state : Opened promise s ps)
    (walk : List Int → List Int) (walked : ∀ ids, (walk ids).Perm ids) :
    (∃ t qs, s.tryClearAllPromises ps walk = .ok (t,qs) ∧ Opened promise t qs) ∧
      Attended (s,ps) (.sweep walk walked) := by
  have present : ∀ id ∈ walk s.request_map.keys, id ∈ s.request_map :=
    fun id member => Table.mem_keys.mp ((walked _).mem_iff.mp member)
  obtain ⟨erased,qs,ran,accepted,only⟩ := sweep_attended distinct (walk s.request_map.keys)
    ((walked _).nodup_iff.mpr (Table.keys_nodup _)) (by
      intro id member
      obtain ⟨k,ks,row⟩ := state.row (present id member)
      exact ⟨k,ks,row,(state.rows id _ _ row).2.2⟩)
  have left : Opened promise {s with request_map:=s.request_map.eraseAll erased} qs := by
    refine ⟨?_,?_⟩
    · intro id ks op found
      obtain ⟨kept,old⟩ := Table.find_eraseAll_some found
      obtain ⟨filled,promised,unset⟩ := state.rows id ks op old
      exact ⟨filled,promised,fun set => (only id set).elim unset kept⟩
    · intro k ids found uncached id member
      obtain ⟨ks,op,row,inside⟩ := state.waiting k ids found uncached id member
      refine ⟨ks,op,?_,inside⟩
      rw [Table.find_eraseAll,if_neg]
      · exact row
      · intro gone
        have full := accepted id gone
        simp only [fulfilled_present row,List.all_eq_true,decide_eq_true_eq] at full
        exact uncached (full k inside)
  refine ⟨?_,?_⟩
  · simp only [tryClearAllPromises,ran,bind,Except.bind,pure,Except.pure]
    split
    · rename_i last
      exact ⟨_,_,rfl,drained_opened (s:={s with request_map:=s.request_map.eraseAll erased}) promise qs last⟩
    · exact ⟨_,_,rfl,left⟩
  · intro at_ member
    simp only [examined,List.mem_map] at member
    obtain ⟨id,listed,rfl⟩ := member
    obtain ⟨k,ks,row⟩ := state.row (present id listed)
    exact ⟨k,ks,_,row⟩

theorem mapCall_attended (distinct : Function.Injective promise) (held : Held) (call : MapCall)
    (state : Opened promise held.1 held.2) (permitted : Permitted promise held call) (awaited : Awaited held call) :
    (∃ next, mapCall promise held call = .ok next ∧ Opened promise next.1 next.2) ∧ Attended held call := by
  cases call with
  | register c =>
    obtain ⟨t,ran,opened⟩ := register_opened state c permitted
    refine ⟨⟨(t,held.2),by simp only [mapCall,ran]; rfl,opened⟩,?_⟩
    intro at_ member
    simp [examined] at member
  | deliver key value =>
    obtain ⟨⟨t,qs,ran,opened⟩,attended⟩ := deliver_attended distinct state key value awaited
    exact ⟨⟨(t,qs),ran,opened⟩,attended⟩
  | sweep walk walked =>
    obtain ⟨⟨t,qs,ran,opened⟩,attended⟩ := tryClearAllPromises_attended distinct state walk walked
    exact ⟨⟨(t,qs),ran,opened⟩,attended⟩

-- In a run whose deliveries all find their key without a value, every call
-- returns and examines open requests only.
theorem requests_attended (distinct : Function.Injective promise) (ps : Promises) (calls : List MapCall)
    (admissible : Admissible (mapCall promise) (fun held call => Permitted promise held call ∧ Awaited held call)
      (empty,ps) calls) :
    (∃ last, run (mapCall promise) (empty,ps) calls = .ok last) ∧
      ∀ earlier call later, calls = earlier ++ call :: later →
        ∃ held, run (mapCall promise) (empty,ps) earlier = .ok held ∧ Attended held call := by
  have keeps : ∀ held call, Opened promise held.1 held.2 → Permitted promise held call ∧ Awaited held call →
      ∃ next, mapCall promise held call = .ok next ∧ Opened promise next.1 next.2 := by
    intro held call state now
    exact (mapCall_attended distinct held call state now.1 now.2).1
  refine ⟨?_,?_⟩
  · obtain ⟨last,ran,_⟩ := run_invariant keeps calls (empty_opened promise ps) admissible
    exact ⟨last,ran⟩
  · intro earlier call later shape
    rw [shape] at admissible
    obtain ⟨before,after⟩ := admissible.append
    obtain ⟨held,ran,state⟩ := run_invariant keeps earlier (empty_opened promise ps) before
    obtain ⟨now,_⟩ := after held ran
    exact ⟨held,ran,(mapCall_attended distinct held call state now.1 now.2).2⟩

-- Requests 1 and 3 wait for a and c, request 2 is given a.
def mixedCalls : List MapCall := [.register (.pending (str "a") 1),.register (.cached 2 (str "a") (str "x")),
  .register (.pending (str "c") 3),.sweep (fun ids => ids) (fun ids => .refl ids)]

theorem mixed_requests_attended :
    Admissible (mapCall Encodable.encode) (fun held call => Permitted Encodable.encode held call ∧ Awaited held call)
      (empty,∅) (mixedCalls ++ [.deliver (str "c") (str "y")]) ∧
    (∃ last, run (mapCall Encodable.encode) (empty,∅) (mixedCalls ++ [.deliver (str "c") (str "y")]) = .ok last) ∧
      ∀ earlier call later, mixedCalls ++ [.deliver (str "c") (str "y")] = earlier ++ call :: later →
        ∃ held, run (mapCall Encodable.encode) (empty,∅) earlier = .ok held ∧ Attended held call :=
  ⟨by decide +kernel,requests_attended Encodable.encode_injective ∅ _ (by decide +kernel)⟩

def mixedState : Held := (run (mapCall Encodable.encode) (empty,∅) mixedCalls).toOption.get (by decide +kernel)

-- The sweep answers request 1 while request 3 stays open, so a still lists 1.
theorem answered_id_examined_again :
    ¬ ∀ (promise : Int → Nat) (calls : List MapCall), Function.Injective promise →
      Admissible (mapCall promise) (Permitted promise) (empty,∅) calls →
      ∀ earlier call later held, calls = earlier ++ call :: later →
        run (mapCall promise) (empty,∅) earlier = .ok held → Attended held call := by
  intro always
  have attended := always Encodable.encode (mixedCalls ++ [.deliver (str "a") (str "x")]) Encodable.encode_injective
    (by decide +kernel) mixedCalls (.deliver (str "a") (str "x")) [] mixedState rfl (toOption_get _)
  have known : ∀ at_ ∈ examined mixedState (.deliver (str "a") (str "x")), at_.1.request_map.find? at_.2 ≠ none := by
    intro at_ member absent
    obtain ⟨_,_,_,row⟩ := attended at_ member
    rw [absent] at row
    cases row
  exact absurd known (by decide +kernel)

end TsWaffle.ThreadSafeUnorderedMap
