import TsWaffle.RunningKeys

namespace TsWaffle.ThreadSafeUnorderedMap
open Text
variable {s0 s t : ThreadSafeUnorderedMap} {ps0 ps : Promises} {value : Str → Str} {id : Int}

-- The maps as registering leaves them: every request has its own unset promise,
-- and each of its keys is either cached or waited for under its id, never both.
structure Registered (s : ThreadSafeUnorderedMap) (ps : Promises) : Prop where
  rows : ∀ id ks op, s.request_map.find? id = some (ks,op) →
    ks ≠ [] ∧ (∃ p, op = some p ∧ p ∉ ps) ∧
      ∀ k ∈ ks, k ∈ s.get_cache ∨ ∃ ids, s.get_map.find? k = some ids ∧ id ∈ ids
  owners : ∀ id other ks ls p, s.request_map.find? id = some (ks,some p) →
    s.request_map.find? other = some (ls,some p) → id = other
  waiting : ∀ k ids, s.get_map.find? k = some ids →
    k ∉ s.get_cache ∧ (∃ id, id ∈ ids) ∧
      ∀ id ∈ ids, ∃ ks op, s.request_map.find? id = some (ks,op) ∧ k ∈ ks
  cached : ∀ k ∈ s.get_cache, ∃ id, id ∈ s.request_map

theorem Registered.idle (valid : Registered s ps) (none : s.request_map = ∅) :
    s.get_map = ∅ ∧ s.get_cache = ∅ := by
  refine ⟨Table.eq_empty ?_,Table.eq_empty ?_⟩
  · intro k present
    obtain ⟨ids,found⟩ := Table.mem_iff.mp present
    obtain ⟨_,⟨id,member⟩,requests⟩ := valid.waiting k ids found
    obtain ⟨ks,op,row,_⟩ := requests id member
    simp [none] at row
  · intro k present
    obtain ⟨id,member⟩ := valid.cached k present
    simp [none] at member

theorem empty_registered (ps : Promises) : Registered empty ps := by
  refine ⟨?_,?_,?_,?_⟩ <;> simp [empty]

-- The request id belongs to promise p, which no other request has and nothing has set.
structure Owns (s : ThreadSafeUnorderedMap) (ps : Promises) (id : Int) (p : Nat) : Prop where
  unset : p ∉ ps
  row : ∀ ks op, s.request_map.find? id = some (ks,op) → op = some p
  only : ∀ other ks, s.request_map.find? other = some (ks,some p) → other = id

def keysOf (s : ThreadSafeUnorderedMap) (id : Int) : List Str := ((s.request_map.find? id).getD ([],none)).1

-- Both ways of registering a key append it to the row of its request.
def Appended (s t : ThreadSafeUnorderedMap) (id : Int) (key : Str) (p : Nat) : Prop :=
  ∀ a, t.request_map.find? a = if a = id then some (s.keysOf id ++ [key],some p) else s.request_map.find? a

theorem Appended.row_cases (grown : Appended s t id key p) (row : t.request_map.find? a = some (ks,op)) :
    (a = id ∧ ks = s.keysOf id ++ [key] ∧ op = some p) ∨ (a ≠ id ∧ s.request_map.find? a = some (ks,op)) := by
  rw [grown a] at row
  by_cases equal : a = id
  · rw [if_pos equal] at row
    cases row
    exact .inl ⟨equal,rfl,rfl⟩
  · rw [if_neg equal] at row
    exact .inr ⟨equal,row⟩

theorem Appended.owns (grown : Appended s t id key p) (owner : Owns s ps id p) : Owns t ps id p := by
  refine ⟨owner.unset,?_,?_⟩
  · intro ks op row
    rcases grown.row_cases row with ⟨_,_,mine⟩ | ⟨other,_⟩
    · exact mine
    · exact absurd rfl other
  · intro other ks row
    rcases grown.row_cases row with ⟨equal,_⟩ | ⟨_,old⟩
    · exact equal
    · exact owner.only other ks old

theorem Appended.owners (grown : Appended s t id key p) (owner : Owns s ps id p) (valid : Registered s ps)
    (one : t.request_map.find? a = some (ks,some q)) (two : t.request_map.find? b = some (ls,some q)) : a = b := by
  rcases grown.row_cases one with ⟨left,_,mine⟩ | ⟨_,before⟩
  · rcases grown.row_cases two with ⟨right,_⟩ | ⟨_,old⟩
    · exact left.trans right.symm
    · cases mine
      exact left.trans (owner.only b ls old).symm
  · rcases grown.row_cases two with ⟨right,_,mine⟩ | ⟨_,old⟩
    · cases mine
      exact (owner.only a ks before).trans right.symm
    · exact valid.owners a b ks ls q before old

-- Registered is kept by appending a key, provided the key is now supplied.
theorem Appended.registered (grown : Appended s t id key p) (owner : Owns s ps id p) (valid : Registered s ps)
    (cacheGrows : ∀ k ∈ s.get_cache, k ∈ t.get_cache)
    (mapGrows : ∀ k ids, s.get_map.find? k = some ids → ∃ more, t.get_map.find? k = some more ∧ ∀ a ∈ ids, a ∈ more)
    (supplied : key ∈ t.get_cache ∨ ∃ ids, t.get_map.find? key = some ids ∧ id ∈ ids)
    (waiting : ∀ k ids, t.get_map.find? k = some ids → k ∉ t.get_cache ∧ (∃ a, a ∈ ids) ∧
      ∀ a ∈ ids, (a = id ∧ k = key) ∨ ∃ old, s.get_map.find? k = some old ∧ a ∈ old)
    : Registered t ps := by
  have carry : ∀ a k, (k ∈ s.get_cache ∨ ∃ ids, s.get_map.find? k = some ids ∧ a ∈ ids) →
      k ∈ t.get_cache ∨ ∃ ids, t.get_map.find? k = some ids ∧ a ∈ ids := by
    intro a k before
    rcases before with cached | ⟨ids,found,member⟩
    · exact .inl (cacheGrows k cached)
    · obtain ⟨more,now,includes⟩ := mapGrows k ids found
      exact .inr ⟨more,now,includes a member⟩
  refine ⟨?_,fun a b ks ls q one two => grown.owners owner valid one two,?_,?_⟩
  · intro a ks op row
    rcases grown.row_cases row with ⟨rfl,rfl,rfl⟩ | ⟨_,old⟩
    · refine ⟨by simp,⟨p,rfl,owner.unset⟩,?_⟩
      intro k member
      rcases List.mem_append.mp member with old | new
      · cases found : s.request_map.find? a with
        | none => simp [keysOf,found] at old
        | some r =>
          simp only [keysOf,found,Option.getD_some] at old
          exact carry a k ((valid.rows a r.1 r.2 found).2.2 k old)
      · rw [List.mem_singleton.mp new]
        exact supplied
    · obtain ⟨filled,promised,before⟩ := valid.rows a ks op old
      exact ⟨filled,promised,fun k member => carry a k (before k member)⟩
  · intro k ids found
    obtain ⟨uncached,inhabited,members⟩ := waiting k ids found
    refine ⟨uncached,inhabited,?_⟩
    intro a member
    rcases members a member with ⟨rfl,rfl⟩ | ⟨old,before,listed⟩
    · exact ⟨_,_,by rw [grown a,if_pos rfl],by simp⟩
    · obtain ⟨_,_,requests⟩ := valid.waiting k old before
      obtain ⟨ks,op,row,inside⟩ := requests a listed
      by_cases equal : a = id
      · subst equal
        exact ⟨_,_,by rw [grown a,if_pos rfl],by simp [keysOf,row,inside]⟩
      · exact ⟨ks,op,by rw [grown a,if_neg equal]; exact row,inside⟩
  · intro k _
    exact ⟨id,Table.mem_iff.mpr ⟨_,by rw [grown id,if_pos rfl]⟩⟩

theorem insert_cache_registered {value : Str} (valid : Registered s ps) (owner : Owns s ps id p)
    (unwaited : key ∉ s.get_map) (agrees : ∀ v, s.get_cache.find? key = some v → v = value) :
    ∃ t, s.insert_cache id key value p = .ok t ∧ Registered t ps ∧ Appended s t id key p ∧
      t.m_map_ = s.m_map_ ∧ t.get_map = s.get_map ∧ t.get_cache = s.get_cache.insert key value := by
  have ran : s.insert_cache id key value p = .ok (insert_cache.register id key value p s) := by
    unfold insert_cache
    cases found : s.get_cache.find? key with
    | none => rfl
    | some v => simp [agrees v found]
  have grown : Appended s (insert_cache.register id key value p s) id key p := by
    intro a
    simp only [insert_cache.register,Table.find_insert,keysOf]
    cases found : s.request_map.find? id with
    | none => rfl
    | some r =>
      have promised := owner.row r.1 r.2 found
      simp [promised]
  refine ⟨_,ran,?_,grown,rfl,rfl,rfl⟩
  refine grown.registered owner valid ?_ ?_ (.inl (by simp [insert_cache.register])) ?_
  · intro k member; simp [insert_cache.register,member]
  · intro k ids found; exact ⟨ids,found,fun _ member => member⟩
  · intro k ids found
    obtain ⟨uncached,inhabited,_⟩ := valid.waiting k ids found
    refine ⟨?_,inhabited,fun a member => .inr ⟨ids,found,member⟩⟩
    have differs : k ≠ key := by
      intro equal
      subst equal
      exact unwaited (Table.mem_iff.mpr ⟨ids,found⟩)
    simp [insert_cache.register,differs,uncached]

theorem insertIfNotPresentGet_registered (valid : Registered s ps) (owner : Owns s ps id p)
    (uncached : key ∉ s.get_cache) :
    Registered (s.insertIfNotPresentGet key p id).2 ps ∧ Appended s (s.insertIfNotPresentGet key p id).2 id key p := by
  have grown : Appended s (s.insertIfNotPresentGet key p id).2 id key p := by
    intro a
    simp [insertIfNotPresentGet,keysOf]
  refine ⟨grown.registered owner valid (fun k member => member) ?_ (.inr ?_) ?_,grown⟩
  · intro k ids found
    by_cases equal : k = key
    · subst equal
      refine ⟨ids.insert id,by simp [insertIfNotPresentGet,found],?_⟩
      intro a member; simp [member]
    · exact ⟨ids,by simp [insertIfNotPresentGet,equal,found],fun _ member => member⟩
  · exact ⟨((s.get_map.find? key).getD ∅).insert id,by simp [insertIfNotPresentGet],by simp⟩
  · intro k ids found
    by_cases equal : k = key
    · subst equal
      simp only [insertIfNotPresentGet,Table.find_insert,if_true,Option.some.injEq] at found
      subst found
      refine ⟨uncached,⟨id,by simp⟩,?_⟩
      intro a member
      rcases OrderedSet.mem_insert.mp member with same | old
      · exact .inl ⟨same,rfl⟩
      · cases before : s.get_map.find? k with
        | none => simp [before] at old
        | some waiting => exact .inr ⟨waiting,rfl,by simpa [before] using old⟩
    · have before : s.get_map.find? k = some ids := by simpa [insertIfNotPresentGet,equal] using found
      obtain ⟨fresh,inhabited,_⟩ := valid.waiting k ids before
      exact ⟨fresh,inhabited,fun a member => .inr ⟨ids,before,member⟩⟩

def answer (s : ThreadSafeUnorderedMap) (value : Str → Str) (ks : List Str) : Answer :=
  .sum (ks.map (fun k => (k,(s.get_cache.find? k).getD (value k))))

-- Where settling stands, seen from the registered state s0: rest is still to be
-- delivered, todo are the ids of the current key not looked at yet. An open
-- request outside todo waits for an undelivered key, so no id is ever dangling.
structure Delivering (s0 : ThreadSafeUnorderedMap) (ps0 : Promises) (value : Str → Str)
    (rest : List Str) (todo : List Int) (s : ThreadSafeUnorderedMap) (ps : Promises) : Prop where
  same : ∀ id row, s.request_map.find? id = some row → s0.request_map.find? id = some row
  opened : ∀ id ks op, s.request_map.find? id = some (ks,op) → id ∉ todo →
    ∃ k ∈ ks, k ∉ s0.get_cache ∧ k ∈ rest
  pending : ∀ id ks op, s0.request_map.find? id = some (ks,op) →
    (∃ k ∈ ks, k ∉ s0.get_cache ∧ k ∈ rest) → id ∈ s.request_map
  listed : ∀ id ∈ todo, id ∈ s.request_map
  closed : ∀ id ks p, s0.request_map.find? id = some (ks,some p) → id ∉ s.request_map →
    ps.find? p = some (s0.answer value ks)
  unset : ∀ id ks p, s.request_map.find? id = some (ks,some p) → p ∉ ps
  others : ∀ p, (∀ id ks, s0.request_map.find? id ≠ some (ks,some p)) → ps.find? p = ps0.find? p
  maps : s.request_map ≠ ∅ → s.get_map = s0.get_map ∧
    ∀ k, s.get_cache.find? k =
      (s0.get_cache.find? k).or (if k ∈ s0.get_map ∧ k ∉ rest then some (value k) else none)
  idle : s.request_map = ∅ → s.get_map = ∅ ∧ s.get_cache = ∅
  plain : ∀ k ∈ s.m_map_, k ∈ rest

theorem fulfilled_present (row : s.request_map.find? id = some (ks,op)) :
    s.isFulfilled id = (ks.all (fun k => decide (k ∈ s.get_cache)),s) := by
  simp [isFulfilled,Table.fetch_present row]

theorem clear_present (row : s.request_map.find? id = some (ks,some p)) (filled : ks ≠ []) (fresh : p ∉ ps) :
    s.clearPromises ps id =
      .ok (ps.insert p (.sum (ks.map (fun k => (k,(s.get_cache.find? k).getD []))))) := by
  cases ks with
  | nil => exact absurd rfl filled
  | cons k ks => simp [clearPromises,row,set_value_fresh fresh]

theorem Delivering.cache_mem (state : Delivering s0 ps0 value rest todo s ps) (busy : s.request_map ≠ ∅) :
    k ∈ s.get_cache ↔ k ∈ s0.get_cache ∨ (k ∈ s0.get_map ∧ k ∉ rest) := by
  rw [Table.mem_iff,(state.maps busy).2 k]
  cases found : s0.get_cache.find? k with
  | some v => simp [Table.mem_iff,found]
  | none =>
    have absent : k ∉ s0.get_cache := Table.find_none.mp found
    by_cases arrived : k ∈ s0.get_map ∧ k ∉ rest <;> simp [absent,arrived]

-- The values a fulfilled request is answered with are the final ones.
theorem Delivering.answer_eq (state : Delivering s0 ps0 value rest todo s ps) (busy : s.request_map ≠ ∅)
    (all : ∀ k ∈ ks, k ∈ s.get_cache) :
    Answer.sum (ks.map (fun k => (k,(s.get_cache.find? k).getD []))) = s0.answer value ks := by
  unfold answer
  congr 1
  apply List.map_congr_left
  intro k member
  have arrived := (state.cache_mem busy).mp (all k member)
  rw [(state.maps busy).2 k]
  cases found : s0.get_cache.find? k with
  | some v => rfl
  | none =>
    have absent : k ∉ s0.get_cache := Table.find_none.mp found
    have here : k ∈ s0.get_map ∧ k ∉ rest := arrived.resolve_left absent
    simp [here]

-- Closing one fulfilled request of the current key.
theorem Registered.other_promise (valid : Registered s ps) (one : s.request_map.find? a = some (ls,some q))
    (two : s.request_map.find? b = some (ks,some p)) (differs : a ≠ b) : q ≠ p := by
  intro clash
  subst clash
  exact differs (valid.owners a b ls ks q one two)

theorem Delivering.close_request (valid : Registered s0 ps0)
    (state : Delivering s0 ps0 value rest (id :: todo) s ps) (distinct : (id :: todo).Nodup)
    (row : s.request_map.find? id = some (ks,some p)) (all : ∀ k ∈ ks, k ∈ s.get_cache) :
    Delivering s0 ps0 value rest todo
      {s with request_map:=s.request_map.erase id,
              get_map:=if (s.request_map.erase id).isEmpty then ∅ else s.get_map,
              get_cache:=if (s.request_map.erase id).isEmpty then ∅ else s.get_cache}
      (ps.insert p (s0.answer value ks)) := by
  have busy : s.request_map ≠ ∅ := by intro none; simp [none] at row
  have origin := state.same id _ row
  refine ⟨?_,?_,?_,?_,?_,?_,?_,?_,?_,state.plain⟩
  · intro a r found
    exact state.same a r (Table.find_erase_some found).2
  · intro a ls op found outside
    obtain ⟨other,old⟩ := Table.find_erase_some found
    exact state.opened a ls op old (by simp [other,outside])
  · intro a ls op found waits
    have still := state.pending a ls op found waits
    refine Table.mem_erase.mpr ⟨?_,still⟩
    intro equal
    subst equal
    rw [origin] at found
    cases found
    obtain ⟨k,member,uncached,undelivered⟩ := waits
    exact ((state.cache_mem busy).mp (all k member)).elim uncached (fun here => here.2 undelivered)
  · intro a member
    have differs : a ≠ id := by
      intro equal
      exact (List.nodup_cons.mp distinct).1 (equal ▸ member)
    exact Table.mem_erase.mpr ⟨differs,state.listed a (List.mem_cons_of_mem _ member)⟩
  · intro a ls q found gone
    by_cases equal : a = id
    · subst equal
      rw [origin] at found
      cases found
      simp
    · have still : a ∉ s.request_map := fun present => gone (Table.mem_erase.mpr ⟨equal,present⟩)
      rw [Table.find_insert,if_neg (valid.other_promise found origin equal)]
      exact state.closed a ls q found still
  · intro a ls q found
    obtain ⟨other,old⟩ := Table.find_erase_some found
    rw [Table.mem_insert]
    exact not_or.mpr ⟨valid.other_promise (state.same a _ old) origin other,state.unset a ls q old⟩
  · intro q foreign
    have differs : q ≠ p := by
      intro clash
      subst clash
      exact foreign id ks origin
    rw [Table.find_insert,if_neg differs]
    exact state.others q foreign
  · intro nonempty
    have flag : (s.request_map.erase id).isEmpty = false := by
      rw [Bool.eq_false_iff,ne_eq,Table.isEmpty_iff]
      exact nonempty
    simpa [flag] using state.maps busy
  · intro none
    simp [Table.isEmpty_iff.mpr none]

theorem clearWaiting_delivers (valid : Registered s0 ps0) (ids : List Int) (distinct : ids.Nodup)
    (state : Delivering s0 ps0 value rest ids s ps) :
    ∃ t qs, s.clearWaiting ps ids = .ok (t,qs) ∧ Delivering s0 ps0 value rest [] t qs := by
  induction ids generalizing s ps with
  | nil => exact ⟨s,ps,rfl,state⟩
  | cons id todo ih =>
    obtain ⟨⟨ks,op⟩,row⟩ := Table.mem_iff.mp (state.listed id (by simp))
    have busy : s.request_map ≠ ∅ := by intro none; simp [none] at row
    obtain ⟨filled,⟨p,owned,_⟩,supplied⟩ := valid.rows id ks op (state.same id _ row)
    subst owned
    have fresh := state.unset id ks p row
    cases verdict : ks.all (fun k => decide (k ∈ s.get_cache)) with
    | false =>
      obtain ⟨k,member,missing⟩ : ∃ k ∈ ks, k ∉ s.get_cache := by simpa using verdict
      have witness : k ∉ s0.get_cache ∧ k ∈ rest := by
        rw [state.cache_mem busy,not_or,not_and,not_not] at missing
        rcases supplied k member with cached | ⟨waiting,found,_⟩
        · exact absurd cached missing.1
        · exact ⟨missing.1,missing.2 (Table.mem_iff.mpr ⟨waiting,found⟩)⟩
      have next : Delivering s0 ps0 value rest todo s ps := by
        refine ⟨state.same,?_,state.pending,fun a later => state.listed a (List.mem_cons_of_mem _ later),
          state.closed,state.unset,state.others,state.maps,state.idle,state.plain⟩
        intro a ls op found outside
        by_cases equal : a = id
        · subst equal
          rw [row] at found
          cases found
          exact ⟨k,member,witness⟩
        · exact state.opened a ls op found (by simp [equal,outside])
      obtain ⟨t,qs,ran,final⟩ := ih (List.nodup_cons.mp distinct).2 next
      exact ⟨t,qs,by simpa [clearWaiting,fulfilled_present row,verdict] using ran,final⟩
    | true =>
      have all : ∀ k ∈ ks, k ∈ s.get_cache := by simpa using verdict
      have next := state.close_request valid distinct row all
      have cleared : s.clearPromises ps id = .ok (ps.insert p (s0.answer value ks)) := by
        rw [clear_present row filled fresh,state.answer_eq busy all]
      by_cases last : (s.request_map.erase id).isEmpty = true
      · simp only [last,if_true] at next
        refine ⟨_,_,?_,next.same,?_,next.pending,by simp,next.closed,next.unset,next.others,next.maps,next.idle,next.plain⟩
        · simp only [clearWaiting,fulfilled_present row,verdict,if_true,cleared,bind,Except.bind,last]
        · intro a ls op found _
          rw [Table.isEmpty_iff.mp last] at found
          simp at found
      · simp only [last] at next
        obtain ⟨t,qs,ran,final⟩ := ih (List.nodup_cons.mp distinct).2 next
        refine ⟨t,qs,?_,final⟩
        simpa [clearWaiting,fulfilled_present row,verdict,cleared,bind,Except.bind,last] using ran

theorem Delivering.plain_later (state : Delivering s0 ps0 value (key :: rest) [] s ps) :
    ∀ k ∈ s.m_map_.erase key, k ∈ rest := by
  intro k member
  obtain ⟨differs,old⟩ := Table.mem_erase.mp member
  exact (List.mem_cons.mp (state.plain k old)).resolve_left differs

theorem Delivering.pending_later (state : Delivering s0 ps0 value (key :: rest) [] s ps) (id : Int) (ks : List Str)
    (op : Option Nat) (row : s0.request_map.find? id = some (ks,op)) (waits : ∃ k ∈ ks, k ∉ s0.get_cache ∧ k ∈ rest) :
    id ∈ s.request_map := by
  obtain ⟨k,member,uncached,undelivered⟩ := waits
  exact state.pending id ks op row ⟨k,member,uncached,List.mem_cons_of_mem _ undelivered⟩

-- A key that no open request waits for: the maps already agree with rest.
theorem Delivering.unwaited (valid : Registered s0 ps0) (state : Delivering s0 ps0 value (key :: rest) [] s ps)
    (waited : s.get_map.find? key = none) :
    Delivering s0 ps0 value rest [] {s with m_map_:=s.m_map_.erase key} ps := by
  refine ⟨state.same,?_,state.pending_later,by simp,state.closed,state.unset,state.others,?_,state.idle,state.plain_later⟩
  · intro id ks op row _
    have busy : s.request_map ≠ ∅ := by intro none; simp [none] at row
    obtain ⟨k,member,uncached,pending⟩ := state.opened id ks op row (by simp)
    refine ⟨k,member,uncached,(List.mem_cons.mp pending).resolve_left ?_⟩
    intro equal
    subst equal
    obtain ⟨_,_,supplied⟩ := valid.rows id ks op (state.same id _ row)
    obtain ⟨ids,found,_⟩ := (supplied k member).resolve_left uncached
    rw [(state.maps busy).1,found] at waited
    cases waited
  · intro busy
    refine ⟨(state.maps busy).1,?_⟩
    intro k
    rw [(state.maps busy).2 k]
    have absent : key ∉ s0.get_map := by rw [← (state.maps busy).1]; exact Table.find_none.mp waited
    by_cases equal : k = key
    · subst equal; simp [absent]
    · simp [equal]

-- The value enters get_cache; the requests that wait for the key are to be looked at.
theorem Delivering.entered (valid : Registered s0 ps0) (unique : key ∉ rest)
    (state : Delivering s0 ps0 value (key :: rest) [] s ps) (waited : s.get_map.find? key = some ids) :
    Delivering s0 ps0 value rest ids.toList
      {s with m_map_:=s.m_map_.erase key,get_cache:=s.get_cache.insert key (value key)} ps := by
  have busy : s.request_map ≠ ∅ := by
    intro none
    rw [(state.idle none).1] at waited
    simp at waited
  have origin : s0.get_map.find? key = some ids := by rw [← (state.maps busy).1]; exact waited
  obtain ⟨uncached,_,requests⟩ := valid.waiting key ids origin
  refine ⟨state.same,?_,state.pending_later,?_,state.closed,state.unset,state.others,?_,?_,state.plain_later⟩
  · intro id ks op row outside
    obtain ⟨k,member,fresh,pending⟩ := state.opened id ks op row (by simp)
    refine ⟨k,member,fresh,(List.mem_cons.mp pending).resolve_left ?_⟩
    intro equal
    subst equal
    obtain ⟨_,_,supplied⟩ := valid.rows id ks op (state.same id _ row)
    obtain ⟨others,found,listed⟩ := (supplied k member).resolve_left fresh
    rw [origin] at found
    cases found
    exact outside listed
  · intro id member
    obtain ⟨ks,op,row,inside⟩ := requests id (OrderedSet.mem_toList.mp member)
    exact state.pending id ks op row ⟨key,inside,uncached,by simp⟩
  · intro _
    refine ⟨(state.maps busy).1,?_⟩
    intro k
    change (s.get_cache.insert key (value key)).find? k = _
    rw [Table.find_insert,(state.maps busy).2 k]
    by_cases equal : k = key
    · subst equal
      have none : s0.get_cache.find? k = none := Table.find_none.mpr uncached
      have waits : k ∈ s0.get_map := Table.mem_iff.mpr ⟨ids,origin⟩
      simp [none,waits,unique]
    · simp [equal]
  · intro none; exact absurd none busy

theorem tryClearPromises_delivers (valid : Registered s0 ps0) (unique : key ∉ rest)
    (state : Delivering s0 ps0 value (key :: rest) [] s ps) :
    ∃ t qs, s.tryClearPromises ps key (value key) = .ok (t,qs) ∧ Delivering s0 ps0 value rest [] t qs := by
  cases waited : s.get_map.find? key with
  | none => exact ⟨_,ps,by simp [tryClearPromises,waited],state.unwaited valid waited⟩
  | some ids =>
    obtain ⟨t,qs,ran,final⟩ := clearWaiting_delivers valid ids.toList ids.nodup (state.entered valid unique waited)
    exact ⟨t,qs,by simpa [tryClearPromises,waited] using ran,final⟩

theorem deliver_all (valid : Registered s0 ps0) (keys : List Str) (distinct : keys.Nodup)
    (state : Delivering s0 ps0 value keys [] s ps) :
    ∃ t qs, s.deliver ps value keys = .ok (t,qs) ∧ Delivering s0 ps0 value [] [] t qs := by
  induction keys generalizing s ps with
  | nil => exact ⟨s,ps,rfl,state⟩
  | cons key rest ih =>
    obtain ⟨unique,tail⟩ := List.nodup_cons.mp distinct
    obtain ⟨t,qs,ran,next⟩ := tryClearPromises_delivers valid unique state
    obtain ⟨u,rs,rest,final⟩ := ih tail next
    exact ⟨u,rs,by simpa [deliver,ran,bind,Except.bind] using rest,final⟩

def fulfilled (s : ThreadSafeUnorderedMap) (id : Int) : Bool := (s.isFulfilled id).1

theorem cached_answer (all : ∀ k ∈ ks, k ∈ s.get_cache) (value : Str → Str) :
    Answer.sum (ks.map (fun k => (k,(s.get_cache.find? k).getD []))) = s.answer value ks := by
  unfold answer
  congr 1
  apply List.map_congr_left
  intro k member
  obtain ⟨v,found⟩ := Table.mem_iff.mp (all k member)
  simp [found]

-- The sweep answers the requests whose keys are all cached and touches no other promise.
theorem sweep_answers (valid : Registered s ps0) (value : Str → Str) (ids : List Int) (distinct : ids.Nodup)
    (listed : ∀ id ∈ ids, id ∈ s.request_map)
    (unset : ∀ id ∈ ids, ∀ ks p, s.request_map.find? id = some (ks,some p) → p ∉ ps) :
    ∃ qs, s.sweep ps ids = .ok (ids.filter s.fulfilled,qs) ∧
      (∀ id ∈ ids.filter s.fulfilled, ∀ ks p, s.request_map.find? id = some (ks,some p) →
        qs.find? p = some (s.answer value ks)) ∧
      ∀ q, (∀ id ∈ ids.filter s.fulfilled, ∀ ks, s.request_map.find? id ≠ some (ks,some q)) →
        qs.find? q = ps.find? q := by
  induction ids generalizing ps with
  | nil => exact ⟨ps,rfl,by simp,by simp⟩
  | cons id rest ih =>
    obtain ⟨absent,tail⟩ := List.nodup_cons.mp distinct
    obtain ⟨⟨ks,op⟩,row⟩ := Table.mem_iff.mp (listed id (by simp))
    obtain ⟨filled,⟨p,owned,_⟩,_⟩ := valid.rows id ks op row
    subst owned
    have restListed : ∀ a ∈ rest, a ∈ s.request_map := fun a member => listed a (List.mem_cons_of_mem _ member)
    have foreign : ∀ a ∈ rest, ∀ ls, s.request_map.find? a ≠ some (ls,some p) := by
      intro a member ls clash
      exact absent (valid.owners id a ks ls p row clash ▸ member)
    cases verdict : s.fulfilled id with
    | false =>
      obtain ⟨qs,ran,answered,others⟩ := ih tail restListed (fun a member => unset a (List.mem_cons_of_mem _ member))
      refine ⟨qs,?_,?_,?_⟩
      · unfold fulfilled at verdict
        simpa [sweep,verdict,fulfilled] using ran
      · simpa [verdict] using answered
      · simpa [verdict] using others
    | true =>
      have all : ∀ k ∈ ks, k ∈ s.get_cache := by
        simpa [fulfilled,fulfilled_present row] using verdict
      have cleared : s.clearPromises ps id = .ok (ps.insert p (s.answer value ks)) := by
        rw [clear_present row filled (unset id (by simp) ks p row),cached_answer all value]
      have restUnset : ∀ a ∈ rest, ∀ ls q, s.request_map.find? a = some (ls,some q) →
          q ∉ ps.insert p (s.answer value ks) := by
        intro a member ls q found
        have differs : q ≠ p := by
          intro clash
          subst clash
          exact foreign a member ls found
        rw [Table.mem_insert]
        exact not_or.mpr ⟨differs,unset a (List.mem_cons_of_mem _ member) ls q found⟩
      obtain ⟨qs,ran,answered,others⟩ := ih tail restListed restUnset
      refine ⟨qs,?_,?_,?_⟩
      · unfold fulfilled at verdict
        simp only [sweep,verdict,if_true,cleared,bind,Except.bind,ran,pure,Except.pure]
        rw [List.filter_cons_of_pos (by simpa [fulfilled] using verdict)]
      · intro a member ls q found
        rw [List.filter_cons_of_pos verdict] at member
        rcases List.mem_cons.mp member with equal | later
        · subst equal
          rw [row] at found
          cases found
          rw [others p (fun b inRest => foreign b (List.mem_of_mem_filter inRest))]
          simp
        · exact answered a later ls q found
      · intro q untouched
        rw [List.filter_cons_of_pos verdict] at untouched
        have differs : q ≠ p := by
          intro clash
          subst clash
          exact untouched id (by simp) ks row
        rw [others q (fun a member => untouched a (List.mem_cons_of_mem _ member)),Table.find_insert,if_neg differs]

theorem unfulfilled_key (row : s.request_map.find? id = some (ks,op)) (verdict : s.fulfilled id = false) :
    ∃ k ∈ ks, k ∉ s.get_cache := by
  simpa [fulfilled,fulfilled_present row] using verdict

-- What a sweep over all requests leaves: those that are not fulfilled.
theorem sweep_leaves {ids : List Int} (all : ∀ id ∈ s.request_map, id ∈ ids)
    (found : (s.request_map.eraseAll (ids.filter s.fulfilled)).find? id = some row) :
    s.request_map.find? id = some row ∧ s.fulfilled id = false := by
  obtain ⟨outside,old⟩ := Table.find_eraseAll_some found
  refine ⟨old,?_⟩
  rw [List.mem_filter,not_and,Bool.not_eq_true] at outside
  exact outside (all id (Table.mem_iff.mpr ⟨row,old⟩))

theorem sweep_takes {ids : List Int} (found : s.request_map.find? id = some row)
    (absent : id ∉ s.request_map.eraseAll (ids.filter s.fulfilled)) : s.fulfilled id = true := by
  by_contra unfulfilled
  apply absent
  refine Table.mem_iff.mpr ⟨row,?_⟩
  rw [Table.find_eraseAll,if_neg (fun member => unfulfilled (List.mem_filter.mp member).2)]
  exact found

theorem tryClearAllPromises_delivers (valid : Registered s ps) (value : Str → Str) (order : List Int → List Int)
    (walk : (order s.request_map.keys).Perm s.request_map.keys) (keys : List Str)
    (covers : ∀ k ∈ s.get_map, k ∈ keys) (plain : ∀ k ∈ s.m_map_, k ∈ keys) :
    ∃ t qs, s.tryClearAllPromises ps order = .ok (t,qs) ∧ Delivering s ps value keys [] t qs := by
  have walked : ∀ id, id ∈ order s.request_map.keys ↔ id ∈ s.request_map := by
    intro id
    rw [walk.mem_iff,Table.mem_keys]
  have all : ∀ id ∈ s.request_map, id ∈ order s.request_map.keys := fun id => (walked id).mpr
  obtain ⟨qs,ran,answered,others⟩ := sweep_answers valid value (order s.request_map.keys)
    (walk.nodup_iff.mpr s.request_map.keys_nodup) (fun id => (walked id).mp) (by
      intro id _ ks p row
      obtain ⟨_,⟨q,owned,fresh⟩,_⟩ := valid.rows id ks _ row
      cases owned
      exact fresh)
  let left := s.request_map.eraseAll ((order s.request_map.keys).filter s.fulfilled)
  refine ⟨{s with request_map:=left,get_map:=if left.isEmpty then ∅ else s.get_map,
                  get_cache:=if left.isEmpty then ∅ else s.get_cache},qs,?_,?_,?_,?_,by simp,?_,?_,?_,?_,?_,plain⟩
  · simp only [tryClearAllPromises,ran,bind,Except.bind,pure,Except.pure]
    by_cases last : left.isEmpty = true
    · simp only [left] at last ⊢; simp [last]
    · simp only [left] at last ⊢; simp [last]
  · intro id row found; exact (sweep_leaves all found).1
  · intro id ks op found _
    obtain ⟨row,verdict⟩ := sweep_leaves all found
    obtain ⟨k,member,uncached⟩ := unfulfilled_key row verdict
    obtain ⟨_,_,supplied⟩ := valid.rows id ks op row
    obtain ⟨ids,waited,_⟩ := (supplied k member).resolve_left uncached
    exact ⟨k,member,uncached,covers k (Table.mem_iff.mpr ⟨ids,waited⟩)⟩
  · intro id ks op row waits
    obtain ⟨k,member,uncached,_⟩ := waits
    by_contra absent
    have verdict := sweep_takes row absent
    simp only [fulfilled,fulfilled_present row,List.all_eq_true,decide_eq_true_eq] at verdict
    exact uncached (verdict k member)
  · intro id ks p row absent
    have member := List.mem_filter.mpr ⟨all id (Table.mem_iff.mpr ⟨_,row⟩),sweep_takes row absent⟩
    exact answered id member ks p row
  · intro id ks p found
    obtain ⟨row,verdict⟩ := sweep_leaves all found
    obtain ⟨_,⟨q,owned,fresh⟩,_⟩ := valid.rows id ks _ row
    cases owned
    rw [← Table.find_none,others p]
    · exact Table.find_none.mpr fresh
    · intro a member ls clash
      have same := valid.owners a id ls ks p clash row
      subst same
      rw [(List.mem_filter.mp member).2] at verdict
      cases verdict
  · intro q foreign
    exact others q (fun id _ ks => foreign id ks)
  · intro busy
    have flag : left.isEmpty = false := by
      rw [Bool.eq_false_iff,ne_eq,Table.isEmpty_iff]
      exact busy
    refine ⟨by simp [flag],?_⟩
    intro k
    have waiting : ¬ (k ∈ s.get_map ∧ k ∉ keys) := fun both => both.2 (covers k both.1)
    simp [flag,waiting]
  · intro none
    simp [Table.isEmpty_iff.mpr none]

theorem tryClearAllPromises_plain (ran : s.tryClearAllPromises ps order = .ok (t,qs)) : t.m_map_ = s.m_map_ := by
  simp only [tryClearAllPromises,bind,Except.bind] at ran
  split at ran
  · cases ran
  · split at ran
    · cases ran; rfl
    · cases ran; rfl

theorem tryClearAllPromises_present (valid : Registered s ps) (order : List Int → List Int)
    (walk : (order s.request_map.keys).Perm s.request_map.keys)
    (ran : s.tryClearAllPromises ps order = .ok (t,qs)) : t.m_map_ = s.m_map_ ∧ t.get_map = s.get_map := by
  refine ⟨tryClearAllPromises_plain ran,?_⟩
  obtain ⟨t',qs',swept,state⟩ := tryClearAllPromises_delivers valid (fun _ => []) order walk
    (s.get_map.keys ++ s.m_map_.keys) (fun k member => List.mem_append_left _ (Table.mem_keys.mpr member))
    (fun k member => List.mem_append_right _ (Table.mem_keys.mpr member))
  rw [ran] at swept
  cases swept
  by_cases busy : t.request_map = ∅
  · rw [(state.idle busy).1]
    symm
    apply Table.eq_empty
    intro k present
    obtain ⟨ids,found⟩ := Table.mem_iff.mp present
    obtain ⟨uncached,⟨id,member⟩,requests⟩ := valid.waiting k ids found
    obtain ⟨ks,op,row,inside⟩ := requests id member
    have still := state.pending id ks op row
      ⟨k,inside,uncached,List.mem_append_left _ (Table.mem_keys.mpr present)⟩
    rw [busy] at still
    exact Table.notMem_empty id still
  · exact (state.maps busy).1

-- Settling a batch: the sweep and then one delivery for each key of a list that
-- covers everything pending, in any order, answer every request once and leave
-- all four maps empty. Keys without a request may be added in between.
theorem settle (valid : Registered s ps) (value : Str → Str) (order : List Int → List Int)
    (walk : (order s.request_map.keys).Perm s.request_map.keys) (keys : List Str) (distinct : keys.Nodup)
    (covers : ∀ k ∈ s.get_map, k ∈ keys) (plain : ∀ k ∈ s.m_map_, k ∈ keys)
    (ran : s.tryClearAllPromises ps order = .ok (t,qs))
    (more : Table Str (List (Option Nat))) (added : ∀ k ∈ more, k ∈ keys) :
    ∃ rs, {t with m_map_:=more}.deliver qs value keys = .ok (empty,rs) ∧
      (∀ id ks p, s.request_map.find? id = some (ks,some p) → rs.find? p = some (s.answer value ks)) ∧
      ∀ q, (∀ id ks, s.request_map.find? id ≠ some (ks,some q)) → rs.find? q = ps.find? q := by
  obtain ⟨t',qs',swept,state⟩ := tryClearAllPromises_delivers valid value order walk keys covers plain
  rw [ran] at swept
  cases swept
  have widened : Delivering s ps value keys [] {t with m_map_:=more} qs :=
    ⟨state.same,state.opened,state.pending,state.listed,state.closed,state.unset,state.others,state.maps,
      state.idle,added⟩
  obtain ⟨u,rs,delivered,final⟩ := deliver_all valid keys distinct widened
  have settled : u.request_map = ∅ := by
    apply Table.eq_empty
    intro id present
    obtain ⟨⟨ks,op⟩,row⟩ := Table.mem_iff.mp present
    obtain ⟨k,_,_,pending⟩ := final.opened id ks op row (by simp)
    cases pending
  have bare : u.m_map_ = ∅ := by
    apply Table.eq_empty
    intro k present
    cases final.plain k present
  have cleared : u = empty := by
    obtain ⟨waiting,cached⟩ := final.idle settled
    cases u
    simp only at settled bare waiting cached
    simp [empty,settled,bare,waiting,cached]
  subst cleared
  refine ⟨rs,delivered,?_,final.others⟩
  intro id ks p row
  exact final.closed id ks p row (by simp [empty])

end TsWaffle.ThreadSafeUnorderedMap
