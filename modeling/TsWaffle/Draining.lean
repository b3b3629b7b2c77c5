import TsWaffle.Following
import TsWaffle.Settlement

namespace TsWaffle
open Text Runs

namespace ThreadSafeUnorderedMap
variable {r q s t u : ThreadSafeUnorderedMap} {ps qs us : Promises} {id : Int} {key value : Str}

-- Every key of a row has a value or is waited for under the row's id. Unlike
-- Registered this holds in any state, also where a request is to be answered twice.
def Attached (r : ThreadSafeUnorderedMap) : Prop :=
  ∀ id ks op, r.request_map.find? id = some (ks,op) → ∀ k ∈ ks,
    k ∈ r.get_cache ∨ ∃ ids, r.get_map.find? k = some ids ∧ id ∈ ids

theorem Attached.appended (attached : r.Attached) (id : Int) (key : Str) (owner : Option Nat)
    (grown : ∀ a, q.request_map.find? a =
      if a = id then some (r.keysOf id ++ [key],owner) else r.request_map.find? a)
    (cacheGrows : ∀ k ∈ r.get_cache, k ∈ q.get_cache)
    (mapGrows : ∀ k ids, r.get_map.find? k = some ids → ∃ more, q.get_map.find? k = some more ∧ ∀ a ∈ ids, a ∈ more)
    (supplied : key ∈ q.get_cache ∨ ∃ ids, q.get_map.find? key = some ids ∧ id ∈ ids) : q.Attached := by
  have carry : ∀ a ks op, r.request_map.find? a = some (ks,op) → ∀ k ∈ ks,
      k ∈ q.get_cache ∨ ∃ ids, q.get_map.find? k = some ids ∧ a ∈ ids := by
    intro a ks op row k member
    rcases attached a ks op row k member with cached | ⟨ids,found,listed⟩
    · exact .inl (cacheGrows k cached)
    · obtain ⟨more,now,includes⟩ := mapGrows k ids found
      exact .inr ⟨more,now,includes a listed⟩
  intro a ks op row k member
  rw [grown a] at row
  by_cases same : a = id
  · subst same
    rw [if_pos rfl] at row
    cases row
    rcases List.mem_append.mp member with old | new
    · cases found : r.request_map.find? a with
      | none => simp [keysOf,found] at old
      | some before =>
        simp only [keysOf,found,Option.getD_some] at old
        exact carry a before.1 before.2 found k old
    · rw [List.mem_singleton.mp new]
      exact supplied
  · rw [if_neg same] at row
    exact carry a ks op row k member

theorem insert_cache_attached (attached : r.Attached) (ran : r.insert_cache id key value promise = .ok q) :
    q.Attached ∧ q.get_cache = r.get_cache.insert key value := by
  have shape := insert_cache_register ran
  subst shape
  refine ⟨?_,rfl⟩
  refine attached.appended id key ((r.request_map.find? id).getD ([],some promise)).2 ?_ ?_ ?_ (.inl ?_)
  · intro a
    simp only [insert_cache.register,Table.find_insert,keysOf]
    cases r.request_map.find? id <;> rfl
  · intro k member
    exact Table.mem_insert.mpr (.inr member)
  · intro k ids found
    exact ⟨ids,found,fun _ listed => listed⟩
  · exact Table.mem_insert.mpr (.inl rfl)

theorem insertIfNotPresentGet_attached (attached : r.Attached) (key : Str) (promise : Nat) (id : Int) :
    (r.insertIfNotPresentGet key promise id).2.Attached := by
  refine attached.appended id key (some promise) ?_ ?_ ?_ (.inr ?_)
  · intro a
    simp only [insertIfNotPresentGet,Table.find_insert,keysOf]
  · intro k member
    exact member
  · intro k ids found
    by_cases same : k = key
    · subst same
      refine ⟨ids.insert id,by simp [insertIfNotPresentGet,found],?_⟩
      intro a listed
      exact OrderedSet.mem_insert.mpr (.inr listed)
    · exact ⟨ids,by simp [insertIfNotPresentGet,same,found],fun _ listed => listed⟩
  · exact ⟨((r.get_map.find? key).getD ∅).insert id,by simp [insertIfNotPresentGet],by simp⟩

-- Settling on the way: rest is still to be delivered, todo are the ids of the
-- current key that are still to be examined. Every other open row lacks a value,
-- and whatever it lacks comes with rest.
structure Draining (rest : List Str) (todo : List Int) (r : ThreadSafeUnorderedMap) : Prop where
  rows : ∀ id ks op, r.request_map.find? id = some (ks,op) → ∀ k ∈ ks,
    k ∈ r.get_cache ∨ (k ∈ rest ∧ ∃ ids, r.get_map.find? k = some ids ∧ id ∈ ids)
  short : ∀ id ks op, r.request_map.find? id = some (ks,op) → id ∉ todo → ∃ k ∈ ks, k ∉ r.get_cache
  idle : r.request_map = ∅ → r.get_map = ∅ ∧ r.get_cache = ∅

theorem drained (rest : List Str) (todo : List Int) (none : r.request_map = ∅) :
    Draining rest todo {r with get_map:=∅,get_cache:=∅} := by
  refine ⟨?_,?_,fun _ => ⟨rfl,rfl⟩⟩
  · intro id ks op row
    simp [none] at row
  · intro id ks op row
    simp [none] at row

-- An id without a row would get an empty one, and its first key is then read.
theorem unlisted_fails (absent : r.request_map.find? id = none) :
    (r.isFulfilled id).1 = true ∧ ∀ ps, (r.isFulfilled id).2.clearPromises ps id = .error .undefined := by
  have made : r.request_map.fetch id ([],none) = (([],none),r.request_map.insert id ([],none)) := by
    simp [Table.fetch,absent]
  refine ⟨by simp [isFulfilled,made],?_⟩
  intro ps
  simp [isFulfilled,made,clearPromises]

-- A clearing step makes no row, and what it answers it reads off the promise's row.
structure Settles (r : ThreadSafeUnorderedMap) (ps : Promises) (q : ThreadSafeUnorderedMap) (qs : Promises) : Prop where
  rows : ∀ id row, q.request_map.find? id = some row → r.request_map.find? id = some row
  answers : ∀ p a, qs.find? p = some a → ps.find? p = some a ∨
    ∃ id ks pairs, r.request_map.find? id = some (ks,some p) ∧ a = .sum pairs ∧ pairs.map Prod.fst = ks

theorem settles_refl (r : ThreadSafeUnorderedMap) (ps : Promises) : Settles r ps r ps :=
  ⟨fun _ _ found => found,fun _ _ found => .inl found⟩

theorem Settles.trans (first : Settles r ps q qs) (second : Settles q qs u us) : Settles r ps u us := by
  refine ⟨fun id row found => first.rows id row (second.rows id row found),?_⟩
  intro p a found
  rcases second.answers p a found with before | ⟨id,ks,pairs,row,shape,named⟩
  · exact first.answers p a before
  · exact .inr ⟨id,ks,pairs,first.rows id _ row,shape,named⟩

-- Only request_map matters.
theorem Settles.of_rows (settles : Settles r ps q qs) (before : s.request_map = r.request_map)
    (after : ∀ id row, t.request_map.find? id = some row → q.request_map.find? id = some row) : Settles s ps t qs := by
  refine ⟨?_,?_⟩
  · intro id row found
    rw [before]
    exact settles.rows id row (after id row found)
  · intro p a found
    rw [before]
    exact settles.answers p a found

theorem clearPromises_settles (ran : r.clearPromises ps id = .ok qs) : Settles r ps r qs := by
  unfold clearPromises at ran
  split at ran
  · rename_i key keys promise row
    unfold set_value at ran
    split at ran
    · cases ran
    · cases ran
      refine ⟨fun _ _ found => found,?_⟩
      intro p a found
      rw [Table.find_insert] at found
      split at found
      · rename_i same
        cases found
        subst same
        exact .inr ⟨id,_,_,row,rfl,by simp [Function.comp_def]⟩
      · exact .inl found
  · cases ran

theorem clearWaiting_settles (ids : List Int) (ran : r.clearWaiting ps ids = .ok (q,qs)) : Settles r ps q qs := by
  induction ids generalizing r ps with
  | nil =>
    cases ran
    exact settles_refl _ _
  | cons id rest ih =>
    unfold clearWaiting at ran
    dsimp only at ran
    cases found : r.request_map.find? id with
    | none =>
      obtain ⟨empty,fails⟩ := unlisted_fails found
      rw [if_pos empty,fails ps] at ran
      cases ran
    | some row =>
      obtain ⟨ks,op⟩ := row
      rw [fulfilled_present found] at ran
      dsimp only at ran
      split at ran
      · obtain ⟨more,set,ran⟩ := bind_ok ran
        have erased : Settles r ps {r with request_map:=r.request_map.erase id} more := by
          exact (clearPromises_settles set).of_rows rfl (fun a kept there => (Table.find_erase_some there).2)
        split at ran
        · cases ran
          exact erased.of_rows rfl (fun _ _ there => there)
        · exact erased.trans (ih ran)
      · exact ih ran

theorem tryClearPromises_settles (ran : r.tryClearPromises ps key value = .ok (q,qs)) : Settles r ps q qs := by
  unfold tryClearPromises at ran
  dsimp only at ran
  split at ran
  · cases ran
    exact (settles_refl r ps).of_rows rfl (fun _ _ found => found)
  · exact (clearWaiting_settles _ ran).of_rows rfl (fun _ _ found => found)

theorem deliver_settles (value : Str → Str) (keys : List Str) (ran : r.deliver ps value keys = .ok (q,qs)) :
    Settles r ps q qs := by
  induction keys generalizing r ps with
  | nil =>
    cases ran
    exact settles_refl _ _
  | cons key rest ih =>
    unfold deliver at ran
    obtain ⟨⟨next,more⟩,first,tail⟩ := bind_ok ran
    exact (tryClearPromises_settles first).trans (ih tail)

theorem sweep_settles (ids : List Int) (ran : r.sweep ps ids = .ok (erased,qs)) : Settles r ps r qs := by
  induction ids generalizing ps erased with
  | nil =>
    cases ran
    exact settles_refl _ _
  | cons id rest ih =>
    unfold sweep at ran
    split at ran
    · obtain ⟨more,set,ran⟩ := bind_ok ran
      obtain ⟨⟨others,final⟩,swept,same⟩ := bind_ok ran
      cases same
      exact (clearPromises_settles set).trans (ih swept)
    · exact ih ran

theorem tryClearAllPromises_settles (ran : r.tryClearAllPromises ps order = .ok (q,qs)) : Settles r ps q qs := by
  unfold tryClearAllPromises at ran
  obtain ⟨⟨erased,more⟩,swept,ran⟩ := bind_ok ran
  have left : Settles r ps {r with request_map:=r.request_map.eraseAll erased} more := by
    exact (sweep_settles _ swept).of_rows rfl (fun a row there => (Table.find_eraseAll_some there).2)
  dsimp only at ran
  split at ran
  · cases ran
    exact left.of_rows rfl (fun _ _ found => found)
  · cases ran
    exact left

theorem clearWaiting_draining (ids : List Int) (state : Draining rest ids r)
    (ran : r.clearWaiting ps ids = .ok (q,qs)) : Draining rest [] q := by
  induction ids generalizing r ps with
  | nil =>
    cases ran
    exact state
  | cons id others ih =>
    unfold clearWaiting at ran
    dsimp only at ran
    cases found : r.request_map.find? id with
    | none =>
      obtain ⟨empty,fails⟩ := unlisted_fails found
      rw [if_pos empty,fails ps] at ran
      cases ran
    | some row =>
      obtain ⟨ks,op⟩ := row
      rw [fulfilled_present found] at ran
      dsimp only at ran
      split at ran
      · obtain ⟨more,_,ran⟩ := bind_ok ran
        split at ran
        · rename_i none
          cases ran
          exact drained (r:={r with request_map:=r.request_map.erase id}) rest [] (Table.isEmpty_iff.mp none)
        · rename_i some_
          refine ih ⟨?_,?_,?_⟩ ran
          · intro a ls oq row
            exact state.rows a ls oq (Table.find_erase_some row).2
          · intro a ls oq row outside
            obtain ⟨differs,old⟩ := Table.find_erase_some row
            refine state.short a ls oq old ?_
            intro listed
            exact (List.mem_cons.mp listed).elim differs outside
          · intro none
            exact absurd (Table.isEmpty_iff.mpr none) some_
      · rename_i partial_
        refine ih ⟨state.rows,?_,state.idle⟩ ran
        intro a ls oq row outside
        by_cases same : a = id
        · subst same
          rw [found] at row
          cases row
          simpa using partial_
        · refine state.short a ls oq row ?_
          intro listed
          exact (List.mem_cons.mp listed).elim same outside

theorem tryClearPromises_draining (state : Draining (key :: rest) [] r)
    (ran : r.tryClearPromises ps key value = .ok (q,qs)) : Draining rest [] q := by
  unfold tryClearPromises at ran
  dsimp only at ran
  split at ran
  · rename_i unwaited
    cases ran
    refine ⟨?_,state.short,state.idle⟩
    intro id ks op row k member
    rcases state.rows id ks op row k member with cached | ⟨coming,ids,found,listed⟩
    · exact .inl cached
    · refine .inr ⟨(List.mem_cons.mp coming).resolve_left ?_,ids,found,listed⟩
      intro same
      rw [same,unwaited] at found
      cases found
  · rename_i waiting awaited
    have busy : r.request_map ≠ ∅ := by
      intro none
      rw [(state.idle none).1] at awaited
      simp at awaited
    refine clearWaiting_draining waiting.toList (r:={r with m_map_:=r.m_map_.erase key,
                                                            get_cache:=r.get_cache.insert key value})
      ⟨?_,?_,fun none => absurd none busy⟩ ran
    · intro id ks op row k member
      dsimp only
      rw [Table.mem_insert]
      rcases state.rows id ks op row k member with cached | ⟨coming,ids,found,listed⟩
      · exact .inl (.inr cached)
      · rcases List.mem_cons.mp coming with same | later
        · exact .inl (.inl same)
        · exact .inr ⟨later,ids,found,listed⟩
    · intro id ks op row outside
      obtain ⟨k,member,uncached⟩ := state.short id ks op row List.not_mem_nil
      refine ⟨k,member,?_⟩
      dsimp only
      rw [Table.mem_insert]
      refine not_or.mpr ⟨?_,uncached⟩
      intro same
      subst same
      obtain ⟨_,ids,found,listed⟩ := (state.rows id ks op row k member).resolve_left uncached
      rw [awaited] at found
      cases found
      exact outside (OrderedSet.mem_toList.mpr listed)

-- When everything that is waited for has been delivered, no request is left.
theorem deliver_drains (value : Str → Str) (keys : List Str) (state : Draining keys [] r)
    (ran : r.deliver ps value keys = .ok (q,qs)) : q.request_map = ∅ ∧ q.get_map = ∅ ∧ q.get_cache = ∅ := by
  induction keys generalizing r ps with
  | nil =>
    cases ran
    have none : q.request_map = ∅ := by
      apply Table.eq_empty
      intro id present
      obtain ⟨⟨ks,op⟩,row⟩ := Table.mem_iff.mp present
      obtain ⟨k,member,uncached⟩ := state.short id ks op row List.not_mem_nil
      obtain ⟨coming,_⟩ := (state.rows id ks op row k member).resolve_left uncached
      cases coming
    exact ⟨none,state.idle none⟩
  | cons key rest ih =>
    unfold deliver at ran
    obtain ⟨⟨next,more⟩,first,tail⟩ := bind_ok ran
    exact ih (tryClearPromises_draining state first) tail

theorem sweep_fulfilled (ids : List Int) (ran : r.sweep ps ids = .ok (erased,qs)) :
    ∀ id ∈ ids, (r.isFulfilled id).1 = true → id ∈ erased := by
  induction ids generalizing ps erased qs with
  | nil =>
    intro id member
    cases member
  | cons first rest ih =>
    unfold sweep at ran
    intro id member full
    split at ran
    · obtain ⟨more,_,ran⟩ := bind_ok ran
      obtain ⟨⟨others,final⟩,swept,same⟩ := bind_ok ran
      cases same
      rcases List.mem_cons.mp member with rfl | later
      · exact List.mem_cons_self
      · exact List.mem_cons_of_mem _ (ih swept id later full)
    · rename_i open_
      rcases List.mem_cons.mp member with rfl | later
      · exact absurd full open_
      · exact ih ran id later full

theorem tryClearAllPromises_draining (keys : List Str) (attached : r.Attached) (walked : (order r.request_map.keys).Perm r.request_map.keys)
    (covers : ∀ k ∈ r.get_map, k ∈ keys) (ran : r.tryClearAllPromises ps order = .ok (q,qs)) : Draining keys [] q := by
  unfold tryClearAllPromises at ran
  obtain ⟨⟨erased,more⟩,swept,ran⟩ := bind_ok ran
  have full := sweep_fulfilled _ swept
  dsimp only at ran
  split at ran
  · rename_i none
    cases ran
    exact drained (r:={r with request_map:=r.request_map.eraseAll erased}) keys [] (Table.isEmpty_iff.mp none)
  · rename_i some_
    cases ran
    refine ⟨?_,?_,fun none => absurd (Table.isEmpty_iff.mpr none) some_⟩
    · intro id ks op row k member
      obtain ⟨_,old⟩ := Table.find_eraseAll_some row
      refine (attached id ks op old k member).imp_right ?_
      intro waiting
      obtain ⟨ids,found,listed⟩ := waiting
      exact ⟨covers k (Table.mem_iff.mpr ⟨ids,found⟩),ids,found,listed⟩
    · intro id ks op row _
      obtain ⟨kept,old⟩ := Table.find_eraseAll_some row
      have unfulfilled : (r.isFulfilled id).1 ≠ true := by
        intro all
        exact kept (full id (walked.mem_iff.mpr (Table.mem_keys.mpr (Table.mem_iff.mpr ⟨_,old⟩))) all)
      rw [fulfilled_present old] at unfulfilled
      simpa using unfulfilled

theorem Draining.widened (state : Draining rest todo r) (wide : r.Widened q keys) : Draining rest todo q := by
  rw [wide.shape]
  exact ⟨state.rows,state.short,state.idle⟩

end ThreadSafeUnorderedMap
end TsWaffle
