import TsWaffle.Settlement
import TsWaffle.Lib.Runs

namespace TsWaffle.ThreadSafeUnorderedMap
open Text Runs
variable {s t : ThreadSafeUnorderedMap} {ps : Promises} {promise : Int → Nat} {id : Int} {key : Str}

-- The three calls that register something.
inductive Registration where
  | plain (key : Str)
  | pending (key : Str) (request_id : Int)
  | cached (request_id : Int) (key value : Str)
  deriving DecidableEq

variable {seen calls : List Registration} {c : Registration}

-- Each request id has its promise.
def register (promise : Int → Nat) (s : ThreadSafeUnorderedMap) : Registration → Except Fault ThreadSafeUnorderedMap
  | .plain key => .ok (s.insertIfNotPresent key).2
  | .pending key request_id => .ok (s.insertIfNotPresentGet key (promise request_id) request_id).2
  | .cached request_id key value => s.insert_cache request_id key value (promise request_id)

-- The key a call asks for under a request id, and the value it gives for a key.
def Registration.asks (id : Int) : Registration → Option Str
  | .plain _ => none
  | .pending key request_id => if request_id = id then some key else none
  | .cached request_id key _ => if request_id = id then some key else none

def Registration.gives (k : Str) : Registration → Option Str
  | .cached _ key value => if key = k then some value else none
  | _ => none

-- The keys of a request in the order of their registration.
def asked (calls : List Registration) (id : Int) : List Str := calls.filterMap (Registration.asks id)

def supplied (calls : List Registration) (k : Str) : Option Str := calls.findSome? (Registration.gives k)

-- No key is both given by insert_cache and registered as pending.
def Separate (calls : List Registration) : Prop :=
  ∀ k id, .pending k id ∈ calls → ∀ other v, .cached other k v ∉ calls

-- What the calls so far have left, in terms of the calls.
structure Recorded (promise : Int → Nat) (ps : Promises) (seen : List Registration) (s : ThreadSafeUnorderedMap) :
    Prop where
  registered : Registered s ps
  row : ∀ id, s.request_map.find? id = if asked seen id = [] then none else some (asked seen id,some (promise id))
  cached : ∀ k, s.get_cache.find? k = supplied seen k
  waiting : ∀ k ∈ s.get_map, ∃ id, .pending k id ∈ seen

theorem empty_recorded (promise : Int → Nat) (ps : Promises) : Recorded promise ps [] empty := by
  refine ⟨empty_registered ps,?_,?_,?_⟩
  · intro id; rfl
  · intro k; rfl
  · intro k member; simp [empty] at member

theorem Recorded.keysOf_eq (state : Recorded promise ps seen s) (id : Int) : s.keysOf id = asked seen id := by
  rw [keysOf,state.row id]
  split
  · rename_i none
    rw [none]
    rfl
  · rfl

theorem Recorded.owns (state : Recorded promise ps seen s) (distinct : Function.Injective promise)
    (unset : promise id ∉ ps) : Owns s ps id (promise id) := by
  refine ⟨unset,?_,?_⟩
  · intro ks op row
    rw [state.row id] at row
    split at row
    · cases row
    · cases row
      rfl
  · intro other ks row
    rw [state.row other] at row
    split at row
    · cases row
    · obtain ⟨_,same⟩ := Prod.mk.inj (Option.some.inj row)
      exact distinct (Option.some.inj same)

theorem supplied_mem (found : supplied calls k = some v) : ∃ id, .cached id k v ∈ calls := by
  obtain ⟨c,member,given⟩ := List.exists_of_findSome?_eq_some found
  cases c with
  | plain key => cases given
  | pending key id => cases given
  | cached id key value =>
    simp only [Registration.gives] at given
    split at given
    · rename_i same
      cases given
      exact ⟨id,same ▸ member⟩
    · cases given

-- The row of a request after one more of its keys.
theorem Recorded.row_appended (state : Recorded promise ps seen s) (grown : Appended s t id key (promise id))
    (asks : ∀ a, c.asks a = if id = a then some key else none) (a : Int) :
    t.request_map.find? a =
      if asked (seen ++ [c]) a = [] then none else some (asked (seen ++ [c]) a,some (promise a)) := by
  have keys : asked (seen ++ [c]) a = asked seen a ++ (if id = a then [key] else []) := by
    simp only [asked,List.filterMap_append]
    by_cases same : id = a <;> simp [asks,same]
  rw [grown a,keys]
  by_cases same : a = id
  · subst same
    simp [state.keysOf_eq]
  · have other : ¬ id = a := fun equal => same equal.symm
    simp only [same,other,if_false,List.append_nil]
    exact state.row a

theorem plain_recorded (state : Recorded promise ps seen s) (key : Str) :
    Recorded promise ps (seen ++ [.plain key]) (s.insertIfNotPresent key).2 := by
  have same : ∀ id, asked (seen ++ [.plain key]) id = asked seen id := by
    intro id
    simp [asked,List.filterMap_append,Registration.asks]
  refine ⟨⟨state.registered.rows,state.registered.owners,state.registered.waiting,state.registered.cached⟩,?_,?_,?_⟩
  · intro id
    rw [same]
    exact state.row id
  · intro k
    simpa [supplied,List.findSome?_append,Registration.gives,insertIfNotPresent] using state.cached k
  · intro k member
    obtain ⟨id,listed⟩ := state.waiting k member
    exact ⟨id,List.mem_append_left _ listed⟩

theorem pending_recorded (state : Recorded promise ps seen s) (distinct : Function.Injective promise)
    (separate : Separate (seen ++ [.pending key id])) (unset : promise id ∉ ps) :
    Recorded promise ps (seen ++ [.pending key id]) (s.insertIfNotPresentGet key (promise id) id).2 := by
  have uncached : key ∉ s.get_cache := by
    intro member
    obtain ⟨v,found⟩ := Table.mem_iff.mp member
    rw [state.cached] at found
    obtain ⟨other,listed⟩ := supplied_mem found
    exact separate key id (by simp) other v (List.mem_append_left _ listed)
  obtain ⟨registered,grown⟩ :=
    insertIfNotPresentGet_registered state.registered (state.owns distinct unset) uncached
  refine ⟨registered,state.row_appended grown (fun _ => rfl),?_,?_⟩
  · intro k
    simpa [supplied,List.findSome?_append,Registration.gives,insertIfNotPresentGet] using state.cached k
  · intro k member
    simp only [insertIfNotPresentGet,Table.mem_insert] at member
    rcases member with rfl | old
    · exact ⟨id,by simp⟩
    · obtain ⟨other,listed⟩ := state.waiting k old
      exact ⟨other,List.mem_append_left _ listed⟩

theorem cached_recorded (state : Recorded promise ps seen s) (distinct : Function.Injective promise)
    (separate : Separate (seen ++ [.cached id key value])) (unset : promise id ∉ ps)
    (ran : s.insert_cache id key value (promise id) = .ok t) :
    Recorded promise ps (seen ++ [.cached id key value]) t := by
  have agrees : ∀ v, s.get_cache.find? key = some v → v = value := by
    intro v found
    by_contra differs
    simp [insert_cache,found,differs] at ran
  have unwaited : key ∉ s.get_map := by
    intro member
    obtain ⟨other,listed⟩ := state.waiting key member
    exact separate key other (List.mem_append_left _ listed) id value (by simp)
  obtain ⟨u,other,registered,grown,_,waiting,cache⟩ :=
    insert_cache_registered state.registered (state.owns distinct unset) unwaited agrees
  rw [ran] at other
  cases other
  refine ⟨registered,state.row_appended grown (fun _ => rfl),?_,?_⟩
  · intro k
    rw [cache,Table.find_insert]
    simp only [supplied,List.findSome?_append,List.findSome?_cons,List.findSome?_nil,Registration.gives]
    have before := state.cached k
    simp only [supplied] at before
    by_cases same : k = key
    · subst same
      rw [if_pos rfl,if_pos rfl,← before]
      cases found : s.get_cache.find? k with
      | none => rfl
      | some v => rw [agrees v found]; rfl
    · rw [if_neg same,if_neg (fun equal => same equal.symm),before]
      simp
  · intro k member
    rw [waiting] at member
    obtain ⟨other,listed⟩ := state.waiting k member
    exact ⟨other,List.mem_append_left _ listed⟩

theorem register_recorded (distinct : Function.Injective promise) (c : Registration)
    (state : Recorded promise ps seen s) (separate : Separate (seen ++ [c]))
    (unset : ∀ id, asked (seen ++ [c]) id ≠ [] → promise id ∉ ps) (ran : register promise s c = .ok t) :
    Recorded promise ps (seen ++ [c]) t := by
  cases c with
  | plain key =>
    cases ran
    exact plain_recorded state key
  | pending key id =>
    cases ran
    exact pending_recorded state distinct separate (unset id (by simp [asked,Registration.asks]))
  | cached id key value =>
    exact cached_recorded state distinct separate (unset id (by simp [asked,Registration.asks])) ran

theorem Separate.left (separate : Separate (seen ++ calls)) : Separate seen := by
  intro k id pending other v cached
  exact separate k id (List.mem_append_left _ pending) other v (List.mem_append_left _ cached)

-- Along the calls, from what has been seen to the rest.
theorem run_recorded (distinct : Function.Injective promise) (calls : List Registration)
    (state : Recorded promise ps seen s) (separate : Separate (seen ++ calls))
    (unset : ∀ id, asked (seen ++ calls) id ≠ [] → promise id ∉ ps) (ran : run (register promise) s calls = .ok t) :
    Recorded promise ps (seen ++ calls) t := by
  induction calls generalizing seen s with
  | nil =>
    cases ran
    simpa using state
  | cons c rest ih =>
    have shape : seen ++ c :: rest = (seen ++ [c]) ++ rest := by simp
    rw [shape] at separate unset ⊢
    obtain ⟨next,stepped,tail⟩ := run_uncons ran
    have recorded := register_recorded distinct c state separate.left
      (fun id some_ => unset id (by
        intro none
        rw [asked,List.filterMap_append] at none
        exact some_ (List.append_eq_nil_iff.mp none).1)) stepped
    exact ih recorded separate unset tail

-- The aggregate a request is to be answered with: its keys in their order, each
-- with the value given by insert_cache or with the one delivered.
def aggregate (calls : List Registration) (value : Str → Str) (id : Int) : Answer :=
  .sum ((asked calls id).map (fun k => (k,(supplied calls k).getD (value k))))

-- Whatever was registered, the sweep and then the deliveries, in any order that
-- covers what is left, return; set_value refuses a promise that is set, so each
-- promise, unset before, has been set once.
theorem delivery_order_irrelevant (distinct : Function.Injective promise) (calls : List Registration)
    (separate : Separate calls) (unset : ∀ id, asked calls id ≠ [] → promise id ∉ ps)
    (ran : run (register promise) empty calls = .ok s) (walk : List Int → List Int)
    (walked : ∀ ids, (walk ids).Perm ids) :
    ∃ m qs, s.tryClearAllPromises ps walk = .ok (m,qs) ∧
      ∀ (value : Str → Str) (keys : List Str), keys.Nodup → (∀ k ∈ m.get_map, k ∈ keys) → (∀ k ∈ m.m_map_, k ∈ keys) →
        ∃ rs, m.deliver qs value keys = .ok (empty,rs) ∧
          (∀ id, asked calls id ≠ [] → rs.find? (promise id) = some (aggregate calls value id)) ∧
          ∀ p, (∀ id, asked calls id ≠ [] → promise id ≠ p) → rs.find? p = ps.find? p := by
  have state := run_recorded distinct calls (empty_recorded promise ps) separate unset ran
  rw [List.nil_append] at state
  obtain ⟨m,qs,swept,_⟩ := tryClearAllPromises_delivers state.registered (fun _ => []) walk (walked _)
    (s.get_map.keys ++ s.m_map_.keys) (fun k member => List.mem_append_left _ (Table.mem_keys.mpr member))
    (fun k member => List.mem_append_right _ (Table.mem_keys.mpr member))
  obtain ⟨plain,waiting⟩ := tryClearAllPromises_present state.registered walk (walked _) swept
  refine ⟨m,qs,swept,?_⟩
  intro value keys nodup covers others
  obtain ⟨rs,delivered,answers,untouched⟩ := settle state.registered value walk (walked _) keys nodup
    (by rw [← waiting]; exact covers) (by rw [← plain]; exact others) swept m.m_map_ others
  refine ⟨rs,delivered,?_,?_⟩
  · intro id filled
    rw [answers id (asked calls id) (promise id) (by rw [state.row id,if_neg filled])]
    simp only [answer,aggregate,state.cached]
  · intro p foreign
    apply untouched p
    intro id ks row
    rw [state.row id] at row
    split at row
    · cases row
    · rename_i filled
      obtain ⟨_,same⟩ := Prod.mk.inj (Option.some.inj row)
      exact foreign id filled (Option.some.inj same)

-- Two requests that share the pending key a, one of them with the cached key b.
def sampleCalls : List Registration :=
  [.pending (str "a") 1,.cached 1 (str "b") (str "x"),.plain (str "c"),.pending (str "a") 2,.pending (str "d") 2]

theorem sample_delivery_order :
    Separate sampleCalls ∧ ∃ s, run (register Encodable.encode) empty sampleCalls = .ok s ∧
      ∃ m qs, s.tryClearAllPromises ∅ List.reverse = .ok (m,qs) ∧
        ∀ (value : Str → Str) (keys : List Str), keys.Nodup → (∀ k ∈ m.get_map, k ∈ keys) → (∀ k ∈ m.m_map_, k ∈ keys) →
          ∃ rs, m.deliver qs value keys = .ok (empty,rs) ∧
            (∀ id, asked sampleCalls id ≠ [] → rs.find? (Encodable.encode id) = some (aggregate sampleCalls value id)) ∧
            ∀ p, (∀ id : Int, asked sampleCalls id ≠ [] → Encodable.encode id ≠ p) →
              rs.find? p = (∅ : Promises).find? p := by
  have separate : Separate sampleCalls := by
    intro k id pending other v cached
    simp only [sampleCalls,List.mem_cons,Registration.pending.injEq,Registration.cached.injEq,reduceCtorEq,
      List.not_mem_nil,or_false,false_or] at pending cached
    obtain ⟨_,rfl,_⟩ := cached
    rcases pending with ⟨same,_⟩ | ⟨same,_⟩ | ⟨same,_⟩ <;> exact absurd same (by decide)
  exact ⟨separate,_,rfl,delivery_order_irrelevant Encodable.encode_injective sampleCalls separate (by simp) rfl
    List.reverse List.reverse_perm⟩

end TsWaffle.ThreadSafeUnorderedMap
