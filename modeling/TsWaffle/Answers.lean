import TsWaffle.Reference

namespace TsWaffle
open Text Runs Server
variable {cfg : Config} {env : Env} {s t : Server} {pairs : List (Str × Str)} {draws : Draws} {n : Nat} {id : Int}
  {ks : List Str}

theorem retire_request_map (s : Server) (o : Str) :
    (s.retire o).proxy.runningKeys.request_map = s.proxy.runningKeys.request_map := by
  by_cases held : o ∈ s.proxy.cache.held
  · rw [retire_cached held]
  · rw [retire_uncached held]
    rfl

theorem retire_promises (s : Server) (o : Str) : (s.retire o).proxy.promises = s.proxy.promises := by
  by_cases held : o ∈ s.proxy.cache.held
  · rw [retire_cached held]
  · rw [retire_uncached held]

-- A promise that is set stays as it is.
theorem Stepped.promise_kept (stepped : Stepped cfg env s action t) (sound : Sound cfg env s)
    (given : s.proxy.promises.find? n = some answer) : t.proxy.promises.find? n = some answer := by
  have member : n ∈ s.proxy.promises := Table.mem_iff.mpr ⟨answer,given⟩
  cases stepped with
  | get item a b running batch i state => exact given
  | put item ts v u wf oldest safe =>
    have below := sound.building.answered n member
    simp only [record,retire_promises,retire_requests,Table.find_insert]
    rw [if_neg (by omega)]
    exact given
  | close choice _ real fake evicted done =>
    rw [done.others n,given]
    intro id ks row
    obtain ⟨_,⟨p,owned,unset⟩,_⟩ := sound.building.registered.rows id ks _ row
    cases owned
    exact unset member
  | clear p cleared =>
    have frame := cleared.frame
    rw [frame]
    exact given

-- A request stays registered until the batch answers it.
theorem Stepped.row_kept (stepped : Stepped cfg env s action t) (sound : Sound cfg env s)
    (row : s.proxy.runningKeys.request_map.find? id = some (ks,some n)) :
    t.proxy.runningKeys.request_map.find? id = some (ks,some n) ∨
      t.proxy.promises.find? n = some (s.proxy.runningKeys.answer (fun k => (s.last k).getD []) ks) := by
  cases stepped with
  | get item a b running batch i state =>
    have below := sound.building.ids id (Table.mem_iff.mpr ⟨_,row⟩)
    have other : id ≠ (s.asking item a b).request_id := ne_of_lt below
    exact .inl ((state.others id other).trans row)
  | put item ts v u wf oldest safe =>
    refine .inl ?_
    change (s.retire (bucketKey item u)).proxy.runningKeys.request_map.find? id = _
    rw [retire_request_map]
    exact row
  | close choice _ real fake evicted done => exact .inr (done.answers id ks n row)
  | clear p cleared =>
    have frame := cleared.frame
    rw [frame]
    exact .inl row

-- Every request popped so far has its answer or is registered for one.
def Accounted (s : Server) : Prop := ∀ n < s.requests.length, n ∈ s.proxy.promises ∨
  ∃ id ks, s.proxy.runningKeys.request_map.find? id = some (ks,some n)

-- A GET finds at least one bucket.
def Selecting (s : Server) : Action → Prop
  | .serve (.get item a b) => s.selected item a b ≠ []
  | _ => True

instance : ∀ action, Decidable (Selecting s action)
  | .serve (.put _ _ _) => inferInstanceAs (Decidable True)
  | .serve (.get _ _ _) => inferInstanceAs (Decidable (_ ≠ _))
  | .close _ => inferInstanceAs (Decidable True)
  | .clear => inferInstanceAs (Decidable True)

-- A regular step that trips over nothing and is answered by something.
def Careful (cfg : Config) (s : Server) (action : Action) : Prop :=
  Regular cfg s action ∧ Safe s action ∧ Selecting s action

instance (action : Action) : Decidable (Careful cfg s action) := inferInstanceAs (Decidable (_ ∧ _ ∧ _))

theorem Stepped.accounted (stepped : Stepped cfg env s action t) (sound : Sound cfg env s)
    (selecting : Selecting s action) (accounted : Accounted s) : Accounted t := by
  have kept : ∀ n < s.requests.length, n ∈ t.proxy.promises ∨
      ∃ id ks, t.proxy.runningKeys.request_map.find? id = some (ks,some n) := by
    intro n below
    rcases accounted n below with set_ | ⟨id,ks,row⟩
    · obtain ⟨answer,given⟩ := Table.mem_iff.mp set_
      exact .inl (Table.mem_iff.mpr ⟨answer,stepped.promise_kept sound given⟩)
    · rcases stepped.row_kept sound row with still | given
      · exact .inr ⟨id,ks,still⟩
      · exact .inl (Table.mem_iff.mpr ⟨_,given⟩)
  intro n below
  rcases Nat.lt_or_ge n s.requests.length with old | new
  · exact kept n old
  · cases stepped with
    | get item a b running batch i state =>
      have last : n = s.requests.length := by
        have total : n < (s.requests ++ [Request.get item a b]).length := below
        rw [List.length_append,List.length_singleton] at total
        omega
      exact .inr ⟨s.request_id,s.selected item a b,last ▸ state.row selecting⟩
    | put item ts v u wf oldest safe =>
      refine .inl ?_
      simp only [record,retire_requests,List.length_append,List.length_singleton,Table.mem_insert] at below ⊢
      exact .inl (by omega)
    | close choice _ real fake evicted done =>
      rw [done.frame] at below
      exact absurd below (by simpa using new)
    | clear p cleared => exact absurd below (by simpa using new)

theorem careful_layered (cfg : Config) (env : Env) : Layered cfg env (Careful cfg) Accounted := by
  refine ⟨?_,?_⟩
  · intro s action _ _ now
    exact ⟨now.1,now.2.1⟩
  · intro s action t sound accounted now stepped
    exact stepped.accounted sound now.2.2 accounted

-- A PUT on a live key next to a GET.
def overwritingActions : List Action :=
  [.serve (.put (str "a") 3 (str "t")),.serve (.get (str "b") 0 9),.close sampleChoice]

-- A GET that selects no bucket registers nothing, and its promise stays unset.
def missingActions : List Action :=
  [.serve (.get (str "d") 0 9),.serve (.get (str "a") 1 2),.close sampleChoice]

end TsWaffle
