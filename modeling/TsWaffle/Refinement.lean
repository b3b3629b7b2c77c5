import TsWaffle.Answers

namespace TsWaffle
open Text Runs Server
variable {cfg : Config} {env : Env} {s t : Server} {pairs : List (Str × Str)} {draws : Draws} {r : Reference}
  {item : Str} {a b : Int}

-- A GET selects something, and nothing that an earlier PUT has scheduled.
def Readable (s : Server) : Action → Prop
  | .serve (.get item a b) => s.selected item a b ≠ [] ∧ ∀ k ∈ s.selected item a b, k ∉ s.proxy.keys_to_be_deleted
  | _ => True

instance : ∀ action, Decidable (Readable s action)
  | .serve (.put _ _ _) => inferInstanceAs (Decidable True)
  | .serve (.get _ _ _) => inferInstanceAs (Decidable (_ ∧ _))
  | .close _ => inferInstanceAs (Decidable True)
  | .clear => inferInstanceAs (Decidable True)

-- What a request for these keys is to be answered with.
def pairsOf (s : Server) (ks : List Str) : List (Str × Str) := ks.map (fun k => (k,(s.last k).getD []))

theorem Resident.last_live {p : Proxy} {values : Str → Option Str} (valid : Resident cfg env values p)
    (live : k ∈ p.realBst.accessFreqs) : ∃ v, values k = some v := by
  by_cases held : k ∈ p.cache.held
  · obtain ⟨v,cached⟩ := Cache.mem_held.mp held
    exact ⟨v,valid.cached k v cached⟩
  · obtain ⟨f,found⟩ := Table.mem_iff.mp live
    obtain ⟨c,_,value⟩ := valid.stored k f found held
    exact ⟨_,value⟩

-- The buckets the proxy selects are those the plain store selects, although the
-- proxy still sees the scheduled ones.
theorem selected_answer (sound : Sound cfg env s) (agree : Matches s r)
    (some_ : s.selected item a b ≠ []) (free : ∀ k ∈ s.selected item a b, k ∉ s.proxy.keys_to_be_deleted) :
    pairsOf s (s.selected item a b) = r.answer item a b := by
  have index := sound.resident.exact.index
  have sorted := (s.proxy.realBst.timestamps item).sorted
  have same : select ((r.buckets item).sort (· ≤ ·)) a b = select (s.proxy.realBst.timestamps item).toList a b := by
    apply select_without sorted (Finset.sortedLT_sort _).pairwise
    · intro t member
      rw [Finset.mem_sort,agree.buckets] at member
      exact (index item t).mpr ⟨member.1,member.2.1⟩
    · intro t chosen
      obtain ⟨wf,live⟩ := (index item t).mp (select_sub sorted chosen)
      rw [Finset.mem_sort,agree.buckets]
      exact ⟨wf,live,free _ (List.mem_map.mpr ⟨t,chosen,rfl⟩)⟩
    · intro none
      exact some_ (by rw [selected,none]; rfl)
  rw [Reference.answer,same,pairsOf,selected,List.map_map]
  apply List.map_congr_left
  intro t chosen
  obtain ⟨wf,live⟩ := (index item t).mp (select_sub sorted chosen)
  obtain ⟨v,value⟩ := sound.resident.last_live live
  simp only [Function.comp_apply,value,agree.values item t v wf value,Option.getD_some]

-- The n-th request is answered as the plain store would have answered it when it
-- was popped, or is registered for that answer.
def Answering (r : Reference) (s : Server) : Prop :=
  ∀ n item a b, s.requests[n]? = some (.get item a b) →
    s.proxy.promises.find? n = some (.sum ((r.after (s.requests.take n)).answer item a b)) ∨
    ∃ id ks, s.proxy.runningKeys.request_map.find? id = some (ks,some n) ∧
      (∀ k ∈ ks, k ∈ s.writes.map Prod.fst) ∧ pairsOf s ks = (r.after (s.requests.take n)).answer item a b

theorem answer_pairs (known : Known s) (ks : List Str) :
    s.proxy.runningKeys.answer (fun k => (s.last k).getD []) ks = .sum (pairsOf s ks) := by
  unfold ThreadSafeUnorderedMap.answer pairsOf
  congr 1
  apply List.map_congr_left
  intro k _
  cases cached : s.proxy.runningKeys.get_cache.find? k with
  | none => rfl
  | some w => rw [known.current k w cached]; rfl

-- Keys already written keep their values: a PUT brings a new one.
theorem Stepped.writes_kept (stepped : Stepped cfg env s action t) (novel : Novel s action)
    (written : k ∈ s.writes.map Prod.fst) : k ∈ t.writes.map Prod.fst ∧ t.last k = s.last k := by
  cases stepped with
  | get item a b running batch i state =>
    exact ⟨(writes_get s item a b).symm ▸ written,congrFun (last_get s item a b) k⟩
  | put item ts v u wf oldest safe =>
    have differs : k ≠ bucketKey item ts := by
      rintro rfl
      exact novel written
    refine ⟨?_,?_⟩
    · rw [writes_record,List.map_append,List.mem_append]
      exact .inl written
    · rw [last_record,if_neg differs,retire_last]
  | close choice _ real fake evicted done =>
    exact ⟨done.writes_eq ▸ written,congrFun done.last_eq k⟩
  | clear p cleared => exact ⟨written,rfl⟩

theorem Stepped.popped (stepped : Stepped cfg env s action t) : t.requests = s.requests ++ requested [action] := by
  cases stepped with
  | get item a b running batch i state => rfl
  | put item ts v u wf oldest safe =>
    simp only [record,retire_requests]
    rfl
  | close choice _ real fake evicted done =>
    simpa [requested] using done.requests_eq
  | clear p cleared => simp [requested]

theorem Stepped.pairs_kept (stepped : Stepped cfg env s action t) (novel : Novel s action)
    (written : ∀ k ∈ ks, k ∈ s.writes.map Prod.fst) :
    (∀ k ∈ ks, k ∈ t.writes.map Prod.fst) ∧ pairsOf t ks = pairsOf s ks := by
  refine ⟨fun k member => (stepped.writes_kept novel (written k member)).1,?_⟩
  apply List.map_congr_left
  intro k member
  rw [(stepped.writes_kept novel (written k member)).2]

theorem newly_popped {requests : List Request} (new : requests.length ≤ n)
    (asked : (requests ++ requested [action])[n]? = some (.get item a b)) :
    action = .serve (.get item a b) ∧ n = requests.length := by
  rw [List.getElem?_append_right new] at asked
  have below := (List.getElem?_eq_some_iff.mp asked).1
  cases action with
  | serve q =>
    have one : n-requests.length = 0 := by simpa [requested] using below
    rw [one] at asked
    cases asked
    exact ⟨rfl,by omega⟩
  | close choice => simp [requested] at below
  | clear => simp [requested] at below

theorem Stepped.answering (stepped : Stepped cfg env s action t) (sound : Sound cfg env s) (known : Known s)
    (agree : Matches s (r.after s.requests)) (novel : Novel s action) (readable : Readable s action)
    (answering : Answering r s) : Answering r t := by
  have popped := stepped.popped
  intro n item a b asked
  rcases Nat.lt_or_ge n s.requests.length with old | new
  · rw [popped,List.getElem?_append_left old] at asked
    rw [popped,List.take_append_of_le_length (le_of_lt old)]
    rcases answering n item a b asked with given | ⟨id,ks,row,written,value⟩
    · exact .inl (stepped.promise_kept sound given)
    · rcases stepped.row_kept sound row with still | given
      · obtain ⟨later,same⟩ := stepped.pairs_kept novel written
        exact .inr ⟨id,ks,still,later,same.trans value⟩
      · rw [answer_pairs known,value] at given
        exact .inl given
  · rw [popped] at asked
    obtain ⟨rfl,rfl⟩ := newly_popped new asked
    have written : ∀ k ∈ s.selected item a b, k ∈ s.writes.map Prod.fst := by
      intro k member
      obtain ⟨_,_,_,live⟩ := selected_live sound.resident.exact member
      exact known.written k live
    obtain ⟨later,same⟩ := stepped.pairs_kept novel written
    rw [popped,List.take_left',← selected_answer sound agree readable.1 readable.2,← same]
    · cases stepped with
      | get _ _ _ running batch i state =>
        exact .inr ⟨s.request_id,s.selected item a b,state.row readable.1,later,rfl⟩
    · rfl

-- Runs in which neither a PUT nor a GET meets a scheduled bucket.
def Refining (cfg : Config) (s : Server) (action : Action) : Prop := Retaining cfg s action ∧ Readable s action

instance (action : Action) : Decidable (Refining cfg s action) := inferInstanceAs (Decidable (_ ∧ _))

theorem refining_layered (cfg : Config) (env : Env) (r : Reference) :
    Layered cfg env (Refining cfg) (fun s => Tracking r s ∧ Answering r s) := by
  have retaining := retaining_layered cfg env r
  refine ⟨?_,?_⟩
  · intro s action sound both now
    exact retaining.allowed s action sound both.1 now.1
  · intro s action t sound both now stepped
    exact ⟨retaining.kept s action t sound both.1 now.1 stepped,
      stepped.answering sound both.1.known both.1.agree now.1.1.2 now.2 both.2⟩

-- A GET behind a PUT of the same batch still reads the bucket the PUT has retired.
def lateActions : List Action :=
  [.serve (.put (str "a") 4 (str "t")),.serve (.get (str "a") 1 2),.close sampleChoice]

end TsWaffle
