import TsWaffle.Consuming

namespace TsWaffle
open Text Runs Server
variable {cfg : Config} {env : Env} {s t : Server} {pairs : List (Str × Str)} {draws : Draws}

-- A PUT whose key has never been stored before.
def Novel (s : Server) : Action → Prop
  | .serve (.put item ts _) => bucketKey item ts ∉ s.writes.map Prod.fst
  | _ => True

instance : ∀ action, Decidable (Novel s action)
  | .serve (.put _ _ _) => inferInstanceAs (Decidable (_ ∉ _))
  | .serve (.get _ _ _) => inferInstanceAs (Decidable True)
  | .close _ => inferInstanceAs (Decidable True)
  | .clear => inferInstanceAs (Decidable True)

-- The steps of a run in which every PUT brings a new key.
def Growing (cfg : Config) (s : Server) (action : Action) : Prop := Regular cfg s action ∧ Novel s action

instance (action : Action) : Decidable (Growing cfg s action) := inferInstanceAs (Decidable (_ ∧ _))

-- Every live key has been written, and what the batch has taken from the cache is
-- what was last written.
structure Known (s : Server) : Prop where
  written : ∀ k ∈ s.proxy.realBst.accessFreqs, k ∈ s.writes.map Prod.fst
  current : ∀ k w, s.proxy.runningKeys.get_cache.find? k = some w → s.last k = some w

theorem lastIn_mem (pairs : List (Str × Str)) (found : lastIn k pairs = some v) : k ∈ pairs.map Prod.fst := by
  induction pairs with
  | nil => cases found
  | cons row rest ih =>
    rw [lastIn] at found
    by_cases same : row.1 = k
    · simp [same]
    · rw [if_neg same,Option.or_none] at found
      exact List.mem_cons_of_mem _ (ih found)

theorem writes_get (s : Server) (item : Str) (a b : Int) : (s.asking item a b).writes = s.writes := by
  have none : [Request.get item a b].filterMap Request.written = [] := rfl
  simp only [writes,asking,List.filterMap_append,none,List.append_nil]

theorem writes_record (s : Server) (o item : Str) (ts : Int) (v : Str) :
    ((s.retire o).record item ts v).writes = s.writes ++ [(bucketKey item ts,v)] := by
  have one : [Request.put item ts v].filterMap Request.written = [(bucketKey item ts,v)] := rfl
  simp only [writes,record,retire_requests,retire_loaded,List.filterMap_append,one,List.append_assoc]

theorem retire_live (s : Server) (o k : Str) (live : k ∈ (s.retire o).proxy.realBst.accessFreqs) :
    k ∈ s.proxy.realBst.accessFreqs := by
  by_cases held : o ∈ s.proxy.cache.held
  · rw [retire_cached held] at live
    exact ((FrequencySmoother.removeKey_live _ _ _).mp live).2
  · rw [retire_uncached held] at live
    exact live

theorem retire_get_cache (s : Server) (o : Str) :
    (s.retire o).proxy.runningKeys.get_cache = s.proxy.runningKeys.get_cache := by
  by_cases held : o ∈ s.proxy.cache.held
  · rw [retire_cached held]
  · rw [retire_uncached held]
    rfl

theorem Initial.known (start : Initial cfg env pairs s) : Known s := by
  refine ⟨?_,?_⟩
  · intro k live
    simp only [writes,start.loaded,List.map_append,List.mem_append]
    exact .inl (start.live.mp live)
  · intro k w found
    simp [start.idle,ThreadSafeUnorderedMap.empty] at found

theorem Known.put (known : Known s) (o v : Str) (new : bucketKey item ts ∉ s.writes.map Prod.fst) :
    Known ((s.retire o).record item ts v) := by
  refine ⟨?_,?_⟩
  · intro k live
    rw [writes_record,List.map_append,List.mem_append]
    rcases (store_live _ _ _ _).mp live with same | old
    · exact .inr (by simp [same])
    · exact .inl (known.written k (retire_live s _ k old))
  · intro k w found
    change (s.retire o).proxy.runningKeys.get_cache.find? k = some w at found
    rw [retire_get_cache] at found
    have value := known.current k w found
    have differs : k ≠ bucketKey item ts := by
      intro same
      exact new (lastIn_mem _ (same ▸ value))
    rw [last_record,if_neg differs,retire_last]
    exact value

-- A batch removes keys and settles every request.
theorem Known.executed (known : Known s) (done : Executed cfg env s t real fake evicted) : Known t := by
  refine ⟨?_,?_⟩
  · intro k live
    rw [done.writes_eq]
    exact known.written k (done.live_iff.mp live).2
  · intro k w found
    simp [done.settled,ThreadSafeUnorderedMap.empty] at found

theorem Known.cleared (known : Known s) (cleared : Cleared s.proxy p) : Known {s with proxy:=p} := by
  have frame := cleared.frame
  refine ⟨?_,?_⟩
  · intro k live
    rw [frame] at live
    exact known.written k live
  · intro k w found
    rw [frame] at found
    exact known.current k w found

theorem growing_layered (cfg : Config) (env : Env) : Layered cfg env (Growing cfg) Known := by
  refine ⟨?_,?_⟩
  · intro s action sound known now
    refine ⟨now.1,?_⟩
    cases action with
    | serve r =>
      cases r with
      | put item ts v =>
        intro u first
        have oldest := FrequencySmoother.mem_oldest.mp first
        have dead : bucketKey item ts ∉ s.proxy.realBst.accessFreqs := fun live => now.2 (known.written _ live)
        exact PutSafe.fresh sound.building dead ((sound.resident.exact.index item u).mp oldest.1).2 sound.resident
      | get item a b =>
        intro k _ v w cached found
        have one := sound.resident.cached k v cached
        rw [known.current k w found] at one
        exact Option.some.inj one
    | close choice => trivial
    | clear => trivial
  · intro s action t sound known now stepped
    cases stepped with
    | get item a b running batch i state =>
      refine ⟨?_,?_⟩
      · intro k live
        exact (writes_get s item a b).symm ▸ known.written k live
      · intro k w found
        change (s.asking item a b).last k = some w
        rw [last_get]
        rcases state.supply k w found with old | cached
        · exact known.current k w old
        · exact sound.resident.cached k w cached
    | put item ts v u wf oldest safe => exact known.put _ v now.2
    | close choice _ real fake evicted done => exact known.executed done
    | clear p cleared => exact known.cleared cleared

end TsWaffle
