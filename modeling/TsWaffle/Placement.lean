import TsWaffle.Ledger

namespace TsWaffle
open Text Runs Server
variable {cfg : Config} {env : Env} {s : Server} {p : Proxy} {pairs : List (Str × Str)} {draws : Draws} {k v : Str}
  {values : Str → Option Str}

-- A key with its value in the cache and not under its label, or the other way round.
def Placed (env : Env) (p : Proxy) (k v : Str) (f : Int) : Prop :=
  ((k,v) ∈ p.cache.entries ∧ env.label k f ∉ p.storage) ∨
    (k ∉ p.cache.held ∧ ∃ c, p.storage.find? (env.label k f) = some c ∧ env.decryptNonDeterministic c = v)

theorem Ledger.exclusive (ledger : Ledger env p) (found : p.realBst.accessFreqs.find? k = some f)
    (held : k ∈ p.cache.held) : env.label k f ∉ p.storage := by
  intro stored
  exact lt_irrefl f (((ledger.bounded k f (ledger.backed _ stored)).2.1 f found).2 held)

theorem placed_last (valid : Resident cfg env values p) (ledger : Ledger env p)
    (found : p.realBst.accessFreqs.find? k = some f) : ∃ v, values k = some v ∧ Placed env p k v f := by
  by_cases held : k ∈ p.cache.held
  · obtain ⟨v,cached⟩ := Cache.mem_held.mp held
    exact ⟨v,valid.cached k v cached,.inl ⟨cached,ledger.exclusive found held⟩⟩
  · obtain ⟨c,stored,value⟩ := valid.stored k f found held
    exact ⟨_,value,.inr ⟨held,c,stored,rfl⟩⟩

-- What holds between two batches.
structure SingleResidence (env : Env) (s : Server) : Prop where
  place : ∀ k f, s.proxy.realBst.accessFreqs.find? k = some f → ∃ v, s.last k = some v ∧ Placed env s.proxy k v f
  live : ∀ k ∈ s.proxy.cache.held, k ∈ s.proxy.realBst.accessFreqs
  tree : ∀ e, e ∈ s.proxy.realBst.accessTree ↔ s.proxy.realBst.accessFreqs.find? e.key = some e.freq
  items : s.proxy.EvictedItems = ∅
  unscheduled : s.proxy.keys_to_be_deleted = []
  idle : s.proxy.runningKeys = .empty

end TsWaffle
