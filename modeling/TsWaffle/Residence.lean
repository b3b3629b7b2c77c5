import TsWaffle.Consumer
import TsWaffle.Reading
import TsWaffle.Settlement

namespace TsWaffle
open Text

-- The labels of all calls of one kind, in the order they were passed.
def logged (op : StorageOp) (calls : List StorageCall) : List Str :=
  (calls.filter (fun c => c.op = op)).flatMap StorageCall.labels

theorem logged_append (op : StorageOp) (one two : List StorageCall) :
    logged op (one ++ two) = logged op one ++ logged op two := by
  simp [logged]

theorem logged_other (other : ∀ c ∈ calls, c.op ≠ op) : logged op calls = [] := by
  rw [logged,List.filter_eq_nil_iff.mpr]
  · rfl
  · intro c member
    simpa using other c member

-- Where every value is, in terms of what was last written for each key. A label
-- waiting for deletion has been read, and a read label is behind the frequency
-- its key has now.
structure Resident (cfg : Config) (env : Env) (last : Str → Option Str) (s : Proxy) : Prop where
  exact : s.realBst.Exact
  age : ∀ k f, s.realBst.accessFreqs.find? k = some f → f ≤ s.timeStamp
  live : ∀ k ∈ s.cache.held, k ∈ s.realBst.accessFreqs
  cached : ∀ k v, (k,v) ∈ s.cache.entries → last k = some v
  stored : ∀ k f, s.realBst.accessFreqs.find? k = some f → k ∉ s.cache.held →
    ∃ c, s.storage.find? (env.label k f) = some c ∧ last k = some (env.decryptNonDeterministic c)
  items : s.EvictedItems = ∅
  fakeTree : s.fakeBst.TreeExact
  fakeNames : ∀ k ∈ s.fakeBst.accessFreqs, chr '@' ∉ k
  fakeAge : ∀ k f, s.fakeBst.accessFreqs.find? k = some f → f ≤ s.timeStamp
  fakeStored : ∀ k f, s.fakeBst.accessFreqs.find? k = some f → env.label k f ∈ s.storage
  fakeCount : ∃ names : List Str, names.Nodup ∧ cfg.D ≤ names.length ∧ ∀ k ∈ names, k ∈ s.fakeBst.accessFreqs
  queue : ∀ row ∈ s.keysNotUsed, ∀ l ∈ row, l ∈ logged .get_batch s.calls
  reads : ∀ k g, env.label k g ∈ logged .get_batch s.calls → g < s.timeStamp ∧
    (∀ f, s.realBst.accessFreqs.find? k = some f → g < f) ∧ ∀ f, s.fakeBst.accessFreqs.find? k = some f → g < f

-- The batch under construction: its keys are the running ones, and none of them
-- is cached. bound is above every request id given out.
structure Building (bound : Int) (s : Server) : Prop where
  distinct : s.storage_batch.Nodup
  absent : ∀ k ∈ s.storage_batch, k ∈ s.proxy.realBst.accessFreqs ∧ k ∉ s.proxy.cache.held
  running : ∀ k, s.proxy.runningKeys.present k = true ↔ k ∈ s.storage_batch
  scheduled : ∀ k ∈ s.proxy.keys_to_be_deleted, k ∈ s.storage_batch
  registered : s.proxy.runningKeys.Registered s.proxy.promises
  ids : ∀ id ∈ s.proxy.runningKeys.request_map, id < bound
  owners : ∀ id ks p, s.proxy.runningKeys.request_map.find? id = some (ks,some p) → p < s.requests.length
  answered : ∀ p ∈ s.proxy.promises, p < s.requests.length
  supplied : ∀ k ∈ s.proxy.runningKeys.get_cache, k ∈ s.proxy.cache.held ∨ k ∉ s.proxy.realBst.accessFreqs

-- One entry more than there are scheduled keys.
def Roomy (s : Proxy) : Prop := s.keys_to_be_deleted.dedup.length < s.cache.entries.length

structure Sound (cfg : Config) (env : Env) (s : Server) : Prop where
  resident : Resident cfg env s.last s.proxy
  building : Building s.request_id s
  roomy : Roomy s.proxy

namespace Resident
variable {cfg : Config} {env : Env} {last : Str → Option Str} {s : Proxy}

theorem real_at (valid : Resident cfg env last s) (live : k ∈ s.realBst.accessFreqs) : chr '@' ∈ k := by
  obtain ⟨item,ts,_,rfl⟩ := valid.exact.named k live
  simp [bucketKey]

theorem real_ne_fake (valid : Resident cfg env last s) (live : k ∈ s.realBst.accessFreqs) :
    k ∉ s.fakeBst.accessFreqs := by
  intro fake
  exact valid.fakeNames k fake (valid.real_at live)

-- Deleting what the queue names leaves the labels in use alone.
theorem unqueued (valid : Resident cfg env last s)
    (current : s.realBst.accessFreqs.find? k = some f ∨ s.fakeBst.accessFreqs.find? k = some f) :
    ∀ row ∈ s.keysNotUsed, env.label k f ∉ row := by
  intro row member listed
  obtain ⟨_,real,fake⟩ := valid.reads k f (valid.queue row member _ listed)
  rcases current with found | found
  · exact lt_irrefl f (real f found)
  · exact lt_irrefl f (fake f found)

end Resident

-- A key goes into the batch unless it is running already.
theorem mem_enqueued {running : ThreadSafeUnorderedMap} {batch : List Str}
    (same : running.present key = true ↔ key ∈ batch) (k : Str) :
    k ∈ (if running.present key then batch else batch ++ [key]) ↔ k = key ∨ k ∈ batch := by
  split
  · rename_i already
    constructor
    · exact .inr
    · rintro (rfl | old)
      · exact same.mp already
      · exact old
  · simp [or_comm]

theorem enqueued_nodup {running : ThreadSafeUnorderedMap} {batch : List Str}
    (same : running.present key = true ↔ key ∈ batch) (distinct : batch.Nodup) :
    (if running.present key then batch else batch ++ [key]).Nodup := by
  split
  · exact distinct
  · rename_i fresh
    rw [← List.concat_eq_append]
    exact List.Nodup.concat (fun member => fresh (same.mpr member)) distinct

theorem Server.lastIn_append (key : Str) (one two : List (Str × Str)) :
    lastIn key (one ++ two) = (lastIn key two).or (lastIn key one) := by
  induction one with
  | nil => simp [lastIn]
  | cons row rest ih => simp [lastIn,ih,Option.or_assoc]

end TsWaffle
