import TsWaffle.Residence
import TsWaffle.Selection

namespace TsWaffle
open Text
variable {cfg : Config} {env : Env} {last : Str → Option Str} {start : Server} {running after : ThreadSafeUnorderedMap}
  {asked batch : List Str} {key v item : Str} {promise i : Nat} {s : Server}

-- What get_split_keys reads before it looks anything up.
def range_parts (get_key : Str) : Except Fault (Str × Int × Int) := do
  let parts := getlines (chr '@') [] get_key
  let key_name ← part parts 0
  let second ← part parts 1
  let start_timestamp ← stol second
  let third ← part parts 2
  let end_timestamp ← stol third
  return (key_name,start_timestamp,end_timestamp)

theorem get_split_keys_parts (bst : FrequencySmoother) (get_key : Str) :
    get_split_keys bst get_key = (do
      let (key_name,start_timestamp,end_timestamp) ← range_parts get_key
      return ((select (bst.timestamps key_name).toList start_timestamp end_timestamp).map (bucketKey key_name),
        (bst.get_timestamp_for_key key_name).2)) := by
  simp only [get_split_keys,range_parts,bind_assoc,pure_bind,FrequencySmoother.get_timestamp_for_key_value]

theorem range_parts_get (free : chr '@' ∉ item) (fitsStart : Fits64 a) (fitsEnd : Fits64 b) :
    range_parts (Request.get item a b).operation.key = .ok (item,a,b) := by
  have parts : getlines (chr '@') [] (Request.get item a b).operation.key = [item,to_string a,to_string b] := by
    simp only [Request.operation]
    rw [getlines_segment _ _ _ _ free,getlines_segment _ _ _ _ (at_notMem a),
      getlines_last _ _ _ (at_notMem b) (.inr (to_string_ne_nil b))]
    rfl
  simp only [range_parts,parts,part,List.getElem?_cons_zero,List.getElem?_cons_succ,stol_to_string fitsStart,
    stol_to_string fitsEnd,bind,Except.bind,pure,Except.pure]

theorem get_split_keys_get (bst : FrequencySmoother) (free : chr '@' ∉ item) (fitsStart : Fits64 a) (fitsEnd : Fits64 b) :
    get_split_keys bst (Request.get item a b).operation.key =
      .ok ((select (bst.timestamps item).toList a b).map (bucketKey item),(bst.get_timestamp_for_key item).2) := by
  rw [get_split_keys_parts,range_parts_get free fitsStart fitsEnd]
  rfl

def Server.registering (start : Server) (running : ThreadSafeUnorderedMap) (batch : List Str) (i : Nat) : Server :=
  {start with proxy:={start.proxy with runningKeys:=running},storage_batch:=batch,i:=i}

-- What one GET has registered so far: its row holds the buckets asked for, in
-- order, and each cached one has its value in get_cache.
structure Requesting (start : Server) (promise : Nat) (asked : List Str) (running : ThreadSafeUnorderedMap)
    (batch : List Str) (i : Nat) : Prop where
  building : Building (start.request_id+1) (start.registering running batch i)
  owns : running.Owns start.proxy.promises start.request_id promise
  keys : running.keysOf start.request_id = asked
  others : ∀ id, id ≠ start.request_id → running.request_map.find? id = start.proxy.runningKeys.request_map.find? id
  row : asked ≠ [] → running.request_map.find? start.request_id = some (asked,some promise)
  supply : ∀ k v, running.get_cache.find? k = some v →
    start.proxy.runningKeys.get_cache.find? k = some v ∨ (k,v) ∈ start.proxy.cache.entries

-- get_cache never holds a value for a cached key that the cache does not hold.
def Agreeing (s : Proxy) (key : Str) : Prop :=
  ∀ v w, (key,v) ∈ s.cache.entries → s.runningKeys.get_cache.find? key = some w → w = v

theorem requestKey_cached {s : Proxy} (valid : Resident cfg env last s) (present : (key,v) ∈ s.cache.entries)
    (registered : s.runningKeys.insert_cache request_id key v promise = .ok running) (batch : List Str) :
    s.create_security_batch batch ⟨key,[]⟩ promise request_id = .ok ({s with runningKeys:=running},batch) := by
  have live : s.realBst.checkIfUniqueItemWithTimeStampExists key = true := by
    simpa [FrequencySmoother.checkIfUniqueItemWithTimeStampExists] using
      valid.live key (Cache.mem_held.mpr ⟨v,present⟩)
  simp [Proxy.create_security_batch,Proxy.requestKey,live,(Cache.get_present present).1,registered]

theorem requestKey_uncached {s : Proxy} (valid : Resident cfg env last s) (live : key ∈ s.realBst.accessFreqs)
    (absent : key ∉ s.cache.held) (batch : List Str) (promise : Nat) (request_id : Int) :
    s.create_security_batch batch ⟨key,[]⟩ promise request_id =
      .ok ({s with runningKeys:=(s.runningKeys.insertIfNotPresentGet key promise request_id).2},
        if s.runningKeys.present key then batch else batch ++ [key]) := by
  have here : s.realBst.checkIfUniqueItemWithTimeStampExists key = true := by
    simpa [FrequencySmoother.checkIfUniqueItemWithTimeStampExists] using live
  have unevicted : evictedValue s.EvictedItems key = [] := by simp [evictedValue,valid.items]
  simp [Proxy.create_security_batch,Proxy.requestKey,here,Cache.get_absent absent,unevicted]
  rfl

theorem Resident.with_running {s : Proxy} (valid : Resident cfg env last s) (running : ThreadSafeUnorderedMap) :
    Resident cfg env last {s with runningKeys:=running} := by
  cases valid
  constructor <;> assumption

theorem Building.appended (valid : Building (start.request_id+1) (start.registering running batch i))
    (grown : ThreadSafeUnorderedMap.Appended running after start.request_id key promise) (below : promise < start.requests.length) :
    (∀ id ∈ after.request_map, id < start.request_id+1) ∧
      ∀ id ks p, after.request_map.find? id = some (ks,some p) → p < start.requests.length := by
  refine ⟨?_,?_⟩
  · intro id member
    obtain ⟨row,found⟩ := Table.mem_iff.mp member
    rw [grown id] at found
    by_cases same : id = start.request_id
    · omega
    · rw [if_neg same] at found
      exact valid.ids id (Table.mem_iff.mpr ⟨row,found⟩)
  · intro id ks p found
    rw [grown id] at found
    by_cases same : id = start.request_id
    · rw [if_pos same] at found
      cases found
      exact below
    · rw [if_neg same] at found
      exact valid.owners id ks p found

theorem request_cached (state : Requesting start promise asked running batch i) (below : promise < start.requests.length)
    (present : (key,v) ∈ start.proxy.cache.entries) (agrees : Agreeing start.proxy key) :
    ∃ after, running.insert_cache start.request_id key v promise = .ok after ∧
      Requesting start promise (asked ++ [key]) after batch (i+1) := by
  have held : key ∈ start.proxy.cache.held := Cache.mem_held.mpr ⟨v,present⟩
  have unwaited : key ∉ running.get_map := by
    intro waited
    have member := (state.building.running key).mp ((running.present_iff key).mpr (.inr waited))
    exact (state.building.absent key member).2 held
  have before : running.Registered start.proxy.promises := state.building.registered
  obtain ⟨after,ran,registered,grown,plain,waiting,cache⟩ :=
    ThreadSafeUnorderedMap.insert_cache_registered before state.owns unwaited (by
      intro w found
      rcases state.supply key w found with old | cached
      · exact agrees v w present old
      · exact Cache.entry_unique cached present)
  obtain ⟨ids,owners⟩ := state.building.appended grown below
  refine ⟨after,ran,⟨state.building.distinct,state.building.absent,?_,state.building.scheduled,registered,ids,owners,
    state.building.answered,?_⟩,grown.owns state.owns,?_,?_,?_,?_⟩
  · intro k
    have same : after.present k = running.present k := by simp [ThreadSafeUnorderedMap.present,plain,waiting]
    exact (iff_of_eq (congrArg (· = true) same)).trans (state.building.running k)
  · intro k member
    simp only [Server.registering,cache,Table.mem_insert] at member
    rcases member with rfl | old
    · exact .inl held
    · exact state.building.supplied k old
  · simp [ThreadSafeUnorderedMap.keysOf,grown start.request_id,← state.keys]
  · intro id other
    rw [grown id,if_neg other]
    exact state.others id other
  · intro _
    rw [grown start.request_id,if_pos rfl,state.keys]
  · intro k w found
    rw [cache,Table.find_insert] at found
    by_cases same : k = key
    · rw [if_pos same] at found
      cases found
      exact .inr (same ▸ present)
    · rw [if_neg same] at found
      exact state.supply k w found

theorem request_uncached (state : Requesting start promise asked running batch i)
    (below : promise < start.requests.length) (live : key ∈ start.proxy.realBst.accessFreqs)
    (absent : key ∉ start.proxy.cache.held) :
    Requesting start promise (asked ++ [key]) (running.insertIfNotPresentGet key promise start.request_id).2
      (if running.present key then batch else batch ++ [key]) (i+1) := by
  have unsupplied : key ∉ running.get_cache := by
    intro member
    exact (state.building.supplied key member).elim absent (fun dead => dead live)
  have before : running.Registered start.proxy.promises := state.building.registered
  obtain ⟨registered,grown⟩ :=
    ThreadSafeUnorderedMap.insertIfNotPresentGet_registered before state.owns unsupplied
  obtain ⟨ids,owners⟩ := state.building.appended grown below
  have same : running.present key = true ↔ key ∈ batch := state.building.running key
  have member := mem_enqueued same
  have present : ∀ k, (running.insertIfNotPresentGet key promise start.request_id).2.present k = true ↔
      k = key ∨ running.present k = true := by
    intro k
    simp only [ThreadSafeUnorderedMap.present_iff,ThreadSafeUnorderedMap.insertIfNotPresentGet,Table.mem_insert]
    tauto
  refine ⟨⟨?_,?_,?_,?_,registered,ids,owners,state.building.answered,state.building.supplied⟩,
    grown.owns state.owns,?_,?_,?_,state.supply⟩
  · exact enqueued_nodup same state.building.distinct
  · intro k listed
    rcases (member k).mp listed with rfl | old
    · exact ⟨live,absent⟩
    · exact state.building.absent k old
  · intro k
    exact (present k).trans ((or_congr_right (state.building.running k)).trans (member k).symm)
  · intro k doomed
    exact (member k).mpr (.inr (state.building.scheduled k doomed))
  · simp [ThreadSafeUnorderedMap.keysOf,grown start.request_id,← state.keys]
  · intro id other
    rw [grown id,if_neg other]
    exact state.others id other
  · intro _
    rw [grown start.request_id,if_pos rfl,state.keys]

theorem requestKeys_spec (valid : Resident cfg env last start.proxy) (below : promise < start.requests.length)
    (keys : List Str) (live : ∀ k ∈ keys, k ∈ start.proxy.realBst.accessFreqs)
    (agrees : ∀ k ∈ keys, Agreeing start.proxy k) (state : Requesting start promise asked running batch i) :
    ∃ after more n, Server.requestKeys promise keys (start.registering running batch i) =
        .ok (start.registering after more n) ∧ Requesting start promise (asked ++ keys) after more n := by
  induction keys generalizing asked running batch i with
  | nil => exact ⟨running,batch,i,rfl,by simpa using state⟩
  | cons key rest ih =>
    have here := live key List.mem_cons_self
    have resident := valid.with_running running
    have tail : ∀ {next : ThreadSafeUnorderedMap} {more : List Str},
        Requesting start promise (asked ++ [key]) next more (i+1) →
        ∃ after last n, Server.requestKeys promise rest (start.registering next more (i+1)) =
            .ok (start.registering after last n) ∧
          Requesting start promise (asked ++ key :: rest) after last n := by
      intro next more stepped
      obtain ⟨after,last,n,ran,final⟩ := ih (fun k member => live k (List.mem_cons_of_mem _ member))
        (fun k member => agrees k (List.mem_cons_of_mem _ member)) stepped
      exact ⟨after,last,n,ran,by simpa using final⟩
    by_cases held : key ∈ start.proxy.cache.held
    · obtain ⟨v,present⟩ := Cache.mem_held.mp held
      obtain ⟨next,registered,stepped⟩ := request_cached state below present (agrees key List.mem_cons_self)
      obtain ⟨after,more,n,ran,final⟩ := tail stepped
      refine ⟨after,more,n,?_,final⟩
      have created := requestKey_cached resident present registered batch
      simp only [Server.requestKeys,Server.registering,created,bind,Except.bind]
      exact ran
    · have stepped := request_uncached state below here held
      obtain ⟨after,more,n,ran,final⟩ := tail stepped
      refine ⟨after,more,n,?_,final⟩
      have created := requestKey_uncached resident here held batch promise start.request_id
      simp only [Server.requestKeys,Server.registering,created,bind,Except.bind]
      exact ran

namespace Server

def selected (s : Server) (item : Str) (a b : Int) : List Str :=
  (select (s.proxy.realBst.timestamps item).toList a b).map (bucketKey item)

-- The state in which the buckets of a GET are asked for.
def asking (s : Server) (item : Str) (a b : Int) : Server :=
  {s with proxy:={s.proxy with realBst:=(s.proxy.realBst.get_timestamp_for_key item).2},
          requests:=s.requests ++ [.get item a b]}

theorem selected_live {s : Server} (valid : s.proxy.realBst.Exact) (member : k ∈ s.selected item a b) :
    ∃ t, WellFormed item t ∧ k = bucketKey item t ∧ k ∈ s.proxy.realBst.accessFreqs := by
  obtain ⟨t,chosen,rfl⟩ := List.mem_map.mp member
  have listed := select_sub (s.proxy.realBst.timestamps item).sorted chosen
  obtain ⟨wf,live⟩ := (valid.index item t).mp listed
  exact ⟨t,wf,rfl,live⟩

theorem last_get (s : Server) (item : Str) (a b : Int) : (s.asking item a b).last = s.last := by
  have none : [Request.get item a b].filterMap Request.written = [] := rfl
  funext k
  simp only [last,writes,asking,List.filterMap_append,none,List.append_nil]

end Server

theorem asking_resident (valid : Resident cfg env s.last s.proxy) (item : Str) (a b : Int) :
    Resident cfg env (s.asking item a b).last (s.asking item a b).proxy := by
  rw [Server.last_get]
  have exact_ := FrequencySmoother.get_timestamp_for_key_exact valid.exact item
  cases valid
  constructor <;> assumption

theorem asking_start (sound : Sound cfg env s) (item : Str) (a b : Int) :
    Requesting (s.asking item a b) s.requests.length [] s.proxy.runningKeys s.storage_batch s.i := by
  have fresh : s.proxy.runningKeys.request_map.find? s.request_id = none := by
    rw [Table.find_none]
    intro member
    have below := sound.building.ids _ member
    omega
  refine ⟨⟨sound.building.distinct,sound.building.absent,sound.building.running,sound.building.scheduled,
    sound.building.registered,?_,?_,?_,sound.building.supplied⟩,⟨?_,?_,?_⟩,?_,fun _ _ => rfl,?_,fun _ _ found => .inl found⟩
  · intro id member
    have below := sound.building.ids id member
    simp only [Server.asking]
    omega
  · intro id ks p found
    have below := sound.building.owners id ks p found
    simp only [Server.registering,Server.asking,List.length_append]
    omega
  · intro p member
    have below := sound.building.answered p member
    simp only [Server.registering,Server.asking,List.length_append]
    omega
  · intro member
    exact lt_irrefl _ (sound.building.answered _ member)
  · intro ks op found
    rw [show (s.asking item a b).request_id = s.request_id from rfl,fresh] at found
    cases found
  · intro other ks found
    exact absurd (sound.building.owners other ks _ found) (lt_irrefl _)
  · simp [ThreadSafeUnorderedMap.keysOf,Server.asking,fresh]
  · intro filled
    exact absurd rfl filled

-- A GET registers its buckets and touches nothing else of the proxy.
theorem serve_get (sound : Sound cfg env s) (wf : (Request.get item a b).WellFormed)
    (agrees : ∀ k ∈ s.selected item a b, Agreeing s.proxy k) :
    ∃ running batch i, s.serve (.get item a b) =
        .ok {(s.asking item a b).registering running batch i with request_id:=s.request_id+1} ∧
      Requesting (s.asking item a b) s.requests.length (s.selected item a b) running batch i := by
  obtain ⟨free,fitsStart,fitsEnd⟩ := wf
  obtain ⟨running,batch,i,ran,state⟩ := requestKeys_spec (asking_resident sound.resident item a b)
    (by simp [Server.asking]) (s.selected item a b)
    (fun k member => by
      obtain ⟨_,_,_,live⟩ := Server.selected_live sound.resident.exact member
      exact live)
    agrees (asking_start sound item a b)
  refine ⟨running,batch,i,?_,by simpa using state⟩
  have split := get_split_keys_get s.proxy.realBst free fitsStart fitsEnd
  have value : (Request.get item a b).operation.value = [] := rfl
  simp only [Server.serve,value,if_true,split]
  exact congrArg (· >>= fun t : Server => pure {t with request_id:=t.request_id+1}) ran

theorem get_sound (sound : Sound cfg env s)
    (state : Requesting (s.asking item a b) s.requests.length asked running batch i) :
    Sound cfg env {(s.asking item a b).registering running batch i with request_id:=s.request_id+1} := by
  refine ⟨(asking_resident sound.resident item a b).with_running running,?_,sound.roomy⟩
  cases state.building
  constructor <;> assumption

end TsWaffle
