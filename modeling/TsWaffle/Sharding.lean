import TsWaffle.Consumer
import TsWaffle.Lib.Grouping

namespace TsWaffle
open Text Grouping

-- cpp_redis::reply, as far as redis.cpp looks at it.
inductive Reply where
  | error (message : Str)
  | null
  | string (text : Str)
  | array (replies : List Reply)

namespace Reply

def is_error : Reply → Bool
  | .error _ => true
  | _ => false

-- redis_error is a runtime_error; so is what redis.cpp throws for an error reply.
def as_string : Reply → Except Fault Str
  | .string text => .ok text
  | _ => .error .redis_error

-- The check and the read that every value reply goes through.
def checked (reply : Reply) : Except Fault Str := if reply.is_error then .error .redis_error else reply.as_string

def as_array : Reply → Except Fault (List Reply)
  | .array replies => .ok replies
  | _ => .error .redis_error

end Reply

-- cpp_redis::client with the server behind it. A command takes effect when it is
-- committed, and its future holds the reply.
structure Client (σ : Type) where
  get : σ → Str → Reply
  mget : σ → List Str → Reply
  mset : σ → List (Str × Str) → Reply × σ

-- mget answers in the order of its keys; mset stores all its pairs, the last one
-- of a key last, and says so.
structure Client.Lawful (client : Client σ) : Prop where
  ordered : ∀ server keys, client.mget server keys = .array (keys.map (client.get server))
  accepted : ∀ server pairs, (client.mset server pairs).1.is_error = false
  stored : ∀ server pairs k, client.get (client.mset server pairs).2 k =
    ((Server.lastIn k pairs).map Reply.string).getD (client.get server k)

-- The connected clients; server_count_ is an int, so an index kept as an int stays
-- what it is.
structure Redis (σ : Type) where
  size : Nat
  clients : Fin size → σ
  connected : 0 < size
  counted : size < 2^31

namespace Redis
variable {σ : Type} {client : Client σ} {hash : Str → Nat} {s : Redis σ} {walk : List (Fin s.size) → List (Fin s.size)}
  {keys values : List Str}

def idx (s : Redis σ) (hash : Str → Nat) (key : Str) : Fin s.size := ⟨hash key % s.size,Nat.mod_lt _ s.connected⟩

def get (client : Client σ) (hash : Str → Nat) (s : Redis σ) (key : Str) : Except Fault Str :=
  (client.get (s.clients (s.idx hash key)) key).checked

def nested : List Reply → Except Fault (List Str)
  | [] => .ok []
  | nested_reply :: rest => do
    let text ← nested_reply.checked
    let more ← nested rest
    return text :: more

def strings (reply : Reply) : Except Fault (List Str) := do
  let reply_array ← reply.as_array
  nested reply_array

-- The loops over the futures: i goes up while the queue that bounds it shrinks.
-- What is left in the queue is destroyed unread.
def await (read : Reply → Except Fault (List Str)) : Nat → List Reply → Except Fault (List Str × List Reply)
  | _,[] => .ok ([],[])
  | i,reply :: rest =>
    if i < (reply :: rest).length then
      if reply.is_error then .error .redis_error
      else do
        let texts ← read reply
        let (more,left) ← await read (i+1) rest
        return (texts ++ more,left)
    else .ok ([],reply :: rest)

-- One future for each vector, in the order in which the hash map is walked.
def futures (s : Redis σ) (walk : List (Fin s.size) → List (Fin s.size)) (vectors : Table (Fin s.size) (List α))
    (send : σ → List α → Reply) : List Reply :=
  (walk vectors.keys).map (fun id => send (s.clients id) ((vectors.find? id).getD []))

def get_batch (client : Client σ) (hash : Str → Nat) (s : Redis σ) (walk : List (Fin s.size) → List (Fin s.size))
    (keys : List Str) : Except Fault (List Str) := do
  let key_vectors := group (s.idx hash) keys ∅
  let (return_vector,_) ← await strings 0 (s.futures walk key_vectors client.mget)
  return return_vector

-- values[i] behind the end is undefined. The servers have their commands before
-- the first reply is awaited; the replies nobody waited for are returned.
def put_batch (client : Client σ) (hash : Str → Nat) (s : Redis σ) (walk : List (Fin s.size) → List (Fin s.size))
    (keys values : List Str) : Redis σ × Except Fault (List Reply) :=
  if values.length < keys.length then (s,.error .undefined)
  else
    let key_value_vector_pairs := group (fun pair => s.idx hash pair.1) (keys.zip values) ∅
    let clients := fun id =>
      match key_value_vector_pairs.find? id with
      | some pairs => (client.mset (s.clients id) pairs).2
      | none => s.clients id
    let futures := s.futures walk key_value_vector_pairs (fun server pairs => (client.mset server pairs).1)
    ({s with clients:=clients},(await (fun _ => .ok []) 0 futures).map Prod.snd)

-- Half of the futures, rounded up, are waited for.
theorem await_half {read : Reply → Except Fault (List Str)} (reply : ι → Reply) (texts : ι → List Str) (ids : List ι)
    (good : ∀ id ∈ ids, (reply id).is_error = false ∧ read (reply id) = .ok (texts id)) (i : Nat) :
    await read i (ids.map reply) =
      .ok ((ids.take ((ids.length+1-i)/2)).flatMap texts,(ids.drop ((ids.length+1-i)/2)).map reply) := by
  induction ids generalizing i with
  | nil => simp [await]
  | cons id rest ih =>
    obtain ⟨fine,reads⟩ := good id List.mem_cons_self
    rw [List.map_cons,await]
    split
    · rename_i below
      rw [List.length_cons,List.length_map] at below
      have count : ((id :: rest).length+1-i)/2 = (rest.length+1-(i+1))/2+1 := by
        rw [List.length_cons]
        omega
      rw [count,List.take_succ_cons,List.drop_succ_cons,List.flatMap_cons]
      rw [if_neg (by simp [fine]),reads,ih (fun r member => good r (List.mem_cons_of_mem _ member)) (i+1)]
      rfl
    · rename_i above
      rw [List.length_cons,List.length_map] at above
      have none : ((id :: rest).length+1-i)/2 = 0 := by
        rw [List.length_cons]
        omega
      rw [none]
      rfl

-- All keys belong to one client.
def OneShard (s : Redis σ) (hash : Str → Nat) (keys : List Str) : Prop :=
  ∀ k ∈ keys, ∀ l ∈ keys, s.idx hash k = s.idx hash l

theorem get_string (found : get client hash s key = .ok v) :
    client.get (s.clients (s.idx hash key)) key = .string v := by
  unfold get at found
  cases reply : client.get (s.clients (s.idx hash key)) key with
  | string text =>
    rw [reply] at found
    cases found
    rfl
  | _ => rw [reply] at found; cases found

theorem nested_strings (texts : List Str) : nested (texts.map Reply.string) = .ok texts := by
  induction texts with
  | nil => rfl
  | cons text rest ih =>
    rw [List.map_cons,nested,ih]
    rfl

def stored (client : Client σ) (hash : Str → Nat) (s : Redis σ) (key : Str) : Str := (get client hash s key).toOption.getD []

theorem get_stored (present : ∃ v, get client hash s key = .ok v) : get client hash s key = .ok (stored client hash s key) := by
  obtain ⟨v,found⟩ := present
  rw [stored,found]
  rfl

-- The keys of one client, in the order in which they were given.
def own (s : Redis σ) (hash : Str → Nat) (keys : List Str) (id : Fin s.size) : List Str :=
  keys.filter (fun k => s.idx hash k = id)

theorem mem_walked (walked : ∀ ids, (walk ids).Perm ids) (id : Fin s.size) :
    id ∈ walk (group (s.idx hash) keys ∅).keys ↔ ∃ k ∈ keys, s.idx hash k = id := by
  rw [(walked _).mem_iff,Table.mem_keys,mem_groups]

theorem walked_nodup {vectors : Table (Fin s.size) (List α)} (walked : ∀ ids, (walk ids).Perm ids) :
    (walk vectors.keys).Nodup := (walked _).nodup_iff.mpr vectors.keys_nodup

theorem get_futures (lawful : client.Lawful) (walked : ∀ ids, (walk ids).Perm ids)
    (present : ∀ k ∈ keys, ∃ v, get client hash s k = .ok v) :
    s.futures walk (group (s.idx hash) keys ∅) client.mget =
      (walk (group (s.idx hash) keys ∅).keys).map
        (fun id => .array (((own s hash keys id).map (stored client hash s)).map Reply.string)) := by
  apply List.map_congr_left
  intro id listed
  rw [find_groups ((mem_walked walked id).mp listed),Option.getD_some,lawful.ordered]
  congr 1
  rw [List.map_map]
  apply List.map_congr_left
  intro k member
  obtain ⟨inside,mine⟩ := List.mem_filter.mp member
  have found := get_string (get_stored (present k inside))
  rw [of_decide_eq_true mine] at found
  exact found

theorem get_batch_returns (lawful : client.Lawful) (walked : ∀ ids, (walk ids).Perm ids)
    (present : ∀ k ∈ keys, ∃ v, get client hash s k = .ok v) :
    get_batch client hash s walk keys =
      .ok (((walk (group (s.idx hash) keys ∅).keys).take (((walk (group (s.idx hash) keys ∅).keys).length+1)/2)).flatMap
        (fun id => (own s hash keys id).map (stored client hash s))) := by
  unfold get_batch
  dsimp only
  rw [get_futures lawful walked present,await_half _ (fun id => (own s hash keys id).map (stored client hash s))]
  · rfl
  · intro id _
    exact ⟨rfl,nested_strings _⟩

-- With two clients in play the last one's values are missing.
-- The first half of two or more groups, none of them empty, is not everything.
theorem half_sum_lt {ι : Type} {ids : List ι} {size : ι → Nat} (filled : ∀ id ∈ ids, 0 < size id) (several : 1 < ids.length) :
    ((ids.take ((ids.length+1)/2)).map size).sum < (ids.map size).sum := by
  have half : (ids.length+1)/2 < ids.length := by omega
  have split := congrArg (fun l => (l.map size).sum) (List.take_append_drop ((ids.length+1)/2) ids)
  simp only [List.map_append,List.sum_append] at split
  have missing : 0 < ((ids.drop ((ids.length+1)/2)).map size).sum := by
    rw [List.drop_eq_getElem_cons half,List.map_cons,List.sum_cons]
    have first := filled ids[(ids.length+1)/2] (List.getElem_mem half)
    omega
  omega

theorem get_batch_iff (lawful : client.Lawful) (walked : ∀ ids, (walk ids).Perm ids)
    (present : ∀ k ∈ keys, ∃ v, get client hash s k = .ok v) :
    (∃ values, get_batch client hash s walk keys = .ok values ∧ values.map Except.ok = keys.map (get client hash s)) ↔
      OneShard s hash keys := by
  have single := single_group (walk (group (s.idx hash) keys ∅).keys) (walked_nodup walked) (mem_walked walked)
  have total := sum_groups (f:=s.idx hash) (l:=keys) (walk (group (s.idx hash) keys ∅).keys) (walked_nodup walked)
    (fun k member => (mem_walked walked _).mpr ⟨k,member,rfl⟩)
  have filled : ∀ id ∈ walk (group (s.idx hash) keys ∅).keys, 0 < (own s hash keys id).length := by
    intro id listed
    obtain ⟨k,member,mine⟩ := (mem_walked walked id).mp listed
    exact List.length_pos_of_mem (List.mem_filter.mpr ⟨member,by simpa using mine⟩)
  rw [get_batch_returns lawful walked present,OneShard,← single]
  generalize walk (group (s.idx hash) keys ∅).keys = ids at total filled
  constructor
  · intro returned
    obtain ⟨values,same,stored_⟩ := returned
    cases same
    have length := congrArg List.length stored_
    rw [List.length_map,List.length_map,List.length_flatMap] at length
    simp only [List.length_map] at length
    by_contra several
    have fewer := half_sum_lt filled (by omega)
    have whole : (ids.map (fun id => (own s hash keys id).length)).sum = keys.length := total
    omega
  · intro few
    match ids,few with
    | [],_ =>
      have none : keys = [] := List.length_eq_zero_iff.mp total.symm
      rw [none]
      refine ⟨[],?_,rfl⟩
      rw [List.take_nil]
      rfl
    | [id],_ =>
      have whole : (own s hash keys id).length = keys.length := by simpa [own] using total
      have all : own s hash keys id = keys := List.filter_sublist.eq_of_length whole
      refine ⟨keys.map (stored client hash s),?_,?_⟩
      · rw [List.length_singleton]
        simp only [Nat.reduceAdd,Nat.div_self,Nat.succ_pos,List.take_succ_cons,List.take_zero,List.flatMap_cons,
          List.flatMap_nil,List.append_nil,all]
      · rw [List.map_map]
        apply List.map_congr_left
        intro k member
        exact (get_stored (present k member)).symm

theorem mem_zip_keys (paired : keys.length = values.length) : k ∈ keys ↔ ∃ pair ∈ keys.zip values, pair.1 = k := by
  rw [← List.mem_map,List.map_fst_zip paired.le]

theorem put_batch_awaits (lawful : client.Lawful) (paired : keys.length = values.length) :
    (put_batch client hash s walk keys values).2 =
      .ok (((walk (group (fun pair => s.idx hash pair.1) (keys.zip values) ∅).keys).drop
        (((walk (group (fun pair => s.idx hash pair.1) (keys.zip values) ∅).keys).length+1)/2)).map
        (fun id => (client.mset (s.clients id)
          (((group (fun pair => s.idx hash pair.1) (keys.zip values) ∅).find? id).getD [])).1)) := by
  unfold put_batch
  rw [if_neg (by omega)]
  dsimp only
  rw [futures,await_half _ (fun _ => [])]
  · rfl
  · intro id _
    exact ⟨lawful.accepted _ _,rfl⟩

theorem put_batch_iff (lawful : client.Lawful) (walked : ∀ ids, (walk ids).Perm ids) (paired : keys.length = values.length) :
    (put_batch client hash s walk keys values).2.map List.length = .ok 0 ↔ OneShard s hash keys := by
  have single := single_group (f:=fun pair : Str × Str => s.idx hash pair.1) (l:=keys.zip values)
    (walk (group (fun pair => s.idx hash pair.1) (keys.zip values) ∅).keys) (walked_nodup walked)
    (fun id => by rw [(walked _).mem_iff,Table.mem_keys,mem_groups])
  have shards : OneShard s hash keys ↔
      ∀ p ∈ keys.zip values, ∀ q ∈ keys.zip values, s.idx hash p.1 = s.idx hash q.1 := by
    constructor
    · intro one p inP q inQ
      exact one p.1 ((mem_zip_keys paired).mpr ⟨p,inP,rfl⟩) q.1 ((mem_zip_keys paired).mpr ⟨q,inQ,rfl⟩)
    · intro one k inK l inL
      obtain ⟨p,inP,rfl⟩ := (mem_zip_keys paired).mp inK
      obtain ⟨q,inQ,rfl⟩ := (mem_zip_keys paired).mp inL
      exact one p inP q inQ
  rw [put_batch_awaits lawful paired,shards,← single]
  simp only [Except.map,List.length_map,List.length_drop,Except.ok.injEq]
  omega

-- Both calls do what they should exactly when no second client is in play: get_batch
-- returns the values stored for its keys, in order, and put_batch has waited for
-- every reply and checked it.
theorem batches_agree_iff (lawful : client.Lawful) (walked : ∀ ids, (walk ids).Perm ids)
    (present : ∀ k ∈ keys, ∃ v, get client hash s k = .ok v) (paired : keys.length = values.length) :
    ((∃ found, get_batch client hash s walk keys = .ok found ∧ found.map Except.ok = keys.map (get client hash s)) ↔
      OneShard s hash keys) ∧
    ((put_batch client hash s walk keys values).2.map List.length = .ok 0 ↔ OneShard s hash keys) :=
  ⟨get_batch_iff lawful walked present,put_batch_iff lawful walked paired⟩

theorem lastIn_filter (p : Str × Str → Bool) (rows : List (Str × Str)) (kept : ∀ v, p (k,v) = true) :
    Server.lastIn k (rows.filter p) = Server.lastIn k rows := by
  induction rows with
  | nil => rfl
  | cons row rest ih =>
    obtain ⟨key,v⟩ := row
    by_cases pass : p (key,v) = true
    · rw [List.filter_cons_of_pos pass,Server.lastIn,Server.lastIn,ih]
    · rw [List.filter_cons_of_neg pass,ih,Server.lastIn]
      have other : key ≠ k := by
        rintro rfl
        exact pass (kept v)
      rw [if_neg other,Option.or_none]

-- Whatever replies are waited for, every pair reaches its server.
theorem put_batch_stores (lawful : client.Lawful) (paired : keys.length = values.length) (k : Str) :
    get client hash (put_batch client hash s walk keys values).1 k =
      ((Server.lastIn k (keys.zip values)).map Except.ok).getD (get client hash s k) := by
  unfold put_batch
  rw [if_neg (by omega)]
  change (client.get (match (group (fun pair : Str × Str => s.idx hash pair.1) (keys.zip values) ∅).find? (s.idx hash k) with
    | some pairs => (client.mset (s.clients (s.idx hash k)) pairs).2
    | none => s.clients (s.idx hash k)) k).checked = _
  by_cases occurs : ∃ pair ∈ keys.zip values, s.idx hash pair.1 = s.idx hash k
  · rw [find_groups occurs]
    dsimp only
    rw [lawful.stored,lastIn_filter _ _ (fun v => by simp)]
    cases Server.lastIn k (keys.zip values) <;> rfl
  · have absent : s.idx hash k ∉ group (fun pair : Str × Str => s.idx hash pair.1) (keys.zip values) ∅ :=
      mt mem_groups.mp occurs
    have unwritten : Server.lastIn k (keys.zip values) = none := by
      have none : (keys.zip values).filter (fun pair => pair.1 = k) = [] := by
        rw [List.filter_eq_nil_iff]
        intro pair member same
        exact occurs ⟨pair,member,by rw [of_decide_eq_true same]⟩
      rw [← lastIn_filter (fun pair => pair.1 = k) _ (fun v => by simp),none]
      rfl
    rw [Table.find_none.mpr absent,unwritten]
    rfl

end Redis

-- A server that keeps a table.
def tableClient : Client (Table Str Str) where
  get server key := ((server.find? key).map Reply.string).getD .null
  mget server keys := .array (keys.map (fun key => ((server.find? key).map Reply.string).getD .null))
  mset server pairs := (.string (str "OK"),server.insertAll pairs)

theorem find_insertAll (m : Table Str Str) (pairs : List (Str × Str)) (k : Str) :
    (m.insertAll pairs).find? k = (Server.lastIn k pairs).or (m.find? k) := by
  induction pairs generalizing m with
  | nil => rfl
  | cons pair rest ih =>
    change ((m.insert pair.1 pair.2).insertAll rest).find? k = _
    rw [ih,Table.find_insert,Server.lastIn]
    cases Server.lastIn k rest with
    | some v => rfl
    | none => by_cases same : k = pair.1 <;> simp [same,eq_comm]

theorem tableClient_lawful : tableClient.Lawful := by
  refine ⟨fun _ _ => rfl,fun _ _ => rfl,?_⟩
  intro server pairs k
  simp only [tableClient,find_insertAll]
  cases Server.lastIn k pairs <;> rfl

namespace Redis

theorem nested_replies (m : Table Str Str) (keys : List Str) :
    nested (keys.map (fun key => ((m.find? key).map Reply.string).getD .null)) = Proxy.fetchAll m keys := by
  induction keys with
  | nil => rfl
  | cons key rest ih =>
    rw [List.map_cons,nested,Proxy.fetchAll,ih]
    cases m.find? key <;> rfl

theorem single_walked {hash : Str → Nat} {t : Redis (Table Str Str)} {walk : List (Fin t.size) → List (Fin t.size)}
    (one : t.size = 1) (walked : ∀ ids, (walk ids).Perm ids) (id : Fin t.size) (some : keys ≠ []) :
    walk (group (t.idx hash) keys ∅).keys = [id] := by
  have alone : ∀ i j : Fin t.size, i = j := by
    intro i j
    apply Fin.ext
    omega
  have single := single_group (f:=t.idx hash) (l:=keys) (walk (group (t.idx hash) keys ∅).keys) (walked_nodup walked)
    (mem_walked walked)
  have few := single.mpr (fun _ _ _ _ => alone _ _)
  obtain ⟨key,listed⟩ := List.exists_mem_of_ne_nil keys some
  have member : id ∈ walk (group (t.idx hash) keys ∅).keys := (mem_walked walked id).mpr ⟨key,listed,alone _ _⟩
  cases order : walk (group (t.idx hash) keys ∅).keys with
  | nil => rw [order] at member; cases member
  | cons i more =>
    rw [order,List.length_cons] at few
    have none : more = [] := List.length_eq_zero_iff.mp (by omega)
    rw [alone i id,none]

-- One server is what the proxy's storage stands for: the batches are those of the
-- plain table, missing keys included.
theorem get_batch_single {hash : Str → Nat} {t : Redis (Table Str Str)}
    {walk : List (Fin t.size) → List (Fin t.size)} (one : t.size = 1) (walked : ∀ ids, (walk ids).Perm ids) (id : Fin t.size) (keys : List Str) :
    get_batch tableClient hash t walk keys = Proxy.fetchAll (t.clients id) keys := by
  unfold get_batch futures
  dsimp only
  cases keys with
  | nil =>
    have none : walk (group (t.idx hash) [] ∅).keys = [] := by
      rw [List.eq_nil_iff_forall_not_mem]
      intro i member
      obtain ⟨k,empty,_⟩ := (mem_walked walked i).mp member
      cases empty
    rw [none]
    rfl
  | cons key rest =>
    have alone : ∀ k, t.idx hash k = id := by
      intro k
      apply Fin.ext
      omega
    have all : (key :: rest).filter (fun k => t.idx hash k = id) = key :: rest :=
      List.filter_eq_self.mpr (fun k _ => decide_eq_true (alone k))
    rw [single_walked one walked id (List.cons_ne_nil key rest),List.map_singleton,
      find_groups ⟨key,List.mem_cons_self,alone key⟩,all,Option.getD_some]
    change (do
      let (return_vector,_) ← await strings 0 [Reply.array _]
      return return_vector) = _
    rw [await,if_pos (by simp),if_neg (by simp [Reply.is_error]),strings]
    change (do
      let (return_vector,_) ← (do
        let texts ← nested _
        let (more,left) ← await strings 1 []
        return (texts ++ more,left))
      return return_vector) = _
    rw [nested_replies]
    cases Proxy.fetchAll (t.clients id) (key :: rest) with
    | error fault => rfl
    | ok texts => exact congrArg Except.ok (List.append_nil texts)

def oneServer : Redis (Table Str Str) := ⟨1,fun _ => (∅ : Table Str Str).insert (str "k") (str "v"),by decide,by decide⟩

theorem batches_agree_one :
    (tableClient.Lawful ∧ (∀ ids : List (Fin oneServer.size), (id ids).Perm ids) ∧
      (∀ k ∈ [str "k"], ∃ v, get tableClient List.length oneServer k = .ok v) ∧ [str "k"].length = [str "w"].length) ∧
    ((∃ found, get_batch tableClient List.length oneServer id [str "k"] = .ok found ∧
        found.map Except.ok = [str "k"].map (get tableClient List.length oneServer)) ↔
      OneShard oneServer List.length [str "k"]) ∧
    ((put_batch tableClient List.length oneServer id [str "k"] [str "w"]).2.map List.length = .ok 0 ↔
      OneShard oneServer List.length [str "k"]) := by
  have present : ∀ k ∈ [str "k"], ∃ v, get tableClient List.length oneServer k = .ok v := by
    intro k member
    rw [List.mem_singleton.mp member]
    exact ⟨str "v",by decide +kernel⟩
  have walked : ∀ ids : List (Fin oneServer.size), (id ids).Perm ids := fun _ => List.Perm.refl _
  exact ⟨⟨tableClient_lawful,walked,present,rfl⟩,batches_agree_iff tableClient_lawful walked present rfl⟩

-- Two servers hold one key each, told apart by the keys' lengths.
def twoServers : Redis (Table Str Str) :=
  ⟨2,fun id => if id.val = 0 then (∅ : Table Str Str).insert (str "bb") (str "2")
      else (∅ : Table Str Str).insert (str "a") (str "1"),
    by decide,by decide⟩

theorem second_server_unread :
    ¬ ∀ (σ : Type) (client : Client σ) (hash : Str → Nat) (s : Redis σ) (walk : List (Fin s.size) → List (Fin s.size))
      (keys values : List Str), client.Lawful → (∀ ids, (walk ids).Perm ids) →
      (∀ k ∈ keys, ∃ v, get client hash s k = .ok v) → keys.length = values.length →
      (∃ found, get_batch client hash s walk keys = .ok found ∧ found.map Except.ok = keys.map (get client hash s)) ∧
      (put_batch client hash s walk keys values).2.map List.length = .ok 0 := by
  intro always
  have present : ∀ k ∈ [str "a",str "bb"], ∃ v, get tableClient List.length twoServers k = .ok v := by
    intro k member
    rcases List.mem_cons.mp member with rfl | later
    · exact ⟨str "1",by decide +kernel⟩
    · rw [List.mem_singleton.mp later]
      exact ⟨str "2",by decide +kernel⟩
  obtain ⟨_,awaited⟩ := always _ tableClient List.length twoServers id [str "a",str "bb"] [str "3",str "4"]
    tableClient_lawful (fun _ => List.Perm.refl _) present rfl
  exact absurd awaited (by decide +kernel)

end Redis
end TsWaffle
