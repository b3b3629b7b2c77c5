import TsWaffle.Sharding
import TsWaffle.Sweeping
import TsWaffle.Lib.Shards

namespace TsWaffle
open Text Runs Grouping Shards

namespace Redis
variable {hash : Str → Nat} {s t : Redis (Table Str Str)} {m : Table Str Str} {k : Str} {n : Nat}

-- SET, DEL, EXISTS and DBSIZE of a server that keeps a table.
def put (hash : Str → Nat) (s : Redis (Table Str Str)) (key value : Str) : Redis (Table Str Str) :=
  {s with clients:=Function.update s.clients (s.idx hash key) ((s.clients (s.idx hash key)).insert key value)}

-- No reply is awaited.
def delete_batch (hash : Str → Nat) (s : Redis (Table Str Str)) (keys : List Str) : Redis (Table Str Str) :=
  let key_vectors := group (s.idx hash) keys ∅
  {s with clients:=fun id =>
            match key_vectors.find? id with
            | some own => (s.clients id).eraseAll own
            | none => s.clients id}

def key_exists (hash : Str → Nat) (s : Redis (Table Str Str)) (key : Str) : Bool :=
  decide (key ∈ s.clients (s.idx hash key))

-- The size of the first server alone.
def get_database_size (s : Redis (Table Str Str)) : Nat := (s.clients ⟨0,s.connected⟩).keys.length

-- The new client comes last, with an empty server behind it.
def add_server (s : Redis (Table Str Str)) (room : s.size+1 < 2^31) : Redis (Table Str Str) :=
  ⟨s.size+1,fun id => if within : id.val < s.size then s.clients ⟨id.val,within⟩ else ∅,by omega,room⟩

def connect (n : Nat) (some_ : 0 < n) (few : n < 2^31) : Redis (Table Str Str) := ⟨n,fun _ => ∅,some_,few⟩

inductive Command where
  | put (key value : Str)
  | put_batch (keys values : List Str)
  | delete_batch (keys : List Str)

-- What a command does to one table.
def Command.apply (m : Table Str Str) : Command → Table Str Str
  | .put key value => m.insert key value
  | .put_batch keys values => m.insertAll (keys.zip values)
  | .delete_batch keys => m.eraseAll keys

-- The hash map's walk is a parameter of every call that makes one.
def step (hash : Str → Nat) (walk : ∀ n, List (Fin n) → List (Fin n)) (s : Redis (Table Str Str)) :
    Command → Except Fault (Redis (Table Str Str))
  | .put key value => .ok (s.put hash key value)
  | .put_batch keys values =>
    match put_batch tableClient hash s (walk s.size) keys values with
    | (t,.ok _) => .ok t
    | (_,.error fault) => .error fault
  | .delete_batch keys => .ok (s.delete_batch hash keys)

-- The servers hold one table between them.
def Holds (hash : Str → Nat) (s : Redis (Table Str Str)) (m : Table Str Str) : Prop := Houses (s.idx hash) s.clients m

theorem connect_holds (some_ : 0 < n) (few : n < 2^31) : Holds hash (connect n some_ few) ∅ := houses_empty _

theorem groups_eraseAll (s : Redis (Table Str Str)) (keys : List Str) (id : Fin s.size) :
    (match (group (s.idx hash) keys ∅).find? id with
      | some own => (s.clients id).eraseAll own
      | none => s.clients id) = (s.clients id).eraseAll (keys.filter (fun k => s.idx hash k = id)) := by
  by_cases occurs : ∃ k ∈ keys, s.idx hash k = id
  · rw [find_groups occurs]
  · have none_ : keys.filter (fun k => s.idx hash k = id) = [] := by
      rw [List.filter_eq_nil_iff]
      intro k member own
      exact occurs ⟨k,member,of_decide_eq_true own⟩
    rw [Table.find_none.mpr (mt mem_groups.mp occurs),none_]
    rfl

theorem groups_insertAll (s : Redis (Table Str Str)) (rows : List (Str × Str)) (id : Fin s.size) :
    (match (group (fun row : Str × Str => s.idx hash row.1) rows ∅).find? id with
      | some own => (tableClient.mset (s.clients id) own).2
      | none => s.clients id) = (s.clients id).insertAll (rows.filter (fun row => s.idx hash row.1 = id)) := by
  by_cases occurs : ∃ row ∈ rows, s.idx hash row.1 = id
  · rw [find_groups occurs]
    rfl
  · have none_ : rows.filter (fun row => s.idx hash row.1 = id) = [] := by
      rw [List.filter_eq_nil_iff]
      intro row member own
      exact occurs ⟨row,member,of_decide_eq_true own⟩
    rw [Table.find_none.mpr (mt mem_groups.mp occurs),none_]
    rfl

theorem step_holds {walk : ∀ n, List (Fin n) → List (Fin n)} {command : Command} (holds : Holds hash s m)
    (ran : step hash walk s command = .ok t) : Holds hash t (command.apply m) ∧ t.size = s.size := by
  cases command with
  | put key value =>
    cases ran
    exact ⟨Houses.put holds key value,rfl⟩
  | put_batch keys values =>
    simp only [step,put_batch] at ran
    split at ran
    · rename_i same
      split at same
      · cases same
      · cases ran
        obtain ⟨rfl,_⟩ := Prod.mk.inj same
        refine ⟨?_,rfl⟩
        have whole := Houses.putAll holds (keys.zip values)
        simp only [← groups_insertAll] at whole
        exact whole
    · cases ran
  | delete_batch keys =>
    cases ran
    refine ⟨?_,rfl⟩
    have whole := Houses.eraseAll holds keys
    simp only [← groups_eraseAll] at whole
    exact whole

theorem run_holds {walk : ∀ n, List (Fin n) → List (Fin n)} (commands : List Command) (holds : Holds hash s m)
    (ran : run (step hash walk) s commands = .ok t) : Holds hash t (commands.foldl Command.apply m) := by
  induction commands generalizing s m with
  | nil =>
    cases ran
    exact holds
  | cons command rest ih =>
    obtain ⟨next,stepped,tail⟩ := run_uncons ran
    exact ih (step_holds holds stepped).1 tail

theorem Holds.get (holds : Holds hash s m) (k : Str) :
    get tableClient hash s k = ((m.find? k).map Except.ok).getD (.error .redis_error) := by
  have found := Houses.find holds k
  unfold Redis.get tableClient
  dsimp only
  rw [found]
  cases m.find? k <;> rfl

theorem Holds.key_exists (holds : Holds hash s m) (k : Str) : s.key_exists hash k = decide (k ∈ m) := by
  simp [Redis.key_exists,Houses.mem_iff holds]

-- Where a key goes once there is one server more.
theorem Holds.add_server (holds : Holds hash s m) (room : s.size+1 < 2^31) (k : Str) :
    Redis.get tableClient hash (s.add_server room) k =
      if hash k % (s.size+1) = hash k % s.size then Redis.get tableClient hash s k else .error .redis_error := by
  have below := Nat.mod_lt (hash k) s.connected
  have moved : (s.add_server room).clients ((s.add_server room).idx hash k) =
      if within : hash k % (s.size+1) < s.size then s.clients ⟨hash k % (s.size+1),within⟩ else ∅ := rfl
  by_cases stays : hash k % (s.size+1) = hash k % s.size
  · have same : (⟨hash k % (s.size+1),by omega⟩ : Fin s.size) = s.idx hash k := Fin.ext stays
    unfold Redis.get
    rw [if_pos stays,moved,dif_pos (by omega),same]
  · have gone : ((s.add_server room).clients ((s.add_server room).idx hash k)).find? k = none := by
      rw [moved]
      split
      · rename_i within
        rw [holds,if_neg]
        intro same
        exact stays (Fin.mk.inj same).symm
      · exact Table.find_empty k
    rw [if_neg stays]
    unfold Redis.get tableClient
    dsimp only
    rw [gone]
    rfl

-- Whatever is put and deleted, through any number of servers and whatever the hash:
-- together they are one table, a server holds its own keys only, and a server added
-- later hides exactly the keys whose index changes.
theorem sharded_runs_refine (walk : ∀ n, List (Fin n) → List (Fin n)) (some_ : 0 < n) (few : n < 2^31)
    (commands : List Command) (ran : run (step hash walk) (connect n some_ few) commands = .ok t) :
    (∀ k, get tableClient hash t k = (((commands.foldl Command.apply ∅).find? k).map Except.ok).getD (.error .redis_error)) ∧
      (∀ k, t.key_exists hash k = decide (k ∈ commands.foldl Command.apply ∅)) ∧
      (∀ id, ∀ k ∈ t.clients id, t.idx hash k = id) ∧
      ∑ id, (t.clients id).keys.length = (commands.foldl Command.apply ∅).keys.length ∧
      ∀ room k, get tableClient hash (t.add_server room) k =
        if hash k % (t.size+1) = hash k % t.size then get tableClient hash t k else .error .redis_error := by
  have holds : Holds hash t (commands.foldl Command.apply ∅) := run_holds commands (connect_holds some_ few) ran
  exact ⟨holds.get,holds.key_exists,fun id k held => (Houses.mem_iff holds).mp held |>.1,Houses.count holds,
    holds.add_server⟩

-- Two servers, a key's length deciding between them.
def twoCommands : List Command :=
  [.put_batch [str "a",str "bb"] [str "1",str "2"],.put (str "a") (str "3"),.delete_batch [str "bb"]]

theorem keyed_ran :
    (run (step List.length (fun _ ids => ids)) (connect 2 twoServers.connected twoServers.counted)
      twoCommands).toOption.isSome = true := by
  decide +kernel

def keyedServers : Redis (Table Str Str) := Option.get _ keyed_ran

theorem two_servers_refine :
    get tableClient List.length keyedServers (str "a") = .ok (str "3") ∧
      get tableClient List.length keyedServers (str "bb") = .error .redis_error := by
  have refines := sharded_runs_refine (fun _ ids => ids) (by decide) (by decide) twoCommands (toOption_get keyed_ran)
  refine ⟨(refines.1 _).trans ?_,(refines.1 _).trans ?_⟩
  · decide +kernel
  · decide +kernel

-- The storage calls of the proxy as commands.
def Command.issued : Command → StorageOp × List Str
  | .put key _ => (.put_batch,[key])
  | .put_batch keys _ => (.put_batch,keys)
  | .delete_batch keys => (.delete_batch,keys)

def Command.Paired : Command → Prop
  | .put_batch keys values => keys.length = values.length
  | _ => True

theorem step_paired (walk : ∀ n, List (Fin n) → List (Fin n)) {command : Command} (paired : command.Paired)
    (s : Redis (Table Str Str)) : ∃ t, step hash walk s command = .ok t := by
  cases command with
  | put key value => exact ⟨_,rfl⟩
  | put_batch keys values =>
    have awaited : (put_batch tableClient hash s (walk s.size) keys values).2 = _ :=
      put_batch_awaits tableClient_lawful paired
    cases whole : put_batch tableClient hash s (walk s.size) keys values with
    | mk t left =>
      rw [whole] at awaited
      dsimp only at awaited
      subst awaited
      exact ⟨t,by simp only [step,whole]⟩
  | delete_batch keys => exact ⟨_,rfl⟩

theorem run_paired (hash : Str → Nat) (walk : ∀ n, List (Fin n) → List (Fin n)) (commands : List Command)
    (paired : ∀ command ∈ commands, command.Paired) (s : Redis (Table Str Str)) :
    ∃ t, run (step hash walk) s commands = .ok t := by
  induction commands generalizing s with
  | nil => exact ⟨s,rfl⟩
  | cons command rest ih =>
    obtain ⟨next,stepped⟩ := step_paired walk (paired command List.mem_cons_self) s
    obtain ⟨t,ran⟩ := ih (fun c member => paired c (List.mem_cons_of_mem _ member)) next
    exact ⟨t,by rw [run_cons stepped]; exact ran⟩

-- The calls that write or delete, with the values they carry.
def Issued (m : Table Str Str) (calls : List StorageCall) : Prop :=
  ∃ commands : List Command, (∀ command ∈ commands, command.Paired) ∧ commands.foldl Command.apply ∅ = m ∧
    commands.map Command.issued = (calls.filter (fun c => c.op ≠ .get_batch)).map (fun c => (c.op,c.labels))

theorem Issued.more {calls : List StorageCall} (issued : Issued m calls) (command : Command) (paired : command.Paired)
    (c : StorageCall) (writes : c.op ≠ .get_batch) (same : command.issued = (c.op,c.labels)) :
    Issued (command.apply m) (calls ++ [c]) := by
  obtain ⟨commands,all,rfl,listed⟩ := issued
  refine ⟨commands ++ [command],?_,?_,?_⟩
  · intro other member
    rcases List.mem_append.mp member with old | new
    · exact all other old
    · rw [List.mem_singleton.mp new]
      exact paired
  · rw [List.foldl_append]
    rfl
  · rw [List.map_append,listed,List.filter_append,List.map_append]
    simp [writes,same]

theorem issued_closed : Closed (fun m calls _ _ => Issued m calls) := by
  refine ⟨?_,?_,fun issued => issued,?_,fun issued => issued⟩
  · intro m calls queue reading batch rows issued
    have more := issued.more (.put_batch (rows.map Prod.fst) (rows.map Prod.snd)) (by simp [Command.Paired])
      ⟨.put_batch,batch,rows.map Prod.fst⟩ (by simp) rfl
    rw [Command.apply,← List.zip_of_prod rfl rfl] at more
    exact more
  · rintro m calls queue batch labels ⟨commands,all,rfl,listed⟩
    exact ⟨commands,all,rfl,by rw [listed,List.filter_append]; simp⟩
  · intro m calls row queue reading batch issued
    exact issued.more (.delete_batch row) trivial ⟨.delete_batch,batch,row⟩ (by simp) rfl

end Redis

end TsWaffle
