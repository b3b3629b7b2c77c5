import TsWaffle.Sweeping
import TsWaffle.Conserving

namespace TsWaffle
open Text Runs Server
variable {cfg : Config} {env : Env} {s t : Server} {p : Proxy} {pairs : List (Str × Str)} {draws : Draws} {n N C : Nat}
  {action : Action} {choice : Choice} {key response : Str}

-- The encryption of a value of n bytes.
def Cipher (env : Env) (n : Nat) (c : Str) : Prop := ∃ seed v, v.length = n ∧ c = env.encryptNonDeterministic seed v

def AllSealed (env : Env) (n : Nat) (m : Table Str Str) : Prop := ∀ l c, m.find? l = some c → Cipher env n c

-- Every value the proxy holds has n bytes, and so has every one it has sealed.
structure Sealed (env : Env) (n : Nat) (p : Proxy) : Prop where
  cached : ∀ kv ∈ p.cache.entries, kv.2.length = n
  stored : AllSealed env n p.storage

theorem Cipher.opens (lawful : env.Lawful) (cipher : Cipher env n c) : (env.decryptNonDeterministic c).length = n := by
  obtain ⟨seed,v,length,rfl⟩ := cipher
  rw [lawful.roundTrip]
  exact length

theorem allSealed_insert {m : Table Str Str} (alike : AllSealed env n m) (label : Str) (cipher : Cipher env n c) :
    AllSealed env n (m.insert label c) := by
  intro l d found
  rw [Table.find_insert] at found
  split at found
  · cases found
    exact cipher
  · exact alike l d found

theorem allSealed_insertAll {m : Table Str Str} (alike : AllSealed env n m) (rows : List (Str × Str))
    (ciphers : ∀ row ∈ rows, Cipher env n row.2) : AllSealed env n (m.insertAll rows) := by
  induction rows generalizing m with
  | nil => exact alike
  | cons row rest ih =>
    exact ih (allSealed_insert alike row.1 (ciphers row List.mem_cons_self))
      (fun r member => ciphers r (List.mem_cons_of_mem _ member))

theorem allSealed_eraseAll {m : Table Str Str} (alike : AllSealed env n m) (labels : List Str) :
    AllSealed env n (m.eraseAll labels) := fun l c found => alike l c (Table.find_eraseAll_some found).2

theorem Sealed.clearThread (alike : Sealed env n p) : Sealed env n p.clearThread := by
  unfold Proxy.clearThread
  split
  · exact alike
  · dsimp only
    split
    · exact ⟨alike.cached,allSealed_eraseAll alike.stored _⟩
    · exact ⟨alike.cached,alike.stored⟩

theorem Sealed.clearRounds (rounds : Nat) (alike : Sealed env n p) : Sealed env n (Proxy.clearRounds rounds p) := by
  induction rounds generalizing p with
  | zero => exact alike
  | succ rounds ih => exact ih alike.clearThread

-- The write-back loop: what is cached, and what is about to be written.
structure Wrapped (env : Env) (n : Nat) (w : WriteBack) : Prop where
  cached : ∀ kv ∈ w.proxy.cache.entries, kv.2.length = n
  written : ∀ row ∈ w.writeBatch, Cipher env n row.2

theorem Wrapped.write {w : WriteBack} (wrapped : Wrapped env n w) (label : Str) (cipher : Cipher env n c) :
    ∀ row ∈ w.writeBatch ++ [(label,c)], Cipher env n row.2 := by
  intro row member
  rcases List.mem_append.mp member with old | new
  · exact wrapped.written row old
  · rw [List.mem_singleton.mp new]
    exact cipher

theorem writeReal_wrapped {w v : WriteBack} {seed : Nat} (lawful : env.Lawful) (wrapped : Wrapped env n w)
    (occupied : w.proxy.cache.entries ≠ []) (reply : Cipher env n response)
    (ran : writeReal env seed key response w = .ok v) : Wrapped env n v := by
  obtain ⟨front,⟨k,value⟩,shape⟩ := (List.eq_nil_or_concat _).resolve_left occupied
  rw [List.concat_eq_append] at shape
  obtain ⟨out,rest⟩ := Cache.evict_entries shape
  have all := wrapped.cached
  rw [shape] at all
  have gone : value.length = n := all (k,value) (by simp)
  have kept : ∀ kv ∈ w.proxy.cache.evictLRElementFromCache.2.entries, kv.2.length = n := by
    rw [rest]
    exact fun kv member => all kv (List.mem_append_left _ member)
  unfold writeReal at ran
  dsimp only at ran
  split at ran
  · obtain ⟨q,removed,same⟩ := bind_ok ran
    obtain ⟨frame,_⟩ := removeReal_returned removed
    cases same
    subst frame
    refine ⟨kept,wrapped.write _ ?_⟩
    rw [out]
    exact ⟨seed,value,gone,rfl⟩
  · cases ran
    refine ⟨?_,wrapped.write _ (by rw [out]; exact ⟨seed,value,gone,rfl⟩)⟩
    intro kv member
    dsimp only at member
    rw [Cache.insertIntoCache_entries] at member
    rcases List.mem_cons.mp member with rfl | other
    · dsimp only
      split
      · rename_i present
        obtain ⟨v,listed⟩ := Cache.mem_held.mp (Cache.checkIfKeyExists_iff.mp present)
        rw [(Cache.get_present listed).2]
        exact kept _ listed
      · exact reply.opens lawful
    · exact kept kv (List.mem_of_mem_filter other)

theorem writeFake_wrapped {w : WriteBack} {seed : Nat} (size : cfg.object_size_ = n) (wrapped : Wrapped env n w)
    (draws : Nat → Nat) : Wrapped env n (writeFake cfg env seed draws key response w) := by
  refine ⟨wrapped.cached,wrapped.write _ ⟨seed,_,?_,rfl⟩⟩
  rw [EncryptionEngine.gen_random_length]
  exact size

theorem fetchAll_stored {m : Table Str Str} (labels : List Str) {got : List Str} (ran : Proxy.fetchAll m labels = .ok got)
    (member : c ∈ got) : ∃ l, m.find? l = some c := by
  induction labels generalizing got with
  | nil =>
    cases ran
    cases member
  | cons label rest ih =>
    unfold Proxy.fetchAll at ran
    split at ran
    · cases ran
    · rename_i reply found
      obtain ⟨others,fetched,same⟩ := bind_ok ran
      cases same
      rcases List.mem_cons.mp member with rfl | later
      · exact ⟨label,found⟩
      · exact ih fetched later

theorem Stages.iterate_wrapped {operations : List Str} {stages : Stages cfg env choice operations p} (lawful : env.Lawful)
    (size : cfg.object_size_ = n) (alike : Sealed env n p) (fetched : stages.Fetched)
    (occupied : ∀ m < stages.real.length, ∀ w, stages.iterate m = .ok w → w.proxy.cache.entries ≠ [])
    (m : Nat) {w : WriteBack} (ran : stages.iterate m = .ok w) : Wrapped env n w := by
  induction m generalizing w with
  | zero =>
    cases ran
    refine ⟨?_,by simp⟩
    have middle : Sealed env n stages.middle := Sealed.clearRounds choice.clears ⟨alike.cached,alike.stored⟩
    exact middle.cached
  | succ m ih =>
    cases found : (stages.labels.zip stages.responses)[m]? with
    | none =>
      refine ih ?_
      rw [← ran,Stages.iterate,Stages.iterate,List.take_add_one,found]
      simp
    | some row =>
      have reply : Cipher env n row.2 := by
        have listed : row.2 ∈ stages.responses := (List.of_mem_zip (List.mem_of_getElem? found)).2
        obtain ⟨l,stored⟩ := fetchAll_stored _ fetched.replies listed
        exact alike.stored l _ stored
      rw [Stages.iterate,List.take_add_one,found,Option.toList_some,writeBack_append] at ran
      obtain ⟨before,earlier,last⟩ := bind_ok ran
      have wrapped : Wrapped env n before := ih earlier
      have within : m < (stages.labels.zip stages.responses).length := (List.getElem?_eq_some_iff.mp found).1
      rw [List.length_take,Nat.min_eq_left (Nat.le_of_lt within),Nat.zero_add] at last
      unfold writeBack at last
      split at last
      · rename_i real
        obtain ⟨next,stepped,same⟩ := bind_ok last
        cases same
        refine writeReal_wrapped lawful wrapped (occupied m ?_ before earlier) reply stepped
        rw [Stages.real,List.length_append]
        exact real
      · obtain ⟨next,stepped,same⟩ := bind_ok last
        cases stepped
        cases same
        exact writeFake_wrapped size wrapped _

theorem close_sealed (lawful : env.Lawful) (size : cfg.object_size_ = n) (sound : Sound cfg env s) (sized : Sized cfg N C s)
    (ops : s.storage_batch.length+cfg.F ≤ cfg.B) (alike : Sealed env n s.proxy) (ran : s.close cfg env choice = .ok t) :
    Sealed env n t.proxy := by
  obtain ⟨swept,qs,p,sweeps,executed,rfl⟩ := close_returned ran
  obtain ⟨stages,followed⟩ := execute_batch_returned executed
  have occupied : ∀ m < stages.real.length, ∀ w, stages.iterate m = .ok w → w.proxy.cache.entries ≠ [] := by
    intro m below w reached empty
    refine evicts_occupied lawful sound ops sized.fakes ⟨swept,qs,sweeps,stages,followed.toFetched,m,below,w,reached,rfl⟩ ?_
    rw [Cache.size_eq,empty]
    rfl
  have same : Sealed env n {s.proxy with runningKeys:=swept,promises:=qs} := ⟨alike.cached,alike.stored⟩
  have whole : stages.iterate (stages.labels.zip stages.responses).length = .ok stages.w := by
    rw [Stages.iterate,List.take_length]
    exact followed.writes
  have wrapped := stages.iterate_wrapped lawful size same followed.toFetched occupied _ whole
  have untouched := (writeBack_unstored cfg choice _ _ _ _ followed.writes).storage
  have middle : Sealed env n stages.middle := Sealed.clearRounds choice.clears ⟨alike.cached,alike.stored⟩
  rw [followed.result]
  refine ⟨wrapped.cached,?_⟩
  dsimp only [Proxy.put_batch]
  rw [untouched]
  exact allSealed_insertAll middle.stored _ wrapped.written

-- What a PUT is to bring.
def OfSize (n : Nat) : Action → Prop
  | .serve (.put _ _ v) => v.length = n
  | _ => True

instance : ∀ action, Decidable (OfSize n action)
  | .serve (.put _ _ _) => inferInstanceAs (Decidable (_ = _))
  | .serve (.get _ _ _) => inferInstanceAs (Decidable True)
  | .close _ => inferInstanceAs (Decidable True)
  | .clear => inferInstanceAs (Decidable True)

theorem retire_sealed (alike : Sealed env n s.proxy) (o : Str) : Sealed env n (s.retire o).proxy := by
  by_cases held : o ∈ s.proxy.cache.held
  · rw [retire_cached held]
    refine ⟨?_,alike.stored⟩
    intro kv member
    rw [Cache.removeKey_entries] at member
    exact alike.cached kv (List.mem_of_mem_filter member)
  · rw [retire_uncached held]
    exact ⟨alike.cached,alike.stored⟩

theorem record_sealed (alike : Sealed env n s.proxy) (item : Str) (ts : Int) (size : v.length = n) :
    Sealed env n (s.record item ts v).proxy := by
  refine ⟨?_,alike.stored⟩
  intro kv member
  simp only [record,Cache.insertIntoCache_entries] at member
  rcases List.mem_cons.mp member with rfl | old
  · exact size
  · exact alike.cached kv (List.mem_of_mem_filter old)

theorem step_sealed (lawful : env.Lawful) (size : cfg.object_size_ = n) (sound : Sound cfg env s) (sized : Sized cfg N C s)
    (now : Conserving cfg s action) (alike : Sealed env n s.proxy) (values : OfSize n action)
    (stepped : Stepped cfg env s action t) (ran : step cfg env s action = .ok t) : Sealed env n t.proxy := by
  cases stepped with
  | get item a b running batch i state => exact ⟨alike.cached,alike.stored⟩
  | put item ts v u wf oldest safe => exact record_sealed (retire_sealed alike _) item ts values
  | close choice _ real fake evicted done => exact close_sealed lawful size sound sized now.2 alike ran
  | clear p cleared =>
    cases ran
    exact alike.clearThread

theorem run_sealed (lawful : env.Lawful) (size : cfg.object_size_ = n) (actions : List Action) (sound : Sound cfg env s)
    (layer : Known s ∧ Sized cfg N C s) (values : ∀ action ∈ actions, OfSize n action)
    (retaining : Admissible (step cfg env) (Retaining cfg) s actions)
    (conserving : Admissible (step cfg env) (Conserving cfg) s actions) (alike : Sealed env n s.proxy)
    (ran : run (step cfg env) s actions = .ok t) : Sealed env n t.proxy := by
  induction actions generalizing s with
  | nil =>
    cases ran
    exact alike
  | cons action rest ih =>
    obtain ⟨next,taken,tail⟩ := run_uncons ran
    obtain ⟨other,same,stepped,after,still⟩ := (sized_layered cfg env N C).step lawful sound layer retaining.1
    rw [taken] at same
    cases same
    exact ih after still (fun a member => values a (List.mem_cons_of_mem _ member)) (retaining.2 _ taken) (conserving.2 _ taken)
      (step_sealed lawful size sound layer.2 conserving.1 alike (values action List.mem_cons_self) stepped taken) tail

theorem loadKeys_sealed (seeds : Nat → Nat) (rows : List (Str × Str)) {i : Nat} {bst after : FrequencySmoother}
    {m filled : Table Str Str} (values : ∀ kv ∈ rows, kv.2.length = n) (alike : AllSealed env n m)
    (ran : loadKeys env seeds i rows bst m = .ok (after,filled)) : AllSealed env n filled := by
  induction rows generalizing i bst m with
  | nil =>
    cases ran
    exact alike
  | cons kv rest ih =>
    unfold loadKeys at ran
    split at ran
    · cases ran
    · exact ih (fun kv member => values kv (List.mem_cons_of_mem _ member))
        (allSealed_insert alike _ ⟨_,kv.2,values kv List.mem_cons_self,rfl⟩) ran

theorem loadFakes_sealed (size : cfg.object_size_ = n) (seeds : Nat → Nat) (count : Nat) (fakes : List FakeDraw)
    {names : List Str} {bst after : FrequencySmoother} {m filled : Table Str Str} (alike : AllSealed env n m)
    (ran : loadFakes cfg env seeds count fakes names bst m = .ok (after,filled)) : AllSealed env n filled := by
  induction fakes generalizing count names bst m with
  | nil =>
    cases count with
    | zero =>
      cases ran
      exact alike
    | succ count => cases ran
  | cons draw rest ih =>
    cases count with
    | zero =>
      cases ran
      exact alike
    | succ count =>
      unfold loadFakes at ran
      dsimp only at ran
      split at ran
      · exact ih _ alike ran
      · split at ran
        · cases ran
        · refine ih _ (allSealed_insert alike _ ⟨_,_,?_,rfl⟩) ran
          rw [EncryptionEngine.gen_random_length]
          exact size

theorem init_sealed (size : cfg.object_size_ = n) (started : Started cfg env draws pairs s)
    (values : ∀ kv ∈ pairs, kv.2.length = n) : Sealed env n s.proxy := by
  obtain ⟨real,loaded,chosen,chosenBst,left,fakeBst,filled,puts,keys,picks,fakes,shape,_⟩ := init_parts cfg draws started.ran
  have nothing : AllSealed env n ∅ := fun l c found => by rw [Table.find_empty] at found; cases found
  have all := loadKeys_sealed draws.seeds pairs values nothing keys
  have fewer : AllSealed env n left := (chooseCached_rule (I:=fun _ _ m => AllSealed env n m)
    (fun _ _ m kv _ alike _ _ => allSealed_eraseAll alike [_]) draws.indices all picks).2
  have whole := loadFakes_sealed size draws.seeds cfg.D draws.fakes fewer fakes
  refine ⟨fun kv member => values kv (started.initial.cached kv member),?_⟩
  intro l c found
  rw [shape] at found
  dsimp only at found
  rw [copied_find (draws.ordered filled.keys)] at found
  exact whole l c found

-- What a ciphertext of the engine can weigh: the value, its separator, a suffix of
-- up to nine bytes, and the padding.
def EncryptionEngine.Sizes (n m : Nat) : Prop := ∃ suffix < 10, m = 16*((n+1+suffix)/16+1)

theorem EncryptionEngine.encrypts_sizes {aes : EncryptionEngine.Aes256Cbc} {rand : Nat} {draws : Nat → Nat}
    (ran : EncryptionEngine.encryptNonDeterministic aes rand draws v = .ok c) : EncryptionEngine.Sizes v.length c.length := by
  unfold EncryptionEngine.encryptNonDeterministic EncryptionEngine.encrypt EncryptionEngine.buffered at ran
  split at ran
  · cases ran
  · split at ran
    · cases ran
    · cases ran
      refine ⟨rand % 10,Nat.mod_lt _ (by decide),?_⟩
      rw [aes.padded,List.length_append,List.length_cons,EncryptionEngine.gen_random_length]
      congr 3
      omega

theorem EncryptionEngine.Sizes.two (sizes : EncryptionEngine.Sizes n m) :
    m = 16*((n+1)/16+1) ∨ m = 16*((n+1)/16+1)+16 := by
  obtain ⟨suffix,few,rfl⟩ := sizes
  omega

def bytesConfig : Config := {sampleConfig with object_size_:=1}

def bytesServer : Server := (init bytesConfig sampleEnv sampleDraws samplePairs).toOption.get (by decide +kernel)

theorem bytesStarted : Started bytesConfig sampleEnv sampleDraws samplePairs bytesServer :=
  ⟨sampleEnv_lawful,samplePairs_loadable,by decide,toOption_get _⟩

end TsWaffle
