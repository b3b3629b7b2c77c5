import TsWaffle.Occupying
import TsWaffle.Rotating
import TsWaffle.Aging
import TsWaffle.Following

namespace TsWaffle
open Text Runs Server
variable {cfg : Config} {env : Env} {s t : Server} {p q : Proxy} {pairs : List (Str × Str)} {draws : Draws} {choice : Choice}
  {operations keys : List Str} {rows : List (Str × Str)} {bst after : FrequencySmoother} {running : ThreadSafeUnorderedMap}
  {alphas : List Int} {clock : Int} {k l : Str} {action : Action}

-- The three kinds of lines in the file of a proxy that records alpha.
inductive AlphaTag where
  | REAL | FAKEREAL | FAKE
  deriving DecidableEq

-- The loops of execute_batch with recording_alpha set: the first two ask for the
-- frequency once more, the third takes it from the tree.
def readKeysRecording (env : Env) (clock : Int) :
    List Str → FrequencySmoother → List (Str × Str) × List Int × FrequencySmoother
  | [],bst => ([],[],bst)
  | key :: rest,bst =>
    let (previousTimeStamp,bst) := bst.getFrequency key
    let (freq,bst) := bst.getFrequency key
    let (rows,alphas,bst) := readKeysRecording env clock rest (bst.setFrequency key clock)
    ((env.label key freq,key) :: rows,(clock-previousTimeStamp) :: alphas,bst)

-- A key that is running would be recorded for ever.
def readFakesRecording (env : Env) (clock : Int) : Nat → FrequencySmoother → ThreadSafeUnorderedMap →
    Except Fault (List (Str × Str) × List Int × FrequencySmoother × ThreadSafeUnorderedMap)
  | 0,fakeBst,running => .ok ([],[],fakeBst,running)
  | n+1,fakeBst,running =>
    match fakeBst.accessTree.toList with
    | [] => .error .undefined
    | fakeMin :: _ =>
      let previousTimeStamp := fakeMin.freq
      let (isPresentInRunningKeys,running) := running.insertIfNotPresent fakeMin.key
      if isPresentInRunningKeys then .error .diverges
      else do
        let (freq,fakeBst) := fakeBst.getFrequency fakeMin.key
        let (rows,alphas,fakeBst,running) ← readFakesRecording env clock n (fakeBst.setFrequency fakeMin.key clock) running
        return ((env.label fakeMin.key freq,fakeMin.key) :: rows,(clock-previousTimeStamp) :: alphas,fakeBst,running)

def executeRecording (cfg : Config) (env : Env) (choice : Choice) (operations : List Str) (s : Proxy) :
    Except Fault (Proxy × List (AlphaTag × Int)) := do
  let s := {s with timeStamp:=s.timeStamp+1}
  let (requested,real,realBst) := readKeysRecording env s.timeStamp operations s.realBst
  let (realKeysNotInCache,runningKeys) ←
    fill s.cache s.EvictedItems (fillCount cfg operations.length) realBst.accessTree.toList s.runningKeys
  let (filled,fakereal,realBst) := readKeysRecording env s.timeStamp realKeysNotInCache realBst
  let (faked,fake,fakeBst,runningKeys) ← readFakesRecording env s.timeStamp cfg.F s.fakeBst runningKeys
  let file := real.map (Prod.mk .REAL) ++ fakereal.map (Prod.mk .FAKEREAL) ++ fake.map (Prod.mk .FAKE)
  let s := {s with realBst:=realBst,fakeBst:=fakeBst,runningKeys:=runningKeys}
  let readBatchMap : Table Str Str := Table.insertAll ∅ (requested ++ filled ++ faked)
  let storage_keys := (requested ++ filled ++ faked).map Prod.fst
  let (responses,s) ← s.get_batch storage_keys
  let s := Proxy.clearRounds choice.clears s
  let w ← writeBack cfg env choice readBatchMap (operations.length+realKeysNotInCache.length) 0
    (storage_keys.zip responses) ⟨s,[],∅,[]⟩
  let s := w.proxy.put_batch w.writeBatch
  let s := {s with EvictedItems:=s.EvictedItems.eraseAll w.tempEvictedItems}
  let (runningKeys,promises) ← s.runningKeys.deliver s.promises
    (fun key => (w.promiseSatisfy.find? key).getD []) (choice.order w.promiseSatisfy.keys)
  return ({s with runningKeys:=runningKeys,promises:=promises,keysNotUsed:=s.keysNotUsed ++ [storage_keys]},file)

def closeRecording (cfg : Config) (env : Env) (s : Server) (choice : Choice) :
    Except Fault (Server × List (AlphaTag × Int)) := do
  let (runningKeys,promises) ← s.proxy.runningKeys.tryClearAllPromises s.proxy.promises choice.walk
  let (proxy,file) ←
    executeRecording cfg env choice s.storage_batch {s.proxy with runningKeys:=runningKeys,promises:=promises}
  return ({s with proxy:=proxy,storage_batch:=[],i:=0},file)

-- What the loops record beside what they do.
def alphasOf (clock : Int) : List Str → FrequencySmoother → List Int
  | [],_ => []
  | key :: rest,bst => (clock-(bst.getFrequency key).1) :: alphasOf clock rest ((bst.getFrequency key).2.setFrequency key clock)

def fakeAlphas (clock : Int) : Nat → FrequencySmoother → List Int
  | 0,_ => []
  | n+1,fakeBst =>
    match fakeBst.accessTree.toList with
    | [] => []
    | fakeMin :: _ =>
      (clock-fakeMin.freq) :: fakeAlphas clock n ((fakeBst.getFrequency fakeMin.key).2.setFrequency fakeMin.key clock)

-- Asking for a frequency twice is asking once.
theorem FrequencySmoother.getFrequency_again (bst : FrequencySmoother) (key : Str) :
    (bst.getFrequency key).2.getFrequency key = bst.getFrequency key := by
  cases found : bst.accessFreqs.find? key with
  | some f =>
    have live : key ∈ bst.accessFreqs := Table.mem_iff.mpr ⟨f,found⟩
    rw [getFrequency_present live,getFrequency_present live]
  | none =>
    simp only [getFrequency,Table.fetch,found]
    simp

theorem readKeys_recorded (env : Env) (clock : Int) (keys : List Str) (bst : FrequencySmoother) :
    readKeysRecording env clock keys bst =
      ((readKeys env clock keys bst).1,alphasOf clock keys bst,(readKeys env clock keys bst).2) := by
  induction keys generalizing bst with
  | nil => rfl
  | cons key rest ih =>
    simp only [readKeysRecording,readKeys,alphasOf,FrequencySmoother.getFrequency_again,ih]

theorem readFakes_recorded (env : Env) (clock : Int) (n : Nat) (bst : FrequencySmoother) (running : ThreadSafeUnorderedMap) :
    readFakesRecording env clock n bst running =
      (readFakes env clock n bst running).map (fun read => (read.1,fakeAlphas clock n bst,read.2)) := by
  induction n generalizing bst running with
  | zero => rfl
  | succ n ih =>
    simp only [readFakesRecording,readFakes,fakeAlphas]
    cases bst.accessTree.toList with
    | nil => rfl
    | cons fakeMin rest =>
      dsimp only
      by_cases busy : (running.insertIfNotPresent fakeMin.key).1 = true
      · rw [if_pos busy,if_pos busy]
        rfl
      · rw [if_neg busy,if_neg busy,ih]
        cases readFakes env clock n ((bst.getFrequency fakeMin.key).2.setFrequency fakeMin.key clock)
          (running.insertIfNotPresent fakeMin.key).2 with
        | error fault => rfl
        | ok read => rfl

def Stages.file (stages : Stages cfg env choice operations p) : List (AlphaTag × Int) :=
  (alphasOf (p.timeStamp+1) operations p.realBst).map (Prod.mk .REAL) ++
    (alphasOf (p.timeStamp+1) stages.filled stages.requested.2).map (Prod.mk .FAKEREAL) ++
    (fakeAlphas (p.timeStamp+1) cfg.F p.fakeBst).map (Prod.mk .FAKE)

-- Recording changes nothing else: a batch does with it what it does without it.
theorem recording_agrees (cfg : Config) (env : Env) (choice : Choice) (operations : List Str) (p : Proxy) :
    Prod.fst <$> executeRecording cfg env choice operations p = execute_batch cfg env choice operations p := by
  have mapped : ∀ {α β : Type} (f : α → β) (x : Except Fault α), x.map f = f <$> x := fun _ _ => rfl
  unfold executeRecording execute_batch
  simp only [readKeys_recorded,readFakes_recorded,mapped,map_bind,bind_map_left,map_pure]

theorem executeRecording_returned {file : List (AlphaTag × Int)}
    (ran : executeRecording cfg env choice operations p = .ok (q,file)) :
    ∃ stages : Stages cfg env choice operations p, stages.Followed q ∧ file = stages.file := by
  unfold executeRecording at ran
  simp only [readKeys_recorded,readFakes_recorded] at ran
  obtain ⟨⟨filled,topped⟩,fills,ran⟩ := bind_ok ran
  obtain ⟨⟨faked,alphas,fakeBst,widened⟩,fakes,ran⟩ := bind_ok ran
  obtain ⟨⟨responses,fetched⟩,replies,ran⟩ := bind_ok ran
  unfold Proxy.get_batch at replies
  obtain ⟨_,replied,same⟩ := bind_ok replies
  cases same
  obtain ⟨w,writes,ran⟩ := bind_ok ran
  obtain ⟨⟨running,promises⟩,delivers,ran⟩ := bind_ok ran
  cases ran
  have plain : readFakes env (p.timeStamp+1) cfg.F p.fakeBst topped = .ok (faked,fakeBst,widened) ∧
      alphas = fakeAlphas (p.timeStamp+1) cfg.F p.fakeBst := by
    dsimp only at fakes
    cases whole : readFakes env (p.timeStamp+1) cfg.F p.fakeBst topped with
    | error fault =>
      rw [whole] at fakes
      cases fakes
    | ok result =>
      obtain ⟨found,left,wide⟩ := result
      rw [whole] at fakes
      cases fakes
      exact ⟨rfl,rfl⟩
  obtain ⟨reads,rfl⟩ := plain
  exact ⟨⟨filled,topped,faked,fakeBst,widened,responses,w,running,promises⟩,
    ⟨⟨fills,reads,replied⟩,writes,delivers,rfl⟩,rfl⟩

-- A label that is read, and the line about it: the label's frequency is as far back
-- as the line says.
def Told (env : Env) (clock : Int) (row : Str × Str) (alpha : Int) : Prop := row.1 = env.label row.2 (clock-alpha)

theorem readKeys_told (env : Env) (clock : Int) (keys : List Str) (bst : FrequencySmoother) :
    List.Forall₂ (Told env clock) (readKeys env clock keys bst).1 (alphasOf clock keys bst) := by
  induction keys generalizing bst with
  | nil => exact .nil
  | cons key rest ih =>
    refine .cons ?_ (ih _)
    unfold Told
    rw [sub_sub_cancel]
    rfl

theorem readFakes_told (env : Env) (clock : Int) (n : Nat) (bst : FrequencySmoother) (running : ThreadSafeUnorderedMap)
    (tree : bst.TreeExact) (ran : readFakes env clock n bst running = .ok (rows,after,widened)) :
    List.Forall₂ (Told env clock) rows (fakeAlphas clock n bst) := by
  induction n generalizing bst running rows after widened with
  | zero =>
    cases ran
    exact .nil
  | succ n ih =>
    simp only [readFakes] at ran
    simp only [fakeAlphas]
    cases listed : bst.accessTree.toList with
    | nil =>
      rw [listed] at ran
      cases ran
    | cons fakeMin others =>
      rw [listed] at ran
      dsimp only at ran ⊢
      by_cases busy : (running.insertIfNotPresent fakeMin.key).1 = true
      · rw [if_pos busy] at ran
        cases ran
      · rw [if_neg busy] at ran
        obtain ⟨later,goes,ran⟩ := bind_ok ran
        cases ran
        have first : fakeMin ∈ bst.accessTree.toList := by
          rw [listed]
          exact List.mem_cons_self
        have current : bst.accessFreqs.find? fakeMin.key = some fakeMin.freq := (tree fakeMin).mp first
        have live : fakeMin.key ∈ bst.accessFreqs := Table.mem_iff.mpr ⟨_,current⟩
        have freq : bst.freq fakeMin.key = fakeMin.freq := by rw [FrequencySmoother.freq,current,Option.getD_some]
        rw [FrequencySmoother.getFrequency_present live] at goes ⊢
        refine .cons ?_ (ih _ _ (FrequencySmoother.setFrequency_tree tree _ _) goes)
        unfold Told
        rw [freq,sub_sub_cancel]

theorem alphasOf_length (clock : Int) (keys : List Str) (bst : FrequencySmoother) :
    (alphasOf clock keys bst).length = keys.length := by
  induction keys generalizing bst with
  | nil => rfl
  | cons key rest ih => simp only [alphasOf,List.length_cons,ih]

theorem fill_length (cache : Cache) (evicted : Table Str Str) (entries : List Entry) {count : Nat}
    {topped : ThreadSafeUnorderedMap} (ran : fill cache evicted count entries running = .ok (keys,topped)) :
    keys.length = count := by
  induction entries generalizing count running keys topped with
  | nil =>
    cases count with
    | zero =>
      cases ran
      rfl
    | succ count => cases ran
  | cons it rest ih =>
    cases count with
    | zero =>
      cases ran
      rfl
    | succ count =>
      rw [fill] at ran
      split at ran
      · dsimp only at ran
        split at ran
        · exact ih ran
        · obtain ⟨⟨later,final⟩,taken,same⟩ := bind_ok ran
          cases same
          rw [List.length_cons,ih taken]
      · exact ih ran

theorem readFakes_live (env : Env) (clock : Int) (n : Nat) (bst : FrequencySmoother) (running : ThreadSafeUnorderedMap)
    (tree : bst.TreeExact) {widened : ThreadSafeUnorderedMap}
    (ran : readFakes env clock n bst running = .ok (rows,after,widened)) :
    rows.length = n ∧ ∀ row ∈ rows, row.2 ∈ bst.accessFreqs := by
  induction n generalizing bst running rows after widened with
  | zero =>
    cases ran
    refine ⟨rfl,?_⟩
    intro row member
    cases member
  | succ n ih =>
    simp only [readFakes] at ran
    cases listed : bst.accessTree.toList with
    | nil =>
      rw [listed] at ran
      cases ran
    | cons fakeMin others =>
      rw [listed] at ran
      dsimp only at ran
      by_cases busy : (running.insertIfNotPresent fakeMin.key).1 = true
      · rw [if_pos busy] at ran
        cases ran
      · rw [if_neg busy] at ran
        obtain ⟨later,goes,ran⟩ := bind_ok ran
        cases ran
        have first : fakeMin ∈ bst.accessTree.toList := by
          rw [listed]
          exact List.mem_cons_self
        have live : fakeMin.key ∈ bst.accessFreqs := Table.mem_iff.mpr ⟨_,(tree fakeMin).mp first⟩
        rw [FrequencySmoother.getFrequency_present live] at goes
        obtain ⟨count,others_live⟩ := ih _ _ (FrequencySmoother.setFrequency_tree tree _ _) goes
        refine ⟨by rw [List.length_cons,count],?_⟩
        intro row member
        rcases List.mem_cons.mp member with rfl | rest
        · exact live
        · exact (FrequencySmoother.setFrequency_live live clock).mp (others_live row rest)

theorem fetchAll_held {m : Table Str Str} (labels : List Str) {got : List Str} (ran : Proxy.fetchAll m labels = .ok got)
    (member : l ∈ labels) : l ∈ m := by
  induction labels generalizing got with
  | nil => cases member
  | cons label rest ih =>
    unfold Proxy.fetchAll at ran
    split at ran
    · cases ran
    · rename_i reply found
      obtain ⟨others,fetched,_⟩ := bind_ok ran
      rcases List.mem_cons.mp member with rfl | later
      · exact Table.mem_iff.mpr ⟨reply,found⟩
      · exact ih fetched later

-- A label is written no earlier than its frequency says.
def Dated (env : Env) (p : Proxy) : Prop :=
  ∀ c ∈ p.calls, c.op = .put_batch → ∀ k f, env.label k f ∈ c.labels → f ≤ c.batch

theorem Initial.dated (lawful : env.Lawful) (start : Initial cfg env pairs s) : Dated env s.proxy := by
  intro c member put k f label
  have listed : env.label k f ∈ logged .put_batch s.proxy.calls := mem_logged.mpr ⟨c,member,put,label⟩
  obtain ⟨other,same,_⟩ := start.labels _ ((start.written _).mp listed)
  obtain ⟨_,rfl⟩ := env.label_injective lawful same
  rw [(start.calls c member).2]

theorem executed_dated (lawful : env.Lawful) (sound : Sound cfg env s) {real fake : List Str} {evicted : List (Str × Str)}
    (done : Executed cfg env s t real fake evicted) (dated : Dated env s.proxy) : Dated env t.proxy := by
  obtain ⟨rounds,calls,deletes⟩ := done.calls
  intro c member put k f label
  rw [calls] at member
  simp only [List.mem_append,List.mem_cons,List.mem_nil_iff,or_false] at member
  rcases member with old | (rfl | round) | rfl
  · exact dated c old put k f label
  · cases put
  · rw [(deletes c round).1] at put
    cases put
  · rcases List.mem_append.mp label with wasReal | wasFake
    · obtain ⟨kv,gone,same⟩ := List.mem_map.mp wasReal
      obtain ⟨_,rfl⟩ := env.label_injective lawful same
      exact (executed_resident lawful sound done).age _ _ (FrequencySmoother.freq_find (done.evicted_freq sound gone).1)
    · obtain ⟨fakeKey,_,same⟩ := List.mem_map.mp wasFake
      obtain ⟨_,rfl⟩ := env.label_injective lawful same
      exact le_refl _

theorem Stepped.dated (lawful : env.Lawful) (stepped : Stepped cfg env s action t) (sound : Sound cfg env s)
    (dated : Dated env s.proxy) : Dated env t.proxy := by
  cases stepped with
  | get item a b running batch i state => exact dated
  | put item ts v u wf oldest safe =>
    intro c member
    rw [put_calls] at member
    exact dated c member
  | close choice _ real fake evicted done => exact executed_dated lawful sound done dated
  | clear p cleared =>
    obtain ⟨rounds,calls,deletes⟩ := cleared.deletes
    intro c member put
    rw [calls] at member
    rcases List.mem_append.mp member with old | round
    · exact dated c old put
    · rw [(deletes c round).1] at put
      cases put

theorem dated_layered (lawful : env.Lawful) (cfg : Config) (N C : Nat) :
    Layered cfg env (Retaining cfg) (fun s => ((Known s ∧ Sized cfg N C s) ∧ Ledger env s.proxy) ∧ Dated env s.proxy) := by
  refine ((sized_layered cfg env N C).add ?_).add ?_
  · intro s action t sound layer ledger now stepped
    exact stepped.ledger lawful sound (growing_behind layer.1 now.1) ledger
  · intro s action t sound layer dated now stepped
    exact stepped.dated lawful sound dated

-- What a line says of the label it is about: it does not understate the batches since
-- the label was written; for a fake key it counts them exactly, and not more than
-- D/F, rounded up.
def Covered (cfg : Config) (p : Proxy) (label : Str) (line : AlphaTag × Int) : Prop :=
  ∃ c ∈ p.calls, c.op = .put_batch ∧ label ∈ c.labels ∧ c.batch ≤ p.timeStamp ∧ p.timeStamp+1-c.batch ≤ line.2 ∧
    (line.1 = .FAKE → line.2 = p.timeStamp+1-c.batch ∧ line.2 ≤ (((cfg.D+cfg.F-1)/cfg.F : Nat) : Int))

theorem fakeAlphas_bounded (clock : Int) (n : Nat) (bst : FrequencySmoother) (tree : bst.TreeExact) {most : Int}
    (least : 0 ≤ most) (bound : ∀ k f, bst.accessFreqs.find? k = some f → clock-f ≤ most) :
    ∀ alpha ∈ fakeAlphas clock n bst, alpha ≤ most := by
  induction n generalizing bst with
  | zero =>
    intro alpha member
    cases member
  | succ n ih =>
    simp only [fakeAlphas]
    cases listed : bst.accessTree.toList with
    | nil =>
      intro alpha member
      cases member
    | cons fakeMin others =>
      have first : fakeMin ∈ bst.accessTree.toList := by
        rw [listed]
        exact List.mem_cons_self
      have current : bst.accessFreqs.find? fakeMin.key = some fakeMin.freq := (tree fakeMin).mp first
      dsimp only
      rw [FrequencySmoother.getFrequency_present (Table.mem_iff.mpr ⟨_,current⟩)]
      intro alpha member
      rcases List.mem_cons.mp member with rfl | later
      · exact bound _ _ current
      · refine ih _ (FrequencySmoother.setFrequency_tree tree _ _) ?_ alpha later
        intro k f found
        rw [FrequencySmoother.setFrequency_freqs] at found
        split at found
        · cases found
          omega
        · exact bound k f found

theorem real_covered (ledger : Ledger env p) (dated : Dated env p) {tag : AlphaTag} (real : tag ≠ .FAKE)
    {row : Str × Str} {alpha : Int} (told : Told env (p.timeStamp+1) row alpha) (held : row.1 ∈ p.storage) :
    Covered cfg p row.1 (tag,alpha) := by
  obtain ⟨c,member,put,label⟩ := mem_logged.mp (ledger.backed row.1 held)
  have named := label
  rw [told] at named
  have since := dated c member put row.2 _ named
  refine ⟨c,member,put,label,ledger.aged c member put,?_,fun fake => absurd fake real⟩
  dsimp only
  omega

theorem fake_covered (ledger : Ledger env s.proxy) (rotating : Rotating cfg env s) {row : Str × Str} {alpha : Int}
    (told : Told env (s.proxy.timeStamp+1) row alpha) (live : row.2 ∈ s.proxy.fakeBst.accessFreqs)
    (bound : alpha ≤ (((cfg.D+cfg.F-1)/cfg.F : Nat) : Int)) (held : row.1 ∈ s.proxy.storage) :
    Covered cfg s.proxy row.1 (.FAKE,alpha) := by
  obtain ⟨c,member,put,label⟩ := mem_logged.mp (ledger.backed row.1 held)
  have named := label
  rw [told] at named
  have since := (rotating.recalled c member put row.2 live _ named).1
  refine ⟨c,member,put,label,ledger.aged c member put,?_,fun _ => ⟨?_,bound⟩⟩
  · dsimp only
    omega
  · dsimp only
    omega

theorem covered_part {tag : AlphaTag} (told : List.Forall₂ (Told env clock) rows alphas)
    (each : ∀ row ∈ rows, ∀ alpha ∈ alphas, Told env clock row alpha → Covered cfg p row.1 (tag,alpha)) :
    List.Forall₂ (Covered cfg p) (rows.map Prod.fst) (alphas.map (Prod.mk tag)) := by
  induction told with
  | nil => exact .nil
  | cons first rest ih =>
    refine .cons (each _ List.mem_cons_self _ List.mem_cons_self first) (ih ?_)
    intro row member alpha listed
    exact each row (List.mem_cons_of_mem _ member) alpha (List.mem_cons_of_mem _ listed)

theorem tags_replicate (tag : AlphaTag) (alphas : List Int) :
    (alphas.map (Prod.mk tag)).map Prod.fst = List.replicate alphas.length tag := by
  rw [List.map_map]
  exact List.map_const'

theorem closeRecording_returned {u : Server} {file : List (AlphaTag × Int)}
    (recorded : closeRecording cfg env t choice = .ok (u,file)) :
    ∃ swept promises q, t.proxy.runningKeys.tryClearAllPromises t.proxy.promises choice.walk = .ok (swept,promises) ∧
      executeRecording cfg env choice t.storage_batch {t.proxy with runningKeys:=swept,promises:=promises} = .ok (q,file) ∧
      u = {t with proxy:=q,storage_batch:=[],i:=0} := by
  unfold closeRecording at recorded
  obtain ⟨⟨swept,promises⟩,sweeps,rest⟩ := bind_ok recorded
  obtain ⟨⟨q,lines⟩,executes,same⟩ := bind_ok rest
  cases same
  exact ⟨swept,promises,q,sweeps,executes,rfl⟩

theorem Stages.file_tags {stages : Stages cfg env choice operations p} (fetched : stages.Fetched) (tree : p.fakeBst.TreeExact) :
    stages.file.map Prod.fst = List.replicate operations.length .REAL ++
      List.replicate (fillCount cfg operations.length) .FAKEREAL ++ List.replicate cfg.F .FAKE := by
  have told := readFakes_told env _ _ _ _ tree fetched.fakes
  obtain ⟨count,_⟩ := readFakes_live env _ _ _ _ tree fetched.fakes
  have filled := fill_length _ _ _ fetched.fills
  rw [Stages.file,List.map_append,List.map_append,tags_replicate,tags_replicate,tags_replicate,alphasOf_length,
    alphasOf_length,← told.length_eq,filled,count]

theorem Stages.file_covered {stages : Stages cfg env choice operations p} (fetched : stages.Fetched)
    (ledger : Ledger env s.proxy) (dated : Dated env s.proxy) (rotating : Rotating cfg env s) (positive : 1 ≤ cfg.F)
    (enough : cfg.F ≤ cfg.D) (clock : p.timeStamp = s.proxy.timeStamp) (storage : p.storage = s.proxy.storage)
    (fakeBst : p.fakeBst = s.proxy.fakeBst) : List.Forall₂ (Covered cfg s.proxy) stages.labels stages.file := by
  have tree : p.fakeBst.TreeExact := by
    rw [fakeBst]
    exact rotating.tree
  have held : ∀ row ∈ stages.rows, row.1 ∈ s.proxy.storage := by
    intro row member
    rw [← storage]
    exact fetchAll_held _ fetched.replies (List.mem_map_of_mem member)
  obtain ⟨_,live⟩ := readFakes_live env _ _ _ _ tree fetched.fakes
  have told := readFakes_told env _ _ _ _ tree fetched.fakes
  have rounds : (cfg.D+cfg.F-1)/cfg.F = (cfg.D-1)/cfg.F+1 := by
    have shape : cfg.D+cfg.F-1 = cfg.D-1+cfg.F := by omega
    rw [shape,Nat.add_div_right _ positive]
  unfold Stages.labels Stages.rows Stages.file
  rw [List.map_append,List.map_append]
  refine List.rel_append (List.rel_append ?_ ?_) ?_
  · refine covered_part (readKeys_told env _ _ _) ?_
    intro row member alpha _ told
    rw [clock] at told
    exact real_covered ledger dated (by decide) told (held row (by simp [Stages.rows,member]))
  · refine covered_part (readKeys_told env _ _ _) ?_
    intro row member alpha _ told
    rw [clock] at told
    exact real_covered ledger dated (by decide) told (held row (by simp [Stages.rows,member]))
  · refine covered_part told ?_
    intro row member alpha listed told
    rw [clock] at told
    refine fake_covered ledger rotating told (fakeBst ▸ live row member) ?_ (held row (by simp [Stages.rows,member]))
    refine fakeAlphas_bounded _ _ _ tree (by positivity) ?_ alpha listed
    intro k f found
    rw [fakeBst] at found
    have aged := rotating.paced.age positive (Table.mem_keys.mpr (Table.mem_iff.mpr ⟨f,found⟩))
    rw [FrequencySmoother.freq,found,Option.getD_some] at aged
    rw [rounds,clock]
    push_cast at aged ⊢
    omega

-- Two requested keys, read into the cache at different times, and a fake one.
def recordedSample : Except Fault (Server × List (AlphaTag × Int)) :=
  run (step sampleConfig sampleEnv) sampleServer sampleActions >>= (closeRecording sampleConfig sampleEnv · sampleChoice)

theorem recordedSample_file :
    recordedSample.toOption.map Prod.snd = some [(.REAL,1),(.REAL,2),(.FAKE,1)] := by decide +kernel

end TsWaffle
