import TsWaffle.Closing
import TsWaffle.Returning

namespace TsWaffle
open Text Runs
variable {cfg : Config} {env : Env} {s : Server} {choice : Choice} {swept : ThreadSafeUnorderedMap} {qs : Promises}

-- A fill loop that returns has found as many eligible entries as it was asked for.
theorem fill_enough (cache : Cache) (evicted : Table Str Str) (entries : List Entry)
    (distinct : (entries.map Entry.key).Nodup) {running : ThreadSafeUnorderedMap}
    (ran : fill cache evicted count entries running = .ok out) :
    count ≤ (entries.filter (fun e => Eligible cache evicted running e)).length := by
  induction entries generalizing count running out with
  | nil =>
    cases count with
    | zero => exact Nat.zero_le _
    | succ count => cases ran
  | cons it rest ih =>
    cases count with
    | zero => exact Nat.zero_le _
    | succ count =>
      obtain ⟨absent,tail⟩ := List.nodup_cons.mp distinct
      have unchanged : rest.filter (fun e => Eligible cache evicted (running.insertIfNotPresent it.key).2 e) =
          rest.filter (fun e => Eligible cache evicted running e) := eligible_rest absent
      have shorter : (rest.filter (fun e => Eligible cache evicted running e)).length ≤
          ((it :: rest).filter (fun e => Eligible cache evicted running e)).length :=
        ((List.sublist_cons_self it rest).filter _).length_le
      rw [fill] at ran
      split at ran
      · rename_i out_
        dsimp only at ran
        split at ran
        · have bound := ih tail ran
          rw [unchanged] at bound
          omega
        · rename_i idle
          obtain ⟨more,taken,_⟩ := bind_ok ran
          have bound := ih tail taken
          rw [unchanged] at bound
          have eligible : Eligible cache evicted running it := by
            refine ⟨?_,out_.2,Bool.eq_false_iff.mpr idle⟩
            intro held
            rw [Cache.checkIfKeyExists_iff.mpr held] at out_
            cases out_.1
          simp only [List.filter_cons,eligible,decide_true,if_true,List.length_cons]
          omega
      · have bound := ih tail ran
        omega

-- The keys the fake loop can still take without spinning.
def idleFakes (bst : FrequencySmoother) (running : ThreadSafeUnorderedMap) : Finset Str :=
  bst.accessFreqs.keys.toFinset.filter (fun k => running.present k = false)

theorem mem_idleFakes {bst : FrequencySmoother} {running : ThreadSafeUnorderedMap} {k : Str} :
    k ∈ idleFakes bst running ↔ k ∈ bst.accessFreqs ∧ running.present k = false := by
  rw [idleFakes,Finset.mem_filter,List.mem_toFinset,Table.mem_keys]

theorem readFakes_enough (env : Env) (clock : Int) (n : Nat) {bst : FrequencySmoother} {running : ThreadSafeUnorderedMap}
    (tree : bst.TreeExact) (ran : readFakes env clock n bst running = .ok out) : n ≤ (idleFakes bst running).card := by
  induction n generalizing bst running out with
  | zero => exact Nat.zero_le _
  | succ n ih =>
    unfold readFakes at ran
    split at ran
    · cases ran
    · rename_i fakeMin rest shape
      dsimp only at ran
      split at ran
      · cases ran
      · rename_i idle
        have listed : fakeMin ∈ bst.accessTree := by
          rw [← OrderedSet.mem_toList,shape]
          exact List.mem_cons_self
        have live : fakeMin.key ∈ bst.accessFreqs := Table.mem_iff.mpr ⟨fakeMin.freq,(tree fakeMin).mp listed⟩
        obtain ⟨_,taken,_⟩ := bind_ok ran
        rw [FrequencySmoother.getFrequency_present live] at taken
        have bound := ih (FrequencySmoother.setFrequency_tree tree _ _) taken
        have first : fakeMin.key ∈ idleFakes bst running := mem_idleFakes.mpr ⟨live,Bool.eq_false_iff.mpr idle⟩
        have fewer : idleFakes (bst.setFrequency fakeMin.key clock) (running.insertIfNotPresent fakeMin.key).2 ⊆
            (idleFakes bst running).erase fakeMin.key := by
          intro k member
          obtain ⟨present,free⟩ := mem_idleFakes.mp member
          rw [FrequencySmoother.setFrequency_live live] at present
          rw [Bool.eq_false_iff,ne_eq,ThreadSafeUnorderedMap.insertIfNotPresent_present,not_or] at free
          exact Finset.mem_erase.mpr ⟨free.1,mem_idleFakes.mpr ⟨present,Bool.eq_false_iff.mpr free.2⟩⟩
        have card := Finset.card_le_card fewer
        rw [Finset.card_erase_of_mem first] at card
        have positive := Finset.card_pos.mpr ⟨_,first⟩
        omega

theorem swept_present (sound : Sound cfg env s) (choice : Choice)
    (sweeps : s.proxy.runningKeys.tryClearAllPromises s.proxy.promises choice.walk = .ok (swept,qs)) (k : Str) :
    swept.present k = true ↔ k ∈ s.storage_batch := by
  obtain ⟨plain,waiting⟩ := ThreadSafeUnorderedMap.tryClearAllPromises_present sound.building.registered
    choice.walk (choice.walked _) sweeps
  rw [← sound.building.running k]
  simp [ThreadSafeUnorderedMap.present,plain,waiting]

-- A batch whose two loops have returned fits.
theorem returned_fits (sound : Sound cfg env s) (ops : s.storage_batch.length+cfg.F ≤ cfg.B)
    (fakes : s.proxy.fakeBst.accessFreqs.keys.length ≤ cfg.D)
    (present : ∀ k, swept.present k = true ↔ k ∈ s.storage_batch)
    (fills : fill s.proxy.cache s.proxy.EvictedItems (fillCount cfg s.storage_batch.length)
      (readKeys env (s.proxy.timeStamp+1) s.storage_batch s.proxy.realBst).2.accessTree.toList swept = .ok out)
    (faking : readFakes env (s.proxy.timeStamp+1) cfg.F s.proxy.fakeBst running = .ok faked) : Fits cfg s := by
  have live : ∀ k ∈ s.storage_batch, k ∈ s.proxy.realBst.accessFreqs := fun k member => (sound.building.absent k member).1
  have tree := (readKeys_exact env (s.proxy.timeStamp+1) _ _ live sound.resident.exact).tree
  have freqs := fun a => readKeys_freqs env (s.proxy.timeStamp+1) _ _ a live
  generalize readKeys env (s.proxy.timeStamp+1) s.storage_batch s.proxy.realBst = pair at fills tree freqs
  have keys := FrequencySmoother.tree_keys_nodup tree
  have enough := fill_enough _ _ _ keys fills
  rw [fillCount_exact cfg ops] at enough
  refine ⟨ops,?_,?_⟩
  · have idle := readFakes_enough env _ _ sound.resident.fakeTree faking
    have few : (idleFakes s.proxy.fakeBst running).card ≤ s.proxy.fakeBst.accessFreqs.keys.length :=
      (Finset.card_le_card (Finset.filter_subset _ _)).trans (List.toFinset_card_le _)
    omega
  · have chosen : ((pair.2.accessTree.toList.filter
        (fun e => Eligible s.proxy.cache s.proxy.EvictedItems swept e)).map Entry.key).Nodup :=
      keys.sublist (List.Sublist.map _ List.filter_sublist)
    have apart : (((pair.2.accessTree.toList.filter
        (fun e => Eligible s.proxy.cache s.proxy.EvictedItems swept e)).map Entry.key) ++ s.storage_batch).Nodup := by
      refine List.nodup_append.mpr ⟨chosen,sound.building.distinct,?_⟩
      intro a left b right same
      subst same
      obtain ⟨e,listed,rfl⟩ := List.mem_map.mp left
      have eligible : Eligible s.proxy.cache s.proxy.EvictedItems swept e := by simpa using (List.mem_filter.mp listed).2
      have busy := (present e.key).mpr right
      rw [eligible.2.2] at busy
      cases busy
    have inside : ((pair.2.accessTree.toList.filter
        (fun e => Eligible s.proxy.cache s.proxy.EvictedItems swept e)).map Entry.key) ++ s.storage_batch ⊆
        uncachedKeys s.proxy := by
      intro k member
      rw [uncachedKeys,List.mem_filter,Table.mem_keys,decide_eq_true_eq]
      rcases List.mem_append.mp member with left | right
      · obtain ⟨e,listed,rfl⟩ := List.mem_map.mp left
        obtain ⟨inTree,eligible⟩ := List.mem_filter.mp listed
        have found := (tree e).mp (OrderedSet.mem_toList.mp inTree)
        rw [freqs] at found
        refine ⟨?_,(of_decide_eq_true eligible).1⟩
        split at found
        · rename_i batch; exact live _ batch
        · exact Table.mem_iff.mpr ⟨_,found⟩
      · exact ⟨live k right,(sound.building.absent k right).2⟩
    have fewer := (List.subperm_of_subset apart inside).length_le
    rw [List.length_append,List.length_map] at fewer
    omega

-- The stages of a batch in terms of the state it is closed in.
structure Staged (s : Server) (qs : Promises)
    (stages : Stages cfg env choice s.storage_batch {s.proxy with runningKeys:=swept,promises:=qs}) : Prop where
  fits : Fits cfg s
  filled : ∀ k ∈ stages.filled, k ∉ s.storage_batch
  plan : Plan cfg s.proxy stages.real stages.fake
  moved : Moved s.proxy stages.real stages.fake stages.topping.2 stages.fakeBst
  rows : stages.rows = batchRows env s.proxy stages.real stages.fake
  middle : Cleared (fetching env s.proxy stages.real stages.fake stages.topping.2 stages.fakeBst stages.widened qs)
    stages.middle
  zipped : stages.labels.zip stages.responses = replies s.proxy.storage (realRows env s.proxy stages.real) ++
    replies s.proxy.storage (fakeRows env s.proxy stages.fake)

theorem Stages.Fetched.staged {stages : Stages cfg env choice s.storage_batch {s.proxy with runningKeys:=swept,promises:=qs}}
    (sound : Sound cfg env s) (ops : s.storage_batch.length+cfg.F ≤ cfg.B)
    (fakes : s.proxy.fakeBst.accessFreqs.keys.length ≤ cfg.D)
    (sweeps : s.proxy.runningKeys.tryClearAllPromises s.proxy.promises choice.walk = .ok (swept,qs))
    (reached : stages.Fetched) : Staged s qs stages := by
  have present := swept_present sound choice sweeps
  have fits := returned_fits sound ops fakes present reached.fills reached.fakes
  obtain ⟨first,filled,topped,bst,fake,fakeBst,widened,requested,filling,topping,faking,plan,moved,_⟩ :=
    reading_phase sound fits present
  have one : stages.requested = (realRows env s.proxy s.storage_batch,first) := requested
  have same := reached.fills
  rw [one] at same
  obtain ⟨sameFilled,sameTopped⟩ := Prod.mk.inj (Except.ok.inj (same.symm.trans filling))
  have two : stages.topping = (realRows env s.proxy stages.filled,bst) := by
    rw [Stages.topping,one,sameFilled]
    exact topping
  have three := reached.fakes
  rw [sameTopped] at three
  obtain ⟨sameRows,sameFake⟩ := Prod.mk.inj (Except.ok.inj (three.symm.trans faking))
  have fakeNames : stages.fake = fake := by
    rw [Stages.fake,sameRows,fakeRows,List.map_map]
    exact List.map_id fake
  rw [← sameFilled,← fakeNames] at plan moved
  rw [← (Prod.mk.inj sameFake).1] at moved
  have batchRow : stages.rows = batchRows env s.proxy stages.real stages.fake := by
    rw [Stages.rows,one,two,sameRows,← fakeNames,batchRows,Stages.real,realRows,realRows,realRows,List.map_append]
  have labels : stages.labels = readLabels env s.proxy stages.real stages.fake := by
    rw [Stages.labels,batchRow]
    rfl
  have responses : stages.responses = stages.labels.map (fun l => (s.proxy.storage.find? l).getD []) := by
    have fetched := fetchAll_present s.proxy.storage stages.labels (by
      rw [labels]
      exact (rows_stored sound.resident plan).1)
    exact Except.ok.inj (reached.replies.symm.trans fetched)
  have secondBst : stages.topping.2 = bst := by rw [two]
  refine ⟨fits,?_,plan,by rw [secondBst]; exact moved,batchRow,?_,?_⟩
  · intro k member listed
    have whole := plan.distinct
    exact (List.nodup_append.mp whole).2.2 k listed k member rfl
  · have cleared := clearRounds_cleared choice.clears
      (fetching env s.proxy stages.real stages.fake stages.topping.2 stages.fakeBst stages.widened qs)
    have same : Proxy.clearRounds choice.clears
        (fetching env s.proxy stages.real stages.fake stages.topping.2 stages.fakeBst stages.widened qs) = stages.middle := by
      rw [Stages.middle,labels]
      rfl
    rw [same] at cleared
    exact cleared
  · rw [responses,Stages.labels,batchRow]
    have whole := zip_replies s.proxy.storage (batchRows env s.proxy stages.real stages.fake)
    rw [whole]
    exact List.map_append

-- The loop after n replies: as many of the real keys have arrived, and the fake
-- replies change nothing but the write batch and what is to be delivered.
theorem Staged.iterations (lawful : env.Lawful) (sound : Sound cfg env s)
    {stages : Stages cfg env choice s.storage_batch {s.proxy with runningKeys:=swept,promises:=qs}}
    (staged : Staged s qs stages) (n : Nat) :
    ∃ w evicted writeBatch satisfied,
      stages.iterate n = .ok {w with writeBatch:=writeBatch,promiseSatisfy:=satisfied} ∧
      Progress env stages.middle ((stages.real.take n).map (fun k => (k,(s.last k).getD []))) evicted w := by
  have mids := staged.middle.untouched
  have plan := staged.plan
  have evictable := fetching_evictable sound plan staged.moved staged.middle
  have arrived := real_arrivals lawful sound plan
  have faked := fake_arrivals lawful sound plan
  rw [← staged.rows] at arrived faked
  have length : (replies s.proxy.storage (realRows env s.proxy stages.real)).length = stages.real.length := by
    simp [replies,realRows]
  have size : stages.real.length = s.storage_batch.length+stages.filled.length := List.length_append
  have part : arrivals env (Table.insertAll ∅ stages.rows)
      ((replies s.proxy.storage (realRows env s.proxy stages.real)).take n) =
      (stages.real.take n).map (fun k => (k,(s.last k).getD [])) := by
    rw [arrivals,List.map_take,← arrivals,arrived,List.map_take]
  have keys : ((stages.real.take n).map (fun k => (k,(s.last k).getD []))).map Prod.fst = stages.real.take n := by
    rw [List.map_map]
    exact List.map_id _
  obtain ⟨w,evicted,ran,state⟩ := writeBack_real lawful cfg choice (Table.insertAll ∅ stages.rows) evictable
    ((replies s.proxy.storage (realRows env s.proxy stages.real)).take n)
    (s.storage_batch.length+stages.filled.length) 0 (by
      rw [List.length_take,length,size]
      omega)
    (Progress.start env stages.middle evictable)
    (by rw [List.nil_append,part,keys]; exact plan.distinct.sublist (List.take_sublist n _))
    (by
      rw [List.nil_append,part,keys,mids.realBst]
      exact fun k member => (moved_live plan staged.moved).mpr (plan.live k (List.mem_of_mem_take member)))
    (by
      rw [part,keys,mids.cache]
      exact fun k member => plan.uncached k (List.mem_of_mem_take member))
  rw [List.nil_append,part] at state
  have fakeSame : w.proxy.fakeBst = stages.fakeBst := by rw [state.frame]; exact mids.fakeBst
  by_cases within : n ≤ stages.real.length
  · refine ⟨w,evicted,w.writeBatch,w.promiseSatisfy,?_,state⟩
    rw [Stages.iterate,staged.zipped,List.take_append_of_le_length (by rw [length]; exact within)]
    exact ran
  · obtain ⟨more,later,_⟩ := writeBack_fake cfg env choice (Table.insertAll ∅ stages.rows)
      ((replies s.proxy.storage (fakeRows env s.proxy stages.fake)).take (n-stages.real.length))
      (s.storage_batch.length+stages.filled.length) (s.storage_batch.length+stages.filled.length) (le_refl _) w (by
        rw [arrivals,List.map_take,← arrivals,List.map_take,faked,fakeSame]
        exact fun k member => (moved_fake plan staged.moved).mpr (plan.fakeLive k (List.mem_of_mem_take member)))
    refine ⟨w,evicted,_,_,Eq.trans ?_ later,state⟩
    have whole : (replies s.proxy.storage (realRows env s.proxy stages.real)).take n =
        replies s.proxy.storage (realRows env s.proxy stages.real) := List.take_of_length_le (by omega)
    rw [whole] at ran
    rw [Stages.iterate,staged.zipped,List.take_append,whole,writeBack_append,ran,length,Nat.zero_add,size]
    rfl

end TsWaffle
