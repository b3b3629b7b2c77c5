import TsWaffle.Proxy

namespace TsWaffle
open Text

theorem Env.label_injective {env : Env} (lawful : env.Lawful) (same : env.label k f = env.label l g) :
    k = l ∧ f = g := by
  obtain ⟨keys,texts⟩ := split_last (hash_notMem f) (hash_notMem g) (lawful.injective same)
  exact ⟨keys,to_string_injective texts⟩

namespace FrequencySmoother
variable {s : FrequencySmoother}

def freq (s : FrequencySmoother) (k : Str) : Int := (s.accessFreqs.find? k).getD 0

theorem freq_find (live : k ∈ s.accessFreqs) : s.accessFreqs.find? k = some (s.freq k) := by
  obtain ⟨f,found⟩ := Table.mem_iff.mp live
  simp [freq,found]

theorem getFrequency_present (live : k ∈ s.accessFreqs) : s.getFrequency k = (s.freq k,s) := by
  rw [getFrequency,Table.fetch_present (freq_find live)]

theorem setFrequency_live (live : k ∈ s.accessFreqs) (value : Int) :
    a ∈ (s.setFrequency k value).accessFreqs ↔ a ∈ s.accessFreqs := by
  rw [Table.mem_iff,Table.mem_iff]
  by_cases same : a = k
  · subst same; simpa using Table.mem_iff.mp live
  · simp [same]

end FrequencySmoother

-- What reading a list of distinct live keys does: one row for each key under its
-- old frequency, and the clock as its new one.
theorem readKeys_rows (env : Env) (clock : Int) (keys : List Str) (bst : FrequencySmoother)
    (distinct : keys.Nodup) (live : ∀ k ∈ keys, k ∈ bst.accessFreqs) :
    (readKeys env clock keys bst).1 = keys.map (fun k => (env.label k (bst.freq k),k)) := by
  induction keys generalizing bst with
  | nil => rfl
  | cons key rest ih =>
    obtain ⟨absent,tail⟩ := List.nodup_cons.mp distinct
    have present := live key List.mem_cons_self
    simp only [readKeys,FrequencySmoother.getFrequency_present present,List.map_cons]
    rw [ih (bst.setFrequency key clock) tail]
    · congr 1
      apply List.map_congr_left
      intro k member
      have other : k ≠ key := by intro same; exact absent (same ▸ member)
      simp [FrequencySmoother.freq,other]
    · intro k member
      exact (FrequencySmoother.setFrequency_live present clock).mpr (live k (List.mem_cons_of_mem _ member))

theorem readKeys_freqs (env : Env) (clock : Int) (keys : List Str) (bst : FrequencySmoother) (a : Str)
    (live : ∀ k ∈ keys, k ∈ bst.accessFreqs) :
    (readKeys env clock keys bst).2.accessFreqs.find? a =
      if a ∈ keys then some clock else bst.accessFreqs.find? a := by
  induction keys generalizing bst with
  | nil => rfl
  | cons key rest ih =>
    have present := live key List.mem_cons_self
    simp only [readKeys,FrequencySmoother.getFrequency_present present]
    rw [ih (bst.setFrequency key clock)]
    · by_cases same : a = key <;> by_cases later : a ∈ rest <;> simp [same,later]
    · intro k member
      exact (FrequencySmoother.setFrequency_live present clock).mpr (live k (List.mem_cons_of_mem _ member))

theorem readKeys_exact (env : Env) (clock : Int) (keys : List Str) (bst : FrequencySmoother)
    (live : ∀ k ∈ keys, k ∈ bst.accessFreqs) (valid : bst.Exact) : (readKeys env clock keys bst).2.Exact := by
  induction keys generalizing bst with
  | nil => exact valid
  | cons key rest ih =>
    have present := live key List.mem_cons_self
    simp only [readKeys,FrequencySmoother.getFrequency_present present]
    apply ih
    · intro k member
      exact (FrequencySmoother.setFrequency_live present clock).mpr (live k (List.mem_cons_of_mem _ member))
    · exact FrequencySmoother.setFrequency_exact valid present clock

namespace ThreadSafeUnorderedMap

theorem present_iff (s : ThreadSafeUnorderedMap) (k : Str) :
    s.present k = true ↔ k ∈ s.m_map_ ∨ k ∈ s.get_map := by
  simp [present]

theorem insertIfNotPresent_present (s : ThreadSafeUnorderedMap) (key k : Str) :
    (s.insertIfNotPresent key).2.present k = true ↔ k = key ∨ s.present k = true := by
  simp [insertIfNotPresent,present_iff,or_assoc]

-- The keys a loop of insertIfNotPresent calls has added, beside those running before.
structure Widened (s t : ThreadSafeUnorderedMap) (keys : List Str) : Prop where
  shape : t = {s with m_map_:=t.m_map_}
  plain : ∀ k ∈ t.m_map_, s.present k = true ∨ k ∈ keys

theorem Widened.refl (s : ThreadSafeUnorderedMap) : Widened s s [] :=
  ⟨rfl,fun k member => .inl ((s.present_iff k).mpr (.inl member))⟩

theorem Widened.present (wide : Widened s t keys) (running : t.present k = true) :
    s.present k = true ∨ k ∈ keys := by
  rcases (t.present_iff k).mp running with plain | waiting
  · exact wide.plain k plain
  · rw [wide.shape] at waiting
    exact .inl ((s.present_iff k).mpr (.inr waiting))

theorem Widened.insert (wide : Widened (s.insertIfNotPresent key).2 t keys) :
    Widened s t (key :: keys) := by
  refine ⟨?_,?_⟩
  · rw [wide.shape]; rfl
  · intro k member
    rcases wide.plain k member with before | later
    · rcases (insertIfNotPresent_present s key k).mp before with rfl | old
      · exact .inr List.mem_cons_self
      · exact .inl old
    · exact .inr (List.mem_cons_of_mem _ later)

theorem Widened.again (wide : Widened (s.insertIfNotPresent key).2 t keys) (was : s.present key = true) :
    Widened s t keys := by
  refine ⟨wide.insert.shape,?_⟩
  intro k member
  rcases wide.plain k member with before | later
  · rcases (insertIfNotPresent_present s key k).mp before with rfl | old
    · exact .inl was
    · exact .inl old
  · exact .inr later

theorem Widened.trans (one : Widened s t keys) (two : Widened t u more) : Widened s u (keys ++ more) := by
  refine ⟨?_,?_⟩
  · rw [two.shape,one.shape]
  · intro k member
    rcases two.plain k member with before | later
    · rcases one.present before with old | added
      · exact .inl old
      · exact .inr (List.mem_append_left _ added)
    · exact .inr (List.mem_append_right _ later)

end ThreadSafeUnorderedMap

-- A tree entry the fill loop takes when it comes to it.
def Eligible (cache : Cache) (evicted : Table Str Str) (running : ThreadSafeUnorderedMap) (e : Entry) : Prop :=
  e.key ∉ cache.held ∧ e.key ∉ evicted ∧ running.present e.key = false

instance : Decidable (Eligible cache evicted running e) := inferInstanceAs (Decidable (_ ∧ _))

theorem Eligible.insert_other {e : Entry} (other : e.key ≠ key) :
    Eligible cache evicted (running.insertIfNotPresent key).2 e ↔ Eligible cache evicted running e := by
  have same : (running.insertIfNotPresent key).2.present e.key = running.present e.key := by
    rw [Bool.eq_iff_iff,ThreadSafeUnorderedMap.insertIfNotPresent_present]
    simp [other]
  simp [Eligible,same]

theorem eligible_rest {entries : List Entry} {running : ThreadSafeUnorderedMap}
    (absent : key ∉ entries.map Entry.key) :
    entries.filter (fun e => Eligible cache evicted (running.insertIfNotPresent key).2 e) =
      entries.filter (fun e => Eligible cache evicted running e) := by
  apply List.filter_congr
  intro e member
  have other : e.key ≠ key := by
    intro same
    exact absent (List.mem_map.mpr ⟨e,member,same⟩)
  simp [Eligible.insert_other other]

-- The keys the fill loop takes: the first of the eligible entries, in tree order.
def fillers (cache : Cache) (evicted : Table Str Str) (running : ThreadSafeUnorderedMap) (count : Nat)
    (entries : List Entry) : List Str :=
  ((entries.filter (fun e => Eligible cache evicted running e)).take count).map Entry.key

theorem fill_takes (cache : Cache) (evicted : Table Str Str) (count : Nat) (entries : List Entry)
    (running : ThreadSafeUnorderedMap) (distinct : (entries.map Entry.key).Nodup)
    (enough : count ≤ (entries.filter (fun e => Eligible cache evicted running e)).length) :
    ∃ widened, fill cache evicted count entries running =
        .ok (fillers cache evicted running count entries,widened) ∧
      running.Widened widened (fillers cache evicted running count entries) := by
  induction entries generalizing count running with
  | nil =>
    obtain rfl : count = 0 := by simpa using enough
    exact ⟨running,by simp [fill,fillers],by simpa [fillers] using ThreadSafeUnorderedMap.Widened.refl running⟩
  | cons it rest ih =>
    cases count with
    | zero => exact ⟨running,by simp [fill,fillers],by simpa [fillers] using ThreadSafeUnorderedMap.Widened.refl running⟩
    | succ count =>
      obtain ⟨absent,tail⟩ := List.nodup_cons.mp distinct
      have unchanged : rest.filter (fun e => Eligible cache evicted (running.insertIfNotPresent it.key).2 e) =
          rest.filter (fun e => Eligible cache evicted running e) := eligible_rest absent
      by_cases out : cache.checkIfKeyExists it.key = false ∧ it.key ∉ evicted
      · have uncached : it.key ∉ cache.held := by
          intro held
          rw [Cache.checkIfKeyExists_iff.mpr held] at out
          cases out.1
        cases verdict : running.present it.key with
        | true =>
          have skipped : ¬ Eligible cache evicted running it := by
            intro taken
            rw [taken.2.2] at verdict
            cases verdict
          have same : fillers cache evicted running (count+1) (it :: rest) =
              fillers cache evicted (running.insertIfNotPresent it.key).2 (count+1) rest := by
            simp [fillers,skipped,unchanged]
          obtain ⟨widened,ran,wide⟩ := ih (count+1) (running.insertIfNotPresent it.key).2 tail (by
            rw [unchanged]; simpa [skipped] using enough)
          refine ⟨widened,?_,?_⟩
          · have flag : (running.insertIfNotPresent it.key).1 = true := verdict
            rw [same,← ran]
            simp [fill,out,flag]
          · rw [same]
            exact wide.again verdict
        | false =>
          have taken : Eligible cache evicted running it := ⟨uncached,out.2,verdict⟩
          have same : fillers cache evicted running (count+1) (it :: rest) =
              it.key :: fillers cache evicted (running.insertIfNotPresent it.key).2 count rest := by
            simp [fillers,taken,unchanged]
          obtain ⟨widened,ran,wide⟩ := ih count (running.insertIfNotPresent it.key).2 tail (by
            rw [unchanged]; simpa [taken] using enough)
          refine ⟨widened,?_,?_⟩
          · have flag : (running.insertIfNotPresent it.key).1 = false := verdict
            simp [fill,out,flag,ran,same]
          · rw [same]
            exact wide.insert
      · have skipped : ¬ Eligible cache evicted running it := by
          intro taken
          apply out
          refine ⟨?_,taken.2.1⟩
          rw [Bool.eq_false_iff]
          intro held
          exact taken.1 (Cache.checkIfKeyExists_iff.mp held)
        obtain ⟨widened,ran,wide⟩ := ih (count+1) running tail (by simpa [skipped] using enough)
        have same : fillers cache evicted running (count+1) (it :: rest) =
            fillers cache evicted running (count+1) rest := by simp [fillers,skipped]
        refine ⟨widened,?_,by rw [same]; exact wide⟩
        rw [same,← ran]
        simp only [fill,if_neg out]

theorem fillers_eligible (member : k ∈ fillers cache evicted running count entries) :
    ∃ e ∈ entries, e.key = k ∧ Eligible cache evicted running e := by
  obtain ⟨e,taken,named⟩ := List.mem_map.mp member
  have kept := List.mem_filter.mp (List.mem_of_mem_take taken)
  exact ⟨e,kept.1,named,by simpa using kept.2⟩

theorem fillers_nodup (distinct : (entries.map Entry.key).Nodup) :
    (fillers cache evicted running count entries).Nodup :=
  distinct.sublist (List.Sublist.map _ ((List.take_sublist _ _).trans List.filter_sublist))

theorem fillers_length (enough : count ≤ (entries.filter (fun e => Eligible cache evicted running e)).length) :
    (fillers cache evicted running count entries).length = count := by
  simp [fillers,enough]

theorem Entry.freq_le {a b : Entry} (le : a ≤ b) : a.freq ≤ b.freq := by
  change a.rank ≤ b.rank at le
  rw [Entry.rank,Entry.rank,Prod.Lex.toLex_le_toLex] at le
  rcases le with below | ⟨same,_⟩
  · exact le_of_lt below
  · exact le_of_eq same

-- A key the fake loop may still take.
def Stale (bst : FrequencySmoother) (clock : Int) (k : Str) : Prop :=
  ∃ f, bst.accessFreqs.find? k = some f ∧ f < clock

theorem least_stale {bst : FrequencySmoother} (tree : bst.TreeExact) (some_ : Stale bst clock k) :
    ∃ fakeMin rest, bst.accessTree.toList = fakeMin :: rest ∧ Stale bst clock fakeMin.key := by
  obtain ⟨f,found,old⟩ := some_
  have listed : (⟨k,f⟩ : Entry) ∈ bst.accessTree := (tree ⟨k,f⟩).mpr found
  cases shape : bst.accessTree.toList with
  | nil =>
    rw [← OrderedSet.mem_toList,shape] at listed
    cases listed
  | cons fakeMin rest =>
    refine ⟨fakeMin,rest,rfl,fakeMin.freq,?_,?_⟩
    · apply (tree fakeMin).mp
      rw [← OrderedSet.mem_toList,shape]
      exact List.mem_cons_self
    · exact lt_of_le_of_lt (Entry.freq_le (OrderedSet.head_le shape listed)) old

structure FakesRead (clock : Int) (n : Nat) (bst after : FrequencySmoother)
    (running widened : ThreadSafeUnorderedMap) (keys : List Str) : Prop where
  count : keys.length = n
  distinct : keys.Nodup
  stale : ∀ k ∈ keys, Stale bst clock k
  freqs : ∀ a, after.accessFreqs.find? a = if a ∈ keys then some clock else bst.accessFreqs.find? a
  tree : after.TreeExact
  wide : running.Widened widened keys

-- The least key is always one not taken yet: taking a key moves it to the clock,
-- and n stale keys are left to take from.
theorem readFakes_spec (env : Env) (clock : Int) (n : Nat) (bst : FrequencySmoother)
    (running : ThreadSafeUnorderedMap) (tree : bst.TreeExact)
    (idle : ∀ k, Stale bst clock k → running.present k = false)
    (candidates : List Str) (distinct : candidates.Nodup) (old : ∀ k ∈ candidates, Stale bst clock k)
    (enough : n ≤ candidates.length) :
    ∃ keys after widened, readFakes env clock n bst running =
        .ok (keys.map (fun k => (env.label k (bst.freq k),k)),after,widened) ∧
      FakesRead clock n bst after running widened keys := by
  induction n generalizing bst running candidates with
  | zero => exact ⟨[],bst,running,rfl,rfl,.nil,by simp,by simp,tree,.refl running⟩
  | succ n ih =>
    cases candidates with
    | nil => simp at enough
    | cons first others =>
      obtain ⟨fakeMin,rest,shape,minimum⟩ := least_stale tree (old first List.mem_cons_self)
      have live : fakeMin.key ∈ bst.accessFreqs := by
        obtain ⟨f,found,_⟩ := minimum
        exact Table.mem_iff.mpr ⟨f,found⟩
      have moved : ∀ k, Stale (bst.setFrequency fakeMin.key clock) clock k ↔ k ≠ fakeMin.key ∧ Stale bst clock k := by
        intro k
        by_cases same : k = fakeMin.key <;> simp [Stale,same]
      obtain ⟨keys,after,widened,ran,spec⟩ := ih (bst.setFrequency fakeMin.key clock)
        (running.insertIfNotPresent fakeMin.key).2 (FrequencySmoother.setFrequency_tree tree _ _) (by
          intro k stale
          obtain ⟨differs,before⟩ := (moved k).mp stale
          rw [Bool.eq_false_iff,ne_eq,ThreadSafeUnorderedMap.insertIfNotPresent_present]
          simp [differs,idle k before]) ((first :: others).erase fakeMin.key) (distinct.erase _) (by
          intro k member
          obtain ⟨differs,listed⟩ := (distinct.mem_erase_iff).mp member
          exact (moved k).mpr ⟨differs,old k listed⟩) (by
          have shorter := List.le_length_erase (a:=fakeMin.key) (l:=first :: others)
          simp only [List.length_cons] at enough shorter
          omega)
      have untaken : fakeMin.key ∉ keys := by
        intro member
        exact ((moved _).mp (spec.stale _ member)).1 rfl
      refine ⟨fakeMin.key :: keys,after,widened,?_,?_⟩
      · have flag : (running.insertIfNotPresent fakeMin.key).1 = false := idle _ minimum
        have rows : keys.map (fun k => (env.label k ((bst.setFrequency fakeMin.key clock).freq k),k)) =
            keys.map (fun k => (env.label k (bst.freq k),k)) := by
          apply List.map_congr_left
          intro k member
          have other : k ≠ fakeMin.key := by intro same; exact untaken (same ▸ member)
          simp [FrequencySmoother.freq,other]
        rw [rows] at ran
        simp [readFakes,shape,flag,FrequencySmoother.getFrequency_present live,ran]
      · refine ⟨by simp [spec.count],List.nodup_cons.mpr ⟨untaken,spec.distinct⟩,?_,?_,spec.tree,spec.wide.insert⟩
        · intro k member
          rcases List.mem_cons.mp member with rfl | later
          · exact minimum
          · exact ((moved k).mp (spec.stale k later)).2
        · intro a
          rw [spec.freqs a,FrequencySmoother.setFrequency_freqs]
          by_cases same : a = fakeMin.key <;> by_cases later : a ∈ keys <;> simp [same,later]

theorem fetchAll_present (storage : Table Str Str) (labels : List Str)
    (present : ∀ l ∈ labels, l ∈ storage) :
    Proxy.fetchAll storage labels = .ok (labels.map (fun l => (storage.find? l).getD [])) := by
  induction labels with
  | nil => rfl
  | cons l rest ih =>
    obtain ⟨reply,found⟩ := Table.mem_iff.mp (present l List.mem_cons_self)
    have replies := ih (fun m member => present m (List.mem_cons_of_mem _ member))
    simp [Proxy.fetchAll,found,replies]

end TsWaffle
