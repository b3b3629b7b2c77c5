import TsWaffle.Indexing
import TsWaffle.Serving

namespace TsWaffle.FrequencySmoother
open Text Runs
variable {s : FrequencySmoother} {item key : Str}

-- Some key of the map is read as one of the item.
def HasLive (s : FrequencySmoother) (item : Str) : Prop :=
  ∃ k ∈ s.accessFreqs, ∃ ts, get_key_timestamp_split k = .ok (item,ts)

-- search lists the items with a live key, and fails for the others.
def Answers (s : FrequencySmoother) : Prop :=
  ∀ order : List Str → List Str, (∀ items, (order items).Perm items) →
    (∀ item, item ∈ s.search order [] ↔ s.HasLive item) ∧
    ∀ item, item ≠ [] → (s.search order item ≠ [str "SEARCH FAILURE"] ↔ s.HasLive item)

-- Reads, PUTs and removals as realBst sees them. A GET whose text is not read
-- throws before the index is touched; a PUT whose key is not read throws in insert.
inductive Access where
  | read (get_key : Str)
  | put (key : Str) (clock : Int)
  | removeKey (key : Str)

def access (s : FrequencySmoother) : Access → FrequencySmoother
  | .read get_key =>
    match get_split_keys s get_key with
    | .error _ => s
    | .ok (_,realBst) => realBst
  | .put key clock =>
    match s.insert key with
    | (realBst,.error _) => realBst
    | (realBst,.ok ()) => realBst.setFrequency key clock
  | .removeKey key => (s.removeKey key).1

-- A GET asks for an item with a live key; a removal takes the item's last indexed
-- timestamp exactly when it takes its last live key.
def Sound (s : FrequencySmoother) : Access → Prop
  | .read get_key => ∀ item a b, range_parts get_key = .ok (item,a,b) → s.HasLive item
  | .put _ _ => True
  | .removeKey key => ∀ item ts, get_key_timestamp_split key = .ok (item,ts) →
      ((∀ u ∈ s.timestamps item, u = ts) ↔ ∀ k ∈ s.accessFreqs, ∀ u, get_key_timestamp_split k = .ok (item,u) → k = key)

def accesses (s : FrequencySmoother) (calls : List Access) : FrequencySmoother := calls.foldl access s

theorem search_listed (order : List Str → List Str) (walked : ∀ items, (order items).Perm items) :
    item ∈ s.search order [] ↔ item ∈ s.uniqueItemWithTimeStamp := by
  rw [search,if_pos rfl,(walked _).mem_iff,Table.mem_keys]

theorem search_found (order : List Str → List Str) (filled : item ≠ []) :
    s.search order item ≠ [str "SEARCH FAILURE"] ↔ item ∈ s.uniqueItemWithTimeStamp := by
  rw [search,if_neg filled]
  cases found : s.uniqueItemWithTimeStamp.find? item with
  | none =>
    refine iff_of_false ?_ (Table.find_none.mp found)
    intro differs
    exact differs rfl
  | some stamps =>
    refine iff_of_true ?_ (Table.mem_iff.mpr ⟨stamps,found⟩)
    intro same
    have listed : str "SEARCH FAILURE" ∈ stamps.toList.map (bucketKey item) := by
      have shape : stamps.toList.map (bucketKey item) = [str "SEARCH FAILURE"] := same
      rw [shape]
      exact List.mem_cons_self
    obtain ⟨ts,_,equal⟩ := List.mem_map.mp listed
    have separated : chr '@' ∈ bucketKey item ts := by simp [bucketKey]
    rw [equal] at separated
    exact absurd separated (by decide)

theorem answers_iff : Answers s ↔ ∀ item, item ∈ s.uniqueItemWithTimeStamp ↔ s.HasLive item := by
  constructor
  · intro answers item
    rw [← search_listed id (fun _ => List.Perm.refl _)]
    exact (answers id (fun _ => List.Perm.refl _)).1 item
  · intro law order walked
    refine ⟨?_,?_⟩
    · intro item
      rw [search_listed order walked]
      exact law item
    · intro item filled
      rw [search_found order filled]
      exact law item

theorem fetch_listed (s : FrequencySmoother) (item other : Str) :
    other ∈ (s.get_timestamp_for_key item).2.uniqueItemWithTimeStamp ↔ other = item ∨ other ∈ s.uniqueItemWithTimeStamp := by
  rw [Table.mem_iff,Table.mem_iff]
  simp only [get_timestamp_for_key,Table.fetch_find]
  by_cases same : other = item <;> simp [same]

theorem read_access (parts : range_parts get_key = .ok (item,a,b)) :
    s.access (.read get_key) = (s.get_timestamp_for_key item).2 := by
  rw [access,get_split_keys_parts,parts]
  rfl

theorem unread_access (parts : range_parts get_key = .error fault) : s.access (.read get_key) = s := by
  rw [access,get_split_keys_parts,parts]
  rfl

-- Looking up an item leaves search alone exactly when the item is listed.
theorem fetch_search (s : FrequencySmoother) (item : Str) :
    (∀ order pattern, (s.get_timestamp_for_key item).2.search order pattern = s.search order pattern) ↔
      item ∈ s.uniqueItemWithTimeStamp := by
  constructor
  · intro same
    rw [← search_listed id (fun _ => List.Perm.refl _),← same,search_listed id (fun _ => List.Perm.refl _)]
    exact (fetch_listed s item item).mpr (.inl rfl)
  · intro listed order pattern
    obtain ⟨stamps,found⟩ := Table.mem_iff.mp listed
    rw [get_timestamp_for_key,Table.fetch_present found]

theorem insert_listed (stamped : s.needTimeStamp = true) (read : get_key_timestamp_split key = .ok (item,ts)) (other : Str) :
    other ∈ (s.insert key).1.uniqueItemWithTimeStamp ↔ other = item ∨ other ∈ s.uniqueItemWithTimeStamp := by
  simp only [insert,stamped,if_true,read,Table.mem_insert]

theorem insert_stamped (s : FrequencySmoother) (key : Str) : (s.insert key).1.needTimeStamp = s.needTimeStamp := by
  unfold insert
  dsimp only
  split
  · cases get_key_timestamp_split key <;> rfl
  · rfl

theorem removeKey_stamped (s : FrequencySmoother) (key : Str) : (s.removeKey key).1.needTimeStamp = s.needTimeStamp := by
  unfold removeKey
  dsimp only
  split
  · cases get_key_timestamp_split key with
    | error fault => rfl
    | ok parts =>
      dsimp only
      split
      · rfl
      · split <;> rfl
  · rfl

theorem removeKey_listed (stamped : s.needTimeStamp = true) (read : get_key_timestamp_split key = .ok (item,ts)) (other : Str) :
    other ∈ (s.removeKey key).1.uniqueItemWithTimeStamp ↔
      other ∈ s.uniqueItemWithTimeStamp ∧ ¬ (other = item ∧ ∀ u ∈ s.timestamps item, u = ts) := by
  simp only [removeKey,stamped,if_true,read]
  cases found : s.uniqueItemWithTimeStamp.find? item with
  | none =>
    have absent := Table.find_none.mp found
    constructor
    · intro listed
      refine ⟨listed,?_⟩
      rintro ⟨rfl,_⟩
      exact absent listed
    · exact And.left
  | some stamps =>
    have own : s.timestamps item = stamps := by simp [timestamps,found]
    have last : stamps.erase ts = ∅ ↔ ∀ u ∈ s.timestamps item, u = ts := by
      rw [own]
      constructor
      · intro none u member
        by_contra differs
        have kept : u ∈ stamps.erase ts := OrderedSet.mem_erase.mpr ⟨member,differs⟩
        rw [none] at kept
        exact OrderedSet.notMem_empty u kept
      · intro only
        apply OrderedSet.ext
        intro u
        refine iff_of_false ?_ (OrderedSet.notMem_empty u)
        intro member
        obtain ⟨inside,differs⟩ := OrderedSet.mem_erase.mp member
        exact differs (only u inside)
    have listed := Table.mem_iff.mpr ⟨stamps,found⟩
    by_cases gone : stamps.erase ts = ∅
    · have only := last.mp gone
      simp only [if_pos gone,Table.mem_erase]
      constructor
      · rintro ⟨differs,present⟩
        exact ⟨present,fun both => differs both.1⟩
      · rintro ⟨present,apart⟩
        exact ⟨fun same => apart ⟨same,only⟩,present⟩
    · simp only [if_neg gone,Table.mem_insert]
      constructor
      · rintro (rfl | present)
        · exact ⟨listed,fun both => gone (last.mpr both.2)⟩
        · exact ⟨present,fun both => gone (last.mpr both.2)⟩
      · intro both
        exact .inr both.1

theorem insert_hasLive (s : FrequencySmoother) (key other : Str) :
    (s.insert key).1.HasLive other ↔ (∃ ts, get_key_timestamp_split key = .ok (other,ts)) ∨ s.HasLive other := by
  simp only [HasLive,insert_live]
  constructor
  · rintro ⟨k,rfl | live,read⟩
    · exact .inl read
    · exact .inr ⟨k,live,read⟩
  · rintro (read | ⟨k,live,read⟩)
    · exact ⟨key,.inl rfl,read⟩
    · exact ⟨k,.inr live,read⟩

theorem removeKey_hasLive (s : FrequencySmoother) (key other : Str) :
    (s.removeKey key).1.HasLive other ↔
      ∃ k ∈ s.accessFreqs, k ≠ key ∧ ∃ ts, get_key_timestamp_split k = .ok (other,ts) := by
  simp only [HasLive,removeKey_live]
  constructor
  · rintro ⟨k,⟨differs,live⟩,read⟩
    exact ⟨k,live,differs,read⟩
  · rintro ⟨k,live,differs,read⟩
    exact ⟨k,⟨differs,live⟩,read⟩

theorem put_cases (s : FrequencySmoother) (key : Str) (clock : Int) :
    s.access (.put key clock) = (s.insert key).1 ∨ s.access (.put key clock) = (s.insert key).1.setFrequency key clock := by
  unfold access
  dsimp only
  split
  · rename_i shape
    rw [shape]
    exact .inl rfl
  · rename_i shape
    rw [shape]
    exact .inr rfl

theorem put_hasLive (s : FrequencySmoother) (key other : Str) (clock : Int) :
    (s.access (.put key clock)).HasLive other ↔ (s.insert key).1.HasLive other := by
  rcases put_cases s key clock with same | same
  · rw [same]
  · have live : ∀ k, k ∈ ((s.insert key).1.setFrequency key clock).accessFreqs ↔ k ∈ (s.insert key).1.accessFreqs := by
      intro k
      rw [Table.mem_iff,Table.mem_iff]
      by_cases own : k = key
      · subst own
        have present := Table.mem_iff.mp ((insert_live s k k).mpr (.inl rfl))
        simpa using present
      · simp [own]
    rw [same]
    simp only [HasLive,live]

theorem put_index (s : FrequencySmoother) (key : Str) (clock : Int) :
    (s.access (.put key clock)).uniqueItemWithTimeStamp = (s.insert key).1.uniqueItemWithTimeStamp ∧
      (s.access (.put key clock)).needTimeStamp = s.needTimeStamp := by
  rw [← insert_stamped s key]
  rcases put_cases s key clock with same | same
  · rw [same]
    exact ⟨rfl,rfl⟩
  · rw [same]
    exact ⟨rfl,rfl⟩

theorem access_stamped (s : FrequencySmoother) (c : Access) : (s.access c).needTimeStamp = s.needTimeStamp := by
  cases c with
  | read get_key =>
    cases parts : range_parts get_key with
    | error fault => rw [unread_access parts]
    | ok found =>
      obtain ⟨item,a,b⟩ := found
      rw [read_access parts]
      rfl
  | put key clock => exact (put_index s key clock).2
  | removeKey key => exact removeKey_stamped s key

-- The law of search, and whether one call keeps it.
def Lawful (s : FrequencySmoother) : Prop := ∀ item, item ∈ s.uniqueItemWithTimeStamp ↔ s.HasLive item

theorem read_lawful (lawful : Lawful s) (get_key : Str) :
    Lawful (s.access (.read get_key)) ↔ Sound s (.read get_key) := by
  cases parts : range_parts get_key with
  | error fault =>
    rw [unread_access parts]
    refine iff_of_true lawful ?_
    intro item a b found
    rw [parts] at found
    cases found
  | ok found =>
    obtain ⟨item,a,b⟩ := found
    rw [read_access parts]
    constructor
    · intro after other c d same
      rw [parts] at same
      cases same
      exact (after item).mp ((fetch_listed s item item).mpr (.inl rfl))
    · intro sound other
      rw [fetch_listed,lawful other]
      constructor
      · rintro (rfl | live)
        · exact sound _ _ _ parts
        · exact live
      · exact .inr

theorem put_lawful (stamped : s.needTimeStamp = true) (lawful : Lawful s) (key : Str) (clock : Int) :
    Lawful (s.access (.put key clock)) := by
  intro other
  rw [(put_index s key clock).1,put_hasLive,insert_hasLive]
  cases read : get_key_timestamp_split key with
  | error fault =>
    rw [insert_unread read,lawful other]
    simp
  | ok parts =>
    obtain ⟨item,ts⟩ := parts
    rw [insert_listed stamped read,lawful other]
    simp [eq_comm]

-- An item that the removed key is not read as keeps its live keys.
theorem removeKey_hasLive_other (apart : ∀ ts, get_key_timestamp_split key ≠ .ok (other,ts)) :
    (s.removeKey key).1.HasLive other ↔ s.HasLive other := by
  rw [removeKey_hasLive]
  constructor
  · rintro ⟨k,live,_,found⟩
    exact ⟨k,live,found⟩
  · rintro ⟨k,live,ts,found⟩
    refine ⟨k,live,?_,ts,found⟩
    rintro rfl
    exact apart ts found

theorem removeKey_not_hasLive (s : FrequencySmoother) (key item : Str) :
    ¬ (s.removeKey key).1.HasLive item ↔ ∀ k ∈ s.accessFreqs, ∀ u, get_key_timestamp_split k = .ok (item,u) → k = key := by
  rw [removeKey_hasLive]
  constructor
  · intro none k live u found
    by_contra differs
    exact none ⟨k,live,differs,u,found⟩
  · rintro only ⟨k,live,differs,u,found⟩
    exact differs (only k live u found)

theorem removeKey_sound_iff (read : get_key_timestamp_split key = .ok (item,ts)) :
    Sound s (.removeKey key) ↔ ((∀ u ∈ s.timestamps item, u = ts) ↔ ¬ (s.removeKey key).1.HasLive item) := by
  rw [removeKey_not_hasLive]
  constructor
  · intro sound
    exact sound item ts read
  · intro same i u found
    rw [read] at found
    cases found
    exact same

-- Only the item the key is read as can change its place.
theorem removeKey_own (stamped : s.needTimeStamp = true) (lawful : Lawful s)
    (read : get_key_timestamp_split key = .ok (item,ts)) :
    (item ∈ (s.removeKey key).1.uniqueItemWithTimeStamp ↔ (s.removeKey key).1.HasLive item) ↔ Sound s (.removeKey key) := by
  have still : (s.removeKey key).1.HasLive item → item ∈ s.uniqueItemWithTimeStamp := by
    rw [removeKey_hasLive,lawful item]
    rintro ⟨k,live,_,found⟩
    exact ⟨k,live,found⟩
  have bare : item ∉ s.uniqueItemWithTimeStamp → ∀ u ∈ s.timestamps item, u = ts := by
    intro absent u member
    rw [timestamps,Table.find_none.mpr absent] at member
    exact absurd member (OrderedSet.notMem_empty u)
  rw [removeKey_sound_iff read,removeKey_listed stamped read]
  tauto

theorem removeKey_lawful (stamped : s.needTimeStamp = true) (lawful : Lawful s) (key : Str) :
    Lawful (s.access (.removeKey key)) ↔ Sound s (.removeKey key) := by
  change Lawful (s.removeKey key).1 ↔ _
  cases read : get_key_timestamp_split key with
  | error fault =>
    refine iff_of_true ?_ ?_
    · intro other
      rw [removeKey_unread read,removeKey_hasLive_other (by rw [read]; exact nofun),lawful other]
    · intro item ts found
      rw [read] at found
      cases found
  | ok parts =>
    obtain ⟨item,ts⟩ := parts
    rw [← removeKey_own stamped lawful read]
    constructor
    · intro after
      exact after item
    · intro own other
      by_cases same : other = item
      · rw [same]
        exact own
      · have apart : ∀ u, get_key_timestamp_split key ≠ .ok (other,u) := by
          intro u found
          rw [read] at found
          cases found
          exact same rfl
        rw [removeKey_listed stamped read,removeKey_hasLive_other apart,lawful other]
        exact ⟨And.left,fun live => ⟨live,fun both => same both.1⟩⟩

theorem access_lawful (stamped : s.needTimeStamp = true) (lawful : Lawful s) (c : Access) :
    Lawful (s.access c) ↔ Sound s c := by
  cases c with
  | read get_key => exact read_lawful lawful get_key
  | put key clock => exact iff_of_true (put_lawful stamped lawful key clock) trivial
  | removeKey key => exact removeKey_lawful stamped lawful key

-- A read changes nothing that search returns.
def ReadsAside (calls : List Access) : Prop :=
  ∀ earlier get_key later, calls = earlier ++ .read get_key :: later → ∀ order pattern,
    ((new true).accesses (earlier ++ [.read get_key])).search order pattern =
      ((new true).accesses earlier).search order pattern

-- From any state at all.
theorem read_aside (s : FrequencySmoother) (get_key : Str) :
    (∀ order pattern, (s.access (.read get_key)).search order pattern = s.search order pattern) ↔
      ∀ item a b, range_parts get_key = .ok (item,a,b) → item ∈ s.uniqueItemWithTimeStamp := by
  cases parts : range_parts get_key with
  | error fault =>
    rw [unread_access parts]
    refine iff_of_true (fun _ _ => rfl) ?_
    intro item a b found
    cases found
  | ok found =>
    obtain ⟨item,a,b⟩ := found
    rw [read_access parts,fetch_search]
    constructor
    · intro listed other c d same
      cases same
      exact listed
    · intro listed
      exact listed item a b rfl

-- A read leaves search alone exactly when the item it asks for is listed. In every
-- state of a run search lists the items with a live key and finds them, and the
-- reads leave it alone, exactly when each read asks for an item with a live key and
-- each removal takes an item's last timestamp with its last key.
theorem search_exact_iff (s : FrequencySmoother) (get_key : Str) (calls : List Access) :
    ((∀ order pattern, (s.access (.read get_key)).search order pattern = s.search order pattern) ↔
      ∀ item a b, range_parts get_key = .ok (item,a,b) → item ∈ s.uniqueItemWithTimeStamp) ∧
    ((∀ earlier later, calls = earlier ++ later → Answers ((new true).accesses earlier)) ∧ ReadsAside calls ↔
      ∀ earlier c later, calls = earlier ++ c :: later → Sound ((new true).accesses earlier) c) := by
  refine ⟨read_aside s get_key,?_⟩
  have start : (new true).needTimeStamp = true ∧ Answers (new true) := by
    refine ⟨rfl,answers_iff.mpr ?_⟩
    intro item
    simp [new,HasLive]
  have each : ∀ (s : FrequencySmoother) c, (s.needTimeStamp = true ∧ Answers s) →
      ((s.access c).needTimeStamp = true ∧ Answers (s.access c) ↔ Sound s c) := by
    rintro s c ⟨stamped,answers⟩
    rw [answers_iff] at answers ⊢
    rw [access_stamped,and_iff_right stamped]
    exact access_lawful stamped answers c
  have always := fold_always_iff (I:=fun s => s.needTimeStamp = true ∧ Answers s) start each calls
  constructor
  · rintro ⟨answers,_⟩
    apply always.mp
    intro earlier later split
    refine ⟨?_,answers earlier later split⟩
    induction earlier using List.reverseRecOn generalizing later with
    | nil => rfl
    | append_singleton earlier c ih =>
      rw [List.foldl_append]
      exact (access_stamped _ c).trans (ih (c :: later) (by simp [split]))
  · intro sound
    have reached := always.mpr sound
    refine ⟨fun earlier later split => (reached earlier later split).2,?_⟩
    intro earlier get_key later split order pattern
    have lawful := answers_iff.mp (reached earlier _ split).2
    rw [accesses,List.foldl_append]
    apply (read_aside ((new true).accesses earlier) get_key).mpr
    intro item a b parts
    exact (lawful item).mpr (sound earlier _ later split item a b parts)

-- Asking an empty index for item a lists it.
theorem read_lists_item :
    ¬ ∀ calls : List Access,
      (∀ earlier later, calls = earlier ++ later → Answers ((new true).accesses earlier)) ∧ ReadsAside calls := by
  intro always
  have aside := (always [.read (str "a@1@2")]).2 [] (str "a@1@2") [] rfl id []
  exact absurd aside (by decide +kernel)

end TsWaffle.FrequencySmoother
