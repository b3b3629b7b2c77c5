import TsWaffle.Generating
import TsWaffle.Naming
import TsWaffle.Playing
import TsWaffle.Benchmark

namespace TsWaffle
open Text Runs Server
variable {items : List Str} {pairs : List (Str × Str)} {item x : Str} {ts : Int} {n object_size : Nat}

-- The pair main loads for a bucket, unless the key is longer than the object: then
-- the string's constructor throws.
def server_row (object_size : Nat) (item : Str) (i : Nat) : Option (Str × Str) :=
  let key := item ++ chr '@' :: to_string (1700000000-i-1)
  if key.length ≤ object_size then some (key,key ++ List.replicate (object_size-key.length) (chr 'a')) else none

def server_rows (object_size : Nat) : List (Str × Nat) → Option (List (Str × Str))
  | [] => some []
  | (item,i) :: rest => do
    let row ← server_row object_size item i
    let rows ← server_rows object_size rest
    return row :: rows

-- The two loops of main.
def server_data (N num_items object_size : Nat) (items : List Str) : Option (List (Str × Str)) :=
  if num_items = 0 then none
  else
    let num_per_item := N/num_items
    server_rows object_size (items.product (List.range num_per_item))

-- The stamp of an item's i-th bucket.
def oldStamp (i : Nat) : Int := baseTime-i-1

theorem server_rows_keys (buckets : List (Str × Nat)) (loaded : server_rows object_size buckets = some pairs) :
    pairs.map Prod.fst = buckets.map (fun b => bucketKey b.1 (oldStamp b.2)) ∧
      ∀ kv ∈ pairs, kv.2.length = object_size := by
  induction buckets generalizing pairs with
  | nil =>
    cases loaded
    exact ⟨rfl,fun _ member => absurd member List.not_mem_nil⟩
  | cons b rest ih =>
    obtain ⟨item,i⟩ := b
    simp only [server_rows,server_row] at loaded
    split at loaded
    · rename_i fits
      cases others : server_rows object_size rest with
      | none => simp [others] at loaded
      | some rows =>
        obtain ⟨keys,sizes⟩ := ih others
        simp only [others,Option.bind_eq_bind,Option.bind_some,Option.pure_def,Option.some.injEq] at loaded
        subst loaded
        refine ⟨by rw [List.map_cons,List.map_cons,keys]; rfl,?_⟩
        intro kv member
        rcases List.mem_cons.mp member with rfl | later
        · rw [List.length_append,List.length_replicate]
          omega
        · exact sizes kv later
    · cases loaded

structure Usable (items : List Str) : Prop where
  distinct : items.Nodup
  named : ∀ item ∈ items, item ≠ [] ∧ chr '@' ∉ item

-- What main loads, with n buckets of each item.
structure ServerData (items : List Str) (n object_size : Nat) (pairs : List (Str × Str)) : Prop where
  usable : Usable items
  few : n < 2^31
  keys : pairs.map Prod.fst = (items.product (List.range n)).map (fun b => bucketKey b.1 (oldStamp b.2))
  sizes : ∀ kv ∈ pairs, kv.2.length = object_size

theorem oldStamp_fits {i : Nat} (few : n < 2^31) (below : i < n) : Fits64 (oldStamp i) := by
  unfold Fits64 oldStamp baseTime
  omega

theorem oldStamp_injective : Function.Injective oldStamp := by
  intro i j same
  unfold oldStamp at same
  omega

namespace ServerData

theorem listed (data : ServerData items n object_size pairs) :
    key ∈ pairs.map Prod.fst ↔ ∃ item ∈ items, ∃ i < n, key = bucketKey item (oldStamp i) := by
  rw [data.keys,List.mem_map]
  constructor
  · rintro ⟨⟨item,i⟩,member,rfl⟩
    obtain ⟨here,below⟩ := List.pair_mem_product.mp member
    exact ⟨item,here,i,List.mem_range.mp below,rfl⟩
  · rintro ⟨item,here,i,below,rfl⟩
    exact ⟨(item,i),List.pair_mem_product.mpr ⟨here,List.mem_range.mpr below⟩,rfl⟩

theorem loadable (data : ServerData items n object_size pairs) : Loadable pairs := by
  refine ⟨?_,?_⟩
  · intro kv member
    obtain ⟨item,here,i,below,name⟩ := data.listed.mp (List.mem_map_of_mem member)
    obtain ⟨filled,free⟩ := data.usable.named item here
    exact ⟨item,oldStamp i,⟨filled,free,oldStamp_fits data.few below⟩,name⟩
  · rw [data.keys]
    refine (data.usable.distinct.product List.nodup_range).map_on ?_
    rintro ⟨item,i⟩ one ⟨other,j⟩ two same
    have free := (data.usable.named item (List.pair_mem_product.mp one).1).2
    have free' := (data.usable.named other (List.pair_mem_product.mp two).1).2
    obtain ⟨rfl,stamps⟩ := bucketKey_injective free free' same
    exact congrArg (item,·) (oldStamp_injective stamps)

theorem mem_buckets (data : ServerData items n object_size pairs) :
    ts ∈ (Reference.load pairs).buckets x ↔ x ∈ items ∧ ∃ i < n, ts = oldStamp i := by
  rw [Reference.load_buckets data.loadable,data.listed]
  constructor
  · rintro ⟨wf,item,here,i,below,name⟩
    obtain ⟨rfl,rfl⟩ := bucketKey_injective wf.2.1 (data.usable.named item here).2 name
    exact ⟨here,i,below,rfl⟩
  · rintro ⟨here,i,below,rfl⟩
    obtain ⟨filled,free⟩ := data.usable.named x here
    exact ⟨⟨filled,free,oldStamp_fits data.few below⟩,x,here,i,below,rfl⟩

theorem card_le (data : ServerData items n object_size pairs) (x : Str) : ((Reference.load pairs).buckets x).card ≤ n := by
  have listed : (Reference.load pairs).buckets x ⊆ (Finset.range n).image oldStamp := by
    intro ts member
    obtain ⟨_,i,below,rfl⟩ := data.mem_buckets.mp member
    exact Finset.mem_image_of_mem _ (Finset.mem_range.mpr below)
  calc ((Reference.load pairs).buckets x).card ≤ ((Finset.range n).image oldStamp).card := Finset.card_le_card listed
    _ ≤ (Finset.range n).card := Finset.card_image_le
    _ = n := Finset.card_range n

theorem card_eq (data : ServerData items n object_size pairs) (here : x ∈ items) :
    ((Reference.load pairs).buckets x).card = n := by
  have same : (Reference.load pairs).buckets x = (Finset.range n).image oldStamp := by
    ext ts
    rw [data.mem_buckets,Finset.mem_image]
    constructor
    · rintro ⟨_,i,below,rfl⟩
      exact ⟨i,Finset.mem_range.mpr below,rfl⟩
    · rintro ⟨i,below,rfl⟩
      exact ⟨here,i,Finset.mem_range.mp below,rfl⟩
  rw [same,Finset.card_image_of_injective _ oldStamp_injective,Finset.card_range]

theorem old (data : ServerData items n object_size pairs) (member : ts ∈ (Reference.load pairs).buckets x) :
    ts < baseTime := by
  obtain ⟨_,i,_,rfl⟩ := data.mem_buckets.mp member
  unfold oldStamp
  omega

theorem length (data : ServerData items n object_size pairs) : pairs.length = items.length*n := by
  have keys := congrArg List.length data.keys
  rw [List.length_map,List.length_map] at keys
  change _ = (items ×ˢ List.range n).length at keys
  rwa [List.length_product,List.length_range] at keys

end ServerData

theorem server_data_loaded (usable : Usable items) (few : N < 2^31)
    (loaded : server_data N num_items object_size items = some pairs) :
    ServerData items (N/num_items) object_size pairs := by
  unfold server_data at loaded
  split at loaded
  · cases loaded
  · obtain ⟨keys,sizes⟩ := server_rows_keys _ loaded
    exact ⟨usable,lt_of_le_of_lt (Nat.div_le_self _ _) few,keys,sizes⟩

-- The constants of tsconfig.cpp with the row count of generate_TS_tracefile.
structure Deployment where
  cfg : Config
  N : Nat
  num_items : Nat
  object_size : Nat
  client_batch_size : Nat
  row_count : Nat

namespace Deployment

def per_item (d : Deployment) : Nat := d.N/d.num_items
def loaded (d : Deployment) : Nat := d.num_items*d.per_item

-- The items that full client batches reach.
def reached (d : Deployment) : Nat := d.num_items/d.client_batch_size*d.client_batch_size

structure Fits (d : Deployment) : Prop where
  number : d.N < 2^31
  batched : 0 < d.client_batch_size
  sized : 0 < d.object_size ∧ d.object_size % 4 = 0
  apart : 0 < d.reached ∧ d.cfg.R ≤ d.reached
  warm : 1 ≤ d.cfg.cacheBatches*d.loaded/100
  wide : d.cfg.R-1+d.per_item+d.cfg.F ≤ d.cfg.B
  fakes : d.cfg.F ≤ d.cfg.D
  filled : d.cfg.B-d.cfg.F+d.cfg.cacheBatches*d.loaded/100 ≤ d.loaded
  rows : d.row_count ≤ d.loaded
  early : baseTime+((d.row_count-1)/d.num_items : Nat)*d.object_size < 2^31

def dataMap (d : Deployment) (items : List Str) : TimeSeriesDataMap := ⟨items,d.object_size,d.client_batch_size⟩

end Deployment

variable {d : Deployment} {draws : Draws} {s : Server} {env : Env}

theorem Deployment.items_length (d : Deployment) (count : items.length = d.num_items) :
    (d.dataMap items).items.length = d.reached := by
  unfold TimeSeriesDataMap.items Deployment.dataMap Deployment.reached
  rw [← count]
  exact List.length_take_of_le (Nat.div_mul_le_self _ _)

theorem Deployment.Fits.generable (fits : d.Fits) (count : items.length = d.num_items)
    (typed : ∀ x ∈ items, ∃ type, generatedType x = .ok type)
    (data : ServerData items d.per_item d.object_size pairs) :
    Generable d.cfg.R (d.dataMap items) d.row_count pairs := by
  have among : ∀ x ∈ (d.dataMap items).items, x ∈ items := fun x member => List.mem_of_mem_take member
  refine ⟨data.loadable,fits.batched,data.usable.distinct,typed,fits.sized,?_,fun x member => data.usable.named x (among x member),
    fun x _ u member => data.old member,?_,?_⟩
  · rw [d.items_length count]
    exact fits.apart
  · intro x member
    rw [data.card_eq (among x member),show (d.dataMap items).keys_.length = d.num_items from count]
    exact fits.rows
  · have early := fits.early
    rwa [← count] at early

theorem Deployment.Fits.ample (fits : d.Fits) (count : items.length = d.num_items)
    (data : ServerData items d.per_item d.object_size pairs) : Ample d.cfg pairs d.per_item := by
  have whole : pairs.length = d.loaded := by
    rw [data.length,count]
    rfl
  refine ⟨fits.wide,fits.fakes,?_,data.card_le⟩
  rw [whole]
  exact fits.filled

-- The benchmark's one client sends the trace in order.
def Event.message : Event → Option Message
  | .receive message => some message
  | _ => none

theorem flatMap_messages (events : List Event) : events.flatMap Event.operations =
    (events.filterMap Event.message).flatMap (fun message => Event.operations (.receive message)) := by
  induction events with
  | nil => rfl
  | cons event rest ih =>
    rw [List.flatMap_cons,ih]
    cases event <;> rfl

theorem trace_operations (positive : 1 ≤ size) (requests : List Request) (events : List Event)
    (sent : events.filterMap Event.message <+: (load_trace size (requests.map Request.row)).map Batch.message) :
    (∀ event ∈ events, Whole event) ∧
      ∃ future, events.flatMap Event.operations ++ future = requests.map Request.operation := by
  obtain ⟨rows,operations⟩ := load_trace_operations size (requests.map Request.row) positive
  obtain ⟨others,sent⟩ := sent
  constructor
  · rintro event member message rfl
    have listed : message ∈ events.filterMap Event.message ++ others :=
      List.mem_append_left _ (List.mem_filterMap.mpr ⟨_,member,rfl⟩)
    rw [sent] at listed
    obtain ⟨b,batch,rfl⟩ := List.mem_map.mp listed
    rw [operations b batch]
    rfl
  · have each : ∀ b ∈ load_trace size (requests.map Request.row), Event.operations (.receive b.message) =
        b.rows.map (fun row => ⟨row.1,row.2⟩) := by
      intro b member
      simp only [Event.operations,operations b member,Except.toOption,Option.getD_some]
    refine ⟨others.flatMap (fun message => Event.operations (.receive message)),?_⟩
    rw [flatMap_messages,← List.flatMap_append,sent,List.flatMap_map,List.flatMap_congr each,← List.map_flatMap,rows,
      List.map_map]
    rfl

-- Two items with three buckets each; the second turn of the generator is one of GETs.
def smallDeployment : Deployment := ⟨turnsConfig,6,2,32,1,6⟩
def smallIds : List Str := [str "CPU_USAGE_0_764&int&",str "CPU_TEMP_1_764&int&"]
def smallGenerated : Generated :=
  ⟨fun _ => 7,fun _ => [0,0,0,0],fun _ => true,fun _ => by decide,fun _ => rfl⟩
def smallTurns (n : Nat) : Turn :=
  ⟨if n = 1 then 50 else 0,fun _ => smallGenerated,fun _ _ => baseTime,fun _ latest => latest,
    fun _ _ late => ⟨le_refl _,late⟩⟩
def smallPairs : List (Str × Str) := (server_data 6 2 32 smallIds).get (by decide +kernel)
def smallServer : Server :=
  (init smallDeployment.cfg sampleEnv sampleDraws smallPairs).toOption.get (by decide +kernel)
def smallRows : List (Str × Str) :=
  ((smallDeployment.dataMap smallIds).generate_TS_tracefile_binary 6 smallTurns).toOption.getD []
def smallEvents : List Event :=
  ((load_trace 1 smallRows).map (fun b => .receive b.message)) ++ [.pop,.pop,.close sampleChoice,.clear,.pop]

theorem small_fits : smallDeployment.Fits := by
  constructor <;> decide

theorem small_made : generate_item_ids [str "CPU"] [str "USAGE",str "TEMP"] (fun _ => ⟨764,0⟩) 2 = .ok smallIds := by
  decide +kernel

def shipped : Deployment := ⟨⟨800,1200,100,100000,2,1024,52870,by decide⟩,100000,1000,1024,50,100000⟩

example : shipped.Fits := by
  constructor <;> decide

end TsWaffle
