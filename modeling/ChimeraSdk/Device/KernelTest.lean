import ChimeraSdk.Device.Snrt
import ChimeraSdk.Framework.CInt

/-! # Testing a Kernel on a Cluster

    The tests of the kernels share one `main`: the compute cores run the
    kernel over and over, barriers lie between the stretches, and in the
    end core 0 counts the elements that differ from the expected ones.
    Before the last repetition the core of the DMA engine clears the
    output, while the compute cores may still be storing the results of
    the repetition before. -/

open Cluster ByteMemory CInt

namespace Snrt

/-! ## Section 1: The program -/

/-- What the tests measure, and where they put it: the shared sum
    `ops_per_cycle`, the struct `test_retVal` of the host, the cycles that
    each core has counted, and the arithmetic on `float` words.  What
    `printf` does with the numbers is left out. -/
structure Metrics (numThreads : Nat) where
  ops_per_cycle : Nat
  test_retVal : Nat
  cycles : Core numThreads → Nat
  ops_per_cycle_per_core : Nat → Nat
  addFloat : Nat → Nat → Nat
  scaled : Nat → Nat

namespace Metrics

variable {numThreads : Nat} (r : Metrics numThreads)

/-- `__atomic_add_fetch(&ops_per_cycle, ops_per_cycle_per_core, ...);` -/
def addFetch (k : Core numThreads) (m : Mem × Nat) : Mem × Nat :=
  (store m.1 r.ops_per_cycle
    (r.addFloat (load m.1 r.ops_per_cycle 4) (r.ops_per_cycle_per_core (r.cycles k))) 4, m.2)

/-- Every compute core adds its share. -/
def account [Runtime] (k : Core numThreads) : List (Op Nat) :=
  if snrt_is_compute_core k then [.act (r.addFetch k)] else []

/-- The stores to `test_retVal`, a packed struct of words, by the core `k`:
    `errors`, `runtime_cycles` and `ops_per_cycle`. -/
def report (k : Core numThreads) : List (Mem × Nat → Mem × Nat) :=
  [fun m => (store m.1 r.test_retVal m.2 4, m.2),
   fun m => (store m.1 (r.test_retVal + 4) (r.cycles k) 4, m.2),
   fun m => (store m.1 (r.test_retVal + 8) (r.scaled (load m.1 r.ops_per_cycle 4)) 4, m.2)]

/-- The bytes that the sum and the struct take up. -/
def Holds (a : Nat) : Prop :=
  (r.ops_per_cycle ≤ a ∧ a < r.ops_per_cycle + 4) ∨ (r.test_retVal ≤ a ∧ a < r.test_retVal + 12)

/-- The sum and the struct lie apart from each other and from the output, and
    the sum lies apart from the expected output. -/
structure Placed (output expected size : Nat) : Prop where
  sum_output : Apart output size r.ops_per_cycle 4
  sum_expected : Apart expected size r.ops_per_cycle 4
  result_output : Apart output size r.test_retVal 12
  result_sum : Apart r.test_retVal 12 r.ops_per_cycle 4

end Metrics

/-- What the tests differ in: where the output and the expected output lie,
    the size and the number of the elements, how many bytes are cleared,
    and the kernel. -/
structure KernelTest (numThreads : Nat) where
  output : Nat
  expected : Nat
  zero_memory : Nat
  width : Nat
  count : Nat
  cleared : Nat
  kernel : Core numThreads → List Store
  metrics : Metrics numThreads

namespace KernelTest

variable {numThreads : Nat} (T : KernelTest numThreads)

def size : Nat := T.width * T.count

/-- `if (diff) { tot_err += 1; ... }` for the element `i`. -/
def verifyElement (i : Nat) (m : Mem × Nat) : Mem × Nat :=
  (m.1, if load m.1 (T.expected + T.width * i) T.width ≠ load m.1 (T.output + T.width * i) T.width
    then m.2 + 1 else m.2)

/-- The verification, on core 0, which reports on it. -/
def verify (k : Core numThreads) : List (Op Nat) :=
  if k.val = 0 then
    ((List.range T.count).map T.verifyElement ++ T.metrics.report k).map .act
  else []

/-- The core of the DMA engine clears the output. -/
def clear [Runtime] : List (Op Nat) :=
  [snrt_dma_start_1d T.output T.zero_memory T.cleared, snrt_dma_wait_all]

/-- The stores of the core `k`. -/
def stores [Runtime] (k : Core numThreads) : List Store :=
  if snrt_is_compute_core k then T.kernel k else []

def compute [Runtime] (k : Core numThreads) : List (Op Nat) := (T.stores k).map fun s => .act s.run

/-- What comes after the barrier behind the repetitions. -/
def finish [Runtime] (k : Core numThreads) : List (Op Nat) :=
  snrt_cluster_hw_barrier :: (T.metrics.account k ++
    snrt_cluster_hw_barrier :: snrt_cluster_hw_barrier :: (T.verify k ++ [snrt_cluster_hw_barrier]))

/-- `return tot_err << 1;`, where core 0 alone has counted. -/
def retVal (m : Mem × Nat) (k : Core numThreads) : Nat :=
  (if k.val = 0 then m.2 else 0) <<< 1 % 2 ^ 32

/-- A repetition, with the clearing before the last one. -/
def repetition [Runtime] (repetitions : Nat) (k : Core numThreads) (i : Nat) : List (Op Nat) :=
  (if snrt_is_dm_core k && i = repetitions - 1 then T.clear else []) ++
    snrt_cluster_hw_barrier :: T.compute k

/-- The test, from the allocation of the output on. -/
def main [Runtime] (repetitions : Nat) : Code (numThreads + 1) (Mem × Nat) Engine := fun k =>
  snrt_cluster_hw_barrier ::
    ((List.range repetitions).flatMap (T.repetition repetitions k) ++
      snrt_cluster_hw_barrier :: T.finish k)

/-- The test of the matrix product, which clears nothing and has no barrier
    between its repetitions. -/
def mainWithoutClear [Runtime] (repetitions : Nat) :
    Code (numThreads + 1) (Mem × Nat) Engine := fun k =>
  snrt_cluster_hw_barrier ::
    ((List.range repetitions).flatMap (fun _ => T.compute k) ++
      snrt_cluster_hw_barrier :: T.finish k)

/-! ## Section 2: What the tests rely on -/

/-- The output and what has not been stored to. -/
def InOutput (a : Nat) : Prop := T.output ≤ a ∧ a < T.output + T.size

/-- Nothing but the output has changed, and no error has been counted. -/
def Frame (mem : Mem) (m : Mem × Nat) : Prop := (∀ a, ¬ T.InOutput a → m.1 a = mem a) ∧ m.2 = 0

/-- The expected output lies outside the output, no more than the output is
    cleared, and what is measured is put elsewhere. -/
structure Placed : Prop where
  expected : Apart T.output T.size T.expected T.size
  cleared : T.cleared ≤ T.size
  metrics : T.metrics.Placed T.output T.expected T.size

/-- A store to elements of the output, as `value` has them. -/
def StoresElements (mem : Mem) (value : Nat → Nat) (s : Store) : Prop :=
  (T.output ≤ s.address ∧ s.address + s.width ≤ T.output + T.size) ∧
    StoresAt (T.Frame mem) (array T.output T.width value) s.address s.width s.run

/-- The store covers the element `i`. -/
def Covers (i : Nat) (s : Store) : Prop :=
  s.address ≤ T.output + T.width * i ∧ T.output + T.width * i + T.width ≤ s.address + s.width

/-- The kernel computes `value`: every store of a core is one to elements of
    the output, and every element is stored by some core. -/
structure Computes (mem : Mem) (value : Nat → Nat) : Prop where
  fits : ∀ i, i < T.count → value i < 256 ^ T.width
  stores : ∀ k, ∀ s ∈ T.stores k, T.StoresElements mem value s
  covers : ∀ i, i < T.count → ∃ k, ∃ s ∈ T.stores k, T.Covers i s

/-! ## Section 3: The repetitions -/

variable {T} {mem : Mem} {value : Nat → Nat} {m m' : Mem × Nat}

theorem StoresElements.keeps_frame {s : Store} (hs : T.StoresElements mem value s) :
    Keeps (T.Frame mem) s.run := by
  intro m hm
  obtain ⟨⟨hlo, hhi⟩, hs⟩ := hs
  rw [hs m hm]
  refine ⟨?_, hm.2⟩
  intro b hb
  have hout : ¬ (s.address ≤ b ∧ b < s.address + s.width) := fun hin => hb ⟨by omega, by omega⟩
  show (if s.address ≤ b ∧ b < s.address + s.width then _ else m.1 b) = mem b
  rw [if_neg hout]
  exact hm.1 b hb

/-- What lies apart from the output is as it was. -/
theorem Frame.loadInt_eq (hm : T.Frame mem m) {a n b k : Nat} (hapart : Apart T.output T.size b k)
    (hlo : b ≤ a) (hhi : a + n ≤ b + k) : loadInt m.1 a n = loadInt mem a n := by
  apply loadInt_congr
  intro c hc hc'
  apply hm.1
  intro ⟨h₁, h₂⟩
  unfold Apart at hapart
  omega

section Bytes

theorem size_of_bytes (hwidth : T.width = 1) : T.size = T.count := by
  unfold size
  rw [hwidth, Nat.one_mul]

theorem Frame.loadInt_eq_of_bytes (hm : T.Frame mem m) (hwidth : T.width = 1) {a n b k : Nat}
    (hapart : Apart T.output T.count b k) (hlo : b ≤ a) (hhi : a + n ≤ b + k) :
    loadInt m.1 a n = loadInt mem a n := by
  rw [← size_of_bytes hwidth] at hapart
  exact hm.loadInt_eq hapart hlo hhi

theorem placed_of_bytes (hwidth : T.width = 1)
    (hexpected : Apart T.output T.count T.expected T.count)
    (hcleared : T.cleared ≤ T.count) (hmetrics : T.metrics.Placed T.output T.expected T.count) :
    T.Placed := by
  rw [← size_of_bytes hwidth] at hexpected hcleared hmetrics
  exact ⟨hexpected, hcleared, hmetrics⟩

end Bytes

/-- A store of one element. -/
def storeElement (T : KernelTest numThreads) (i : Nat) (v : Mem → Nat) : Store :=
  ⟨T.output + T.width * i, T.width, v⟩

theorem storeElement_byte (hwidth : T.width = 1) (i : Nat) (v : Mem → Nat) :
    T.storeElement i v = ⟨T.output + i, 1, v⟩ := by
  unfold storeElement
  rw [hwidth, Nat.one_mul]

theorem element_in {i : Nat} (hi : i < T.count) : T.width * i + T.width ≤ T.size := by
  have hmul : T.width * (i + 1) ≤ T.width * T.count := Nat.mul_le_mul_left _ hi
  rwa [Nat.mul_succ] at hmul

theorem storesElements_element {i : Nat} {v : Mem → Nat} (hi : i < T.count)
    (hv : ∀ m, T.Frame mem m → v m.1 = value i) :
    T.StoresElements mem value (T.storeElement i v) := by
  have hfit := element_in hi
  constructor
  · show T.output ≤ T.output + T.width * i ∧ T.output + T.width * i + T.width ≤ T.output + T.size
    omega
  · exact storesAt_element hv

theorem mem_stores {k : Core numThreads} {s : Store} :
    s ∈ T.stores k ↔ k.val < numThreads ∧ s ∈ T.kernel k := by
  unfold stores
  rw [Runtime.compute_cores_first]
  by_cases hk : k.val < numThreads
  · rw [if_pos (decide_eq_true hk)]
    exact ⟨fun hs => ⟨hk, hs⟩, fun hs => hs.2⟩
  · rw [if_neg (by rw [decide_eq_true_iff]; exact hk)]
    exact ⟨fun hs => absurd hs List.not_mem_nil, fun hs => absurd hs.1 hk⟩

/-- A kernel that stores its elements one by one. -/
theorem computes_of_elements {v : Nat → Mem → Nat}
    (hfits : ∀ i, i < T.count → value i < 256 ^ T.width)
    (hv : ∀ i, i < T.count → ∀ m, T.Frame mem m → v i m.1 = value i)
    (hstores : ∀ k : Core numThreads, k.val < numThreads → ∀ s ∈ T.kernel k,
      ∃ i, i < T.count ∧ s = T.storeElement i (v i))
    (hcovers : ∀ i, i < T.count → ∃ k : Core numThreads, k.val < numThreads ∧
      T.storeElement i (v i) ∈ T.kernel k) : T.Computes mem value := by
  refine ⟨hfits, ?_, ?_⟩
  · intro k s hs
    obtain ⟨hk, hs⟩ := mem_stores.mp hs
    obtain ⟨i, hi, rfl⟩ := hstores k hk s hs
    exact storesElements_element hi (hv i hi)
  · intro i hi
    obtain ⟨k, hk, hs⟩ := hcovers i hi
    exact ⟨k, _, mem_stores.mpr ⟨hk, hs⟩, le_rfl, le_rfl⟩

/-- The stores of the cores, as operations. -/
def acts (ss : Core numThreads → List Store) : Code (numThreads + 1) (Mem × Nat) Engine :=
  fun k => (ss k).map fun s => .act s.run

theorem acts_eq (ss : Core numThreads → List Store) (k : Core numThreads) :
    acts ss k = ((ss k).map Store.run).map .act := by
  unfold acts
  rw [List.map_map]
  rfl

theorem work_acts_eq (ss : Core numThreads → List Store) (k : Core numThreads) :
    work (acts ss k) = (ss k).map Store.run := by
  rw [acts_eq, work_acts]

theorem acts_free (ss : Core numThreads → List Store) (k : Core numThreads) :
    ∀ op ∈ acts ss k, op.isBarrier = false := by
  intro op hop
  obtain ⟨s, _, rfl⟩ := List.mem_map.mp hop
  rfl

theorem acts_drained (ss : Core numThreads → List Store) : Drained (acts ss) := by
  have hdrain := drained_acts (E := Engine) fun k => (ss k).map (Store.run (L := Nat))
  intro k
  rw [acts_eq]
  exact hdrain k

/-- What a stretch of stores leaves when they cover the output. -/
theorem stores_ends {ss : Core numThreads → List Store}
    (hstores : ∀ k, ∀ s ∈ ss k, T.StoresElements mem value s)
    (hcovers : ∀ i, i < T.count → ∃ k, ∃ s ∈ ss k, T.Covers i s)
    (hm : T.Frame mem m) (h : Ends (acts ss) m m') :
    T.Frame mem m' ∧ ∀ i, i < T.count →
      load m'.1 (T.output + T.width * i) T.width = value i % 256 ^ T.width := by
  have hkeeps : ∀ k, ∀ f ∈ work (acts ss k), Keeps (T.Frame mem) f := by
    intro k f hf
    rw [work_acts_eq] at hf
    obtain ⟨s, hs, rfl⟩ := List.mem_map.mp hf
    exact (hstores k s hs).keeps_frame
  have hcomm : Commuting (T.Frame mem) (acts ss) := by
    refine ⟨acts_free ss, hkeeps, ?_, ?_⟩
    · intro k
      rw [acts_eq, ← List.append_nil (List.map Op.act _)]
      exact ordered_acts (fun _ _ t ht => absurd ht List.not_mem_nil) trivial
    · intro k k' _ f hf g hg
      have hIf := hkeeps k f hf
      have hIg := hkeeps k' g hg
      rw [work_acts_eq] at hf hg
      obtain ⟨s, hs, rfl⟩ := List.mem_map.mp hf
      obtain ⟨s', hs', rfl⟩ := List.mem_map.mp hg
      exact (hstores k s hs).2.comm (hstores k' s' hs').2 hIf hIg
  have hall : allWork (acts ss) =
      (List.finRange (numThreads + 1)).flatMap fun k => (ss k).map Store.run := by
    unfold allWork
    simp only [work_acts_eq]
  have hmem : ∀ f ∈ (List.finRange (numThreads + 1)).flatMap (fun k => (ss k).map Store.run),
      Keeps (T.Frame mem) f ∧
        ∃ b n, StoresAt (T.Frame mem) (array T.output T.width value) b n f := by
    intro f hf
    obtain ⟨k, _, hf⟩ := List.mem_flatMap.mp hf
    obtain ⟨s, hs, rfl⟩ := List.mem_map.mp hf
    exact ⟨(hstores k s hs).keeps_frame, _, _, (hstores k s hs).2⟩
  constructor
  · exact h.keeps hkeeps hm
  · intro i hi
    obtain ⟨k, s, hs, hlo, hhi⟩ := hcovers i hi
    rw [hcomm.ends hm h, inTurn, hall, ← load_array T.output T.width]
    apply load_congr
    intro b hb hb'
    apply perform_stores_inside hmem hm
    left
    refine ⟨s.run, ?_, s.address, s.width, ⟨by omega, by omega⟩, (hstores k s hs).2⟩
    exact List.mem_flatMap.mpr ⟨k, List.mem_finRange k, List.mem_map_of_mem hs⟩

theorem compute_eq : T.compute = acts T.stores := rfl

theorem Computes.keeps_compute (h : T.Computes mem value) (k : Core numThreads) :
    ∀ f ∈ work (T.compute k), Keeps (T.Frame mem) f := by
  intro f hf
  rw [compute_eq, work_acts_eq] at hf
  obtain ⟨s, hs, rfl⟩ := List.mem_map.mp hf
  exact (h.stores k s hs).keeps_frame

theorem Placed.keeps_clear (h : T.Placed) : ∀ f ∈ work T.clear, Keeps (T.Frame mem) f := by
  intro f hf
  have hf' : f ∈ transfer T.output T.zero_memory T.cleared := by
    simpa [clear, work, Runtime.start_copies, Runtime.wait_all_waits, Op.tasks] using hf
  obtain ⟨i, hi, rfl⟩ := mem_transfer hf'
  have hle := h.cleared
  intro m hm
  refine ⟨?_, hm.2⟩
  intro a ha
  have hne : a ≠ T.output + i := by
    intro heq
    exact ha ⟨by omega, by omega⟩
  show Function.update m.1 (T.output + i) (m.1 (T.zero_memory + i)) a = mem a
  rw [Function.update_of_ne hne]
  exact hm.1 a ha

/-! ## Section 4: The accounts -/

section Accounts

variable {r : Metrics numThreads}

theorem account_eq_acts (k : Core numThreads) : r.account k =
    (if snrt_is_compute_core k then [r.addFetch k] else []).map .act := by
  unfold Metrics.account
  split <;> rfl

theorem account_free (k : Core numThreads) : ∀ op ∈ r.account k, op.isBarrier = false := by
  intro op hop
  rw [account_eq_acts] at hop
  obtain ⟨f, _, rfl⟩ := List.mem_map.mp hop
  rfl

theorem account_drained : Drained r.account := by
  have hacts := drained_acts (E := Engine) fun k : Core numThreads =>
    if snrt_is_compute_core k then [r.addFetch k] else []
  intro k
  rw [account_eq_acts]
  exact hacts k

/-- The sums of different cores do not commute, for `float` addition does not
    associate, but whatever their order, they change the sum alone. -/
theorem account_ends (h : Ends r.account m m') :
    (∀ a, ¬ (r.ops_per_cycle ≤ a ∧ a < r.ops_per_cycle + 4) → m'.1 a = m.1 a) ∧ m'.2 = m.2 := by
  apply h.keeps (I := fun now => (∀ a, ¬ (r.ops_per_cycle ≤ a ∧ a < r.ops_per_cycle + 4) →
    now.1 a = m.1 a) ∧ now.2 = m.2) _ ⟨fun _ _ => rfl, rfl⟩
  intro k f hf now ⟨hmem, hcount⟩
  rw [account_eq_acts, work_acts] at hf
  split at hf
  · obtain rfl := List.mem_singleton.mp hf
    refine ⟨?_, hcount⟩
    intro a ha
    exact (store_outside (by omega)).trans (hmem a ha)
  · cases hf

/-- The struct holds what core 0 reports, and nothing else is changed. -/
structure Reported (r : Metrics numThreads) (k : Core numThreads) (m m' : Mem × Nat) :
    Prop where
  errors : load m'.1 r.test_retVal 4 = m.2 % 2 ^ 32
  runtime_cycles : load m'.1 (r.test_retVal + 4) 4 = r.cycles k % 2 ^ 32
  ops_per_cycle : load m'.1 (r.test_retVal + 8) 4 = r.scaled (load m.1 r.ops_per_cycle 4) % 2 ^ 32
  outside : ∀ a, ¬ (r.test_retVal ≤ a ∧ a < r.test_retVal + 12) → m'.1 a = m.1 a
  count : m'.2 = m.2

theorem perform_report (hr : Apart r.test_retVal 12 r.ops_per_cycle 4) (k : Core numThreads)
    (m : Mem × Nat) : Reported r k m (perform (r.report k) m) := by
  unfold Apart at hr
  have hsum : load (store (store m.1 r.test_retVal m.2 4) (r.test_retVal + 4) (r.cycles k) 4)
      r.ops_per_cycle 4 = load m.1 r.ops_per_cycle 4 := by
    rw [load_store_of_disjoint (by omega), load_store_of_disjoint (by omega)]
  have hword : (256 : Nat) ^ 4 = 2 ^ 32 := by decide
  have hreport : perform (r.report k) m = (store (store (store m.1 r.test_retVal m.2 4)
      (r.test_retVal + 4) (r.cycles k) 4) (r.test_retVal + 8)
        (r.scaled (load m.1 r.ops_per_cycle 4)) 4, m.2) := by
    rw [← hsum]
    rfl
  rw [hreport]
  refine ⟨?_, ?_, ?_, ?_, rfl⟩
  · rw [load_store_of_disjoint (by omega), load_store_of_disjoint (by omega), load_store, hword]
  · rw [load_store_of_disjoint (by omega), load_store, hword]
  · rw [load_store, hword]
  · intro a ha
    show store (store (store _ _ _ _) _ _ _) _ _ _ a = _
    rw [store_outside (by omega), store_outside (by omega), store_outside (by omega)]

end Accounts

/-! ## Section 5: The verification -/

theorem perform_verify (n : Nat) (m : Mem × Nat) :
    perform ((List.range n).map T.verifyElement) m =
      (m.1, m.2 + (List.range n).countP fun i =>
        load m.1 (T.expected + T.width * i) T.width ≠
          load m.1 (T.output + T.width * i) T.width) := by
  induction n with
  | zero => rfl
  | succ n ih =>
    rw [List.range_succ, List.map_append, perform_append, ih, List.countP_append, ← Nat.add_assoc]
    show T.verifyElement n _ = _
    unfold verifyElement
    by_cases hne : load m.1 (T.expected + T.width * n) T.width =
        load m.1 (T.output + T.width * n) T.width
    · simp [hne]
    · simp [hne]

/-- What core 0 does in the verification. -/
def verification (T : KernelTest numThreads) (k : Core numThreads) :
    List (Mem × Nat → Mem × Nat) :=
  if k.val = 0 then (List.range T.count).map T.verifyElement ++ T.metrics.report k else []

theorem verify_eq_acts (k : Core numThreads) : T.verify k = (T.verification k).map .act := by
  unfold verify verification
  split <;> rfl

theorem work_verify (k : Core numThreads) : work (T.verify k) = T.verification k := by
  rw [verify_eq_acts, work_acts]

theorem allWork_verify : allWork T.verify = T.verification 0 := by
  unfold allWork
  rw [List.finRange_succ, List.flatMap_cons, List.flatMap_map, work_verify]
  have hrest : (List.finRange numThreads).flatMap (fun k => work (T.verify k.succ)) = [] := by
    apply List.flatMap_eq_nil_iff.mpr
    intro k _
    rw [work_verify]
    rfl
  rw [hrest, List.append_nil]

/-- Core 0 alone works in the verification. -/
theorem verify_commuting : Commuting (fun _ => True) T.verify := by
  refine ⟨?_, fun _ _ _ _ _ => trivial, ?_, ?_⟩
  · intro k op hop
    rw [verify_eq_acts] at hop
    obtain ⟨f, _, rfl⟩ := List.mem_map.mp hop
    rfl
  · intro k
    rw [verify_eq_acts, ← List.append_nil (List.map Op.act _)]
    exact ordered_acts (fun _ _ t ht => absurd ht List.not_mem_nil) trivial
  · intro k k' hne f hf g hg
    rw [work_verify, verification] at hf hg
    by_cases hk : k.val = 0
    · have hk' : k'.val ≠ 0 := fun h => hne (Fin.ext (hk.trans h.symm))
      rw [if_neg hk'] at hg
      cases hg
    · rw [if_neg hk] at hf
      cases hf

theorem verify_drained : Drained T.verify := by
  have hacts := drained_acts (E := Engine) T.verification
  intro k
  rw [verify_eq_acts]
  exact hacts k

/-- The number of elements that differ from the expected ones. -/
def differing (T : KernelTest numThreads) (mem : Mem) : Nat :=
  (List.range T.count).countP fun i =>
    load mem (T.expected + T.width * i) T.width ≠ load mem (T.output + T.width * i) T.width

/-- What comes after the repetitions leaves the memory as it is, but for the
    accounts, and reports the elements that differ. -/
theorem finish_ends (hr : Apart T.metrics.test_retVal 12 T.metrics.ops_per_cycle 4)
    (h : Ends T.finish m m') :
    ∃ m₁ : Mem × Nat, (∀ a, ¬ (T.metrics.ops_per_cycle ≤ a ∧ a < T.metrics.ops_per_cycle + 4) →
        m₁.1 a = m.1 a) ∧ m₁.2 = m.2 + T.differing m₁.1 ∧ Reported T.metrics 0 m₁ m' := by
  have hidle : Drained (fun _ => [] : Code (numThreads + 1) (Mem × Nat) Engine) := fun _ => rfl
  have hbal : Balanced (fun _ => [] : Code (numThreads + 1) (Mem × Nat) Engine) := fun _ _ => rfl
  obtain ⟨m₀, hnone, h⟩ := Ends.split_barrier hidle hbal (Nat.succ_pos _)
    (show Ends (fun k => [] ++ snrt_cluster_hw_barrier :: _) m m' from h)
  have hm₀ : m₀ = m := hnone.idle fun _ => rfl
  obtain ⟨m₁, haccount, h⟩ := Ends.split_barrier account_drained (balanced_of_free account_free)
    (Nat.succ_pos _) h
  obtain ⟨m₂, hnone', h⟩ := Ends.split_barrier hidle hbal (Nat.succ_pos _)
    (show Ends (fun k => [] ++ snrt_cluster_hw_barrier :: _) m₁ m' from h)
  have hm₂ : m₂ = m₁ := hnone'.idle fun _ => rfl
  obtain ⟨m₃, hverify, hlast⟩ := Ends.split_barrier verify_drained
    (balanced_of_free verify_commuting.free) (Nat.succ_pos _) h
  have hm' : m' = m₃ := hlast.idle fun _ => rfl
  obtain ⟨hmem, hcount⟩ := account_ends haccount
  refine ⟨(m₁.1, m₁.2 + T.differing m₁.1), ?_, ?_, ?_⟩
  · intro a ha
    rw [hmem a ha, hm₀]
  · rw [hcount, hm₀]
  · have hreport := perform_report hr 0 (m₁.1, m₁.2 + T.differing m₁.1)
    have hzero : (0 : Core numThreads).val = 0 := rfl
    rw [hm', verify_commuting.ends trivial hverify, inTurn, allWork_verify, verification,
      if_pos hzero, perform_append, perform_verify, hm₂]
    exact hreport

/-! ## Section 6: The test -/

theorem compute_drained : Drained T.compute := acts_drained T.stores

theorem barriers_compute (k : Core numThreads) : barriers (T.compute k) = 0 := by
  apply List.countP_eq_zero.mpr
  intro op hop
  rw [acts_free T.stores k op hop]
  exact Bool.false_ne_true

theorem left_clear (k : Core numThreads) : left k [] T.clear = [] := by
  have hflight : InFlight (started k [] T.output T.zero_memory T.cleared :
      List (Task _ (Mem × Nat) Engine)) :=
    InFlight.started fun _ ht => absurd ht List.not_mem_nil
  show left k (started k [] T.output T.zero_memory T.cleared) [snrt_dma_wait_all] = []
  rw [left_wait hflight]
  rfl

/-- The clearing that the core `k` does if `last`. -/
def clearIf (T : KernelTest numThreads) (k : Core numThreads) (last : Bool) : List (Op Nat) :=
  if snrt_is_dm_core k && last then T.clear else []

theorem left_clearIf (k : Core numThreads) (last : Bool) : left k [] (T.clearIf k last) = [] := by
  unfold clearIf
  split
  · exact left_clear k
  · rfl

theorem barriers_clearIf (k : Core numThreads) (last : Bool) : barriers (T.clearIf k last) = 0 := by
  unfold clearIf
  split <;> rfl

theorem work_clearIf {k : Core numThreads} {last : Bool} {f : Mem × Nat → Mem × Nat}
    (h : f ∈ work (T.clearIf k last)) : f ∈ work T.clear := by
  unfold clearIf at h
  split at h
  · exact h
  · cases h

theorem repetition_eq (repetitions : Nat) (k : Core numThreads) (i : Nat) :
    T.repetition repetitions k i =
      T.clearIf k (i = repetitions - 1) ++ snrt_cluster_hw_barrier :: T.compute k := rfl

/-- The code in front of the barrier of the last repetition. -/
def before (T : KernelTest numThreads) (r : Nat) : Code (numThreads + 1) (Mem × Nat) Engine :=
  fun k => snrt_cluster_hw_barrier ::
    ((List.range r).flatMap (T.repetition (r + 1) k) ++ T.clearIf k (r = r + 1 - 1))

theorem main_eq (r : Nat) : T.main (r + 1) = fun k =>
    T.before r k ++ snrt_cluster_hw_barrier ::
      (T.compute k ++ snrt_cluster_hw_barrier :: T.finish k) := by
  funext k
  unfold main before
  rw [List.range_succ, List.flatMap_append, List.flatMap_singleton, repetition_eq]
  simp only [List.cons_append, List.append_assoc]

theorem before_drained (r : Nat) : Drained (T.before r) := by
  intro k
  show left k [] ((List.range r).flatMap (T.repetition (r + 1) k) ++ T.clearIf k _) = []
  rw [left_append, left_flatMap, left_clearIf]
  intro i _
  rw [repetition_eq, left_append, left_clearIf]
  exact compute_drained k

theorem before_balanced (r : Nat) : Balanced (T.before r) := by
  have hrep : ∀ (reps : Nat) (k : Core numThreads) (l : List Nat),
      barriers (l.flatMap (T.repetition reps k)) = l.length := by
    intro reps k l
    induction l with
    | nil => rfl
    | cons i l ih =>
      rw [List.flatMap_cons, repetition_eq]
      unfold barriers at ih ⊢
      rw [List.countP_append, ih, List.countP_append, List.countP_cons_of_pos rfl]
      have hclear : (T.clearIf k (i = reps - 1)).countP Op.isBarrier = 0 := barriers_clearIf k _
      have hcompute : (T.compute k).countP Op.isBarrier = 0 := barriers_compute k
      rw [hclear, hcompute, List.length_cons]
      omega
  have hcount : ∀ k, barriers (T.before r k) = r + 1 := by
    intro k
    show (snrt_cluster_hw_barrier :: (_ ++ _)).countP Op.isBarrier = r + 1
    have hloop := hrep (r + 1) k (List.range r)
    have hclear := barriers_clearIf (T := T) k (r = r + 1 - 1)
    unfold barriers at hloop hclear
    rw [List.countP_cons_of_pos rfl, List.countP_append, hloop, hclear, List.length_range]
  intro k k'
  rw [hcount, hcount]

theorem keeps_before (hplaced : T.Placed) (h : T.Computes mem value) (r : Nat)
    (k : Core numThreads) :
    ∀ f ∈ work (T.before r k), Keeps (T.Frame mem) f := by
  intro f hf
  have hf' : f ∈ work ((List.range r).flatMap (T.repetition (r + 1) k)) ∨
      f ∈ work (T.clearIf k (r = r + 1 - 1)) := by
    apply List.mem_append.mp
    rw [← work_append]
    exact hf
  obtain hloop | hclear := hf'
  · obtain ⟨op, hop, hf⟩ := List.mem_flatMap.mp hloop
    obtain ⟨i, _, hop⟩ := List.mem_flatMap.mp hop
    have hrep : f ∈ work (T.repetition (r + 1) k i) := List.mem_flatMap.mpr ⟨op, hop, hf⟩
    rw [repetition_eq, work_append] at hrep
    obtain hclear | hcompute := List.mem_append.mp hrep
    · exact hplaced.keeps_clear f (work_clearIf hclear)
    · exact h.keeps_compute k f hcompute
  · exact hplaced.keeps_clear f (work_clearIf hclear)

/-- What a test leaves: the elements of the output, nothing else changed but
    the accounts, and the elements counted that differ from the expected
    ones, in `test_retVal` and in what is returned. -/
structure Reports (T : KernelTest numThreads) (mem : Mem) (value : Nat → Nat) (m : Mem × Nat) :
    Prop where
  output : ∀ i, i < T.count → load m.1 (T.output + T.width * i) T.width = value i
  outside : ∀ a, ¬ T.InOutput a → ¬ T.metrics.Holds a → m.1 a = mem a
  errors : m.2 = (List.range T.count).countP fun i =>
    load mem (T.expected + T.width * i) T.width ≠ value i
  result : load m.1 T.metrics.test_retVal 4 = m.2 % 2 ^ 32
  runtime_cycles : load m.1 (T.metrics.test_retVal + 4) 4 = T.metrics.cycles 0 % 2 ^ 32
  ops_per_cycle : load m.1 (T.metrics.test_retVal + 8) 4 =
    T.metrics.scaled (load m.1 T.metrics.ops_per_cycle 4) % 2 ^ 32
  returned : ∀ k : Core numThreads, retVal m k = if k.val = 0 then 2 * m.2 % 2 ^ 32 else 0

/-- The element of a vector that lies apart from what is measured. -/
theorem load_element {base : Nat} {mem mem' : Mem} {a n i : Nat} (happ : Apart base T.size a n)
    (hmem : ∀ b, ¬ (a ≤ b ∧ b < a + n) → mem' b = mem b) (hi : i < T.count) :
    load mem' (base + T.width * i) T.width = load mem (base + T.width * i) T.width := by
  have hfit := element_in hi
  unfold Apart at happ
  apply load_congr
  intro b hlo hhi
  exact hmem b (by omega)

theorem retVal_eq (m : Mem × Nat) (k : Core numThreads) :
    retVal m k = if k.val = 0 then 2 * m.2 % 2 ^ 32 else 0 := by
  unfold retVal
  split
  · rw [Nat.shiftLeft_eq, Nat.pow_one, Nat.mul_comm]
  · rfl

/-- With the output computed, the verification counts what differs. -/
theorem verified (hplaced : T.Placed) (hframe : T.Frame mem m)
    (hout : ∀ i, i < T.count → load m.1 (T.output + T.width * i) T.width = value i)
    (h : Ends T.finish m m') : T.Reports mem value m' := by
  have hr := hplaced.metrics
  obtain ⟨m₁, hsum, hcount, hreport⟩ := finish_ends hr.result_sum h
  have hout₁ : ∀ i, i < T.count → load m₁.1 (T.output + T.width * i) T.width = value i := by
    intro i hi
    rw [load_element hr.sum_output hsum hi, hout i hi]
  have hsumword : load m'.1 T.metrics.ops_per_cycle 4 = load m₁.1 T.metrics.ops_per_cycle 4 := by
    have happ := hr.result_sum
    unfold Apart at happ
    apply load_congr
    intro a hlo hhi
    exact hreport.outside a (by omega)
  have hcount' : m'.2 = (List.range T.count).countP fun i =>
      load mem (T.expected + T.width * i) T.width ≠ value i := by
    rw [hreport.count, hcount, hframe.2, Nat.zero_add]
    apply List.countP_congr
    intro i hi
    have hi := List.mem_range.mp hi
    have hfit := element_in hi
    have happ := hplaced.expected
    unfold Apart at happ
    have hexpected : load m.1 (T.expected + T.width * i) T.width =
        load mem (T.expected + T.width * i) T.width := by
      apply load_congr
      intro a hlo hhi
      apply hframe.1
      intro ⟨h₁, h₂⟩
      omega
    rw [load_element hr.sum_expected hsum hi, hexpected, hout₁ i hi]
  refine ⟨?_, ?_, hcount', ?_, hreport.runtime_cycles, ?_, retVal_eq m'⟩
  · intro i hi
    rw [load_element hr.result_output hreport.outside hi, hout₁ i hi]
  · intro a ha hmetrics
    unfold Metrics.Holds at hmetrics
    rw [hreport.outside a (by omega), hsum a (by omega)]
    exact hframe.1 a ha
  · rw [hreport.errors, hreport.count]
  · rw [hreport.ops_per_cycle, hsumword]

theorem balanced_barrier : Balanced
    (fun _ => [snrt_cluster_hw_barrier] : Code (numThreads + 1) (Mem × Nat) Engine) :=
  fun _ _ => rfl

theorem compute_balanced : Balanced T.compute :=
  fun k k' => (barriers_compute k).trans (barriers_compute k').symm

theorem finish_balanced : Balanced T.finish := by
  have haccount : Balanced T.metrics.account := balanced_of_free account_free
  have hverify := balanced_of_free (verify_commuting (T := T)).free
  exact balanced_barrier.append (haccount.append (balanced_barrier.append
    (balanced_barrier.append (hverify.append balanced_barrier))))

theorem main_balanced (r : Nat) : Balanced (T.main (r + 1)) := by
  rw [main_eq]
  exact (before_balanced r).append (balanced_barrier.append (compute_balanced.append
    (balanced_barrier.append finish_balanced)))

theorem Computes.verified (hplaced : T.Placed) (h : T.Computes mem value)
    (hm : T.Frame mem m ∧ ∀ i, i < T.count →
      load m.1 (T.output + T.width * i) T.width = value i % 256 ^ T.width)
    (hend : Ends T.finish m m') : T.Reports mem value m' := by
  apply KernelTest.verified hplaced hm.1 _ hend
  intro i hi
  rw [hm.2 i hi, Nat.mod_eq_of_lt (h.fits i hi)]

/-- Every run of a test ends, and reports on `value`. -/
structure Tests (T : KernelTest numThreads) (code : Code (numThreads + 1) (Mem × Nat) Engine)
    (mem : Mem) (value : Nat → Nat) : Prop where
  terminates : system.Terminates (initial code (mem, 0))
  finished : ∀ s, Reaches code (mem, 0) s → system.Stuck s → Finished s
  reports : ∀ m, Ends code (mem, 0) m → T.Reports mem value m

theorem main_ends (hplaced : T.Placed) (h : T.Computes mem value) (r : Nat)
    (hend : Ends (T.main (r + 1)) (mem, 0) m) : T.Reports mem value m := by
  rw [main_eq] at hend
  obtain ⟨m₁, hbefore, hend⟩ := Ends.split_barrier (before_drained r) (before_balanced r)
    (Nat.succ_pos _) hend
  have hm₁ : T.Frame mem m₁ := hbefore.keeps (keeps_before hplaced h r) ⟨fun _ _ => rfl, rfl⟩
  obtain ⟨m₂, hlast, hfinish⟩ := Ends.split_barrier compute_drained compute_balanced
    (Nat.succ_pos _) hend
  exact h.verified hplaced (stores_ends h.stores h.covers hm₁ hlast) hfinish

/-- What the core `k` stores in `n` repetitions. -/
def repeated (T : KernelTest numThreads) (n : Nat) (k : Core numThreads) : List Store :=
  (List.range n).flatMap fun _ => T.stores k

theorem mem_repeated {n : Nat} {k : Core numThreads} {s : Store} :
    s ∈ T.repeated n k ↔ 0 < n ∧ s ∈ T.stores k := by
  constructor
  · intro hs
    obtain ⟨i, hi, hs⟩ := List.mem_flatMap.mp hs
    exact ⟨Nat.zero_lt_of_lt (List.mem_range.mp hi), hs⟩
  · intro ⟨hn, hs⟩
    exact List.mem_flatMap.mpr ⟨0, List.mem_range.mpr hn, hs⟩

theorem mainWithoutClear_eq (n : Nat) : T.mainWithoutClear n = fun k =>
    [] ++ snrt_cluster_hw_barrier ::
      (acts (T.repeated n) k ++ snrt_cluster_hw_barrier :: T.finish k) := by
  funext k
  unfold mainWithoutClear acts repeated
  rw [List.map_flatMap]
  rfl

theorem mainWithoutClear_balanced (n : Nat) : Balanced (T.mainWithoutClear n) := by
  have hidle : Balanced (fun _ => [] : Code (numThreads + 1) (Mem × Nat) Engine) := fun _ _ => rfl
  rw [mainWithoutClear_eq]
  exact hidle.append (balanced_barrier.append ((balanced_of_free (acts_free (T.repeated n))).append
    (balanced_barrier.append finish_balanced)))

/-- **The tests that clear**: the clearing may overlap with the stores of the
    repetition before, and still every run reports on what the kernel
    computes, for the last repetition stores every element again. -/
theorem main_tests (hplaced : T.Placed) (h : T.Computes mem value) {repetitions : Nat}
    (hrep : 0 < repetitions) : T.Tests (T.main repetitions) mem value := by
  obtain ⟨r, rfl⟩ := Nat.exists_eq_succ_of_ne_zero hrep.ne'
  obtain ⟨hterm, hfin⟩ := runs_end (Nat.succ_pos _) (main_balanced (T := T) r) (mem, 0)
  exact ⟨hterm, hfin, fun m hm => main_ends hplaced h r hm⟩

theorem mainWithoutClear_ends (hplaced : T.Placed) (h : T.Computes mem value) (r : Nat)
    (hend : Ends (T.mainWithoutClear (r + 1)) (mem, 0) m) : T.Reports mem value m := by
  rw [mainWithoutClear_eq] at hend
  obtain ⟨m₀, hidle, hend⟩ := Ends.split_barrier (fun _ => rfl) (fun _ _ => rfl)
    (Nat.succ_pos _) hend
  have hm₀ : m₀ = (mem, 0) := hidle.idle fun _ => rfl
  obtain ⟨m₁, hloop, hfinish⟩ := Ends.split_barrier (acts_drained (T.repeated (r + 1)))
    (balanced_of_free (acts_free _)) (Nat.succ_pos _) hend
  have hm : T.Frame mem m₀ := by
    rw [hm₀]
    exact ⟨fun _ _ => rfl, rfl⟩
  have hcovers : ∀ i, i < T.count → ∃ k, ∃ s ∈ T.repeated (r + 1) k, T.Covers i s := by
    intro i hi
    obtain ⟨k, s, hs, hin⟩ := h.covers i hi
    exact ⟨k, s, mem_repeated.mpr ⟨Nat.succ_pos r, hs⟩, hin⟩
  exact h.verified hplaced (stores_ends (fun k s hs => h.stores k s (mem_repeated.mp hs).2)
    hcovers hm hloop) hfinish

/-- **The test that does not clear**: with no barrier in between, a core may
    be repetitions ahead of the others. -/
theorem mainWithoutClear_tests (hplaced : T.Placed) (h : T.Computes mem value) {repetitions : Nat}
    (hrep : 0 < repetitions) : T.Tests (T.mainWithoutClear repetitions) mem value := by
  obtain ⟨r, rfl⟩ := Nat.exists_eq_succ_of_ne_zero hrep.ne'
  obtain ⟨hterm, hfin⟩ :=
    runs_end (Nat.succ_pos _) (mainWithoutClear_balanced (T := T) (r + 1)) (mem, 0)
  exact ⟨hterm, hfin, fun m hm => mainWithoutClear_ends hplaced h r hm⟩

end KernelTest

/-- The sum at `a` and the struct behind it, each core with its own number of
    cycles, and additions of integers in place of those of `float` words. -/
def measuredAt (a numThreads : Nat) : Metrics numThreads where
  ops_per_cycle := a
  test_retVal := a + 4
  cycles k := 100 + k.val
  ops_per_cycle_per_core cycles := cycles
  addFloat := (· + ·)
  scaled v := 1000000 * v

/-- Behind the output and the expected output there is room for them. -/
theorem measuredAt_placed (numThreads : Nat) {a output expected size : Nat}
    (houtput : output + size ≤ a) (hexpected : expected + size ≤ a) :
    (measuredAt a numThreads).Placed output expected size where
  sum_output := .inl houtput
  sum_expected := .inl hexpected
  result_output := .inl (Nat.le_add_right_of_le houtput)
  result_sum := .inr le_rfl

end Snrt
