import ChimeraSdk.Device.Trampoline

/-! # Who Is Who

    The host names a core by its cluster and its number there, and finds
    the hart in a table of bytes.  The core knows its hart and finds its
    cluster by comparing with four thresholds, without a branch.  Both
    sides find the core's slot in the trampoline arrays from the hart: the
    host by an index, the core by adding to an address. -/

open LinkerScript Soc LinkLd

namespace HartMap

variable (t : Target) (m : SocAddrMap)

/-! ## Section 1: Harts -/

/-- `_chimera_hartBase[c]` -/
def chimera_hartBase (c : ClusterId) : BitVec 8 := BitVec.ofNat 8 (m.hartBase c)

/-- `_get_hart_id` -/
def get_hart_id (clusterId : ClusterId) (core_id : BitVec 32) : BitVec 32 :=
  (chimera_hartBase m clusterId).setWidth 32 + core_id

/-- The hart of a core lies in the block of its cluster. -/
theorem hartId_eq (c : ClusterId) (k : Nat) :
    m.hartId c k = CLUSTER_HART_BASE + (Blocks.start (List.ofFn m.numCores) c + k) :=
  Nat.add_assoc ..

/-- The harts of the clusters are numbers of a byte. -/
theorem hartId_le {c : ClusterId} {k : Nat} (hk : k < m.numCores c) : m.hartId c k < 255 := by
  have hbase := m.hartBase_add_numCores_le c
  have hfit : CLUSTER_HART_BASE + m.NUM_CLUSTER_CORES ≤ 255 := m.harts_fit
  unfold SocAddrMap.hartId
  omega

theorem get_hart_id_eq {c : ClusterId} {k : Nat} (hk : k < m.numCores c) :
    get_hart_id m c (BitVec.ofNat 32 k) = BitVec.ofNat 32 (m.hartId c k) := by
  have hle : m.hartBase c + k < 255 := hartId_le m hk
  apply BitVec.eq_of_toNat_eq
  rw [get_hart_id, chimera_hartBase, BitVec.toNat_add, BitVec.toNat_setWidth, BitVec.toNat_ofNat,
    BitVec.toNat_ofNat, BitVec.toNat_ofNat]
  unfold SocAddrMap.hartId
  omega

/-- The loop of `offload_snitchCluster` counts up from the hart of core 0. -/
theorem get_hart_id_zero_add (c : ClusterId) (i : BitVec 32) :
    get_hart_id m c 0#32 + i = get_hart_id m c i := by
  unfold get_hart_id
  rw [BitVec.add_zero]

/-! ## Section 2: The cluster of a hart -/

def sltu (a b : BitVec 32) : BitVec 32 := if a < b then 1 else 0

/-- The instructions for one threshold: `t1 += (t0 >= thresh) ? 1 : 0`. -/
def addReached (t0 t1 thresh : BitVec 32) : BitVec 32 :=
  let t3 := sltu t0 thresh
  let t3 := t3 ^^^ 1
  t1 + t3

/-- The operands `%1` to `%4`. -/
def thresholds : List (BitVec 32) :=
  [BitVec.ofNat 32 (HOST_NUMCORES + m.numCores 0),
   BitVec.ofNat 32 (HOST_NUMCORES + m.numCores 0 + m.numCores 1),
   BitVec.ofNat 32 (HOST_NUMCORES + m.numCores 0 + m.numCores 1 + m.numCores 2),
   BitVec.ofNat 32 (HOST_NUMCORES + m.numCores 0 + m.numCores 1 + m.numCores 2 + m.numCores 3)]

/-- `__CLUSTER_ID_ASM` leaves the cluster in `t1`. -/
def cluster_id (mhartid : BitVec 32) : BitVec 32 :=
  (thresholds m).foldl (addReached mhartid) 0#32

theorem addReached_eq (t0 t1 thresh : BitVec 32) :
    addReached t0 t1 thresh = t1 + if thresh ≤ t0 then 1 else 0 := by
  unfold addReached sltu
  by_cases h : t0 < thresh
  · have hnot : ¬ thresh ≤ t0 := BitVec.not_le.mpr h
    rw [if_pos h, if_neg hnot]
    rfl
  · have hle : thresh ≤ t0 := BitVec.not_lt.mp h
    rw [if_neg h, if_pos hle]
    rfl

/-- The thresholds that a hart has reached are counted. -/
theorem foldl_addReached (t0 t1 : BitVec 32) (l : List (BitVec 32)) :
    l.foldl (addReached t0) t1 = t1 + BitVec.ofNat 32 (l.countP (fun thresh => thresh ≤ t0)) := by
  induction l generalizing t1 with
  | nil => exact (BitVec.add_zero t1).symm
  | cons thresh l ih =>
    rw [List.foldl_cons, ih, addReached_eq, List.countP_cons, BitVec.ofNat_add, BitVec.add_assoc,
      BitVec.add_comm (BitVec.ofNat 32 _)]
    by_cases h : thresh ≤ t0
    · rw [if_pos h, if_pos (decide_eq_true h)]
      rfl
    · rw [if_neg h, if_neg (by rwa [decide_eq_true_eq])]
      rfl

/-- The thresholds are where the clusters behind the first start. -/
theorem thresholds_eq : thresholds m =
    (List.range' 1 4).map fun j =>
      BitVec.ofNat 32 (HOST_NUMCORES + Blocks.start (List.ofFn m.numCores) j) := by
  simp [thresholds, Blocks.start, List.ofFn_succ, List.range'_succ, Nat.add_assoc]

/-- **A core finds its cluster.** -/
theorem cluster_id_hartId {c : ClusterId} {k : Nat} (hk : k < m.numCores c) :
    cluster_id m (BitVec.ofNat 32 (m.hartId c k)) = BitVec.ofNat 32 c := by
  have hc : (c : Nat) < (List.ofFn m.numCores).length := by
    rw [List.length_ofFn]
    exact c.isLt
  have hk' : k < (List.ofFn m.numCores)[(c : Nat)] := by
    rw [List.getElem_ofFn]
    exact hk
  have hfit : CLUSTER_HART_BASE + m.NUM_CLUSTER_CORES ≤ 255 := m.harts_fit
  have hhart := hartId_le m hk
  have hblock := Blocks.blockOf_start_add hc hk'
  rw [cluster_id, foldl_addReached, thresholds_eq, List.countP_map, BitVec.zero_add]
  congr 1
  rw [← hblock, Blocks.blockOf, List.length_ofFn]
  refine List.countP_congr fun j _ => ?_
  -- none of the numbers that are compared wraps around
  have hstart : Blocks.start (List.ofFn m.numCores) j ≤ m.NUM_CLUSTER_CORES := Blocks.start_le_sum
  have hsame : HOST_NUMCORES = CLUSTER_HART_BASE := rfl
  rw [hartId_eq] at hhart
  simp only [Function.comp_apply, decide_eq_true_eq, BitVec.le_def, BitVec.toNat_ofNat,
    hartId_eq]
  rw [Nat.mod_eq_of_lt (by omega), Nat.mod_eq_of_lt (by omega)]
  omega

/-! ## Section 3: The busy register -/

/-- The words of the physical address space. -/
abbrev Words : Type := Nat → BitVec 32

def SOC_CTRL_BASE : Nat := 0x30001000
def CHIMERA_CLUSTER_0_BUSY_REG_OFFSET : Nat := 0x5c
def CHIMERA_CLUSTER_1_BUSY_REG_OFFSET : Nat := 0x60
def CHIMERA_CLUSTER_2_BUSY_REG_OFFSET : Nat := 0x64
def CHIMERA_CLUSTER_3_BUSY_REG_OFFSET : Nat := 0x68
def CHIMERA_CLUSTER_4_BUSY_REG_OFFSET : Nat := 0x6c

/-- The address in `t1` behind `__CLUSTER_ID_ASM`, `slli` and `add`. -/
def busyAddress (mhartid : BitVec 32) : BitVec 32 :=
  let t1 := cluster_id m mhartid <<< 2
  BitVec.ofNat 32 (SOC_CTRL_BASE + CHIMERA_CLUSTER_0_BUSY_REG_OFFSET) + t1

def SET_CLUSTER_BUSY (mhartid : BitVec 32) (w : Words) : Words :=
  Function.update w (busyAddress m mhartid).toNat 1

def CLEAR_CLUSTER_BUSY (mhartid : BitVec 32) (w : Words) : Words :=
  Function.update w (busyAddress m mhartid).toNat 0

/-- `busy_ptr`, unless `snitchCluster_busy` returns early. -/
def busy_ptr (clusterId : BitVec 8) : Option Nat :=
  match clusterId.toNat with
  | 0 => some (SOC_CTRL_BASE + CHIMERA_CLUSTER_0_BUSY_REG_OFFSET)
  | 1 => some (SOC_CTRL_BASE + CHIMERA_CLUSTER_1_BUSY_REG_OFFSET)
  | 2 => some (SOC_CTRL_BASE + CHIMERA_CLUSTER_2_BUSY_REG_OFFSET)
  | 3 => some (SOC_CTRL_BASE + CHIMERA_CLUSTER_3_BUSY_REG_OFFSET)
  | 4 => some (SOC_CTRL_BASE + CHIMERA_CLUSTER_4_BUSY_REG_OFFSET)
  | _ => none

def snitchCluster_busy (w : Words) (clusterId : BitVec 8) : BitVec 32 :=
  match busy_ptr clusterId with
  | some p => w p
  | none => -1

/-- The registers of the clusters follow one another. -/
theorem busy_ptr_eq {clusterId : BitVec 8} (h : clusterId.toNat < NUM_CLUSTERS) :
    busy_ptr clusterId =
      some (SOC_CTRL_BASE + CHIMERA_CLUSTER_0_BUSY_REG_OFFSET + 4 * clusterId.toNat) := by
  unfold busy_ptr
  generalize clusterId.toNat = n at h
  match n, h with
  | 0, _ | 1, _ | 2, _ | 3, _ | 4, _ => rfl

theorem busy_ptr_eq_none {clusterId : BitVec 8} (h : NUM_CLUSTERS ≤ clusterId.toNat) :
    busy_ptr clusterId = none := by
  unfold busy_ptr
  generalize clusterId.toNat = n at h
  match n, h with
  | n + 5, _ => rfl

theorem busyAddress_hartId {c : ClusterId} {k : Nat} (hk : k < m.numCores c) :
    (busyAddress m (BitVec.ofNat 32 (m.hartId c k))).toNat =
      SOC_CTRL_BASE + CHIMERA_CLUSTER_0_BUSY_REG_OFFSET + 4 * c := by
  have hc : (c : Nat) < 5 := c.isLt
  have hbase : SOC_CTRL_BASE + CHIMERA_CLUSTER_0_BUSY_REG_OFFSET = 0x3000105c := rfl
  show (BitVec.ofNat 32 _ + cluster_id m _ <<< 2).toNat = _
  rw [cluster_id_hartId m hk, hbase, BitVec.toNat_add, BitVec.toNat_shiftLeft, BitVec.toNat_ofNat,
    BitVec.toNat_ofNat, Nat.shiftLeft_eq]
  omega

/-- **A core sets the register that the host polls** for the core's cluster,
    and no other one. -/
theorem snitchCluster_busy_update {c : ClusterId} {k : Nat} (hk : k < m.numCores c)
    (clusterId : BitVec 8) (w : Words) (v : BitVec 32) :
    snitchCluster_busy
        (Function.update w (busyAddress m (BitVec.ofNat 32 (m.hartId c k))).toNat v) clusterId =
      if clusterId.toNat = c then v else snitchCluster_busy w clusterId := by
  have hc : (c : Nat) < NUM_CLUSTERS := c.isLt
  unfold snitchCluster_busy
  rw [busyAddress_hartId m hk]
  by_cases hrange : clusterId.toNat < NUM_CLUSTERS
  · rw [busy_ptr_eq hrange]
    show Function.update w _ v _ = _
    by_cases heq : clusterId.toNat = c
    · rw [if_pos heq, heq, Function.update_self]
    · rw [if_neg heq, Function.update_of_ne (by omega)]
  · rw [busy_ptr_eq_none (by omega), if_neg (by omega)]

/-! ## Section 4: The slots -/

/-- The address of `shared_data`, the one object of `.common`, in all
    binaries. -/
def shared_data : Nat := 0x48000000

variable {t} in
/-- The linker puts `.common` first, at an address that suits the alignment
    of `shared_data`. -/
theorem common_start {first : SectionName} {b : Binary first} {secs : Script} {K : Image}
    (h : layout (memory t) b.toInputs (common :: secs) (Layout.start (memory t)) =
      some K) (halign : b.align .common = 64) :
    K.symbols.lookup (.start .common) = some shared_data := by
  obtain ⟨K', hplace, hrest⟩ := Option.bind_eq_some_iff.mp h
  obtain ⟨p, d, cur, hat, -, hsym, -, -⟩ := place_kept hplace rfl
  have hvma : p.vma = shared_data := by
    have hattr : common.alignment b.toInputs = 64 := by
      show max 64 (b.align .common) = 64
      rw [halign, max_self]
    rw [hat.vma, hattr]
    show Align.alignUp 0x48000000 64 = 0x48000000
    exact Align.alignUp_of_mod (by decide) (by decide)
  have hbody := hat.body
  cases hbody
  refine (layout_continues hrest).lookup ?_
  rw [hsym, ← hvma]
  rfl

variable {t} in
/-- Host and devices are linked with `shared_data` at the same address. -/
theorem shared_data_linked {prevEnd : Option Nat} {L : Image} :
    (∀ h : Host, h.align .common = 64 → linkHost t prevEnd h = some L →
      L.symbols.lookup (.start .common) = some shared_data) ∧
    (∀ d : Device, d.align .common = 64 → linkDevice t prevEnd d = some L →
      L.symbols.lookup (.start .common) = some shared_data) := by
  constructor
  · intro h halign hlink
    exact common_start hlink halign
  · intro d halign hlink
    obtain ⟨A, B, C, D, hstages⟩ := linkDevice_stages hlink
    obtain ⟨tbssEnd, -, -, -, hsymbols⟩ := assignDeviceEnd_eq hstages.last
    rw [hsymbols, List.lookup_append, common_start hstages.script halign, Option.some_or]

/-- The trampoline arrays of `chimera_shared_data_t`. -/
inductive SlotField where
  | trampoline_function
  | trampoline_args
  | trampoline_stack
  deriving DecidableEq, Repr

/-- The size of `host_to_device` and of `device_to_host`. -/
def channelSize : Target → Nat
  | .chimeraConvolve => 8
  | .chimeraOpen => 4

/-- The offsets of the packed struct: the two channels and the two arrays of
    flags come first. -/
def offsetof (f : SlotField) : Nat :=
  let trampoline := 2 * channelSize t + 2 * (4 * NUM_CLUSTERS)
  match f with
  | .trampoline_function => trampoline
  | .trampoline_args => trampoline + 4 * m.NUM_CLUSTER_CORES
  | .trampoline_stack => trampoline + 4 * m.NUM_CLUSTER_CORES + 4 * m.NUM_CLUSTER_CORES

/-- Where element `i` of an array is. -/
def elementAddress (f : SlotField) (i : Nat) : Nat := shared_data + offsetof t m f + 4 * i

/-- `_setup_trampoline` -/
def setup_trampoline (hartID : BitVec 32) (function args stack : BitVec 64) (w : Words) : Words :=
  let trampoline_idx := hartID - BitVec.ofNat 32 CLUSTER_HART_BASE
  let w := Function.update w (elementAddress t m .trampoline_function trampoline_idx.toNat)
    (function.setWidth 32)
  let w := Function.update w (elementAddress t m .trampoline_args trampoline_idx.toNat)
    (args.setWidth 32)
  Function.update w (elementAddress t m .trampoline_stack trampoline_idx.toNat) (stack.setWidth 32)

/-- The address that the trampoline loads from.  The offset is an immediate
    of `addi`. -/
def loadAddress (f : SlotField) (mhartid : BitVec 32) : BitVec 32 :=
  let t0 := mhartid + -BitVec.ofNat 32 CLUSTER_HART_BASE
  let t0 := t0 <<< 2
  let a := BitVec.ofNat 32 shared_data
  let a := a + BitVec.ofNat 32 (offsetof t m f)
  a + t0

/-- What the trampoline loads before it jumps. -/
def trampolineLoads (mhartid : BitVec 32) (w : Words) : Offload.Task where
  function := w (loadAddress t m .trampoline_function mhartid).toNat
  args := w (loadAddress t m .trampoline_args mhartid).toNat
  stack := w (loadAddress t m .trampoline_stack mhartid).toNat

/-- The arrays in the memory of the offload model. -/
def sharedData (w : Words) : Offload.SharedData where
  trampoline_function := fun i => w (elementAddress t m .trampoline_function i)
  trampoline_args := fun i => w (elementAddress t m .trampoline_args i)
  trampoline_stack := fun i => w (elementAddress t m .trampoline_stack i)

/-- The arrays do not overlap. -/
theorem offsetof_apart {f g : SlotField} (hne : f ≠ g) :
    offsetof t m f + 4 * m.NUM_CLUSTER_CORES ≤ offsetof t m g ∨
    offsetof t m g + 4 * m.NUM_CLUSTER_CORES ≤ offsetof t m f := by
  cases f <;> cases g <;> simp only [offsetof] <;> first | omega | exact absurd rfl hne

/-- Elements inside the arrays do not share a word. -/
theorem elementAddress_inj {f g : SlotField} {i j : Nat} (hi : i < m.NUM_CLUSTER_CORES)
    (hj : j < m.NUM_CLUSTER_CORES) :
    elementAddress t m f i = elementAddress t m g j ↔ f = g ∧ i = j := by
  unfold elementAddress
  constructor
  · intro h
    by_cases hfg : f = g
    · subst hfg
      exact ⟨rfl, by omega⟩
    · have := offsetof_apart t m hfg
      omega
  · intro h
    rw [h.1, h.2]

/-- The structure ends in the low 4 GiB. -/
theorem elementAddress_lt (f : SlotField) {i : Nat} (hi : i < m.NUM_CLUSTER_CORES) :
    elementAddress t m f i < 2 ^ 32 := by
  have hfit : CLUSTER_HART_BASE + m.NUM_CLUSTER_CORES ≤ 255 := m.harts_fit
  have hchannel : channelSize t ≤ 8 := by
    cases t <;> decide
  have hclusters : NUM_CLUSTERS = 5 := rfl
  have hoffset : offsetof t m f ≤
      2 * channelSize t + 2 * (4 * NUM_CLUSTERS) + 8 * m.NUM_CLUSTER_CORES := by
    cases f <;> simp only [offsetof] <;> omega
  unfold elementAddress shared_data
  omega

/-- The host's index of a hart. -/
theorem trampoline_idx_toNat {h : Nat} (hh : h ∈ m.harts) :
    (BitVec.ofNat 32 h - BitVec.ofNat 32 CLUSTER_HART_BASE).toNat = Offload.trampolineIdx h := by
  obtain ⟨hlo, hhi⟩ := m.mem_harts.mp hh
  have hfit : CLUSTER_HART_BASE + m.NUM_CLUSTER_CORES ≤ 255 := m.harts_fit
  rw [BitVec.toNat_sub_of_le, BitVec.toNat_ofNat, BitVec.toNat_ofNat]
  · unfold Offload.trampolineIdx
    omega
  · rw [BitVec.le_def, BitVec.toNat_ofNat, BitVec.toNat_ofNat]
    omega

theorem trampolineIdx_lt {h : Nat} (hh : h ∈ m.harts) :
    Offload.trampolineIdx h < m.NUM_CLUSTER_CORES := by
  obtain ⟨hlo, hhi⟩ := m.mem_harts.mp hh
  unfold Offload.trampolineIdx
  omega

/-- **The core loads from the element that the host indexes.** -/
theorem loadAddress_toNat (f : SlotField) {h : Nat} (hh : h ∈ m.harts) :
    (loadAddress t m f (BitVec.ofNat 32 h)).toNat =
      elementAddress t m f (Offload.trampolineIdx h) := by
  have hidx := trampolineIdx_lt m hh
  have hlt := elementAddress_lt t m f hidx
  have ht0 : (BitVec.ofNat 32 h + -BitVec.ofNat 32 CLUSTER_HART_BASE).toNat =
      Offload.trampolineIdx h := by
    rw [← BitVec.sub_eq_add_neg, trampoline_idx_toNat m hh]
  unfold elementAddress at hlt ⊢
  show (_ + (BitVec.ofNat 32 h + -BitVec.ofNat 32 CLUSTER_HART_BASE) <<< 2).toNat = _
  rw [BitVec.toNat_add, BitVec.toNat_add, BitVec.toNat_shiftLeft, ht0, BitVec.toNat_ofNat,
    BitVec.toNat_ofNat, Nat.shiftLeft_eq]
  omega

/-- What a core loads is its slot. -/
theorem trampolineLoads_eq {h : Nat} (hh : h ∈ m.harts) (w : Words) :
    trampolineLoads t m (BitVec.ofNat 32 h) w = (sharedData t m w).slot h := by
  unfold trampolineLoads
  rw [loadAddress_toNat t m _ hh, loadAddress_toNat t m _ hh, loadAddress_toNat t m _ hh]
  rfl

/-- **The stores of the host are those of the offload model**, for the slots
    of all harts. -/
theorem setup_trampoline_slot {h h' : Nat} (hh : h ∈ m.harts) (hh' : h' ∈ m.harts)
    (function args stack : BitVec 64) (w : Words) (mem : Offload.Memory)
    (hmem : mem.shared = sharedData t m w) :
    (sharedData t m
        (setup_trampoline t m (BitVec.ofNat 32 h) function args stack w)).slot h' =
      (Offload.storeAll (Offload.setup_trampoline h function args stack) mem).shared.slot h' := by
  have hi := trampolineIdx_lt m hh
  have hi' := trampolineIdx_lt m hh'
  simp only [Offload.storeAll, Offload.setup_trampoline, List.foldl_cons, List.foldl_nil,
    Offload.Instr.store, setup_trampoline, trampoline_idx_toNat m hh, hmem]
  simp [Offload.SharedData.slot, Offload.SharedData.setFunction, Offload.SharedData.setArgs,
    Offload.SharedData.setStack, sharedData, Function.update_apply, elementAddress_inj t m hi' hi]

/-! ## Section 5: Host and device agree -/

/-- Two cores of the clusters have two harts. -/
theorem hartId_inj {c c' : ClusterId} {k k' : Nat} (hk : k < m.numCores c)
    (hk' : k' < m.numCores c') (h : m.hartId c k = m.hartId c' k') : c = c' ∧ k = k' := by
  have hlength := List.length_ofFn (f := m.numCores)
  rw [hartId_eq, hartId_eq] at h
  obtain ⟨hc, hkk⟩ := Blocks.start_add_inj (i := k) (j := k') (by rw [hlength]; exact c.isLt)
    (by rw [hlength]; exact c'.isLt) (by rw [List.getElem_ofFn]; exact hk)
    (by rw [List.getElem_ofFn]; exact hk') (Nat.add_left_cancel h)
  exact ⟨Fin.ext hc, hkk⟩

/-- What the two sides have to agree on for core `k` of cluster `c`, whose
    hart the host computes as `hart`. -/
structure Agree (c : ClusterId) (k : Nat) (hart : BitVec 32) : Prop where
  /-- The loop over the cores of a cluster gets to the same hart. -/
  loop : get_hart_id m c 0#32 + BitVec.ofNat 32 k = hart
  cluster : cluster_id m hart = BitVec.ofNat 32 c
  /-- The register that the core sets is the one that is polled for `c`. -/
  set_busy : ∀ w clusterId, snitchCluster_busy (SET_CLUSTER_BUSY m hart w) clusterId =
    if clusterId.toNat = c then 1 else snitchCluster_busy w clusterId
  clear_busy : ∀ w clusterId, snitchCluster_busy (CLEAR_CLUSTER_BUSY m hart w) clusterId =
    if clusterId.toNat = c then 0 else snitchCluster_busy w clusterId
  index_lt : (hart - BitVec.ofNat 32 CLUSTER_HART_BASE).toNat < m.NUM_CLUSTER_CORES
  /-- The core loads from the elements with the host's index. -/
  slot : ∀ f, (loadAddress t m f hart).toNat =
    elementAddress t m f (hart - BitVec.ofNat 32 CLUSTER_HART_BASE).toNat
  loads : ∀ function args stack w,
    trampolineLoads t m hart (setup_trampoline t m hart function args stack w) =
      { function := function.setWidth 32, args := args.setWidth 32, stack := stack.setWidth 32 }
  /-- The slot of no other core has this index. -/
  index_ne : ∀ c' k', k' < m.numCores c' → (c', k') ≠ (c, k) →
    get_hart_id m c' (BitVec.ofNat 32 k') - BitVec.ofNat 32 CLUSTER_HART_BASE ≠
      hart - BitVec.ofNat 32 CLUSTER_HART_BASE

/-- **Host and device agree on who is who**, for every number of cores
    that the clusters may have. -/
theorem host_device_agree (t : Target) (m : SocAddrMap) (c : ClusterId) (k : Nat)
    (hk : k < m.numCores c) : Agree t m c k (get_hart_id m c (BitVec.ofNat 32 k)) := by
  have hmem := m.hartId_mem_harts hk
  have hindex := trampoline_idx_toNat m hmem
  rw [get_hart_id_eq m hk]
  exact {
    loop := by
      rw [get_hart_id_zero_add, get_hart_id_eq m hk]
    cluster := cluster_id_hartId m hk
    set_busy := fun w clusterId => snitchCluster_busy_update m hk clusterId w 1
    clear_busy := fun w clusterId => snitchCluster_busy_update m hk clusterId w 0
    index_lt := by
      rw [hindex]
      exact trampolineIdx_lt m hmem
    slot := fun f => by
      rw [hindex]
      exact loadAddress_toNat t m f hmem
    loads := fun function args stack w => by
      rw [trampolineLoads_eq t m hmem, setup_trampoline_slot t m hmem hmem function args stack w
        ⟨sharedData t m w, 0, 0⟩ rfl]
      simp [Offload.storeAll, Offload.setup_trampoline, Offload.Instr.store]
    -- two cores of one index would have one hart id
    index_ne := fun c' k' hk' hne heq => by
      have hmem' := m.hartId_mem_harts hk'
      have hidx := congrArg BitVec.toNat heq
      rw [get_hart_id_eq m hk', hindex, trampoline_idx_toNat m hmem'] at hidx
      obtain ⟨hlo, -⟩ := m.mem_harts.mp hmem
      obtain ⟨hlo', -⟩ := m.mem_harts.mp hmem'
      unfold Offload.trampolineIdx at hidx
      obtain ⟨rfl, rfl⟩ := hartId_inj m hk' hk (by omega)
      exact hne rfl }

/-- The last core of the last cluster, hart 17. -/
theorem lastCore_agree : Agree .chimeraConvolve chimeraConvolve 4 8 17 :=
  host_device_agree .chimeraConvolve chimeraConvolve 4 8 (by decide)

/-- The offsets are immediates of `addi`, 12 bits with a sign.  The
    assembler refuses others. -/
def Assembles : Prop := ∀ f, offsetof t m f < 2 ^ 11

/-- Both targets are far from the number of cores that the offsets admit. -/
theorem assembles_iff :
    Assembles t m ↔ 2 * channelSize t + 8 * m.NUM_CLUSTER_CORES + 40 < 2 ^ 11 := by
  have hclusters : NUM_CLUSTERS = 5 := rfl
  constructor
  · intro h
    have hstack := h .trampoline_stack
    simp only [offsetof] at hstack
    omega
  · intro h f
    cases f <;> simp only [offsetof] <;> omega

example : Assembles .chimeraConvolve chimeraConvolve :=
  (assembles_iff .chimeraConvolve chimeraConvolve).mpr (by decide)

end HartMap
