import Mathlib.Data.Fin.VecNotation
import ChimeraSdk.Framework.Blocks

/-! # The SoC Address Map

    `soc_addr_map.h` numbers the harts of the SoC consecutively: first
    the host, then the cores of cluster 0, of cluster 1, and so on.  A
    target fixes how many cores each cluster has; everything else follows
    from the prefix sums of these counts. -/

namespace Soc

/-! ## Section 1: Constants -/

abbrev NUM_CLUSTERS : Nat := 5

instance : NeZero NUM_CLUSTERS := ⟨by decide⟩

def HOST_NUMCORES : Nat := 1
def HOST_HART_BASE : Nat := 0

/-- `CLUSTER_HART_BASE`, the hart of core 0 of cluster 0. -/
def CLUSTER_HART_BASE : Nat := HOST_HART_BASE + HOST_NUMCORES

abbrev ClusterId : Type := Fin NUM_CLUSTERS

/-- The core counts of a target.  The tables of the header are arrays of
    `uint8_t`, so the harts fit in a byte. -/
structure SocAddrMap where
  numCores : ClusterId → Nat
  numCores_pos : ∀ c, 0 < numCores c
  harts_fit : HOST_NUMCORES + (List.ofFn numCores).sum ≤ 255

def chimeraConvolve : SocAddrMap where
  numCores := ![2, 2, 2, 2, 9]
  numCores_pos := by decide
  harts_fit := by decide

def chimeraOpen : SocAddrMap where
  numCores := ![9, 9, 9, 9, 9]
  numCores_pos := by decide
  harts_fit := by decide

namespace SocAddrMap

variable (m : SocAddrMap)

/-! ## Section 2: Hart numbers -/

def NUM_CLUSTER_CORES : Nat := (List.ofFn m.numCores).sum

/-- `_chimera_hartBase[c]`: the harts of the host and of the clusters
    before `c` come first. -/
def hartBase (c : ClusterId) : Nat :=
  CLUSTER_HART_BASE + ((List.ofFn m.numCores).take c).sum

/-- The hart of core `core_id` of cluster `c`. -/
def hartId (c : ClusterId) (core_id : Nat) : Nat := m.hartBase c + core_id

/-- The harts of one cluster. -/
def clusterHarts (c : ClusterId) : List Nat :=
  (List.range (m.numCores c)).map (m.hartId c)

/-- The harts of all clusters. -/
def harts : List Nat :=
  (List.range m.NUM_CLUSTER_CORES).map (CLUSTER_HART_BASE + ·)

theorem mem_clusterHarts {c : ClusterId} {h : Nat} :
    h ∈ m.clusterHarts c ↔ ∃ i < m.numCores c, m.hartId c i = h := by
  simp [clusterHarts]

theorem mem_harts {h : Nat} :
    h ∈ m.harts ↔ CLUSTER_HART_BASE ≤ h ∧ h < CLUSTER_HART_BASE + m.NUM_CLUSTER_CORES := by
  simp only [harts, List.mem_map, List.mem_range]
  constructor
  · rintro ⟨i, hi, rfl⟩
    omega
  · rintro ⟨hlo, hhi⟩
    exact ⟨h - CLUSTER_HART_BASE, by omega, by omega⟩

/-- A cluster's harts end before those of the whole SoC do. -/
theorem hartBase_add_numCores_le (c : ClusterId) :
    m.hartBase c + m.numCores c ≤ CLUSTER_HART_BASE + m.NUM_CLUSTER_CORES := by
  have hlt : (c : Nat) < (List.ofFn m.numCores).length := by simp
  have hsucc : Blocks.start (List.ofFn m.numCores) (c + 1) =
      Blocks.start (List.ofFn m.numCores) c + m.numCores c := by
    rw [Blocks.start_succ hlt, List.getElem_ofFn]
  have hall : Blocks.start (List.ofFn m.numCores) (c + 1) ≤ m.NUM_CLUSTER_CORES :=
    Blocks.start_le_sum
  have hstart : m.hartBase c = CLUSTER_HART_BASE + Blocks.start (List.ofFn m.numCores) c := rfl
  omega

theorem hartId_mem_harts {c : ClusterId} {i : Nat} (hi : i < m.numCores c) :
    m.hartId c i ∈ m.harts := by
  rw [mem_harts]
  have := m.hartBase_add_numCores_le c
  simp only [hartId, hartBase] at *
  omega

end SocAddrMap

end Soc
