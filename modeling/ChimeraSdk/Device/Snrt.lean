import ChimeraSdk.Framework.Transfers

/-! # The Runtime of a Snitch Cluster

    What the device code uses of the runtime of its cluster, which is no part
    of this repository: the transfers of the DMA engine, the barrier, and the
    numbers of the cores.  What is assumed of it is stated once, and the
    device code is run with any runtime of which that holds. -/

open Cluster ByteMemory

namespace Snrt

/-- What works next to the cores. -/
inductive Engine where
  | dma
  | ita
  deriving DecidableEq, Repr

/-- What a core does, with a state of type `L` besides the memory. -/
abbrev Op (L : Type) : Type := Cluster.Op (Mem × L) Engine

/-- The cores of a cluster with `numThreads` compute cores. -/
abbrev Core (numThreads : Nat) : Type := Fin (numThreads + 1)

/-- **A runtime, with what is assumed of it**: a transfer copies its bytes one
    by one and in any order, until it is waited for; nobody gets past a
    barrier before all have reached it; the compute cores come first and the
    core of the DMA engine is the last one. -/
class Runtime where
  snrt_dma_start_1d : {L : Type} → (dst src size : Nat) → Op L
  snrt_dma_wait_all : {L : Type} → Op L
  snrt_cluster_hw_barrier : {L : Type} → Op L
  snrt_is_dm_core : {numThreads : Nat} → Core numThreads → Bool
  snrt_is_compute_core : {numThreads : Nat} → Core numThreads → Bool
  start_copies : ∀ {L : Type} (dst src size : Nat),
    (snrt_dma_start_1d dst src size : Op L) = .start .dma (transfer dst src size)
  wait_all_waits : ∀ {L : Type}, (snrt_dma_wait_all : Op L) = .wait .dma
  barrier_gathers : ∀ {L : Type}, (snrt_cluster_hw_barrier : Op L) = .barrier
  dm_core_last : ∀ {numThreads : Nat} (k : Core numThreads),
    snrt_is_dm_core k = decide (k.val = numThreads)
  compute_cores_first : ∀ {numThreads : Nat} (k : Core numThreads),
    snrt_is_compute_core k = decide (k.val < numThreads)

export Runtime (snrt_dma_start_1d snrt_dma_wait_all snrt_cluster_hw_barrier snrt_is_dm_core
  snrt_is_compute_core)

/-- There is such a runtime, -/
instance modelled : Runtime where
  snrt_dma_start_1d := fun dst src size => .start .dma (transfer dst src size)
  snrt_dma_wait_all := .wait .dma
  snrt_cluster_hw_barrier := .barrier
  snrt_is_dm_core := fun {numThreads} k => k.val = numThreads
  snrt_is_compute_core := fun {numThreads} k => k.val < numThreads
  start_copies := fun _ _ _ => rfl
  wait_all_waits := rfl
  barrier_gathers := rfl
  dm_core_last := fun _ => rfl
  compute_cores_first := fun _ => rfl

/-- and the assumptions leave no other. -/
theorem Runtime.eq_modelled (rt : Runtime) : rt = modelled := by
  obtain ⟨start, wait, barrier, dm, compute, hstart, hwait, hbarrier, hdm, hcompute⟩ := rt
  obtain rfl : @start = @modelled.snrt_dma_start_1d := by
    funext L dst src size
    exact hstart dst src size
  obtain rfl : @wait = @modelled.snrt_dma_wait_all := funext fun L => hwait
  obtain rfl : @barrier = @modelled.snrt_cluster_hw_barrier := funext fun L => hbarrier
  obtain rfl : @dm = @modelled.snrt_is_dm_core := by
    funext numThreads k
    exact hdm k
  obtain rfl : @compute = @modelled.snrt_is_compute_core := by
    funext numThreads k
    exact hcompute k
  rfl

variable {L : Type}

section Waiting

variable {n : Nat} {I : Mem × L → Prop} {k : Fin n} {ctx : List (Task n (Mem × L) Engine)}
  {ops : List (Op L)}

/-- The transfers a core may have in flight. -/
def InFlight (ctx : List (Task n (Mem × L) Engine)) : Prop := ∀ t ∈ ctx, t.engine = .dma

theorem filter_inFlight (h : InFlight ctx) : ctx.filter (fun t => t.engine ≠ .dma) = [] := by
  apply List.filter_eq_nil_iff.mpr
  intro t ht
  rw [h t ht]
  decide

/-- After the wait nothing is in flight. -/
theorem ordered_wait (h : InFlight ctx) (hops : Ordered I k [] ops) :
    Ordered I k ctx (snrt_dma_wait_all :: ops) := by
  show Ordered I k (ctx.filter (fun t => t.engine ≠ .dma)) ops
  rw [filter_inFlight h]
  exact hops

theorem left_wait (h : InFlight ctx) :
    left k ctx (snrt_dma_wait_all :: ops) = left k [] ops := by
  show left k (ctx.filter (fun t => t.engine ≠ .dma)) ops = _
  rw [filter_inFlight h]

/-- What is in flight after a transfer has been started. -/
def started (k : Fin n) (ctx : List (Task n (Mem × L) Engine)) (dst src size : Nat) :
    List (Task n (Mem × L) Engine) :=
  ctx ++ (transfer dst src size).map fun f => ⟨k, .dma, f⟩

theorem InFlight.started (h : InFlight ctx) {dst src size : Nat} :
    InFlight (started k ctx dst src size) := by
  intro t ht
  obtain hold | hnew := List.mem_append.mp ht
  · exact h t hold
  · obtain ⟨f, _, rfl⟩ := List.mem_map.mp hnew
    rfl

/-- A transfer is started apart from the transfers in flight. -/
theorem ordered_start {dst src size : Nat} (hself : Apart dst size src size)
    (hctx : ∀ f ∈ transfer dst src size, ∀ t ∈ ctx, CommuteOn I f t.run)
    (hops : Ordered I k (started k ctx dst src size) ops) :
    Ordered I k ctx (snrt_dma_start_1d dst src size :: ops) :=
  ⟨transfer_pairwise hself, hctx, hops⟩

theorem mem_started {dst src size : Nat} {t : Task n (Mem × L) Engine}
    (ht : t ∈ started k ctx dst src size) : t ∈ ctx ∨ t.run ∈ transfer dst src size := by
  obtain hold | ht := List.mem_append.mp ht
  · exact .inl hold
  · obtain ⟨f, hf, rfl⟩ := List.mem_map.mp ht
    exact .inr hf

end Waiting

end Snrt
