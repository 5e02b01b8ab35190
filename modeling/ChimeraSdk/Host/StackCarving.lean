import ChimeraSdk.Framework.Carving
import ChimeraSdk.Host.Alloc

/-! # Stacks of a Cluster

    `generate_snitchCluster_SPs` carves the stacks of the cores of a
    cluster off the top of a memory range.  Each stack pointer is rounded
    down to 16 bytes before it is stored; the pointer that is returned is
    not.  The uniform variant has a loop of its own. -/

open Align Carving Alloc

namespace Offload

/-! ## Section 1: The two loops -/

section Loops

variable {w : Nat}

/-- The loop of `generate_snitchCluster_SPs` over the last cores, from
    `core_id` on: the stack pointer after it, and the array. -/
def carveStacks (stack_size : Nat → BitVec 32) :
    Nat → Nat → BitVec w → (Nat → BitVec w) → BitVec w × (Nat → BitVec w)
  | 0, _, sp, stack_ptr => (sp, stack_ptr)
  | rest + 1, core_id, sp, stack_ptr =>
      -- align to 16 byte boundaries
      let sp := sp &&& ~~~0xF
      let stack_ptr := Function.update stack_ptr core_id sp
      carveStacks stack_size rest (core_id + 1) (sp - (stack_size core_id).setWidth w) stack_ptr

/-- `numCores` is `_chimera_numCores[clusterId]`. -/
def generate_snitchCluster_SPs (numCores : Nat) (sp : BitVec w) (stack_size : Nat → BitVec 32)
    (stack_ptr : Nat → BitVec w) : BitVec w × (Nat → BitVec w) :=
  carveStacks stack_size numCores 0 sp stack_ptr

def carveStacksUniform (stack_size : BitVec 32) :
    Nat → Nat → BitVec w → (Nat → BitVec w) → BitVec w × (Nat → BitVec w)
  | 0, _, sp, stack_ptr => (sp, stack_ptr)
  | rest + 1, core_id, sp, stack_ptr =>
      let sp := sp &&& ~~~0xF
      let stack_ptr := Function.update stack_ptr core_id sp
      carveStacksUniform stack_size rest (core_id + 1) (sp - stack_size.setWidth w) stack_ptr

def generate_snitchCluster_SPs_uniform (numCores : Nat) (sp : BitVec w) (stack_size : BitVec 32)
    (stack_ptr : Nat → BitVec w) : BitVec w × (Nat → BitVec w) :=
  carveStacksUniform stack_size numCores 0 sp stack_ptr

end Loops

/-! ## Section 2: The loops carve -/

section Refinement

variable {w : Nat} {sp : BitVec w} {stack_size : Nat → BitVec 32}

/-- One round of the loop, without wrapping around. -/
theorem carve_round (hw : 4 ≤ w) {size : BitVec 32}
    (hsize : size.toNat ≤ alignDown sp.toNat 16) :
    (sp &&& ~~~0xF).toNat = alignDown sp.toNat 16 ∧
    ((sp &&& ~~~0xF) - size.setWidth w).toNat = alignDown sp.toNat 16 - size.toNat := by
  have hmask : (sp &&& ~~~0xF).toNat = alignDown sp.toNat 16 := by
    have hpow : (2 : Nat) ^ 4 = 16 := by decide
    have h := toNat_and_not_mask sp hw
    rw [hpow] at h
    exact h
  have hle := alignDown_le sp.toNat 16
  have hlt := sp.isLt
  have hwidth : (size.setWidth w).toNat = size.toNat := by
    rw [BitVec.toNat_setWidth, Nat.mod_eq_of_lt (by omega)]
  refine ⟨hmask, ?_⟩
  rw [BitVec.toNat_sub_of_le (BitVec.le_def.mpr (by omega)), hmask, hwidth]

/-- The sizes of the cores from `core_id` on. -/
def sizesFrom (stack_size : Nat → BitVec 32) (core_id i : Nat) : Nat :=
  (stack_size (core_id + i)).toNat

/-- **The loop carves**: what it returns and stores are the addresses of
    the carving, and the other entries of the array stay. -/
theorem carveStacks_eq (hw : 4 ≤ w) (rest : Nat) :
    ∀ (core_id : Nat) (sp : BitVec w) (stack_ptr : Nat → BitVec w),
      Fits 16 sp.toNat (sizesFrom stack_size core_id) rest →
      (carveStacks stack_size rest core_id sp stack_ptr).1.toNat =
        top 16 sp.toNat (sizesFrom stack_size core_id) rest ∧
      (∀ i < rest, ((carveStacks stack_size rest core_id sp stack_ptr).2 (core_id + i)).toNat =
        ptr 16 sp.toNat (sizesFrom stack_size core_id) i) ∧
      ∀ i, i < core_id ∨ core_id + rest ≤ i →
        (carveStacks stack_size rest core_id sp stack_ptr).2 i = stack_ptr i := by
  induction rest with
  | zero =>
    intro core_id sp stack_ptr _
    exact ⟨rfl, fun i hi => absurd hi (Nat.not_lt_zero i), fun _ _ => rfl⟩
  | succ rest ih =>
    intro core_id sp stack_ptr hfit
    have hsize : (stack_size core_id).toNat ≤ alignDown sp.toNat 16 :=
      size_le_ptr (n := 0) (by omega) (hfit.mono (by omega))
    obtain ⟨hptr, hsp⟩ := carve_round hw hsize
    -- the sizes of the next round are the sizes after the first
    have hsizes : sizesFrom stack_size (core_id + 1) =
        fun i => sizesFrom stack_size core_id (i + 1) := by
      funext i
      show (stack_size (core_id + 1 + i)).toNat = (stack_size (core_id + (i + 1))).toNat
      rw [Nat.add_assoc, Nat.add_comm 1 i]
    have htail := hfit.tail (by omega)
    have hfirst : sizesFrom stack_size core_id 0 = (stack_size core_id).toNat := rfl
    rw [hfirst, ← hsp, ← hsizes] at htail
    obtain ⟨hret, hcores, hother⟩ := ih (core_id + 1) _
      (Function.update stack_ptr core_id (sp &&& ~~~0xF)) htail
    refine ⟨?_, ?_, ?_⟩
    · show (carveStacks stack_size rest (core_id + 1) _ _).1.toNat = _
      rw [hret, hsp, hsizes, ← top_succ, hfirst]
    · intro i hi
      show ((carveStacks stack_size rest (core_id + 1) _ _).2 (core_id + i)).toNat = _
      by_cases hzero : i = 0
      · have hentry := hother core_id (.inl (Nat.lt_succ_self core_id))
        rw [Function.update_self] at hentry
        have hidx : core_id + i = core_id := by omega
        rw [hidx, hentry, hptr, hzero]
        rfl
      · obtain ⟨j, rfl⟩ := Nat.exists_eq_succ_of_ne_zero hzero
        have hj := hcores j (by omega)
        rw [hsp, hsizes, ← hfirst, ptr_succ] at hj
        have hidx : core_id + (j + 1) = core_id + 1 + j := by omega
        rw [hidx]
        exact hj
    · intro i hi
      show (carveStacks stack_size rest (core_id + 1) _ _).2 i = _
      rw [hother i (by omega), Function.update_of_ne (by omega)]

/-- The uniform loop is the loop over equal sizes. -/
theorem carveStacksUniform_eq (size : BitVec 32) (rest : Nat) :
    ∀ (core_id : Nat) (sp : BitVec w) (stack_ptr : Nat → BitVec w),
      (∀ i < rest, stack_size (core_id + i) = size) →
      carveStacksUniform size rest core_id sp stack_ptr =
        carveStacks stack_size rest core_id sp stack_ptr := by
  induction rest with
  | zero =>
    intro core_id sp stack_ptr _
    rfl
  | succ rest ih =>
    intro core_id sp stack_ptr hcopies
    have hfirst : stack_size core_id = size := hcopies 0 (by omega)
    simp only [carveStacksUniform, carveStacks, hfirst]
    refine ih (core_id + 1) _ _ fun i hi => ?_
    rw [Nat.add_assoc, Nat.add_comm 1 i]
    exact hcopies (i + 1) (by omega)

end Refinement

/-! ## Section 3: The stacks -/

theorem four_le_bits (x : Xlen) : 4 ≤ x.bits := by
  cases x <;> decide

/-- **Stacks**: for both pointer widths, any number of cores and any sizes
    that fit below the initial pointer, the stacks are aligned, disjoint
    and inside the range that the call takes, and waste less than 16 bytes
    each; and the uniform variant is the call with copies of one size. -/
theorem generate_SPs_carved (x : Xlen) (numCores : Nat) (sp : BitVec x.bits)
    (stack_size : Nat → BitVec 32) (stack_ptr : Nat → BitVec x.bits)
    (hfit : ∑ i ∈ Finset.range numCores, (stack_size i).toNat + 16 * numCores ≤ sp.toNat) :
    Carved 16 sp.toNat (generate_snitchCluster_SPs numCores sp stack_size stack_ptr).1.toNat
      numCores (fun i => (stack_size i).toNat)
      (fun i => ((generate_snitchCluster_SPs numCores sp stack_size stack_ptr).2 i).toNat) ∧
    (∀ i ≥ numCores,
      (generate_snitchCluster_SPs numCores sp stack_size stack_ptr).2 i = stack_ptr i) ∧
    ∀ size, (∀ i < numCores, stack_size i = size) →
      generate_snitchCluster_SPs_uniform numCores sp size stack_ptr =
        generate_snitchCluster_SPs numCores sp stack_size stack_ptr := by
  have hsizes : sizesFrom stack_size 0 = fun i => (stack_size i).toNat := by
    funext i
    unfold sizesFrom
    rw [Nat.zero_add]
  have hfits : Fits 16 sp.toNat (sizesFrom stack_size 0) numCores := by
    rw [hsizes]
    exact hfit
  -- the loop computes what the library carves
  obtain ⟨hret, hcores, hother⟩ :=
    carveStacks_eq (four_le_bits x) numCores 0 sp stack_ptr hfits
  have hcarved := carved (by omega) hfits
  rw [← hret, hsizes] at hcarved
  refine ⟨?_, fun i hi => hother i (.inr (by omega)), ?_⟩
  · exact hcarved.congr fun i hi => by
      have hi' := hcores i hi
      rw [Nat.zero_add] at hi'
      rw [← hsizes]
      exact hi'
  · intro size hcopies
    refine carveStacksUniform_eq size numCores 0 sp stack_ptr fun i hi => ?_
    rw [Nat.zero_add]
    exact hcopies i hi

/-- Two stacks of 100 bytes below an odd address. -/
def twoStacks : BitVec 32 × (Nat → BitVec 32) :=
  generate_snitchCluster_SPs 2 0x4001ffff (fun _ => 100) (fun _ => 0)

example : (twoStacks.2 0, twoStacks.2 1, twoStacks.1) =
    (0x4001fff0#32, 0x4001ff80#32, 0x4001ff1c#32) := by decide

theorem twoStacks_carved :
    Carved 16 0x4001ffff twoStacks.1.toNat 2 (fun _ => 100) (fun i => (twoStacks.2 i).toNat) :=
  (generate_SPs_carved .rv32 2 0x4001ffff (fun _ => 100) (fun _ => 0) (by decide)).1

end Offload
