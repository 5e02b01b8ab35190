import ChimeraSdk.Host.Offload
import ChimeraSdk.Target.LinkLd

/-! # The Stack that the Trampoline Sets Up

    Before it jumps, the trampoline makes room for the thread-local
    storage below the stack pointer of its slot, keeps the result in `tp`
    and masks it for `sp`.  The mask is meant to align `sp` to 16 bytes.
    It is written `-0xF`, which clears bits 1 to 3 and keeps bit 0. -/

open LinkLd Soc

namespace Offload

/-! ## Section 1: The mask -/

/-- The mask of the trampoline: down to a multiple of 16, and bit 0. -/
theorem toNat_and_neg_15 (x : BitVec 32) :
    (x &&& -0xF#32).toNat = Align.alignDown x.toNat 16 + x.toNat % 2 := by
  have hsplit : -0xF#32 = ~~~0xF#32 ||| 1#32 := by decide
  have hhigh : (x &&& ~~~0xF#32).toNat = Align.alignDown x.toNat 16 :=
    Align.toNat_and_not_mask (k := 4) x (by omega)
  have hlow : (x &&& 1#32).toNat = x.toNat % 2 := by
    rw [BitVec.toNat_and]
    exact Nat.and_one_is_mod _
  have hapart : (x &&& ~~~0xF#32) &&& (x &&& 1#32) = 0#32 := by
    have hmasks : ~~~0xF#32 &&& 1#32 = 0#32 := by decide
    rw [BitVec.and_assoc, ← BitVec.and_assoc (~~~0xF#32), BitVec.and_comm (~~~0xF#32) x,
      BitVec.and_assoc x, hmasks, BitVec.and_zero, BitVec.and_zero]
  have hle := Align.alignDown_le x.toNat 16
  have hmod := Align.alignDown_mod x.toNat 16
  have hlt := x.isLt
  rw [hsplit, BitVec.and_or_distrib_left, ← BitVec.add_eq_or_of_and_eq_zero _ _ hapart,
    BitVec.toNat_add, hhigh, hlow]
  omega

/-- `sp` is less than 16 bytes below `tp`, and aligned exactly when `tp` is
    even. -/
theorem and_neg_15_spec (tp : BitVec 32) :
    (tp &&& -0xF#32).toNat ≤ tp.toNat ∧ tp.toNat - (tp &&& -0xF#32).toNat < 16 ∧
    ((tp &&& -0xF#32).toNat % 16 = 0 ↔ tp.toNat % 2 = 0) := by
  have hmask := toNat_and_neg_15 tp
  unfold Align.alignDown at hmask
  omega

/-! ## Section 2: The registers -/

/-- The bytes of `.tdata` and `.tbss`. -/
def tlsSize (y : TlsSymbols) : Nat := (y.tdataEnd - y.tdataStart) + (y.tbssEnd - y.tbssStart)

/-- The symbols are in order and are addresses of the device. -/
structure InOrder (y : TlsSymbols) : Prop where
  tdata : y.tdataStart ≤ y.tdataEnd ∧ y.tdataEnd < 2 ^ 32
  tbss : y.tbssStart ≤ y.tbssEnd ∧ y.tbssEnd < 2 ^ 32

/-- What the ABI asks of the registers at the jump, for the stored stack
    pointer `S`. -/
structure AbiState (y : TlsSymbols) (S : BitVec 32) (r : Registers) : Prop where
  aligned : r.sp.toNat % 16 = 0
  below : r.sp.toNat ≤ r.tp.toNat
  near : r.tp.toNat - r.sp.toNat < 16
  tls : r.tp.toNat = S.toNat - tlsSize y

/-- The thread pointer is the stored pointer less the two sizes. -/
theorem tp_toNat {y : TlsSymbols} {S : BitVec 32} (hy : InOrder y) (hfit : tlsSize y ≤ S.toNat) :
    (trampoline y S).tp.toNat = S.toNat - tlsSize y := by
  have htdata := address_sub hy.tdata.1 hy.tdata.2
  have htbss := address_sub hy.tbss.1 hy.tbss.2
  unfold tlsSize at hfit ⊢
  show (S - (address y.tdataEnd - address y.tdataStart) -
    (address y.tbssEnd - address y.tbssStart)).toNat = _
  have hfirst : (S - (address y.tdataEnd - address y.tdataStart)).toNat =
      S.toNat - (y.tdataEnd - y.tdataStart) := by
    rw [BitVec.toNat_sub_of_le (BitVec.le_def.mpr (by omega)), htdata]
  rw [BitVec.toNat_sub_of_le (BitVec.le_def.mpr (by omega)), hfirst, htbss]
  omega

/-- The registers are as the ABI asks exactly when the pointer and the
    storage are both even or both odd. -/
theorem abiState_iff {y : TlsSymbols} {S : BitVec 32} (hy : InOrder y)
    (hfit : tlsSize y ≤ S.toNat) :
    AbiState y S (trampoline y S) ↔ S.toNat % 2 = tlsSize y % 2 := by
  have htp := tp_toNat hy hfit
  obtain ⟨hle, hnear, haligned⟩ := and_neg_15_spec (trampoline y S).tp
  have hsp : (trampoline y S).sp = (trampoline y S).tp &&& -0xF#32 := rfl
  rw [htp] at haligned
  constructor
  · intro h
    have hmod := h.aligned
    rw [hsp, haligned] at hmod
    omega
  · intro heven
    refine ⟨?_, ?_, ?_, htp⟩
    · rw [hsp, haligned]
      omega
    · rw [hsp]
      exact hle
    · rw [hsp]
      exact hnear

/-! ## Section 3: What the host stores -/

/-- The memory after the stores of the host. -/
def storeAll (is : List Instr) (mem : Memory) : Memory :=
  is.foldl (fun mem i => i.store mem) mem

/-- `lw sp, 0(a0)`: the stack pointer in the slot of a hart. -/
def loadStack (mem : Memory) (hartID : Nat) : BitVec 32 := (mem.shared.slot hartID).stack

variable (m : SocAddrMap)

theorem storeAll_append (is is' : List Instr) (mem : Memory) :
    storeAll (is ++ is') mem = storeAll is' (storeAll is mem) :=
  List.foldl_append

/-- One round of the loop fills the slot of its hart. -/
theorem loadStack_offloadHart (function trampoline args stack : BitVec 64) (hartID : Nat)
    (mem : Memory) :
    loadStack (storeAll (offloadHart function trampoline args stack hartID) mem) hartID =
      stack.setWidth 32 := by
  simp [loadStack, storeAll, offloadHart, setup_trampoline, Instr.store]

/-- One round of the loop leaves the slots of the other harts alone. -/
theorem loadStack_offloadHart_ne (function trampoline args stack : BitVec 64) {h h' : Nat}
    (hne : trampolineIdx h' ≠ trampolineIdx h) (mem : Memory) :
    loadStack (storeAll (offloadHart function trampoline args stack h) mem) h' =
      loadStack mem h' := by
  simp [loadStack, storeAll, offloadHart, setup_trampoline, Instr.store,
    SharedData.slot_setStack_ne _ _ hne, SharedData.slot_setArgs_ne _ _ hne,
    SharedData.slot_setFunction_ne _ _ hne]

/-- The slots of two cores of a cluster differ. -/
theorem trampolineIdx_hartId_ne (c : ClusterId) {i j : Nat} (hne : i ≠ j) :
    trampolineIdx (m.hartId c i) ≠ trampolineIdx (m.hartId c j) := by
  unfold trampolineIdx SocAddrMap.hartId SocAddrMap.hartBase
  omega

/-- The loop over the cores of a cluster fills the slot of each. -/
theorem loadStack_harts (function trampoline args : BitVec 64) (stack_ptr : Nat → BitVec 64)
    (c : ClusterId) (l : List Nat) (mem : Memory) (i : Nat) :
    loadStack (storeAll (l.flatMap fun j =>
        offloadHart function trampoline args (stack_ptr j) (m.hartId c j)) mem) (m.hartId c i) =
      if i ∈ l then (stack_ptr i).setWidth 32 else loadStack mem (m.hartId c i) := by
  induction l generalizing mem with
  | nil => rfl
  | cons j l ih =>
    rw [List.flatMap_cons, storeAll_append, ih]
    by_cases hl : i ∈ l
    · rw [if_pos hl, if_pos (List.mem_cons_of_mem j hl)]
    · by_cases hij : i = j
      · rw [if_neg hl, hij, loadStack_offloadHart, if_pos List.mem_cons_self]
      · rw [if_neg hl, loadStack_offloadHart_ne _ _ _ _ (trampolineIdx_hartId_ne m c hij),
          if_neg fun hin => (List.mem_cons.mp hin).elim hij hl]

/-- After a call of either offload function, the slot of each of its harts
    holds the low word of the stack pointer that the call gives it. -/
theorem loadStack_call (call : Call) (mem : Memory) {h : Nat} {job : Job}
    (hjob : (h, job) ∈ call.jobs m) :
    loadStack (storeAll (call.instrs m) mem) h = job.task.stack := by
  cases call with
  | core function trampoline args stack_ptr c core_id =>
    rw [Call.jobs, List.mem_singleton, Prod.mk.injEq] at hjob
    obtain ⟨rfl, rfl⟩ := hjob
    simp [loadStack, storeAll, Call.instrs, offload_snitchCluster_core, setup_trampoline,
      Instr.store, Offload.job]
  | cluster function trampoline args stack_ptr c =>
    obtain ⟨i, hi, heq⟩ := List.mem_map.mp hjob
    rw [Prod.mk.injEq] at heq
    obtain ⟨rfl, rfl⟩ := heq
    show loadStack (storeAll ((List.range (m.numCores c)).flatMap _) mem) _ = _
    rw [loadStack_harts, if_pos hi]
    rfl

/-- **The stack of an offloaded function**, for either offload function,
    every stack pointer it is given and all thread-local sizes that fit
    below it: the trampoline sets up what the ABI asks for exactly when
    the pointer and the size are both even or both odd. -/
theorem trampoline_abi_iff (call : Call) (mem : Memory) (h : Nat) (job : Job)
    (hjob : (h, job) ∈ call.jobs m) (y : TlsSymbols) (hy : InOrder y)
    (hfit : tlsSize y ≤ job.task.stack.toNat) :
    AbiState y job.task.stack
        (trampoline y (loadStack (storeAll (call.instrs m) mem) h)) ↔
      job.task.stack.toNat % 2 = tlsSize y % 2 := by
  rw [loadStack_call m call mem hjob]
  exact abiState_iff hy hfit

/-- A call for core 0 of cluster 0, with a stack. -/
def stackCall (stack_ptr : BitVec 64) : Call := .core 0x48001000 0x48001100 0 stack_ptr 0 0

def emptyMemory : Memory where
  shared := { trampoline_function := fun _ => 0, trampoline_args := fun _ => 0,
              trampoline_stack := fun _ => 0 }
  snitchBootAddr := 0
  snitchConfigurableBootAddr := 0

/-- 32 bytes of thread-local storage below an aligned pointer. -/
theorem trampoline_abi_aligned :
    AbiState ⟨0x48002000, 0x48002020, 0x48002020, 0x48002020⟩ 0x4001fff0#32
      (trampoline ⟨0x48002000, 0x48002020, 0x48002020, 0x48002020⟩
        (loadStack (storeAll ((stackCall 0x4001fff0).instrs chimeraConvolve) emptyMemory) 1)) :=
  (trampoline_abi_iff chimeraConvolve (stackCall 0x4001fff0) emptyMemory 1
    (job 0x48001000 0x48001100 0 0x4001fff0) (by decide)
    ⟨0x48002000, 0x48002020, 0x48002020, 0x48002020⟩ ⟨by decide, by decide⟩ (by decide)).mpr
    (by decide)

/-- The last byte of the L1, given to a program without thread-local
    storage: `sp` is `0x4001fff1`. -/
theorem trampoline_abi_last_byte :
    ¬ ∀ (call : Call) (mem : Memory) (h : Nat) (job : Job),
        (h, job) ∈ call.jobs chimeraConvolve → ∀ y : TlsSymbols, InOrder y →
          tlsSize y ≤ job.task.stack.toNat →
          AbiState y job.task.stack
            (trampoline y (loadStack (storeAll (call.instrs chimeraConvolve) mem) h)) := by
  intro hall
  have habi := hall (stackCall 0x4001ffff) emptyMemory 1
    (job 0x48001000 0x48001100 0 0x4001ffff) (by decide)
    ⟨0x48002000, 0x48002000, 0x48002000, 0x48002000⟩ ⟨by decide, by decide⟩ (by decide)
  exact absurd habi.aligned (by decide)

end Offload
