import ChimeraSdk.Host.Crt0Outline

/-! # What the Host Hands Over When main Returns

    Two things are not what `_exit` expects.  `gp` is saved after it has
    been changed, and the result of `main` waits for `_uart_deinit` in
    `t0`, which a function need not preserve.  Everything else is handed
    over in every run. -/

open Alloc (Xlen)
open RiscV WordMemory LTS

namespace Crt0

variable (x : Xlen) (address : Symbol → BitVec x.bits)

/-! ## Section 1: What _exit hands over -/

section exit
variable {x address} {mhartid : BitVec x.bits} {m₀ : HostMachine x}

theorem block_holds (hapart : StackApart x address m₀) (l : Label) (m : HostMachine x)
    (h : atLabel x address m₀ l m) :
    (spec x address m₀).wp (crt0 x address mhartid) ((crt0 x address mhartid).text l) m := by
  cases l with
  | _start => exact start_block h
  | park => exact park_block
  | init_sp => exact init_sp_block h
  | init_gp => exact init_gp_block h
  | store_context => exact store_context_block h
  | _zero_bss_loop => exact zero_bss_loop_block hapart h
  | _zero_bss_rem => exact zero_bss_rem_block hapart h
  | _fp_init =>
    apply fp_init_block
    exact h
  | _exit => exact exit_block h
  | _trap_handler_wrap =>
    have hfalse : False := h
    cases hfalse

theorem outline_valid (hapart : StackApart x address m₀) :
    (outline x address m₀).Valid (environment x address) (crt0 x address mhartid) where
  word := by
    cases x <;> decide
  block := block_holds hapart
  label_stable l _ _ := atLabel_stable l
  ret_stable _ _ := AtExit.of_untouched
  handler _ := trap_block

/-- Every run that has reached the final `ret`. -/
theorem atExit_of_reachable (hapart : StackApart x address m₀) {s : HostState x}
    (h : ((crt0 x address mhartid).system ._start m₀).ReachableUnder
      (environment x address).Allows s) (hret : AtRet x s) : AtExit x address m₀ s.machine := by
  obtain ⟨hmepc, hhead⟩ := hret
  have hstart : (outline x address m₀).label ._start m₀ := ⟨rfl, rfl, rfl⟩
  have hwp := (outline_valid hapart).reachable hstart h hmepc
  cases hcode : s.code with
  | nil => rw [hcode] at hhead; cases hhead
  | cons i code =>
    rw [hcode] at hhead hwp
    obtain rfl := Option.some.inj hhead
    exact Spec.wp_ret.mp hwp

/-- `gp` comes back exactly when the program does not change it. -/
theorem newGp_eq_iff : newGp x address m₀ = m₀.reg .gp ↔
    address .__global_pointer = 0#x.bits ∨ address .__global_pointer = m₀.reg .gp := by
  unfold newGp
  by_cases hzero : address .__global_pointer = 0#x.bits
  · rw [if_pos hzero]
    simp only [hzero, true_or]
  · rw [if_neg hzero]
    simp only [hzero, false_or]

/-- **What crt0 hands over**: when the final `ret` is reached, `main` and
    `_uart_deinit` have returned.  The caller gets the result of `main`
    and its own context exactly when `_uart_deinit` has come back with the
    result still in `t0`, and `gp` was not changed. -/
theorem crt0_handsOver_iff (hapart : StackApart x address m₀) {s : HostState x}
    (h : ((crt0 x address mhartid).system ._start m₀).ReachableUnder
      (environment x address).Allows s) (hret : AtRet x s) :
    ∃ afterMain afterDeinit, s.machine.returned .main = some afterMain ∧
      s.machine.returned ._uart_deinit = some afterDeinit ∧
      (HandsOver x address m₀ (afterMain .a0) s.machine ↔
        afterDeinit .t0 = afterMain .a0 ∧
          (address .__global_pointer = 0#x.bits ∨
            address .__global_pointer = m₀.reg .gp)) := by
  have hexit := atExit_of_reachable hapart h hret
  obtain ⟨afterMain, afterDeinit, hmain, hdeinit, ha0⟩ := hexit.served
  refine ⟨afterMain, afterDeinit, hmain, hdeinit, ?_⟩
  rw [← newGp_eq_iff]
  constructor
  · intro hover
    exact ⟨ha0.symm.trans hover.a0, hexit.gp.symm.trans hover.gp⟩
  · rintro ⟨ht0, hgp⟩
    have hv : s.machine.reg .a0 = afterMain .a0 := ha0.trans ht0
    exact ⟨hv, hv ▸ hexit.scratch, hexit.sp, hexit.gp.trans hgp, hexit.ra⟩

end exit

/-! ## Section 2: Two runs -/

def linked : Symbol → BitVec Xlen.rv32.bits
  | .__stack_pointer => 0x48040000
  | .__global_pointer => 0
  | ._trap_handler_wrap => 0x48000100
  | .__bss_start => 0x48010000
  | .__bss_end => 0x48010000
  | .__base_regs => 0x30001000

def bootMachine : HostMachine .rv32 where
  regs _ := 0
  csrs _ := 0
  mem _ := 0
  returned _ := none

abbrev Booted (s : HostState .rv32) : Prop :=
  ((crt0 .rv32 linked 0).system ._start bootMachine).ReachableUnder
    (environment .rv32 linked).Allows s

/-- A callee may come back with one register changed. -/
theorem Booted.returns {s : HostState .rv32} (h : Booted s) {f : Callee} {code : Code .rv32}
    (hcode : s.code = .call f :: code) {r : Reg} (hr : r.preserved = false)
    (v : BitVec Xlen.rv32.bits) :
    Booted { s with
      machine := Program.afterCall s f (s.machine.set r v).regs s.machine.csrs s.machine.mem
      code := code } := by
  apply h.step (.returns (s.machine.set r v).regs s.machine.csrs s.machine.mem)
  · intro f' code' _
    refine ⟨fun r' hr' => ?_, fun _ _ => rfl⟩
    have hne : r' ≠ r := fun heq => by
      rw [heq, hr] at hr'
      cases hr'
    exact Function.update_of_ne hne ..
  · show (crt0 .rv32 linked 0).next s
      (.returns (s.machine.set r v).regs s.machine.csrs s.machine.mem) = _
    unfold Program.next
    rw [hcode]
    rfl

theorem Booted.run {s s' : HostState .rv32} (k : Nat) (h : Booted s)
    (hexec : ((crt0 .rv32 linked 0).system ._start bootMachine).exec s
      (List.replicate k .run) = some s') : Booted s' := by
  apply h.exec _ _ hexec
  intro l hl _
  rw [List.eq_of_mem_replicate hl]
  trivial

/-- `main` returns 1 and `_uart_deinit` leaves `v` in `t0`. -/
theorem booted_atRet (v : BitVec Xlen.rv32.bits) : ∃ s afterMain afterDeinit,
    Booted s ∧ AtRet .rv32 s ∧ s.machine.returned .main = some afterMain ∧
      s.machine.returned ._uart_deinit = some afterDeinit ∧ afterMain .a0 = 1 ∧
      afterDeinit .t0 = v ∧ s.machine.reg .a0 = v := by
  have hstart : Booted
      { machine := bootMachine, code := (crt0 .rv32 linked 0).text ._start, mepc := none } :=
    .init rfl
  have hinit := (hstart.run 23 rfl).returns rfl (by decide : Reg.preserved .a0 = false) 0
  have hmain := hinit.returns rfl (by decide : Reg.preserved .a0 = false) 1
  have hdeinit := (hmain.run 1 rfl).returns rfl (by decide : Reg.preserved .t0 = false) v
  have hret := hdeinit.run 10 rfl
  exact ⟨_, _, _, hret, ⟨rfl, rfl⟩, rfl, rfl, rfl, rfl, rfl⟩

theorem linked_stackApart : StackApart .rv32 linked bootMachine := by
  intro a hbss
  have hsize : (bssSize .rv32 linked).toInt = 0 := by decide
  unfold InBss at hbss
  omega

/-- `_uart_deinit` leaves the result of `main` in `t0`, and it is handed
    over. -/
theorem crt0_handsOver_kept : ∃ s afterMain, Booted s ∧ AtRet .rv32 s ∧
    s.machine.returned .main = some afterMain ∧
      HandsOver .rv32 linked bootMachine (afterMain .a0) s.machine := by
  obtain ⟨s, afterMain, afterDeinit, hs, hret, hmain, hdeinit, hone, ht0, -⟩ := booted_atRet 1
  obtain ⟨afterMain', afterDeinit', hmain', hdeinit', hiff⟩ :=
    crt0_handsOver_iff linked_stackApart hs hret
  rw [hmain] at hmain'
  rw [hdeinit] at hdeinit'
  obtain rfl := Option.some.inj hmain'
  obtain rfl := Option.some.inj hdeinit'
  exact ⟨s, afterMain, hs, hret, hmain, hiff.mpr ⟨ht0.trans hone.symm, .inl rfl⟩⟩

/-- `_uart_deinit` uses `t0`, as any function may, and the result of `main`
    is lost. -/
theorem crt0_result_lost : ∃ s afterMain, Booted s ∧ AtRet .rv32 s ∧
    s.machine.returned .main = some afterMain ∧ s.machine.reg .a0 ≠ afterMain .a0 ∧
      ¬ HandsOver .rv32 linked bootMachine (afterMain .a0) s.machine := by
  obtain ⟨s, afterMain, _, hs, hret, hmain, _, hone, _, hv⟩ := booted_atRet 0
  have hne : s.machine.reg .a0 ≠ afterMain .a0 := by
    rw [hv, hone]
    decide
  exact ⟨s, afterMain, hs, hret, hmain, hne, fun hover => hne hover.a0⟩

end Crt0
