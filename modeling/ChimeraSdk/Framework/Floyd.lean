import ChimeraSdk.Framework.RiscV

/-! # Assertions on Machine Code

    * **Weakest precondition**: what a machine must satisfy for the code
      in front of it, up to the next label.
    * **Stability**: a trap changes the bytes its handler may change.  An
      assertion about registers and about bytes that are left alone
      survives it; where the stack pointer moves, so do those bytes.
    * **Floyd rule**: when the assertion at every label implies the
      weakest precondition of the block behind it, and the trap entry
      gives back what it found, the assertions hold in every run, with
      any traps taken in between. -/

namespace RiscV

open WordMemory LTS

variable {w : Nat} {Label Sym Csr Fn : Type}

/-! ## Section 1: Weakest preconditions -/

/-- `m'` is `m` after a trap that leaves the bytes `kept` alone. -/
structure Untouched (kept : BitVec w → BitVec w → Prop) (m m' : Machine w Csr Fn) : Prop where
  regs : m'.regs = m.regs
  returned : m'.returned = m.returned
  mem : ∀ x, kept (m.reg .sp) x → m'.mem x = m.mem x

/-- What is asserted where control leaves a block, what a call may do,
    and the bytes that stay what they are between two instructions, given
    the stack pointer. -/
structure Spec (w : Nat) (Label Csr Fn : Type) where
  label : Label → Machine w Csr Fn → Prop
  call : Fn → Machine w Csr Fn → Machine w Csr Fn → Prop
  ret : Machine w Csr Fn → Prop
  mret : Machine w Csr Fn → Prop
  kept : BitVec w → BitVec w → Prop

namespace Spec

/-- A load reads bytes that stay what they are. -/
def Reads (S : Spec w Label Csr Fn) (m : Machine w Csr Fn) : Instr w Label Sym Csr Fn → Prop
  | .load _ off base => ∀ x, Within (Program.operand m off base) (w / 8) x → S.kept (m.reg .sp) x
  | _ => True

/-- The memory behind an instruction that takes `m` to `m'`.  When the
    stack pointer has moved, only the bytes that are kept for the old and
    for the new one are known. -/
def Settles (S : Spec w Label Csr Fn) (i : Instr w Label Sym Csr Fn) (m m' : Machine w Csr Fn)
    (mem : Memory w) : Prop :=
  if i.dest = some .sp then
    ∀ x, S.kept (m.reg .sp) x → S.kept (m'.reg .sp) x → mem x = m'.mem x
  else mem = m'.mem

theorem settles_of_dest {S : Spec w Label Csr Fn} {i : Instr w Label Sym Csr Fn}
    (h : i.dest ≠ some .sp) {m m' : Machine w Csr Fn} {mem : Memory w} :
    S.Settles i m m' mem ↔ mem = m'.mem := by
  unfold Settles
  rw [if_neg h]

variable [DecidableEq Csr]

def wp (S : Spec w Label Csr Fn) (P : Program w Label Sym Csr Fn) :
    List (Instr w Label Sym Csr Fn) → Machine w Csr Fn → Prop
  | [], _ => True
  | i :: code, m =>
      match i.control with
      | .call f => ∀ m', S.call f m m' → S.wp P code m'
      | .ret => S.ret m
      | .mret => S.mret m
      | .next =>
          match i.jump m with
          | some l => S.label l m
          | none => S.Reads m i ∧
              ∀ mem, S.Settles i m (P.effect m i) mem → S.wp P code ((P.effect m i).withMem mem)

variable {S : Spec w Label Csr Fn} {P : Program w Label Sym Csr Fn} {m m' : Machine w Csr Fn}
  {code : List (Instr w Label Sym Csr Fn)} {i : Instr w Label Sym Csr Fn} {l : Label} {f : Fn}
  {rd rs rs' base : Reg}

/-- An instruction that passes control on and leaves the stack pointer
    where it is. -/
theorem wp_next (hcontrol : i.control = .next) (hjump : i.jump m = none)
    (hdest : i.dest ≠ some .sp) :
    S.wp P (i :: code) m ↔ S.Reads m i ∧ S.wp P code (P.effect m i) := by
  rw [wp, hcontrol]
  simp only [hjump, settles_of_dest hdest, forall_eq, Machine.withMem_self]

/-- An instruction that moves the stack pointer. -/
theorem wp_move (hcontrol : i.control = .next) (hjump : i.jump m = none)
    (hdest : i.dest = some .sp) :
    S.wp P (i :: code) m ↔ S.Reads m i ∧ ∀ mem,
      (∀ x, S.kept (m.reg .sp) x → S.kept ((P.effect m i).reg .sp) x →
        mem x = (P.effect m i).mem x) →
      S.wp P code ((P.effect m i).withMem mem) := by
  rw [wp, hcontrol]
  simp only [hjump, Settles, if_pos hdest]

@[simp] theorem wp_nil : S.wp P [] m ↔ True := Iff.rfl
@[simp] theorem wp_label : S.wp P (.label l :: code) m ↔ S.label l m := Iff.rfl
@[simp] theorem wp_j : S.wp P (.j l :: code) m ↔ S.label l m := Iff.rfl
@[simp] theorem wp_ret : S.wp P (.ret :: code) m ↔ S.ret m := Iff.rfl
@[simp] theorem wp_mret : S.wp P (.mret :: code) m ↔ S.mret m := Iff.rfl

@[simp] theorem wp_call :
    S.wp P (.call f :: code) m ↔ ∀ m', S.call f m m' → S.wp P code m' := Iff.rfl

/-- A branch goes to its label or on to the next instruction. -/
theorem wp_branch {c : Prop} [Decidable c] (hcontrol : i.control = .next)
    (hjump : i.jump m = if c then some l else none) (hdest : i.dest ≠ some .sp)
    (hread : S.Reads m i) (heffect : P.effect m i = m) :
    S.wp P (i :: code) m ↔ (c → S.label l m) ∧ (¬ c → S.wp P code m) := by
  by_cases hc : c
  · rw [wp, hcontrol, hjump, if_pos hc]
    simp only [hc, true_imp_iff, not_true_eq_false, false_imp_iff, and_true]
  · rw [wp_next hcontrol (by rw [hjump, if_neg hc]) hdest, heffect]
    simp only [hread, hc, false_imp_iff, true_and, not_false_eq_true, true_imp_iff]

@[simp] theorem wp_beqz : S.wp P (.beqz rs l :: code) m ↔
    (m.reg rs = 0#w → S.label l m) ∧ (¬ m.reg rs = 0#w → S.wp P code m) :=
  wp_branch rfl rfl nofun trivial rfl

@[simp] theorem wp_blez : S.wp P (.blez rs l :: code) m ↔
    ((m.reg rs).toInt ≤ 0 → S.label l m) ∧ (¬ (m.reg rs).toInt ≤ 0 → S.wp P code m) :=
  wp_branch rfl rfl nofun trivial rfl

@[simp] theorem wp_blt : S.wp P (.blt rs rs' l :: code) m ↔
    ((m.reg rs).toInt < (m.reg rs').toInt → S.label l m) ∧
      (¬ (m.reg rs).toInt < (m.reg rs').toInt → S.wp P code m) :=
  wp_branch rfl rfl nofun trivial rfl

@[simp] theorem wp_bgt : S.wp P (.bgt rs rs' l :: code) m ↔
    ((m.reg rs').toInt < (m.reg rs).toInt → S.label l m) ∧
      (¬ (m.reg rs').toInt < (m.reg rs).toInt → S.wp P code m) :=
  wp_branch rfl rfl nofun trivial rfl

/-- Instructions that compute into a register other than `sp`, or write
    memory or a CSR. -/
theorem wp_quiet (hcontrol : i.control = .next) (hjump : i.jump m = none)
    (hread : S.Reads m i) (hdest : i.dest ≠ some .sp) :
    S.wp P (i :: code) m ↔ S.wp P code (P.effect m i) := by
  rw [wp_next hcontrol hjump hdest]
  exact and_iff_right hread

theorem dest_ne (h : rd ≠ .sp) : some rd ≠ some Reg.sp := fun heq => h (Option.some.inj heq)

@[simp] theorem wp_li {imm : Int} (h : rd ≠ .sp) :
    S.wp P (.li rd imm :: code) m ↔ S.wp P code (m.set rd (BitVec.ofInt w imm)) :=
  wp_quiet rfl rfl trivial (dest_ne h)

@[simp] theorem wp_la {s : Sym} (h : rd ≠ .sp) :
    S.wp P (.la rd s :: code) m ↔ S.wp P code (m.set rd (P.address s)) :=
  wp_quiet rfl rfl trivial (dest_ne h)

@[simp] theorem wp_mv (h : rd ≠ .sp) :
    S.wp P (.mv rd rs :: code) m ↔ S.wp P code (m.set rd (m.reg rs)) :=
  wp_quiet rfl rfl trivial (dest_ne h)

@[simp] theorem wp_addi {imm : Int} (h : rd ≠ .sp) :
    S.wp P (.addi rd rs imm :: code) m ↔
      S.wp P code (m.set rd (m.reg rs + BitVec.ofInt w imm)) :=
  wp_quiet rfl rfl trivial (dest_ne h)

@[simp] theorem wp_sub (h : rd ≠ .sp) :
    S.wp P (.sub rd rs rs' :: code) m ↔ S.wp P code (m.set rd (m.reg rs - m.reg rs')) :=
  wp_quiet rfl rfl trivial (dest_ne h)

@[simp] theorem wp_slli {shamt : Nat} (h : rd ≠ .sp) :
    S.wp P (.slli rd rs shamt :: code) m ↔ S.wp P code (m.set rd (m.reg rs <<< shamt)) :=
  wp_quiet rfl rfl trivial (dest_ne h)

@[simp] theorem wp_ori {imm : Int} (h : rd ≠ .sp) :
    S.wp P (.ori rd rs imm :: code) m ↔
      S.wp P code (m.set rd (m.reg rs ||| BitVec.ofInt w imm)) :=
  wp_quiet rfl rfl trivial (dest_ne h)

@[simp] theorem wp_csrrMhartid (h : rd ≠ .sp) :
    S.wp P (.csrrMhartid rd :: code) m ↔ S.wp P code (m.set rd P.mhartid) :=
  wp_quiet rfl rfl trivial (dest_ne h)

@[simp] theorem wp_store {n off : Nat} : S.wp P (.store n rs off base :: code) m ↔
    S.wp P code (m.withMem (store m.mem (Program.operand m off base) n (m.reg rs))) :=
  wp_quiet rfl rfl trivial nofun

@[simp] theorem wp_load {off : Nat} (h : rd ≠ .sp) : S.wp P (.load rd off base :: code) m ↔
    (∀ x, Within (Program.operand m off base) (w / 8) x → S.kept (m.reg .sp) x) ∧
      S.wp P code (m.set rd (load m.mem (Program.operand m off base) (w / 8))) :=
  wp_next rfl rfl (dest_ne h)

/-! The three ways to move the stack pointer. -/

@[simp] theorem wp_mv_sp : S.wp P (.mv .sp rs :: code) m ↔ ∀ mem,
    (∀ x, S.kept (m.reg .sp) x → S.kept (m.reg rs) x → mem x = m.mem x) →
      S.wp P code ((m.set .sp (m.reg rs)).withMem mem) :=
  (wp_move rfl rfl rfl).trans (and_iff_right trivial)

@[simp] theorem wp_addi_sp {imm : Int} : S.wp P (.addi .sp rs imm :: code) m ↔ ∀ mem,
    (∀ x, S.kept (m.reg .sp) x → S.kept (m.reg rs + BitVec.ofInt w imm) x →
      mem x = m.mem x) →
      S.wp P code ((m.set .sp (m.reg rs + BitVec.ofInt w imm)).withMem mem) :=
  (wp_move rfl rfl rfl).trans (and_iff_right trivial)

@[simp] theorem wp_load_sp {off : Nat} : S.wp P (.load .sp off base :: code) m ↔
    (∀ x, Within (Program.operand m off base) (w / 8) x → S.kept (m.reg .sp) x) ∧ ∀ mem,
      (∀ x, S.kept (m.reg .sp) x →
        S.kept (load m.mem (Program.operand m off base) (w / 8)) x → mem x = m.mem x) →
      S.wp P code ((m.set .sp (load m.mem (Program.operand m off base) (w / 8))).withMem mem) :=
  wp_move rfl rfl rfl

@[simp] theorem wp_csrw {csr : Csr} : S.wp P (.csrw csr rs :: code) m ↔
    S.wp P code (m.setCsr csr (m.reg rs)) :=
  wp_quiet rfl rfl trivial nofun

@[simp] theorem wp_csrs {csr : Csr} : S.wp P (.csrs csr rs :: code) m ↔
    S.wp P code (m.setCsr csr (m.csrs csr ||| m.reg rs)) :=
  wp_quiet rfl rfl trivial nofun

@[simp] theorem wp_csrc {csr : Csr} : S.wp P (.csrc csr rs :: code) m ↔
    S.wp P code (m.setCsr csr (m.csrs csr &&& ~~~ m.reg rs)) :=
  wp_quiet rfl rfl trivial nofun

@[simp] theorem wp_csrci {csr : Csr} {imm : Nat} : S.wp P (.csrci csr imm :: code) m ↔
    S.wp P code (m.setCsr csr (m.csrs csr &&& ~~~ BitVec.ofNat w imm)) :=
  wp_quiet rfl rfl trivial nofun

@[simp] theorem wp_fp : S.wp P (.fp :: code) m ↔ S.wp P code m :=
  wp_quiet rfl rfl trivial nofun

@[simp] theorem wp_fence : S.wp P (.fence :: code) m ↔ S.wp P code m :=
  wp_quiet rfl rfl trivial nofun

@[simp] theorem wp_wfi : S.wp P (.wfi :: code) m ↔ S.wp P code m :=
  wp_quiet rfl rfl trivial nofun

@[simp] theorem wp_ebreak : S.wp P (.ebreak :: code) m ↔ S.wp P code m :=
  wp_quiet rfl rfl trivial nofun

-- the rules above are all that is needed of a listing
attribute [irreducible] wp

end Spec

/-! ## Section 2: Stability -/

namespace Untouched

variable {kept : BitVec w → BitVec w → Prop} {m m' m'' : Machine w Csr Fn}

theorem refl (m : Machine w Csr Fn) : Untouched kept m m := ⟨rfl, rfl, fun _ _ => rfl⟩

theorem reg (h : Untouched kept m m') (r : Reg) : m'.reg r = m.reg r := Machine.reg_congr h.regs

theorem jump (h : Untouched kept m m') (i : Instr w Label Sym Csr Fn) :
    i.jump m' = i.jump m := by
  cases i <;> simp only [Instr.jump, h.reg]

theorem operand (h : Untouched kept m m') (off : Nat) (base : Reg) :
    Program.operand m' off base = Program.operand m off base := by
  unfold Program.operand
  rw [h.reg]

variable {S : Spec w Label Csr Fn} {i : Instr w Label Sym Csr Fn}

theorem reads (h : Untouched S.kept m m') (hread : S.Reads m i) : S.Reads m' i := by
  cases i
  case load rd off base =>
    show ∀ x, Within (Program.operand m' off base) (w / 8) x → S.kept (m'.reg .sp) x
    rw [h.operand, h.reg]
    exact hread
  all_goals trivial

variable [DecidableEq Csr] {P : Program w Label Sym Csr Fn}

theorem returned_effect (m : Machine w Csr Fn) (i : Instr w Label Sym Csr Fn) :
    (P.effect m i).returned = m.returned := by
  cases i <;> rfl

/-- Instructions compute the same registers when their loads read bytes
    that are left alone. -/
theorem regs_effect (h : Untouched S.kept m m') (hread : S.Reads m i) (hw : w / 8 ≤ 2 ^ w) :
    (P.effect m' i).regs = (P.effect m i).regs := by
  cases i
  case load rd off base =>
    have hload : load m'.mem (Program.operand m off base) (w / 8) =
        load m.mem (Program.operand m off base) (w / 8) :=
      load_congr hw (fun x hx => h.mem x (hread x hx))
    simp only [Program.effect, Machine.set, h.operand, hload, h.regs]
  all_goals
    simp only [Program.effect, Machine.set, Machine.withMem, Machine.setCsr, h.reg, h.regs]

/-- A byte that is the same before an instruction is the same behind it. -/
theorem mem_effect (h : Untouched kept m m') {x : BitVec w} (hx : m'.mem x = m.mem x) :
    (P.effect m' i).mem x = (P.effect m i).mem x := by
  cases i
  case store n rs off base =>
    show store m'.mem (Program.operand m' off base) n (m'.reg rs) x =
      store m.mem (Program.operand m off base) n (m.reg rs) x
    rw [h.operand, h.reg]
    unfold store
    rw [hx]
  all_goals exact hx

/-- The stack pointer stays where it is when an instruction does not
    write it. -/
theorem reg_sp_effect (m : Machine w Csr Fn) (hdest : i.dest ≠ some .sp) :
    (P.effect m i).reg .sp = m.reg .sp := by
  have hne : ∀ rd : Reg, some rd ≠ some Reg.sp → Reg.sp ≠ rd := fun rd h heq => h (heq ▸ rfl)
  cases i
  case li | la | mv | addi | sub | slli | ori | load | csrrMhartid =>
    exact Machine.reg_set_ne (hne _ hdest)
  all_goals rfl

/-- An instruction takes two machines that differ by a trap to two that
    differ by a trap. -/
theorem effect (h : Untouched S.kept m m') (hread : S.Reads m i) (hw : w / 8 ≤ 2 ^ w)
    {mem' : Memory w} (hsettle : S.Settles i m' (P.effect m' i) mem') :
    ∃ mem, S.Settles i m (P.effect m i) mem ∧
      Untouched S.kept ((P.effect m i).withMem mem) ((P.effect m' i).withMem mem') := by
  have hregs : (P.effect m' i).regs = (P.effect m i).regs := h.regs_effect hread hw
  have hreturned : (P.effect m' i).returned = (P.effect m i).returned := by
    rw [returned_effect, returned_effect, h.returned]
  by_cases hdest : i.dest = some .sp
  · -- the bytes known behind the instruction are the same from `m` and from `m'`
    rw [Spec.Settles, if_pos hdest] at hsettle
    refine ⟨mem', (if_pos hdest).mpr ?_, hregs, hreturned, fun _ _ => rfl⟩
    intro x hold hnew
    rw [← Machine.reg_congr hregs] at hnew
    rw [hsettle x (h.reg .sp ▸ hold) hnew]
    exact h.mem_effect (h.mem x hold)
  · rw [Spec.settles_of_dest hdest] at hsettle
    refine ⟨_, (Spec.settles_of_dest hdest).mpr rfl, hregs, hreturned, fun x hx => ?_⟩
    have hsp : S.kept (m.reg .sp) x := reg_sp_effect (P := P) m hdest ▸ hx
    show mem' x = (P.effect m i).mem x
    rw [hsettle]
    exact h.mem_effect (h.mem x hsp)

end Untouched

namespace Spec

/-- The assertions where control leaves a block survive a trap. -/
structure Stable (S : Spec w Label Csr Fn) : Prop where
  word : w / 8 ≤ 2 ^ w
  label : ∀ l m m', S.label l m → Untouched S.kept m m' → S.label l m'
  call : ∀ f m m' m'', S.call f m' m'' → Untouched S.kept m m' → S.call f m m''
  ret : ∀ m m', S.ret m → Untouched S.kept m m' → S.ret m'
  mret : ∀ m m', S.mret m → Untouched S.kept m m' → S.mret m'

/-- **Stability**: what must hold of the machine in front of code still
    holds after a trap. -/
theorem Stable.wp [DecidableEq Csr] {S : Spec w Label Csr Fn} (hS : S.Stable)
    {P : Program w Label Sym Csr Fn} (code : List (Instr w Label Sym Csr Fn)) :
    ∀ {m m'}, S.wp P code m → Untouched S.kept m m' → S.wp P code m' := by
  induction code with
  | nil =>
    intro m m' _ _
    exact Spec.wp_nil.mpr trivial
  | cons i code ih =>
    intro m m' h hu
    unfold Spec.wp at h ⊢
    cases hcontrol : i.control with
    -- at a call, only what the callee may find matters
    | call f =>
      rw [hcontrol] at h
      exact fun m'' hcall => h m'' (hS.call f m m' m'' hcall hu)
    | ret =>
      rw [hcontrol] at h
      exact hS.ret m m' h hu
    | mret =>
      rw [hcontrol] at h
      exact hS.mret m m' h hu
    | next =>
      rw [hcontrol] at h
      simp only at h ⊢
      -- a trap changes no register, so the jump is the same
      rw [hu.jump]
      cases hjump : i.jump m with
      | some l =>
        rw [hjump] at h
        exact hS.label l m m' h hu
      | none =>
        rw [hjump] at h
        obtain ⟨hread, hwp⟩ := h
        refine ⟨hu.reads hread, fun mem' hsettle => ?_⟩
        obtain ⟨mem, hmem, hu'⟩ := hu.effect hread hS.word hsettle
        exact ih (hwp mem hmem) hu'

end Spec

/-! ## Section 3: The Floyd rule -/

/-- What a caller knows of the machine a callee leaves: the preserved
    registers, and the bytes that neither the callee nor a trap in between
    may change. -/
structure CameBack (E : Environment w Fn) (kept : BitVec w → BitVec w → Prop) (f : Fn)
    (m m' : Machine w Csr Fn) : Prop where
  regs : ∀ r, r.preserved = true → m'.regs r = m.regs r
  mem : ∀ x, E.keeps f (m.reg .sp) x → kept (m.reg .sp) x → m'.mem x = m.mem x

theorem CameBack.reg {E : Environment w Fn} {kept : BitVec w → BitVec w → Prop} {f : Fn}
    {m m' : Machine w Csr Fn} (h : CameBack E kept f m m') {r : Reg} (hr : r.preserved = true) :
    m'.reg r = m.reg r := by
  unfold Machine.reg
  rw [h.regs r hr]

theorem CameBack.of_convention {E : Environment w Fn} {kept : BitVec w → BitVec w → Prop}
    {f : Fn} {m m' : Machine w Csr Fn} (h : Convention E f m m'.regs m'.mem) :
    CameBack E kept f m m' :=
  ⟨h.regs, fun x hx _ => h.mem x hx⟩

/-- One instruction: the code stays ready to run, or a trap ends. -/
theorem Spec.wp_runStep [DecidableEq Label] [DecidableEq Csr] {S : Spec w Label Csr Fn}
    {P : Program w Label Sym Csr Fn} {s s' : State w Label Sym Csr Fn}
    {i : Instr w Label Sym Csr Fn}
    {code : List (Instr w Label Sym Csr Fn)} (hblock : ∀ l m, S.label l m → S.wp P (P.text l) m)
    (hwp : S.wp P (i :: code) s.machine) (h : P.runStep s i code = some s') :
    (s'.mepc = s.mepc ∧ S.wp P s'.code s'.machine) ∨
      (S.mret s.machine ∧ s.mepc = some s'.code ∧ s'.mepc = none ∧ s'.machine = s.machine) := by
  unfold Program.runStep at h
  unfold Spec.wp at hwp
  cases hcontrol : i.control with
  -- a call and a return are steps of their own
  | call f => rw [hcontrol] at h; cases h
  | ret => rw [hcontrol] at h; cases h
  | mret =>
    rw [hcontrol] at h hwp
    obtain ⟨resumed, hmepc, rfl⟩ := Option.map_eq_some_iff.mp h
    exact .inr ⟨hwp, hmepc, rfl, rfl⟩
  | next =>
    rw [hcontrol] at h hwp
    simp only at h hwp
    cases hjump : i.jump s.machine with
    | some l =>
      rw [hjump] at h hwp
      obtain rfl := Option.some.inj h
      exact .inl ⟨rfl, hblock l _ hwp⟩
    | none =>
      rw [hjump] at h hwp
      obtain rfl := Option.some.inj h
      -- the memory that the instruction leaves is one that may settle
      have hself : S.Settles i s.machine (P.effect s.machine i) (P.effect s.machine i).mem := by
        unfold Spec.Settles
        split
        · exact fun _ _ _ => rfl
        · rfl
      exact .inl ⟨rfl, hwp.2 _ hself⟩

/-- The assertions at the labels of a listing and at its `ret`, and the
    bytes a trap leaves alone. -/
structure Outline (w : Nat) (Label Csr Fn : Type) where
  label : Label → Machine w Csr Fn → Prop
  ret : Machine w Csr Fn → Prop
  kept : BitVec w → BitVec w → Prop

namespace Outline

variable [DecidableEq Fn] (O : Outline w Label Csr Fn) (E : Environment w Fn)

/-- What is asserted outside traps.  There is no `mret` to reach. -/
def main : Spec w Label Csr Fn where
  label := O.label
  call f m m' := CameBack E O.kept f m m' ∧
    m'.returned = Function.update m.returned f (some m'.regs)
  ret := O.ret
  mret _ := False
  kept := O.kept

/-- What is asserted during a trap taken in `m₀`: no trap is taken in the
    meantime, control stays in the block of the trap entry, and its `mret`
    finds the registers of `m₀` and the bytes a trap leaves alone. -/
def handler (m₀ : Machine w Csr Fn) : Spec w Label Csr Fn where
  label _ _ := False
  call f m m' := CameBack E (fun _ _ => True) f m m' ∧ m'.returned = m.returned
  ret _ := False
  mret m := Untouched O.kept m₀ m
  kept _ _ := True

/-- What there is to prove of a listing. -/
structure Valid [DecidableEq Label] [DecidableEq Csr] (P : Program w Label Sym Csr Fn) : Prop where
  word : w / 8 ≤ 2 ^ w
  block : ∀ l m, O.label l m → (O.main E).wp P (P.text l) m
  label_stable : ∀ l m m', O.label l m → Untouched O.kept m m' → O.label l m'
  ret_stable : ∀ m m', O.ret m → Untouched O.kept m m' → O.ret m'
  handler : ∀ m, E.trapOk (m.reg .sp) → (O.handler E m).wp P (P.text P.trapEntry) m

variable {O E} [DecidableEq Label] [DecidableEq Csr] {P : Program w Label Sym Csr Fn}

theorem Valid.stable (h : O.Valid E P) : (O.main E).Stable where
  word := h.word
  label := h.label_stable
  ret := h.ret_stable
  mret _ _ hfalse _ := hfalse.elim
  call := by
    rintro f m m' m'' ⟨hback, hreturned⟩ hu
    refine ⟨⟨fun r hr => ?_, fun x hkeeps hkept => ?_⟩, ?_⟩
    · rw [hback.regs r hr, hu.regs]
    · rw [← hu.mem x hkept]
      exact hback.mem x (hu.reg .sp ▸ hkeeps) (hu.reg .sp ▸ hkept)
    · rw [hreturned, hu.returned]

variable (O E P) in
/-- Outside a trap the code in front is ready to run; during a trap the
    interrupted code was ready to run, and the handler gives back what the
    trap found. -/
def Holds (s : State w Label Sym Csr Fn) : Prop :=
  match s.mepc with
  | none => (O.main E).wp P s.code s.machine
  | some code => ∃ m₀, (O.main E).wp P code m₀ ∧ (O.handler E m₀).wp P s.code s.machine

variable {s s' : State w Label Sym Csr Fn}

omit [DecidableEq Label] [DecidableEq Csr] in
/-- Outside a trap, a callee that obeys the convention does what is
    asserted of the call. -/
theorem main_call {f : Fn} {regs : Registers w} {csrs : Csr → BitVec w} {mem : Memory w}
    (hmepc : s.mepc = none) (hconv : Convention E f s.machine regs mem) :
    (O.main E).call f s.machine (Program.afterCall s f regs csrs mem) := by
  constructor
  · exact CameBack.of_convention hconv
  · unfold Program.afterCall
    rw [hmepc]

omit [DecidableEq Label] [DecidableEq Csr] in
/-- The same in the trap handler, where its return is not recorded. -/
theorem handler_call {f : Fn} {regs : Registers w} {csrs : Csr → BitVec w} {mem : Memory w}
    {resumed : List (Instr w Label Sym Csr Fn)} (hmepc : s.mepc = some resumed)
    {m₀ : Machine w Csr Fn} (hconv : Convention E f s.machine regs mem) :
    (O.handler E m₀).call f s.machine (Program.afterCall s f regs csrs mem) := by
  constructor
  · exact CameBack.of_convention hconv
  · unfold Program.afterCall
    rw [hmepc]

/-- A callee comes back to code that is ready to run. -/
theorem wp_returns {S : Spec w Label Csr Fn} {regs : Registers w} {csrs : Csr → BitVec w}
    {mem : Memory w} (hwp : S.wp P s.code s.machine)
    (hcall : ∀ f code, s.code = .call f :: code →
      S.call f s.machine (Program.afterCall s f regs csrs mem))
    (h : P.next s (.returns regs csrs mem) = some s') :
    s'.mepc = s.mepc ∧ S.wp P s'.code s'.machine := by
  unfold Program.next at h
  cases hcode : s.code with
  | nil => rw [hcode] at h; cases h
  | cons i code =>
    rw [hcode] at h hwp hcall
    cases i
    case call f =>
      obtain rfl := Option.some.inj h
      exact ⟨rfl, Spec.wp_call.mp hwp _ (hcall f code rfl)⟩
    all_goals cases h

/-- **Step lemma**: what is ready to run stays ready to run. -/
theorem Valid.step (hV : O.Valid E P) (l : Step w Csr) (hs : O.Holds E P s)
    (hok : E.Allows s l) (h : P.next s l = some s') : O.Holds E P s' := by
  unfold Holds at hs ⊢
  cases l with
  | run =>
    unfold Program.next at h
    cases hcode : s.code with
    | nil => rw [hcode] at h; cases h
    | cons i code =>
      rw [hcode] at h hs
      cases hmepc : s.mepc with
      -- outside a trap
      | none =>
        rw [hmepc] at hs
        obtain ⟨hsame, hwp⟩ | ⟨hfalse, _⟩ := Spec.wp_runStep hV.block hs h
        · rw [hsame, hmepc]
          exact hwp
        · exact hfalse.elim
      -- in the trap handler, which has no labels of its own
      | some resumed =>
        rw [hmepc] at hs
        obtain ⟨m₀, hready, hs⟩ := hs
        obtain ⟨hsame, hwp⟩ | ⟨hu, hresume, hnone, hmachine⟩ :=
          Spec.wp_runStep (fun _ _ hfalse => False.elim hfalse) hs h
        · rw [hsame, hmepc]
          exact ⟨m₀, hready, hwp⟩
        · -- the trap ends: the interrupted code is still ready to run
          rw [hmepc] at hresume
          obtain rfl := Option.some.inj hresume
          rw [hnone, hmachine]
          exact hV.stable.wp _ hready hu
  | returns regs csrs mem =>
    cases hmepc : s.mepc with
    | none =>
      rw [hmepc] at hs
      have hcall : ∀ f code, s.code = .call f :: code →
          (O.main E).call f s.machine (Program.afterCall s f regs csrs mem) :=
        fun f code hcode => main_call hmepc (hok f code hcode)
      obtain ⟨hsame, hwp⟩ := wp_returns hs hcall h
      rw [hsame, hmepc]
      exact hwp
    | some resumed =>
      rw [hmepc] at hs
      obtain ⟨m₀, hready, hs⟩ := hs
      have hcall : ∀ f code, s.code = .call f :: code →
          (O.handler E m₀).call f s.machine (Program.afterCall s f regs csrs mem) :=
        fun f code hcode => handler_call hmepc (hok f code hcode)
      obtain ⟨hsame, hwp⟩ := wp_returns hs hcall h
      rw [hsame, hmepc]
      exact ⟨m₀, hready, hwp⟩
  | trap =>
    unfold Program.next at h
    -- a trap is taken only outside the handler and with `mtvec` set
    by_cases hmepc : s.mepc.isNone ∧ s.machine.csrs P.mtvec = P.trapAddress
    · rw [if_pos hmepc] at h
      obtain rfl := Option.some.inj h
      rw [Option.isNone_iff_eq_none.mp hmepc.1] at hs
      exact ⟨_, hs, hV.handler _ hok⟩
    · rw [if_neg hmepc] at h
      cases h

/-- **Floyd rule**: the assertions of a valid outline hold in every run
    whose calls and traps the environment allows. -/
theorem Valid.reachable (hV : O.Valid E P) {l : Label} {m : Machine w Csr Fn}
    (hstart : O.label l m) (h : (P.system l m).ReachableUnder E.Allows s)
    (hmepc : s.mepc = none) : (O.main E).wp P s.code s.machine := by
  have hholds : O.Holds E P s := by
    apply System.ReachableUnder.invariant _ _ h
    · rintro _ rfl
      exact hV.block l m hstart
    · intro s l s' hs hok hn
      exact hV.step l hs hok hn
  unfold Holds at hholds
  rw [hmepc] at hholds
  exact hholds

end Outline

end RiscV
