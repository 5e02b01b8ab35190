import Mathlib.Logic.Function.Basic
import ChimeraSdk.Framework.System
import ChimeraSdk.Framework.WordMemory

/-! # Machine Code with Calls and Traps

    The part of the RISC-V instruction set that start-up code is written
    in, over words of any width.  A program is its listing; a function it
    calls returns any registers and any memory; a trap may be taken
    before any instruction and runs the trap entry of the listing until
    its `mret`.

    What the callees and the trap handlers of a run promise is the
    calling convention: the registers they preserve and the bytes they
    leave alone. -/

namespace RiscV

open WordMemory LTS

/-! ## Section 1: Machine and instructions -/

inductive Reg where
  | x0 | ra | sp | gp | tp
  | t0 | t1 | t2 | t3 | t4 | t5 | t6
  | s0 | s1 | s2 | s3 | s4 | s5 | s6 | s7 | s8 | s9 | s10 | s11
  | a0 | a1 | a2 | a3 | a4 | a5 | a6 | a7
  deriving DecidableEq, Repr

/-- The registers a function gives back as it found them; `x0` never
    changes. -/
def Reg.preserved : Reg → Bool
  | .x0 | .sp | .gp | .tp => true
  | .s0 | .s1 | .s2 | .s3 | .s4 | .s5 | .s6 | .s7 | .s8 | .s9 | .s10 | .s11 => true
  | _ => false

abbrev Registers (w : Nat) : Type := Reg → BitVec w

/-- `returned f` are the registers with which the program's last call of
    `f` came back; no instruction reads them. -/
structure Machine (w : Nat) (Csr Fn : Type) where
  regs : Registers w
  csrs : Csr → BitVec w
  mem : Memory w
  returned : Fn → Option (Registers w)

/-- An immediate is written as the assembler reads it.  `load` reads a
    word of the machine, `store` its low `n` bytes.  `fp` stands for the
    instructions on the floating-point registers, which are left out. -/
inductive Instr (w : Nat) (Label Sym Csr Fn : Type) where
  | label (l : Label)
  | li (rd : Reg) (imm : Int)
  | la (rd : Reg) (s : Sym)
  | mv (rd rs : Reg)
  | addi (rd rs : Reg) (imm : Int)
  | sub (rd rs rs' : Reg)
  | slli (rd rs : Reg) (shamt : Nat)
  | ori (rd rs : Reg) (imm : Int)
  | store (n : Nat) (rs : Reg) (off : Nat) (base : Reg)
  | load (rd : Reg) (off : Nat) (base : Reg)
  | csrrMhartid (rd : Reg)
  | csrw (csr : Csr) (rs : Reg)
  | csrs (csr : Csr) (rs : Reg)
  | csrc (csr : Csr) (rs : Reg)
  | csrci (csr : Csr) (imm : Nat)
  | fp
  | fence
  | wfi
  | ebreak
  | beqz (rs : Reg) (l : Label)
  | blez (rs : Reg) (l : Label)
  | blt (rs rs' : Reg) (l : Label)
  | bgt (rs rs' : Reg) (l : Label)
  | j (l : Label)
  | call (f : Fn)
  | ret
  | mret
  deriving DecidableEq, Repr

variable {w : Nat} {Label Sym Csr Fn : Type}

namespace Machine

/-- `x0` reads as zero. -/
def reg (m : Machine w Csr Fn) (r : Reg) : BitVec w := if r = .x0 then 0#w else m.regs r

def set (m : Machine w Csr Fn) (rd : Reg) (v : BitVec w) : Machine w Csr Fn :=
  { m with regs := Function.update m.regs rd v }

def withMem (m : Machine w Csr Fn) (mem : Memory w) : Machine w Csr Fn := { m with mem := mem }

def setCsr [DecidableEq Csr] (m : Machine w Csr Fn) (csr : Csr) (v : BitVec w) :
    Machine w Csr Fn :=
  { m with csrs := Function.update m.csrs csr v }

variable {m m' : Machine w Csr Fn} {r rd : Reg} {v : BitVec w} {mem : Memory w}

@[simp] theorem set_mem : (m.set rd v).mem = m.mem := rfl
@[simp] theorem set_returned : (m.set rd v).returned = m.returned := rfl
@[simp] theorem withMem_mem : (m.withMem mem).mem = mem := rfl
@[simp] theorem withMem_regs : (m.withMem mem).regs = m.regs := rfl
@[simp] theorem withMem_returned : (m.withMem mem).returned = m.returned := rfl
@[simp] theorem withMem_reg : (m.withMem mem).reg r = m.reg r := rfl
@[simp] theorem withMem_self : m.withMem m.mem = m := rfl
@[simp] theorem withMem_withMem {mem' : Memory w} :
    (m.withMem mem).withMem mem' = m.withMem mem' := rfl

section csrs
variable [DecidableEq Csr] {csr : Csr}
@[simp] theorem setCsr_regs : (m.setCsr csr v).regs = m.regs := rfl
@[simp] theorem setCsr_reg : (m.setCsr csr v).reg r = m.reg r := rfl
@[simp] theorem setCsr_mem : (m.setCsr csr v).mem = m.mem := rfl
@[simp] theorem setCsr_returned : (m.setCsr csr v).returned = m.returned := rfl
end csrs

@[simp] theorem reg_x0 : m.reg .x0 = 0#w := rfl

@[simp] theorem reg_set_self (h : rd ≠ .x0) : (m.set rd v).reg rd = v := by
  unfold reg
  rw [if_neg h]
  exact Function.update_self rd v m.regs

@[simp] theorem reg_set_ne (h : r ≠ rd) : (m.set rd v).reg r = m.reg r := by
  have hregs : (m.set rd v).regs r = m.regs r := Function.update_of_ne h ..
  unfold reg
  rw [hregs]

theorem reg_congr (h : m'.regs = m.regs) : m'.reg r = m.reg r := by
  unfold reg
  rw [h]

end Machine

/-! ### Signed words -/

theorem toInt_of_nonneg {v : BitVec w} (hv : 0 ≤ v.toInt) :
    v.toInt = v.toNat ∧ 2 * v.toNat < 2 ^ w := by
  have hlt := BitVec.toInt_pos_iff.mp hv
  exact ⟨BitVec.toInt_eq_toNat_of_lt hlt, hlt⟩

/-- A small number taken from a word that is not negative. -/
theorem toInt_sub_ofNat {v : BitVec w} {c : Nat} (hv : 0 ≤ v.toInt)
    (hc : 2 * c < 2 ^ w) : (v - BitVec.ofNat w c).toInt = v.toInt - c := by
  obtain ⟨hnat, hlt⟩ := toInt_of_nonneg hv
  have hconst : (BitVec.ofNat w c).toInt = c := by
    have hmod : (BitVec.ofNat w c).toNat = c := by
      rw [BitVec.toNat_ofNat, Nat.mod_eq_of_lt (by omega)]
    rw [BitVec.toInt_eq_toNat_of_lt (by omega), hmod]
  rw [BitVec.toInt_sub, hconst]
  apply Int.bmod_eq_of_le_mul_two
  all_goals omega

theorem addi_neg (v : BitVec w) (c : Nat) :
    v + BitVec.ofInt w (-(c : Int)) = v - BitVec.ofNat w c := by
  rw [BitVec.ofInt_neg, BitVec.ofInt_natCast, ← BitVec.sub_eq_add_neg]

/-! ### Instructions -/

/-- How an instruction passes control on. -/
inductive Control (Fn : Type) where
  | next
  | call (f : Fn)
  | ret
  | mret

namespace Instr

def control : Instr w Label Sym Csr Fn → Control Fn
  | .call f => .call f
  | .ret => .ret
  | .mret => .mret
  | _ => .next

/-- The label where control goes, when it does not go to the next
    instruction.  Code falls through a label into the block behind it. -/
def jump (m : Machine w Csr Fn) : Instr w Label Sym Csr Fn → Option Label
  | .label l => some l
  | .j l => some l
  | .beqz rs l => if m.reg rs = 0#w then some l else none
  | .blez rs l => if (m.reg rs).toInt ≤ 0 then some l else none
  | .blt rs rs' l => if (m.reg rs).toInt < (m.reg rs').toInt then some l else none
  | .bgt rs rs' l => if (m.reg rs').toInt < (m.reg rs).toInt then some l else none
  | _ => none

/-- The register an instruction writes. -/
def dest : Instr w Label Sym Csr Fn → Option Reg
  | .li rd _ => some rd
  | .la rd _ => some rd
  | .mv rd _ => some rd
  | .addi rd _ _ => some rd
  | .sub rd _ _ => some rd
  | .slli rd _ _ => some rd
  | .ori rd _ _ => some rd
  | .load rd _ _ => some rd
  | .csrrMhartid rd => some rd
  | _ => none

end Instr

/-- A listing, the addresses of its symbols, the number of the hart, and
    where a trap goes: to the label `trapEntry` when the register `mtvec`
    holds the address `trapAddress`. -/
structure Program (w : Nat) (Label Sym Csr Fn : Type) where
  listing : List (Instr w Label Sym Csr Fn)
  address : Sym → BitVec w
  mhartid : BitVec w
  mtvec : Csr
  trapEntry : Label
  trapAddress : BitVec w

/-- The code behind a label. -/
def textAt [DecidableEq Label] (l : Label) :
    List (Instr w Label Sym Csr Fn) → List (Instr w Label Sym Csr Fn)
  | [] => []
  | .label l' :: code => if l' = l then code else textAt l code
  | _ :: code => textAt l code

namespace Program

def text [DecidableEq Label] (P : Program w Label Sym Csr Fn) (l : Label) :
    List (Instr w Label Sym Csr Fn) := textAt l P.listing

/-- The address a load or a store of an instruction refers to. -/
def operand (m : Machine w Csr Fn) (off : Nat) (base : Reg) : BitVec w :=
  m.reg base + BitVec.ofNat w off

/-- What an instruction does to the machine besides passing control. -/
def effect [DecidableEq Csr] (P : Program w Label Sym Csr Fn) (m : Machine w Csr Fn) :
    Instr w Label Sym Csr Fn → Machine w Csr Fn
  | .li rd imm => m.set rd (BitVec.ofInt w imm)
  | .la rd s => m.set rd (P.address s)
  | .mv rd rs => m.set rd (m.reg rs)
  | .addi rd rs imm => m.set rd (m.reg rs + BitVec.ofInt w imm)
  | .sub rd rs rs' => m.set rd (m.reg rs - m.reg rs')
  | .slli rd rs shamt => m.set rd (m.reg rs <<< shamt)
  | .ori rd rs imm => m.set rd (m.reg rs ||| BitVec.ofInt w imm)
  | .store n rs off base => m.withMem (store m.mem (operand m off base) n (m.reg rs))
  | .load rd off base => m.set rd (load m.mem (operand m off base) (w / 8))
  | .csrrMhartid rd => m.set rd P.mhartid
  | .csrw csr rs => m.setCsr csr (m.reg rs)
  | .csrs csr rs => m.setCsr csr (m.csrs csr ||| m.reg rs)
  | .csrc csr rs => m.setCsr csr (m.csrs csr &&& ~~~ m.reg rs)
  | .csrci csr imm => m.setCsr csr (m.csrs csr &&& ~~~ BitVec.ofNat w imm)
  | _ => m

end Program

/-! ## Section 2: Runs -/

/-- `mepc` is the code a trap has interrupted. -/
structure State (w : Nat) (Label Sym Csr Fn : Type) where
  machine : Machine w Csr Fn
  code : List (Instr w Label Sym Csr Fn)
  mepc : Option (List (Instr w Label Sym Csr Fn))

/-- A step runs an instruction, lets the callee in front return with the
    registers and the memory it leaves, or takes a trap. -/
inductive Step (w : Nat) (Csr : Type) where
  | run
  | returns (regs : Registers w) (csrs : Csr → BitVec w) (mem : Memory w)
  | trap

namespace Program

variable [DecidableEq Label] [DecidableEq Csr] [DecidableEq Fn]

/-- The machine a callee leaves.  What the trap handler returns with is
    not recorded. -/
def afterCall (s : State w Label Sym Csr Fn) (f : Fn) (regs : Registers w)
    (csrs : Csr → BitVec w) (mem : Memory w) : Machine w Csr Fn where
  regs := regs
  csrs := csrs
  mem := mem
  returned := match s.mepc with
    | none => Function.update s.machine.returned f (some regs)
    | some _ => s.machine.returned

def runStep (P : Program w Label Sym Csr Fn) (s : State w Label Sym Csr Fn)
    (i : Instr w Label Sym Csr Fn) (code : List (Instr w Label Sym Csr Fn)) :
    Option (State w Label Sym Csr Fn) :=
  match i.control with
  | .call _ => none
  | .ret => none
  | .mret => s.mepc.map fun resumed => { s with code := resumed, mepc := none }
  | .next =>
      match i.jump s.machine with
      | some l => some { s with code := P.text l }
      | none => some { s with machine := P.effect s.machine i, code := code }

def next (P : Program w Label Sym Csr Fn) (s : State w Label Sym Csr Fn) :
    Step w Csr → Option (State w Label Sym Csr Fn)
  | .run =>
      match s.code with
      | [] => none
      | i :: code => P.runStep s i code
  | .returns regs csrs mem =>
      match s.code with
      | [] => none
      | i :: code =>
          match i.control with
          | .call f => some { s with machine := afterCall s f regs csrs mem, code := code }
          | _ => none
  | .trap =>
      if s.mepc.isNone ∧ s.machine.csrs P.mtvec = P.trapAddress then
        some { s with code := P.text P.trapEntry, mepc := some s.code }
      else none

/-- The runs of the program from a machine and a label. -/
def system (P : Program w Label Sym Csr Fn) (l : Label) (m : Machine w Csr Fn) :
    System (State w Label Sym Csr Fn) (Step w Csr) where
  init s := s = { machine := m, code := P.text l, mepc := none }
  next := P.next

end Program

/-! ## Section 3: What the environment promises -/

/-- The bytes a callee leaves alone when it is called with a given stack
    pointer, and the stack pointers with which a trap may be taken. -/
structure Environment (w : Nat) (Fn : Type) where
  keeps : Fn → BitVec w → BitVec w → Prop
  trapOk : BitVec w → Prop

/-- The calling convention. -/
structure Convention (E : Environment w Fn) (f : Fn) (m : Machine w Csr Fn)
    (regs : Registers w) (mem : Memory w) : Prop where
  regs : ∀ r, r.preserved = true → regs r = m.regs r
  mem : ∀ x, E.keeps f (m.reg .sp) x → mem x = m.mem x

/-- A run whose steps are all of this kind calls functions that obey the
    convention. -/
def Environment.Allows (E : Environment w Fn) (s : State w Label Sym Csr Fn) :
    Step w Csr → Prop
  | .run => True
  | .returns regs _ mem => ∀ f code, s.code = .call f :: code → Convention E f s.machine regs mem
  | .trap => E.trapOk (s.machine.reg .sp)

end RiscV
