import ChimeraSdk.Framework.RegisterSave
import ChimeraSdk.Host.Alloc

/-! # Start-up of the Host

    `crt0.S` of chimera-convolve (RV32) and `crt0_64.S` of chimera-open
    (RV64), with the wrapper of the trap handler.  The two listings have
    the same instructions at the two word sizes, but for the set-up of the
    floating-point unit.

    `_exit` is to hand over to the caller of `_start` with the result of
    `main` in `a0` and in `SCRATCH[2]`, and with the caller's context. -/

open Alloc (Xlen)
open RiscV WordMemory LTS

namespace Crt0

/-! ## Section 1: The listing -/

/-- The labels; `park`, `init_sp`, `init_gp` and `store_context` are the
    numbered ones. -/
inductive Label where
  | _start | park | init_sp | init_gp | store_context
  | _zero_bss_loop | _zero_bss_rem | _fp_init | _exit
  | _trap_handler_wrap
  deriving DecidableEq, Repr

inductive Symbol where
  | __stack_pointer | __global_pointer | _trap_handler_wrap
  | __bss_start | __bss_end | __base_regs
  deriving DecidableEq, Repr

inductive Csr where
  | mstatus | mtvec
  deriving DecidableEq, Repr

inductive Callee where
  | _uart_init | main | _uart_deinit | trap_vector
  deriving DecidableEq, Repr

abbrev Code (x : Xlen) : Type := List (Instr x.bits Label Symbol Csr Callee)

/-- The context of the caller, on the new stack. -/
def contextSlots : SaveArea := [(.t1, 0), (.gp, 1), (.ra, 2)]

/-- The registers a trap saves. -/
def trapSlots : SaveArea :=
  [(.ra, 15), (.t0, 14), (.t1, 13), (.t2, 12), (.a0, 11), (.a1, 10), (.a2, 9), (.a3, 8),
    (.a4, 7), (.a5, 6), (.a6, 5), (.a7, 4), (.t3, 3), (.t4, 2), (.t5, 1), (.t6, 0)]

def start (x : Xlen) : Code x :=
  [.label ._start,
    .csrci .mstatus 10,
    .csrrMhartid .t0,
    .beqz .t0 .init_sp,
  .label .park,
    .wfi,
    .j .park,
  .label .init_sp,
    .mv .t1 .sp,
    .la .t0 .__stack_pointer,
    .beqz .t0 .init_gp,
    .mv .sp .t0,
  .label .init_gp,
    .la .t0 .__global_pointer,
    .beqz .t0 .store_context,
    .mv .gp .t0,
  .label .store_context,
    .addi .sp .sp (-(3 * x.bytes))] ++
  saveCode x.bytes contextSlots ++
  [.la .t0 ._trap_handler_wrap,
    .csrw .mtvec .t0,
    .la .t0 .__bss_start,
    .la .t1 .__bss_end,
    .sub .t2 .t1 .t0,
    .li .a0 0]

def zeroBss (x : Xlen) : Code x :=
  [.label ._zero_bss_loop,
    .addi .t4 .t2 (-(4 * x.bytes)),
    .blez .t2 ._fp_init,
    .blt .t4 .x0 ._zero_bss_rem,
    .store x.bytes .a0 0 .t0,
    .store x.bytes .a0 x.bytes .t0,
    .store x.bytes .a0 (2 * x.bytes) .t0,
    .store x.bytes .a0 (3 * x.bytes) .t0,
    .addi .t2 .t2 (-(4 * x.bytes)),
    .addi .t0 .t0 (4 * x.bytes),
    .bgt .t2 .x0 ._zero_bss_loop,
    .j ._fp_init,
  .label ._zero_bss_rem,
    .store 1 .a0 0 .t0,
    .addi .t2 .t2 (-1),
    .addi .t0 .t0 1,
    .bgt .t2 .x0 ._zero_bss_rem]

/-- The set-up of the floating-point unit, on RV64 alone: one `fcvt.d.l`
    and 31 `fmv.d` between two changes of `mstatus.FS`. -/
def fpInit : (x : Xlen) → Code x
  | .rv32 => []
  | .rv64 =>
      [.li .t1 1, .slli .t1 .t1 13, .csrs .mstatus .t1] ++ List.replicate 32 .fp ++
        [.csrc .mstatus .t1, .fence]

def callMain (x : Xlen) : Code x :=
  [.call ._uart_init,
    .call .main,
    .mv .t0 .a0,
    .call ._uart_deinit,
    .mv .a0 .t0]

def exit (x : Xlen) : Code x :=
  [.label ._exit,
    .load .ra (2 * x.bytes) .sp,
    .load .gp (1 * x.bytes) .sp,
    .load .sp (0 * x.bytes) .sp,
    .slli .t0 .a0 1,
    .ori .t0 .t0 1,
    .la .t1 .__base_regs,
    .store 4 .t0 8 .t1,
    .ebreak,
    .ret]

def trapHandlerWrap (x : Xlen) : Code x :=
  [.label ._trap_handler_wrap,
    .addi .sp .sp (-(16 * x.bytes))] ++
  saveCode x.bytes trapSlots ++
  [.call .trap_vector] ++
  restoreCode x.bytes trapSlots ++
  [.addi .sp .sp (16 * x.bytes),
    .mret]

def listing (x : Xlen) : Code x :=
  start x ++ zeroBss x ++ [.label ._fp_init] ++ fpInit x ++ callMain x ++ exit x ++
    trapHandlerWrap x

/-- The program on the hart `mhartid`, linked with the given symbols. -/
def crt0 (x : Xlen) (address : Symbol → BitVec x.bits) (mhartid : BitVec x.bits) :
    Program x.bits Label Symbol Csr Callee where
  listing := listing x
  address := address
  mhartid := mhartid
  mtvec := .mtvec
  trapEntry := ._trap_handler_wrap
  trapAddress := address ._trap_handler_wrap

variable (x : Xlen) (address : Symbol → BitVec x.bits)

/-- `regs.SCRATCH[2]`. -/
def scratch2 : BitVec x.bits := address .__base_regs + BitVec.ofNat x.bits 8

/-- The convention of the callees: none changes the three words its caller
    has on the stack.  `trap_vector` also leaves the registers alone that
    the wrapper has saved, and `SCRATCH[2]`; a trap is taken where the
    wrapper does not save its registers in `SCRATCH[2]`. -/
def environment : Environment x.bits Callee where
  keeps f sp a := match f with
    | .trap_vector => Within sp (19 * x.bytes) a ∨ Within (scratch2 x address) 4 a
    | _ => Within sp (3 * x.bytes) a
  trapOk sp :=
    Disjoint (sp - BitVec.ofNat x.bits (16 * x.bytes)) (16 * x.bytes) (scratch2 x address) 4

abbrev HostMachine : Type := Machine x.bits Csr Callee
abbrev HostState : Type := State x.bits Label Symbol Csr Callee

/-- The run has reached the last instruction of `_exit`. -/
def AtRet (s : HostState x) : Prop := s.mepc = none ∧ s.code.head? = some .ret

/-- What `_exit` is to hand over when `main` has returned `v` and `m₀` is
    the machine at `_start`. -/
structure HandsOver (m₀ : HostMachine x) (v : BitVec x.bits) (m : HostMachine x) : Prop where
  a0 : m.reg .a0 = v
  scratch : bytesAt m.mem (scratch2 x address) 4 = (v <<< 1 ||| 1#x.bits).toNat % 2 ^ 32
  sp : m.reg .sp = m₀.reg .sp
  gp : m.reg .gp = m₀.reg .gp
  ra : m.reg .ra = m₀.reg .ra

/-- The stack pointer after `init_sp`, with the machine at `_start`. -/
def stackTop (m₀ : HostMachine x) : BitVec x.bits :=
  if address .__stack_pointer = 0#x.bits then m₀.reg .sp else address .__stack_pointer

/-- The address of the saved context. -/
def contextAt (m₀ : HostMachine x) : BitVec x.bits :=
  stackTop x address m₀ + BitVec.ofInt x.bits (-(3 * x.bytes))

/-- The size of `.bss` as the clearing loop computes it. -/
def bssSize : BitVec x.bits := address .__bss_end - address .__bss_start

/-- The bytes of `.bss`; there is none when the size is not positive. -/
def InBss (a : BitVec x.bits) : Prop :=
  ((a - address .__bss_start).toNat : Int) < (bssSize x address).toInt

/-- The stack lies outside `.bss`. -/
def StackApart (m₀ : HostMachine x) : Prop :=
  ∀ a, InBss x address a → ¬ Within (contextAt x address m₀) (3 * x.bytes) a

end Crt0
