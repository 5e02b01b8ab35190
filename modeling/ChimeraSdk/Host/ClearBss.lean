import ChimeraSdk.Framework.StoreLog
import ChimeraSdk.Host.Crt0Outline

/-! # Clearing .bss

    `_zero_bss_loop` clears four words a pass, `_zero_bss_rem` one byte a
    pass when less than four words are left.  Both loops count down `t2`,
    and they fill `.bss` from below.

    Interrupts are off here (`_start` clears `mstatus.MIE`), so the loops
    run by themselves. -/

open Alloc (Xlen)
open RiscV WordMemory LTS

namespace Crt0

variable (x : Xlen) (address : Symbol → BitVec x.bits) (mhartid : BitVec x.bits)

/-! ## Section 1: What the loops are to do -/

/-- The rest of the program from the clearing of `.bss` on. -/
def clearBss : Code x :=
  .la .t0 .__bss_start ::
  .la .t1 .__bss_end ::
  .sub .t2 .t1 .t0 ::
  .li .a0 0 ::
  (zeroBss x ++ .label ._fp_init :: (fpInit x ++ callMain x ++ exit x ++ trapHandlerWrap x))

/-- It stands behind the saving of the context and the set-up of `mtvec`. -/
theorem text_store_context :
    (crt0 x address mhartid).text .store_context =
      .addi .sp .sp (-(3 * x.bytes)) :: (saveCode x.bytes contextSlots ++
        (.la .t0 ._trap_handler_wrap :: .csrw .mtvec .t0 :: clearBss x)) := by
  cases x <;> rfl

/-- `.bss` as it is linked: at a word boundary, and less than half of the
    address space. -/
structure BssLinked : Prop where
  aligned : (address .__bss_start).toNat % x.bytes = 0
  ordered : (address .__bss_start).toNat ≤ (address .__bss_end).toNat
  small : (address .__bss_end).toNat - (address .__bss_start).toNat < 2 ^ (x.bits - 1)

/-- The bytes of `[__bss_start, __bss_end)`. -/
def Bss (a : BitVec x.bits) : Prop :=
  (address .__bss_start).toNat ≤ a.toNat ∧ a.toNat < (address .__bss_end).toNat

instance : DecidablePred (Bss x address) := fun _ => instDecidableAnd

/-- The loops have been left with the stores `log`, having started with the
    memory `mem`. -/
structure BssCleared (mem : Memory x.bits) (s : HostState x) (log : List (Write x.bits)) :
    Prop where
  code : s.code = (crt0 x address mhartid).text ._fp_init
  mepc : s.mepc = none
  stored : ∀ a, (∃ e ∈ log, Within e.start e.size a) ↔ Bss x address a
  zero : ∀ e ∈ log, e.value = 0#x.bits
  aligned : ∀ e ∈ log, e.start.toNat % e.size = 0
  mem : ∀ a, s.machine.mem a = if Bss x address a then 0#8 else mem a

/-! ## Section 2: The registers of the loops -/

section registers
variable {x address}

namespace BssLinked

theorem toNat_bssSize (h : BssLinked x address) : (bssSize x address).toNat =
    (address .__bss_end).toNat - (address .__bss_start).toNat :=
  BitVec.toNat_sub_of_le h.ordered

theorem small_bssSize (h : BssLinked x address) : 2 * (bssSize x address).toNat < 2 ^ x.bits := by
  have hsmall := h.small
  rw [← h.toNat_bssSize] at hsmall
  have hpow : 2 ^ x.bits = 2 * 2 ^ (x.bits - 1) := by
    cases x <;> rfl
  omega

/-- `.bss` does not reach beyond the end of the address space. -/
theorem fits (h : BssLinked x address) :
    (address .__bss_start).toNat + (bssSize x address).toNat < 2 ^ x.bits := by
  have hordered := h.ordered
  have hend := (address .__bss_end).isLt
  rw [h.toNat_bssSize]
  omega

theorem within_iff (h : BssLinked x address) {a : BitVec x.bits} :
    Within (address .__bss_start) (bssSize x address).toNat a ↔ Bss x address a := by
  have hordered := h.ordered
  rw [within_iff_between (Nat.le_of_lt h.fits), h.toNat_bssSize]
  unfold Bss
  omega

end BssLinked

variable (address) in
/-- In the loops: `t0` has moved `k` bytes into `.bss`, `t2` counts the
    rest, and the first `d` bytes have been stored to. -/
structure Sweeping (k d : Nat) (m : HostMachine x) (log : List (Write x.bits)) : Prop where
  t0 : m.reg .t0 = address .__bss_start + BitVec.ofNat x.bits k
  t2 : m.reg .t2 = bssSize x address - BitVec.ofNat x.bits k
  a0 : m.reg .a0 = 0#x.bits
  fills : Fills 0#x.bits (address .__bss_start) d log
  aligned : ∀ e ∈ log, e.start.toNat % e.size = 0

namespace Sweeping

variable {k d c : Nat} {m : HostMachine x} {log : List (Write x.bits)}

/-- `t2` as a signed number. -/
theorem toInt_t2 (h : Sweeping address k d m log) (hlinked : BssLinked x address)
    (hk : k ≤ (bssSize x address).toNat) :
    (m.reg .t2).toInt = (bssSize x address).toNat - k := by
  have hsmall := hlinked.small_bssSize
  have hsize : (bssSize x address).toInt = (bssSize x address).toNat :=
    BitVec.toInt_eq_toNat_of_lt hsmall
  rw [h.t2, toInt_sub_ofNat (by omega) (by omega), hsize]

theorem toNat_t2 (h : Sweeping address k d m log) (hk : k ≤ (bssSize x address).toNat) :
    (m.reg .t2).toNat = (bssSize x address).toNat - k := by
  have hlt := (bssSize x address).isLt
  have hmod : (BitVec.ofNat x.bits k).toNat = k := by
    rw [BitVec.toNat_ofNat, Nat.mod_eq_of_lt (by omega)]
  rw [h.t2, BitVec.toNat_sub_of_le (by rw [BitVec.le_def, hmod]; exact hk), hmod]

theorem set (h : Sweeping address k d m log) {rd : Reg} {v : BitVec x.bits} (h0 : .t0 ≠ rd)
    (h2 : .t2 ≠ rd) (ha : .a0 ≠ rd) : Sweeping address k d (m.set rd v) log where
  t0 := (Machine.reg_set_ne h0).trans h.t0
  t2 := (Machine.reg_set_ne h2).trans h.t2
  a0 := (Machine.reg_set_ne ha).trans h.a0
  fills := h.fills
  aligned := h.aligned

/-- At the end of a loop body the registers move on to what comes next. -/
theorem advance (h : Sweeping address k (k + c) m log) :
    Sweeping address (k + c) (k + c)
      ((m.set .t2 (m.reg .t2 + BitVec.ofInt x.bits (-c))).set .t0
        (m.reg .t0 + BitVec.ofInt x.bits c)) log where
  t0 := by
    rw [Machine.reg_set_self (by decide), h.t0, BitVec.ofInt_natCast, BitVec.add_assoc,
      BitVec.ofNat_add_ofNat]
  t2 := by
    rw [Machine.reg_set_ne (by decide), Machine.reg_set_self (by decide), h.t2, addi_neg,
      BitVec.sub_sub, BitVec.ofNat_add_ofNat]
  a0 := by
    rw [Machine.reg_set_ne (by decide), Machine.reg_set_ne (by decide), h.a0]
  fills := h.fills
  aligned := h.aligned

end Sweeping

end registers

/-! ## Section 3: The passes -/

section passes
variable {x address} {mhartid : BitVec x.bits} {m : HostMachine x} {k : Nat}
  {log : List (Write x.bits)}

abbrev LoggedState (x : Xlen) : Type := Logged x.bits Label Symbol Csr Callee

variable (address mhartid) in
/-- From the code in front, the program by itself arrives at `Q`. -/
abbrev Leads (m : HostMachine x) (code : Code x) (log : List (Write x.bits))
    (Q : LoggedState x → Prop) : Prop :=
  (crt0 x address mhartid).logged.LeadsTo .run (⟨m, code, none⟩, log) Q

variable (address mhartid) in
/-- At the head of a loop: the first `k` bytes are cleared.  The loop of
    four words is at a word boundary, and the rest is not empty. -/
structure AtHead (k : Nat) (s : LoggedState x) : Prop where
  mepc : s.1.mepc = none
  le : k ≤ (bssSize x address).toNat
  sweeping : Sweeping address k k s.1.machine s.2
  code : (s.1.code = (crt0 x address mhartid).text ._zero_bss_loop ∧ k % x.bytes = 0) ∨
    (s.1.code = (crt0 x address mhartid).text ._zero_bss_rem ∧ k < (bssSize x address).toNat)

variable (address mhartid) in
/-- The invariant of the two loops. -/
def InLoops (s : LoggedState x) : Prop := ∃ k, AtHead address mhartid k s

variable (address mhartid) in
/-- Behind the loops. -/
structure Swept (s : LoggedState x) : Prop where
  mepc : s.1.mepc = none
  code : s.1.code = (crt0 x address mhartid).text ._fp_init
  fills : Fills 0#x.bits (address .__bss_start) (bssSize x address).toNat s.2
  aligned : ∀ e ∈ s.2, e.start.toNat % e.size = 0

variable (address mhartid) in
/-- What a pass leads to that has found `k` bytes cleared. -/
def Passed (k : Nat) (s : LoggedState x) : Prop :=
  Swept address mhartid s ∨ ∃ k', k < k' ∧ AtHead address mhartid k' s

namespace Sweeping

/-- Nothing is left to clear. -/
theorem swept (hs : Sweeping address k k m log) (hk : k = (bssSize x address).toNat) :
    Swept address mhartid (⟨m, (crt0 x address mhartid).text ._fp_init, none⟩, log) where
  mepc := rfl
  code := by dsimp only
  fills := hk ▸ hs.fills
  aligned := hs.aligned

theorem atLoop (hs : Sweeping address k k m log) (hk : k ≤ (bssSize x address).toNat)
    (hword : k % x.bytes = 0) :
    AtHead address mhartid k (⟨m, (crt0 x address mhartid).text ._zero_bss_loop, none⟩, log) where
  mepc := rfl
  le := hk
  sweeping := hs
  code := .inl ⟨by dsimp only, hword⟩

theorem atRem (hs : Sweeping address k k m log) (hk : k < (bssSize x address).toNat) :
    AtHead address mhartid k (⟨m, (crt0 x address mhartid).text ._zero_bss_rem, none⟩, log) where
  mepc := rfl
  le := Nat.le_of_lt hk
  sweeping := hs
  code := .inr ⟨by dsimp only, hk⟩

end Sweeping

/-- One store of the loops. -/
theorem leads_store {n off : Nat} {code : Code x} {Q : LoggedState x → Prop}
    (hlinked : BssLinked x address) (hs : Sweeping address k (k + off) m log)
    (hroom : k + off ≤ (bssSize x address).toNat)
    (halign : ((address .__bss_start).toNat + (k + off)) % n = 0)
    (h : ∀ m' log', Sweeping address k (k + (off + n)) m' log' →
      Leads address mhartid m' code log' Q) :
    Leads address mhartid m (.store n .a0 off .t0 :: code) log Q := by
  apply Program.leadsTo_next rfl rfl
  apply h
  have hoperand : Program.operand m off .t0 =
      address .__bss_start + BitVec.ofNat x.bits (k + off) := by
    unfold Program.operand
    rw [hs.t0, BitVec.add_assoc, BitVec.ofNat_add_ofNat]
  have hstores : Instr.stores m (.store n .a0 off .t0 : Instr x.bits Label Symbol Csr Callee) =
      [⟨address .__bss_start + BitVec.ofNat x.bits (k + off), n, 0#x.bits⟩] := by
    rw [← hoperand, ← hs.a0]
    rfl
  refine ⟨hs.t0, hs.t2, hs.a0, ?_, ?_⟩
  · rw [hstores, ← Nat.add_assoc]
    exact hs.fills.concat n
  · intro e he
    rcases List.mem_append.mp he with hold | hnew
    · exact hs.aligned e hold
    · rw [hstores] at hnew
      have hfits := hlinked.fits
      have hmod : (BitVec.ofNat x.bits (k + off)).toNat = k + off := by
        rw [BitVec.toNat_ofNat, Nat.mod_eq_of_lt (by omega)]
      rw [List.mem_singleton.mp hnew]
      show (address .__bss_start + BitVec.ofNat x.bits (k + off)).toNat % n = 0
      rw [BitVec.toNat_add_of_lt (by omega), hmod]
      exact halign

/-- The end of a pass: back to the head `l` when there is more to clear,
    else on to `_fp_init`. -/
theorem leads_again {l : Label} {i : Instr x.bits Label Symbol Csr Callee} {code : Code x}
    (hlinked : BssLinked x address) (hs : Sweeping address k k m log)
    (hk : k ≤ (bssSize x address).toNat) {k₀ : Nat} (hprogress : k₀ < k)
    (hcontrol : i.control = .next) (hexit : i.jump m = some ._fp_init)
    (hhead : k < (bssSize x address).toNat → AtHead address mhartid k
      (⟨m, (crt0 x address mhartid).text l, none⟩, log)) :
    Leads address mhartid m (.bgt .t2 .x0 l :: i :: code) log (Passed address mhartid k₀) := by
  have ht2 := hs.toInt_t2 hlinked hk
  have hzero : (m.reg .x0).toInt = 0 := by
    rw [Machine.reg_x0, BitVec.toInt_zero]
  apply Program.leadsTo_branch rfl rfl rfl rfl
  · intro hmore
    exact .here (.inr ⟨k, hprogress, hhead (by omega)⟩)
  · intro hmore
    apply Program.leadsTo_jump hcontrol hexit
    exact .here (.inl (hs.swept (by omega)))

/-- **A pass of `_zero_bss_rem`** clears one byte. -/
theorem rem_pass (hlinked : BssLinked x address) (hs : Sweeping address k k m log)
    (hk : k < (bssSize x address).toNat) :
    Leads address mhartid m ((crt0 x address mhartid).text ._zero_bss_rem) log
      (Passed address mhartid k) := by
  show Leads address mhartid m (.store 1 .a0 0 .t0 :: .addi .t2 .t2 (-1) :: .addi .t0 .t0 1 ::
    .bgt .t2 .x0 ._zero_bss_rem :: .label ._fp_init :: _) log _
  apply leads_store hlinked hs (by omega) (Nat.mod_one _)
  intro m₁ log₁ h₁
  apply Program.leadsTo_quiet rfl rfl rfl
  apply Program.leadsTo_quiet rfl rfl rfl
  have hnext := Sweeping.advance h₁
  apply leads_again hlinked hnext (by omega) (by omega) rfl rfl
  exact hnext.atRem

/-- Four words of a pass of `_zero_bss_loop`. -/
theorem words_pass {code : Code x} (hlinked : BssLinked x address)
    (hs : Sweeping address k k m log) (hroom : k + 4 * x.bytes ≤ (bssSize x address).toNat)
    (hword : k % x.bytes = 0) :
    Leads address mhartid m (.store x.bytes .a0 0 .t0 :: .store x.bytes .a0 x.bytes .t0 ::
      .store x.bytes .a0 (2 * x.bytes) .t0 :: .store x.bytes .a0 (3 * x.bytes) .t0 ::
      .addi .t2 .t2 (-(4 * x.bytes : Nat)) :: .addi .t0 .t0 (4 * x.bytes : Nat) ::
      .bgt .t2 .x0 ._zero_bss_loop :: .j ._fp_init :: code) log (Passed address mhartid k) := by
  -- `t0` is at a word boundary, and so are the three words behind it
  have haligned := hlinked.aligned
  have hslot : ∀ j, ((address .__bss_start).toNat + (k + j * x.bytes)) % x.bytes = 0 := by
    intro j
    rw [← Nat.add_assoc, Nat.add_mul_mod_self_right, Nat.add_mod, haligned, hword]
    exact Nat.zero_mod _
  have hpos : 0 < x.bytes := by
    cases x <;> decide
  apply leads_store hlinked hs (by omega) (by simpa using hslot 0)
  intro m₁ log₁ h₁
  apply leads_store hlinked (by simpa using h₁) (by omega) (by simpa using hslot 1)
  intro m₂ log₂ h₂
  apply leads_store hlinked (by simpa [Nat.two_mul] using h₂) (by omega) (hslot 2)
  intro m₃ log₃ h₃
  apply leads_store hlinked (by simpa [Nat.succ_mul] using h₃) (by omega) (hslot 3)
  intro m₄ log₄ h₄
  replace h₄ : Sweeping address k (k + 4 * x.bytes) m₄ log₄ := by
    simpa [Nat.succ_mul] using h₄
  apply Program.leadsTo_quiet rfl rfl rfl
  apply Program.leadsTo_quiet rfl rfl rfl
  have hnext := h₄.advance
  apply leads_again hlinked hnext hroom (by omega) rfl rfl
  intro _
  apply hnext.atLoop hroom
  rw [Nat.add_mul_mod_self_right, hword]

/-- **A pass of `_zero_bss_loop`** clears four words, or goes on with the
    bytes that are left. -/
theorem loop_pass (hlinked : BssLinked x address) (hs : Sweeping address k k m log)
    (hk : k ≤ (bssSize x address).toNat) (hword : k % x.bytes = 0) :
    Leads address mhartid m ((crt0 x address mhartid).text ._zero_bss_loop) log
      (Passed address mhartid k) := by
  show Leads address mhartid m (.addi .t4 .t2 (-(4 * x.bytes)) :: .blez .t2 ._fp_init ::
    .blt .t4 .x0 ._zero_bss_rem :: .store x.bytes .a0 0 .t0 :: .store x.bytes .a0 x.bytes .t0 ::
    .store x.bytes .a0 (2 * x.bytes) .t0 :: .store x.bytes .a0 (3 * x.bytes) .t0 ::
    .addi .t2 .t2 (-(4 * x.bytes)) :: .addi .t0 .t0 (4 * x.bytes) ::
    .bgt .t2 .x0 ._zero_bss_loop :: .j ._fp_init :: _) log _
  have hcast : (4 * x.bytes : Int) = (4 * x.bytes : Nat) := by push_cast; rfl
  rw [hcast]
  apply Program.leadsTo_quiet rfl rfl rfl
  -- `t4` is what is left without four words
  obtain ⟨t4, ht4⟩ : ∃ t4, t4 = m.reg .t2 + BitVec.ofInt x.bits (-(4 * x.bytes : Nat)) := ⟨_, rfl⟩
  show Leads address mhartid (m.set .t4 _) _ log _
  rw [← ht4]
  have hs' : Sweeping address k k (m.set .t4 t4) log :=
    hs.set (by decide) (by decide) (by decide)
  have ht2 := hs.toInt_t2 hlinked hk
  have hleft := hs'.toInt_t2 hlinked hk
  apply Program.leadsTo_branch rfl rfl rfl rfl
  · -- nothing is left
    intro hdone
    exact .here (.inl (hs'.swept (by omega)))
  · intro hsome
    have hfour : ((m.set .t4 t4).reg .t4).toInt =
        (bssSize x address).toNat - k - (4 * x.bytes : Nat) := by
      have hsmall : 2 * (4 * x.bytes) < 2 ^ x.bits := by
        cases x <;> decide
      rw [Machine.reg_set_self (by decide), ht4, addi_neg, toInt_sub_ofNat (by omega) hsmall, ht2]
    apply Program.leadsTo_branch rfl rfl rfl rfl
    · intro _
      exact rem_pass hlinked hs' (by omega)
    · intro henough
      rw [hfour, Machine.reg_x0, BitVec.toInt_zero] at henough
      exact words_pass hlinked hs' (by omega) hword

/-- **The loops end**: every pass leaves less in `t2`. -/
theorem sweep (hlinked : BssLinked x address) {s : LoggedState x}
    (hs : InLoops address mhartid s) :
    (crt0 x address mhartid).logged.LeadsTo .run s (Swept address mhartid) := by
  apply System.LeadsTo.of_measure (fun s => (s.1.machine.reg .t2).toNat) _ hs
  intro ⟨⟨m, code, mepc⟩, log⟩ ⟨k, hmepc, hle, hsweeping, hcode⟩
  obtain rfl : mepc = none := hmepc
  have hpass : Leads address mhartid m code log (Passed address mhartid k) := by
    obtain ⟨hloop, hword⟩ | ⟨hrem, hlt⟩ := hcode
    · obtain rfl : code = _ := hloop
      exact loop_pass hlinked hsweeping hle hword
    · obtain rfl : code = _ := hrem
      exact rem_pass hlinked hsweeping hlt
  apply hpass.trans
  intro s' hs'
  obtain hswept | ⟨k', hk', hhead⟩ := hs'
  · exact .here (.inl hswept)
  · refine .here (.inr ⟨⟨k', hhead⟩, ?_⟩)
    show (s'.1.machine.reg .t2).toNat < (m.reg .t2).toNat
    have hle' := hhead.le
    rw [hhead.sweeping.toNat_t2 hle', hsweeping.toNat_t2 hle]
    omega

/-- The loops are entered with nothing cleared. -/
theorem clearBss_leads (hlinked : BssLinked x address) :
    Leads address mhartid m (clearBss x) [] (Swept address mhartid) := by
  show Leads address mhartid m (.la .t0 .__bss_start :: .la .t1 .__bss_end ::
    .sub .t2 .t1 .t0 :: .li .a0 0 :: .label ._zero_bss_loop :: _) [] _
  apply Program.leadsTo_quiet rfl rfl rfl
  apply Program.leadsTo_quiet rfl rfl rfl
  apply Program.leadsTo_quiet rfl rfl rfl
  apply Program.leadsTo_quiet rfl rfl rfl
  apply Program.leadsTo_jump rfl rfl
  have hhead : ∀ m' : HostMachine x, m'.reg .t0 = address .__bss_start →
      m'.reg .t2 = bssSize x address → m'.reg .a0 = 0#x.bits → InLoops address mhartid
        (⟨m', (crt0 x address mhartid).text ._zero_bss_loop, none⟩, []) := by
    intro m' ht0 ht2 ha0
    have hs : Sweeping address 0 0 m' [] := by
      refine ⟨?_, ?_, ha0, .nil, nofun⟩
      · rw [ht0, BitVec.add_zero]
      · rw [ht2, BitVec.sub_zero]
    exact ⟨0, hs.atLoop (Nat.zero_le _) (Nat.zero_mod _)⟩
  exact sweep hlinked (hhead _ rfl rfl rfl)

end passes

/-! ## Section 4: .bss is cleared -/

section cleared
variable {x address} {mhartid : BitVec x.bits}

theorem Swept.cleared (hlinked : BssLinked x address) {mem : Memory x.bits} {s : LoggedState x}
    (hs : Swept address mhartid s) (hmem : s.1.machine.mem = writeAll mem s.2) :
    BssCleared x address mhartid mem s.1 s.2 := by
  have hfits := hlinked.fits
  have hroom : (bssSize x address).toNat ≤ 2 ^ x.bits := by omega
  refine ⟨hs.code, hs.mepc, ?_, hs.fills.value, hs.aligned, ?_⟩
  · intro a
    rw [hs.fills.written hroom, hlinked.within_iff]
  · intro a
    rw [hmem, hs.fills.writeAll_zero hroom]
    simp only [hlinked.within_iff]

theorem clearBss_leads_cleared (hlinked : BssLinked x address) (m : HostMachine x) :
    Leads address mhartid m (clearBss x) []
      (fun s => BssCleared x address mhartid m.mem s.1 s.2) := by
  have hlog : Leads address mhartid m (clearBss x) []
      (fun s => Swept address mhartid s ∧ s.1.machine.mem = writeAll m.mem s.2) :=
    (clearBss_leads hlinked).strengthen rfl (fun _ _ => Program.mem_logged)
  apply hlog.trans
  intro s ⟨hswept, hmem⟩
  exact .here (hswept.cleared hlinked hmem)

variable (mhartid) in
/-- **The loops clear `.bss`**: from the code that computes its size, the
    program arrives at `_fp_init`.  By then its stores have been zeros at
    aligned addresses, to every byte of `[__bss_start, __bss_end)` and to
    no other. -/
theorem zero_bss_clears (hlinked : BssLinked x address) (m : HostMachine x) :
    ∃ n s log, (crt0 x address mhartid).logged.exec (⟨m, clearBss x, none⟩, [])
        (List.replicate n .run) = some (s, log) ∧
      BssCleared x address mhartid m.mem s log := by
  obtain ⟨n, ⟨s, log⟩, hexec, hcleared⟩ := clearBss_leads_cleared hlinked m
  exact ⟨n, s, log, hexec, hcleared⟩

end cleared

/-- 39 bytes: one or two passes of four words, and seven of a byte. -/
def linkedBss (x : Xlen) : Symbol → BitVec x.bits
  | .__bss_start => BitVec.ofNat x.bits 0x48010000
  | .__bss_end => BitVec.ofNat x.bits 0x48010027
  | _ => 0#x.bits

theorem linkedBss_linked (x : Xlen) : BssLinked x (linkedBss x) := by
  cases x
  · exact ⟨by decide, by decide, by decide⟩
  · exact ⟨by decide, by decide, by decide⟩

/-- The last byte of `.bss` is cleared, and the byte behind it is not. -/
theorem zero_bss_clears_linkedBss : ∃ n s log, (crt0 .rv32 (linkedBss .rv32) 0).logged.exec
      (⟨⟨fun _ => 0, fun _ => 0, fun _ => 0xff, fun _ => none⟩, clearBss .rv32, none⟩, [])
      (List.replicate n .run) = some (s, log) ∧
    s.machine.mem 0x48010026 = 0 ∧ s.machine.mem 0x48010027 = 0xff := by
  obtain ⟨n, s, log, hexec, hcleared⟩ := zero_bss_clears 0 (linkedBss_linked .rv32)
    ⟨fun _ => 0, fun _ => 0, fun _ => 0xff, fun _ => none⟩
  refine ⟨n, s, log, hexec, ?_, ?_⟩
  · rw [hcleared.mem]
    exact if_pos (by decide)
  · rw [hcleared.mem]
    exact if_neg (by decide)

/-! ## Section 5: From _start -/

section boot
variable {x address} {mhartid : BitVec x.bits} {m : HostMachine x} {log : List (Write x.bits)}

/-- The code that clears `.bss` is in front. -/
def AtClearBss (s : LoggedState x) : Prop := s.1.code = clearBss x ∧ s.1.mepc = none

theorem store_context_leads :
    Leads address mhartid m ((crt0 x address mhartid).text .store_context) log AtClearBss := by
  rw [text_store_context]
  show Leads address mhartid m (.addi .sp .sp _ :: .store x.bytes .t1 _ .sp ::
    .store x.bytes .gp _ .sp :: .store x.bytes .ra _ .sp :: .la .t0 ._trap_handler_wrap ::
    .csrw .mtvec .t0 :: clearBss x) log _
  apply Program.leadsTo_quiet rfl rfl rfl
  -- the three words of the context
  apply Program.leadsTo_next rfl rfl
  apply Program.leadsTo_next rfl rfl
  apply Program.leadsTo_next rfl rfl
  apply Program.leadsTo_quiet rfl rfl rfl
  apply Program.leadsTo_quiet rfl rfl rfl
  exact .here ⟨rfl, rfl⟩

theorem init_gp_leads :
    Leads address mhartid m ((crt0 x address mhartid).text .init_gp) log AtClearBss := by
  show Leads address mhartid m (.la .t0 .__global_pointer :: .beqz .t0 .store_context ::
    .mv .gp .t0 :: .label .store_context :: _) log _
  apply Program.leadsTo_quiet rfl rfl rfl
  apply Program.leadsTo_branch rfl rfl rfl rfl
  · intro _
    exact store_context_leads
  · intro _
    apply Program.leadsTo_quiet rfl rfl rfl
    apply Program.leadsTo_jump rfl rfl
    exact store_context_leads

theorem init_sp_leads :
    Leads address mhartid m ((crt0 x address mhartid).text .init_sp) log AtClearBss := by
  show Leads address mhartid m (.mv .t1 .sp :: .la .t0 .__stack_pointer :: .beqz .t0 .init_gp ::
    .mv .sp .t0 :: .label .init_gp :: _) log _
  apply Program.leadsTo_quiet rfl rfl rfl
  apply Program.leadsTo_quiet rfl rfl rfl
  apply Program.leadsTo_branch rfl rfl rfl rfl
  · intro _
    exact init_gp_leads
  · intro _
    apply Program.leadsTo_quiet rfl rfl rfl
    apply Program.leadsTo_jump rfl rfl
    exact init_gp_leads

/-- Hart 0 does not park. -/
theorem start_leads (hhart : mhartid = 0#x.bits) :
    Leads address mhartid m ((crt0 x address mhartid).text ._start) log AtClearBss := by
  show Leads address mhartid m (.csrci .mstatus 10 :: .csrrMhartid .t0 :: .beqz .t0 .init_sp ::
    .label .park :: _) log _
  apply Program.leadsTo_quiet rfl rfl rfl
  apply Program.leadsTo_quiet rfl rfl rfl
  apply Program.leadsTo_branch rfl rfl rfl rfl
  · intro _
    exact init_sp_leads
  · intro hpark
    exact absurd hhart hpark

/-- **Start-up on hart 0**: from `_start` the program arrives at
    `_fp_init` with `.bss` cleared, from any machine and on any stack. -/
theorem start_clears_bss (hlinked : BssLinked x address) (hhart : mhartid = 0#x.bits)
    (m : HostMachine x) :
    ((crt0 x address mhartid).system ._start m).LeadsTo .run
      ⟨m, (crt0 x address mhartid).text ._start, none⟩ (fun s =>
        s.code = (crt0 x address mhartid).text ._fp_init ∧ s.mepc = none ∧
          ∀ a, Bss x address a → s.machine.mem a = 0#8) := by
  have hstart : Leads address mhartid m _ [] AtClearBss := start_leads hhart
  apply (Program.leadsTo_system hstart).trans
  intro ⟨m', code, mepc⟩ ⟨log, hcode, hmepc⟩
  obtain rfl : code = clearBss x := hcode
  obtain rfl : mepc = none := hmepc
  apply (Program.leadsTo_system (clearBss_leads_cleared hlinked m')).trans
  intro s ⟨log', hcleared⟩
  refine .here ⟨hcleared.code, hcleared.mepc, ?_⟩
  intro a ha
  rw [hcleared.mem, if_pos ha]

/-- A machine whose memory is full of ones. -/
def onesMachine : HostMachine .rv32 := ⟨fun _ => 0, fun _ => 0, fun _ => 0xff, fun _ => none⟩

theorem start_clears_bss_linkedBss :
    ((crt0 .rv32 (linkedBss .rv32) 0).system ._start onesMachine).LeadsTo .run
      ⟨onesMachine, (crt0 .rv32 (linkedBss .rv32) 0).text ._start, none⟩ (fun s =>
        s.code = (crt0 .rv32 (linkedBss .rv32) 0).text ._fp_init ∧ s.mepc = none ∧
          ∀ a, Bss .rv32 (linkedBss .rv32) a → s.machine.mem a = 0#8) :=
  start_clears_bss (linkedBss_linked .rv32) rfl onesMachine

end boot

end Crt0
