import ChimeraSdk.Host.Crt0

/-! # The Outline of the Start-up Code

    One assertion at every label of `crt0.S`.  Between the saving of the
    context and `_exit`, `sp` points to three words that hold the caller's
    `sp`, the `gp` of this program and the caller's `ra`.  They are left
    alone by the clearing of `.bss`, the callees and the traps. -/

open Alloc (Xlen)
open RiscV WordMemory LTS

namespace Crt0

variable (x : Xlen) (address : Symbol → BitVec x.bits)

/-! ## Section 1: The assertions -/

/-- `gp` from `store_context` on. -/
def newGp (m₀ : HostMachine x) : BitVec x.bits :=
  if address .__global_pointer = 0#x.bits then m₀.reg .gp else address .__global_pointer

/-- The bytes a trap leaves alone. -/
def kept (sp a : BitVec x.bits) : Prop :=
  Within sp (3 * x.bytes) a ∨ Within (scratch2 x address) 4 a

/-- The word in a slot of the context. -/
def contextWord (m₀ m : HostMachine x) (i : Nat) : BitVec x.bits :=
  load m.mem (contextAt x address m₀ + BitVec.ofNat x.bits (i * x.bytes)) x.bytes

/-- The context has been saved. -/
structure Saved (m₀ m : HostMachine x) : Prop where
  sp : m.reg .sp = contextAt x address m₀
  gp : m.reg .gp = newGp x address m₀
  word_sp : contextWord x address m₀ m 0 = m₀.reg .sp
  word_gp : contextWord x address m₀ m 1 = newGp x address m₀
  word_ra : contextWord x address m₀ m 2 = m₀.reg .ra

/-- `t0` has moved `k` bytes into `.bss` and `t2` counts the rest. -/
def Clearing (m : HostMachine x) : Prop :=
  ∃ k, (k = 0 ∨ (0 < (bssSize x address).toInt ∧ k ≤ (bssSize x address).toNat)) ∧
    m.reg .t0 = address .__bss_start + BitVec.ofNat x.bits k ∧
    m.reg .t2 = bssSize x address - BitVec.ofNat x.bits k

/-- `main` has returned, and `a0` is what `_uart_deinit` left in `t0`. -/
def Served (m : HostMachine x) : Prop :=
  ∃ afterMain afterDeinit, m.returned .main = some afterMain ∧
    m.returned ._uart_deinit = some afterDeinit ∧ m.reg .a0 = afterDeinit .t0

def atLabel (m₀ : HostMachine x) : Label → HostMachine x → Prop
  | ._start, m => m.reg .sp = m₀.reg .sp ∧ m.reg .gp = m₀.reg .gp ∧ m.reg .ra = m₀.reg .ra
  | .park, _ => True
  | .init_sp, m => m.reg .sp = m₀.reg .sp ∧ m.reg .gp = m₀.reg .gp ∧ m.reg .ra = m₀.reg .ra
  | .init_gp, m => m.reg .t1 = m₀.reg .sp ∧ m.reg .sp = stackTop x address m₀ ∧
      m.reg .gp = m₀.reg .gp ∧ m.reg .ra = m₀.reg .ra
  | .store_context, m => m.reg .t1 = m₀.reg .sp ∧ m.reg .sp = stackTop x address m₀ ∧
      m.reg .gp = newGp x address m₀ ∧ m.reg .ra = m₀.reg .ra
  | ._zero_bss_loop, m => Saved x address m₀ m ∧ Clearing x address m
  | ._zero_bss_rem, m => Saved x address m₀ m ∧ Clearing x address m ∧ 0 < (m.reg .t2).toInt
  | ._fp_init, m => Saved x address m₀ m
  | ._exit, m => Saved x address m₀ m ∧ Served x m
  | ._trap_handler_wrap, _ => False

structure AtExit (m₀ m : HostMachine x) : Prop where
  served : Served x m
  scratch : bytesAt m.mem (scratch2 x address) 4 =
    (m.reg .a0 <<< 1 ||| 1#x.bits).toNat % 2 ^ 32
  sp : m.reg .sp = m₀.reg .sp
  gp : m.reg .gp = newGp x address m₀
  ra : m.reg .ra = m₀.reg .ra

def outline (m₀ : HostMachine x) : Outline x.bits Label Csr Callee where
  label := atLabel x address m₀
  ret := AtExit x address m₀
  kept := kept x address

/-! ## Section 2: Stability -/

section stability
variable {x address} {m₀ m m' : HostMachine x}

theorem bits_eq (x : Xlen) : x.bits = 8 * x.bytes := rfl

theorem bits_div (x : Xlen) : x.bits / 8 = x.bytes := by
  cases x <;> rfl

/-- The stack frames here are small. -/
theorem room (x : Xlen) : 19 * x.bytes ≤ 2 ^ x.bits := by
  cases x <;> decide

/-- The context survives what leaves its bytes, `sp` and `gp` alone. -/
theorem Saved.of_same (h : Saved x address m₀ m) (hsp : m'.reg .sp = m.reg .sp)
    (hgp : m'.reg .gp = m.reg .gp)
    (hmem : ∀ a, Within (contextAt x address m₀) (3 * x.bytes) a → m'.mem a = m.mem a) :
    Saved x address m₀ m' := by
  have hroom := room x
  have hword : ∀ i < 3, contextWord x address m₀ m' i = contextWord x address m₀ m i := by
    intro i hi
    apply load_congr (by omega)
    intro a ha
    exact hmem a (within_area hi (by omega) ha)
  exact ⟨hsp.trans h.sp, hgp.trans h.gp, (hword 0 (by decide)).trans h.word_sp,
    (hword 1 (by decide)).trans h.word_gp, (hword 2 (by decide)).trans h.word_ra⟩

theorem Saved.of_untouched (h : Saved x address m₀ m) (hu : Untouched (kept x address) m m') :
    Saved x address m₀ m' := by
  apply h.of_same (hu.reg .sp) (hu.reg .gp)
  intro a ha
  exact hu.mem a (.inl (h.sp ▸ ha))

theorem Clearing.of_untouched (h : Clearing x address m) (hu : Untouched (kept x address) m m') :
    Clearing x address m' := by
  obtain ⟨k, hk, ht0, ht2⟩ := h
  exact ⟨k, hk, (hu.reg .t0).trans ht0, (hu.reg .t2).trans ht2⟩

theorem Served.of_untouched (h : Served x m) (hu : Untouched (kept x address) m m') :
    Served x m' := by
  obtain ⟨afterMain, afterDeinit, hmain, hdeinit, ha0⟩ := h
  refine ⟨afterMain, afterDeinit, ?_, ?_, (hu.reg .a0).trans ha0⟩
  · rw [hu.returned, hmain]
  · rw [hu.returned, hdeinit]

theorem atLabel_stable (l : Label) (h : atLabel x address m₀ l m)
    (hu : Untouched (kept x address) m m') : atLabel x address m₀ l m' := by
  cases l with
  | _start | init_sp | init_gp | store_context =>
    simp only [atLabel, hu.reg] at h ⊢
    exact h
  | park => trivial
  | _zero_bss_loop => exact ⟨h.1.of_untouched hu, h.2.of_untouched hu⟩
  | _zero_bss_rem =>
    refine ⟨h.1.of_untouched hu, h.2.1.of_untouched hu, ?_⟩
    rw [hu.reg]
    exact h.2.2
  | _fp_init => exact Saved.of_untouched h hu
  | _exit => exact ⟨h.1.of_untouched hu, h.2.of_untouched hu⟩
  | _trap_handler_wrap => exact h.elim

theorem AtExit.of_untouched (h : AtExit x address m₀ m)
    (hu : Untouched (kept x address) m m') : AtExit x address m₀ m' := by
  refine ⟨h.served.of_untouched hu, ?_, (hu.reg _).trans h.sp, (hu.reg _).trans h.gp,
    (hu.reg _).trans h.ra⟩
  have hroom : 4 ≤ 2 ^ x.bits := by
    cases x <;> decide
  rw [bytesAt_congr hroom (fun a ha => hu.mem a (.inr ha)), hu.reg]
  exact h.scratch

end stability

/-! ## Section 3: The blocks -/

section blocks
variable {x address} {mhartid : BitVec x.bits} {m₀ m : HostMachine x}

variable (x address) in
abbrev spec (m₀ : HostMachine x) : Spec x.bits Label Csr Callee :=
  (outline x address m₀).main (environment x address)

/-- The assertion at a label is that of the outline. -/
@[simp] theorem spec_label (l : Label) :
    (spec x address m₀).label l m ↔ atLabel x address m₀ l m := Iff.rfl

theorem start_block (h : atLabel x address m₀ ._start m) :
    (spec x address m₀).wp (crt0 x address mhartid) ((crt0 x address mhartid).text ._start) m := by
  show (spec x address m₀).wp (crt0 x address mhartid)
    (.csrci .mstatus 10 :: .csrrMhartid .t0 :: .beqz .t0 .init_sp :: .label .park :: _) m
  obtain ⟨hsp, hgp, hra⟩ := h
  simp [atLabel, hsp, hgp, hra]

theorem park_block :
    (spec x address m₀).wp (crt0 x address mhartid) ((crt0 x address mhartid).text .park) m := by
  show (spec x address m₀).wp (crt0 x address mhartid) (.wfi :: .j .park :: _) m
  simp [atLabel]

theorem init_sp_block (h : atLabel x address m₀ .init_sp m) :
    (spec x address m₀).wp (crt0 x address mhartid) ((crt0 x address mhartid).text .init_sp) m := by
  show (spec x address m₀).wp (crt0 x address mhartid)
    (.mv .t1 .sp :: .la .t0 .__stack_pointer :: .beqz .t0 .init_gp :: .mv .sp .t0 ::
      .label .init_gp :: _) m
  obtain ⟨hsp, hgp, hra⟩ := h
  have haddress : (crt0 x address mhartid).address = address := rfl
  -- both branches arrive at the next label with the old `sp` in `t1`
  have hlabel : ∀ m', m'.reg .t1 = m₀.reg .sp → m'.reg .sp = stackTop x address m₀ →
      m'.reg .gp = m₀.reg .gp → m'.reg .ra = m₀.reg .ra → atLabel x address m₀ .init_gp m' :=
    fun m' h1 h2 h3 h4 => ⟨h1, h2, h3, h4⟩
  simp only [Spec.wp_mv, Spec.wp_la, Spec.wp_beqz, Spec.wp_mv_sp, Spec.wp_label, spec_label,
    haddress, ne_eq, reduceCtorEq, not_false_eq_true, Machine.reg_set_self]
  constructor
  · intro hzero
    apply hlabel
    · simp [hsp]
    · simp [hsp, stackTop, hzero]
    · simp [hgp]
    · simp [hra]
  · intro hne mem _
    apply hlabel
    · simp [hsp]
    · simp [stackTop, hne]
    · simp [hgp]
    · simp [hra]

theorem init_gp_block (h : atLabel x address m₀ .init_gp m) :
    (spec x address m₀).wp (crt0 x address mhartid) ((crt0 x address mhartid).text .init_gp) m := by
  show (spec x address m₀).wp (crt0 x address mhartid)
    (.la .t0 .__global_pointer :: .beqz .t0 .store_context :: .mv .gp .t0 ::
      .label .store_context :: _) m
  obtain ⟨ht1, hsp, hgp, hra⟩ := h
  have haddress : (crt0 x address mhartid).address = address := rfl
  simp [atLabel, ht1, hsp, hgp, hra, haddress]
  constructor
  · intro hzero
    exact (if_pos hzero).symm
  · intro hne
    exact (if_neg hne).symm

/-- The context is saved when its slots hold the registers of a machine
    that has the new `gp`, and the old `sp` in `t1`. -/
theorem saved_of_saveAll {m m' : HostMachine x} {mem : Memory x.bits}
    (hmem : m'.mem = saveAll x.bytes (contextAt x address m₀) m mem contextSlots)
    (hsp : m'.reg .sp = contextAt x address m₀) (hgp : m'.reg .gp = newGp x address m₀)
    (hslot_sp : m.reg .t1 = m₀.reg .sp) (hslot_gp : m.reg .gp = newGp x address m₀)
    (hslot_ra : m.reg .ra = m₀.reg .ra) : Saved x address m₀ m' := by
  have hroom := room x
  have hslot : ∀ s ∈ contextSlots, contextWord x address m₀ m' s.2 = m.reg s.1 := by
    intro s hs
    unfold contextWord
    rw [hmem]
    exact load_saveAll (k := 3) (bits_eq x) (by omega) (by decide) (by decide) hs
  exact ⟨hsp, hgp, (hslot (.t1, 0) (by decide)).trans hslot_sp,
    (hslot (.gp, 1) (by decide)).trans hslot_gp, (hslot (.ra, 2) (by decide)).trans hslot_ra⟩

theorem store_context_block (h : atLabel x address m₀ .store_context m) :
    (spec x address m₀).wp (crt0 x address mhartid)
      ((crt0 x address mhartid).text .store_context) m := by
  show (spec x address m₀).wp (crt0 x address mhartid)
    (.addi .sp .sp (-(3 * x.bytes)) :: (saveCode x.bytes contextSlots ++
      (.la .t0 ._trap_handler_wrap :: .csrw .mtvec .t0 :: .la .t0 .__bss_start ::
        .la .t1 .__bss_end :: .sub .t2 .t1 .t0 :: .li .a0 0 :: .label ._zero_bss_loop :: _))) m
  obtain ⟨ht1, hsp, hgp, hra⟩ := h
  have haddress : (crt0 x address mhartid).address = address := rfl
  have hcontext : m.reg .sp + BitVec.ofInt x.bits (-(3 * x.bytes)) = contextAt x address m₀ := by
    rw [hsp]
    rfl
  rw [Spec.wp_addi_sp]
  intro mem _
  rw [wp_saveCode, hcontext]
  simp only [Spec.wp_la, Spec.wp_csrw, Spec.wp_sub, Spec.wp_li, Spec.wp_label, spec_label,
    ne_eq, reduceCtorEq, not_false_eq_true]
  constructor
  · apply saved_of_saveAll rfl
    all_goals simp [hgp, ht1, hra]
  · refine ⟨0, .inl rfl, ?_, ?_⟩
    all_goals simp [haddress, bssSize]

/-! ### Clearing .bss -/

/-- `t2` counts the bytes from `t0` to the end of `.bss`. -/
theorem Clearing.rest (h : Clearing x address m) :
    ∃ k : Nat, m.reg .t0 = address .__bss_start + BitVec.ofNat x.bits k ∧
      m.reg .t2 = bssSize x address - BitVec.ofNat x.bits k ∧
      (bssSize x address).toInt = k + (m.reg .t2).toInt := by
  obtain ⟨k, hk, ht0, ht2⟩ := h
  refine ⟨k, ht0, ht2, ?_⟩
  rcases hk with rfl | ⟨hsize, hle⟩
  · rw [ht2, BitVec.sub_zero]
    omega
  · obtain ⟨hnat, hlt⟩ := toInt_of_nonneg (Int.le_of_lt hsize)
    rw [ht2, toInt_sub_ofNat (Int.le_of_lt hsize) (by omega)]
    omega

/-- What the loops clear next is part of `.bss`. -/
theorem Clearing.inBss (h : Clearing x address m) (hpos : 0 < (m.reg .t2).toInt) {off n : Nat}
    (hroom : (off + n : Int) ≤ (m.reg .t2).toInt) {a : BitVec x.bits}
    (ha : Within (Program.operand m off .t0) n a) : InBss x address a := by
  obtain ⟨k, ht0, _, hsize⟩ := h.rest
  obtain ⟨hnat, hlt⟩ := toInt_of_nonneg (v := bssSize x address) (by omega)
  unfold Program.operand at ha
  rw [ht0, BitVec.add_assoc, BitVec.ofNat_add_ofNat, within_offset (by omega)] at ha
  unfold InBss
  omega

/-- The next part has been cleared. -/
theorem Clearing.advance (h : Clearing x address m) (hpos : 0 < (m.reg .t2).toInt) {c : Nat}
    (hc : (c : Int) ≤ (m.reg .t2).toInt) {m' : HostMachine x}
    (ht0 : m'.reg .t0 = m.reg .t0 + BitVec.ofNat x.bits c)
    (ht2 : m'.reg .t2 = m.reg .t2 - BitVec.ofNat x.bits c) : Clearing x address m' := by
  obtain ⟨k, hk0, hk2, hsize⟩ := h.rest
  obtain ⟨hnat, hlt⟩ := toInt_of_nonneg (v := bssSize x address) (by omega)
  refine ⟨k + c, .inr ⟨by omega, by omega⟩, ?_, ?_⟩
  · rw [ht0, hk0, BitVec.add_assoc, BitVec.ofNat_add_ofNat]
  · rw [ht2, hk2, BitVec.sub_sub, BitVec.ofNat_add_ofNat]

theorem Saved.set (h : Saved x address m₀ m) {rd : Reg} {v : BitVec x.bits} (hsp : .sp ≠ rd)
    (hgp : .gp ≠ rd) : Saved x address m₀ (m.set rd v) :=
  h.of_same (Machine.reg_set_ne hsp) (Machine.reg_set_ne hgp) (fun _ _ => rfl)

/-- A store into `.bss` leaves the context alone. -/
theorem Saved.store_bss (h : Saved x address m₀ m) (hapart : StackApart x address m₀)
    {a v : BitVec x.bits} {n : Nat} (hbss : ∀ b, Within a n b → InBss x address b) :
    Saved x address m₀ (m.withMem (store m.mem a n v)) := by
  apply h.of_same Machine.withMem_reg Machine.withMem_reg
  intro b hb
  exact store_outside (fun hin => hapart b (hbss b hin) hb)

variable (address m₀ m) in
/-- In the body of a loop entered in `m`. -/
structure Filling (m' : HostMachine x) : Prop where
  saved : Saved x address m₀ m'
  t0 : m'.reg .t0 = m.reg .t0
  t2 : m'.reg .t2 = m.reg .t2

/-- One store of the loops. -/
theorem wp_store_bss (hapart : StackApart x address m₀) (hclear : Clearing x address m)
    (hpos : 0 < (m.reg .t2).toInt) {n off : Nat} (hroom : (off + n : Int) ≤ (m.reg .t2).toInt)
    {m' : HostMachine x} (hm' : Filling address m₀ m m') {code : Code x}
    (h : ∀ m'', Filling address m₀ m m'' →
      (spec x address m₀).wp (crt0 x address mhartid) code m'') :
    (spec x address m₀).wp (crt0 x address mhartid) (.store n .a0 off .t0 :: code) m' := by
  have hsame : Program.operand m' off .t0 = Program.operand m off .t0 := by
    unfold Program.operand
    rw [hm'.t0]
  rw [Spec.wp_store, hsame]
  apply h
  refine ⟨hm'.saved.store_bss hapart ?_, hm'.t0, hm'.t2⟩
  intro a ha
  exact hclear.inBss hpos hroom ha

/-- The end of a loop body, which moves on by `c` bytes. -/
theorem Filling.advance {m' : HostMachine x} (hm' : Filling address m₀ m m')
    (hclear : Clearing x address m) (hpos : 0 < (m.reg .t2).toInt) {c : Nat}
    (hc : (c : Int) ≤ (m.reg .t2).toInt) {t0 t2 : BitVec x.bits}
    (ht0 : t0 = m'.reg .t0 + BitVec.ofInt x.bits c)
    (ht2 : t2 = m'.reg .t2 + BitVec.ofInt x.bits (-c)) :
    Saved x address m₀ ((m'.set .t2 t2).set .t0 t0) ∧
      Clearing x address ((m'.set .t2 t2).set .t0 t0) := by
  constructor
  · exact (hm'.saved.set (by decide) (by decide)).set (by decide) (by decide)
  · apply hclear.advance hpos hc
    · simp [ht0, hm'.t0]
    · simp [ht2, hm'.t2, addi_neg]

theorem zero_bss_loop_block (hapart : StackApart x address m₀)
    (h : atLabel x address m₀ ._zero_bss_loop m) :
    (spec x address m₀).wp (crt0 x address mhartid)
      ((crt0 x address mhartid).text ._zero_bss_loop) m := by
  show (spec x address m₀).wp (crt0 x address mhartid)
    (.addi .t4 .t2 (-(4 * x.bytes)) :: .blez .t2 ._fp_init :: .blt .t4 .x0 ._zero_bss_rem ::
      .store x.bytes .a0 0 .t0 :: .store x.bytes .a0 x.bytes .t0 ::
      .store x.bytes .a0 (2 * x.bytes) .t0 :: .store x.bytes .a0 (3 * x.bytes) .t0 ::
      .addi .t2 .t2 (-(4 * x.bytes)) :: .addi .t0 .t0 (4 * x.bytes) ::
      .bgt .t2 .x0 ._zero_bss_loop :: .j ._fp_init :: _) m
  obtain ⟨hsaved, hclear⟩ := h
  have hcast : (4 * x.bytes : Int) = (4 * x.bytes : Nat) := by push_cast; rfl
  rw [hcast, Spec.wp_addi (by decide), Spec.wp_blez, Spec.wp_blt]
  have hsaved' : Saved x address m₀
      (m.set .t4 (m.reg .t2 + BitVec.ofInt x.bits (-(4 * x.bytes : Nat)))) :=
    hsaved.set (by decide) (by decide)
  -- to the end, to the rest, or into the body
  refine ⟨fun _ => hsaved', fun hpos => ⟨fun _ => ⟨hsaved', ?_, ?_⟩, fun hfour => ?_⟩⟩
  · exact hclear
  · exact Int.not_le.mp hpos
  · have hfill : Filling address m₀ m
        (m.set .t4 (m.reg .t2 + BitVec.ofInt x.bits (-(4 * x.bytes : Nat)))) :=
      ⟨hsaved', rfl, rfl⟩
    replace hpos : 0 < (m.reg .t2).toInt := Int.not_le.mp hpos
    -- `t4` is not negative, so four words are left
    have hroom : (4 * x.bytes : Nat) ≤ (m.reg .t2).toInt := by
      have hsmall : 2 * (4 * x.bytes) < 2 ^ x.bits := by
        cases x <;> decide
      rw [Machine.reg_set_self (by decide), addi_neg,
        toInt_sub_ofNat (Int.le_of_lt hpos) hsmall, Machine.reg_x0, BitVec.toInt_zero] at hfour
      omega
    apply wp_store_bss hapart hclear hpos (by omega) hfill
    intro m₁ h₁
    apply wp_store_bss hapart hclear hpos (by omega) h₁
    intro m₂ h₂
    apply wp_store_bss hapart hclear hpos (by omega) h₂
    intro m₃ h₃
    apply wp_store_bss hapart hclear hpos (by omega) h₃
    intro m₄ h₄
    -- behind the four stores the registers move on
    rw [Spec.wp_addi (by decide), Spec.wp_addi (by decide), Spec.wp_bgt, Spec.wp_j]
    have hnext := h₄.advance hclear hpos hroom rfl rfl
    exact ⟨fun _ => hnext, fun _ => hnext.1⟩

theorem zero_bss_rem_block (hapart : StackApart x address m₀)
    (h : atLabel x address m₀ ._zero_bss_rem m) :
    (spec x address m₀).wp (crt0 x address mhartid)
      ((crt0 x address mhartid).text ._zero_bss_rem) m := by
  show (spec x address m₀).wp (crt0 x address mhartid)
    (.store 1 .a0 0 .t0 :: .addi .t2 .t2 (-1) :: .addi .t0 .t0 1 ::
      .bgt .t2 .x0 ._zero_bss_rem :: .label ._fp_init :: _) m
  obtain ⟨hsaved, hclear, hpos⟩ := h
  apply wp_store_bss hapart hclear hpos (by omega) ⟨hsaved, rfl, rfl⟩
  intro m₁ h₁
  rw [Spec.wp_addi (by decide), Spec.wp_addi (by decide), Spec.wp_bgt, Spec.wp_label]
  have hnext := h₁.advance (c := 1) hclear hpos (by omega) rfl rfl
  refine ⟨fun hmore => ⟨hnext.1, hnext.2, ?_⟩, fun _ => hnext.1⟩
  rwa [Machine.reg_x0, BitVec.toInt_zero] at hmore

/-! ### main and _exit -/

/-- The set-up of the floating-point unit changes `t1` and `mstatus`. -/
theorem wp_fpInit {S : Spec x.bits Label Csr Callee} {P : Program x.bits Label Symbol Csr Callee}
    {code : Code x} (h : ∀ m', (∀ r, r ≠ .t1 → m'.reg r = m.reg r) → m'.mem = m.mem →
      S.wp P code m') : S.wp P (fpInit x ++ code) m := by
  cases x with
  | rv32 => exact h m (fun _ _ => rfl) rfl
  | rv64 =>
    simp only [fpInit, List.replicate, List.cons_append, List.nil_append, Spec.wp_fp,
      Spec.wp_fence, Spec.wp_csrc, Spec.wp_csrs, Spec.wp_slli, Spec.wp_li, ne_eq, reduceCtorEq,
      not_false_eq_true]
    apply h
    · intro r hr
      rw [Machine.setCsr_reg, Machine.setCsr_reg, Machine.reg_set_ne hr, Machine.reg_set_ne hr]
    · rfl

/-- Every callee leaves the context alone. -/
theorem Saved.of_call (h : Saved x address m₀ m) {f : Callee} {m' : HostMachine x}
    (hback : CameBack (environment x address) (kept x address) f m m') :
    Saved x address m₀ m' := by
  apply h.of_same (hback.reg rfl) (hback.reg rfl)
  intro a ha
  have hframe : Within (m.reg .sp) (3 * x.bytes) a := h.sp ▸ ha
  apply hback.mem a _ (.inl hframe)
  cases f with
  | trap_vector => exact .inl (Nat.lt_of_lt_of_le hframe (Nat.mul_le_mul_right _ (by decide)))
  | _ => exact hframe

theorem fp_init_block (h : atLabel x address m₀ ._fp_init m) :
    (spec x address m₀).wp (crt0 x address mhartid)
      ((crt0 x address mhartid).text ._fp_init) m := by
  have htext : (crt0 x address mhartid).text ._fp_init =
      fpInit x ++ (callMain x ++ (exit x ++ trapHandlerWrap x)) := by
    cases x <;> rfl
  have hsaved : Saved x address m₀ m := h
  rw [htext]
  apply wp_fpInit
  intro m₁ hregs hmem
  have h₁ : Saved x address m₀ m₁ :=
    hsaved.of_same (hregs _ (by decide)) (hregs _ (by decide)) (fun a _ => congrFun hmem a)
  show (spec x address m₀).wp (crt0 x address mhartid)
    (.call ._uart_init :: .call .main :: .mv .t0 .a0 :: .call ._uart_deinit :: .mv .a0 .t0 ::
      .label ._exit :: _) m₁
  -- the context is on the stack, which all three callees leave alone
  rw [Spec.wp_call]
  intro m₂ ⟨hback₂, _⟩
  rw [Spec.wp_call]
  intro m₃ ⟨hback₃, hmain⟩
  rw [Spec.wp_mv (by decide), Spec.wp_call]
  intro m₄ ⟨hback₄, hdeinit⟩
  rw [Spec.wp_mv (by decide), Spec.wp_label]
  have h₃ : Saved x address m₀ m₃ := (h₁.of_call hback₂).of_call hback₃
  have h₄ : Saved x address m₀ m₄ := (h₃.set (by decide) (by decide)).of_call hback₄
  -- `a0` is what `_uart_deinit` has left in `t0`
  refine ⟨h₄.set (by decide) (by decide), m₃.regs, m₄.regs, ?_, ?_, ?_⟩
  · rw [Machine.set_returned, hdeinit, Function.update_of_ne (by decide), Machine.set_returned,
      hmain, Function.update_self]
  · rw [Machine.set_returned, hdeinit, Function.update_self]
  · exact Machine.reg_set_self (by decide)

/-- The word of a slot as `_exit` reads it. -/
theorem Saved.load_slot (h : Saved x address m₀ m) (m' : HostMachine x)
    (hsp : m'.reg .sp = m.reg .sp) (hmem : m'.mem = m.mem) {i : Nat} (hi : i < 3) :
    (∀ a, Within (Program.operand m' (i * x.bytes) .sp) (x.bits / 8) a →
        kept x address (m'.reg .sp) a) ∧
      load m'.mem (Program.operand m' (i * x.bytes) .sp) (x.bits / 8) =
        contextWord x address m₀ m i := by
  have hroom := room x
  have hoperand : Program.operand m' (i * x.bytes) .sp =
      contextAt x address m₀ + BitVec.ofNat x.bits (i * x.bytes) := by
    unfold Program.operand
    rw [hsp, h.sp]
  rw [hoperand, bits_div, hmem, hsp, h.sp]
  exact ⟨fun a ha => .inl (within_area hi (by omega) ha), rfl⟩

theorem exit_block (h : atLabel x address m₀ ._exit m) :
    (spec x address m₀).wp (crt0 x address mhartid) ((crt0 x address mhartid).text ._exit) m := by
  have htext : (crt0 x address mhartid).text ._exit = (exit x).tail ++ trapHandlerWrap x := by
    cases x <;> rfl
  obtain ⟨hsaved, afterMain, afterDeinit, hmain, hdeinit, ha0⟩ := h
  rw [htext]
  show (spec x address m₀).wp (crt0 x address mhartid)
    (.load .ra (2 * x.bytes) .sp :: .load .gp (1 * x.bytes) .sp :: .load .sp (0 * x.bytes) .sp ::
      .slli .t0 .a0 1 :: .ori .t0 .t0 1 :: .la .t1 .__base_regs :: .store 4 .t0 8 .t1 ::
      .ebreak :: .ret :: _) m
  -- the three registers come back from their slots, `sp` last
  obtain ⟨hkept_ra, hra⟩ := hsaved.load_slot m rfl rfl (by decide : 2 < 3)
  rw [Spec.wp_load (by decide), hra, hsaved.word_ra]
  refine ⟨hkept_ra, ?_⟩
  obtain ⟨hkept_gp, hgp⟩ := hsaved.load_slot (m.set .ra (m₀.reg .ra)) rfl rfl
    (by decide : 1 < 3)
  rw [Spec.wp_load (by decide), hgp, hsaved.word_gp]
  refine ⟨hkept_gp, ?_⟩
  obtain ⟨hkept_sp, hsp⟩ := hsaved.load_slot
    ((m.set .ra (m₀.reg .ra)).set .gp (newGp x address m₀)) rfl rfl (by decide : 0 < 3)
  rw [Spec.wp_load_sp, hsp, hsaved.word_sp]
  refine ⟨hkept_sp, fun mem _ => ?_⟩
  simp only [Spec.wp_slli, Spec.wp_ori, Spec.wp_la, Spec.wp_store, Spec.wp_ebreak, Spec.wp_ret,
    ne_eq, reduceCtorEq, not_false_eq_true]
  refine ⟨⟨afterMain, afterDeinit, hmain, hdeinit, ?_⟩, ?_, ?_, ?_, ?_⟩
  · simp [ha0]
  · have hroom : 4 ≤ 2 ^ x.bits := by
      cases x <;> decide
    have haddress : (crt0 x address mhartid).address = address := rfl
    simp [Program.operand, scratch2, haddress, bytesAt_store, hroom]
  · simp
  · simp
  · simp

/-! ### Traps -/

/-- What a trap does not save, the handler preserves. -/
theorem preserved_of_notMem (r : Reg) (h : r ∉ trapSlots.map Prod.fst) : r.preserved = true := by
  revert h
  cases r <;> decide

theorem slot_lt : ∀ s ∈ trapSlots, s.2 < 16 := by decide

/-- The save area lies below the bytes a trap leaves alone. -/
theorem saveAll_kept {low : BitVec x.bits} {mem : Memory x.bits}
    (htrap : Disjoint low (16 * x.bytes) (scratch2 x address) 4) {a : BitVec x.bits}
    (ha : kept x address (low + BitVec.ofNat x.bits (16 * x.bytes)) a) :
    saveAll x.bytes low m mem trapSlots a = mem a := by
  have hroom := room x
  apply saveAll_outside
  intro s hs hin
  have harea : Within low (16 * x.bytes) a := within_area (slot_lt s hs) (by omega) hin
  rcases ha with hframe | hscratch
  · rw [within_offset (by omega)] at hframe
    unfold Within at harea
    omega
  · exact htrap a harea hscratch

/-- The handler leaves the save area and the bytes above it alone. -/
theorem keeps_trap_vector {low a : BitVec x.bits}
    (ha : Within low (16 * x.bytes) a ∨
      kept x address (low + BitVec.ofNat x.bits (16 * x.bytes)) a) :
    (environment x address).keeps .trap_vector low a := by
  have hroom := room x
  rcases ha with harea | hframe | hscratch
  · refine .inl ?_
    unfold Within at harea ⊢
    omega
  · rw [within_offset (by omega)] at hframe
    exact .inl (by unfold Within; omega)
  · exact .inr hscratch

variable (m) in
/-- The machine that enters the handler: `sp` is the start of the save
    area, and the registers are in it. -/
def handlerEntry (low : BitVec x.bits) (mem : Memory x.bits) : HostMachine x :=
  (m.set .sp low).withMem (saveAll x.bytes low ((m.set .sp low).withMem mem) mem trapSlots)

/-- The registers behind the wrapper: those it has saved are loaded again,
    the others the handler has preserved. -/
theorem restoreAll_handler {low : BitVec x.bits} {mem : Memory x.bits} {m' : HostMachine x}
    (hback : CameBack (environment x address) (fun _ _ => True) .trap_vector
      (handlerEntry m low mem) m') {r : Reg} (hr : r ≠ .sp) :
    (restoreAll x.bytes m' trapSlots).regs r = m.regs r := by
  have hroom := room x
  have hentry : (handlerEntry m low mem).regs r = m.regs r := Function.update_of_ne hr ..
  by_cases hslot : r ∈ trapSlots.map Prod.fst
  · obtain ⟨s, hs, rfl⟩ := List.mem_map.mp hslot
    have hx0 : ∀ s ∈ trapSlots, s.1 ≠ .x0 := by decide
    have hoperand : Program.operand m' (s.2 * x.bytes) .sp =
        low + BitVec.ofNat x.bits (s.2 * x.bytes) := by
      unfold Program.operand
      rw [hback.reg rfl]
      rfl
    -- the handler has left the slot alone
    have hsame : ∀ a, Within (low + BitVec.ofNat x.bits (s.2 * x.bytes)) x.bytes a →
        m'.mem a = (handlerEntry m low mem).mem a := fun a ha =>
      hback.mem a (keeps_trap_vector (.inl (within_area (slot_lt s hs) (by omega) ha))) trivial
    have hload : load (handlerEntry m low mem).mem
        (low + BitVec.ofNat x.bits (s.2 * x.bytes)) x.bytes = (m.set .sp low).reg s.1 :=
      load_saveAll (k := 16) (bits_eq x) (by omega) slot_lt (by decide) hs
    rw [restoreAll_regs_of_mem (by decide) (by decide) hs, hoperand,
      load_congr (by omega) hsame, hload, Machine.reg_set_ne hr]
    exact if_neg (hx0 s hs)
  · rw [restoreAll_regs_of_notMem hslot, hback.regs r (preserved_of_notMem r hslot), hentry]

theorem trap_block (htrap : (environment x address).trapOk (m.reg .sp)) :
    ((outline x address m₀).handler (environment x address) m).wp (crt0 x address mhartid)
      ((crt0 x address mhartid).text ._trap_handler_wrap) m := by
  have htext : (crt0 x address mhartid).text ._trap_handler_wrap =
      .addi .sp .sp (-(16 * x.bytes)) :: (saveCode x.bytes trapSlots ++ (.call .trap_vector ::
        (restoreCode x.bytes trapSlots ++ [.addi .sp .sp (16 * x.bytes), .mret]))) := by
    cases x <;> rfl
  have hcast : (16 * x.bytes : Int) = (16 * x.bytes : Nat) := by push_cast; rfl
  -- the save area starts at `low` and ends at the stack pointer of the interrupted code
  obtain ⟨low, hlow⟩ : ∃ low, low = m.reg .sp - BitVec.ofNat x.bits (16 * x.bytes) := ⟨_, rfl⟩
  have htop : low + BitVec.ofNat x.bits (16 * x.bytes) = m.reg .sp := by
    rw [hlow, BitVec.sub_add_cancel]
  rw [htext, hcast, Spec.wp_addi_sp, addi_neg, ← hlow]
  intro mem hmem
  have hbase : ((m.set .sp low).withMem mem).reg .sp = low := by
    rw [Machine.withMem_reg, Machine.reg_set_self (by decide)]
  rw [wp_saveCode, hbase, Machine.withMem_withMem, Machine.withMem_mem, Spec.wp_call]
  intro m' hcall
  obtain ⟨hback, hreturned⟩ : CameBack (environment x address) (fun _ _ => True) .trap_vector
      (handlerEntry m low mem) m' ∧ m'.returned = m.returned := hcall
  apply wp_restoreCode (bits_div x) (fun _ _ => trivial) (by decide)
  rw [Spec.wp_addi_sp]
  intro mem' hmem'
  rw [Spec.wp_mret, BitVec.ofInt_natCast]
  refine ⟨funext fun r => ?_, ?_, fun a ha => ?_⟩
  · by_cases hr : r = .sp
    · rw [hr]
      have hnotMem : Reg.sp ∉ trapSlots.map Prod.fst := by decide
      have hregs : (restoreAll x.bytes m' trapSlots).regs .sp = low := by
        rw [restoreAll_regs_of_notMem hnotMem, hback.regs .sp rfl]
        exact Function.update_self Reg.sp low m.regs
      have hsp : (restoreAll x.bytes m' trapSlots).reg .sp = low := by
        unfold Machine.reg
        rw [if_neg (by decide), hregs]
      rw [hsp, htop, Machine.withMem_regs]
      show Function.update (restoreAll x.bytes m' trapSlots).regs .sp (m.reg .sp) .sp = m.reg .sp
      rw [Function.update_self]
    · rw [← restoreAll_handler hback hr]
      exact Function.update_of_ne hr ..
  · rw [← hreturned, Machine.withMem_returned, Machine.set_returned]
    exact restoreAll_returned
  · rw [← htop] at ha
    have harea : Disjoint low (16 * x.bytes) (scratch2 x address) 4 := hlow ▸ htrap
    calc mem' a = (restoreAll x.bytes m' trapSlots).mem a := hmem' a trivial trivial
      _ = m'.mem a := congrFun restoreAll_mem a
      _ = (handlerEntry m low mem).mem a :=
        hback.mem a (keeps_trap_vector (.inr ha)) trivial
      _ = mem a := saveAll_kept harea ha
      _ = m.mem a := hmem a trivial trivial

end blocks

end Crt0
