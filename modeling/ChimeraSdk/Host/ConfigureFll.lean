import ChimeraSdk.Host.FllAccuracy

/-! # Switching the Clock

    `configure_fll` calculates the parameters of a target frequency and
    programs both loops with them, behind a bypass.  A target whose double
    is 3.3 GHz or more is out of reach, and is to be refused before any
    register is touched.  The calculator doubles the target in 32 bits and
    checks only that the result is not zero. -/

namespace Fll

/-! ## Section 1: The calculator with its pointers -/

/-- The words behind the pointers `mult` and `div`.  `none` is a null
    pointer. -/
structure Outputs where
  mult : Option (BitVec 32)
  div  : Option (BitVec 32)

/-- `calculate_fll_params` as the caller sees it: the returned `int`, and
    what the pointers point to afterwards. -/
def calculate_fll_params_out (target_freq rtc_freq : BitVec 32) (out : Outputs) : Int × Outputs :=
  if out.mult.isNone ∨ out.div.isNone ∨ target_freq = 0 ∨ rtc_freq = 0 then (-1, out)
  else
    let denom := 2 * target_freq
    if denom = 0 then (-1, out)
    else
      let bound := FMAX / denom
      if bound ≤ 1 then (-1, out)
      else
        let below := bound - 1
        let e := 31 - below.clz
        let dout := 1#32 <<< e.toNat
        let num := target_freq * dout
        let m := (num + rtc_freq / 2) / rtc_freq
        (0, { mult := some (if m = 0 then 1 else m), div := some (e + 1) })

/-! ## Section 2: configure_fll -/

/-- The preprocessor symbols: whether the FLL driver is part of the build,
    and whether the target is chimera-convolve. -/
structure Build where
  driver_fll : Bool
  chimera_convolve : Bool

/-- What the called code answers: whether `dif_gpio_write` of a level
    succeeds, the measured frequency, and whether the UART opens at it. -/
structure Board where
  dif_gpio_write : Bool → Bool
  clint_get_core_freq : BitVec 32 → BitVec 32 → BitVec 32
  iface_open : BitVec 32 → Bool

/-- The loops that `configure_fll` programs, 0 and 1. -/
abbrev NUM_FLLS : Nat := 2

instance : NeZero NUM_FLLS := ⟨by decide⟩

/-- A write to the bypass pin or to CFG1 of a loop. -/
inductive RegWrite where
  | bypass (level : Bool)
  | conf1 (fllIdx : Fin NUM_FLLS) (value : BitVec 32)
  deriving DecidableEq

/-- The two loops and the register writes so far. -/
structure ClockState where
  fll : Fin NUM_FLLS → FllRegs
  writes : List RegWrite

/-- `dif_gpio_write` on the bypass pin. -/
def ClockState.bypass (s : ClockState) (level : Bool) : ClockState :=
  { s with writes := s.writes ++ [.bypass level] }

/-- The loop `fllIdx` gets new registers through its CFG1. -/
def ClockState.setConf1 (s : ClockState) (fllIdx : Fin NUM_FLLS) (regs : FllRegs) : ClockState :=
  { fll := Function.update s.fll fllIdx regs, writes := s.writes ++ [.conf1 fllIdx regs.conf1] }

/-- `initFll` and `setFllFreq` on one loop. -/
def ClockState.program (s : ClockState) (fllIdx : Fin NUM_FLLS) (mult div : BitVec 32) :
    ClockState :=
  let s := s.setConf1 fllIdx (initFll (s.fll fllIdx))
  s.setConf1 fllIdx (setFllFreq (s.fll fllIdx) mult div)

/-- The returned frequency and what is written on the way.  The locals
    `mult` and `div` start with any value; the bypass exists on
    chimera-convolve only. -/
def configure_fll (build : Build) (board : Board) (mult div target_freq rtc_freq : BitVec 32)
    (s : ClockState) : BitVec 32 × ClockState :=
  if build.driver_fll = false then (-1, s)
  else
    let (ret, out) := calculate_fll_params_out target_freq rtc_freq ⟨some mult, some div⟩
    if ret ≠ 0 then (0, s)
    else
      let s := if build.chimera_convolve then s.bypass true else s
      if build.chimera_convolve ∧ board.dif_gpio_write true = false then (0, s)
      else
        let s := s.program 0 (out.mult.getD mult) (out.div.getD div)
        let s := s.program 1 (out.mult.getD mult) (out.div.getD div)
        let s := if build.chimera_convolve then s.bypass false else s
        if build.chimera_convolve ∧ board.dif_gpio_write false = false then (0, s)
        else
          let core_freq_fll := board.clint_get_core_freq rtc_freq 1
          if board.iface_open core_freq_fll = false then (0, s) else (core_freq_fll, s)

/-! ## Section 3: What a refused target leaves alone -/

/-- A refused target: the calculator fails and stores nothing, and
    `configure_fll` returns zero and writes nothing. -/
structure Rejected (build : Build) (board : Board) (target_freq rtc_freq : BitVec 32) : Prop where
  calculator : ∀ out, calculate_fll_params_out target_freq rtc_freq out = (-1, out)
  configure : ∀ mult div s, configure_fll build board mult div target_freq rtc_freq s = (0, s)

section Rejection

variable {target_freq rtc_freq : BitVec 32}

/-- The calculator with its pointers is the calculator. -/
theorem calculate_fll_params_out_eq (target_freq rtc_freq mult div : BitVec 32) :
    calculate_fll_params_out target_freq rtc_freq ⟨some mult, some div⟩ =
      match calculate_fll_params target_freq rtc_freq with
      | none   => (-1, ⟨some mult, some div⟩)
      | some p => (0, ⟨some p.mult, some p.div⟩) := by
  unfold calculate_fll_params_out calculate_fll_params limit
  by_cases hfreqs : target_freq = 0 ∨ rtc_freq = 0
  · rw [if_pos hfreqs, if_pos (.inr (.inr hfreqs))]
  · have hpointers : ¬ ((some mult).isNone = true ∨ (some div).isNone = true ∨
        target_freq = 0 ∨ rtc_freq = 0) := by
      simpa using hfreqs
    rw [if_neg hfreqs, if_neg hpointers]
    by_cases hdenom : 2 * target_freq = 0
    · simp only [if_pos hdenom]
    · by_cases hbound : FMAX / (2 * target_freq) ≤ 1
      · simp only [if_neg hdenom, if_pos hbound]
      · simp only [if_neg hdenom, if_neg hbound]

/-- Where the calculator fails, it fails with every pair of pointers and
    stores nothing. -/
theorem calculate_fll_params_out_none (h : calculate_fll_params target_freq rtc_freq = none)
    (out : Outputs) : calculate_fll_params_out target_freq rtc_freq out = (-1, out) := by
  by_cases hnull : out.mult = none ∨ out.div = none
  · unfold calculate_fll_params_out
    have hguard : out.mult.isNone = true ∨ out.div.isNone = true ∨ target_freq = 0 ∨
        rtc_freq = 0 := by
      rw [Option.isNone_iff_eq_none, Option.isNone_iff_eq_none, ← or_assoc]
      exact .inl hnull
    rw [if_pos hguard]
  · obtain ⟨mult, hmult⟩ := Option.ne_none_iff_exists'.mp (not_or.mp hnull).1
    obtain ⟨div, hdiv⟩ := Option.ne_none_iff_exists'.mp (not_or.mp hnull).2
    have hout : out = ⟨some mult, some div⟩ := by rw [← hmult, ← hdiv]
    rw [hout, calculate_fll_params_out_eq, h]

/-- `configure_fll` passes a refusal on before it touches a register. -/
theorem configure_fll_none {build : Build} (hdriver : build.driver_fll = true)
    (h : calculate_fll_params target_freq rtc_freq = none) (board : Board)
    (mult div : BitVec 32) (s : ClockState) :
    configure_fll build board mult div target_freq rtc_freq s = (0, s) := by
  have hcall := calculate_fll_params_out_none h ⟨some mult, some div⟩
  unfold configure_fll
  rw [if_neg (by rw [hdriver]; decide), hcall]
  rfl

/-- A target is refused exactly when the build has the driver and the
    calculator fails. -/
theorem rejected_iff_none (build : Build) (board : Board) :
    Rejected build board target_freq rtc_freq ↔
      build.driver_fll = true ∧ calculate_fll_params target_freq rtc_freq = none := by
  constructor
  · intro h
    have hdriver : build.driver_fll = true := by
      by_cases hd : build.driver_fll = true
      · exact hd
      · -- the stub returns -1
        have hstub := h.configure 0 0 ⟨fun _ => resetRegs, []⟩
        unfold configure_fll at hstub
        rw [if_pos (by simpa using hd)] at hstub
        exact absurd (congrArg Prod.fst hstub) (by decide)
    refine ⟨hdriver, ?_⟩
    have hcall := h.calculator ⟨some 0, some 0⟩
    rw [calculate_fll_params_out_eq] at hcall
    cases hcalc : calculate_fll_params target_freq rtc_freq with
    | none => rfl
    | some p =>
      rw [hcalc] at hcall
      exact absurd (show (0 : Int) = -1 from congrArg Prod.fst hcall) (by decide)
  · intro h
    exact ⟨calculate_fll_params_out_none h.2, fun mult div s => configure_fll_none h.1 h.2 ..⟩

/-- Out of reach, the calculator only fails for the targets whose doubling
    does not wrap around to a reachable one. -/
theorem calculate_fll_params_eq_none_iff (hreach : 3300000000 ≤ 2 * target_freq.toNat) :
    calculate_fll_params target_freq rtc_freq = none ↔
      rtc_freq = 0 ∨ target_freq.toNat ≤ 2 ^ 31 ∨ 2 ^ 31 + 825000000 < target_freq.toNat := by
  have hlt := target_freq.isLt
  have hrtc : 0 < rtc_freq.toNat ↔ ¬ rtc_freq = 0 := by
    rw [Nat.pos_iff_ne_zero]
    exact not_congr ⟨fun h => BitVec.eq_of_toNat_eq h, fun h => by rw [h]; rfl⟩
  rw [← Option.not_isSome_iff_eq_none, calculate_fll_params_isSome, hrtc]
  by_cases hpos : 0 < target_freq.toNat % 2 ^ 31
  · -- the bound is at least two up to 825 MHz
    have hbound : 1 < (limit target_freq).toNat ↔ target_freq.toNat % 2 ^ 31 ≤ 825000000 := by
      rw [limit_toNat, ← Nat.succ_le_iff, Nat.le_div_iff_mul_le (by omega)]
      omega
    rw [hbound]
    by_cases h0 : rtc_freq = 0
    · simp [h0]
    · simp only [h0, not_false_eq_true, hpos, true_and, false_or]
      omega
  · constructor
    · intro _
      exact .inr (.inl (by omega))
    · intro _ h
      exact hpos h.2.1

end Rejection

/-- **Unreachable targets** are refused exactly when the build has the
    driver and the doubling does not wrap around to a reachable target. -/
theorem fll_unreachable_rejected_iff (build : Build) (board : Board)
    (target_freq rtc_freq : BitVec 32) (hreach : 3300000000 ≤ 2 * target_freq.toNat) :
    Rejected build board target_freq rtc_freq ↔
      build.driver_fll = true ∧ (rtc_freq = 0 ∨ target_freq.toNat ≤ 2 ^ 31 ∨
        2 ^ 31 + 825000000 < target_freq.toNat) := by
  rw [rejected_iff_none, calculate_fll_params_eq_none_iff hreach]

/-- The build for chimera-convolve, the one target with the driver. -/
def convolveBuild : Build := { driver_fll := true, chimera_convolve := true }

/-- A board where every call succeeds. -/
def soundBoard : Board where
  dif_gpio_write _ := true
  clint_get_core_freq _ _ := 200000000
  iface_open _ := true

/-- A target of 2 GHz is refused. -/
theorem fll_2GHz_rejected : Rejected convolveBuild soundBoard 2000000000 32768 :=
  (fll_unreachable_rejected_iff convolveBuild soundBoard 2000000000 32768 (by decide)).mpr
    ⟨rfl, .inr (.inl (by decide))⟩

/-- 2^31 + 1 Hz doubles to 2 Hz, and the loops are programmed. -/
theorem fll_wrapped_not_rejected :
    ¬ ∀ target_freq rtc_freq : BitVec 32, 3300000000 ≤ 2 * target_freq.toNat →
        Rejected convolveBuild soundBoard target_freq rtc_freq := by
  intro hall
  have hcall := (hall 0x80000001 32768 (by decide)).calculator ⟨some 0, some 0⟩
  exact absurd (congrArg Prod.fst hcall) (by decide)

end Fll
