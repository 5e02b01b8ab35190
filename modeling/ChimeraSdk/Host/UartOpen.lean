import ChimeraSdk.Host.UartApb

/-! # Opening the UART

    `uart_apb_open` programs the baud rate and the frame format.  The
    divisor latch shares its two addresses with the data register and the
    interrupt enables and is selected by the bit DLAB of the line control,
    so the order of the accesses counts.  The driver checks nothing of
    the configuration it is given. -/

open Bus

namespace UartApb

/-! ## Section 1: The registers behind the addresses -/

structure Uart16550 where
  dll : BitVec 8
  dlm : BitVec 8
  interruptEnable : BitVec 8
  fifoControl : BitVec 8
  lineControl : BitVec 8
  modemControl : BitVec 8
  transmitted : List (BitVec 8)

namespace Uart16550

def dlab (u : Uart16550) : Bool := u.lineControl.getLsbD 7

/-- One write of the driver; with DLAB set the first two addresses are the
    divisor latch. -/
def write (u : Uart16550) (offset : BitVec 32) (v : BitVec 8) : Uart16550 :=
  if offset = UART_THR_REG_OFFSET then
    if u.dlab then { u with dll := v } else { u with transmitted := u.transmitted ++ [v] }
  else if offset = UART_INTR_ENABLE_REG_OFFSET then
    if u.dlab then { u with dlm := v } else { u with interruptEnable := v }
  else if offset = UART_FIFO_CONTROL_REG_OFFSET then { u with fifoControl := v }
  else if offset = UART_LINE_CONTROL_REG_OFFSET then { u with lineControl := v }
  else if offset = UART_MODEM_CONTROL_REG_OFFSET then { u with modemControl := v }
  else u

def access {Callback : Type} (base : BitVec 32) (u : Uart16550) :
    UartEvent Callback → Uart16550
  | .write addr v => u.write (addr - base) v
  | _ => u

/-- The registers after the accesses of a trace. -/
def after {Callback : Type} (u : Uart16550) (base : BitVec 32)
    (trace : List (UartEvent Callback)) : Uart16550 :=
  trace.foldl (access base) u

variable (u : Uart16550) (v : BitVec 8)

theorem write_fifoControl :
    u.write UART_FIFO_CONTROL_REG_OFFSET v = { u with fifoControl := v } := rfl

theorem write_lineControl :
    u.write UART_LINE_CONTROL_REG_OFFSET v = { u with lineControl := v } := rfl

theorem write_modemControl :
    u.write UART_MODEM_CONTROL_REG_OFFSET v = { u with modemControl := v } := rfl

/-- The value that selects the latch. -/
theorem dlab_lineControl : ({ u with lineControl := 0x80 } : Uart16550).dlab = true := by
  show (0x80#8).getLsbD 7 = true
  rfl

/-- Both bytes of the latch, with DLAB set in front of them. -/
theorem write_latch (lo hi : BitVec 8) :
    ((u.write UART_LINE_CONTROL_REG_OFFSET 0x80).write UART_DLAB_LSB_REG_OFFSET lo).write
      UART_DLAB_MSB_REG_OFFSET hi = { u with lineControl := 0x80, dll := lo, dlm := hi } := by
  have hlsb : ∀ x : Uart16550, x.dlab = true →
      x.write UART_DLAB_LSB_REG_OFFSET lo = { x with dll := lo } := fun _ h => if_pos h
  have hmsb : ∀ x : Uart16550, x.dlab = true →
      x.write UART_DLAB_MSB_REG_OFFSET hi = { x with dlm := hi } := fun _ h => if_pos h
  rw [write_lineControl, hlsb _ (dlab_lineControl u), hmsb]
  exact dlab_lineControl u

/-- The 16 bits of the divisor latch. -/
def divisor (u : Uart16550) : BitVec 16 := u.dlm ++ u.dll

end Uart16550

/-! ## Section 2: The driver -/

/-- The division of the host; C leaves open what it gives for a divisor of
    zero. -/
def divide (divByZero n d : BitVec 32) : BitVec 32 := if d = 0 then divByZero else n / d

variable {Callback : Type} {w : Nat}

def uart_apb_open (divByZero : BitVec 32) (iface : Option (ChiInterface w)) :
    Uart Callback (BitVec 32) :=
  match iface with
  | none => pure (-1)
  | some iface =>
      if iface.base = 0 then pure (-1)
      else do
        let cfg := iface.cfg
        let base := iface.base.setWidth 32
        let divisor := divide divByZero cfg.clk_freq_hz (cfg.baud_rate <<< 4)
        let dlo := divisor.setWidth 8
        let dhi := (divisor >>> 8).setWidth 8
        reg8_write base UART_INTR_ENABLE_REG_OFFSET 0x00
        reg8_write base UART_LINE_CONTROL_REG_OFFSET 0x80
        reg8_write base UART_DLAB_LSB_REG_OFFSET dlo
        reg8_write base UART_DLAB_MSB_REG_OFFSET dhi
        -- whatever the configuration asks for
        reg8_write base UART_LINE_CONTROL_REG_OFFSET 0x03
        reg8_write base UART_FIFO_CONTROL_REG_OFFSET 0xC7
        reg8_write base UART_MODEM_CONTROL_REG_OFFSET 0x20
        pure 0

/-! ## Section 3: What the configuration asks for -/

def UART_PARITY_NONE : BitVec 8 := 0
def UART_PARITY_EVEN : BitVec 8 := 1
def UART_PARITY_ODD : BitVec 8 := 2

/-- The bits 0 and 1 of the line control. -/
def wordLength (data_bits : BitVec 8) : Option (BitVec 8) :=
  if 5 ≤ data_bits ∧ data_bits ≤ 8 then some (data_bits - 5) else none

/-- Bit 2. -/
def stopBits (stop_bits : BitVec 8) : Option (BitVec 8) :=
  if stop_bits = 1 then some 0x00
  else if stop_bits = 2 then some 0x04
  else none

/-- Bits 3 and 4. -/
def parityBits (parity : BitVec 8) : Option (BitVec 8) :=
  if parity = UART_PARITY_NONE then some 0x00
  else if parity = UART_PARITY_EVEN then some 0x18
  else if parity = UART_PARITY_ODD then some 0x08
  else none

/-- The line control that encodes the frame format, if there is one. -/
def lineControlOf (cfg : UartConfig) : Option (BitVec 8) :=
  (wordLength cfg.data_bits).bind fun d => (stopBits cfg.stop_bits).bind fun s =>
    (parityBits cfg.parity).map fun p => d ||| s ||| p

/-- The UART works as the configuration says. -/
structure Programmed (cfg : UartConfig) (u : Uart16550) : Prop where
  divisor : u.divisor.toNat = cfg.clk_freq_hz.toNat / (16 * cfg.baud_rate.toNat)
  nonzero : u.divisor ≠ 0
  dlab : u.dlab = false
  format : lineControlOf cfg = some u.lineControl

/-- The configurations the driver can program: 8N1, with a divisor of 16
    bits that is not zero. -/
structure Programmable (cfg : UartConfig) : Prop where
  slow : 16 * cfg.baud_rate.toNat ≤ cfg.clk_freq_hz.toNat
  fast : cfg.clk_freq_hz.toNat < 2 ^ 16 * (16 * cfg.baud_rate.toNat)
  data_bits : cfg.data_bits = 8
  parity : cfg.parity = UART_PARITY_NONE
  stop_bits : cfg.stop_bits = 1

/-! ## Section 4: What is programmed -/

theorem wordLength_cases {data_bits d : BitVec 8} (h : wordLength data_bits = some d) :
    d = 0 ∨ d = 1 ∨ d = 2 ∨ d = 3 ∧ data_bits = 8 := by
  unfold wordLength at h
  by_cases hrange : 5 ≤ data_bits ∧ data_bits ≤ 8
  · rw [if_pos hrange, Option.some.injEq] at h
    have hbits : data_bits = 5 ∨ data_bits = 6 ∨ data_bits = 7 ∨ data_bits = 8 := by
      bv_omega
    rcases hbits with rfl | rfl | rfl | rfl
    · exact .inl h.symm
    · exact .inr (.inl h.symm)
    · exact .inr (.inr (.inl h.symm))
    · exact .inr (.inr (.inr ⟨h.symm, rfl⟩))
  · rw [if_neg hrange] at h
    cases h

theorem stopBits_cases {stop_bits s : BitVec 8} (h : stopBits stop_bits = some s) :
    s = 0x00 ∧ stop_bits = 1 ∨ s = 0x04 := by
  unfold stopBits at h
  grind

theorem parityBits_cases {parity p : BitVec 8} (h : parityBits parity = some p) :
    p = 0x00 ∧ parity = UART_PARITY_NONE ∨ p = 0x18 ∨ p = 0x08 := by
  unfold parityBits at h
  grind

/-- The constant line control is that of one format. -/
theorem lineControlOf_eq_iff (cfg : UartConfig) : lineControlOf cfg = some 0x03 ↔
    cfg.data_bits = 8 ∧ cfg.parity = UART_PARITY_NONE ∧ cfg.stop_bits = 1 := by
  constructor
  · intro h
    obtain ⟨d, hd, h⟩ := Option.bind_eq_some_iff.mp h
    obtain ⟨s, hs, h⟩ := Option.bind_eq_some_iff.mp h
    obtain ⟨p, hp, hdsp⟩ := Option.map_eq_some_iff.mp h
    -- any other part would leave its bit, or miss one of the two low bits
    rcases stopBits_cases hs with ⟨rfl, hstop⟩ | rfl
    · rcases parityBits_cases hp with ⟨rfl, hparity⟩ | rfl | rfl
      · rcases wordLength_cases hd with rfl | rfl | rfl | ⟨rfl, hdata⟩
        · exact absurd hdsp (by decide)
        · exact absurd hdsp (by decide)
        · exact absurd hdsp (by decide)
        · exact ⟨hdata, hparity, hstop⟩
      · rcases wordLength_cases hd with rfl | rfl | rfl | ⟨rfl, -⟩ <;> exact absurd hdsp (by decide)
      · rcases wordLength_cases hd with rfl | rfl | rfl | ⟨rfl, -⟩ <;> exact absurd hdsp (by decide)
    · rcases parityBits_cases hp with ⟨rfl, -⟩ | rfl | rfl <;>
        rcases wordLength_cases hd with rfl | rfl | rfl | ⟨rfl, -⟩ <;>
        exact absurd hdsp (by decide)
  · rintro ⟨hd, hp, hs⟩
    unfold lineControlOf
    rw [hd, hp, hs]
    rfl

/-- The two bytes of the latch are the low half of the divisor. -/
theorem latch_toNat (divisor : BitVec 32) :
    ((divisor >>> 8).setWidth 8 ++ divisor.setWidth 8 : BitVec 16).toNat =
      divisor.toNat % 2 ^ 16 := by
  rw [BitVec.toNat_append, BitVec.toNat_setWidth, BitVec.toNat_setWidth,
    BitVec.toNat_ushiftRight, ← Nat.shiftLeft_add_eq_or_of_lt, Nat.shiftLeft_eq,
    Nat.shiftRight_eq_div_pow]
  · omega
  · omega

/-- The divisor the driver computes from the two frequencies. -/
def openDivisor (divByZero : BitVec 32) (cfg : UartConfig) : BitVec 32 :=
  divide divByZero cfg.clk_freq_hz (cfg.baud_rate <<< 4)

variable {divByZero : BitVec 32} {cfg : UartConfig}

/-- Where the baud rate is not too high for the clock, the shift loses
    nothing. -/
theorem openDivisor_toNat (hpos : 0 < cfg.baud_rate.toNat)
    (hslow : 16 * cfg.baud_rate.toNat ≤ cfg.clk_freq_hz.toNat) :
    (openDivisor divByZero cfg).toNat = cfg.clk_freq_hz.toNat / (16 * cfg.baud_rate.toNat) := by
  have hclk := cfg.clk_freq_hz.isLt
  have hshift : (cfg.baud_rate <<< 4).toNat = 16 * cfg.baud_rate.toNat := by
    rw [BitVec.toNat_shiftLeft, Nat.shiftLeft_eq]
    omega
  have hne : cfg.baud_rate <<< 4 ≠ 0 := by
    intro hzero
    rw [hzero] at hshift
    have : (0 : BitVec 32).toNat = 0 := rfl
    omega
  rw [openDivisor, divide, if_neg hne, BitVec.toNat_udiv, hshift]

variable (divByZero cfg) in
/-- The latch holds the exact quotient, and not zero, if and only if the
    quotient is in range. -/
theorem latch_exact_iff : (openDivisor divByZero cfg).toNat % 2 ^ 16 =
      cfg.clk_freq_hz.toNat / (16 * cfg.baud_rate.toNat) ∧
      cfg.clk_freq_hz.toNat / (16 * cfg.baud_rate.toNat) ≠ 0 ↔
    16 * cfg.baud_rate.toNat ≤ cfg.clk_freq_hz.toNat ∧
      cfg.clk_freq_hz.toNat < 2 ^ 16 * (16 * cfg.baud_rate.toNat) := by
  constructor
  · rintro ⟨hlatch, hne⟩
    have hquot := Nat.div_pos_iff.mp (Nat.pos_of_ne_zero hne)
    refine ⟨hquot.2, ?_⟩
    have hlt : cfg.clk_freq_hz.toNat / (16 * cfg.baud_rate.toNat) < 2 ^ 16 := by
      rw [← hlatch]
      exact Nat.mod_lt _ (Nat.two_pow_pos 16)
    exact (Nat.div_lt_iff_lt_mul hquot.1).mp hlt
  · rintro ⟨hslow, hfast⟩
    have hpos : 0 < 16 * cfg.baud_rate.toNat := by
      by_contra hzero
      rw [Nat.eq_zero_of_not_pos hzero] at hfast
      exact Nat.not_lt_zero _ hfast
    rw [openDivisor_toNat (by omega) hslow]
    constructor
    · exact Nat.mod_eq_of_lt ((Nat.div_lt_iff_lt_mul hpos).mpr hfast)
    · exact Nat.pos_iff_ne_zero.mp (Nat.div_pos hslow hpos)

theorem access_write (base offset : BitVec 32) (v : BitVec 8) (u : Uart16550) :
    u.access base (.write (base + offset) v : UartEvent Callback) = u.write offset v := by
  show u.write (base + offset - base) v = u.write offset v
  rw [BitVec.add_comm, BitVec.add_sub_cancel]

/-- The accesses of the driver, when it returns 0. -/
theorem uart_apb_open_trace {iface : Option (ChiInterface w)} {answers : List (BitVec 8)}
    {o : Outcome (BitVec 32) (BitVec 8) Callback (BitVec 32)}
    (h : (uart_apb_open divByZero iface).run answers = some o) (hret : o.value = 0) :
    ∃ i, iface = some i ∧ i.base ≠ 0 ∧ o.trace =
      [ .write (i.base.setWidth 32 + UART_INTR_ENABLE_REG_OFFSET) 0x00,
        .write (i.base.setWidth 32 + UART_LINE_CONTROL_REG_OFFSET) 0x80,
        .write (i.base.setWidth 32 + UART_DLAB_LSB_REG_OFFSET)
          ((openDivisor divByZero i.cfg).setWidth 8),
        .write (i.base.setWidth 32 + UART_DLAB_MSB_REG_OFFSET)
          ((openDivisor divByZero i.cfg >>> 8).setWidth 8),
        .write (i.base.setWidth 32 + UART_LINE_CONTROL_REG_OFFSET) 0x03,
        .write (i.base.setWidth 32 + UART_FIFO_CONTROL_REG_OFFSET) 0xC7,
        .write (i.base.setWidth 32 + UART_MODEM_CONTROL_REG_OFFSET) 0x20 ] := by
  -- the refusals return -1
  cases iface with
  | none =>
    cases h
    have hfail : (-1 : BitVec 32) = 0 := hret
    exact absurd hfail (by decide)
  | some i =>
    by_cases hbase : i.base = 0
    · rw [uart_apb_open, if_pos hbase] at h
      cases h
      have hfail : (-1 : BitVec 32) = 0 := hret
      exact absurd hfail (by decide)
    · rw [uart_apb_open, if_neg hbase] at h
      cases h
      exact ⟨i, rfl, hbase, rfl⟩

/-- The latch takes the divisor, and DLAB is gone afterwards. -/
theorem uart_apb_open_after {iface : Option (ChiInterface w)} {answers : List (BitVec 8)}
    {o : Outcome (BitVec 32) (BitVec 8) Callback (BitVec 32)}
    (h : (uart_apb_open divByZero iface).run answers = some o) (hret : o.value = 0)
    (u : Uart16550) : ∃ i, iface = some i ∧ i.base ≠ 0 ∧
      (u.after (i.base.setWidth 32) o.trace).divisor =
        ((openDivisor divByZero i.cfg >>> 8).setWidth 8 ++
          (openDivisor divByZero i.cfg).setWidth 8 : BitVec 16) ∧
      (u.after (i.base.setWidth 32) o.trace).lineControl = 0x03 := by
  obtain ⟨i, rfl, hbase, htrace⟩ := uart_apb_open_trace h hret
  refine ⟨i, rfl, hbase, ?_⟩
  rw [htrace]
  unfold Uart16550.after
  simp only [List.foldl_cons, List.foldl_nil, access_write]
  -- the first write may go to either register; the latch is written later
  generalize u.write UART_INTR_ENABLE_REG_OFFSET 0x00 = u'
  rw [Uart16550.write_latch, Uart16550.write_lineControl, Uart16550.write_fifoControl,
    Uart16550.write_modemControl]
  exact ⟨rfl, rfl⟩

/-- **The configuration is programmed** if and only if it is one that the
    driver can program. -/
theorem uart_open_programs_iff (divByZero : BitVec 32) (iface : Option (ChiInterface w))
    (answers : List (BitVec 8)) (o : Outcome (BitVec 32) (BitVec 8) Callback (BitVec 32))
    (h : (uart_apb_open divByZero iface).run answers = some o) (hret : o.value = 0)
    (u : Uart16550) : ∃ i, iface = some i ∧
      (Programmed i.cfg (u.after (i.base.setWidth 32) o.trace) ↔ Programmable i.cfg) := by
  obtain ⟨i, rfl, -, hdivisor, hline⟩ := uart_apb_open_after h hret u
  refine ⟨i, rfl, ?_⟩
  have hlatch := latch_exact_iff divByZero i.cfg
  have hformat := lineControlOf_eq_iff i.cfg
  -- both are about the registers that the driver leaves
  rw [← latch_toNat, ← hdivisor] at hlatch
  rw [← hline] at hformat
  constructor
  · intro hprog
    have hzero : i.cfg.clk_freq_hz.toNat / (16 * i.cfg.baud_rate.toNat) ≠ 0 := by
      rw [← hprog.divisor]
      intro hz
      exact hprog.nonzero (BitVec.eq_of_toNat_eq hz)
    obtain ⟨hslow, hfast⟩ := hlatch.mp ⟨hprog.divisor, hzero⟩
    obtain ⟨hdata, hparity, hstop⟩ := hformat.mp hprog.format
    exact ⟨hslow, hfast, hdata, hparity, hstop⟩
  · intro hable
    obtain ⟨hexact, hzero⟩ := hlatch.mpr ⟨hable.slow, hable.fast⟩
    refine ⟨hexact, ?_, ?_, hformat.mpr ⟨hable.data_bits, hable.parity, hable.stop_bits⟩⟩
    · intro hz
      rw [hz] at hexact
      exact hzero hexact.symm
    · rw [Uart16550.dlab, hline]
      rfl

/-- The registers out of reset. -/
def resetUart : Uart16550 where
  dll := 0
  dlm := 0
  interruptEnable := 0
  fifoControl := 0
  lineControl := 0
  modemControl := 0
  transmitted := []

/-- What opening an interface leaves in the registers. -/
def opened (iface : ChiInterface w) : Uart16550 :=
  match (uart_apb_open 0xffffffff (some iface) : Uart Unit (BitVec 32)).run [] with
  | none => resetUart
  | some o => resetUart.after (iface.base.setWidth 32) o.trace

theorem uart_iface_programmed : Programmed uart_iface.cfg (opened uart_iface) := by
  obtain ⟨i, hi, hiff⟩ := uart_open_programs_iff 0xffffffff (some uart_iface) []
    (_ : Outcome (BitVec 32) (BitVec 8) Unit (BitVec 32)) rfl rfl resetUart
  cases hi
  exact hiff.mpr ⟨by decide, by decide, rfl, rfl, rfl⟩

def withCfg (cfg : UartConfig) : ChiInterface 32 := { uart_iface with cfg := cfg }

/-- Seven bits with even parity. -/
def sevenEven : UartConfig := { uart_iface.cfg with data_bits := 7, parity := UART_PARITY_EVEN }

def baud50 : UartConfig := { uart_iface.cfg with baud_rate := 50 }

/-- Opening returns 0 for both; the first is programmed as 8N1, the second
    with a divisor of 59464 for 125000. -/
theorem uart_open_not_programmed :
    (lineControlOf sevenEven = some 0x1a ∧ (opened (withCfg sevenEven)).lineControl = 0x03) ∧
    (baud50.clk_freq_hz.toNat / (16 * baud50.baud_rate.toNat) = 125000 ∧
      (opened (withCfg baud50)).divisor = 59464) ∧
    ¬ Programmed sevenEven (opened (withCfg sevenEven)) ∧
    ¬ Programmed baud50 (opened (withCfg baud50)) := by
  refine ⟨⟨by decide, by decide⟩, ⟨by decide, by decide⟩, ?_, ?_⟩
  · intro h
    exact absurd h.format (by decide)
  · intro h
    exact absurd h.divisor (by decide)

end UartApb
