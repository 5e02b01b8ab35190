import ChimeraSdk.Framework.Bus
import Mathlib.Algebra.Ring.Nat
import Mathlib.Logic.Function.Basic

/-! # The APB UART Driver

    `uart_apb_write` and `uart_apb_read` move a buffer byte by byte and
    poll the line status in front of every byte.  What they do is told by
    the accesses on the bus, whatever values the status takes between any
    two of them. -/

open Bus

namespace UartApb

/-! ## Section 1: Registers -/

def UART_RBR_REG_OFFSET : BitVec 32 := 0
def UART_THR_REG_OFFSET : BitVec 32 := 0
def UART_INTR_ENABLE_REG_OFFSET : BitVec 32 := 4
def UART_FIFO_CONTROL_REG_OFFSET : BitVec 32 := 8
def UART_LINE_CONTROL_REG_OFFSET : BitVec 32 := 12
def UART_MODEM_CONTROL_REG_OFFSET : BitVec 32 := 16
def UART_LINE_STATUS_REG_OFFSET : BitVec 32 := 20
def UART_DLAB_LSB_REG_OFFSET : BitVec 32 := 0
def UART_DLAB_MSB_REG_OFFSET : BitVec 32 := 4

def UART_LINE_STATUS_DATA_READY_BIT : Nat := 0
def UART_LINE_STATUS_THR_EMPTY_BIT : Nat := 5

structure UartConfig where
  baud_rate : BitVec 32
  clk_freq_hz : BitVec 32
  data_bits : BitVec 8
  parity : BitVec 8
  stop_bits : BitVec 8
  deriving DecidableEq, Repr

/-- `chi_interface_t` with the configuration it points to; `w` is the
    width of a pointer. -/
structure ChiInterface (w : Nat) where
  base : BitVec w
  cfg : UartConfig

/-- A function of the driver.  Callbacks are calls to code outside. -/
abbrev Uart (Callback α : Type) : Type := Driver (BitVec 32) (BitVec 8) Callback α

abbrev UartEvent (Callback : Type) : Type := Event (BitVec 32) (BitVec 8) Callback

variable {Callback : Type} {w : Nat}

def reg8_read (base offset : BitVec 32) : Uart Callback (BitVec 8) :=
  Driver.read (base + offset)

def reg8_write (base offset : BitVec 32) (val : BitVec 8) : Uart Callback Unit :=
  Driver.write (base + offset) val

/-- What `rx_ready` finds in the status it reads. -/
def rx_ready (status : BitVec 8) : Bool :=
  status &&& (1#8 <<< UART_LINE_STATUS_DATA_READY_BIT) != 0

/-- What `tx_ready` finds in the status it reads. -/
def tx_ready (status : BitVec 8) : Bool :=
  status &&& (1#8 <<< UART_LINE_STATUS_THR_EMPTY_BIT) != 0

/-- `while (!ready(base));` -/
def spinUntil (base : BitVec 32) (ready : BitVec 8 → Bool) : Uart Callback Unit :=
  Driver.pollUntil (base + UART_LINE_STATUS_REG_OFFSET) ready

/-- `if (cb) (void)cb(iface);` -/
def callback : Option Callback → Uart Callback Unit
  | none => pure ()
  | some cb => Driver.call cb

/-! ## Section 2: Streams

    A buffer is given by its bytes, a null pointer by `none`. -/

/-- One round of the loop of `uart_apb_read`. -/
def readByte (base : BitVec 32) : Uart Callback (BitVec 8) := do
  spinUntil base rx_ready
  reg8_read base UART_RBR_REG_OFFSET

/-- The loop of `uart_apb_read` from round `i`, with so many rounds to go. -/
def readBytes (base : BitVec 32) (dst : Nat → BitVec 8) (i : Nat) :
    Nat → Uart Callback (Nat → BitVec 8)
  | 0 => pure dst
  | n + 1 => do
      let v ← readByte base
      readBytes base (Function.update dst i v) (i + 1) n

/-- `uart_apb_read`: its result, and the buffer it leaves. -/
def uart_apb_read (iface : Option (ChiInterface w)) (buffer : Option (Nat → BitVec 8))
    (size : BitVec 32) (cb : Option Callback) :
    Uart Callback (BitVec w × Option (Nat → BitVec 8)) :=
  match iface, buffer with
  | some iface, some dst =>
      if iface.base = 0 ∨ size = 0 then pure (-1, some dst)
      else do
        let base := iface.base.setWidth 32
        let dst ← readBytes base dst 0 size.toNat
        callback cb
        pure (size.setWidth w, some dst)
  | _, buffer => pure (-1, buffer)

/-- One round of the loop of `uart_apb_write`. -/
def writeByte (base : BitVec 32) (v : BitVec 8) : Uart Callback Unit := do
  spinUntil base tx_ready
  reg8_write base UART_THR_REG_OFFSET v

/-- The loop of `uart_apb_write` from round `i`, with so many rounds to go. -/
def writeBytes (base : BitVec 32) (src : Nat → BitVec 8) (i : Nat) : Nat → Uart Callback Unit
  | 0 => pure ()
  | n + 1 => do
      writeByte base (src i)
      writeBytes base src (i + 1) n

def uart_apb_write (iface : Option (ChiInterface w)) (buffer : Option (Nat → BitVec 8))
    (size : BitVec 32) (cb : Option Callback) : Uart Callback (BitVec w) :=
  match iface, buffer with
  | some iface, some src =>
      if iface.base = 0 ∨ size = 0 then pure (-1)
      else do
        let base := iface.base.setWidth 32
        writeBytes base src 0 size.toNat
        -- the last byte has left the holding register
        spinUntil base tx_ready
        callback cb
        pure (size.setWidth w)
  | _, _ => pure (-1)

/-! ## Section 3: What a stream is to do -/

/-- A read of the status that finds the bit set. -/
def ReadyRead (base : BitVec 32) (ready : BitVec 8 → Bool) (e : UartEvent Callback) : Prop :=
  ∃ v, e = .read (base + UART_LINE_STATUS_REG_OFFSET) v ∧ ready v = true

def RbrRead (base : BitVec 32) (e : UartEvent Callback) : Prop :=
  ∃ v, e = .read (base + UART_RBR_REG_OFFSET) v

def ThrWrite (base : BitVec 32) (e : UartEvent Callback) : Prop :=
  ∃ v, e = .write (base + UART_THR_REG_OFFSET) v

/-- The callback is the last event, and the only one of its kind. -/
def CallsLast (cb : Option Callback) (trace : List (UartEvent Callback)) : Prop :=
  ∃ accesses, calls accesses = [] ∧ trace = accesses ++ cb.toList.map .call

/-- The buffer is sent, byte by byte, and each byte when there is room. -/
structure Sent (base : BitVec 32) (src : Nat → BitVec 8) (size : Nat) (cb : Option Callback)
    (trace : List (UartEvent Callback)) : Prop where
  bytes : writesTo (base + UART_THR_REG_OFFSET) trace = (List.range size).map src
  only : ∀ a v, .write a v ∈ trace → a = base + UART_THR_REG_OFFSET
  paced : Guarded (ReadyRead base tx_ready) (ThrWrite base) trace
  called : CallsLast cb trace

/-- The buffer is filled from position `i` on, byte by byte, and each byte
    when it is there. -/
structure Received (base : BitVec 32) (dst dst' : Nat → BitVec 8) (i size : Nat)
    (cb : Option Callback) (trace : List (UartEvent Callback)) : Prop where
  bytes : readsOf (base + UART_RBR_REG_OFFSET) trace =
    (List.range size).map (fun k => dst' (i + k))
  others : ∀ j, j < i ∨ i + size ≤ j → dst' j = dst j
  only : ∀ a v, .write a v ∉ trace
  paced : Guarded (ReadyRead base rx_ready) (RbrRead base) trace
  called : CallsLast cb trace

/-! ## Section 4: The loops -/

theorem lsr_ne_rbr (base : BitVec 32) :
    base + UART_LINE_STATUS_REG_OFFSET ≠ base + UART_RBR_REG_OFFSET := by
  intro heq
  have hoffsets : UART_LINE_STATUS_REG_OFFSET = UART_RBR_REG_OFFSET :=
    (BitVec.add_right_inj base).mp heq
  exact absurd hoffsets (by decide)

/-- The trace of a poll: reads of the status, the last of which finds the
    bit set. -/
def Polled (base : BitVec 32) (ready : BitVec 8 → Bool) (t : List (UartEvent Callback)) : Prop :=
  ∃ (bad : List (BitVec 8)) (v : BitVec 8), ready v = true ∧
    t = bad.map (.read (base + UART_LINE_STATUS_REG_OFFSET)) ++
      [.read (base + UART_LINE_STATUS_REG_OFFSET) v]

theorem spinUntil_polled (base : BitVec 32) (ready : BitVec 8 → Bool) :
    (spinUntil base ready : Uart Callback Unit).Ensures (fun _ t => Polled base ready t) := by
  apply (Driver.ensures_pollUntil _ _).imp
  rintro _ t ⟨bad, v, -, hv, rfl⟩
  exact ⟨bad, v, hv, rfl⟩

namespace Polled

variable {base : BitVec 32} {ready : BitVec 8 → Bool} {t : List (UartEvent Callback)}

/-- A poll reads the status and does nothing else. -/
theorem status (h : Polled base ready t) :
    ∃ vs : List (BitVec 8), t = vs.map (.read (base + UART_LINE_STATUS_REG_OFFSET)) := by
  obtain ⟨bad, v, -, rfl⟩ := h
  exact ⟨bad ++ [v], by rw [List.map_append]; rfl⟩

theorem calls (h : Polled base ready t) : Bus.calls t = [] := by
  obtain ⟨vs, rfl⟩ := h.status
  exact calls_reads _ vs

theorem writesTo (h : Polled base ready t) (addr : BitVec 32) : Bus.writesTo addr t = [] := by
  obtain ⟨vs, rfl⟩ := h.status
  exact writesTo_reads addr _ vs

theorem readsOf_rbr (h : Polled base ready t) :
    readsOf (base + UART_RBR_REG_OFFSET) t = [] := by
  obtain ⟨vs, rfl⟩ := h.status
  exact readsOf_reads_ne _ (lsr_ne_rbr base) vs

theorem write_not_mem (h : Polled base ready t) (addr : BitVec 32) (v : BitVec 8) :
    .write addr v ∉ t := by
  obtain ⟨vs, rfl⟩ := h.status
  simp

theorem not_thrWrite (h : Polled base ready t) : ∀ e ∈ t, ¬ ThrWrite base e := by
  rintro e he ⟨v, rfl⟩
  exact h.write_not_mem _ v he

theorem not_rbrRead (h : Polled base ready t) : ∀ e ∈ t, ¬ RbrRead base e := by
  rintro e he ⟨v, rfl⟩
  obtain ⟨vs, rfl⟩ := h.status
  obtain ⟨u, -, heq⟩ := List.mem_map.mp he
  exact lsr_ne_rbr base (Event.read.inj heq).1

/-- One event of a kind the poll has none of is guarded by the poll. -/
theorem guarded {act : UartEvent Callback → Prop} (h : Polled base ready t)
    (hact : ∀ e ∈ t, ¬ act e) (e : UartEvent Callback) :
    Guarded (ReadyRead base ready) act (t ++ [e]) := by
  obtain ⟨bad, v, hv, rfl⟩ := h
  apply Guarded.guard_act
  · exact fun x hx => hact x (List.mem_append_left _ hx)
  · exact ⟨v, rfl, hv⟩
  · exact hact _ (by simp)

end Polled

/-! ### Writing -/

section Write

variable {base : BitVec 32} {src : Nat → BitVec 8} {n : Nat} {t : List (UartEvent Callback)}

theorem writeByte_ensures (base : BitVec 32) (v : BitVec 8) :
    (writeByte base v : Uart Callback Unit).Ensures (fun _ t =>
      ∃ p, Polled base tx_ready p ∧ t = p ++ [.write (base + UART_THR_REG_OFFSET) v]) := by
  apply Driver.Ensures.bind (spinUntil_polled base tx_ready)
    (fun _ => Driver.ensures_emit () [.write (base + UART_THR_REG_OFFSET) v])
  rintro _ p _ t' hp ⟨-, rfl⟩
  exact ⟨p, hp, rfl⟩

theorem Sent.nil : Sent base src 0 none ([] : List (UartEvent Callback)) where
  bytes := rfl
  only := by simp
  paced := Guarded.of_not_act (by simp)
  called := ⟨[], rfl, rfl⟩

variable (src) in
/-- One byte in front of the others. -/
theorem Sent.cons {p : List (UartEvent Callback)} (hp : Polled base tx_ready p)
    (h : Sent base (fun k => src (k + 1)) n none t) :
    Sent base src (n + 1) none (p ++ [.write (base + UART_THR_REG_OFFSET) (src 0)] ++ t) := by
  constructor
  · rw [writesTo_append, writesTo_append, hp.writesTo, h.bytes, List.range_succ_eq_map,
      List.map_cons, List.map_map]
    simp [writesTo, Function.comp_def]
  · intro a v hmem
    rcases List.mem_append.mp hmem with hmem | hmem
    · rcases List.mem_append.mp hmem with hmem | hmem
      · exact absurd hmem (hp.write_not_mem a v)
      · exact (Event.write.inj (List.mem_singleton.mp hmem)).1
    · exact h.only a v hmem
  · exact (hp.guarded hp.not_thrWrite _).append h.paced
  · obtain ⟨accesses, hcalls, rfl⟩ := h.called
    refine ⟨p ++ [.write (base + UART_THR_REG_OFFSET) (src 0)] ++ accesses, ?_, by simp⟩
    rw [calls_append, calls_append, hp.calls, hcalls]
    rfl

/-- The poll and the callback behind the last byte. -/
theorem Sent.finish {p : List (UartEvent Callback)} (hp : Polled base tx_ready p)
    (h : Sent base src n none t) (cb : Option Callback) :
    Sent base src n cb (t ++ (p ++ cb.toList.map .call)) := by
  have hnone : ∀ e ∈ cb.toList.map (.call : Callback → UartEvent Callback),
      ∀ a v, e ≠ .write a v := by
    intro e he a v heq
    obtain ⟨c, -, rfl⟩ := List.mem_map.mp he
    cases heq
  -- neither the poll nor the callback writes
  constructor
  · rw [writesTo_append, writesTo_append, hp.writesTo, h.bytes]
    cases cb with
    | none => simp [writesTo]
    | some c => simp [writesTo]
  · intro a v hmem
    rcases List.mem_append.mp hmem with hmem | hmem
    · exact h.only a v hmem
    · rcases List.mem_append.mp hmem with hmem | hmem
      · exact absurd hmem (hp.write_not_mem a v)
      · exact absurd rfl (hnone _ hmem a v)
  · apply h.paced.append
    apply Guarded.of_not_act
    rintro e hmem ⟨v, rfl⟩
    rcases List.mem_append.mp hmem with hmem | hmem
    · exact hp.write_not_mem _ v hmem
    · exact hnone _ hmem _ v rfl
  · obtain ⟨accesses, hcalls, rfl⟩ := h.called
    refine ⟨accesses ++ p, ?_, by simp⟩
    rw [calls_append, hcalls, hp.calls]
    rfl

/-- The loop, by induction on the rounds to go. -/
theorem writeBytes_ensures (base : BitVec 32) (src : Nat → BitVec 8) (i n : Nat) :
    (writeBytes base src i n : Uart Callback Unit).Ensures
      (fun _ t => Sent base (fun k => src (i + k)) n none t) := by
  induction n generalizing i with
  | zero =>
    apply (Driver.ensures_emit () []).imp
    rintro _ t ⟨-, rfl⟩
    exact Sent.nil
  | succ n ih =>
    apply Driver.Ensures.bind (writeByte_ensures base (src i)) (fun _ => ih (i + 1))
    rintro _ t _ t' ⟨p, hp, rfl⟩ hsent
    apply Sent.cons (fun k => src (i + k)) hp
    have hshift : (fun k => src (i + (k + 1))) = fun k => src (i + 1 + k) := by
      funext k
      rw [Nat.add_assoc, Nat.add_comm 1 k]
    rw [hshift]
    exact hsent

end Write

/-! ### Reading -/

section Read

variable {base : BitVec 32} {dst dst' : Nat → BitVec 8} {i n : Nat}
  {t : List (UartEvent Callback)}

theorem readByte_ensures (base : BitVec 32) :
    (readByte base : Uart Callback (BitVec 8)).Ensures (fun v t =>
      ∃ p, Polled base rx_ready p ∧ t = p ++ [.read (base + UART_RBR_REG_OFFSET) v]) := by
  apply Driver.Ensures.bind (spinUntil_polled base rx_ready)
    (fun _ => Driver.ensures_read (base + UART_RBR_REG_OFFSET))
  rintro _ p v t' hp rfl
  exact ⟨p, hp, rfl⟩

theorem Received.nil : Received base dst dst i 0 none ([] : List (UartEvent Callback)) where
  bytes := rfl
  others := fun _ _ => rfl
  only := by simp
  paced := Guarded.of_not_act (by simp)
  called := ⟨[], rfl, rfl⟩

/-- One byte in front of the others: the later rounds leave it where it
    is. -/
theorem Received.cons {p : List (UartEvent Callback)} {v : BitVec 8}
    (hp : Polled base rx_ready p)
    (h : Received base (Function.update dst i v) dst' (i + 1) n none t) :
    Received base dst dst' i (n + 1) none
      (p ++ [.read (base + UART_RBR_REG_OFFSET) v] ++ t) := by
  constructor
  · -- the later rounds do not touch the byte of this one
    have hkept : dst' i = v := by
      rw [h.others i (.inl (Nat.lt_succ_self i)), Function.update_self]
    have hshift : (fun k => dst' (i + 1 + k)) = fun k => dst' (i + (k + 1)) := by
      funext k
      rw [Nat.add_assoc, Nat.add_comm 1 k]
    rw [readsOf_append, readsOf_append, hp.readsOf_rbr, h.bytes, List.range_succ_eq_map,
      List.map_cons, List.map_map, hshift]
    simp [readsOf, hkept, Function.comp_def]
  · intro j hj
    rw [h.others j (by omega), Function.update_of_ne (by omega)]
  · intro a b hmem
    rcases List.mem_append.mp hmem with hmem | hmem
    · rcases List.mem_append.mp hmem with hmem | hmem
      · exact hp.write_not_mem a b hmem
      · cases List.mem_singleton.mp hmem
    · exact h.only a b hmem
  · exact (hp.guarded hp.not_rbrRead _).append h.paced
  · obtain ⟨accesses, hcalls, rfl⟩ := h.called
    refine ⟨p ++ [.read (base + UART_RBR_REG_OFFSET) v] ++ accesses, ?_, by simp⟩
    rw [calls_append, calls_append, hp.calls, hcalls]
    rfl

theorem Received.finish (h : Received base dst dst' i n none t) (cb : Option Callback) :
    Received base dst dst' i n cb (t ++ cb.toList.map .call) := by
  have hcall : ∀ e ∈ cb.toList.map (.call : Callback → UartEvent Callback),
      ∃ c, e = .call c := by
    intro e he
    obtain ⟨c, -, rfl⟩ := List.mem_map.mp he
    exact ⟨c, rfl⟩
  constructor
  · rw [readsOf_append, h.bytes]
    cases cb with
    | none => simp [readsOf]
    | some c => simp [readsOf]
  · exact h.others
  · intro a b hmem
    rcases List.mem_append.mp hmem with hmem | hmem
    · exact h.only a b hmem
    · obtain ⟨c, hc⟩ := hcall _ hmem
      cases hc
  · apply h.paced.append
    apply Guarded.of_not_act
    rintro e hmem ⟨v, rfl⟩
    obtain ⟨c, hc⟩ := hcall _ hmem
    cases hc
  · obtain ⟨accesses, hcalls, rfl⟩ := h.called
    exact ⟨accesses, hcalls, by simp⟩

theorem readBytes_ensures (base : BitVec 32) (dst : Nat → BitVec 8) (i n : Nat) :
    (readBytes base dst i n : Uart Callback (Nat → BitVec 8)).Ensures
      (fun dst' t => Received base dst dst' i n none t) := by
  induction n generalizing i dst with
  | zero =>
    apply (Driver.ensures_emit dst []).imp
    rintro _ t ⟨rfl, rfl⟩
    exact Received.nil
  | succ n ih =>
    apply Driver.Ensures.bind (readByte_ensures base)
      (fun v => ih (Function.update dst i v) (i + 1))
    rintro v _ dst' t' ⟨p, hp, rfl⟩ hreceived
    exact Received.cons hp hreceived

end Read

/-! ### The loops end -/

theorem writeBytes_ends (base : BitVec 32) (src : Nat → BitVec 8) (i n : Nat) :
    Driver.Ends tx_ready (writeBytes base src i n : Uart Callback Unit) := by
  induction n generalizing i with
  | zero => exact Driver.ends_emit _ _ _
  | succ n ih =>
    apply Driver.Ends.bind _ (fun _ => ih (i + 1))
    exact (Driver.ends_pollUntil _ _).bind (fun _ => Driver.ends_emit _ _ _)

theorem readBytes_ends (base : BitVec 32) (dst : Nat → BitVec 8) (i n : Nat) :
    Driver.Ends rx_ready (readBytes base dst i n : Uart Callback (Nat → BitVec 8)) := by
  induction n generalizing i dst with
  | zero => exact Driver.ends_emit _ _ _
  | succ n ih =>
    apply Driver.Ends.bind _ (fun v => ih (Function.update dst i v) (i + 1))
    exact (Driver.ends_pollUntil _ _).bind (fun _ => Driver.ends_read _ _)

/-! ## Section 5: The two functions -/

theorem callback_ensures (cb : Option Callback) :
    (callback cb).Ensures (fun _ t => t = cb.toList.map .call) := by
  cases cb with
  | none => exact (Driver.ensures_emit () []).imp fun _ _ h => h.2
  | some c => exact (Driver.ensures_emit () [.call c]).imp fun _ _ h => h.2

/-- The callback and the return behind it. -/
theorem callback_return_ensures {α : Type} (cb : Option Callback) (r : α) :
    (callback cb >>= fun _ => pure r).Ensures (fun b t => b = r ∧ t = cb.toList.map .call) := by
  apply (callback_ensures cb).bind (fun _ => Driver.ensures_emit r [])
  rintro _ t b t' rfl ⟨rfl, rfl⟩
  exact ⟨rfl, List.append_nil _⟩

theorem callback_ends (ok : BitVec 8 → Bool) (cb : Option Callback) :
    Driver.Ends ok (callback cb) := by
  cases cb with
  | none => exact Driver.ends_emit _ _ _
  | some c => exact Driver.ends_emit _ _ _

variable {iface : ChiInterface w} {size : BitVec 32}

theorem uart_apb_write_eq (hbase : iface.base ≠ 0) (hsize : size ≠ 0) (src : Nat → BitVec 8)
    (cb : Option Callback) :
    uart_apb_write (some iface) (some src) size cb = (do
      writeBytes (iface.base.setWidth 32) src 0 size.toNat
      spinUntil (iface.base.setWidth 32) tx_ready
      callback cb
      pure (size.setWidth w)) :=
  if_neg (not_or.mpr ⟨hbase, hsize⟩)

theorem uart_apb_read_eq (hbase : iface.base ≠ 0) (hsize : size ≠ 0) (dst : Nat → BitVec 8)
    (cb : Option Callback) :
    uart_apb_read (some iface) (some dst) size cb = (do
      let dst ← readBytes (iface.base.setWidth 32) dst 0 size.toNat
      callback cb
      pure (size.setWidth w, some dst)) :=
  if_neg (not_or.mpr ⟨hbase, hsize⟩)

theorem uart_apb_write_ensures (hbase : iface.base ≠ 0) (hsize : size ≠ 0)
    (src : Nat → BitVec 8) (cb : Option Callback) :
    (uart_apb_write (some iface) (some src) size cb).Ensures (fun r t =>
      r = size.setWidth w ∧ Sent (iface.base.setWidth 32) src size.toNat cb t) := by
  rw [uart_apb_write_eq hbase hsize]
  have hfinish : (spinUntil (iface.base.setWidth 32) tx_ready >>= fun _ =>
      callback cb >>= fun _ => pure (size.setWidth w)).Ensures (fun r t =>
        ∃ p, Polled (iface.base.setWidth 32) tx_ready p ∧ r = size.setWidth w ∧
          t = p ++ cb.toList.map .call) := by
    apply (spinUntil_polled _ _).bind (fun _ => callback_return_ensures cb _)
    rintro _ p r t hp ⟨hr, rfl⟩
    exact ⟨p, hp, hr, rfl⟩
  apply (writeBytes_ensures _ src 0 size.toNat).bind (fun _ => hfinish)
  rintro _ t r _ hsent ⟨p, hp, hr, rfl⟩
  simp only [Nat.zero_add] at hsent
  exact ⟨hr, hsent.finish hp cb⟩

theorem uart_apb_read_ensures (hbase : iface.base ≠ 0) (hsize : size ≠ 0)
    (dst : Nat → BitVec 8) (cb : Option Callback) :
    (uart_apb_read (some iface) (some dst) size cb).Ensures (fun r t =>
      r.1 = size.setWidth w ∧ ∃ dst', r.2 = some dst' ∧
        Received (iface.base.setWidth 32) dst dst' 0 size.toNat cb t) := by
  rw [uart_apb_read_eq hbase hsize]
  apply (readBytes_ensures _ dst 0 size.toNat).bind (fun dst' =>
    callback_return_ensures cb (size.setWidth w, some dst'))
  rintro dst' t r _ hreceived ⟨rfl, rfl⟩
  exact ⟨rfl, dst', rfl, hreceived.finish cb⟩

theorem uart_apb_write_ends (hbase : iface.base ≠ 0) (hsize : size ≠ 0)
    (src : Nat → BitVec 8) (cb : Option Callback) :
    Driver.Ends tx_ready (uart_apb_write (some iface) (some src) size cb) := by
  rw [uart_apb_write_eq hbase hsize]
  apply (writeBytes_ends _ src 0 size.toNat).bind
  intro _
  apply (Driver.ends_pollUntil _ _).bind
  intro _
  exact (callback_ends _ cb).bind (fun _ => Driver.ends_emit _ _ _)

theorem uart_apb_read_ends (hbase : iface.base ≠ 0) (hsize : size ≠ 0)
    (dst : Nat → BitVec 8) (cb : Option Callback) :
    Driver.Ends rx_ready (uart_apb_read (some iface) (some dst) size cb) := by
  rw [uart_apb_read_eq hbase hsize]
  apply (readBytes_ends _ dst 0 size.toNat).bind
  intro dst'
  exact (callback_ends _ cb).bind (fun _ => Driver.ends_emit _ _ _)

/-- A call that is refused. -/
def Refused (iface : Option (ChiInterface w)) (buffer : Option (Nat → BitVec 8))
    (size : BitVec 32) : Prop :=
  iface = none ∨ (∃ i, iface = some i ∧ i.base = 0) ∨ buffer = none ∨ size = 0

theorem Refused.base_or_size {bytes : Nat → BitVec 8}
    (h : Refused (some iface) (some bytes) size) : iface.base = 0 ∨ size = 0 := by
  rcases h with h | ⟨j, hj, hbase⟩ | h | h
  · cases h
  · cases hj
    exact .inl hbase
  · cases h
  · exact .inr h

theorem uart_apb_write_refused {iface : Option (ChiInterface w)}
    {buffer : Option (Nat → BitVec 8)} (h : Refused iface buffer size) (cb : Option Callback) :
    uart_apb_write iface buffer size cb = pure (-1) := by
  cases iface with
  | none => rfl
  | some i =>
    cases buffer with
    | none => rfl
    | some src => exact if_pos h.base_or_size

theorem uart_apb_read_refused {iface : Option (ChiInterface w)}
    {buffer : Option (Nat → BitVec 8)} (h : Refused iface buffer size) (cb : Option Callback) :
    uart_apb_read iface buffer size cb = pure (-1, buffer) := by
  cases iface with
  | none => rfl
  | some i =>
    cases buffer with
    | none => rfl
    | some dst => exact if_pos h.base_or_size

/-- Below 2^31 a size is the same number as an `ssize_t`. -/
theorem ssize_toInt (hw : w = 32 ∨ w = 64) (hsize : size.toNat < 2 ^ 31) :
    (size.setWidth w).toInt = size.toNat := by
  rcases hw with rfl | rfl
  · rw [BitVec.setWidth_eq, BitVec.toInt_eq_toNat_of_lt (by omega)]
  · have hwide : (size.setWidth 64).toNat = size.toNat := by
      rw [BitVec.toNat_setWidth]
      omega
    rw [BitVec.toInt_eq_toNat_of_lt (by omega), hwide]

theorem error_toInt (hw : w = 32 ∨ w = 64) : (-1 : BitVec w).toInt = -1 := by
  rcases hw with rfl | rfl
  · rfl
  · rfl

/-- A call that is not refused moves the whole buffer, in every run, and
    there is such a run as soon as the device is ready again and again. -/
structure Streams (iface : ChiInterface w) (bytes : Nat → BitVec 8) (size : BitVec 32)
    (cb : Option Callback) : Prop where
  write : (uart_apb_write (some iface) (some bytes) size cb).Ensures (fun r t =>
    r.toInt = size.toNat ∧ Sent (iface.base.setWidth 32) bytes size.toNat cb t)
  writeEnds : Driver.Ends tx_ready (uart_apb_write (some iface) (some bytes) size cb)
  read : (uart_apb_read (some iface) (some bytes) size cb).Ensures (fun r t =>
    r.1.toInt = size.toNat ∧ ∃ bytes', r.2 = some bytes' ∧
      Received (iface.base.setWidth 32) bytes bytes' 0 size.toNat cb t)
  readEnds : Driver.Ends rx_ready (uart_apb_read (some iface) (some bytes) size cb)

/-- A call that is refused returns -1 at once, without any event. -/
structure Refuses (iface : Option (ChiInterface w)) (buffer : Option (Nat → BitVec 8))
    (size : BitVec 32) (cb : Option Callback) : Prop where
  write : ∀ answers, ∃ o, (uart_apb_write iface buffer size cb).run answers = some o ∧
    o.value.toInt = -1 ∧ o.trace = []
  read : ∀ answers, ∃ o, (uart_apb_read iface buffer size cb).run answers = some o ∧
    o.value.1.toInt = -1 ∧ o.value.2 = buffer ∧ o.trace = []

/-- **Streams lose and duplicate nothing.** -/
theorem uart_streams (hw : w = 32 ∨ w = 64) (iface : Option (ChiInterface w))
    (buffer : Option (Nat → BitVec 8)) (size : BitVec 32) (cb : Option Callback)
    (hsize : size.toNat < 2 ^ 31) :
    (Refused iface buffer size → Refuses iface buffer size cb) ∧
    (¬ Refused iface buffer size → ∃ i bytes, iface = some i ∧ buffer = some bytes ∧
      Streams i bytes size cb) := by
  constructor
  · intro h
    constructor
    · intro answers
      rw [uart_apb_write_refused h]
      exact ⟨_, rfl, error_toInt hw, rfl⟩
    · intro answers
      rw [uart_apb_read_refused h]
      exact ⟨_, rfl, error_toInt hw, rfl, rfl⟩
  · intro h
    -- what is not refused has an interface, a base, a buffer and a size
    obtain ⟨i, rfl⟩ : ∃ i, iface = some i := Option.ne_none_iff_exists'.mp (fun hi => h (.inl hi))
    obtain ⟨bytes, rfl⟩ : ∃ bytes, buffer = some bytes :=
      Option.ne_none_iff_exists'.mp (fun hb => h (.inr (.inr (.inl hb))))
    have hbase : i.base ≠ 0 := fun hb => h (.inr (.inl ⟨i, rfl, hb⟩))
    have hpos : size ≠ 0 := fun hs => h (.inr (.inr (.inr hs)))
    refine ⟨i, bytes, rfl, rfl, ?_⟩
    constructor
    · apply (uart_apb_write_ensures hbase hpos bytes cb).imp
      rintro r t ⟨rfl, hsent⟩
      exact ⟨ssize_toInt hw hsize, hsent⟩
    · exact uart_apb_write_ends hbase hpos bytes cb
    · apply (uart_apb_read_ensures hbase hpos bytes cb).imp
      rintro r t ⟨hr, hreceived⟩
      exact ⟨hr ▸ ssize_toInt hw hsize, hreceived⟩
    · exact uart_apb_read_ends hbase hpos bytes cb

/-- The UART of a 32-bit host. -/
def uart_iface : ChiInterface 32 where
  base := 0x03002000
  cfg :=
    { baud_rate := 115200
      clk_freq_hz := 100000000
      data_bits := 8
      parity := 0
      stop_bits := 1 }

/-- The command "WB". -/
def uart_cmd : Nat → BitVec 8
  | 0 => 0x57
  | _ => 0x42

theorem uart_cmd_streams : ∃ i bytes, some uart_iface = some i ∧ some uart_cmd = some bytes ∧
    Streams i bytes 2 (some ()) := by
  have hcall : ¬ Refused (some uart_iface) (some uart_cmd) 2 := by
    intro h
    rcases h.base_or_size with hbase | hsize
    · exact absurd hbase (by decide)
    · exact absurd hsize (by decide)
  exact (uart_streams (.inl rfl) (some uart_iface) (some uart_cmd) 2 (some ()) (by decide)).2 hcall

example : ((uart_apb_write (some uart_iface) (some uart_cmd) 2 (some ())).run
    [0x00, 0x60, 0x20, 0x00, 0x60]).map Outcome.trace = some
      [.read 0x03002014 0x00, .read 0x03002014 0x60, .write 0x03002000 0x57,
        .read 0x03002014 0x20, .write 0x03002000 0x42, .read 0x03002014 0x00,
        .read 0x03002014 0x60, .call ()] := by
  decide

end UartApb
