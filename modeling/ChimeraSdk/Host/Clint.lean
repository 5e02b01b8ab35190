import ChimeraSdk.Framework.System

/-! # CLINT Drivers and the Sleeping Hart

    Two drivers implement the same timer API.  `clint32` splits the
    64-bit counter into a pair of words and re-reads the high word;
    `clint64` composes the value from one read of each word.  Both put
    the hart to sleep with the same register sequence: program
    `mtimecmp`, enable the timer interrupt in `mie`, enable interrupts
    in `mstatus`, execute `wfi`.

    The trap handler `default_trap_vector` acknowledges a timer interrupt
    by clearing `mie.MTIE` behind the back of that sequence.  This module
    models both drivers register access by register access, the handler,
    and every interleaving of the two with the counter. -/

open LTS

namespace Clint

/-! ## Section 1: Timer values -/

/-- `clint_mtime_t` of a 32-bit platform. -/
structure ClintMtime where
  low  : BitVec 32
  high : BitVec 32
  deriving DecidableEq, Repr

/-- The 64-bit number a pair of words stands for. -/
def ClintMtime.value (t : ClintMtime) : BitVec 64 := t.high ++ t.low

/-- The word at `CLINT_MTIME_HIGH_REG_OFFSET`. -/
def mtimeHigh (mtime : BitVec 64) : BitVec 32 := mtime.extractLsb' 32 32

/-- The word at `CLINT_MTIME_LOW_REG_OFFSET`. -/
def mtimeLow (mtime : BitVec 64) : BitVec 32 := mtime.extractLsb' 0 32

/-! ## Section 2: The two drivers

    A read of the counter is a sequence of register accesses, so
    `clint_get_mtime` is given by what one access does: it takes the
    counter at the instant of the access and returns either where the
    call stands afterwards or the value it returns. -/

namespace Clint32

/-- Where `clint_get_mtime` stands: the register it reads next and the
    words it has read so far. -/
inductive MtimeRead where
  | high
  | low (high : BitVec 32)
  | check (high low : BitVec 32)
  deriving DecidableEq, Repr

def clint_get_mtime (mtime : BitVec 64) : MtimeRead → MtimeRead ⊕ ClintMtime
  | .high => .inl (.low (mtimeHigh mtime))
  | .low high => .inl (.check high (mtimeLow mtime))
  | .check high low =>
      -- a high word that has changed meanwhile: read both again
      if high ≠ mtimeHigh mtime then .inl .high else .inr { low := low, high := high }

def clint_mtime_less_than (a b : ClintMtime) : Bool :=
  a.high < b.high || (a.high == b.high && a.low < b.low)

end Clint32

namespace Clint64

/-- Where `clint_get_mtime` stands.  The two reads are operands of one
    `|`, so C leaves their order open. -/
inductive MtimeRead where
  | first
  | low (high : BitVec 32)
  | high (low : BitVec 32)
  deriving DecidableEq, Repr

def compose (high low : BitVec 32) : BitVec 64 :=
  (high.setWidth 64 <<< 32) ||| low.setWidth 64

def clint_get_mtime (lowFirst : Bool) (mtime : BitVec 64) : MtimeRead → MtimeRead ⊕ BitVec 64
  | .first =>
      if lowFirst then .inl (.high (mtimeLow mtime)) else .inl (.low (mtimeHigh mtime))
  | .low high => .inr (compose high (mtimeLow mtime))
  | .high low => .inr (compose (mtimeHigh mtime) low)

def clint_mtime_less_than (a b : BitVec 64) : Bool := a < b

end Clint64

/-- What `clint_sleep_until` takes from a driver: the counter read, the
    test of the early return and the words `clint_set_mtimecmpx` writes. -/
structure Driver where
  Mtime : Type
  Read : Type
  start : Read
  get_mtime : Bool → BitVec 64 → Read → Read ⊕ Mtime
  returnsEarly : (tgt_mtime now : Mtime) → Bool
  words : Mtime → ClintMtime

/-- `clint32` returns early when the target is strictly in the past. -/
def clint32 : Driver where
  Mtime := ClintMtime
  Read := Clint32.MtimeRead
  start := .high
  get_mtime := fun _ => Clint32.clint_get_mtime
  returnsEarly := fun tgt_mtime now => Clint32.clint_mtime_less_than tgt_mtime now
  words := id

/-- `clint64` returns early when the target is not in the future. -/
def clint64 : Driver where
  Mtime := BitVec 64
  Read := Clint64.MtimeRead
  start := .first
  get_mtime := Clint64.clint_get_mtime
  returnsEarly := fun tgt_mtime now => decide (now ≥ tgt_mtime)
  words := fun value => { low := value.setWidth 32, high := (value >>> 32).setWidth 32 }

/-! ## Section 3: The hart -/

/-- The program points of `clint_sleep_until`.  `sleeping` is a hart
    stalled by `wfi`; `returned` is the return of the call. -/
inductive Pc (d : Driver) where
  | getMtime (read : d.Read)
  | test (now : d.Mtime)
  | setCmpHigh
  | setCmpLow
  | fence
  | setMtie
  | setMie
  | wfi
  | sleeping
  | returned

/-- The program points of the trap handler: the read of `mip`, the
    dispatch on it in `default_trap_vector`, and the final `mret`. -/
inductive TrapPc where
  | entry
  | dispatch (mip : BitVec 32)
  | mret
  deriving DecidableEq, Repr

/-- Hart 0 with its CLINT.  `handler` is the program point inside the
    trap handler while a trap is being served. -/
structure Hart (d : Driver) where
  mtime    : BitVec 64
  mtimecmp : Nat → ClintMtime
  msip     : Bool
  mtie     : Bool
  mie      : Bool
  mpie     : Bool
  pc       : Pc d
  handler  : Option TrapPc

namespace Hart

variable {d : Driver}

/-- MTIP: the comparator of hart 0 has been reached. -/
def timerPending (s : Hart d) : Bool := decide (s.mtime ≥ (s.mtimecmp 0).value)

/-- The `mip` CSR: MSIP in bit 3, MTIP in bit 7. -/
def mip (s : Hart d) : BitVec 32 :=
  (if s.msip then 1#32 <<< 3 else 0#32) ||| (if s.timerPending then 1#32 <<< 7 else 0#32)

/-- A timer trap has to be taken before the next instruction. -/
def trapPending (s : Hart d) : Bool :=
  s.handler.isNone && s.timerPending && s.mtie && s.mie

def setCmpHigh (s : Hart d) (timer_idx : Nat) (high : BitVec 32) : Hart d :=
  { s with mtimecmp := fun i =>
      if i = timer_idx then { s.mtimecmp i with high := high } else s.mtimecmp i }

def setCmpLow (s : Hart d) (timer_idx : Nat) (low : BitVec 32) : Hart d :=
  { s with mtimecmp := fun i =>
      if i = timer_idx then { s.mtimecmp i with low := low } else s.mtimecmp i }

/-- The C trap handler, given the `mip` it has read. -/
def default_trap_vector (mip : BitVec 32) (s : Hart d) : Hart d :=
  -- one interrupt is acknowledged, the software interrupt first
  if mip &&& (1#32 <<< 3) ≠ 0 then { s with msip := false }
  else if mip &&& (1#32 <<< 7) ≠ 0 then { s with mtie := false }
  else s

/-- One instruction of `clint_sleep_until`. -/
def clint_sleep_until (timer_idx : Nat) (tgt_mtime : d.Mtime) (lowFirst : Bool)
    (s : Hart d) : Option (Hart d) :=
  match s.pc with
  | .getMtime read =>
      match d.get_mtime lowFirst s.mtime read with
      | .inl read' => some { s with pc := .getMtime read' }
      | .inr now => some { s with pc := .test now }
  | .test now =>
      if d.returnsEarly tgt_mtime now then some { s with pc := .returned }
      else some { s with pc := .setCmpHigh }
  | .setCmpHigh =>
      some { s.setCmpHigh timer_idx (d.words tgt_mtime).high with pc := .setCmpLow }
  | .setCmpLow =>
      some { s.setCmpLow timer_idx (d.words tgt_mtime).low with pc := .fence }
  | .fence => some { s with pc := .setMtie }
  | .setMtie => some { s with mtie := true, pc := .setMie }
  | .setMie => some { s with mie := true, pc := .wfi }
  | .wfi => some { s with pc := .sleeping }
  | .sleeping =>
      -- `wfi` resumes once an interrupt enabled in `mie` is pending,
      -- whatever `mstatus.MIE` is
      if s.timerPending && s.mtie then some { s with pc := .returned } else none
  | .returned => none

/-- One instruction of the hart: of the trap handler while it runs, else
    of `clint_sleep_until`, unless a trap has to be taken first. -/
def core (timer_idx : Nat) (tgt_mtime : d.Mtime) (lowFirst : Bool)
    (s : Hart d) : Option (Hart d) :=
  match s.handler with
  | some .entry => some { s with handler := some (.dispatch s.mip) }
  | some (.dispatch mip) => some { s.default_trap_vector mip with handler := some .mret }
  -- `mret` restores the global enable, not `mie.MTIE`
  | some .mret => some { s with handler := none, mie := s.mpie, mpie := true }
  | none => if s.trapPending then none else s.clint_sleep_until timer_idx tgt_mtime lowFirst

/-- The handler does not move the program counter of the call it
    interrupts. -/
theorem default_trap_vector_pc (mip : BitVec 32) (s : Hart d) :
    (s.default_trap_vector mip).pc = s.pc := by
  unfold default_trap_vector
  split
  · rfl
  · split <;> rfl

/-- What one instruction of the hart does. -/
theorem core_cases {timer_idx : Nat} {tgt_mtime : d.Mtime} {lowFirst : Bool} {s s' : Hart d}
    (hn : s.core timer_idx tgt_mtime lowFirst = some s') :
    (s.handler = none ∧ s.trapPending = false ∧
      s.clint_sleep_until timer_idx tgt_mtime lowFirst = some s') ∨
    (s.handler = some .entry ∧ s' = { s with handler := some (.dispatch s.mip) }) ∨
    (∃ mip, s.handler = some (.dispatch mip) ∧
      s' = { s.default_trap_vector mip with handler := some .mret }) ∨
    (s.handler = some .mret ∧ s' = { s with handler := none, mie := s.mpie, mpie := true }) := by
  unfold core at hn
  cases hh : s.handler with
  | none =>
    rw [hh] at hn
    simp only at hn
    split at hn
    · cases hn
    · rename_i htrap
      exact .inl ⟨rfl, by simpa using htrap, hn⟩
  | some t =>
    rw [hh] at hn
    cases t with
    | entry => exact .inr (.inl ⟨rfl, (Option.some.inj hn).symm⟩)
    | dispatch mip => exact .inr (.inr (.inl ⟨mip, rfl, (Option.some.inj hn).symm⟩))
    | mret => exact .inr (.inr (.inr ⟨rfl, (Option.some.inj hn).symm⟩))

end Hart

/-- Who moves: the counter, the trap logic, or the instruction stream
    (`lowFirst` resolves the order of the two reads of `clint64`). -/
inductive Action where
  | tick
  | trap
  | core (lowFirst : Bool)
  deriving DecidableEq, Repr

/-- Where `mret` returns to: a trap taken in a stalled `wfi` saves the
    address behind it in `mepc`, any other trap the instruction that has
    not run. -/
def Pc.resume {d : Driver} : Pc d → Pc d
  | .sleeping => .returned
  | pc => pc

/-- A call of `clint_sleep_until`, from any state of the timer and of the
    interrupt enables, interleaved with the counter and with traps. -/
def sleepSystem (d : Driver) (timer_idx : Nat) (tgt_mtime : d.Mtime) :
    System (Hart d) Action where
  init := fun s => s.pc = .getMtime d.start ∧ s.handler = none ∧ s.msip = false
  next := fun s a =>
    match a with
    | .tick => some { s with mtime := s.mtime + 1 }
    | .trap =>
        if s.trapPending then
          some { s with mpie := s.mie, mie := false, handler := some .entry, pc := s.pc.resume }
        else none
    | .core lowFirst => s.core timer_idx tgt_mtime lowFirst

/-! ## Section 4: The wake-up

    The hart oversleeps when it executes `wfi` with `mie.MTIE` clear.
    Once `set_mtie(1)` has run, only the trap handler clears the bit, so
    all depends on the window between that instruction and the `wfi`. -/

section wakeup

variable {d : Driver} {timer_idx : Nat} {tgt_mtime : d.Mtime}

/-- When the hart executes `wfi`, the timer interrupt is enabled. -/
def WakesUp (s : Hart d) : Prop :=
  s.pc = .wfi → s.handler = none → s.mtie = true

/-- The window: `set_mtie(1)` has run and `wfi` has not. -/
def Pc.inWindow : Pc d → Bool
  | .setMie => true
  | .wfi => true
  | _ => false

/-- Inside the window, with interrupts enabled in `mstatus`, the counter
    has not reached the comparator when the hart takes its step. -/
def NotYetDue (s : Hart d) (a : Action) : Prop :=
  a ≠ .tick → s.pc.inWindow = true → s.handler = none → s.mie = true →
    s.timerPending = false

instance (s : Hart d) (a : Action) : Decidable (NotYetDue s a) :=
  inferInstanceAs (Decidable (a ≠ .tick → s.pc.inWindow = true → s.handler = none →
    s.mie = true → s.timerPending = false))

/-- Inside the window no trap is being served and the timer interrupt is
    enabled. -/
def Armed (s : Hart d) : Prop :=
  s.pc.inWindow = true → s.handler = none ∧ s.mtie = true

@[simp] theorem Pc.inWindow_resume (pc : Pc d) : pc.resume.inWindow = pc.inWindow := by
  cases pc <;> rfl

theorem Pc.resume_of_inWindow {pc : Pc d} (h : pc.inWindow = true) : pc.resume = pc := by
  cases pc <;> first | rfl | cases h

theorem armed_tick {s : Hart d} (h : Armed s) : Armed { s with mtime := s.mtime + 1 } := h

/-- Inside the window a due trap would have made the step one the guard
    excludes. -/
theorem armed_trap {s : Hart d} (h : Armed s) (hok : NotYetDue s .trap)
    (hp : s.trapPending = true) :
    Armed { s with mpie := s.mie, mie := false, handler := some .entry, pc := s.pc.resume } := by
  intro hresume
  have hw : s.pc.inWindow = true := (Pc.inWindow_resume s.pc).symm.trans hresume
  simp only [Hart.trapPending, Bool.and_eq_true] at hp
  obtain ⟨⟨⟨_, hdue⟩, _⟩, hmie⟩ := hp
  have hnone := (h hw).1
  have := hok (by simp) hw hnone hmie
  rw [this] at hdue
  cases hdue

theorem armed_sleep {s s' : Hart d} {lowFirst : Bool} (h : Armed s)
    (hnone : s.handler = none)
    (hn : s.clint_sleep_until timer_idx tgt_mtime lowFirst = some s') : Armed s' := by
  unfold Hart.clint_sleep_until at hn
  cases hpc : s.pc with
  | getMtime read =>
    rw [hpc] at hn
    cases hread : d.get_mtime lowFirst s.mtime read <;> simp only [hread] at hn <;>
      cases hn <;> exact fun hw => by cases hw
  | test now =>
    rw [hpc] at hn
    simp only at hn
    split at hn <;> cases hn <;> exact fun hw => by cases hw
  | setMtie => rw [hpc] at hn; cases hn; exact fun _ => ⟨hnone, rfl⟩
  | setMie =>
    rw [hpc] at hn; cases hn
    exact fun _ => ⟨hnone, (h (by rw [hpc]; rfl)).2⟩
  | sleeping =>
    rw [hpc] at hn
    simp only at hn
    split at hn <;> cases hn
    exact fun hw => by cases hw
  | returned => rw [hpc] at hn; cases hn
  | _ =>
    -- the other instructions do not end in the window
    rw [hpc] at hn
    cases hn
    exact fun hw => by cases hw

/-- The handler never runs inside the window. -/
theorem armed_core {s s' : Hart d} {lowFirst : Bool} (h : Armed s)
    (hn : s.core timer_idx tgt_mtime lowFirst = some s') : Armed s' := by
  -- a trap inside the window is excluded, so the call stands elsewhere
  have hout : ∀ t, s.handler = some t → ¬ s.pc.inWindow = true := by
    intro t hh hw
    rw [(h hw).1] at hh
    cases hh
  rcases Hart.core_cases hn with ⟨hnone, _, hsleep⟩ | ⟨hh, rfl⟩ | ⟨mip, hh, rfl⟩ | ⟨hh, rfl⟩
  · exact armed_sleep h hnone hsleep
  · exact fun hw => absurd hw (hout _ hh)
  · intro hw
    have hpc : (s.default_trap_vector mip).pc.inWindow = true := hw
    rw [Hart.default_trap_vector_pc] at hpc
    exact absurd hpc (hout _ hh)
  · exact fun hw => absurd hw (hout _ hh)

theorem armed_next {s s' : Hart d} {a : Action} (h : Armed s) (hok : NotYetDue s a)
    (hn : (sleepSystem d timer_idx tgt_mtime).next s a = some s') : Armed s' := by
  cases a with
  | tick => cases hn; exact armed_tick h
  | trap =>
    simp only [sleepSystem] at hn
    split at hn
    · rename_i hp
      cases hn
      exact armed_trap h hok hp
    · cases hn
  | core lowFirst => exact armed_core h hn

theorem armed_reachable {s : Hart d}
    (h : (sleepSystem d timer_idx tgt_mtime).ReachableUnder NotYetDue s) : Armed s := by
  refine h.invariant ?_ (fun s a s' hs hok hn => armed_next hs hok hn)
  rintro s ⟨hpc, _, _⟩ hw
  rw [hpc] at hw
  cases hw

/-! ### The window is exactly what matters

    Conversely, once the comparator is reached inside the window the trap
    is taken there, the handler clears `mie.MTIE`, and no later event of
    the timer resumes the hart. -/

/-- The counter does not wrap around. -/
def NoWrap (s : Hart d) (a : Action) : Prop :=
  a = .tick → s.mtime ≠ BitVec.allOnes 64

/-- The program points from the window on, up to the stalled `wfi`. -/
def Pc.pastEnable : Pc d → Bool
  | .setMie => true
  | .wfi => true
  | .sleeping => true
  | _ => false

/-- The interrupt is due, and the trap that consumes it is still to be
    taken in the window, or is being served, or has cleared `mie.MTIE`. -/
def Consumed (s : Hart d) : Prop :=
  match s.handler with
  | none => s.mtie = false ∨ (s.mie = true ∧ s.pc.inWindow = true)
  | some .entry => True
  | some (.dispatch mip) => mip &&& (1#32 <<< 3) = 0 ∧ mip &&& (1#32 <<< 7) ≠ 0
  | some .mret => s.mtie = false

structure Missed (s : Hart d) : Prop where
  due      : s.timerPending = true
  noMsip   : s.msip = false
  past     : s.pc.pastEnable = true
  consumed : Consumed s

theorem mip_of_due {s : Hart d} (hdue : s.timerPending = true) (hsip : s.msip = false) :
    s.mip &&& (1#32 <<< 3) = 0 ∧ s.mip &&& (1#32 <<< 7) ≠ 0 := by
  simp only [Hart.mip, hdue, hsip]
  decide

theorem timerPending_tick {s : Hart d} (hdue : s.timerPending = true)
    (hw : s.mtime ≠ BitVec.allOnes 64) :
    Hart.timerPending { s with mtime := s.mtime + 1 } = true := by
  simp only [Hart.timerPending, decide_eq_true_eq] at hdue ⊢
  have hne : s.mtime.toNat ≠ 2 ^ 64 - 1 := by
    intro heq
    exact hw (BitVec.eq_of_toNat_eq (by simpa using heq))
  bv_omega

/-- With the interrupt consumed, the call moves on to `wfi` and stays
    there: the stalled hart waits for an interrupt that is disabled. -/
theorem missed_sleep {s s' : Hart d} {lowFirst : Bool} (h : Missed s)
    (hnone : s.handler = none) (htrap : s.trapPending = false)
    (hn : s.clint_sleep_until timer_idx tgt_mtime lowFirst = some s') : Missed s' := by
  have hmtie : s.mtie = false := by
    -- an enabled interrupt that is due would have been taken as a trap
    have hc := h.consumed
    simp only [Consumed, hnone] at hc
    rcases hc with hc | ⟨hmie, _⟩
    · exact hc
    · simpa [Hart.trapPending, hnone, h.due, hmie] using htrap
  unfold Hart.clint_sleep_until at hn
  have hpast := h.past
  cases hpc : s.pc with
  | setMie =>
    rw [hpc] at hn; cases hn
    exact ⟨h.due, h.noMsip, rfl, by simp [Consumed, hnone, hmtie]⟩
  | wfi =>
    rw [hpc] at hn; cases hn
    exact ⟨h.due, h.noMsip, rfl, by simp [Consumed, hnone, hmtie]⟩
  | sleeping => rw [hpc] at hn; simp [hmtie] at hn
  | _ => rw [hpc] at hpast; cases hpast

theorem missed_core {s s' : Hart d} {lowFirst : Bool} (h : Missed s)
    (hn : s.core timer_idx tgt_mtime lowFirst = some s') : Missed s' := by
  have hc := h.consumed
  rcases Hart.core_cases hn with ⟨hnone, htrap, hsleep⟩ | ⟨hh, rfl⟩ | ⟨mip, hh, rfl⟩ | ⟨hh, rfl⟩
  · exact missed_sleep h hnone htrap hsleep
  · exact ⟨h.due, h.noMsip, h.past, mip_of_due h.due h.noMsip⟩
  · -- the software interrupt is not pending, so the handler takes the timer
    simp only [Consumed, hh] at hc
    have hvector : s.default_trap_vector mip = { s with mtie := false } := by
      simp only [Hart.default_trap_vector, hc.1, ne_eq, not_true_eq_false, if_false, hc.2,
        not_false_eq_true, if_true]
    rw [hvector]
    exact ⟨h.due, h.noMsip, h.past, rfl⟩
  · simp only [Consumed, hh] at hc
    exact ⟨h.due, h.noMsip, h.past, Or.inl hc⟩

/-- The trap that consumes the interrupt is one of the window: a hart that
    is stalled already waits for a disabled interrupt. -/
theorem missed_trap {s : Hart d} (h : Missed s) (hp : s.trapPending = true) :
    Missed { s with mpie := s.mie, mie := false, handler := some .entry, pc := s.pc.resume } := by
  simp only [Hart.trapPending, Bool.and_eq_true, Option.isNone_iff_eq_none] at hp
  obtain ⟨⟨⟨hnone, _⟩, hmtie⟩, _⟩ := hp
  have hc := h.consumed
  simp only [Consumed, hnone, hmtie, Bool.true_eq_false, false_or] at hc
  have hpast : s.pc.resume.pastEnable = true := by
    rw [Pc.resume_of_inWindow hc.2]
    exact h.past
  exact ⟨h.due, h.noMsip, hpast, trivial⟩

theorem missed_next {s s' : Hart d} {a : Action} (h : Missed s) (hok : NoWrap s a)
    (hn : (sleepSystem d timer_idx tgt_mtime).next s a = some s') : Missed s' := by
  cases a with
  | tick =>
    cases hn
    exact ⟨timerPending_tick h.due (hok rfl), h.noMsip, h.past, h.consumed⟩
  | trap =>
    simp only [sleepSystem] at hn
    split at hn
    · rename_i hp
      cases hn
      exact missed_trap h hp
    · cases hn
  | core lowFirst => exact missed_core h hn

/-- **A missed wake-up is final**: from a state of the window in which the
    interrupt is due and enabled in `mstatus`, no run in which the counter
    does not wrap around returns from the call. -/
theorem never_returns_of_due {s₀ s : Hart d} (hw : s₀.pc.inWindow = true)
    (hnone : s₀.handler = none) (hmie : s₀.mie = true) (hsip : s₀.msip = false)
    (hdue : s₀.timerPending = true)
    (h : ((sleepSystem d timer_idx tgt_mtime).startingAt s₀).ReachableUnder NoWrap s) :
    s.pc ≠ .returned := by
  have hmissed : Missed s := by
    refine h.invariant_from ?_ (fun s a s' hs hok hn => missed_next hs hok hn)
    refine ⟨hdue, hsip, ?_, by simp [Consumed, hnone, hmie, hw]⟩
    cases hpc : s₀.pc <;> rw [hpc] at hw <;> first | rfl | cases hw
  intro hpc
  have hpast := hmissed.past
  rw [hpc] at hpast
  cases hpast

/-! An interrupt that is not due yet finds the hart asleep. -/

section returning

variable {s₀ s s' : Hart d}

/-- From `s₀` the call gets to `s`, without a wrap-around of the counter. -/
def GetsTo (d : Driver) (timer_idx : Nat) (tgt_mtime : d.Mtime) (s₀ s : Hart d) : Prop :=
  ((sleepSystem d timer_idx tgt_mtime).startingAt s₀).ReachableUnder NoWrap s

theorem GetsTo.core (lowFirst : Bool) (h : GetsTo d timer_idx tgt_mtime s₀ s)
    (hn : s.core timer_idx tgt_mtime lowFirst = some s') : GetsTo d timer_idx tgt_mtime s₀ s' := by
  refine .step (.core lowFirst) h ?_ hn
  intro htick
  cases htick

/-- The hart outside the handler runs an instruction of the call unless
    the interrupt is due. -/
theorem core_of_not_due (lowFirst : Bool) (hnone : s.handler = none)
    (hdue : s.timerPending = false) :
    s.core timer_idx tgt_mtime lowFirst = s.clint_sleep_until timer_idx tgt_mtime lowFirst := by
  simp only [Hart.core, hnone, Hart.trapPending, hdue, Bool.and_false, Bool.false_and,
    Bool.false_eq_true, if_false]

/-- Time passes until the comparator is reached. -/
theorem GetsTo.ticks (h : GetsTo d timer_idx tgt_mtime s₀ s) (hdue : s.timerPending = false) :
    GetsTo d timer_idx tgt_mtime s₀ { s with mtime := (s.mtimecmp 0).value } := by
  -- induction on the ticks that are left
  induction hk : (s.mtimecmp 0).value.toNat - s.mtime.toNat using Nat.strongRecOn
    generalizing s with
  | ind k ih =>
    have hlt : s.mtime.toNat < (s.mtimecmp 0).value.toNat := by
      simpa [Hart.timerPending, BitVec.lt_def] using hdue
    have hcmp := (s.mtimecmp 0).value.isLt
    have hwrap : s.mtime ≠ BitVec.allOnes 64 := by
      intro heq
      rw [heq, BitVec.toNat_allOnes] at hlt
      omega
    have hnext : (s.mtime + 1).toNat = s.mtime.toNat + 1 := by
      have hone : (1 : BitVec 64).toNat = 1 := rfl
      rw [BitVec.toNat_add, hone]
      exact Nat.mod_eq_of_lt (by omega)
    have htick : GetsTo d timer_idx tgt_mtime s₀ { s with mtime := s.mtime + 1 } :=
      .step .tick h (fun _ => hwrap) rfl
    by_cases hlast : Hart.timerPending { s with mtime := s.mtime + 1 } = true
    · have hge : (s.mtimecmp 0).value.toNat ≤ (s.mtime + 1).toNat := by
        simpa [Hart.timerPending, BitVec.le_def] using hlast
      have hreached : s.mtime + 1 = (s.mtimecmp 0).value := BitVec.eq_of_toNat_eq (by omega)
      rw [hreached] at htick
      exact htick
    · have hless : (s.mtimecmp 0).value.toNat - (s.mtime + 1).toNat < k := by omega
      have hrest := ih _ hless htick ((Bool.not_eq_true _).mp hlast) rfl
      exact hrest

/-- The stalled hart takes the trap behind its `wfi`, and the handler
    returns there. -/
theorem GetsTo.wakes (h : GetsTo d timer_idx tgt_mtime s₀ s) (hpc : s.pc = .sleeping)
    (hnone : s.handler = none) (hmtie : s.mtie = true) (hmie : s.mie = true)
    (hdue : s.timerPending = true) :
    ∃ s', GetsTo d timer_idx tgt_mtime s₀ s' ∧ s'.handler = none ∧ s'.pc = .returned := by
  have hpending : s.trapPending = true := by simp [Hart.trapPending, hnone, hdue, hmtie, hmie]
  have htrap : GetsTo d timer_idx tgt_mtime s₀
      { s with mpie := s.mie, mie := false, handler := some .entry, pc := s.pc.resume } :=
    .step .trap h (fun heq => by cases heq) (if_pos hpending)
  have hentry := htrap.core false rfl
  have hdispatch := hentry.core false rfl
  refine ⟨_, hdispatch.core false rfl, rfl, ?_⟩
  refine (Hart.default_trap_vector_pc _ _).trans ?_
  show s.pc.resume = .returned
  rw [hpc]
  rfl

/-- From the window, with the interrupt not due yet, the hart falls
    asleep. -/
theorem GetsTo.sleeps (hw : s₀.pc.inWindow = true) (hnone : s₀.handler = none)
    (hmie : s₀.mie = true) (hdue : s₀.timerPending = false) :
    GetsTo d timer_idx tgt_mtime s₀ { s₀ with pc := .sleeping } := by
  have hstart : GetsTo d timer_idx tgt_mtime s₀ s₀ := .init rfl
  cases hpc : s₀.pc with
  | setMie =>
    have hwfi : GetsTo d timer_idx tgt_mtime s₀ { s₀ with pc := .wfi } := by
      refine hstart.core false ((core_of_not_due false hnone hdue).trans ?_)
      simp only [Hart.clint_sleep_until, hpc, ← hmie]
    exact hwfi.core false (@core_of_not_due d timer_idx tgt_mtime { s₀ with pc := .wfi } false
      hnone hdue)
  | wfi =>
    refine hstart.core false ((core_of_not_due false hnone hdue).trans ?_)
    simp only [Hart.clint_sleep_until, hpc]
  | _ => rw [hpc] at hw; cases hw

end returning

end wakeup

/-- **No lost wake-up**: in every run in which the counter does not reach
    the comparator between `set_mtie(1)` and `wfi` while interrupts are
    enabled, the hart executes `wfi` with the timer interrupt enabled. -/
theorem wakes_up_of_not_yet_due (d : Driver) (timer_idx : Nat) (tgt_mtime : d.Mtime)
    (s : Hart d) (h : (sleepSystem d timer_idx tgt_mtime).ReachableUnder NotYetDue s) :
    WakesUp s := by
  intro hpc _
  exact (armed_reachable h (by rw [hpc]; rfl)).2

/-- A hart that has just called `clint_sleep_until`, with interrupts
    disabled and the comparator parked at its largest value. -/
def callState (d : Driver) (mtime : BitVec 64) : Hart d where
  mtime    := mtime
  mtimecmp := fun _ => { low := BitVec.allOnes 32, high := BitVec.allOnes 32 }
  msip     := false
  mtie     := false
  mie      := false
  mpie     := false
  pc       := .getMtime d.start
  handler  := none

/-- A sleep of five ticks that starts in time reaches the `wfi` of
    `clint32` with the timer interrupt enabled. -/
theorem wakes_up_five_ticks :
    ∃ s : Hart clint32, s.pc = .wfi ∧ s.handler = none ∧ WakesUp s := by
  have hreach := System.reachableUnder_of_replay
    (sleepSystem clint32 0 { low := 10, high := 0 }) NotYetDue (callState clint32 5)
    [.core false, .tick, .core false, .core false, .core false, .core false,
     .core false, .tick, .core false, .core false, .core false]
    ⟨rfl, rfl, rfl⟩ rfl
  exact ⟨_, rfl, rfl, wakes_up_of_not_yet_due clint32 0 _ _ hreach⟩

/-- The drivers do oversleep.  `clint32` called with the current time as
    its target programs a comparator that is already reached; `clint64`
    does the same when the counter reaches the target after the early
    test.  Both take the trap before the `wfi`. -/
theorem oversleeps_at_target :
    (¬ ∀ s, (sleepSystem clint32 0 { low := 5, high := 0 }).Reachable s → WakesUp s) ∧
    (¬ ∀ s, (sleepSystem clint64 0 5#64).Reachable s → WakesUp s) := by
  constructor
  · intro hall
    have hs := System.reachable_of_exec
      (sleepSystem clint32 0 { low := 5, high := 0 }) (callState clint32 5)
      [.core false, .core false, .core false, .core false, .core false,
       .core false, .core false, .core false, .core false,
       .trap, .core false, .core false, .core false]
      ⟨rfl, rfl, rfl⟩ rfl
    exact absurd (hall _ hs rfl rfl) (by decide)
  · intro hall
    have hs := System.reachable_of_exec (sleepSystem clint64 0 5#64) (callState clint64 4)
      [.core false, .core false, .core false, .tick, .core false, .core false,
       .core false, .core false, .core false,
       .trap, .core false, .core false, .core false]
      ⟨rfl, rfl, rfl⟩ rfl
    exact absurd (hall _ hs rfl rfl) (by decide)

/-- **When a sleep ends**: from the window, with the timer interrupt
    enabled and no trap being served, some run in which the counter does
    not wrap around returns from the call exactly when the interrupt is
    not due yet.  One that is due is taken as a trap before the `wfi`. -/
theorem returns_iff_not_due (d : Driver) (timer_idx : Nat) (tgt_mtime : d.Mtime) (s₀ : Hart d)
    (hw : s₀.pc.inWindow = true) (hnone : s₀.handler = none) (hmtie : s₀.mtie = true)
    (hmie : s₀.mie = true) (hsip : s₀.msip = false) :
    (∃ s, ((sleepSystem d timer_idx tgt_mtime).startingAt s₀).ReachableUnder NoWrap s ∧
        s.handler = none ∧ s.pc = .returned) ↔
      s₀.timerPending = false := by
  constructor
  · rintro ⟨s, hs, _, hreturned⟩
    cases hdue : s₀.timerPending with
    | false => rfl
    | true => exact absurd hreturned (never_returns_of_due hw hnone hmie hsip hdue hs)
  · intro hdue
    have hasleep : GetsTo d timer_idx tgt_mtime s₀ { s₀ with pc := .sleeping } :=
      GetsTo.sleeps hw hnone hmie hdue
    have hreached := hasleep.ticks hdue
    exact hreached.wakes rfl hnone hmtie hmie (by simp [Hart.timerPending])

/-- Called with the current time as its target, `clint32` reaches a state
    from which no run returns before the counter wraps around; called with
    a target ahead, it reaches one from which some run does. -/
theorem returns_iff_not_due_fiveTicks :
    (∃ s₀ : Hart clint32, (sleepSystem clint32 0 { low := 5, high := 0 }).Reachable s₀ ∧
      ¬ ∃ s, ((sleepSystem clint32 0 { low := 5, high := 0 }).startingAt s₀).ReachableUnder
        NoWrap s ∧ s.handler = none ∧ s.pc = .returned) ∧
    (∃ s₀ : Hart clint32, (sleepSystem clint32 0 { low := 10, high := 0 }).Reachable s₀ ∧
      ∃ s, ((sleepSystem clint32 0 { low := 10, high := 0 }).startingAt s₀).ReachableUnder
        NoWrap s ∧ s.handler = none ∧ s.pc = .returned) := by
  constructor
  · have hs := System.reachable_of_exec
      (sleepSystem clint32 0 { low := 5, high := 0 }) (callState clint32 5)
      [.core false, .core false, .core false, .core false, .core false,
       .core false, .core false, .core false, .core false]
      ⟨rfl, rfl, rfl⟩ rfl
    refine ⟨_, hs, fun hreturns => ?_⟩
    have hdue := (returns_iff_not_due clint32 0 _ _ rfl rfl rfl rfl rfl).mp hreturns
    cases hdue
  · have hs := System.reachable_of_exec
      (sleepSystem clint32 0 { low := 10, high := 0 }) (callState clint32 5)
      [.core false, .core false, .core false, .core false, .core false,
       .core false, .core false, .core false, .core false]
      ⟨rfl, rfl, rfl⟩ rfl
    exact ⟨_, hs, (returns_iff_not_due clint32 0 _ _ rfl rfl rfl rfl rfl).mpr rfl⟩

end Clint
