import ChimeraSdk.Framework.Log
import ChimeraSdk.Framework.System
import ChimeraSdk.Target.SocAddrMap
import Mathlib.Algebra.BigOperators.Group.Finset.Basic
import Mathlib.Logic.Function.Basic

/-! # Offloading to the Snitch Clusters

    The host starts a core in three moves: it writes a function, an
    argument and a stack pointer into the core's slot of the trampoline
    arrays, it points the boot-address register at the trampoline, and it
    sets the core's bit in the CLINT.  A slot is a one-deep mailbox and
    the boot-address register is one register for all clusters; the only
    synchronisation is the poll of the target cluster's busy register.

    `offload_snitchCluster` polls first and writes afterwards;
    `offload_snitchCluster_core` writes first and polls afterwards.  This
    module compiles every sequence of calls to the stores it performs, and
    interleaves them with the cores. -/

open LTS Soc

namespace Offload

/-! ## Section 1: Shared data -/

/-- What the host hands to one core. -/
@[ext] structure Task where
  function : BitVec 32
  args     : BitVec 32
  stack    : BitVec 32
  deriving DecidableEq, Repr

/-- The trampoline arrays of `chimera_shared_data_t`. -/
structure SharedData where
  trampoline_function : Nat → BitVec 32
  trampoline_args     : Nat → BitVec 32
  trampoline_stack    : Nat → BitVec 32

/-- `trampoline_idx`, computed by the host and by the trampoline alike. -/
def trampolineIdx (hartID : Nat) : Nat := hartID - CLUSTER_HART_BASE

/-- The slot of a hart. -/
def SharedData.slot (d : SharedData) (hartID : Nat) : Task where
  function := d.trampoline_function (trampolineIdx hartID)
  args     := d.trampoline_args (trampolineIdx hartID)
  stack    := d.trampoline_stack (trampolineIdx hartID)

namespace SharedData

def setFunction (d : SharedData) (hartID : Nat) (v : BitVec 32) : SharedData :=
  { d with
    trampoline_function := Function.update d.trampoline_function (trampolineIdx hartID) v }

def setArgs (d : SharedData) (hartID : Nat) (v : BitVec 32) : SharedData :=
  { d with trampoline_args := Function.update d.trampoline_args (trampolineIdx hartID) v }

def setStack (d : SharedData) (hartID : Nat) (v : BitVec 32) : SharedData :=
  { d with trampoline_stack := Function.update d.trampoline_stack (trampolineIdx hartID) v }

/-- Distinct cluster harts have distinct slots. -/
theorem trampolineIdx_ne {h h' : Nat} (hb : CLUSTER_HART_BASE ≤ h)
    (hb' : CLUSTER_HART_BASE ≤ h') (hne : h ≠ h') : trampolineIdx h ≠ trampolineIdx h' := by
  simp only [trampolineIdx]
  omega

variable (d : SharedData) (h : Nat) (v : BitVec 32)

@[simp] theorem slot_setFunction_self :
    (d.setFunction h v).slot h = { d.slot h with function := v } := by
  simp [slot, setFunction]

@[simp] theorem slot_setArgs_self :
    (d.setArgs h v).slot h = { d.slot h with args := v } := by
  simp [slot, setArgs]

@[simp] theorem slot_setStack_self :
    (d.setStack h v).slot h = { d.slot h with stack := v } := by
  simp [slot, setStack]

variable {h} {h' : Nat}

theorem slot_setFunction_ne (hne : trampolineIdx h' ≠ trampolineIdx h) :
    (d.setFunction h v).slot h' = d.slot h' := by
  simp [slot, setFunction, hne]

theorem slot_setArgs_ne (hne : trampolineIdx h' ≠ trampolineIdx h) :
    (d.setArgs h v).slot h' = d.slot h' := by
  simp [slot, setArgs, hne]

theorem slot_setStack_ne (hne : trampolineIdx h' ≠ trampolineIdx h) :
    (d.setStack h v).slot h' = d.slot h' := by
  simp [slot, setStack, hne]

end SharedData

/-- Everything the host stores to: the shared data and the two boot
    address registers of the SoC, which lie next to each other. -/
structure Memory where
  shared : SharedData
  snitchBootAddr : BitVec 32
  snitchConfigurableBootAddr : BitVec 32

/-! ## Section 2: The host -/

/-- A task together with the trampoline its core is to start at. -/
structure Job where
  task : Task
  trampoline : BitVec 32
  deriving DecidableEq, Repr

/-- The host's externally visible steps.  An interrupt carries the job of
    the call that sends it; nothing in the system reads this label. -/
inductive Instr where
  | setFunction (hartID : Nat) (v : BitVec 32)
  | setArgs (hartID : Nat) (v : BitVec 32)
  | setStack (hartID : Nat) (v : BitVec 32)
  | setBootAddr (v : BitVec 32)
  | setBootAddrPtr (v : BitVec 64)
  | waitBusy (clusterId : ClusterId)
  | fence
  | interrupt (hartID : Nat) (job : Job)
  deriving DecidableEq, Repr

/-- `_setup_trampoline`: the device is a 32-bit machine, so each pointer
    of the host is truncated. -/
def setup_trampoline (hartID : Nat) (function args stack : BitVec 64) : List Instr :=
  [.setFunction hartID (function.setWidth 32),
   .setArgs hartID (args.setWidth 32),
   .setStack hartID (stack.setWidth 32)]

/-- A call of one of the two offload functions. -/
inductive Call where
  | core (function trampoline args stack_ptr : BitVec 64) (clusterId : ClusterId)
      (core_id : Nat)
  | cluster (function trampoline args : BitVec 64) (stack_ptr : Nat → BitVec 64)
      (clusterId : ClusterId)

/-- The job a core is given by a call with these arguments. -/
def job (function trampoline args stack : BitVec 64) : Job where
  task := { function := function.setWidth 32, args := args.setWidth 32,
            stack := stack.setWidth 32 }
  trampoline := trampoline.setWidth 32

variable (m : SocAddrMap)

/-- The boot address is stored through a `void **`, a store of the width
    of a host pointer. -/
def offload_snitchCluster_core (function trampoline args stack_ptr : BitVec 64)
    (clusterId : ClusterId) (core_id : Nat) : List Instr :=
  setup_trampoline (m.hartId clusterId core_id) function args stack_ptr ++
  [.setBootAddrPtr trampoline,
   .waitBusy clusterId,
   .interrupt (m.hartId clusterId core_id) (job function trampoline args stack_ptr)]

/-- The loop body of `offload_snitchCluster`. -/
def offloadHart (function trampoline args stack : BitVec 64) (hartID : Nat) : List Instr :=
  setup_trampoline hartID function args stack ++
  [.setBootAddr (trampoline.setWidth 32),
   .fence,
   .interrupt hartID (job function trampoline args stack)]

def offload_snitchCluster (function trampoline args : BitVec 64)
    (stack_ptr : Nat → BitVec 64) (clusterId : ClusterId) : List Instr :=
  .waitBusy clusterId ::
  (List.range (m.numCores clusterId)).flatMap (fun i =>
    offloadHart function trampoline args (stack_ptr i) (m.hartId clusterId i))

namespace Call

/-- A call names a core its cluster has. -/
def Valid : Call → Prop
  | .core _ _ _ _ clusterId core_id => core_id < m.numCores clusterId
  | .cluster _ _ _ _ _ => True

instance : DecidablePred (Valid m)
  | .core _ _ _ _ clusterId core_id =>
      inferInstanceAs (Decidable (core_id < m.numCores clusterId))
  | .cluster _ _ _ _ _ => isTrue trivial

def instrs : Call → List Instr
  | .core function trampoline args stack_ptr clusterId core_id =>
      offload_snitchCluster_core m function trampoline args stack_ptr clusterId core_id
  | .cluster function trampoline args stack_ptr clusterId =>
      offload_snitchCluster m function trampoline args stack_ptr clusterId

/-- What a call asks for: a job for each hart it addresses. -/
def jobs : Call → List (Nat × Job)
  | .core function trampoline args stack_ptr clusterId core_id =>
      [(m.hartId clusterId core_id, job function trampoline args stack_ptr)]
  | .cluster function trampoline args stack_ptr clusterId =>
      (List.range (m.numCores clusterId)).map (fun i =>
        (m.hartId clusterId i, job function trampoline args (stack_ptr i)))

end Call

namespace Instr

/-- The stores of an instruction. -/
def store : Instr → Memory → Memory
  | .setFunction hartID v, mem => { mem with shared := mem.shared.setFunction hartID v }
  | .setArgs hartID v, mem => { mem with shared := mem.shared.setArgs hartID v }
  | .setStack hartID v, mem => { mem with shared := mem.shared.setStack hartID v }
  | .setBootAddr v, mem => { mem with snitchBootAddr := v }
  | .setBootAddrPtr v, mem =>
      { mem with snitchBootAddr := v.setWidth 32,
                 snitchConfigurableBootAddr := v.extractLsb' 32 32 }
  | _, mem => mem

/-- The jobs an instruction sends. -/
def sends : Instr → List (Nat × Job)
  | .interrupt hartID job => [(hartID, job)]
  | _ => []

end Instr

/-! ## Section 3: The cores -/

/-- Where a core stands.  The trampoline loads the stack pointer, the
    function and the argument, in this order, and jumps. -/
inductive CorePc where
  | wfi
  | entry
  | stackLoaded (sp : BitVec 32)
  | functionLoaded (sp a1 : BitVec 32)
  | argsLoaded (sp a1 a0 : BitVec 32)
  | running
  deriving DecidableEq, Repr

/-- A core with its software-interrupt bit of the CLINT. -/
structure Core where
  msip : Bool
  pc   : CorePc
  deriving DecidableEq, Repr

/-- An interrupt has been sent to the core or its function has not
    returned. -/
def Core.active (c : Core) : Bool := c.msip || c.pc != .wfi

/-- The system.  The logs record, oldest first, the interrupts sent, the
    addresses the cores jumped to and the tasks they ran. -/
structure State where
  program : List Instr
  mem     : Memory
  core    : Nat → Core
  sent    : List (Nat × Job)
  jumped  : List (Nat × BitVec 32)
  ran     : List (Nat × Task)

namespace State

/-- The cluster's busy register reads 1. -/
def snitchCluster_busy (s : State) (clusterId : ClusterId) : Bool :=
  (m.clusterHarts clusterId).any (fun h => (s.core h).active)

/-- `wait_snitchCluster_busy` does not return while the register reads 1. -/
def blocked (s : State) : Instr → Bool
  | .waitBusy clusterId => s.snitchCluster_busy m clusterId
  | _ => false

def raise (core : Nat → Core) : Instr → Nat → Core
  | .interrupt hartID _ => Function.update core hartID { core hartID with msip := true }
  | _ => core

/-- One step of the host. -/
def hostStep (s : State) : Option State :=
  match s.program with
  | [] => none
  | i :: rest =>
      if s.blocked m i then none
      else some { s with program := rest, mem := i.store s.mem,
                         core := raise s.core i, sent := s.sent ++ i.sends }

def setPc (s : State) (h : Nat) (pc : CorePc) : State :=
  { s with core := Function.update s.core h { s.core h with pc := pc } }

/-- One step of a core: taking the interrupt, an instruction of the
    trampoline, or the return of the offloaded function. -/
def coreStep (s : State) (h : Nat) : Option State :=
  match (s.core h).pc with
  | .wfi =>
      -- the interrupt takes the core to the address in the register
      if (s.core h).msip then
        some { s with core := Function.update s.core h { msip := false, pc := .entry },
                      jumped := s.jumped ++ [(h, s.mem.snitchBootAddr)] }
      else none
  | .entry =>
      some (s.setPc h (.stackLoaded (s.mem.shared.trampoline_stack (trampolineIdx h))))
  | .stackLoaded sp =>
      some (s.setPc h (.functionLoaded sp
        (s.mem.shared.trampoline_function (trampolineIdx h))))
  | .functionLoaded sp a1 =>
      some (s.setPc h (.argsLoaded sp a1 (s.mem.shared.trampoline_args (trampolineIdx h))))
  | .argsLoaded sp a1 a0 =>
      -- the jump to the function, with what has been loaded
      some { s.setPc h .running with
        ran := s.ran ++ [(h, { function := a1, args := a0, stack := sp })] }
  | .running => some (s.setPc h .wfi)

end State

/-- Who moves. -/
inductive Action where
  | host
  | core (h : Nat)
  deriving DecidableEq, Repr

/-- The host performs `calls` one after the other; the cores start idle. -/
def offloadSystem (calls : List Call) : System State Action where
  init := fun s =>
    s.program = calls.flatMap (Call.instrs m) ∧ (∀ h, s.core h = { msip := false, pc := .wfi }) ∧
    s.sent = [] ∧ s.jumped = [] ∧ s.ran = []
  next := fun s a =>
    match a with
    | .host => s.hostStep m
    | .core h => s.coreStep h

/-! ## Section 4: What a program guarantees

    The host runs alone, so what its remaining program relies on can be
    read off the program: at each interrupt the slot of the hart and the
    boot address hold the job of the call, and the hart is quiet because
    its cluster has been polled since the last interrupt sent to it. -/

namespace Instr

/-- What an instruction relies on. -/
def Ready (mem : Memory) (quiet : Nat → Bool) : Instr → Prop
  | .interrupt h job =>
      h ∈ m.harts ∧ mem.shared.slot h = job.task ∧
      mem.snitchBootAddr = job.trampoline ∧ quiet h = true
  | .setFunction h _ => h ∈ m.harts
  | .setArgs h _ => h ∈ m.harts
  | .setStack h _ => h ∈ m.harts
  | _ => True

/-- The harts known to be quiet after an instruction. -/
def quietAfter (quiet : Nat → Bool) : Instr → Nat → Bool
  | .waitBusy clusterId, h => quiet h || decide (h ∈ m.clusterHarts clusterId)
  | .interrupt hartID _, h => quiet h && h != hartID
  | _, h => quiet h

theorem quietAfter_mono {quiet quiet' : Nat → Bool}
    (hle : ∀ h, quiet h = true → quiet' h = true) (i : Instr) (h : Nat)
    (hq : i.quietAfter m quiet h = true) : i.quietAfter m quiet' h = true := by
  cases i with
  | waitBusy clusterId =>
    simp only [quietAfter, Bool.or_eq_true] at hq ⊢
    exact hq.imp_left (hle h)
  | interrupt hartID job =>
    simp only [quietAfter, Bool.and_eq_true] at hq ⊢
    exact hq.imp_left (hle h)
  | _ => exact hle h hq

theorem Ready.mono {m : SocAddrMap} {mem : Memory} {quiet quiet' : Nat → Bool}
    (hle : ∀ h, quiet h = true → quiet' h = true) {i : Instr} (hr : i.Ready m mem quiet) :
    i.Ready m mem quiet' := by
  cases i with
  | interrupt h job => exact ⟨hr.1, hr.2.1, hr.2.2.1, hle h hr.2.2.2⟩
  | _ => exact hr

end Instr

/-- Every instruction of the program finds what it relies on, when the
    program runs from this memory with these harts quiet. -/
def Prepared : List Instr → Memory → (Nat → Bool) → Prop
  | [], _, _ => True
  | i :: rest, mem, quiet =>
      i.Ready m mem quiet ∧ Prepared rest (i.store mem) (i.quietAfter m quiet)

theorem Prepared.mono {m : SocAddrMap} {p : List Instr} {mem : Memory}
    {quiet quiet' : Nat → Bool} (hle : ∀ h, quiet h = true → quiet' h = true)
    (hp : Prepared m p mem quiet) : Prepared m p mem quiet' := by
  induction p generalizing mem quiet quiet' with
  | nil => trivial
  | cons i rest ih => exact ⟨hp.1.mono hle, ih (i.quietAfter_mono m hle) hp.2⟩

theorem Prepared.append {m : SocAddrMap} {p p' : List Instr} {mem : Memory}
    {quiet : Nat → Bool} (hp : Prepared m p mem quiet)
    (hp' : ∀ mem quiet, Prepared m p' mem quiet) : Prepared m (p ++ p') mem quiet := by
  induction p generalizing mem quiet with
  | nil => exact hp' mem quiet
  | cons i rest ih => exact ⟨hp.1, ih hp.2⟩

/-- The poll of `offload_snitchCluster_core` sits between the stores and
    the interrupt, which is enough for the interrupt itself. -/
theorem prepared_core (function trampoline args stack_ptr : BitVec 64)
    (clusterId : ClusterId) {core_id : Nat} (hcore : core_id < m.numCores clusterId)
    (mem : Memory) (quiet : Nat → Bool) :
    Prepared m (offload_snitchCluster_core m function trampoline args stack_ptr clusterId core_id)
      mem quiet := by
  have hhart := m.hartId_mem_harts hcore
  refine ⟨hhart, hhart, hhart, trivial, trivial, ⟨hhart, ?_, rfl, ?_⟩, trivial⟩
  · simp [Instr.store, job]
  · have hmem : m.hartId clusterId core_id ∈ m.clusterHarts clusterId :=
      m.mem_clusterHarts.mpr ⟨core_id, hcore, rfl⟩
    simp [Instr.quietAfter, hmem]

/-- One iteration of the loop of `offload_snitchCluster` leaves the other
    harts quiet. -/
theorem prepared_harts (function trampoline args : BitVec 64) (stack_ptr : Nat → BitVec 64)
    (clusterId : ClusterId) (l : List Nat) (hl : l.Nodup)
    (hcores : ∀ i ∈ l, i < m.numCores clusterId) (mem : Memory) (quiet : Nat → Bool)
    (hq : ∀ i ∈ l, quiet (m.hartId clusterId i) = true) :
    Prepared m (l.flatMap (fun i =>
      offloadHart function trampoline args (stack_ptr i) (m.hartId clusterId i))) mem quiet := by
  induction l generalizing mem quiet with
  | nil => trivial
  | cons i l ih =>
    have hhart := m.hartId_mem_harts (hcores i List.mem_cons_self)
    obtain ⟨hi, hl⟩ := List.nodup_cons.mp hl
    -- the interrupt to core `i` makes no other core of the list active
    refine ⟨hhart, hhart, hhart, trivial, trivial, ⟨hhart, ?_, rfl, hq i List.mem_cons_self⟩,
      ih hl (fun j hj => hcores j (List.mem_cons_of_mem _ hj)) _ _ ?_⟩
    · simp [Instr.store, job]
    · intro j hj
      have hne : m.hartId clusterId j ≠ m.hartId clusterId i := by
        intro heq
        simp only [SocAddrMap.hartId, Nat.add_left_cancel_iff] at heq
        exact hi (heq ▸ hj)
      have := hq j (List.mem_cons_of_mem _ hj)
      simp [Instr.quietAfter, this, hne]

theorem prepared_cluster (function trampoline args : BitVec 64) (stack_ptr : Nat → BitVec 64)
    (clusterId : ClusterId) (mem : Memory) (quiet : Nat → Bool) :
    Prepared m (offload_snitchCluster m function trampoline args stack_ptr clusterId)
      mem quiet := by
  refine ⟨trivial, prepared_harts m _ _ _ _ _ _ List.nodup_range
    (fun i hi => List.mem_range.mp hi) _ _ ?_⟩
  intro i hi
  have hmem : m.hartId clusterId i ∈ m.clusterHarts clusterId :=
    m.mem_clusterHarts.mpr ⟨i, List.mem_range.mp hi, rfl⟩
  simp [Instr.quietAfter, hmem]

theorem prepared_call {call : Call} (hv : call.Valid m) (mem : Memory) (quiet : Nat → Bool) :
    Prepared m (call.instrs m) mem quiet := by
  cases call with
  | core function trampoline args stack_ptr clusterId core_id =>
    exact prepared_core m function trampoline args stack_ptr clusterId hv mem quiet
  | cluster function trampoline args stack_ptr clusterId =>
    exact prepared_cluster m function trampoline args stack_ptr clusterId mem quiet

/-- Any sequence of calls is prepared, whatever state it starts in. -/
theorem prepared_calls {calls : List Call} (hv : ∀ call ∈ calls, call.Valid m) (mem : Memory)
    (quiet : Nat → Bool) : Prepared m (calls.flatMap (Call.instrs m)) mem quiet := by
  induction calls generalizing mem quiet with
  | nil => trivial
  | cons call calls ih =>
    exact (prepared_call m (hv call List.mem_cons_self) mem quiet).append
      (ih (fun c hc => hv c (List.mem_cons_of_mem _ hc)))

theorem sends_call (call : Call) : (call.instrs m).flatMap Instr.sends = call.jobs m := by
  cases call with
  | core => rfl
  | cluster function trampoline args stack_ptr clusterId =>
    show ((List.range (m.numCores clusterId)).flatMap _).flatMap Instr.sends = _
    rw [List.flatMap_assoc, Call.jobs, List.map_eq_flatMap]
    rfl

/-- The interrupts of a program are the jobs of its calls, in order. -/
theorem sends_calls (calls : List Call) :
    (calls.flatMap (Call.instrs m)).flatMap Instr.sends = calls.flatMap (Call.jobs m) := by
  rw [List.flatMap_assoc]
  exact List.flatMap_congr (fun call _ => sends_call m call)

/-! ## Section 5: Steps -/

namespace Core

/-- The tasks an active core has been given and has not run yet, when its
    slot holds `slot`: the words it has loaded are fixed, the others are
    still to be read. -/
def owedTask (c : Core) (slot : Task) : List Task :=
  (match c.pc with
    | .wfi => []
    | .entry => [slot]
    | .stackLoaded sp => [{ slot with stack := sp }]
    | .functionLoaded sp a1 => [{ slot with stack := sp, function := a1 }]
    | .argsLoaded sp a1 a0 => [{ function := a1, args := a0, stack := sp }]
    | .running => []) ++
  if c.msip then [slot] else []

/-- The jumps of a core that still has to take its interrupt. -/
def owedJump (c : Core) (bootAddr : BitVec 32) : List (BitVec 32) :=
  if c.msip then [bootAddr] else []

theorem owed_of_quiet {c : Core} (hq : c.active = false) (slot : Task) (bootAddr : BitVec 32) :
    c.owedTask slot = [] ∧ c.owedJump bootAddr = [] := by
  obtain ⟨msip, pc⟩ := c
  simp only [active, Bool.or_eq_false_iff, bne_eq_false_iff_eq] at hq
  obtain ⟨rfl, rfl⟩ := hq
  exact ⟨rfl, rfl⟩

theorem owed_of_raised {c : Core} (hq : c.active = false) (slot : Task)
    (bootAddr : BitVec 32) :
    owedTask { c with msip := true } slot = [slot] ∧
    owedJump { c with msip := true } bootAddr = [bootAddr] := by
  obtain ⟨msip, pc⟩ := c
  simp only [active, Bool.or_eq_false_iff, bne_eq_false_iff_eq] at hq
  obtain ⟨rfl, rfl⟩ := hq
  exact ⟨rfl, rfl⟩

end Core

namespace State

/-- What a step of the host does. -/
theorem hostStep_cases {m : SocAddrMap} {s s' : State} (hn : s.hostStep m = some s') :
    ∃ i rest, s.program = i :: rest ∧ s.blocked m i = false ∧
      s' = { s with program := rest, mem := i.store s.mem,
                    core := raise s.core i, sent := s.sent ++ i.sends } := by
  unfold hostStep at hn
  split at hn
  · cases hn
  · rename_i i rest hp
    split at hn
    · cases hn
    · rename_i hb
      exact ⟨i, rest, hp, by simpa using hb, (Option.some.inj hn).symm⟩

/-- What a core's step leaves alone.  A quiet core does not move. -/
structure CoreFrame (s s' : State) (h : Nat) : Prop where
  active  : (s.core h).active = true
  program : s'.program = s.program
  mem     : s'.mem = s.mem
  sent    : s'.sent = s.sent
  core    : ∀ h', h' ≠ h → s'.core h' = s.core h'
  jumped  : ∀ h', h' ≠ h → entriesOf h' s'.jumped = entriesOf h' s.jumped
  ran     : ∀ h', h' ≠ h → entriesOf h' s'.ran = entriesOf h' s.ran

theorem coreStep_frame {s s' : State} {h : Nat} (hn : s.coreStep h = some s') :
    CoreFrame s s' h := by
  -- all steps but the first only move the program counter
  have hsetPc : ∀ pc, (s.core h).pc ≠ .wfi → CoreFrame s (s.setPc h pc) h := by
    intro pc hpc
    have hact : (s.core h).active = true := by simp [Core.active, hpc]
    exact ⟨hact, rfl, rfl, rfl, fun h' hne => by simp [setPc, hne], fun _ _ => rfl,
      fun _ _ => rfl⟩
  unfold coreStep at hn
  cases hpc : (s.core h).pc with
  | wfi =>
    simp only [hpc] at hn
    split at hn
    · rename_i hmsip
      cases hn
      have hact : (s.core h).active = true := by simp [Core.active, hmsip]
      refine ⟨hact, rfl, rfl, rfl, fun h' hne => by simp [hne], ?_, fun _ _ => rfl⟩
      intro h' hne
      simp [entriesOf_ne _ (Ne.symm hne)]
    · cases hn
  | argsLoaded sp a1 a0 =>
    simp only [hpc] at hn
    cases hn
    have hframe := hsetPc .running (by simp [hpc])
    refine { hframe with ran := ?_ }
    intro h' hne
    simp [entriesOf_ne _ (Ne.symm hne)]
  | _ =>
    simp only [hpc] at hn
    cases hn
    exact hsetPc _ (by simp [hpc])

/-- A core's step moves what the core owes into the logs, and nothing
    else: what it has run and jumped to, followed by what it still owes,
    stays the same. -/
theorem coreStep_owed {s s' : State} {h : Nat} (hn : s.coreStep h = some s') :
    entriesOf h s'.ran ++ (s'.core h).owedTask (s.mem.shared.slot h) =
      entriesOf h s.ran ++ (s.core h).owedTask (s.mem.shared.slot h) ∧
    entriesOf h s'.jumped ++ (s'.core h).owedJump s.mem.snitchBootAddr =
      entriesOf h s.jumped ++ (s.core h).owedJump s.mem.snitchBootAddr := by
  unfold coreStep at hn
  cases hpc : (s.core h).pc with
  | wfi =>
    simp only [hpc] at hn
    split at hn
    · rename_i hmsip
      cases hn
      simp [Core.owedTask, Core.owedJump, hpc, hmsip]
    · cases hn
  | _ =>
    simp only [hpc] at hn
    cases hn
    simp [Core.owedTask, Core.owedJump, setPc, hpc, SharedData.slot]

end State

/-! ## Section 6: The invariant of the host -/

/-- The rest of the program finds what it relies on, and the interrupts
    sent and to be sent are the jobs of the calls. -/
structure HostInv (calls : List Call) (s : State) : Prop where
  prepared : Prepared m s.program s.mem (fun h => !(s.core h).active)
  jobs     : s.sent ++ s.program.flatMap Instr.sends = calls.flatMap (Call.jobs m)
  harts    : ∀ h, (s.core h).active = true → h ∈ m.harts

variable {m} {calls : List Call} {s s' : State}

theorem hostInv_init (hv : ∀ call ∈ calls, call.Valid m)
    (hi : (offloadSystem m calls).init s) : HostInv m calls s := by
  obtain ⟨hprog, hcore, hsent, _, _⟩ := hi
  refine ⟨hprog ▸ prepared_calls m hv _ _, by rw [hprog, hsent, sends_calls]; rfl, ?_⟩
  intro h hact
  rw [hcore h] at hact
  cases hact

/-- The harts an instruction promises to be quiet afterwards are quiet: a
    poll that has returned has seen the whole cluster quiet. -/
theorem quiet_after {i : Instr} (hb : s.blocked m i = false) (h : Nat)
    (hq : i.quietAfter m (fun h => !(s.core h).active) h = true) :
    (!(State.raise s.core i h).active) = true := by
  cases i with
  | waitBusy clusterId =>
    simp only [State.blocked, State.snitchCluster_busy, List.any_eq_false,
      Bool.not_eq_true] at hb
    simp only [Instr.quietAfter, Bool.or_eq_true, decide_eq_true_eq, Bool.not_eq_true'] at hq
    rcases hq with hq | hmem
    · simpa [State.raise] using hq
    · simpa [State.raise] using hb h hmem
  | interrupt hartID job =>
    simp only [Instr.quietAfter, Bool.and_eq_true, bne_iff_ne, ne_eq] at hq
    simpa [State.raise, hq.2] using hq.1
  | _ => exact hq

/-- An instruction has nothing to do with a hart, or is an interrupt sent
    to it. -/
theorem raise_cases (core : Nat → Core) (i : Instr) (h : Nat) :
    (State.raise core i h = core h ∧ entriesOf h i.sends = []) ∨
    ∃ job, i = .interrupt h job := by
  cases i with
  | interrupt hartID job =>
    by_cases hne : hartID = h
    · exact Or.inr ⟨job, by rw [hne]⟩
    · exact Or.inl ⟨by simp [State.raise, Ne.symm hne], entriesOf_ne job hne⟩
  | _ => exact Or.inl ⟨rfl, rfl⟩

theorem hostInv_host (hi : HostInv m calls s) (hn : s.hostStep m = some s') :
    HostInv m calls s' := by
  obtain ⟨i, rest, hprog, hb, rfl⟩ := State.hostStep_cases hn
  have hp := hi.prepared
  have hj := hi.jobs
  rw [hprog] at hp hj
  refine ⟨hp.2.mono (quiet_after hb), by simpa using hj, ?_⟩
  intro h hact
  rcases raise_cases s.core i h with ⟨heq, _⟩ | ⟨job, rfl⟩
  · exact hi.harts h (by simpa only [heq] using hact)
  · exact hp.1.1

theorem hostInv_core {h : Nat} (hi : HostInv m calls s) (hn : s.coreStep h = some s') :
    HostInv m calls s' := by
  have hframe := State.coreStep_frame hn
  refine ⟨?_, by rw [hframe.sent, hframe.program]; exact hi.jobs, ?_⟩
  · rw [hframe.program, hframe.mem]
    refine hi.prepared.mono ?_
    intro h' hq
    have hne : h' ≠ h := by
      rintro rfl
      -- a hart known to be quiet is not the one that moves
      simp [hframe.active] at hq
    rw [hframe.core h' hne]
    exact hq
  · intro h' hact
    by_cases hne : h' = h
    · exact hne ▸ hi.harts h hframe.active
    · exact hi.harts h' (hframe.core h' hne ▸ hact)

theorem hostInv_next {a : Action} (hi : HostInv m calls s)
    (hn : (offloadSystem m calls).next s a = some s') : HostInv m calls s' := by
  cases a with
  | host => exact hostInv_host hi hn
  | core h => exact hostInv_core hi hn

/-- The instruction the host performs next is ready. -/
theorem HostInv.ready {i : Instr} {rest : List Instr} (hi : HostInv m calls s)
    (hprog : s.program = i :: rest) :
    i.Ready m s.mem (fun h => !(s.core h).active) := by
  have := hi.prepared
  rw [hprog] at this
  exact this.1

/-- A state without steps is one in which all is done: an active core can
    move, and once all cores are quiet nothing blocks the host. -/
theorem done_of_stuck (hstuck : (offloadSystem m calls).Stuck s) :
    s.program = [] ∧ ∀ h, (s.core h).active = false := by
  have hquiet : ∀ h, (s.core h).active = false := by
    intro h
    have hc : s.coreStep h = none := hstuck (.core h)
    unfold State.coreStep at hc
    -- a core only stands still in `wfi`, without an interrupt
    cases hpc : (s.core h).pc <;> simp only [hpc] at hc
    case wfi =>
      split at hc
      · cases hc
      · rename_i hmsip
        simpa [Core.active, hpc] using hmsip
    all_goals cases hc
  refine ⟨?_, hquiet⟩
  have hh : s.hostStep m = none := hstuck .host
  unfold State.hostStep at hh
  split at hh
  · assumption
  · rename_i i rest hprog
    split at hh
    · rename_i hb
      cases i with
      -- the only call that blocks waits for a core that is active
      | waitBusy clusterId =>
        simp [State.blocked, State.snitchCluster_busy, hquiet] at hb
      | _ => cases hb
    · cases hh

/-! ### Every run ends -/

def Instr.work : Instr → Nat
  | .interrupt _ _ => 7
  | _ => 1

def CorePc.work : CorePc → Nat
  | .wfi => 0
  | .entry => 5
  | .stackLoaded _ => 4
  | .functionLoaded _ _ => 3
  | .argsLoaded _ _ _ => 2
  | .running => 1

/-- The steps a core still has to do. -/
def Core.work (c : Core) : Nat := c.pc.work + if c.msip then 6 else 0

/-- The steps the cores still have to do. -/
def load (m : SocAddrMap) (core : Nat → Core) : Nat :=
  ∑ h ∈ m.harts.toFinset, (core h).work

def State.work (m : SocAddrMap) (s : State) : Nat :=
  (s.program.map Instr.work).sum + load m s.core

/-- A change of one core's state changes the load by as much. -/
theorem load_of_frame {core core' : Nat → Core} {h : Nat} (hh : h ∈ m.harts)
    (hframe : ∀ h', h' ≠ h → core' h' = core h') :
    load m core' + (core h).work = load m core + (core' h).work := by
  have hmem : h ∈ m.harts.toFinset := List.mem_toFinset.mpr hh
  have hrest : ∑ h' ∈ m.harts.toFinset.erase h, (core' h').work =
      ∑ h' ∈ m.harts.toFinset.erase h, (core h').work :=
    Finset.sum_congr rfl (fun h' hm => by rw [hframe h' (Finset.ne_of_mem_erase hm)])
  simp only [load, ← Finset.add_sum_erase _ _ hmem, hrest]
  omega

theorem work_host (hi : HostInv m calls s) (hn : s.hostStep m = some s') :
    s'.work m < s.work m := by
  obtain ⟨i, rest, hprog, hb, rfl⟩ := State.hostStep_cases hn
  simp only [State.work, hprog, List.map_cons, List.sum_cons]
  cases i with
  | interrupt h job =>
    obtain ⟨hh, _, _, hq⟩ := hi.ready hprog
    have hframe : ∀ h', h' ≠ h → State.raise s.core (.interrupt h job) h' = s.core h' :=
      fun h' hne => by simp [State.raise, hne]
    have hload := load_of_frame hh hframe
    have hwork : (State.raise s.core (.interrupt h job) h).work ≤ (s.core h).work + 6 := by
      simp only [State.raise, Function.update_self, Core.work]
      split <;> omega
    simp only [Instr.work]
    omega
  | _ =>
    simp only [Instr.work, State.raise]
    omega

theorem core_work {h : Nat} (hn : s.coreStep h = some s') :
    (s'.core h).work < (s.core h).work := by
  unfold State.coreStep at hn
  cases hpc : (s.core h).pc with
  | wfi =>
    simp only [hpc] at hn
    split at hn
    · rename_i hmsip
      cases hn
      simp [Core.work, CorePc.work, hpc, hmsip]
    · cases hn
  | _ =>
    simp only [hpc] at hn
    cases hn
    simp [Core.work, CorePc.work, State.setPc, hpc]

theorem work_core {h : Nat} (hi : HostInv m calls s) (hn : s.coreStep h = some s') :
    s'.work m < s.work m := by
  have hframe := State.coreStep_frame hn
  have hload := load_of_frame (hi.harts h hframe.active) hframe.core
  have hlt := core_work hn
  simp only [State.work, hframe.program]
  omega

/-- Every run ends, so a call that is not carried out when no step is
    left is not carried out at all. -/
theorem HostInv.terminates (hi : HostInv m calls s) :
    (offloadSystem m calls).Terminates s := by
  refine System.terminates_of_measure (State.work m) ?_ hi
  intro s a s' hi hn
  refine ⟨hostInv_next hi hn, ?_⟩
  cases a with
  | host => exact work_host hi hn
  | core h => exact work_core hi hn

/-! ## Section 7: Channels

    Each interrupt passes two things to its core: the task in the slot
    and the trampoline in the boot-address register.  Both travel the same
    way.  The host deposits the value, sends the interrupt, and the core
    picks the value up later; nothing is lost as long as the host does not
    change the value in between.  A channel is what the two have in
    common. -/

/-- A value that travels with an interrupt: what the call wants the core
    to receive, the log of what the cores received, and what a core would
    still receive from the present memory. -/
structure Channel (α : Type) where
  want : Job → α
  log  : State → List (Nat × α)
  owed : Core → Memory → Nat → List α

/-- The laws of a channel. -/
structure Channel.Lawful {α : Type} (m : SocAddrMap) (ch : Channel α) : Prop where
  quiet : ∀ {c : Core} {mem : Memory} {h : Nat}, c.active = false → ch.owed c mem h = []
  raised : ∀ {core : Nat → Core} {mem : Memory} {h : Nat} {job : Job},
    (Instr.interrupt h job).Ready m mem (fun h => !(core h).active) →
    ch.owed (State.raise core (.interrupt h job) h) mem h = [ch.want job]
  host : ∀ {s s' : State}, s.hostStep m = some s' → ch.log s' = ch.log s
  core : ∀ {s s' : State} {h : Nat}, s.coreStep h = some s' →
    entriesOf h (ch.log s') ++ ch.owed (s'.core h) s.mem h =
      entriesOf h (ch.log s) ++ ch.owed (s.core h) s.mem h
  frame : ∀ {s s' : State} {h : Nat}, s.coreStep h = some s' →
    ∀ h', h' ≠ h → entriesOf h' (ch.log s') = entriesOf h' (ch.log s)
  length : ∀ (c : Core) (mem mem' : Memory) (h : Nat),
    (ch.owed c mem h).length = (ch.owed c mem' h).length

/-- The tasks. -/
def tasks : Channel Task where
  want := Job.task
  log := State.ran
  owed := fun c mem h => c.owedTask (mem.shared.slot h)

/-- The trampolines. -/
def trampolines : Channel (BitVec 32) where
  want := Job.trampoline
  log := State.jumped
  owed := fun c mem _ => c.owedJump mem.snitchBootAddr

theorem tasks_lawful : tasks.Lawful m where
  quiet := fun hq => (Core.owed_of_quiet hq _ 0).1
  raised := by
    rintro core mem h job ⟨_, hslot, _, hq⟩
    have hq : (core h).active = false := by simpa using hq
    have hraised := (Core.owed_of_raised hq (mem.shared.slot h) 0).1
    simpa [tasks, State.raise, hslot] using hraised
  host := by
    intro s s' hn
    obtain ⟨i, rest, _, _, rfl⟩ := State.hostStep_cases hn
    rfl
  core := fun hn => (State.coreStep_owed hn).1
  frame := fun hn => (State.coreStep_frame hn).ran
  length := by
    intro c mem mem' h
    cases hpc : c.pc <;> cases hmsip : c.msip <;> simp [tasks, Core.owedTask, hpc, hmsip]

theorem trampolines_lawful : trampolines.Lawful m where
  quiet := fun hq => (Core.owed_of_quiet hq ⟨0, 0, 0⟩ _).2
  raised := by
    rintro core mem h job ⟨_, _, hboot, hq⟩
    have hq : (core h).active = false := by simpa using hq
    have hraised := (Core.owed_of_raised hq ⟨0, 0, 0⟩ mem.snitchBootAddr).2
    simpa [trampolines, State.raise, hboot] using hraised
  host := by
    intro s s' hn
    obtain ⟨i, rest, _, _, rfl⟩ := State.hostStep_cases hn
    rfl
  core := fun hn => (State.coreStep_owed hn).2
  frame := fun hn => (State.coreStep_frame hn).jumped
  length := by
    intro c mem mem' h
    cases hmsip : c.msip <;> simp [trampolines, Core.owedJump, hmsip]

namespace Channel

variable {α : Type} (m) (ch : Channel α)

/-- Everything sent has been received or is still owed, unchanged and in
    order. -/
def Kept (s : State) : Prop :=
  ∀ h ∈ m.harts, (entriesOf h s.sent).map ch.want =
    entriesOf h (ch.log s) ++ ch.owed (s.core h) s.mem h

/-- The host's next store does not change what a core is owed. -/
def Undisturbed (s : State) (a : Action) : Prop :=
  a = .host → ∀ i ∈ s.program.head?, ∀ h ∈ m.harts,
    ch.owed (s.core h) (i.store s.mem) h = ch.owed (s.core h) s.mem h

/-- What the interrupts of a run of `calls` achieve through a channel:
    the cores receive what was sent to them, in order; a quiet core has
    received all of it; and since every run ends, every call is carried
    out exactly once. -/
structure Delivers (calls : List Call) (s : State) : Prop where
  sent_calls : s.sent <+: calls.flatMap (Call.jobs m)
  received   : ∀ h ∈ m.harts, entriesOf h (ch.log s) <+: (entriesOf h s.sent).map ch.want
  quiet      : ∀ h ∈ m.harts, (s.core h).active = false →
    entriesOf h (ch.log s) = (entriesOf h s.sent).map ch.want
  terminates : (offloadSystem m calls).Terminates s
  done       : (offloadSystem m calls).Stuck s → ∀ h ∈ m.harts,
    entriesOf h (ch.log s) = (entriesOf h (calls.flatMap (Call.jobs m))).map ch.want

variable {m} {ch}

theorem kept_init (hi : (offloadSystem m calls).init s) (hlog : ch.log s = [])
    (hch : ch.Lawful m) : ch.Kept m s := by
  obtain ⟨_, hcore, hsent, _, _⟩ := hi
  intro h _
  have hquiet : (s.core h).active = false := by rw [hcore h]; rfl
  simp [hsent, hlog, hch.quiet hquiet]

theorem kept_host (hch : ch.Lawful m) (hi : HostInv m calls s) (hk : ch.Kept m s)
    (hok : ch.Undisturbed m s .host) (hn : s.hostStep m = some s') : ch.Kept m s' := by
  have hlog := hch.host hn
  obtain ⟨i, rest, hprog, hb, rfl⟩ := State.hostStep_cases hn
  intro h hh
  have hstore := hok rfl i (by simp [hprog]) h hh
  have hkept := hk h hh
  rw [hlog]
  rcases raise_cases s.core i h with ⟨heq, hsends⟩ | ⟨job, rfl⟩
  · simp only [entriesOf_append, hsends, List.append_nil, heq, hstore]
    exact hkept
  · -- the hart is quiet, so it is owed this job only
    have hready := hi.ready hprog
    have hquiet : (s.core h).active = false := by simpa using hready.2.2.2
    have howed : ch.owed (s.core h) s.mem h = [] := hch.quiet hquiet
    rw [howed, List.append_nil] at hkept
    simp only [entriesOf_append, Instr.sends, entriesOf_self, List.map_append, List.map_cons,
      List.map_nil, hkept]
    exact congrArg _ (hch.raised hready).symm

theorem kept_core {h : Nat} (hch : ch.Lawful m) (hk : ch.Kept m s)
    (hn : s.coreStep h = some s') : ch.Kept m s' := by
  have hframe := State.coreStep_frame hn
  intro h' hh
  rw [hframe.sent, hframe.mem, hk h' hh]
  by_cases hne : h' = h
  · subst hne
    exact (hch.core hn).symm
  · rw [hch.frame hn h' hne, hframe.core h' hne]

theorem kept_next {a : Action} (hch : ch.Lawful m) (hi : HostInv m calls s)
    (hk : ch.Kept m s) (hok : ch.Undisturbed m s a)
    (hn : (offloadSystem m calls).next s a = some s') : ch.Kept m s' := by
  cases a with
  | host => exact kept_host hch hi hk hok hn
  | core h => exact kept_core hch hk hn

theorem delivers_of_kept (hch : ch.Lawful m) (hi : HostInv m calls s) (hk : ch.Kept m s) :
    ch.Delivers m calls s where
  sent_calls := ⟨_, hi.jobs⟩
  received := fun h hh => ⟨_, (hk h hh).symm⟩
  quiet := fun h hh hq => by rw [hk h hh, hch.quiet hq, List.append_nil]
  terminates := hi.terminates
  done := by
    intro hstuck h hh
    obtain ⟨hprog, hquiet⟩ := done_of_stuck hstuck
    have hjobs := hi.jobs
    rw [hprog] at hjobs
    rw [← hjobs, List.flatMap_nil, List.append_nil, hk h hh, hch.quiet (hquiet h),
      List.append_nil]

theorem kept_reachable (hch : ch.Lawful m) (hv : ∀ call ∈ calls, call.Valid m)
    (hlog : ∀ s, (offloadSystem m calls).init s → ch.log s = [])
    (h : (offloadSystem m calls).ReachableUnder (ch.Undisturbed m) s) :
    HostInv m calls s ∧ ch.Kept m s := by
  induction h with
  | init hi => exact ⟨hostInv_init hv hi, kept_init hi (hlog _ hi) hch⟩
  | step a _ hok hn ih => exact ⟨hostInv_next ih.1 hn, kept_next hch ih.1 ih.2 hok hn⟩

theorem delivers_of_undisturbed (hch : ch.Lawful m) (hv : ∀ call ∈ calls, call.Valid m)
    (hlog : ∀ s, (offloadSystem m calls).init s → ch.log s = [])
    (h : (offloadSystem m calls).ReachableUnder (ch.Undisturbed m) s) :
    ch.Delivers m calls s :=
  have ⟨hi, hk⟩ := kept_reachable hch hv hlog h
  delivers_of_kept hch hi hk

/-! ### A disturbed channel fails

    A store that does change what a core is owed is never repaired: if
    the core goes on alone, it receives the wrong value. -/

variable (calls) in
/-- A core that goes on alone receives what it is owed. -/
theorem core_settles (hch : ch.Lawful m) (s : State) (h : Nat) :
    ∃ as s', (offloadSystem m calls).exec s as = some s' ∧ s'.sent = s.sent ∧
      entriesOf h (ch.log s') = entriesOf h (ch.log s) ++ ch.owed (s.core h) s.mem h := by
  -- induction on the work left to the core; what it has received and is
  -- owed together stays the same
  induction hw : (s.core h).work using Nat.strong_induction_on generalizing s with
  | _ w ih =>
    subst hw
    cases hn : s.coreStep h with
    | none =>
      refine ⟨[], s, rfl, rfl, ?_⟩
      have hq : (s.core h).active = false := by
        unfold State.coreStep at hn
        cases hpc : (s.core h).pc <;> simp [hpc] at hn
        simp [Core.active, hpc, hn]
      rw [hch.quiet hq, List.append_nil]
    | some t =>
      have hframe := State.coreStep_frame hn
      obtain ⟨as, s', hexec, hsent, hlog⟩ := ih _ (core_work hn) t rfl
      refine ⟨.core h :: as, s', ?_, by rw [hsent, hframe.sent], ?_⟩
      · have hstep : (offloadSystem m calls).next s (.core h) = some t := hn
        rw [System.exec_cons, hstep]
        exact hexec
      · rw [hlog, hframe.mem, hch.core hn]

variable (calls) in
theorem not_delivers_of_disturbed (hch : ch.Lawful m) (hk : ch.Kept m s)
    (hn : s.hostStep m = some s') (hd : ¬ ch.Undisturbed m s .host) :
    ∃ as t, (offloadSystem m calls).exec s' as = some t ∧ ¬ ch.Delivers m calls t := by
  have hlog := hch.host hn
  obtain ⟨i, rest, hprog, hb, rfl⟩ := State.hostStep_cases hn
  simp only [Undisturbed, hprog, List.head?_cons, Option.mem_def, Option.some.injEq,
    forall_eq', true_implies, not_forall] at hd
  obtain ⟨h, hh, hne⟩ := hd
  rcases raise_cases s.core i h with ⟨heq, hsends⟩ | ⟨job, rfl⟩
  · obtain ⟨as, t, hexec, hsent, ht⟩ := core_settles calls hch _ h
    refine ⟨as, t, hexec, fun hdel => hne ?_⟩
    -- what the core receives and what was sent are of one length, so the
    -- prefix is the whole
    have hpre := hdel.received h hh
    rw [ht, hlog, hsent] at hpre
    simp only [heq, entriesOf_append, hsends, List.append_nil, hk h hh] at hpre
    exact ((List.prefix_append_right_inj _).mp hpre).eq_of_length (hch.length _ _ _ _)
  · -- an interrupt stores nothing
    exact absurd rfl hne

/-- **Exactness**: all runs of `calls` deliver if and only if no run
    disturbs the channel. -/
theorem delivers_iff (hch : ch.Lawful m) (hv : ∀ call ∈ calls, call.Valid m)
    (hlog : ∀ s, (offloadSystem m calls).init s → ch.log s = []) :
    (∀ s, (offloadSystem m calls).Reachable s → ch.Delivers m calls s) ↔
    (∀ s a s', (offloadSystem m calls).Reachable s →
      (offloadSystem m calls).next s a = some s' → ch.Undisturbed m s a) := by
  constructor
  · intro hall
    -- along a run that has been undisturbed so far, the next step is too
    have hok : ∀ s a s', (offloadSystem m calls).ReachableUnder (ch.Undisturbed m) s →
        (offloadSystem m calls).next s a = some s' → ch.Undisturbed m s a := by
      intro s a s' hs hn ha
      subst ha
      by_contra hd
      obtain ⟨as, t, hexec, hnot⟩ := not_delivers_of_disturbed calls hch
        (kept_reachable hch hv hlog hs).2 hn (fun hok => hd (hok rfl))
      exact hnot (hall t (System.exec_reachable as (hs.reachable.next hn) hexec))
    intro s a s' hs hn
    exact hok s a s' (hs.under hok) hn
  · intro hall s hs
    exact delivers_of_undisturbed hch hv hlog
      (hs.under (fun s a s' hs hn => hall s a s' hs.reachable hn))

end Channel

/-! ## Section 8: Tasks

    A slot may be written as soon as its core has read it.  The poll of
    `offload_snitchCluster_core` comes after the stores, too late to
    ensure this: it protects the interrupt, not the slot. -/

namespace Core

/-- The core has still to load its stack pointer. -/
def readsStack (c : Core) : Bool :=
  c.msip || c.pc == .entry

/-- The core has still to load its function. -/
def readsFunction (c : Core) : Bool :=
  c.msip || match c.pc with
    | .entry => true
    | .stackLoaded _ => true
    | _ => false

/-- The core has still to load its argument. -/
def readsArgs (c : Core) : Bool :=
  c.msip || match c.pc with
    | .entry => true
    | .stackLoaded _ => true
    | .functionLoaded _ _ => true
    | _ => false

variable (c : Core) (slot : Task) (v : BitVec 32)

theorem owedTask_setStack : c.owedTask { slot with stack := v } = c.owedTask slot ↔
    (c.readsStack = true → v = slot.stack) := by
  cases hpc : c.pc <;> cases hmsip : c.msip <;>
    simp [owedTask, readsStack, hpc, hmsip, Task.ext_iff]

theorem owedTask_setFunction : c.owedTask { slot with function := v } = c.owedTask slot ↔
    (c.readsFunction = true → v = slot.function) := by
  cases hpc : c.pc <;> cases hmsip : c.msip <;>
    simp [owedTask, readsFunction, hpc, hmsip, Task.ext_iff]

theorem owedTask_setArgs : c.owedTask { slot with args := v } = c.owedTask slot ↔
    (c.readsArgs = true → v = slot.args) := by
  cases hpc : c.pc <;> cases hmsip : c.msip <;>
    simp [owedTask, readsArgs, hpc, hmsip, Task.ext_iff]

end Core

/-- A store to a slot does not change a word its core has still to read. -/
def slotFree (s : State) : Instr → Prop
  | .setFunction h v => (s.core h).readsFunction = true → v = (s.mem.shared.slot h).function
  | .setArgs h v => (s.core h).readsArgs = true → v = (s.mem.shared.slot h).args
  | .setStack h v => (s.core h).readsStack = true → v = (s.mem.shared.slot h).stack
  | _ => True

instance (s : State) : DecidablePred (slotFree s)
  | .setFunction h v => inferInstanceAs (Decidable ((s.core h).readsFunction = true →
      v = (s.mem.shared.slot h).function))
  | .setArgs h v => inferInstanceAs (Decidable ((s.core h).readsArgs = true →
      v = (s.mem.shared.slot h).args))
  | .setStack h v => inferInstanceAs (Decidable ((s.core h).readsStack = true →
      v = (s.mem.shared.slot h).stack))
  | .setBootAddr _ => isTrue trivial
  | .setBootAddrPtr _ => isTrue trivial
  | .waitBusy _ => isTrue trivial
  | .fence => isTrue trivial
  | .interrupt _ _ => isTrue trivial

/-- The host writes only to slots that are free. -/
def SlotsFree (s : State) (a : Action) : Prop :=
  a = .host → ∀ i ∈ s.program.head?, slotFree s i

instance (s : State) (a : Action) : Decidable (SlotsFree s a) :=
  inferInstanceAs (Decidable (a = .host → ∀ i ∈ s.program.head?, slotFree s i))

/-- A store to one slot leaves what the other harts are owed. -/
theorem owedTask_store {d d' : SharedData} {h : Nat} (hh : h ∈ m.harts) (core : Nat → Core)
    (hne : ∀ h' : Nat, trampolineIdx h' ≠ trampolineIdx h → d'.slot h' = d.slot h') :
    (∀ h' ∈ m.harts, (core h').owedTask (d'.slot h') = (core h').owedTask (d.slot h')) ↔
    (core h).owedTask (d'.slot h) = (core h).owedTask (d.slot h) := by
  constructor
  · intro hall
    exact hall h hh
  · intro hself h' hh'
    by_cases heq : h' = h
    · exact heq ▸ hself
    · have hidx := SharedData.trampolineIdx_ne (m.mem_harts.mp hh').1 (m.mem_harts.mp hh).1 heq
      rw [hne h' hidx]

/-- The stores that leave every owed task alone are those to free slots. -/
theorem slotFree_iff {i : Instr} {quiet : Nat → Bool} (hr : i.Ready m s.mem quiet) :
    (∀ h ∈ m.harts, tasks.owed (s.core h) (i.store s.mem) h = tasks.owed (s.core h) s.mem h) ↔
    slotFree s i := by
  cases i with
  | setFunction h v =>
    refine (owedTask_store hr s.core
      (fun h' hne => SharedData.slot_setFunction_ne _ v hne)).trans ?_
    rw [SharedData.slot_setFunction_self]
    exact Core.owedTask_setFunction _ _ v
  | setArgs h v =>
    refine (owedTask_store hr s.core (fun h' hne => SharedData.slot_setArgs_ne _ v hne)).trans ?_
    rw [SharedData.slot_setArgs_self]
    exact Core.owedTask_setArgs _ _ v
  | setStack h v =>
    refine (owedTask_store hr s.core (fun h' hne => SharedData.slot_setStack_ne _ v hne)).trans ?_
    rw [SharedData.slot_setStack_self]
    exact Core.owedTask_setStack _ _ v
  | _ => exact ⟨fun _ => trivial, fun _ _ _ => rfl⟩

/-- Under the host's invariant, writing to free slots only is the same as
    leaving the tasks undisturbed. -/
theorem slotsFree_iff {a : Action} (hi : HostInv m calls s) :
    SlotsFree s a ↔ tasks.Undisturbed m s a := by
  have hiff : ∀ i ∈ s.program.head?, (slotFree s i ↔ ∀ h ∈ m.harts,
      tasks.owed (s.core h) (i.store s.mem) h = tasks.owed (s.core h) s.mem h) := by
    intro i hmem
    obtain ⟨rest, hprog⟩ := List.head?_eq_some_iff.mp hmem
    exact (slotFree_iff (hi.ready hprog)).symm
  constructor
  · intro hok ha i hmem
    exact (hiff i hmem).mp (hok ha i hmem)
  · intro hok ha i hmem
    exact (hiff i hmem).mpr (hok ha i hmem)

theorem tasks_undisturbed (hv : ∀ call ∈ calls, call.Valid m)
    (h : (offloadSystem m calls).ReachableUnder SlotsFree s) :
    HostInv m calls s ∧ (offloadSystem m calls).ReachableUnder (tasks.Undisturbed m) s := by
  induction h with
  | init hi => exact ⟨hostInv_init hv hi, .init hi⟩
  | step a _ hok hn ih =>
    exact ⟨hostInv_next ih.1 hn, .step a ih.2 ((slotsFree_iff ih.1).mp hok) hn⟩

theorem tasks_log_init (s : State) (hi : (offloadSystem m calls).init s) : tasks.log s = [] :=
  hi.2.2.2.2

/-- **Tasks are neither lost nor mixed**, for every sequence of calls, in
    every run in which the host writes a slot only when its core has read
    what is there. -/
theorem tasks_delivered (m : SocAddrMap) (calls : List Call)
    (hv : ∀ call ∈ calls, call.Valid m) (s : State)
    (h : (offloadSystem m calls).ReachableUnder SlotsFree s) : tasks.Delivers m calls s :=
  Channel.delivers_of_undisturbed tasks_lawful hv tasks_log_init (tasks_undisturbed hv h).2

/-- No weaker condition would do: if all runs of `calls` deliver their
    tasks, the host never writes to a slot that is not free. -/
theorem tasks_delivered_iff (hv : ∀ call ∈ calls, call.Valid m) :
    (∀ s, (offloadSystem m calls).Reachable s → tasks.Delivers m calls s) ↔
    (∀ s a s', (offloadSystem m calls).Reachable s →
      (offloadSystem m calls).next s a = some s' → SlotsFree s a) := by
  have hinv : ∀ s, (offloadSystem m calls).Reachable s → HostInv m calls s := fun s hs =>
    hs.invariant (fun s hi => hostInv_init hv hi) (fun s a s' hi hn => hostInv_next hi hn)
  rw [Channel.delivers_iff tasks_lawful hv tasks_log_init]
  constructor
  · intro hall s a s' hs hn
    exact (slotsFree_iff (hinv s hs)).mpr (hall s a s' hs hn)
  · intro hall s a s' hs hn
    exact (slotsFree_iff (hinv s hs)).mp (hall s a s' hs hn)

/-- A state from which the host starts to perform `calls`. -/
def startState (m : SocAddrMap) (calls : List Call) : State where
  program := calls.flatMap (Call.instrs m)
  mem := { shared := { trampoline_function := fun _ => 0, trampoline_args := fun _ => 0,
                       trampoline_stack := fun _ => 0 },
           snitchBootAddr := 0, snitchConfigurableBootAddr := 0 }
  core := fun _ => { msip := false, pc := .wfi }
  sent := []
  jumped := []
  ran := []

/-- Two tasks for core 0 of cluster 0, one after the other. -/
def twoTasks : List Call :=
  [.core 0x100 0x80 1 0x4000 0 0, .core 0x200 0x80 2 0x4000 0 0]

/-- When the first task has been picked up before the second call starts,
    both are run. -/
theorem twoTasks_delivered : ∃ s : State,
    entriesOf 1 s.ran = [⟨0x100, 1, 0x4000⟩, ⟨0x200, 2, 0x4000⟩] ∧
    tasks.Delivers chimeraConvolve twoTasks s := by
  have hs := System.reachableUnder_of_replay (offloadSystem chimeraConvolve twoTasks)
    SlotsFree (startState chimeraConvolve twoTasks)
    (List.replicate 6 .host ++ List.replicate 6 (.core 1) ++
     List.replicate 6 .host ++ List.replicate 6 (.core 1))
    ⟨rfl, fun _ => rfl, rfl, rfl, rfl⟩ rfl
  exact ⟨_, rfl, tasks_delivered chimeraConvolve twoTasks (by decide) _ hs⟩

/-- The second call overwrites the slot before it polls: the core that was
    sent the first task runs the second. -/
theorem twoTasks_mixed :
    ¬ ∀ s, (offloadSystem chimeraConvolve twoTasks).Reachable s →
      tasks.Delivers chimeraConvolve twoTasks s := by
  intro hall
  have hs := System.reachable_of_exec (offloadSystem chimeraConvolve twoTasks)
    (startState chimeraConvolve twoTasks)
    (List.replicate 6 .host ++ List.replicate 3 .host ++ List.replicate 5 (.core 1))
    ⟨rfl, fun _ => rfl, rfl, rfl, rfl⟩ rfl
  exact absurd ((hall _ hs).received 1 (by decide)) (by decide)

/-- So some run writes to a slot that is not free. -/
theorem twoTasks_slot_not_free :
    ¬ ∀ s a s', (offloadSystem chimeraConvolve twoTasks).Reachable s →
      (offloadSystem chimeraConvolve twoTasks).next s a = some s' → SlotsFree s a := by
  intro hfree
  have hs := System.reachable_of_exec (offloadSystem chimeraConvolve twoTasks)
    (startState chimeraConvolve twoTasks)
    (List.replicate 6 .host ++ List.replicate 3 .host ++ List.replicate 5 (.core 1))
    ⟨rfl, fun _ => rfl, rfl, rfl, rfl⟩ rfl
  have hdelivers := (tasks_delivered_iff (by decide)).mpr hfree _ hs
  exact absurd (hdelivers.received 1 (by decide)) (by decide)

/-! ## Section 9: Trampolines

    The boot-address register is shared by all clusters, while the poll
    of an offload covers one cluster only.  A core of another cluster that
    has not taken its interrupt yet starts at the wrong trampoline. -/

/-- A store to the boot-address register does not change it under a core
    that has been sent an interrupt and has not taken it. -/
def bootAddrTaken (m : SocAddrMap) (s : State) (i : Instr) : Prop :=
  ∀ h ∈ m.harts, (s.core h).msip = true → (i.store s.mem).snitchBootAddr = s.mem.snitchBootAddr

/-- The host changes the boot address only when every interrupt sent so
    far has been taken. -/
def BootAddrTaken (m : SocAddrMap) (s : State) (a : Action) : Prop :=
  a = .host → ∀ i ∈ s.program.head?, bootAddrTaken m s i

instance (m : SocAddrMap) (s : State) (a : Action) : Decidable (BootAddrTaken m s a) :=
  inferInstanceAs (Decidable (a = .host → ∀ i ∈ s.program.head?, ∀ h ∈ m.harts,
    (s.core h).msip = true → (i.store s.mem).snitchBootAddr = s.mem.snitchBootAddr))

theorem Core.owedJump_iff (c : Core) (bootAddr v : BitVec 32) :
    c.owedJump v = c.owedJump bootAddr ↔ (c.msip = true → v = bootAddr) := by
  cases hmsip : c.msip <;> simp [owedJump, hmsip]

theorem bootAddrTaken_iff {a : Action} :
    BootAddrTaken m s a ↔ trampolines.Undisturbed m s a := by
  constructor
  · intro hok ha i hmem h hh
    exact (Core.owedJump_iff _ _ _).mpr (hok ha i hmem h hh)
  · intro hok ha i hmem h hh
    exact (Core.owedJump_iff _ _ _).mp (hok ha i hmem h hh)

theorem trampolines_log_init (s : State) (hi : (offloadSystem m calls).init s) :
    trampolines.log s = [] :=
  hi.2.2.2.1

/-- **Each core starts at the trampoline of the call that woke it**, for
    every sequence of calls, in every run in which the host changes the
    boot address only when no interrupt is waiting to be taken. -/
theorem trampolines_delivered (m : SocAddrMap) (calls : List Call)
    (hv : ∀ call ∈ calls, call.Valid m) (s : State)
    (h : (offloadSystem m calls).ReachableUnder (BootAddrTaken m) s) :
    trampolines.Delivers m calls s :=
  Channel.delivers_of_undisturbed trampolines_lawful hv trampolines_log_init
    (h.mono (fun _ _ hok => bootAddrTaken_iff.mp hok))

/-- No weaker condition would do. -/
theorem trampolines_delivered_iff (hv : ∀ call ∈ calls, call.Valid m) :
    (∀ s, (offloadSystem m calls).Reachable s → trampolines.Delivers m calls s) ↔
    (∀ s a s', (offloadSystem m calls).Reachable s →
      (offloadSystem m calls).next s a = some s' → BootAddrTaken m s a) := by
  rw [Channel.delivers_iff trampolines_lawful hv trampolines_log_init]
  constructor
  · intro hall s a s' hs hn
    exact bootAddrTaken_iff.mpr (hall s a s' hs hn)
  · intro hall s a s' hs hn
    exact bootAddrTaken_iff.mp (hall s a s' hs hn)

/-- Two clusters, each with its own trampoline. -/
def twoClusters : List Call :=
  [.cluster 0x100 0x80 1 (fun _ => 0x4000) 0, .cluster 0x200 0x84 2 (fun _ => 0x5000) 1]

/-- When cluster 0 has taken its interrupts before cluster 1 is offloaded,
    each cluster starts at its own trampoline. -/
theorem twoClusters_delivered : ∃ s : State,
    entriesOf 1 s.jumped = [0x80] ∧ entriesOf 2 s.jumped = [0x80] ∧ entriesOf 3 s.jumped = [0x84] ∧
    trampolines.Delivers chimeraConvolve twoClusters s := by
  have hs := System.reachableUnder_of_replay (offloadSystem chimeraConvolve twoClusters)
    (BootAddrTaken chimeraConvolve) (startState chimeraConvolve twoClusters)
    (List.replicate 13 .host ++ [.core 1, .core 2] ++ List.replicate 7 .host ++ [.core 3])
    ⟨rfl, fun _ => rfl, rfl, rfl, rfl⟩ rfl
  exact ⟨_, rfl, rfl, rfl, trampolines_delivered chimeraConvolve twoClusters (by decide) _ hs⟩

/-- The offload to cluster 1 redirects core 1 of cluster 0. -/
theorem twoClusters_redirected :
    ¬ ∀ s, (offloadSystem chimeraConvolve twoClusters).Reachable s →
      trampolines.Delivers chimeraConvolve twoClusters s := by
  intro hall
  have hs := System.reachable_of_exec (offloadSystem chimeraConvolve twoClusters)
    (startState chimeraConvolve twoClusters)
    (List.replicate 13 .host ++ [.core 1] ++ List.replicate 5 .host ++ [.core 2])
    ⟨rfl, fun _ => rfl, rfl, rfl, rfl⟩ rfl
  exact absurd ((hall _ hs).received 2 (by decide)) (by decide)

/-- So some run changes the boot address under an interrupt. -/
theorem twoClusters_not_taken :
    ¬ ∀ s a s', (offloadSystem chimeraConvolve twoClusters).Reachable s →
      (offloadSystem chimeraConvolve twoClusters).next s a = some s' →
        BootAddrTaken chimeraConvolve s a := by
  intro htaken
  have hs := System.reachable_of_exec (offloadSystem chimeraConvolve twoClusters)
    (startState chimeraConvolve twoClusters)
    (List.replicate 13 .host ++ [.core 1] ++ List.replicate 5 .host ++ [.core 2])
    ⟨rfl, fun _ => rfl, rfl, rfl, rfl⟩ rfl
  have hdelivers := (trampolines_delivered_iff (by decide)).mpr htaken _ hs
  exact absurd (hdelivers.received 2 (by decide)) (by decide)

end Offload
