import ChimeraSdk.Framework.Log
import ChimeraSdk.Framework.Mutex
import ChimeraSdk.Framework.System
import Mathlib.Logic.Function.Basic

/-! # Character Output by Semihosting

    A core collects the characters it prints in a buffer of its own and
    flushes the buffer at a newline or when it is full.  A flush describes
    the buffer in a system-call record, takes a mutex, stores the record's
    address to the mailbox word `device_to_host`, raises the host's
    software interrupt, and spins on `host_to_device`, which it clears
    before it releases the mutex.

    On the other side the host polls `device_to_host` in its service loop,
    clears it, performs the call and answers.  The service loops of the
    repository differ in the word they answer on.

    Core identifiers `K` and cluster identifiers `C` are arbitrary types.
    The mutex of a cluster lives in that cluster's L1, so the cluster
    names its lock word; but the pointer to the mutex is one global
    variable of the device binary, and the mailbox is one for the SoC. -/

open LTS

namespace Putc

/-! ## Section 1: Buffers -/

/-- `PUTC_BUFFER_LEN`, where a `size_t` of the device has 4 bytes. -/
def PUTC_BUFFER_LEN : Nat := 1024 - 4

def SYS_WRITE : Nat := 64

/-- File descriptors a record can name. -/
inductive Stream where
  | stdout
  deriving DecidableEq, Repr

/-- `syscall_mem`: the system call, the stream, the core whose buffer
    holds the data, and its length. -/
structure SyscallMem (K : Type) where
  number : Nat
  stream : Stream
  buffer : K
  length : Nat
  deriving DecidableEq, Repr

/-- `putc_buffer_t`. -/
structure PutcBuffer (K : Type) where
  size : Nat
  syscall_mem : Option (SyscallMem K)
  data : Nat → Char

namespace PutcBuffer

variable {K : Type} (buf : PutcBuffer K)

/-- `buf->data[buf->hdr.size++] = c` -/
def push (c : Char) : PutcBuffer K :=
  { buf with size := buf.size + 1, data := Function.update buf.data buf.size c }

/-- The first `n` bytes of the buffer. -/
def bytes (n : Nat) : List Char := (List.range n).map buf.data

/-- The four words a flush writes to the record of core `k`. -/
def describe (k : K) : PutcBuffer K :=
  { buf with
    syscall_mem := some { number := SYS_WRITE, stream := .stdout, buffer := k,
                          length := buf.size } }

def reset : PutcBuffer K := { buf with size := 0 }

/-- The test for a flush, after `c` has been stored. -/
def flushes (c : Char) : Bool := buf.size == PUTC_BUFFER_LEN || c == '\n'

end PutcBuffer

/-! ## Section 2: The parties -/

/-- The program points of `snrt_putchar`.  `spin` and `unlock` hold the
    mutex pointer their core has loaded. -/
inductive CorePc (C : Type) where
  | putchar
  | test (c : Char)
  | describe
  | acquire
  | spin (mutex : C)
  | post
  | msip
  | wait
  | clear
  | reset
  | release
  | unlock (mutex : C)
  deriving DecidableEq, Repr

/-- The program points of `snrt_printf_init` on a cluster's DM core. -/
inductive InitPc (C : Type) where
  | alloc
  | load
  | zero (mutex : C)
  | done
  deriving DecidableEq, Repr

/-- The program points of the host's service loop. -/
inductive HostPc (C K : Type) where
  | top
  | count (ids : List C)
  | deadline
  | poll
  | load
  | ack (syscall_addr : K)
  | fetch (syscall_addr : K)
  | dispatch (syscall_addr syscall_buf : K)
  | notify (syscall_addr : K)
  | sleep
  | left
  deriving DecidableEq, Repr

/-- The mailbox word a service loop answers on. -/
inductive Answer where
  | device_to_host
  | host_to_device
  deriving DecidableEq, Repr

/-- The fixed parts of a run: which cluster a core belongs to, the
    clusters the host waits for, and the service loop it runs. -/
structure Config (C K : Type) where
  clusterOf  : K → C
  clusterIds : List C
  answer     : Answer

/-- The state of the SoC.  A mailbox word is the address of a core's
    record, which the core stands for, or zero.

    The last five fields observe the run: the request the host has
    serviced and its core has not taken notice of yet, whether there is a
    request the host has not read, whether such a request has been
    overwritten, and the buffers flushed and written so far. -/
structure State (C K : Type) where
  core : K → CorePc C
  text : K → List Char
  buf  : K → PutcBuffer K
  init : C → InitPc C
  mutexPtr : Option C
  lock : C → Bool
  device_to_host : Option K
  host_to_device : Option K
  msip : Bool
  host : HostPc C K
  done : Nat
  serviced : Option K
  unread   : Bool
  overwritten : Bool
  flushed : List (K × List Char)
  written : List (K × List Char)

variable {C K : Type} [DecidableEq C] [DecidableEq K]

namespace State

variable (s : State C K)

def setCore (k : K) (pc : CorePc C) : State C K :=
  { s with core := Function.update s.core k pc }

def setInit (c : C) (pc : InitPc C) : State C K :=
  { s with init := Function.update s.init c pc }

def setBuf (k : K) (buf : PutcBuffer K) : State C K :=
  { s with buf := Function.update s.buf k buf }

def setLock (c : C) (taken : Bool) : State C K :=
  { s with lock := Function.update s.lock c taken }

/-- One step of core `k`.  A core prints after its cluster has been
    initialised.  The mutex is a lock word that is taken by an atomic
    test-and-set and released by a store; a core that spins, on the lock
    or on the mailbox, is a core whose step is not enabled. -/
def coreStep (cfg : Config C K) (k : K) : Option (State C K) :=
  if s.init (cfg.clusterOf k) ≠ .done then none
  else match s.core k with
  | .putchar =>
      match s.text k with
      | [] => none
      | c :: rest =>
          some { (s.setBuf k ((s.buf k).push c)).setCore k (.test c) with
            text := Function.update s.text k rest }
  | .test c =>
      if (s.buf k).flushes c then some (s.setCore k .describe) else some (s.setCore k .putchar)
  | .describe =>
      some { (s.setBuf k ((s.buf k).describe k)).setCore k .acquire with
        flushed := s.flushed ++ [(k, (s.buf k).bytes (s.buf k).size)] }
  | .acquire =>
      -- the global pointer is read here and once more in `release`
      match s.mutexPtr with
      | none => none
      | some mutex => some (s.setCore k (.spin mutex))
  | .spin mutex =>
      if s.lock mutex then none else some ((s.setLock mutex true).setCore k .post)
  | .post =>
      some { s.setCore k .msip with
        device_to_host := some k, overwritten := s.overwritten || s.unread, unread := true }
  | .msip => some { s.setCore k .wait with msip := true }
  -- `while (shared_data.host_to_device == 0);`
  | .wait => if s.host_to_device.isNone then none else some (s.setCore k .clear)
  | .clear => some { s.setCore k .reset with host_to_device := none, serviced := none }
  | .reset => some ((s.setBuf k (s.buf k).reset).setCore k .release)
  | .release =>
      match s.mutexPtr with
      | none => none
      | some mutex => some (s.setCore k (.unlock mutex))
  | .unlock mutex => some ((s.setLock mutex false).setCore k .putchar)

/-- One step of `snrt_printf_init` in cluster `c`: the pointer is stored,
    loaded again, and the word it points to is cleared. -/
def initStep (c : C) : Option (State C K) :=
  match s.init c with
  | .alloc => some { s.setInit c .load with mutexPtr := some c }
  | .load =>
      match s.mutexPtr with
      | none => none
      -- `*_snrt_printf_mutex_ptr = 0` goes through the global, not through
      -- the address just allocated
      | some mutex => some (s.setInit c (.zero mutex))
  | .zero mutex => some ((s.setLock mutex false).setInit c .done)
  | .done => none

/-- One step of the service loop of the host.  `busy` is what the busy
    register reads, should this step read it. -/
def hostStep (cfg : Config C K) (busy : Bool) : Option (State C K) :=
  match s.host with
  | .top =>
      if s.done ≠ cfg.clusterIds.length then
        some { s with host := .count cfg.clusterIds, done := 0 }
      else some { s with host := .left }
  | .count [] => some { s with host := .deadline }
  | .count (_ :: ids) =>
      -- one read of a busy register
      some { s with host := .count ids, done := s.done + if busy then 0 else 1 }
  -- a run without a timeout: the comparison answers no
  | .deadline => some { s with host := .poll }
  | .poll => some { s with host := if s.device_to_host.isSome then .load else .sleep }
  | .load =>
      match s.device_to_host with
      | none => none
      | some k => some { s with host := .ack k, unread := false }
  | .ack k => some { s with host := .fetch k, device_to_host := none }
  | .fetch k =>
      match (s.buf k).syscall_mem with
      | none => none
      | some mem => some { s with host := .dispatch k mem.buffer }
  | .dispatch k k' =>
      -- the record is read again for the number and the length
      match (s.buf k).syscall_mem with
      | none => none
      | some mem =>
          if mem.number = SYS_WRITE then
            some { s with host := .notify k,
                          written := s.written ++ [(k, (s.buf k').bytes mem.length)] }
          else some { s with host := .notify k }
  | .notify k =>
      match cfg.answer with
      | .device_to_host =>
          some { s with host := .sleep, device_to_host := some k, serviced := some k }
      | .host_to_device =>
          some { s with host := .sleep, host_to_device := some k, serviced := some k }
  | .sleep => some { s with host := .top }
  | .left => none

end State

/-- Who moves. -/
inductive Action (C K : Type) where
  | core (k : K)
  | init (c : C)
  | host (busy : Bool)
  deriving DecidableEq, Repr

def next (cfg : Config C K) (s : State C K) : Action C K → Option (State C K)
  | .core k => s.coreStep cfg k
  | .init c => s.initStep c
  | .host busy => s.hostStep cfg busy

/-- Before the first character: the buffers are empty, the mailbox is
    clear and the host is about to enter its loop. -/
structure Fresh (s : State C K) : Prop where
  core     : ∀ k, s.core k = .putchar
  buf      : ∀ k, (s.buf k).size = 0
  mailbox  : s.device_to_host = none ∧ s.host_to_device = none
  host     : s.host = .top ∧ s.done = 0
  observed : s.serviced = none ∧ s.unread = false ∧ s.overwritten = false ∧
    s.flushed = [] ∧ s.written = []

/-! ## Section 3: Views

    The protocol has two halves that hardly touch.  What a core means to
    the mutex and what it means to the mailbox are two views of its
    program counter, and most steps change neither. -/

/-- What a core means to the mutex. -/
def CorePc.mutexView : CorePc C → Mutex.View C
  | .putchar | .test _ | .describe | .acquire => .outside
  | .spin mutex => .spinning mutex
  | .post | .msip | .wait | .clear | .reset | .release => .holding
  | .unlock mutex => .leaving mutex

def State.mutexView (s : State C K) (k : K) : Mutex.View C := (s.core k).mutexView

/-- The core is between the return of `snrt_mutex_ttas_acquire` and its
    `snrt_mutex_release`. -/
def CorePc.inSection (pc : CorePc C) : Bool := pc.mutexView.inSection

/-- The core has loaded the mutex pointer to acquire the mutex and has not
    released it. -/
def CorePc.usesMutex (pc : CorePc C) : Bool := pc.mutexView != .outside

/-- The core has posted a request and has not seen the answer. -/
def CorePc.awaits : CorePc C → Bool
  | .msip | .wait => true
  | _ => false

/-- The core has closed a buffer that has not been acknowledged to it. -/
def CorePc.flushing : CorePc C → Bool
  | .acquire | .spin _ | .post | .msip | .wait => true
  | _ => false

/-- The core is about to see the answer or to clear it. -/
def CorePc.answerable : CorePc C → Bool
  | .msip | .wait | .clear => true
  | _ => false

omit [DecidableEq C] in
theorem CorePc.answerable_of_awaits {pc : CorePc C} (h : pc.awaits = true) :
    pc.answerable = true := by
  cases pc <;> first | rfl | cases h

omit [DecidableEq C] in
theorem CorePc.flushing_of_awaits {pc : CorePc C} (h : pc.awaits = true) :
    pc.flushing = true := by
  cases pc <;> first | rfl | cases h

omit [DecidableEq C] in
theorem CorePc.inSection_of_answerable {pc : CorePc C} (h : pc.answerable = true) :
    pc.inSection = true := by
  cases pc <;> first | rfl | cases h

/-- The request the host is serving. -/
def HostPc.serving : HostPc C K → Option K
  | .ack k | .fetch k | .dispatch k _ | .notify k => some k
  | _ => none

/-- The host has cleared `device_to_host` and has not answered yet. -/
def HostPc.acked : HostPc C K → Bool
  | .fetch _ | .dispatch _ _ | .notify _ => true
  | _ => false

omit [DecidableEq C] [DecidableEq K] in
theorem HostPc.acked_of_not_serving {pc : HostPc C K} (h : pc.serving = none) :
    pc.acked = false := by
  cases pc <;> simp_all [serving, acked]

end Putc
