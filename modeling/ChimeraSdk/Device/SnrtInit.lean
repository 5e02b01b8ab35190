import ChimeraSdk.Device.Snrt
import ChimeraSdk.Framework.OwnView
import ChimeraSdk.Target.ClusterInit

/-! # Running the Initialisation

    All cores of a cluster run `snrt_init`.  Each core lays out its own
    thread-local storage, while the core of the DMA engine fills the memory
    of the cluster by transfers and stores the allocators meanwhile.  Once
    the transfers are done it allocates the mutex of `printf` from what it
    finds in the allocator.  A barrier keeps the cores from going on before
    all of it is done.

    Nobody else stores to the allocator, so where the mutex lies is known
    beforehand. -/

open Cluster ByteMemory Align Soc
open LinkLd (ClsSymbols TlsSymbols address base_l1_alias clusterBase)

namespace Snrt

/-! ## Section 1: The program -/

/-- Where the fields of an allocator lie. -/
structure AllocatorFields where
  base : Nat
  end_ : Nat
  next : Nat

/-- What `snrt_init` reads on a cluster: the linker symbols, the pointers to
    the thread-local storage, and what the runtime of the cluster provides.
    From the fields of the allocator and a size, `snrt_l1_alloc` gives the
    pointer that is returned and the `next` that is left. -/
structure InitArgs (numThreads : Nat) where
  cluster_idx : ClusterId
  cls : ClsSymbols
  tls : TlsSymbols
  tls_ptr : Core numThreads → BitVec 32
  cdata_lma_start : Nat
  zero_memory : Nat
  cls_ptr : Nat
  sizeof_cls : Nat
  MIN_CHUNK_SIZE : Nat
  l1_allocator : AllocatorFields
  l1_end_addr : Nat
  l3_allocator : AllocatorFields
  l3_heap_start : Nat
  l3_heap_end : Nat
  snrt_l1_alloc : (base end_ next size : Nat) → Nat × Nat
  printf_mutex_ptr : Nat

variable {L : Type} {numThreads : Nat}

/-- Stores a zero byte. -/
def clearByte (dst : Nat) (m : Mem × L) : Mem × L := (Function.update m.1 dst 0, m.2)

def memcpy (dst src n : Nat) : List (Op L) := (transfer dst src n).map .act

/-- `memset(dst, 0, n)` -/
def memset (dst n : Nat) : List (Op L) :=
  ((List.range n).map fun i => clearByte (dst + i)).map .act

def startUnlessEmpty [Runtime] (dst src size : Nat) : List (Op L) :=
  if size ≠ 0 then [snrt_dma_start_1d dst src size] else []

namespace InitArgs

variable (x : InitArgs numThreads)

def size_tdata : Nat := (address x.tls.tdataEnd - address x.tls.tdataStart).toNat

def size_tbss : Nat := (address x.tls.tbssEnd - address x.tls.tbssStart).toNat

/-- `tls_ptr + tbss_off` -/
def tbss_ptr (k : Core numThreads) : Nat :=
  (x.tls_ptr k + (address x.tls.tbssStart - address x.tls.tdataStart)).toNat

def size_l1 : Nat := (address x.cls.l1LmaEnd - address x.cls.l1LmaStart).toNat

def l1_start : Nat := (address x.cls.l1Start).toNat

def size_cdata : Nat := (address x.cls.cdataEnd - address x.cls.cdataStart).toNat

def cdata_local_start : Nat :=
  (address x.cls.cdataStart - address base_l1_alias + address (clusterBase x.cluster_idx)).toNat

def size_cbss : Nat := (address x.cls.cbssEnd - address x.cls.cbssStart).toNat

def cbss_local_start : Nat :=
  (address x.cls.cbssStart - address base_l1_alias + address (clusterBase x.cluster_idx)).toNat

def l1_base : Nat := alignUp (x.cls.heapStart + x.sizeof_cls) x.MIN_CHUNK_SIZE

def l3_base : Nat := alignUp x.l3_heap_start x.MIN_CHUNK_SIZE

/-- The words that the core of the DMA engine stores: the pointer to the
    cluster-local storage, and the fields of the allocators. -/
def cells : List (Nat × Nat) :=
  [(x.cls_ptr, x.cls.heapStart),
    (x.l1_allocator.base, x.l1_base), (x.l1_allocator.end_, x.l1_end_addr),
    (x.l1_allocator.next, x.l1_base),
    (x.l3_allocator.base, x.l3_base), (x.l3_allocator.end_, x.l3_heap_end),
    (x.l3_allocator.next, x.l3_base)]

def storeCell (cell : Nat × Nat) : Mem × L → Mem × L := (Store.mk cell.1 4 fun _ => cell.2).run

/-- `snrt_l1_alloc(sizeof(uint32_t))`, from the allocator as memory has it. -/
def allocWord (m : Mem) : Nat × Nat :=
  x.snrt_l1_alloc (load m x.l1_allocator.base 4) (load m x.l1_allocator.end_ 4)
    (load m x.l1_allocator.next 4) 4

/-- `_snrt_printf_mutex_ptr = snrt_l1_alloc(sizeof(uint32_t))` -/
def allocMutex (m : Mem × L) : Mem × L :=
  storeCell (x.printf_mutex_ptr, (x.allocWord m.1).1)
    (storeCell (x.l1_allocator.next, (x.allocWord m.1).2) m)

/-- `*_snrt_printf_mutex_ptr = 0` -/
def clearMutex (m : Mem × L) : Mem × L := storeCell (load m.1 x.printf_mutex_ptr 4, 0) m

def snrt_printf_init : List (Op L) := [.act x.allocMutex, .act x.clearMutex]

/-- What the core of the DMA engine does besides, up to its wait. -/
def clusterInit [Runtime] : List (Op L) :=
  startUnlessEmpty x.l1_start x.cls.l1LmaStart x.size_l1 ++
  (startUnlessEmpty x.cdata_local_start x.cdata_lma_start x.size_cdata ++
  (startUnlessEmpty x.cbss_local_start x.zero_memory x.size_cbss ++
  (((x.cells).map storeCell).map .act ++ [snrt_dma_wait_all])))

/-- What a core does in front of the barrier. -/
def beforeBarrier [Runtime] (k : Core numThreads) : List (Op L) :=
  memcpy (x.tls_ptr k).toNat x.tls.tdataStart x.size_tdata ++
  (memset (x.tbss_ptr k) x.size_tbss ++
    if snrt_is_dm_core k then x.clusterInit ++ x.snrt_printf_init else [])

def snrt_init [Runtime] (k : Core numThreads) : List (Op L) :=
  x.beforeBarrier k ++ [snrt_cluster_hw_barrier]

/-! ## Section 2: What it lays out -/

/-- The thread-local storage of a core. -/
def tlsPieces (mem : Mem) (k : Core numThreads) : List Piece :=
  [⟨(x.tls_ptr k).toNat, x.size_tdata, fun i => mem (x.tls.tdataStart + i)⟩,
    ⟨x.tbss_ptr k, x.size_tbss, fun _ => 0⟩]

def cellPiece (cell : Nat × Nat) : Piece := ⟨cell.1, 4, fun j => UInt8.ofNat (cell.2 / 256 ^ j)⟩

/-- The mutex and the `next` behind it, from the allocator as it is stored. -/
def mutex : Nat × Nat :=
  x.snrt_l1_alloc (x.l1_base % 2 ^ 32) (x.l1_end_addr % 2 ^ 32) (x.l1_base % 2 ^ 32) 4

/-- The words that `snrt_printf_init` leaves: the `next` that has moved on,
    the pointer to the mutex and the mutex itself. -/
def printfCells : List (Nat × Nat) :=
  [(x.l1_allocator.next, x.mutex.2), (x.printf_mutex_ptr, x.mutex.1), (x.mutex.1 % 2 ^ 32, 0)]

/-- The words in front of the `next` that moves on, and those behind it. -/
def firstCells : List (Nat × Nat) :=
  [(x.cls_ptr, x.cls.heapStart),
    (x.l1_allocator.base, x.l1_base), (x.l1_allocator.end_, x.l1_end_addr)]

def l3Cells : List (Nat × Nat) :=
  [(x.l3_allocator.base, x.l3_base), (x.l3_allocator.end_, x.l3_heap_end),
    (x.l3_allocator.next, x.l3_base)]

/-- The words as they are left. -/
def laidCells : List (Nat × Nat) := x.firstCells ++ x.l3Cells ++ x.printfCells

/-- What is not filled by transfers. -/
def corePieces (mem : Mem) : List Piece :=
  (List.finRange (numThreads + 1)).flatMap (x.tlsPieces mem) ++ x.laidCells.map cellPiece

def l1Piece (mem : Mem) : Piece := ⟨x.l1_start, x.size_l1, fun i => mem (x.cls.l1LmaStart + i)⟩

def cdataPiece (mem : Mem) : Piece :=
  ⟨x.cdata_local_start, x.size_cdata, fun i => mem (x.cdata_lma_start + i)⟩

def cbssPiece : Piece := ⟨x.cbss_local_start, x.size_cbss, fun _ => 0⟩

def pieces (mem : Mem) : List Piece :=
  x.corePieces mem ++ [x.l1Piece mem, x.cdataPiece mem, x.cbssPiece]

/-- The `n` bytes at `src` are not written. -/
def Unwritten (src n : Nat) : Prop :=
  ∀ mem, ∀ p ∈ x.pieces mem, ∀ i, i < n → ¬ p.Has (src + i)

/-- What the initialisation relies on: what the cores store themselves lies
    apart from each other and from what the transfers fill, and nothing is
    written to where the data come from. -/
structure Placed (x : InitArgs numThreads) : Prop where
  cores : ∀ mem, (x.corePieces mem).Pairwise Piece.Apart
  cluster : ∀ mem, ∀ p ∈ x.corePieces mem,
    ∀ q ∈ [x.l1Piece mem, x.cdataPiece mem, x.cbssPiece], p.Apart q
  tdata : x.Unwritten x.tls.tdataStart x.size_tdata
  l1 : x.Unwritten x.cls.l1LmaStart x.size_l1
  cdata : x.Unwritten x.cdata_lma_start x.size_cdata
  zeros : x.Unwritten x.zero_memory x.size_cbss

/-- The zero memory reads as zero. -/
def Zeros (x : InitArgs numThreads) (mem : Mem) : Prop :=
  ∀ i, i < x.size_cbss → mem (x.zero_memory + i) = 0

/-- What the cores find behind the barrier. -/
structure Initialised (x : InitArgs numThreads) (mem : Mem) (m : Mem) : Prop where
  tdata : ∀ k i, i < x.size_tdata → m ((x.tls_ptr k).toNat + i) = mem (x.tls.tdataStart + i)
  tbss : ∀ k i, i < x.size_tbss → m (x.tbss_ptr k + i) = 0
  l1 : ∀ i, i < x.size_l1 → m (x.l1_start + i) = mem (x.cls.l1LmaStart + i)
  cdata : ∀ i, i < x.size_cdata → m (x.cdata_local_start + i) = mem (x.cdata_lma_start + i)
  cbss : ∀ i, i < x.size_cbss → m (x.cbss_local_start + i) = 0
  cells : ∀ cell ∈ x.laidCells, load m cell.1 4 = cell.2 % 2 ^ 32
  outside : ∀ a, (∀ p ∈ x.pieces mem, ¬ p.Has a) → m a = mem a

/-- With any data in memory, every run ends and finds everything set up. -/
def Works [Runtime] (x : InitArgs numThreads) (l : L) : Prop :=
  ∀ mem, x.Zeros mem →
    system.Terminates (initial x.snrt_init (mem, l)) ∧
    (∀ s, Reaches x.snrt_init (mem, l) s → system.Stuck s → Finished s) ∧
    ∀ m, Ends x.snrt_init (mem, l) m → x.Initialised mem m.1

/-! ## Section 3: Work -/

variable {x} {mem : Mem} {l : L} {m : Mem × L}

/-- The store of the `next` that the allocation overwrites. -/
def storeNext (x : InitArgs numThreads) : Mem × L → Mem × L :=
  storeCell (x.l1_allocator.next, x.l1_base)

/-- What a core does in front of the barrier, with `tail` behind the wait. -/
def withTail (x : InitArgs numThreads) (tail : List (Mem × L → Mem × L)) (k : Core numThreads) :
    List (Op L) :=
  memcpy (x.tls_ptr k).toNat x.tls.tdataStart x.size_tdata ++
  (memset (x.tbss_ptr k) x.size_tbss ++
    if snrt_is_dm_core k then x.clusterInit ++ tail.map .act else [])

/-- The same with the mutex where it turns out to lie. -/
abbrev settled (x : InitArgs numThreads) (k : Core numThreads) : List (Op L) :=
  x.withTail (x.printfCells.map storeCell) k

/-- The words that `snrt_printf_init` reads. -/
def printfReads (x : InitArgs numThreads) : List Nat :=
  [x.l1_allocator.base, x.l1_allocator.end_, x.l1_allocator.next, x.printf_mutex_ptr]

/-- The address lies in one of them. -/
def IsRead (x : InitArgs numThreads) (a : Nat) : Prop := ∃ c ∈ x.printfReads, c ≤ a ∧ a < c + 4

/-- What memory has there. -/
def view (x : InitArgs numThreads) (m : Mem × L) : {a // x.IsRead a} → UInt8 := fun a => m.1 a

section View

variable {m m' : Mem × L}

end View

/-- The words are among those that are laid out, -/
theorem IsRead.has {a : Nat} (h : x.IsRead a) : ∃ cell ∈ x.laidCells, (cellPiece cell).Has a := by
  obtain ⟨c, hc, hin⟩ := h
  simp only [printfReads, List.mem_cons, List.not_mem_nil, or_false] at hc
  obtain rfl | rfl | rfl | rfl := hc
  · exact ⟨(_, x.l1_base), by simp [laidCells, firstCells], hin⟩
  · exact ⟨(_, x.l1_end_addr), by simp [laidCells, firstCells], hin⟩
  · exact ⟨(_, x.mutex.2), by simp [laidCells, printfCells], hin⟩
  · exact ⟨(_, x.mutex.1), by simp [laidCells, printfCells], hin⟩

end InitArgs

end Snrt
