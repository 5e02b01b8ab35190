import ChimeraSdk.Framework.Align
import ChimeraSdk.Framework.ByteMemory
import ChimeraSdk.Framework.FreeList
import ChimeraSdk.Framework.System

/-! # The Memory Island Allocator

    `region_malloc` searches a free list first-fit and otherwise carves a
    block off the bump region; `region_free` puts a block at the head of
    the free list.  Links and sizes live in headers in front of the
    payloads, in the same memory the clients write to.  All of `size_t`
    and pointer arithmetic is modulo the word size.

    The system below runs any sequence of calls, together with clients
    that write to the bytes they have asked for.  What can go wrong is the
    two unchecked additions, `size + sizeof(MemoryBlock)` rounded up, and
    the bump pointer plus the result: a request near the word limit wraps
    around and is granted. -/

open LTS ByteMemory

namespace Alloc

/-! ## Section 1: Machine words -/

/-- The two pointer widths of the hosts. -/
inductive Xlen where
  | rv32
  | rv64
  deriving DecidableEq, Repr

namespace Xlen

/-- Bytes of a word. -/
def bytes : Xlen → Nat
  | .rv32 => 4
  | .rv64 => 8

def bits (x : Xlen) : Nat := 8 * x.bytes

/-- `size_t` and pointers are numbers below this one. -/
def modulus (x : Xlen) : Nat := 2 ^ x.bits

theorem modulus_eq (x : Xlen) : x.modulus = 256 ^ x.bytes := by
  cases x <;> rfl

end Xlen

variable (x : Xlen)

theorem modulus_pos : 0 < x.modulus := by
  cases x <;> decide

/-- `sizeof(MemoryBlock)`: a link and a size. -/
def sizeofMemoryBlock : Nat := 2 * x.bytes

theorem sizeof_pos : 0 < sizeofMemoryBlock x := by
  cases x <;> decide

/-- The link and the size of a header. -/
theorem sizeofMemoryBlock_eq : sizeofMemoryBlock x = x.bytes + x.bytes :=
  Nat.two_mul _

def ALLOC_ALIGNMENT : Nat := 4

/-- `ALLOC_ALIGN(size)`: `~(ALLOC_ALIGNMENT - 1)` is a mask of all but the
    two low bits. -/
def ALLOC_ALIGN (size : Nat) : Nat :=
  ((size + (ALLOC_ALIGNMENT - 1)) % x.modulus) &&& (x.modulus - ALLOC_ALIGNMENT)

/-- The bytes a block for `size` takes, with its header: what `ALLOC_ALIGN`
    computes when nothing wraps around. -/
def totalSize (size : Nat) : Nat := Align.alignUp (size + sizeofMemoryBlock x) ALLOC_ALIGNMENT

theorem ALLOC_ALIGN_eq (size : Nat) (h : size + (ALLOC_ALIGNMENT - 1) < x.modulus) :
    ALLOC_ALIGN x size = Align.alignUp size ALLOC_ALIGNMENT := by
  have hmask := Align.and_mask x.bits 2 (size + (ALLOC_ALIGNMENT - 1))
    (by cases x <;> decide) h
  rw [ALLOC_ALIGN, Nat.mod_eq_of_lt h, Align.alignUp_eq_sub_mod]
  exact hmask

theorem totalSize_mod (size : Nat) : totalSize x size % ALLOC_ALIGNMENT = 0 :=
  Align.alignUp_mod _ _

/-- Below the top of the address space, neither the size of a block nor
    its end wraps around. -/
theorem no_wrap_of_lt {bump size : Nat}
    (hsize : size + sizeofMemoryBlock x + (ALLOC_ALIGNMENT - 1) < x.modulus)
    (hbump : bump + totalSize x size < x.modulus) :
    ALLOC_ALIGN x ((size + sizeofMemoryBlock x) % x.modulus) = totalSize x size ∧
    (bump + totalSize x size) % x.modulus = bump + totalSize x size := by
  refine ⟨?_, Nat.mod_eq_of_lt hbump⟩
  rw [Nat.mod_eq_of_lt (a := size + sizeofMemoryBlock x) (by omega), ALLOC_ALIGN_eq x _ hsize]
  rfl

/-! ## Section 2: The allocator -/

/-- The memory with the two static variables of `alloc.c`. -/
structure Heap where
  mem : Mem
  heap_start : Nat
  freelist : Nat

namespace Heap

variable (h : Heap)

/-- `b->next` -/
def next (b : Nat) : Nat := load h.mem b x.bytes

/-- `b->size` -/
def size (b : Nat) : Nat := load h.mem (b + x.bytes) x.bytes

def setNext (b v : Nat) : Heap := { h with mem := store h.mem b v x.bytes }

def setSize (b v : Nat) : Heap := { h with mem := store h.mem (b + x.bytes) v x.bytes }

/-- `*prev = v`, where `prev` points to the free-list variable or to the
    link of a block. -/
def setLink : Option Nat → Nat → Heap
  | none, v => { h with freelist := v }
  | some b, v => h.setNext x b v

end Heap

/-! ### Headers -/

section headers

variable {x}

/-- Two headers share no byte. -/
def HeadersApart (x : Xlen) (b c : Nat) : Prop :=
  b + sizeofMemoryBlock x ≤ c ∨ c + sizeofMemoryBlock x ≤ b

theorem HeadersApart.symm {b c : Nat} (h : HeadersApart x b c) : HeadersApart x c b := Or.symm h

namespace Heap

variable {h : Heap} {b c v : Nat}

theorem next_lt (x : Xlen) (h : Heap) (b : Nat) : h.next x b < x.modulus :=
  x.modulus_eq ▸ load_lt _ _ _

theorem next_setNext_self (hv : v < x.modulus) : (h.setNext x b v).next x b = v :=
  load_store_self (x.modulus_eq ▸ hv)

theorem next_setNext (hbc : HeadersApart x b c) :
    (h.setNext x b v).next x c = h.next x c := by
  have hbytes := sizeofMemoryBlock_eq x
  unfold HeadersApart at hbc
  exact load_store_of_disjoint (by omega)

/-- The link of a block is not part of any size. -/
theorem size_setNext (hbc : b = c ∨ HeadersApart x b c) :
    (h.setNext x b v).size x c = h.size x c := by
  have hbytes := sizeofMemoryBlock_eq x
  unfold HeadersApart at hbc
  exact load_store_of_disjoint (by omega)

theorem next_setSize (hbc : HeadersApart x b c) :
    (h.setSize x b v).next x c = h.next x c := by
  have hbytes := sizeofMemoryBlock_eq x
  unfold HeadersApart at hbc
  exact load_store_of_disjoint (by omega)

theorem size_setSize (hbc : HeadersApart x b c) :
    (h.setSize x b v).size x c = h.size x c := by
  have hbytes := sizeofMemoryBlock_eq x
  unfold HeadersApart at hbc
  exact load_store_of_disjoint (by omega)

theorem size_setSize_self (hv : v < x.modulus) : (h.setSize x b v).size x b = v :=
  load_store_self (x.modulus_eq ▸ hv)

/-- Storing to the link before a block, or to the list variable. -/
theorem next_setLink {prev : Option Nat} (hprev : ∀ b, prev = some b → HeadersApart x b c) :
    (h.setLink x prev v).next x c = h.next x c := by
  cases prev with
  | none => rfl
  | some b => exact next_setNext (hprev b rfl)

theorem size_setLink {prev : Option Nat} (hprev : ∀ b, prev = some b → b = c ∨ HeadersApart x b c) :
    (h.setLink x prev v).size x c = h.size x c := by
  cases prev with
  | none => rfl
  | some b => exact size_setNext (hprev b rfl)

theorem setLink_heap_start {prev : Option Nat} :
    (h.setLink x prev v).heap_start = h.heap_start := by
  cases prev <;> rfl

end Heap

end headers

/-- Where the pointer `region_malloc` returns comes from. -/
inductive Outcome where
  | reused (b : Nat)
  | carved (b : Nat)
  | null
  deriving DecidableEq, Repr

/-- The pointer returned: `b + 1`, or NULL. -/
def Outcome.ptr : Outcome → Nat
  | .reused b => (b + sizeofMemoryBlock x) % x.modulus
  | .carved b => (b + sizeofMemoryBlock x) % x.modulus
  | .null => 0

/-- `region_malloc`, or `none` when the search does not end.  A search that
    ends visits each address once at most. -/
def region_malloc (end_ : Nat) (h : Heap) (size : Nat) : Option (Heap × Outcome) :=
  -- both additions are on `size_t` and unchecked
  let total_size := ALLOC_ALIGN x ((size + sizeofMemoryBlock x) % x.modulus)
  match FreeList.firstFit (h.next x) (h.size x) size x.modulus none h.freelist with
  | none => none
  | some (some (prev, curr)) => some (h.setLink x prev (h.next x curr), .reused curr)
  | some none =>
      -- `(uintptr_t)*ptr + total_size > (uintptr_t)end`
      if (h.heap_start + total_size) % x.modulus > end_ then some (h, .null)
      else
        some ({ h.setSize x h.heap_start size with
                heap_start := (h.heap_start + total_size) % x.modulus },
              .carved h.heap_start)

section search

variable {x} {end_ size : Nat} {h : Heap}

/-- A search without result falls through to the bump region. -/
theorem region_malloc_bump
    (hsearch : FreeList.firstFit (h.next x) (h.size x) size x.modulus none h.freelist =
      some none)
    (hle : (h.heap_start + ALLOC_ALIGN x ((size + sizeofMemoryBlock x) % x.modulus)) % x.modulus
      ≤ end_) :
    region_malloc x end_ h size =
      some ({ h.setSize x h.heap_start size with
              heap_start := (h.heap_start +
                ALLOC_ALIGN x ((size + sizeofMemoryBlock x) % x.modulus)) % x.modulus },
            .carved h.heap_start) := by
  simp only [region_malloc, hsearch]
  rw [if_neg (Nat.not_lt.mpr hle)]

theorem region_malloc_null
    (hsearch : FreeList.firstFit (h.next x) (h.size x) size x.modulus none h.freelist =
      some none)
    (hlt : end_ <
      (h.heap_start + ALLOC_ALIGN x ((size + sizeofMemoryBlock x) % x.modulus)) % x.modulus) :
    region_malloc x end_ h size = some (h, .null) := by
  simp only [region_malloc, hsearch]
  rw [if_pos hlt]

theorem region_malloc_reused {prev : Option Nat} {curr : Nat}
    (hsearch : FreeList.firstFit (h.next x) (h.size x) size x.modulus none h.freelist =
      some (some (prev, curr))) :
    region_malloc x end_ h size = some (h.setLink x prev (h.next x curr), .reused curr) := by
  simp only [region_malloc, hsearch]

end search

/-- `region_free` -/
def region_free (h : Heap) (ptr : Nat) : Heap :=
  if ptr = 0 then h
  else
    -- `(MemoryBlock *)ptr - 1`
    let b := (ptr + (x.modulus - sizeofMemoryBlock x)) % x.modulus
    { h.setNext x b h.freelist with freelist := b }

/-! ## Section 3: The system -/

/-- The bounds of the heap.  `.l2_heap` is aligned to 32 bytes and does not
    start at address zero. -/
structure HeapLayout where
  start : Nat
  end_ : Nat
  start_pos : 0 < start
  start_aligned : start % 32 = 0
  start_le_end : start ≤ end_
  end_lt : end_ < x.modulus

theorem HeapLayout.start_mod {x : Xlen} (L : HeapLayout x) : L.start % ALLOC_ALIGNMENT = 0 := by
  have := L.start_aligned
  simp only [ALLOC_ALIGNMENT]
  omega

/-- A block: the address of its header and the size stored there when it
    was carved. -/
structure Block where
  addr : Nat
  size : Nat
  deriving DecidableEq, Repr

/-- A pointer a client holds, with the size it asked for. -/
structure Allocation where
  ptr : Nat
  request : Nat
  deriving DecidableEq, Repr

/-- The heap and, as observations of the run, the blocks carved so far and
    the allocations that have not been freed. -/
structure State where
  heap : Heap
  carved : List Block
  live : List Allocation

/-- A call, or a client that writes the byte `i` of what it asked for. -/
inductive Action where
  | malloc (size : Nat)
  | free (ptr : Nat)
  | write (ptr i : Nat) (v : UInt8)

variable {x}

/-- The payload of the block at header `addr`. -/
def Block.payload (x : Xlen) (b : Block) : Nat := b.addr + sizeofMemoryBlock x

def Block.fin (x : Xlen) (b : Block) : Nat := b.addr + totalSize x b.size

namespace State

variable (s : State)

/-- What a call adds to the blocks carved. -/
def carving (size : Nat) : Outcome → List Block
  | .carved b => [{ addr := b, size := size }]
  | _ => []

/-- What a call adds to the live allocations. -/
def granted (x : Xlen) (size : Nat) (o : Outcome) : List Allocation :=
  if o.ptr x = 0 then [] else [{ ptr := o.ptr x, request := size }]

/-- `memory_island_malloc` -/
def malloc (L : HeapLayout x) (size : Nat) : Option State :=
  if size < x.modulus then
    match region_malloc x L.end_ s.heap size with
    | none => none
    | some (heap, o) =>
        some { heap := heap, carved := s.carved ++ carving size o,
               live := s.live ++ granted x size o }
  else none

/-- `memory_island_free` of NULL or of a live pointer. -/
def free (x : Xlen) (ptr : Nat) : Option State :=
  if ptr = 0 ∨ ptr ∈ s.live.map Allocation.ptr then
    some { s with heap := region_free x s.heap ptr,
                  live := s.live.filter (fun a => a.ptr != ptr) }
  else none

/-- A client writes inside the bytes it asked for. -/
def write (ptr i : Nat) (v : UInt8) : Option State :=
  if ∃ a ∈ s.live, a.ptr = ptr ∧ i < a.request then
    some { s with heap := { s.heap with mem := Function.update s.heap.mem (ptr + i) v } }
  else none

end State

/-- The allocator with its clients. -/
def heapSystem (L : HeapLayout x) : System State Action where
  init := fun s =>
    s.heap.heap_start = L.start ∧ s.heap.freelist = 0 ∧ s.carved = [] ∧ s.live = []
  next := fun s a =>
    match a with
    | .malloc size => s.malloc L size
    | .free ptr => s.free x ptr
    | .write ptr i v => s.write ptr i v

/-! ## Section 4: Safety -/

/-- The address belongs to what the client asked for. -/
def Allocation.Owns (a : Allocation) (i : Nat) : Prop := a.ptr ≤ i ∧ i < a.ptr + a.request

/-- **Allocator safety**: what a client asked for lies inside the heap and
    shares no byte with another live allocation or with a header. -/
structure Safe (L : HeapLayout x) (s : State) : Prop where
  inside : ∀ a ∈ s.live, L.start ≤ a.ptr ∧ a.ptr + a.request ≤ L.end_
  payloads : s.live.Pairwise (fun a a' => ∀ i, ¬ (a.Owns i ∧ a'.Owns i))
  headers : ∀ a ∈ s.live, ∀ b ∈ s.carved, ∀ i, a.Owns i →
    ¬ (b.addr ≤ i ∧ i < b.addr + sizeofMemoryBlock x)

/-- A block that is not live is free; a request fits no free block when it
    exceeds the size of each. -/
def NoFreeFit (x : Xlen) (s : State) (size : Nat) : Prop :=
  ∀ b ∈ s.carved, b.payload x ∉ s.live.map Allocation.ptr → b.size < size

/-- When a request falls through to the bump region, either it fits there
    in exact arithmetic, or the wrapped comparison finds that it does not
    fit. -/
def ExactBump (L : HeapLayout x) (s : State) : Action → Prop
  | .malloc size => NoFreeFit x s size →
      s.heap.heap_start + totalSize x size ≤ L.end_ ∨
      L.end_ < (s.heap.heap_start +
        ALLOC_ALIGN x ((size + sizeofMemoryBlock x) % x.modulus)) % x.modulus
  | _ => True

instance (L : HeapLayout x) (s : State) (a : Action) : Decidable (ExactBump L s a) :=
  match a with
  | .malloc size => inferInstanceAs (Decidable
      ((∀ b ∈ s.carved, b.payload x ∉ s.live.map Allocation.ptr → b.size < size) →
        s.heap.heap_start + totalSize x size ≤ L.end_ ∨
        L.end_ < (s.heap.heap_start +
          ALLOC_ALIGN x ((size + sizeofMemoryBlock x) % x.modulus)) % x.modulus))
  | .free _ => isTrue trivial
  | .write _ _ _ => isTrue trivial

/-! ### Blocks -/

/-- The blocks lie one after the other from `lo` to `hi`. -/
def Tiled (x : Xlen) : Nat → List Block → Nat → Prop
  | lo, [], hi => lo = hi
  | lo, b :: rest, hi => b.addr = lo ∧ Tiled x (b.fin x) rest hi

/-- A block has room for its header and for the size it was carved for. -/
theorem header_add_size_le (b : Block) :
    b.addr + sizeofMemoryBlock x + b.size ≤ b.fin x := by
  have hle : b.size + sizeofMemoryBlock x ≤ totalSize x b.size := Align.le_alignUp (by decide)
  simp only [Block.fin]
  omega

theorem Tiled.le {lo hi : Nat} {bs : List Block} (ht : Tiled x lo bs hi) : lo ≤ hi := by
  induction bs generalizing lo with
  | nil => exact Nat.le_of_eq ht
  | cons b rest ih =>
    obtain ⟨rfl, hrest⟩ := ht
    have hfin := ih hrest
    have hle := header_add_size_le (x := x) b
    omega

theorem Tiled.bounds {lo hi : Nat} {bs : List Block} (ht : Tiled x lo bs hi) {b : Block}
    (hb : b ∈ bs) : lo ≤ b.addr ∧ b.fin x ≤ hi := by
  induction bs generalizing lo with
  | nil => cases hb
  | cons c rest ih =>
    obtain ⟨rfl, hrest⟩ := ht
    have hle := header_add_size_le (x := x) c
    rcases List.mem_cons.mp hb with rfl | hb
    · exact ⟨Nat.le_refl _, hrest.le⟩
    · have := ih hrest hb
      exact ⟨by omega, this.2⟩

/-- Distinct blocks of a tiling do not overlap. -/
theorem Tiled.apart {lo hi : Nat} {bs : List Block} (ht : Tiled x lo bs hi) {b c : Block}
    (hb : b ∈ bs) (hc : c ∈ bs) : b = c ∨ b.fin x ≤ c.addr ∨ c.fin x ≤ b.addr := by
  induction bs generalizing lo with
  | nil => cases hb
  | cons d rest ih =>
    obtain ⟨rfl, hrest⟩ := ht
    rcases List.mem_cons.mp hb with rfl | hb'
    · rcases List.mem_cons.mp hc with rfl | hc'
      · exact Or.inl rfl
      · exact Or.inr (Or.inl (hrest.bounds hc').1)
    · rcases List.mem_cons.mp hc with rfl | hc'
      · exact Or.inr (Or.inr (hrest.bounds hb').1)
      · exact ih hrest hb' hc'

theorem Tiled.concat {lo hi : Nat} {bs : List Block} (ht : Tiled x lo bs hi) {b : Block}
    (hb : b.addr = hi) : Tiled x lo (bs ++ [b]) (b.fin x) := by
  induction bs generalizing lo with
  | nil => exact ⟨hb.trans (ht.symm), rfl⟩
  | cons c rest ih => exact ⟨ht.1, ih ht.2⟩

/-- A tiling that starts aligned ends aligned. -/
theorem Tiled.aligned {lo hi : Nat} {bs : List Block} (ht : Tiled x lo bs hi)
    (hlo : lo % ALLOC_ALIGNMENT = 0) : hi % ALLOC_ALIGNMENT = 0 := by
  induction bs generalizing lo with
  | nil => exact ht ▸ hlo
  | cons b rest ih =>
    obtain ⟨rfl, hrest⟩ := ht
    refine ih hrest ?_
    have htotal := totalSize_mod x b.size
    simp only [Block.fin, ALLOC_ALIGNMENT] at *
    omega

/-- Two blocks of a tiling with headers at the same address are one. -/
theorem Tiled.eq_of_addr {lo hi : Nat} {bs : List Block} (ht : Tiled x lo bs hi) {b c : Block}
    (hb : b ∈ bs) (hc : c ∈ bs) (haddr : b.addr = c.addr) : b = c := by
  have hpos := sizeof_pos x
  have hb' := header_add_size_le (x := x) b
  have hc' := header_add_size_le (x := x) c
  rcases ht.apart hb hc with h | h | h
  · exact h
  · omega
  · omega

end Alloc
