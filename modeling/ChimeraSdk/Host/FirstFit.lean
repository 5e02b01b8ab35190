import ChimeraSdk.Host.HeapInv

/-! # The Allocator Refines First Fit

    The free list of `region_malloc` is threaded through memory, and the
    loop unlinks a block through a pointer to the link before it.  Here
    the heap is related to a pool, a list of free nodes with their sizes
    and a bump pointer, and a call of `region_malloc` is shown to do to
    the heap what `Pool.malloc` does to the pool. -/

open ByteMemory FreeList

namespace Alloc

variable {x : Xlen}

/-! ## Section 1: The heap represents a pool -/

/-- The free list of the heap is well formed, and holds the nodes of the
    pool in their order: the links end, the headers are distinct objects
    of the address space, and each stores the size of its node. -/
structure Represents (x : Xlen) (h : Heap) (p : Pool) : Prop where
  chain : Chain (h.next x) h.freelist (p.free.map Node.addr)
  sizes : ∀ b ∈ p.free, h.size x b.addr = b.size
  apart : p.free.Pairwise (fun b c => HeadersApart x b.addr c.addr)
  inside : ∀ b ∈ p.free, b.addr + sizeofMemoryBlock x < x.modulus
  bump : h.heap_start = p.bump

/-- What a call of `region_malloc` does: the pointer and the pool are those
    of first fit.  A carved block stores the size that was asked for, no
    stored size of a free block changes, and no header changes that is
    neither free nor carved. -/
structure MallocSpec (x : Xlen) (end_ size : Nat) (h : Heap) (p : Pool) (h' : Heap)
    (o : Outcome) : Prop where
  ptr : o.ptr x =
    match (p.malloc (totalSize x size) end_ size).2 with
    | some b => b + sizeofMemoryBlock x
    | none   => 0
  pool : Represents x h' (p.malloc (totalSize x size) end_ size).1
  carved : ∀ b, o = .carved b → h'.size x b = size
  sizes : ∀ b ∈ p.free, h'.size x b.addr = b.size
  frame : ∀ c, HeadersApart x p.bump c → (∀ b ∈ p.free, HeadersApart x b.addr c) →
    h'.next x c = h.next x c ∧ h'.size x c = h.size x c
  null : o.ptr x = 0 ↔ (∀ b ∈ p.free, b.size < size) ∧ end_ < p.bump + totalSize x size
  unchanged : o.ptr x = 0 → h' = h

variable {h : Heap} {p : Pool} {end_ size : Nat}

/-- The search of a represented list ends with the first fit. -/
theorem Represents.search (hrep : Represents x h p) (size : Nat) :
    ∃ r, firstFit (h.next x) (h.size x) size x.modulus none h.freelist = some r ∧
      Found (h.size x) size none (p.free.map Node.addr) r := by
  refine firstFit_found hrep.chain none (hrep.chain.length_lt (modulus_pos x) ?_)
  intro a ha
  obtain ⟨b, hb, rfl⟩ := List.mem_map.mp ha
  have := hrep.inside b hb
  omega

/-- The header of one free node is apart from those of the others. -/
theorem Represents.apart_of_split {pre post : List Node} {b c : Node} (hrep : Represents x h p)
    (hfree : p.free = pre ++ b :: post) (hc : c ∈ pre ++ post) :
    HeadersApart x b.addr c.addr := by
  have hapart := hrep.apart
  rw [hfree, List.pairwise_append] at hapart
  obtain ⟨_, hpost, hcross⟩ := hapart
  rcases List.mem_append.mp hc with hc | hc
  · exact (hcross c hc b List.mem_cons_self).symm
  · exact (List.pairwise_cons.mp hpost).1 c hc

theorem Represents.apart_of_mem {b c : Node} (hrep : Represents x h p) (hb : b ∈ p.free)
    (hc : c ∈ p.free) : b.addr = c.addr ∨ HeadersApart x b.addr c.addr := by
  obtain ⟨pre, post, hfree⟩ := List.append_of_mem hb
  rw [hfree, List.mem_append, List.mem_cons] at hc
  by_cases heq : b = c
  · exact .inl (heq ▸ rfl)
  · refine .inr (hrep.apart_of_split hfree (List.mem_append.mpr ?_))
    exact hc.imp_right fun hc => hc.resolve_left fun h => heq h.symm

/-- The link the search stops at belongs to a node before the fit. -/
theorem mem_of_prev {pre : List Node} {a : Nat}
    (ha : (pre.map Node.addr).getLast?.or none = some a) : ∃ b ∈ pre, b.addr = a := by
  rw [Option.or_none] at ha
  exact List.mem_map.mp (List.mem_of_getLast? ha)

/-! ## Section 2: Unlinking -/

/-- Redirecting the link before the first fit takes its node out of the
    pool. -/
theorem Represents.unlink {pre post : List Node} {b : Node} (hrep : Represents x h p)
    (hfree : p.free = pre ++ b :: post) :
    Represents x (h.setLink x ((pre.map Node.addr).getLast?.or none) (h.next x b.addr))
      { p with free := pre ++ post } := by
  have hsub : (pre ++ post).Sublist p.free := by
    rw [hfree]
    exact (List.sublist_cons_self b post).append_left pre
  have hpre : ∀ c ∈ pre, c ∈ p.free := fun c hc => hsub.subset (List.mem_append_left _ hc)
  refine ⟨?_, ?_, hrep.apart.sublist hsub, fun c hc => hrep.inside c (hsub.subset hc), ?_⟩
  · have hchain := hrep.chain
    rw [hfree] at hchain
    by_cases hnil : pre = []
    · -- the head of the list: the list variable takes the link
      subst hnil
      exact hchain.head_eq.2.2
    · obtain ⟨pre', d, rfl⟩ := (List.eq_nil_or_concat' pre).resolve_left hnil
      have hlast : ((pre' ++ [d]).map Node.addr).getLast?.or none = some d.addr := by simp
      have hd : d ∈ p.free := hpre d (by simp)
      rw [hlast]
      show Chain ((h.setNext x d.addr (h.next x b.addr)).next x) h.freelist
        ((pre' ++ [d] ++ post).map Node.addr)
      simp only [List.map_append, List.map_cons, List.append_assoc,
        List.cons_append, List.nil_append] at hchain ⊢
      refine hchain.unlink (Heap.next_setNext_self (Heap.next_lt x h _)) ?_
      -- the links of the others stay
      intro a ha
      rw [← List.map_append] at ha
      obtain ⟨c, hc, rfl⟩ := List.mem_map.mp ha
      have hsplit : p.free = pre' ++ d :: (b :: post) := by
        rw [hfree, List.append_assoc, List.singleton_append]
      exact Heap.next_setNext (hrep.apart_of_split hsplit (Chain.mem_of_mem_unlinked hc))
  · intro c hc
    have hstore : (h.setLink x ((pre.map Node.addr).getLast?.or none) (h.next x b.addr)).size x
        c.addr = h.size x c.addr := by
      refine Heap.size_setLink fun a ha => ?_
      obtain ⟨d, hd, rfl⟩ := mem_of_prev ha
      exact hrep.apart_of_mem (hpre d hd) (hsub.subset hc)
    rw [hstore, hrep.sizes c (hsub.subset hc)]
  · rw [Heap.setLink_heap_start]
    exact hrep.bump

/-! ## Section 3: Malloc and free -/

/-- The pool after a call that found a block. -/
theorem Represents.reuse {pre post : List Node} {b : Node} (hrep : Represents x h p) (end_ : Nat)
    (hfree : p.free = pre ++ b :: post) (hpre : ∀ c ∈ pre, c.size < size) (hfit : size ≤ b.size) :
    MallocSpec x end_ size h p
      (h.setLink x ((pre.map Node.addr).getLast?.or none) (h.next x b.addr)) (.reused b.addr) := by
  have hmalloc := Pool.malloc_reuse (totalSize x size) end_ hfree hpre hfit
  have hb : b ∈ p.free := by simp [hfree]
  have hpayload : (Outcome.reused b.addr).ptr x = b.addr + sizeofMemoryBlock x :=
    Nat.mod_eq_of_lt (hrep.inside b hb)
  have hpos := sizeof_pos x
  have hprev : ∀ a, (pre.map Node.addr).getLast?.or none = some a → ∃ d ∈ p.free, d.addr = a := by
    intro a ha
    obtain ⟨d, hd, rfl⟩ := mem_of_prev ha
    exact ⟨d, by simp [hfree, hd], rfl⟩
  -- only the link in front of the block is rewritten
  refine ⟨?_, ?_, fun _ ho => Outcome.noConfusion ho, ?_, ?_, ?_, ?_⟩
  · rw [hmalloc]
    exact hpayload
  · rw [hmalloc]
    exact hrep.unlink hfree
  · intro c hc
    rw [← hrep.sizes c hc]
    refine Heap.size_setLink fun a ha => ?_
    obtain ⟨d, hd, rfl⟩ := hprev a ha
    exact hrep.apart_of_mem hd hc
  · intro c _ hc
    have hlink : ∀ a, (pre.map Node.addr).getLast?.or none = some a → HeadersApart x a c := by
      intro a ha
      obtain ⟨d, hd, rfl⟩ := hprev a ha
      exact hc d hd
    exact ⟨Heap.next_setLink hlink, Heap.size_setLink fun a ha => .inr (hlink a ha)⟩
  · -- a pointer is not zero and a free block was found, so this is no `NULL`
    constructor
    · intro h0
      omega
    · intro hnone
      have := hnone.1 b hb
      omega
  · intro h0
    omega

/-- The pool after a call that carved a block. -/
theorem Represents.carve (hrep : Represents x h p)
    (hfresh : ∀ b ∈ p.free, HeadersApart x p.bump b.addr)
    (hsmall : ∀ b ∈ p.free, b.size < size) (hbump : p.bump + totalSize x size < x.modulus)
    (hroom : p.bump + totalSize x size ≤ end_) :
    MallocSpec x end_ size h p
      { h.setSize x h.heap_start size with heap_start := p.bump + totalSize x size }
      (.carved h.heap_start) := by
  have hmalloc := Pool.malloc_bump (totalSize x size) end_ hsmall
  rw [if_neg (by omega)] at hmalloc
  have hle : size + sizeofMemoryBlock x ≤ totalSize x size := Align.le_alignUp (by decide)
  have hpos := sizeof_pos x
  have hpayload : (Outcome.carved h.heap_start).ptr x = p.bump + sizeofMemoryBlock x := by
    rw [hrep.bump]
    exact Nat.mod_eq_of_lt (by omega)
  rw [← hrep.bump] at hfresh
  -- only the header at the bump pointer is written
  refine ⟨?_, ?_, ?_, ?_, ?_, ?_, ?_⟩
  · rw [hmalloc]
    exact hpayload
  · rw [hmalloc]
    refine ⟨hrep.chain.frame ?_, ?_, hrep.apart, hrep.inside, rfl⟩
    · intro a ha
      obtain ⟨b, hb, rfl⟩ := List.mem_map.mp ha
      exact Heap.next_setSize (hfresh b hb)
    · intro b hb
      rw [← hrep.sizes b hb]
      exact Heap.size_setSize (hfresh b hb)
  · intro b hb
    obtain rfl := Outcome.carved.inj hb
    exact Heap.size_setSize_self (by omega)
  · intro b hb
    rw [← hrep.sizes b hb]
    exact Heap.size_setSize (hfresh b hb)
  · intro c hc _
    rw [← hrep.bump] at hc
    exact ⟨Heap.next_setSize hc, Heap.size_setSize hc⟩
  · constructor
    · intro h0
      omega
    · intro hnone
      omega
  · intro h0
    omega

/-- The pool after a call that found nothing. -/
theorem Represents.null (hrep : Represents x h p) (hsmall : ∀ b ∈ p.free, b.size < size)
    (hroom : end_ < p.bump + totalSize x size) : MallocSpec x end_ size h p h .null := by
  have hmalloc := Pool.malloc_bump (totalSize x size) end_ hsmall
  rw [if_pos hroom] at hmalloc
  refine ⟨?_, ?_, fun _ ho => Outcome.noConfusion ho, hrep.sizes, fun _ _ _ => ⟨rfl, rfl⟩, ?_,
    fun _ => rfl⟩
  · rw [hmalloc]
    rfl
  · rw [hmalloc]
    exact hrep
  · exact ⟨fun _ => ⟨hsmall, hroom⟩, fun _ => rfl⟩

/-- A block that can be freed: its header is an object of its own. -/
structure Freeable (x : Xlen) (h : Heap) (p : Pool) (b : Node) : Prop where
  pos : 0 < b.addr
  inside : b.addr + sizeofMemoryBlock x < x.modulus
  stored : h.size x b.addr = b.size
  apart : ∀ c ∈ p.free, HeadersApart x b.addr c.addr

/-- Freeing a block makes it the first node of the pool. -/
theorem Represents.free {b : Node} (hrep : Represents x h p) (hb : Freeable x h p b) :
    Represents x (region_free x h (b.addr + sizeofMemoryBlock x)) (p.push b) := by
  have hpos := sizeof_pos x
  have hinside := hb.inside
  have hheader : (b.addr + sizeofMemoryBlock x + (x.modulus - sizeofMemoryBlock x)) % x.modulus =
      b.addr := by
    have heq : b.addr + sizeofMemoryBlock x + (x.modulus - sizeofMemoryBlock x) =
        b.addr + x.modulus := by omega
    rw [heq, Nat.add_mod_right, Nat.mod_eq_of_lt (by omega)]
  -- the link that is stored is an address or zero, so it is stored in full
  have hhead : h.freelist < x.modulus := by
    have hchain := hrep.chain
    cases hfree : p.free with
    | nil =>
      rw [hfree] at hchain
      rw [hchain.eq_zero]
      exact modulus_pos x
    | cons c rest =>
      rw [hfree] at hchain
      have := hrep.inside c (hfree ▸ List.mem_cons_self)
      rw [hchain.head_eq.1]
      omega
  rw [region_free, if_neg (by omega), hheader]
  refine ⟨?_, ?_, List.pairwise_cons.mpr ⟨hb.apart, hrep.apart⟩, ?_, hrep.bump⟩
  · refine .cons (Nat.ne_of_gt hb.pos) ?_
    show Chain ((h.setNext x b.addr h.freelist).next x)
      ((h.setNext x b.addr h.freelist).next x b.addr) (p.free.map Node.addr)
    rw [Heap.next_setNext_self hhead]
    refine hrep.chain.frame fun a ha => ?_
    obtain ⟨c, hc, rfl⟩ := List.mem_map.mp ha
    exact Heap.next_setNext (hb.apart c hc)
  · intro c hc
    show (h.setNext x b.addr h.freelist).size x c.addr = c.size
    rcases List.mem_cons.mp hc with rfl | hc
    · rw [Heap.size_setNext (.inl rfl), hb.stored]
    · rw [Heap.size_setNext (.inr (hb.apart c hc)), hrep.sizes c hc]
  · intro c hc
    rcases List.mem_cons.mp hc with rfl | hc
    · exact hb.inside
    · exact hrep.inside c hc

/-! ## Section 4: The refinement -/

/-- A search that finds a node of the pool, as the pool sees it. -/
theorem Represents.found_cases {r : Option (Option Nat × Nat)} (hrep : Represents x h p)
    (hfound : Found (h.size x) size none (p.free.map Node.addr) r) :
    (r = none ∧ ∀ b ∈ p.free, b.size < size) ∨
    ∃ pre post b, p.free = pre ++ b :: post ∧ (∀ c ∈ pre, c.size < size) ∧ size ≤ b.size ∧
      r = some ((pre.map Node.addr).getLast?.or none, b.addr) := by
  cases hfound with
  | nothing hall =>
    refine .inl ⟨rfl, fun b hb => ?_⟩
    rw [← hrep.sizes b hb]
    exact hall _ (List.mem_map_of_mem hb)
  | node addrs addrs' a hsplit hpre hfit =>
    obtain ⟨pre, rest, hfree, rfl, hrest⟩ := List.map_eq_append_iff.mp hsplit
    obtain ⟨b, post, rfl, rfl, rfl⟩ := List.map_eq_cons_iff.mp hrest
    refine .inr ⟨pre, post, b, hfree, fun c hc => ?_, ?_, rfl⟩
    · rw [← hrep.sizes c (by simp [hfree, hc])]
      exact hpre _ (List.mem_map_of_mem hc)
    · rw [← hrep.sizes b (by simp [hfree])]
      exact hfit

/-- A call whose arithmetic does not wrap around is a call of first fit. -/
theorem Represents.malloc (hrep : Represents x h p) (end_ : Nat)
    (hfresh : ∀ b ∈ p.free, HeadersApart x p.bump b.addr)
    (hsize : size + sizeofMemoryBlock x + (ALLOC_ALIGNMENT - 1) < x.modulus)
    (hbump : p.bump + totalSize x size < x.modulus) :
    ∃ h' o, region_malloc x end_ h size = some (h', o) ∧ MallocSpec x end_ size h p h' o := by
  obtain ⟨r, hsearch, hfound⟩ := hrep.search size
  obtain ⟨halign, hexact⟩ := no_wrap_of_lt x hsize hbump
  rw [← hrep.bump] at hexact
  rcases hrep.found_cases hfound with ⟨rfl, hsmall⟩ | ⟨pre, post, b, hfree, hpre, hfit, rfl⟩
  · by_cases hroom : p.bump + totalSize x size ≤ end_
    · refine ⟨_, _, region_malloc_bump hsearch ?_, ?_⟩
      · rw [halign, hexact, hrep.bump]
        exact hroom
      · rw [halign, hexact, hrep.bump]
        exact hrep.bump ▸ hrep.carve hfresh hsmall hbump hroom
    · refine ⟨_, _, region_malloc_null hsearch ?_, hrep.null hsmall (by omega)⟩
      rw [halign, hexact, hrep.bump]
      omega
  · exact ⟨_, _, region_malloc_reused hsearch, hrep.reuse end_ hfree hpre hfit⟩

/-- A freed block is what the next request that fits it gets, and the pool
    is as it was before. -/
theorem Represents.malloc_free {b : Node} (hrep : Represents x h p) (end_ : Nat)
    (hb : Freeable x h p b) (hfit : size ≤ b.size) :
    ∃ h' o, region_malloc x end_ (region_free x h (b.addr + sizeofMemoryBlock x)) size =
        some (h', o) ∧ o.ptr x = b.addr + sizeofMemoryBlock x ∧ Represents x h' p := by
  have hfreed := hrep.free hb
  obtain ⟨r, hsearch, hfound⟩ := hfreed.search size
  have hnode : size ≤ b.size ∧ b ∈ (p.push b).free := ⟨hfit, List.mem_cons_self⟩
  rcases hfreed.found_cases hfound with ⟨rfl, hsmall⟩ | ⟨pre, post, c, hfree, hpre, hc, rfl⟩
  · have := hsmall b hnode.2
    omega
  · have hspec := hfreed.reuse end_ hfree hpre hc
    have hpool := hspec.pool
    have hptr := hspec.ptr
    rw [Pool.malloc_push hfit] at hpool hptr
    exact ⟨_, _, region_malloc_reused hsearch, hptr, hpool⟩

/-- **First fit**: for every well-formed free list, bump pointer and
    request whose additions do not wrap around, `region_malloc` is first
    fit; and a freed block is what the next request that fits it gets. -/
theorem region_malloc_first_fit (x : Xlen) (end_ size : Nat) (h : Heap) (p : Pool)
    (hrep : Represents x h p) (hfresh : ∀ b ∈ p.free, HeadersApart x p.bump b.addr)
    (hsize : size + sizeofMemoryBlock x + (ALLOC_ALIGNMENT - 1) < x.modulus)
    (hbump : p.bump + totalSize x size < x.modulus) :
    (∃ h' o, region_malloc x end_ h size = some (h', o) ∧ MallocSpec x end_ size h p h' o) ∧
    ∀ b, Freeable x h p b → ∀ request ≤ b.size,
      ∃ h' o, region_malloc x end_ (region_free x h (b.addr + sizeofMemoryBlock x)) request =
          some (h', o) ∧ o.ptr x = b.addr + sizeofMemoryBlock x ∧ Represents x h' p :=
  ⟨hrep.malloc end_ hfresh hsize hbump, fun _ hb _ hfit => hrep.malloc_free end_ hb hfit⟩

/-- A heap with two free blocks, of eight and of forty bytes. -/
def fragmentedHeap : Heap where
  mem i := if i = 16 then 64 else if i = 20 then 8 else if i = 68 then 40 else 0
  heap_start := 128
  freelist := 16

/-- A request of twenty bytes gets the second block. -/
theorem first_fit_second_block :
    ∃ h' o, region_malloc .rv32 256 fragmentedHeap 20 = some (h', o) ∧
      MallocSpec .rv32 256 20 fragmentedHeap ⟨[⟨16, 8⟩, ⟨64, 40⟩], 128⟩ h' o :=
  (region_malloc_first_fit .rv32 256 20 fragmentedHeap ⟨[⟨16, 8⟩, ⟨64, 40⟩], 128⟩
    { chain := .cons (by decide) (.cons (by decide) .nil)
      sizes := by decide
      apart := by unfold HeadersApart; decide
      inside := by decide
      bump := rfl }
    (by unfold HeadersApart; decide) (by decide) (by decide)).1

/-! ## Section 5: In every run -/

section Runs

variable {L : HeapLayout x} {s : State} {free : List Nat}

/-- The pool of a heap with the free list `free`. -/
def poolOf (x : Xlen) (s : State) (free : List Nat) : Pool :=
  { free := free.map fun a => ⟨a, s.heap.size x a⟩, bump := s.heap.heap_start }

theorem poolOf_addrs : (poolOf x s free).free.map Node.addr = free := by
  simp [poolOf, Function.comp_def]

/-- The invariant of the system makes the free list well formed. -/
theorem HeapInv.represents (hi : HeapInv L s free) : Represents x s.heap (poolOf x s free) := by
  refine ⟨?_, ?_, ?_, ?_, rfl⟩
  · rw [poolOf_addrs]
    exact hi.chain
  · intro b hb
    obtain ⟨a, _, rfl⟩ := List.mem_map.mp hb
    rfl
  · refine List.pairwise_map.mpr (hi.nodup.imp_of_mem ?_)
    intro a a' ha ha' hne
    obtain ⟨b, hb, rfl⟩ := hi.free_carved a ha
    obtain ⟨c, hc, rfl⟩ := hi.free_carved a' ha'
    exact hi.headersApart hb hc hne
  · intro b hb
    obtain ⟨a, ha, rfl⟩ := List.mem_map.mp hb
    obtain ⟨c, hc, rfl⟩ := hi.free_carved a ha
    exact (hi.block hc).2.2

/-- A live allocation can be freed, and its block stores at least what was
    asked for. -/
theorem HeapInv.freeable (hi : HeapInv L s free) {a : Allocation} (ha : a ∈ s.live) :
    ∃ b, Freeable x s.heap (poolOf x s free) b ∧ a.ptr = b.addr + sizeofMemoryBlock x ∧
      a.request ≤ b.size := by
  obtain ⟨b, hb, hnot, hptr, hreq⟩ := hi.live_carved a ha
  obtain ⟨hpos, _, hlt⟩ := hi.block hb
  refine ⟨⟨b.addr, b.size⟩, ⟨hpos, hlt, (hi.sizes b hb).1, ?_⟩, hptr, hreq⟩
  intro c hc
  obtain ⟨f, hf, rfl⟩ := List.mem_map.mp hc
  obtain ⟨d, hd, rfl⟩ := hi.free_carved f hf
  exact hi.headersApart hb hd fun heq => hnot (heq ▸ hf)

/-- The free blocks end where the bump region starts. -/
theorem HeapInv.fresh (hi : HeapInv L s free) :
    ∀ b ∈ (poolOf x s free).free, HeadersApart x s.heap.heap_start b.addr := by
  intro b hb
  obtain ⟨a, ha, rfl⟩ := List.mem_map.mp hb
  obtain ⟨c, hc, rfl⟩ := hi.free_carved a ha
  exact .inr (hi.header_le hc)

/-- **First fit in every run**: whatever calls came before, a request whose
    additions do not wrap around is first fit on the pool of the heap. -/
theorem malloc_first_fit {size : Nat} (h : (heapSystem L).ReachableUnder (ExactBump L) s)
    (hsize : size + sizeofMemoryBlock x + (ALLOC_ALIGNMENT - 1) < x.modulus)
    (hbump : s.heap.heap_start + totalSize x size < x.modulus) :
    ∃ free h' o, Represents x s.heap (poolOf x s free) ∧
      region_malloc x L.end_ s.heap size = some (h', o) ∧
      MallocSpec x L.end_ size s.heap (poolOf x s free) h' o := by
  obtain ⟨free, hi⟩ := heapInv_reachable h
  obtain ⟨h', o, hcall, hspec⟩ :=
    hi.represents.malloc L.end_ hi.fresh hsize hbump
  exact ⟨free, h', o, hi.represents, hcall, hspec⟩

/-- **Reuse**: in every run whose bump arithmetic is exact, freeing a live
    pointer and asking for no more than was asked for returns the same
    pointer. -/
theorem free_malloc_same {a : Allocation} {size : Nat}
    (h : (heapSystem L).ReachableUnder (ExactBump L) s) (ha : a ∈ s.live)
    (hsize : size ≤ a.request) :
    ∃ h' o, region_malloc x L.end_ (region_free x s.heap a.ptr) size = some (h', o) ∧
      o.ptr x = a.ptr := by
  obtain ⟨free, hi⟩ := heapInv_reachable h
  obtain ⟨b, hb, hptr, hreq⟩ := hi.freeable ha
  obtain ⟨h', o, hcall, ho, _⟩ :=
    hi.represents.malloc_free L.end_ hb (Nat.le_trans hsize hreq)
  rw [hptr]
  exact ⟨h', o, hcall, ho⟩

/-- Freed and asked for half its size, the first of two blocks comes back. -/
theorem free_malloc_same_islandHeap : ∃ s : State,
    s.live = [⟨0x48010008, 42⟩, ⟨0x4801003c, 58⟩] ∧
    ∃ h' o, region_malloc .rv32 islandHeap.end_ (region_free .rv32 s.heap 0x48010008) 21 =
      some (h', o) ∧ o.ptr .rv32 = 0x48010008 := by
  have hs := LTS.System.reachableUnder_of_replay (heapSystem islandHeap) (ExactBump islandHeap)
    startState [.malloc 42, .malloc 58] ⟨rfl, rfl, rfl, rfl⟩ rfl
  exact ⟨_, rfl, free_malloc_same (a := ⟨0x48010008, 42⟩) hs (by decide) (by decide)⟩

end Runs

end Alloc
