import ChimeraSdk.Host.HeapInv
import ChimeraSdk.Target.LinkLd

/-! # Conservation of the Heap

    What the heap invariant means for the bytes of a heap that lies in
    the memory island: read back from the headers, the blocks tile the
    heap up to the bump pointer, and each of them is either live or on the
    free list.  Requests no larger than the heap cannot wrap around there,
    for the island ends far below the top of the address space. -/

open LTS ByteMemory

namespace Alloc

/-! ## Section 1: Heaps of the memory island -/

/-- The linker puts the heap between the end of the host image and the end
    of the memory island. -/
structure IslandHeap (x : Xlen) extends HeapLayout x where
  origin_le : 0x48000000 ≤ start
  end_le : end_ ≤ 0x48040000

/-- Every image of the host that links has such a heap. -/
theorem exists_islandHeap (x : Xlen) {t : LinkLd.Target} {prevEnd : Option Nat}
    {h : LinkLd.Host} {image : LinkLd.Image} (hlink : LinkLd.linkHost t prevEnd h = some image) :
    ∃ L : IslandHeap x, image.symbols.lookup (.start .l2Heap) = some L.start ∧
      L.end_ = LinkLd.l2HeapEnd t := by
  obtain ⟨start, hstart, horigin, hlimit, haligned⟩ := LinkLd.linkHost_heap hlink
  have hlo : (LinkLd.memory t .memisl).origin = 0x48000000 := rfl
  have hhi : LinkLd.l2HeapEnd t ≤ 0x48040000 := by cases t <;> decide
  have hmod : 0x48040000 < x.modulus := by cases x <;> decide
  exact ⟨{ start := start, end_ := LinkLd.l2HeapEnd t, start_pos := by omega,
           start_aligned := haligned, start_le_end := hlimit, end_lt := by omega,
           origin_le := by omega, end_le := hhi }, hstart, rfl⟩

/-- The length of the heap bounds every request. -/
def BoundedRequest {x : Xlen} (L : HeapLayout x) (_ : State) : Action → Prop
  | .malloc size => size ≤ L.end_ - L.start
  | _ => True

instance {x : Xlen} (L : HeapLayout x) (s : State) (a : Action) :
    Decidable (BoundedRequest L s a) :=
  match a with
  | .malloc size => inferInstanceAs (Decidable (size ≤ L.end_ - L.start))
  | .free _ => isTrue trivial
  | .write _ _ _ => isTrue trivial

variable {x : Xlen} {s s' : State}

theorem two_pow_32_le_modulus (x : Xlen) : 2 ^ 32 ≤ x.modulus := by
  cases x <;> decide

/-- In the island, a bounded request does not wrap around. -/
theorem bounded_no_wrap (L : IslandHeap x) {bump size : Nat} (hbump : bump ≤ L.end_)
    (hsize : size ≤ L.end_ - L.start) :
    ALLOC_ALIGN x ((size + sizeofMemoryBlock x) % x.modulus) = totalSize x size ∧
    (bump + totalSize x size) % x.modulus = bump + totalSize x size := by
  have hmod := two_pow_32_le_modulus x
  have horigin := L.origin_le
  have hend := L.end_le
  have hheader : sizeofMemoryBlock x ≤ 16 := by cases x <;> decide
  have htotal : totalSize x size ≤ size + sizeofMemoryBlock x + 3 := by
    rw [totalSize, Align.alignUp_eq_sub_mod]
    simp only [ALLOC_ALIGNMENT]
    omega
  apply no_wrap_of_lt
  · simp only [ALLOC_ALIGNMENT]
    omega
  · omega

theorem exactBump_of_bounded (L : IslandHeap x) {free : List Nat}
    (hi : HeapInv L.toHeapLayout s free) {a : Action} (hok : BoundedRequest L.toHeapLayout s a) :
    ExactBump L.toHeapLayout s a := by
  cases a with
  | malloc size =>
    intro _
    obtain ⟨halign, hbump⟩ := bounded_no_wrap L hi.bump_le hok
    rw [halign, hbump]
    exact Nat.lt_or_ge _ _ |>.symm
  | free ptr => trivial
  | write ptr i v => trivial

/-- The invariant of every run of bounded requests. -/
theorem heapInv_of_bounded (L : IslandHeap x)
    (h : (heapSystem L.toHeapLayout).ReachableUnder (BoundedRequest L.toHeapLayout) s) :
    ∃ free, HeapInv L.toHeapLayout s free := by
  apply h.invariant
  · intro s hinit
    exact ⟨[], heapInv_init hinit⟩
  · intro s a s' hs hok hn
    obtain ⟨free, hi⟩ := hs
    exact heapInv_next hi (exactBump_of_bounded L hi hok) hn

/-- No call hangs: the search of the free list ends. -/
theorem bounded_malloc_returns (L : IslandHeap x)
    (h : (heapSystem L.toHeapLayout).ReachableUnder (BoundedRequest L.toHeapLayout) s)
    {size : Nat} (hsize : size ≤ L.end_ - L.start) :
    ∃ s', s.malloc L.toHeapLayout size = some s' := by
  obtain ⟨free, hi⟩ := heapInv_of_bounded L h
  obtain ⟨r, hsearch, _⟩ := hi.search size
  have hlt : size < x.modulus := by
    have := L.end_lt
    omega
  unfold State.malloc
  rw [if_pos hlt]
  cases r with
  | some found =>
    rw [region_malloc_reused hsearch]
    exact ⟨_, rfl⟩
  | none =>
    -- without a fit, the bump region decides
    by_cases hfits : (s.heap.heap_start +
        ALLOC_ALIGN x ((size + sizeofMemoryBlock x) % x.modulus)) % x.modulus ≤ L.end_
    · rw [region_malloc_bump hsearch hfits]
      exact ⟨_, rfl⟩
    · rw [region_malloc_null hsearch (Nat.lt_of_not_le hfits)]
      exact ⟨_, rfl⟩

/-! ## Section 2: Blocks read back from memory -/

/-- The blocks `bs` lie one after the other from `lo` to `hi`, each as
    long as the size stored in its header says. -/
def StoredTiling (x : Xlen) (heap : Heap) : Nat → List Nat → Nat → Prop
  | lo, [], hi => lo = hi
  | lo, b :: rest, hi => b = lo ∧
      StoredTiling x heap (b + ALLOC_ALIGN x (heap.size x b + sizeofMemoryBlock x)) rest hi

/-- **Conservation**, for the blocks `blocks` and the free list `free`. -/
structure Conserved (L : HeapLayout x) (s : State) (blocks free : List Nat) : Prop where
  tiled : StoredTiling x s.heap L.start blocks s.heap.heap_start
  chain : FreeList.Chain (s.heap.next x) s.heap.freelist free
  once : free.Nodup
  free_blocks : ∀ f ∈ free, f ∈ blocks
  live_blocks : ∀ a ∈ s.live, ∃ b ∈ blocks, a.ptr = b + sizeofMemoryBlock x ∧
    a.request ≤ s.heap.size x b
  either : ∀ b ∈ blocks, b ∈ free ∨ b + sizeofMemoryBlock x ∈ s.live.map Allocation.ptr
  not_both : ∀ b ∈ blocks, ¬ (b ∈ free ∧ b + sizeofMemoryBlock x ∈ s.live.map Allocation.ptr)
  live_once : (s.live.map Allocation.ptr).Nodup
  aligned : ∀ b ∈ blocks, b % ALLOC_ALIGNMENT = 0 ∧
    (b + sizeofMemoryBlock x) % ALLOC_ALIGNMENT = 0
  bump_le : s.heap.heap_start ≤ L.end_

variable {L : HeapLayout x} {free : List Nat}

/-- A tiling by the sizes recorded is one by the sizes stored. -/
theorem storedTiling_of_tiled {heap : Heap} {lo hi : Nat} {bs : List Block}
    (ht : Tiled x lo bs hi) (hsizes : ∀ b ∈ bs, heap.size x b.addr = b.size)
    (hexact : ∀ b ∈ bs, b.size + sizeofMemoryBlock x + (ALLOC_ALIGNMENT - 1) < x.modulus) :
    StoredTiling x heap lo (bs.map Block.addr) hi := by
  induction bs generalizing lo with
  | nil => exact ht
  | cons b rest ih =>
    obtain ⟨rfl, hrest⟩ := ht
    refine ⟨rfl, ?_⟩
    rw [hsizes b List.mem_cons_self, ALLOC_ALIGN_eq x _ (hexact b List.mem_cons_self)]
    exact ih hrest (fun c hc => hsizes c (List.mem_cons_of_mem _ hc))
      (fun c hc => hexact c (List.mem_cons_of_mem _ hc))

/-- Every block of an aligned tiling is aligned. -/
theorem Tiled.block_aligned {lo hi : Nat} {bs : List Block} (ht : Tiled x lo bs hi)
    (hlo : lo % ALLOC_ALIGNMENT = 0) : ∀ b ∈ bs, b.addr % ALLOC_ALIGNMENT = 0 := by
  induction bs generalizing lo with
  | nil => intro b hb; cases hb
  | cons c rest ih =>
    obtain ⟨rfl, hrest⟩ := ht
    intro b hb
    rcases List.mem_cons.mp hb with rfl | hb
    · exact hlo
    · apply ih hrest _ b hb
      have htotal := totalSize_mod x c.size
      simp only [Block.fin, ALLOC_ALIGNMENT] at *
      omega

theorem sizeof_aligned (x : Xlen) : sizeofMemoryBlock x % ALLOC_ALIGNMENT = 0 := by
  cases x <;> decide

/-- The invariant, read back from memory. -/
theorem HeapInv.conserved (hi : HeapInv L s free)
    (hexact : ∀ b ∈ s.carved, b.size + sizeofMemoryBlock x + (ALLOC_ALIGNMENT - 1) < x.modulus) :
    Conserved L s (s.carved.map Block.addr) free where
  tiled := storedTiling_of_tiled hi.tiled (fun b hb => (hi.sizes b hb).1) hexact
  chain := hi.chain
  once := hi.nodup
  free_blocks := by
    intro f hf
    obtain ⟨b, hb, hbf⟩ := hi.free_carved f hf
    exact List.mem_map.mpr ⟨b, hb, hbf⟩
  live_blocks := by
    intro a ha
    obtain ⟨b, hb, _, hptr, hreq⟩ := hi.live_carved a ha
    exact ⟨b.addr, List.mem_map_of_mem hb, hptr, by rw [(hi.sizes b hb).1]; exact hreq⟩
  either := by
    intro f hf
    obtain ⟨b, hb, rfl⟩ := List.mem_map.mp hf
    exact hi.accounted b hb
  not_both := by
    intro f hf hboth
    obtain ⟨b, hb, rfl⟩ := List.mem_map.mp hf
    exact hi.not_live_of_free hboth.1 hboth.2
  live_once := hi.live_nodup
  -- payloads are aligned because headers are a multiple of the alignment
  aligned := by
    intro f hf
    obtain ⟨b, hb, rfl⟩ := List.mem_map.mp hf
    have haddr := hi.tiled.block_aligned L.start_mod b hb
    have hheader := sizeof_aligned x
    simp only [ALLOC_ALIGNMENT] at *
    exact ⟨haddr, by omega⟩
  bump_le := hi.bump_le

/-! ## Section 3: The bump pointer -/

/-- No step lowers the bump pointer. -/
theorem HeapInv.bump_mono (hi : HeapInv L s free) {a : Action} (hok : ExactBump L s a)
    (hn : (heapSystem L).next s a = some s') : s.heap.heap_start ≤ s'.heap.heap_start := by
  cases a with
  | malloc size =>
    rcases hi.malloc_cases hok hn with ⟨pre, _, f, _, _, rfl⟩ | ⟨_, _, rfl⟩ | rfl
    · -- reuse relinks the free list and leaves the bump region alone
      cases pre.getLast?.or none <;> exact Nat.le_refl _
    · exact Nat.le_add_right _ _
    · exact Nat.le_refl _
  | free ptr => exact Nat.le_of_eq (bump_free hn).symm
  | write ptr i v => exact Nat.le_of_eq (bump_write hn).symm

/-- No run does. -/
theorem bump_mono_of_bounded (L : IslandHeap x) (hi : HeapInv L.toHeapLayout s free)
    (h : ((heapSystem L.toHeapLayout).startingAt s).ReachableUnder
      (BoundedRequest L.toHeapLayout) s') : s.heap.heap_start ≤ s'.heap.heap_start := by
  have hinv : (∃ free', HeapInv L.toHeapLayout s' free') ∧
      s.heap.heap_start ≤ s'.heap.heap_start := by
    apply h.invariant_from
    · exact ⟨⟨free, hi⟩, Nat.le_refl _⟩
    · intro t a t' ht hok hn
      obtain ⟨⟨free', hi'⟩, hle⟩ := ht
      have hexact := exactBump_of_bounded L hi' hok
      exact ⟨heapInv_next hi' hexact hn, hle.trans (hi'.bump_mono hexact hn)⟩
  exact hinv.2

/-- **Conservation of the heap**, for both word sizes, every heap in the
    memory island and every sequence of calls whose requests are bounded by
    the length of the heap, with clients that write to what they have asked
    for: in every state reached, the blocks stored in the headers tile the
    heap up to the bump pointer and are accounted for, and from there on
    the bump pointer never decreases. -/
theorem heap_conserved (x : Xlen) (L : IslandHeap x) (s : State)
    (h : (heapSystem L.toHeapLayout).ReachableUnder (BoundedRequest L.toHeapLayout) s) :
    (∃ blocks free, Conserved L.toHeapLayout s blocks free) ∧
    ∀ s', ((heapSystem L.toHeapLayout).startingAt s).ReachableUnder
      (BoundedRequest L.toHeapLayout) s' → s.heap.heap_start ≤ s'.heap.heap_start := by
  obtain ⟨free, hi⟩ := heapInv_of_bounded L h
  refine ⟨⟨_, free, hi.conserved ?_⟩, fun s' h' => bump_mono_of_bounded L hi h'⟩
  intro b hb
  -- a block lies in the island, far from a wrap
  have hblock := hi.block hb
  have hbump := hi.bump_le
  have hend := L.end_le
  have hmod := two_pow_32_le_modulus x
  simp only [Block.payload, ALLOC_ALIGNMENT] at *
  omega

/-- The 192 KiB behind a 64 KiB image. -/
def islandHeap64K : IslandHeap .rv32 where
  toHeapLayout := islandHeap
  origin_le := by decide
  end_le := by decide

/-- Three blocks, the middle one freed and given out again for less. -/
theorem three_blocks_conserved : ∃ s : State,
    s.live = [⟨0x48010008, 42⟩, ⟨0x48010080, 10⟩, ⟨0x4801003c, 21⟩] ∧
    ∃ blocks free, Conserved islandHeap s blocks free := by
  have hs := System.reachableUnder_of_replay (heapSystem islandHeap) (BoundedRequest islandHeap)
    startState [.malloc 42, .malloc 58, .malloc 10, .free 0x4801003c, .write 0x48010008 41 7,
      .malloc 21]
    ⟨rfl, rfl, rfl, rfl⟩ rfl
  exact ⟨_, rfl, (heap_conserved .rv32 islandHeap64K _ hs).1⟩

/-- With the middle one of three blocks freed, a request for the whole heap
    returns. -/
theorem bounded_malloc_returns_islandHeap : ∃ s : State,
    s.live = [⟨0x48010008, 42⟩, ⟨0x48010080, 10⟩] ∧
      ∃ s', s.malloc islandHeap 0x30000 = some s' := by
  have hs := System.reachableUnder_of_replay (heapSystem islandHeap) (BoundedRequest islandHeap)
    startState [.malloc 42, .malloc 58, .malloc 10, .free 0x4801003c]
    ⟨rfl, rfl, rfl, rfl⟩ rfl
  exact ⟨_, rfl, bounded_malloc_returns islandHeap64K hs (by decide)⟩

end Alloc
