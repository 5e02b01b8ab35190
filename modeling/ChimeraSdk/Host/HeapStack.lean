import ChimeraSdk.Host.HeapConservation

/-! # The Heap and the Stack of the Host

    `link.ld.in` gives the memory island two users behind the image: the
    heap grows up from `__l2_heap_start`, the host stack grows down from
    `__stack_pointer$`.  The heap ends where the stack starts, and
    `region_malloc` compares with that end alone, whatever the depth of
    the stack.

    The system below interleaves calls of the allocator, writes by its
    clients, movements of the stack pointer and writes to the stack. -/

open LTS ByteMemory

namespace Alloc

/-! ## Section 1: The system -/

/-- `__stack_pointer$ = ORIGIN(memisl) + LENGTH(memisl);` -/
def stackPointer (t : LinkLd.Target) : Nat :=
  (LinkLd.memory t .memisl).origin + (LinkLd.memory t .memisl).length

/-- `__l2_heap_end` is the same address. -/
theorem stackPointer_eq (t : LinkLd.Target) : stackPointer t = LinkLd.l2HeapEnd t := rfl

/-- The heap of an image that the linker has produced. -/
structure LinkedHeap (x : Xlen) (t : LinkLd.Target) extends HeapLayout x where
  prevEnd : Option Nat
  host : LinkLd.Host
  image : LinkLd.Image
  linked : LinkLd.linkHost t prevEnd host = some image
  start_eq : image.symbols.lookup (.start .l2Heap) = some start
  end_eq : end_ = LinkLd.l2HeapEnd t

/-- Every image of the host that links has such a heap. -/
theorem exists_linkedHeap (x : Xlen) {t : LinkLd.Target} {prevEnd : Option Nat}
    {h : LinkLd.Host} {image : LinkLd.Image} (hlink : LinkLd.linkHost t prevEnd h = some image) :
    ∃ L : LinkedHeap x t, L.prevEnd = prevEnd ∧ L.host = h ∧ L.image = image := by
  obtain ⟨L, hstart, hend⟩ := exists_islandHeap x hlink
  exact ⟨{ toHeapLayout := L.toHeapLayout, prevEnd := prevEnd, host := h, image := image,
           linked := hlink, start_eq := hstart, end_eq := hend }, rfl, rfl, rfl⟩

/-- The heap, and the number of bytes on the stack. -/
structure StackState where
  heap : State
  depth : Nat

/-- A step of the allocator or of its clients, a new stack depth, or a
    write to a byte of the stack. -/
inductive StackAction where
  | heap (a : Action)
  | stack (depth : Nat)
  | push (addr : Nat) (v : UInt8)

variable {x : Xlen} {t : LinkLd.Target}

/-- The addresses of the stack. -/
def OnStack (t : LinkLd.Target) (depth i : Nat) : Prop :=
  stackPointer t - depth ≤ i ∧ i < stackPointer t

instance (t : LinkLd.Target) (depth i : Nat) : Decidable (OnStack t depth i) :=
  inferInstanceAs (Decidable (_ ∧ _))

/-- The stack is above the bump pointer. -/
def AboveBump (t : LinkLd.Target) (s : State) (depth : Nat) : Prop :=
  s.heap.heap_start + depth ≤ stackPointer t

instance (t : LinkLd.Target) (s : State) (depth : Nat) : Decidable (AboveBump t s depth) :=
  Nat.decLe _ _

/-- The stack is never empty, and it grows where it stays above the bump
    pointer. -/
def stackSystem (L : LinkedHeap x t) : System StackState StackAction where
  init := fun s => (heapSystem L.toHeapLayout).init s.heap ∧ 0 < s.depth ∧
    AboveBump t s.heap s.depth
  next := fun s a =>
    match a with
    | .heap a => ((heapSystem L.toHeapLayout).next s.heap a).map fun heap => { s with heap := heap }
    | .stack depth =>
        if 0 < depth ∧ (depth ≤ s.depth ∨ AboveBump t s.heap depth) then
          some { s with depth := depth }
        else none
    | .push addr v =>
        if OnStack t s.depth addr then
          some { s with heap := { s.heap with heap :=
            { s.heap.heap with mem := Function.update s.heap.heap.mem addr v } } }
        else none

/-- The block has a byte on the stack. -/
def OverlapsStack (x : Xlen) (t : LinkLd.Target) (depth : Nat) (b : Block) : Prop :=
  ∃ i, b.addr ≤ i ∧ i < b.fin x ∧ OnStack t depth i

/-- What the call that leads from `s` to `s'` has returned, with its
    header, shares no byte with the stack. -/
def ReturnsClear (x : Xlen) (t : LinkLd.Target) (s s' : StackState) : Prop :=
  ∀ a, s'.heap.live = s.heap.live ++ [a] → ∀ b ∈ s'.heap.carved, a.ptr = b.payload x →
    ¬ OverlapsStack x t s'.depth b

/-- A request that fits no free block either leaves the bump pointer below
    the stack, in exact arithmetic, or is refused. -/
def StaysBelowStack (L : LinkedHeap x t) (s : StackState) : StackAction → Prop
  | .heap (.malloc size) => NoFreeFit x s.heap size →
      s.heap.heap.heap_start + totalSize x size + s.depth ≤ stackPointer t ∨
      L.end_ < (s.heap.heap.heap_start +
        ALLOC_ALIGN x ((size + sizeofMemoryBlock x) % x.modulus)) % x.modulus
  | _ => True

instance (L : LinkedHeap x t) (s : StackState) (a : StackAction) :
    Decidable (StaysBelowStack L s a) :=
  match a with
  | .heap (.malloc size) => inferInstanceAs (Decidable
      ((∀ b ∈ s.heap.carved, b.payload x ∉ s.heap.live.map Allocation.ptr → b.size < size) →
        s.heap.heap.heap_start + totalSize x size + s.depth ≤ stackPointer t ∨
        L.end_ < (s.heap.heap.heap_start +
          ALLOC_ALIGN x ((size + sizeofMemoryBlock x) % x.modulus)) % x.modulus))
  | .heap (.free _) => isTrue trivial
  | .heap (.write _ _ _) => isTrue trivial
  | .stack _ => isTrue trivial
  | .push _ _ => isTrue trivial

/-! ## Section 2: The invariant -/

/-- **Stack invariant**: the heap is in order, and the stack is above the
    bump pointer. -/
structure StackInv (L : LinkedHeap x t) (s : StackState) (free : List Nat) : Prop where
  heap : HeapInv L.toHeapLayout s.heap free
  depth_pos : 0 < s.depth
  above : AboveBump t s.heap s.depth

variable {L : LinkedHeap x t} {s s' : StackState} {free : List Nat}

/-- A block below the bump pointer is clear of a stack above it. -/
theorem not_overlaps_of_fin_le {b : Block} {bump depth : Nat} (hfin : b.fin x ≤ bump)
    (habove : bump + depth ≤ stackPointer t) : ¬ OverlapsStack x t depth b := by
  rintro ⟨i, _, hlt, hlow, _⟩
  omega

/-- No block overlaps the stack. -/
theorem StackInv.not_overlaps (hi : StackInv L s free) {b : Block} (hb : b ∈ s.heap.carved) :
    ¬ OverlapsStack x t s.depth b :=
  not_overlaps_of_fin_le (hi.heap.tiled.bounds hb).2 hi.above

theorem stackInv_init (h : (stackSystem L).init s) : StackInv L s [] :=
  ⟨heapInv_init h.1, h.2.1, h.2.2⟩

/-- Below the stack the bump arithmetic is exact. -/
theorem exactBump_of_staysBelow {a : Action} (h : StaysBelowStack L s (.heap a)) :
    ExactBump L.toHeapLayout s.heap a := by
  cases a with
  | malloc size =>
    intro hnofit
    have hend : L.end_ = stackPointer t := L.end_eq.trans (stackPointer_eq t).symm
    rcases h hnofit with hfit | hnull
    · exact .inl (by omega)
    · exact .inr hnull
  | free ptr => trivial
  | write ptr i v => trivial

/-- A write to the stack touches no header. -/
theorem StackInv.push (hi : StackInv L s free) {addr : Nat} {v : UInt8}
    (hon : OnStack t s.depth addr) :
    StackInv L { s with heap := { s.heap with heap :=
      { s.heap.heap with mem := Function.update s.heap.heap.mem addr v } } } free := by
  have habove : s.heap.heap.heap_start + s.depth ≤ stackPointer t := hi.above
  refine ⟨hi.heap.of_headers ?_, hi.depth_pos, hi.above⟩
  intro b hb n k hlo hhi
  have hheader := hi.heap.header_le hb
  apply load_update_of_outside
  have hlow := hon.1
  omega

/-- A block carved below the stack leaves the stack above the bump
    pointer. -/
theorem StackInv.carve_above (hi : StackInv L s free) {heap : State} {size : Nat}
    (hcarve : Carves L.toHeapLayout s.heap heap size)
    (hok : StaysBelowStack L s (.heap (.malloc size))) :
    s.heap.heap.heap_start + totalSize x size + s.depth ≤ stackPointer t ∧
      heap.heap.heap_start = s.heap.heap.heap_start + totalSize x size := by
  have hend : L.end_ = stackPointer t := L.end_eq.trans (stackPointer_eq t).symm
  rcases hok hcarve.no_fit with hbelow | hrefused
  · have hpos : L.toHeapLayout.start ≤ s.heap.heap.heap_start := hi.heap.tiled.le
    have hfit : s.heap.heap.heap_start + totalSize x size ≤ L.toHeapLayout.end_ := by omega
    obtain ⟨halign, hbump⟩ := no_wrap hpos hfit
    refine ⟨hbelow, ?_⟩
    rw [hcarve.state, ← hbump, ← halign]
    rfl
  · exact absurd hcarve.accepted (Nat.not_le.mpr hrefused)

/-- No step of the heap that stays below the stack moves the bump pointer
    into it. -/
theorem StackInv.heap_above (hi : StackInv L s free) {a : Action} {heap : State}
    (hok : StaysBelowStack L s (.heap a))
    (hn : (heapSystem L.toHeapLayout).next s.heap a = some heap) : AboveBump t heap s.depth := by
  have habove : s.heap.heap.heap_start + s.depth ≤ stackPointer t := hi.above
  show heap.heap.heap_start + s.depth ≤ stackPointer t
  cases a with
  | malloc size =>
    rcases hi.heap.malloc_split hn with ⟨pre, post, f, hreuse⟩ | hcarve | ⟨_, _, rfl⟩
    · rw [hreuse.state, Heap.setLink_heap_start]
      exact habove
    · obtain ⟨hbelow, hbump⟩ := hi.carve_above hcarve hok
      rw [hbump]
      exact hbelow
    · exact habove
  | free ptr =>
    rw [bump_free hn]
    exact habove
  | write ptr i v =>
    rw [bump_write hn]
    exact habove

/-- **Step lemma**: a request that stays below the stack, and every other
    step, keeps the invariant. -/
theorem stackInv_next {a : StackAction} (hi : StackInv L s free) (hok : StaysBelowStack L s a)
    (hn : (stackSystem L).next s a = some s') : ∃ free', StackInv L s' free' := by
  cases a with
  | heap a =>
    obtain ⟨heap, hheap, rfl⟩ := Option.map_eq_some_iff.mp hn
    obtain ⟨free', hi'⟩ := heapInv_next hi.heap (exactBump_of_staysBelow hok) hheap
    exact ⟨free', hi', hi.depth_pos, hi.heap_above hok hheap⟩
  | stack depth =>
    have hstack : (if 0 < depth ∧ (depth ≤ s.depth ∨ AboveBump t s.heap depth) then
        some { s with depth := depth } else none) = some s' := hn
    by_cases hgrow : 0 < depth ∧ (depth ≤ s.depth ∨ AboveBump t s.heap depth)
    · rw [if_pos hgrow] at hstack
      obtain rfl := Option.some.inj hstack
      refine ⟨free, hi.heap, hgrow.1, ?_⟩
      have habove : s.heap.heap.heap_start + s.depth ≤ stackPointer t := hi.above
      rcases hgrow.2 with hless | hmore
      · -- a stack that shrinks stays above
        show s.heap.heap.heap_start + depth ≤ stackPointer t
        omega
      · exact hmore
    · rw [if_neg hgrow] at hstack
      cases hstack
  | push addr v =>
    have hpush : (if OnStack t s.depth addr then
        some { s with heap := { s.heap with heap :=
          { s.heap.heap with mem := Function.update s.heap.heap.mem addr v } } }
        else none) = some s' := hn
    by_cases hon : OnStack t s.depth addr
    · rw [if_pos hon] at hpush
      obtain rfl := Option.some.inj hpush
      exact ⟨free, hi.push hon⟩
    · rw [if_neg hon] at hpush
      cases hpush

/-- **Run lemma**: the invariant of every run in which the requests stay
    below the stack. -/
theorem stackInv_reachable (h : (stackSystem L).ReachableUnder (StaysBelowStack L) s) :
    ∃ free, StackInv L s free := by
  apply h.invariant
  · intro s hinit
    exact ⟨[], stackInv_init hinit⟩
  · rintro s a s' ⟨free, hi⟩ hok hn
    exact stackInv_next hi hok hn

/-! ## Section 3: What is returned -/

/-- A block that ends above the depth of the stack has a byte on it. -/
theorem StackInv.overlaps_carved (hi : StackInv L s free) {size : Nat}
    (hhigh : stackPointer t < s.heap.heap.heap_start + totalSize x size + s.depth) :
    OverlapsStack x t s.depth { addr := s.heap.heap.heap_start, size := size } := by
  have habove : s.heap.heap.heap_start + s.depth ≤ stackPointer t := hi.above
  have hdepth := hi.depth_pos
  -- the lowest byte of the stack
  refine ⟨stackPointer t - s.depth, ?_, ?_, Nat.le_refl _, by omega⟩
  · show s.heap.heap.heap_start ≤ stackPointer t - s.depth
    omega
  · show stackPointer t - s.depth < s.heap.heap.heap_start + totalSize x size
    omega

/-- A free block that fits is not overlooked. -/
theorem HeapInv.not_reuses {L : HeapLayout x} {s s' : State} {pre post : List Nat} {f size : Nat}
    (hi : HeapInv L s free) (hnofit : NoFreeFit x s size) :
    ¬ Reuses x s s' free pre post f size := by
  intro hreuse
  have hf : f ∈ free := hreuse.split ▸ List.mem_append.mpr (.inr List.mem_cons_self)
  exact absurd hreuse.fits (Nat.not_le.mpr (hi.size_lt_of_noFreeFit hnofit hf))

/-- The pointer to a block carved in the memory island. -/
theorem Carves.live (hi : StackInv L s free) {heap : State} {size : Nat}
    (hcarve : Carves L.toHeapLayout s.heap heap size) :
    heap.live = s.heap.live ++
      [{ ptr := s.heap.heap.heap_start + sizeofMemoryBlock x, request := size }] := by
  have habove : s.heap.heap.heap_start + s.depth ≤ stackPointer t := hi.above
  have hstart : L.start ≤ s.heap.heap.heap_start := hi.heap.tiled.le
  have hpos := L.start_pos
  have htop : stackPointer t ≤ 0x48040000 := by
    cases t <;> decide
  have hmod := two_pow_32_le_modulus x
  have hheader : sizeofMemoryBlock x ≤ 16 := by
    cases x <;> decide
  rw [hcarve.state]
  show s.heap.live ++ State.granted x size (.carved s.heap.heap.heap_start) = _
  rw [granted_eq (b := { addr := s.heap.heap.heap_start, size := size })
    (Nat.lt_of_lt_of_le hpos hstart) (by show s.heap.heap.heap_start + _ < _; omega) (.inr rfl)]
  rfl

/-- **Heap and stack**, for both word sizes and every image of the host
    that links: after every run of calls, client writes, stack movements
    and stack writes in which the requests have stayed below the stack, a
    call returns a block clear of the stack exactly when it stays below
    the stack again. -/
theorem malloc_clear_of_stack_iff (x : Xlen) (t : LinkLd.Target) (L : LinkedHeap x t)
    (s s' : StackState) (size : Nat)
    (h : (stackSystem L).ReachableUnder (StaysBelowStack L) s)
    (hn : (stackSystem L).next s (.heap (.malloc size)) = some s') :
    ReturnsClear x t s s' ↔ StaysBelowStack L s (.heap (.malloc size)) := by
  obtain ⟨free, hi⟩ := stackInv_reachable h
  constructor
  · intro hclear hnofit
    obtain ⟨heap, hheap, rfl⟩ := Option.map_eq_some_iff.mp hn
    by_contra hneither
    rw [not_or, Nat.not_le, Nat.not_lt] at hneither
    obtain ⟨hhigh, haccepted⟩ := hneither
    rcases hi.heap.malloc_split hheap with ⟨pre, post, f, hreuse⟩ | hcarve | ⟨_, hrefused, _⟩
    · exact hi.heap.not_reuses hnofit hreuse
    · have hcarved : { addr := s.heap.heap.heap_start, size := size } ∈ heap.carved := by
        rw [hcarve.state]
        exact List.mem_append.mpr (.inr List.mem_cons_self)
      exact hclear _ (hcarve.live hi) _ hcarved rfl (hi.overlaps_carved hhigh)
    · exact absurd haccepted (Nat.not_le.mpr hrefused)
  · intro hok a _ b hb _
    obtain ⟨free', hi'⟩ := stackInv_next hi hok hn
    exact hi'.not_overlaps hb

theorem smallHeap_pos : 0 < 0x48001020 := by decide
theorem smallHeap_aligned : 0x48001020 % 32 = 0 := by decide
theorem smallHeap_le_end : 0x48001020 ≤ 0x48040000 := by decide
theorem smallHeap_end_lt : 0x48040000 < Xlen.rv32.modulus := by decide

/-- The heap behind a small image of chimera-convolve. -/
def smallLinkedHeap : LinkedHeap .rv32 .chimeraConvolve where
  start := 0x48001020
  end_ := 0x48040000
  start_pos := smallHeap_pos
  start_aligned := smallHeap_aligned
  start_le_end := smallHeap_le_end
  end_lt := smallHeap_end_lt
  prevEnd := none
  host := LinkLd.smallHost
  image := (LinkLd.linkHost .chimeraConvolve none LinkLd.smallHost).get rfl
  linked := (Option.some_get _).symm
  start_eq := rfl
  end_eq := rfl

/-- An empty heap under a stack of 64 bytes. -/
def smallStack : StackState where
  heap :=
    { heap := { mem := fun _ => 0, heap_start := 0x48001020, freelist := 0 }, carved := [],
      live := [] }
  depth := 64

theorem smallStack_init : (stackSystem smallLinkedHeap).init smallStack :=
  ⟨⟨rfl, rfl, rfl, rfl⟩, by decide, by decide⟩

/-- The stack grows between two calls. -/
theorem small_requests_clear : ∃ s s' : StackState, s.depth = 4096 ∧
    (stackSystem smallLinkedHeap).next s (.heap (.malloc 58)) = some s' ∧
    ReturnsClear .rv32 .chimeraConvolve s s' := by
  have hs := System.reachableUnder_of_replay (stackSystem smallLinkedHeap)
    (StaysBelowStack smallLinkedHeap) smallStack
    [.heap (.malloc 42), .stack 4096, .push 0x4803f000 7] smallStack_init rfl
  have hnext := (malloc_clear_of_stack_iff .rv32 .chimeraConvolve smallLinkedHeap _ _ 58 hs rfl).mpr
  exact ⟨_, _, rfl, rfl, hnext (by decide)⟩

/-- A request for all of the heap is granted, and the block ends where the
    stack starts. -/
theorem whole_heap_overlaps_stack :
    ¬ ∀ s s' size, (stackSystem smallLinkedHeap).Reachable s →
      (stackSystem smallLinkedHeap).next s (.heap (.malloc size)) = some s' →
      ReturnsClear .rv32 .chimeraConvolve s s' := by
  intro hall
  have hclear := hall smallStack _ 0x3efd8 (.init smallStack_init) rfl
  apply hclear _ rfl _ List.mem_cons_self rfl
  exact ⟨0x4803ffc0, by decide, by decide, by decide⟩

end Alloc
