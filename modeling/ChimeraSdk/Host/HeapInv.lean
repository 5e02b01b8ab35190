import ChimeraSdk.Host.Alloc

/-! # The Heap Invariant

    The blocks tile the heap up to the bump pointer, the free list is
    threaded through the headers of the free ones, and each of the others
    backs one live allocation.  Every operation keeps this, as long as no
    request wraps around; allocator safety follows. -/

open LTS ByteMemory

namespace Alloc

variable {x : Xlen} {L : HeapLayout x} {s s' : State}

/-! ## Section 1: The invariant -/

/-- **Heap invariant**, for the free list `free`. -/
structure HeapInv (L : HeapLayout x) (s : State) (free : List Nat) : Prop where
  tiled : Tiled x L.start s.carved s.heap.heap_start
  bump_le : s.heap.heap_start ≤ L.end_
  chain : FreeList.Chain (s.heap.next x) s.heap.freelist free
  nodup : free.Nodup
  sizes : ∀ b ∈ s.carved, s.heap.size x b.addr = b.size ∧ b.size < x.modulus
  free_carved : ∀ f ∈ free, ∃ b ∈ s.carved, b.addr = f
  live_carved : ∀ a ∈ s.live, ∃ b ∈ s.carved, b.addr ∉ free ∧ a.ptr = b.payload x ∧
    a.request ≤ b.size
  live_nodup : (s.live.map Allocation.ptr).Nodup
  accounted : ∀ b ∈ s.carved, b.addr ∈ free ∨ b.payload x ∈ s.live.map Allocation.ptr

/-- What holds of every block: it starts above zero and ends in the heap. -/
theorem HeapInv.block {free : List Nat} (hi : HeapInv L s free) {b : Block}
    (hb : b ∈ s.carved) :
    0 < b.addr ∧ b.payload x + b.size ≤ s.heap.heap_start ∧
    b.addr + sizeofMemoryBlock x < x.modulus := by
  obtain ⟨hlo, hhi⟩ := hi.tiled.bounds hb
  have hle := header_add_size_le (x := x) b
  have hpos := L.start_pos
  have hend := L.end_lt
  have hbump := hi.bump_le
  simp only [Block.payload]
  omega

/-- The headers end where the bump region starts. -/
theorem HeapInv.header_le {free : List Nat} (hi : HeapInv L s free) {b : Block}
    (hb : b ∈ s.carved) : b.addr + sizeofMemoryBlock x ≤ s.heap.heap_start := by
  have hpayload := (hi.block hb).2.1
  unfold Block.payload at hpayload
  omega

/-- Live allocations are safe. -/
theorem HeapInv.safe {free : List Nat} (hi : HeapInv L s free) : Safe L s := by
  have hlive : ∀ a ∈ s.live, ∃ b ∈ s.carved, a.ptr = b.payload x ∧ a.request ≤ b.size :=
    fun a ha => by
      obtain ⟨b, hb, _, hptr, hreq⟩ := hi.live_carved a ha
      exact ⟨b, hb, hptr, hreq⟩
  refine ⟨?_, ?_, ?_⟩
  · intro a ha
    obtain ⟨b, hb, hptr, hreq⟩ := hlive a ha
    have hlo := (hi.tiled.bounds hb).1
    have hhi := (hi.block hb).2.1
    have hbump := hi.bump_le
    simp only [Block.payload] at hptr hhi
    omega
  · have hpair := List.pairwise_map.mp hi.live_nodup
    refine List.Pairwise.imp_of_mem ?_ hpair
    intro a a' ha ha' hne i hboth
    obtain ⟨b, hb, hptr, hreq⟩ := hlive a ha
    obtain ⟨b', hb', hptr', hreq'⟩ := hlive a' ha'
    have hle := header_add_size_le (x := x) b
    have hle' := header_add_size_le (x := x) b'
    simp only [Allocation.Owns, Block.payload] at hboth hptr hptr'
    rcases hi.tiled.apart hb hb' with h | h | h
    · subst h
      -- one block cannot back two live pointers
      exact hne (hptr.trans hptr'.symm)
    · omega
    · omega
  · intro a ha c hc i hown hhdr
    obtain ⟨b, hb, hptr, hreq⟩ := hlive a ha
    have hle := header_add_size_le (x := x) b
    have hle' := header_add_size_le (x := x) c
    simp only [Allocation.Owns, Block.payload] at hown hptr
    rcases hi.tiled.apart hb hc with h | h | h
    · subst h
      omega
    · omega
    · omega

theorem heapInv_init (h : (heapSystem L).init s) : HeapInv L s [] := by
  obtain ⟨hstart, hfree, hcarved, hlive⟩ := h
  refine ⟨?_, ?_, ?_, List.nodup_nil, ?_, ?_, ?_, ?_, ?_⟩
  · rw [hcarved, hstart]; rfl
  · rw [hstart]; exact L.start_le_end
  · rw [hfree]; exact .nil
  all_goals simp [hcarved, hlive]

/-! ## Section 2: What the headers hold -/

/-- Bytes outside the headers do not matter to the allocator. -/
theorem HeapInv.of_headers {free : List Nat} {mem : Mem} (hi : HeapInv L s free)
    (hmem : ∀ b ∈ s.carved, ∀ n k, b.addr ≤ k → k + n ≤ b.addr + sizeofMemoryBlock x →
      load mem k n = load s.heap.mem k n) :
    HeapInv L { s with heap := { s.heap with mem := mem } } free := by
  have hbytes := sizeofMemoryBlock_eq x
  have hnext : ∀ b ∈ s.carved, load mem b.addr x.bytes = s.heap.next x b.addr :=
    fun b hb => hmem b hb _ _ (Nat.le_refl _) (by omega)
  refine { hi with chain := hi.chain.frame ?_, sizes := ?_ }
  · intro f hf
    obtain ⟨b, hb, rfl⟩ := hi.free_carved f hf
    exact hnext b hb
  · intro b hb
    refine ⟨?_, (hi.sizes b hb).2⟩
    rw [← (hi.sizes b hb).1]
    exact hmem b hb _ _ (by omega) (by omega)

/-- A client writes into its payload, which no header touches. -/
theorem heapInv_write {free : List Nat} {ptr i : Nat} {v : UInt8} (hi : HeapInv L s free)
    (hn : s.write ptr i v = some s') : HeapInv L s' free := by
  unfold State.write at hn
  split at hn
  · rename_i hown
    cases hn
    obtain ⟨a, ha, rfl, hlt⟩ := hown
    obtain ⟨b, hb, _, hptr, hreq⟩ := hi.live_carved a ha
    have hle := header_add_size_le (x := x) b
    simp only [Block.payload] at hptr
    apply hi.of_headers
    intro c hc n k hlo hhi
    have hle' := header_add_size_le (x := x) c
    apply load_update_of_outside
    rcases hi.tiled.apart hb hc with h | h | h
    · subst h
      omega
    · omega
    · omega
  · cases hn

/-! ## Section 3: Free -/

/-- The headers of two blocks of the heap are apart. -/
theorem HeapInv.headersApart {free : List Nat} (hi : HeapInv L s free) {b c : Block}
    (hb : b ∈ s.carved)
    (hc : c ∈ s.carved) (hne : b.addr ≠ c.addr) : HeadersApart x b.addr c.addr := by
  have hle := header_add_size_le (x := x) b
  have hle' := header_add_size_le (x := x) c
  unfold HeadersApart
  rcases hi.tiled.apart hb hc with h | h | h
  · exact absurd (congrArg Block.addr h) hne
  · omega
  · omega

/-- Storing to the link of a block changes that link and no other, and no
    size. -/
theorem HeapInv.setNext {free : List Nat} (hi : HeapInv L s free) {b : Block}
    (hb : b ∈ s.carved) {v : Nat} (hv : v < x.modulus) :
    (s.heap.setNext x b.addr v).next x b.addr = v ∧
    (∀ c ∈ s.carved, c.addr ≠ b.addr →
      (s.heap.setNext x b.addr v).next x c.addr = s.heap.next x c.addr) ∧
    (∀ c ∈ s.carved, (s.heap.setNext x b.addr v).size x c.addr = s.heap.size x c.addr) := by
  refine ⟨Heap.next_setNext_self hv, ?_, ?_⟩
  · intro c hc hne
    exact Heap.next_setNext (hi.headersApart hb hc fun heq => hne heq.symm)
  · intro c hc
    refine Heap.size_setNext ?_
    by_cases heq : b.addr = c.addr
    · exact .inl heq
    · exact .inr (hi.headersApart hb hc heq)

/-- The head of the free list is a word. -/
theorem HeapInv.freelist_lt {free : List Nat} (hi : HeapInv L s free) :
    s.heap.freelist < x.modulus := by
  have hchain := hi.chain
  cases free with
  | nil =>
    have hend := L.end_lt
    rw [hchain.eq_zero]
    omega
  | cons f rest =>
    obtain ⟨hf, _, _⟩ := hchain.head_eq
    obtain ⟨b, hb, hbf⟩ := hi.free_carved f List.mem_cons_self
    have := (hi.block hb).2.2
    omega

/-- A freed pointer leads back to the header of its block. -/
theorem HeapInv.header_of_ptr {free : List Nat} (hi : HeapInv L s free) {b : Block}
    (hb : b ∈ s.carved) :
    (b.payload x + (x.modulus - sizeofMemoryBlock x)) % x.modulus = b.addr ∧
    b.payload x ≠ 0 := by
  have hblock := hi.block hb
  have hpos := sizeof_pos x
  have heq : b.payload x + (x.modulus - sizeofMemoryBlock x) = b.addr + x.modulus := by
    simp only [Block.payload]
    omega
  refine ⟨?_, by simp only [Block.payload]; omega⟩
  rw [heq, Nat.add_mod_right, Nat.mod_eq_of_lt (by omega)]

theorem heapInv_free {free : List Nat} {ptr : Nat} (hi : HeapInv L s free)
    (hn : s.free x ptr = some s') : ∃ free', HeapInv L s' free' := by
  unfold State.free at hn
  split at hn
  · rename_i hok
    cases hn
    by_cases hzero : ptr = 0
    · -- NULL: nothing happens, and no live pointer is NULL
      have hlive : s.live.filter (fun a => a.ptr != ptr) = s.live := by
        rw [List.filter_eq_self]
        intro a ha
        obtain ⟨b, hb, _, hptr, _⟩ := hi.live_carved a ha
        have := (hi.header_of_ptr hb).2
        simp only [bne_iff_ne, ne_eq, hzero, hptr]
        exact this
      refine ⟨free, ?_⟩
      rw [hlive, region_free, if_pos hzero]
      exact hi
    · obtain ⟨a, ha, rfl⟩ := List.mem_map.mp (hok.resolve_left hzero)
      obtain ⟨b, hb, hbfree, hptr, _⟩ := hi.live_carved a ha
      obtain ⟨hself, hother, hsize⟩ := hi.setNext hb hi.freelist_lt
      have hheader := (hi.header_of_ptr hb).1
      refine ⟨b.addr :: free, ?_⟩
      rw [region_free, if_neg hzero, hptr]
      simp only [hheader]
      -- the block leaves the live allocations and heads the free list
      refine ⟨hi.tiled, hi.bump_le, ?_, List.nodup_cons.mpr ⟨hbfree, hi.nodup⟩, ?_, ?_, ?_, ?_, ?_⟩
      · refine .cons (Nat.ne_of_gt (hi.block hb).1) ?_
        show FreeList.Chain (Heap.next x (s.heap.setNext x b.addr s.heap.freelist))
          (Heap.next x (s.heap.setNext x b.addr s.heap.freelist) b.addr) free
        rw [hself]
        refine hi.chain.frame ?_
        intro f hf
        obtain ⟨c, hc, rfl⟩ := hi.free_carved f hf
        exact hother c hc (fun heq => hbfree (heq ▸ hf))
      · intro c hc
        exact ⟨(hsize c hc).trans (hi.sizes c hc).1, (hi.sizes c hc).2⟩
      · intro f hf
        rcases List.mem_cons.mp hf with rfl | hf
        · exact ⟨b, hb, rfl⟩
        · exact hi.free_carved f hf
      · intro a' ha'
        obtain ⟨hmem, hne⟩ := List.mem_filter.mp ha'
        obtain ⟨c, hc, hcfree, hcptr, hcreq⟩ := hi.live_carved a' hmem
        refine ⟨c, hc, ?_, hcptr, hcreq⟩
        intro hin
        rcases List.mem_cons.mp hin with heq | hin
        · have hcb := hi.tiled.eq_of_addr hc hb heq
          rw [hcptr, hcb] at hne
          simp at hne
        · exact hcfree hin
      · exact (List.Sublist.map _ List.filter_sublist).nodup hi.live_nodup
      · intro c hc
        by_cases heq : c.addr = b.addr
        · exact Or.inl (heq ▸ List.mem_cons_self)
        · rcases hi.accounted c hc with h | h
          · exact Or.inl (List.mem_cons_of_mem _ h)
          · right
            obtain ⟨a', ha', hptr'⟩ := List.mem_map.mp h
            refine List.mem_map.mpr ⟨a', List.mem_filter.mpr ⟨ha', ?_⟩, hptr'⟩
            rw [hptr', bne_iff_ne]
            simp only [Block.payload]
            omega
  · cases hn

/-! ## Section 4: Malloc -/

/-- The search has fuel for every free block. -/
theorem HeapInv.free_length {free : List Nat} (hi : HeapInv L s free) :
    free.length < x.modulus := by
  refine hi.chain.length_lt (modulus_pos x) fun f hf => ?_
  obtain ⟨b, hb, rfl⟩ := hi.free_carved f hf
  have := (hi.block hb).2.2
  omega

/-- A block is free exactly when its payload is not live. -/
theorem HeapInv.free_of_not_live {free : List Nat} (hi : HeapInv L s free) {b : Block}
    (hb : b ∈ s.carved) (hlive : b.payload x ∉ s.live.map Allocation.ptr) : b.addr ∈ free :=
  (hi.accounted b hb).resolve_right hlive

theorem HeapInv.not_live_of_free {free : List Nat} (hi : HeapInv L s free) {b : Block}
    (hfree : b.addr ∈ free) :
    b.payload x ∉ s.live.map Allocation.ptr := by
  intro hlive
  obtain ⟨a, ha, hptr⟩ := List.mem_map.mp hlive
  obtain ⟨c, hc, hcfree, hcptr, _⟩ := hi.live_carved a ha
  have haddr : c.addr = b.addr := by
    rw [hcptr] at hptr
    simp only [Block.payload] at hptr
    omega
  exact hcfree (haddr ▸ hfree)

/-- The search of `region_malloc` ends, with the first free block that is
    large enough if there is one. -/
theorem HeapInv.search {free : List Nat} (hi : HeapInv L s free) (size : Nat) :
    ∃ r, FreeList.firstFit (s.heap.next x) (s.heap.size x) size x.modulus none
        s.heap.freelist = some r ∧
      FreeList.Found (s.heap.size x) size none free r :=
  FreeList.firstFit_found hi.chain none hi.free_length

/-- The pointer to a block of the heap is its payload, and not NULL. -/
theorem granted_eq {b : Block} {size : Nat} (hpos : 0 < b.addr)
    (hlt : b.addr + sizeofMemoryBlock x < x.modulus) {o : Outcome}
    (ho : o = .reused b.addr ∨ o = .carved b.addr) :
    State.granted x size o = [{ ptr := b.payload x, request := size }] := by
  have hptr : o.ptr x = b.payload x := by
    rcases ho with rfl | rfl <;> exact Nat.mod_eq_of_lt hlt
  have hne : b.payload x ≠ 0 := by
    simp only [Block.payload]
    omega
  rw [State.granted, hptr, if_neg hne]

/-- Once the free list has lost a block, the block can become live. -/
theorem HeapInv.grant {pre post : List Nat} {b : Block} {size : Nat} {heap : Heap}
    (hi : HeapInv L s (pre ++ b.addr :: post)) (hb : b ∈ s.carved) (hfit : size ≤ b.size)
    (hbump : heap.heap_start = s.heap.heap_start)
    (hchain : FreeList.Chain (heap.next x) heap.freelist (pre ++ post))
    (hsizes : ∀ c ∈ s.carved, heap.size x c.addr = s.heap.size x c.addr) :
    HeapInv L { heap := heap, carved := s.carved,
                live := s.live ++ [{ ptr := b.payload x, request := size }] } (pre ++ post) := by
  have hmem : ∀ f, f ∈ pre ++ post → f ∈ pre ++ b.addr :: post :=
    fun _ hf => FreeList.Chain.mem_of_mem_unlinked hf
  obtain ⟨hbnew, hnodup⟩ := List.nodup_cons.mp (List.perm_middle.nodup_iff.mp hi.nodup)
  have hnotlive := hi.not_live_of_free (b := b)
    (List.mem_append.mpr (Or.inr List.mem_cons_self))
  -- the blocks stay where they are; only the lists change
  refine ⟨hbump ▸ hi.tiled, hbump ▸ hi.bump_le, hchain, hnodup, ?_, ?_, ?_, ?_, ?_⟩
  · intro c hc
    exact ⟨(hsizes c hc).trans (hi.sizes c hc).1, (hi.sizes c hc).2⟩
  · intro f hf
    exact hi.free_carved f (hmem f hf)
  · intro a ha
    rcases List.mem_append.mp ha with ha | ha
    · obtain ⟨c, hc, hcfree, hptr, hreq⟩ := hi.live_carved a ha
      exact ⟨c, hc, fun hin => hcfree (hmem _ hin), hptr, hreq⟩
    · rw [List.mem_singleton] at ha
      subst ha
      exact ⟨b, hb, hbnew, rfl, hfit⟩
  · rw [List.map_append, List.map_singleton, List.nodup_append]
    refine ⟨hi.live_nodup, by simp, ?_⟩
    intro p hp q hq heq
    rw [List.mem_singleton] at hq
    rw [heq, hq] at hp
    exact hnotlive hp
  · intro c hc
    -- a block that was free is free still, or it is the one granted
    rcases hi.accounted c hc with h | h
    · rcases List.mem_append.mp h with h | h
      · exact Or.inl (List.mem_append.mpr (Or.inl h))
      · rcases List.mem_cons.mp h with h | h
        · have hcb := hi.tiled.eq_of_addr hc hb h
          exact Or.inr (by simp [hcb])
        · exact Or.inl (List.mem_append.mpr (Or.inr h))
    · right
      rw [List.map_append]
      exact List.mem_append.mpr (Or.inl h)

/-- Reuse: the first fit leaves the free list and becomes live. -/
theorem HeapInv.reuse {pre post : List Nat} {f size : Nat}
    (hi : HeapInv L s (pre ++ f :: post)) (hfit : size ≤ s.heap.size x f) :
    HeapInv L { heap := s.heap.setLink x (pre.getLast?.or none) (s.heap.next x f),
                carved := s.carved ++ State.carving size (.reused f),
                live := s.live ++ State.granted x size (.reused f) } (pre ++ post) := by
  obtain ⟨b, hb, rfl⟩ := hi.free_carved f (List.mem_append.mpr (Or.inr List.mem_cons_self))
  obtain ⟨hpos, _, hlt⟩ := hi.block hb
  rw [(hi.sizes b hb).1] at hfit
  have hcarving : s.carved ++ State.carving size (.reused b.addr) = s.carved :=
    List.append_nil _
  rw [granted_eq hpos hlt (Or.inl rfl), hcarving]
  rcases List.eq_nil_or_concat' pre with rfl | ⟨pre, c, rfl⟩
  · -- the head of the list: the list variable takes the link
    obtain ⟨_, _, hpost⟩ := hi.chain.head_eq
    exact hi.grant hb hfit rfl hpost (fun _ _ => rfl)
  · -- behind another block: that block takes the link
    have hlast : (pre ++ [c]).getLast?.or none = some c := by simp
    rw [hlast]
    have hfree : pre ++ [c] ++ b.addr :: post = pre ++ c :: b.addr :: post := by simp
    obtain ⟨d, hd, rfl⟩ := hi.free_carved c (by simp)
    obtain ⟨hself, hother, hsize⟩ := hi.setNext hd (v := s.heap.next x b.addr)
      (Heap.next_lt x s.heap b.addr)
    refine hi.grant hb hfit rfl ?_ hsize
    have hnodup := hi.nodup
    have hchain := hi.chain
    rw [hfree] at hnodup hchain
    rw [List.append_assoc, List.singleton_append]
    refine hchain.unlink hself ?_
    intro g hg
    have hgfree : g ∈ pre ++ [d.addr] ++ b.addr :: post := by
      rcases List.mem_append.mp hg with hg | hg <;> simp [hg]
    obtain ⟨e, he, rfl⟩ := hi.free_carved g hgfree
    refine hother e he ?_
    intro heq
    have hnot := (List.nodup_cons.mp (List.perm_middle.nodup_iff.mp hnodup)).1
    rw [heq] at hg
    exact hnot (FreeList.Chain.mem_of_mem_unlinked hg)

/-- Carving: a request that fits into the bump region extends the tiling. -/
theorem HeapInv.carve {free : List Nat} {size : Nat} (hi : HeapInv L s free)
    (hsize : size < x.modulus)
    (hfit : s.heap.heap_start + totalSize x size ≤ L.end_) :
    HeapInv L { heap := { s.heap.setSize x s.heap.heap_start size with
                          heap_start := s.heap.heap_start + totalSize x size },
                carved := s.carved ++ State.carving size (.carved s.heap.heap_start),
                live := s.live ++ State.granted x size (.carved s.heap.heap_start) } free := by
  let b : Block := { addr := s.heap.heap_start, size := size }
  have hle := header_add_size_le (x := x) b
  have hlo := hi.tiled.le
  have hpos := L.start_pos
  have hend := L.end_lt
  simp only [Block.fin, b] at hle
  rw [granted_eq (b := b) (by simp only [b]; omega) (by simp only [b]; omega) (Or.inr rfl)]
  -- the new header lies above every old one
  have hnext : ∀ c ∈ s.carved,
      (s.heap.setSize x s.heap.heap_start size).next x c.addr = s.heap.next x c.addr := by
    intro c hc
    exact Heap.next_setSize (.inr (hi.header_le hc))
  have hsizes : ∀ c ∈ s.carved,
      (s.heap.setSize x s.heap.heap_start size).size x c.addr = s.heap.size x c.addr := by
    intro c hc
    exact Heap.size_setSize (.inr (hi.header_le hc))
  have hnew : b.addr ∉ free := by
    intro hin
    obtain ⟨c, hc, hcb⟩ := hi.free_carved _ hin
    have := hi.header_le hc
    have := sizeof_pos x
    simp only [b] at hcb
    omega
  refine ⟨hi.tiled.concat rfl, hfit, ?_, hi.nodup, ?_, ?_, ?_, ?_, ?_⟩
  · refine hi.chain.frame ?_
    intro f hf
    obtain ⟨c, hc, rfl⟩ := hi.free_carved f hf
    exact hnext c hc
  · intro c hc
    rcases List.mem_append.mp hc with hc | hc
    · exact ⟨(hsizes c hc).trans (hi.sizes c hc).1, (hi.sizes c hc).2⟩
    · rw [State.carving, List.mem_singleton] at hc
      subst hc
      exact ⟨Heap.size_setSize_self hsize, hsize⟩
  · intro f hf
    obtain ⟨c, hc, hcf⟩ := hi.free_carved f hf
    exact ⟨c, List.mem_append.mpr (Or.inl hc), hcf⟩
  · intro a ha
    rcases List.mem_append.mp ha with ha | ha
    · obtain ⟨c, hc, hrest⟩ := hi.live_carved a ha
      exact ⟨c, List.mem_append.mpr (Or.inl hc), hrest⟩
    · rw [List.mem_singleton] at ha
      subst ha
      exact ⟨b, by simp [State.carving, b], hnew, rfl, Nat.le_refl _⟩
  · rw [List.map_append, List.map_singleton, List.nodup_append]
    refine ⟨hi.live_nodup, by simp, ?_⟩
    intro p hp q hq heq
    rw [List.mem_singleton] at hq
    obtain ⟨a, ha, rfl⟩ := List.mem_map.mp hp
    obtain ⟨c, hc, _, hptr, _⟩ := hi.live_carved a ha
    have := hi.header_le hc
    have := sizeof_pos x
    rw [hptr, hq] at heq
    simp only [Block.payload, b] at heq
    omega
  · intro c hc
    rw [List.map_append]
    rcases List.mem_append.mp hc with hc | hc
    · exact (hi.accounted c hc).imp_right (fun h => List.mem_append.mpr (Or.inl h))
    · rw [State.carving, List.mem_singleton] at hc
      subst hc
      exact Or.inr (List.mem_append.mpr (Or.inr List.mem_cons_self))

/-- A request that fits in exact arithmetic does not wrap around. -/
theorem no_wrap {bump size : Nat} (hpos : L.start ≤ bump)
    (hfit : bump + totalSize x size ≤ L.end_) :
    ALLOC_ALIGN x ((size + sizeofMemoryBlock x) % x.modulus) = totalSize x size ∧
    (bump + totalSize x size) % x.modulus = bump + totalSize x size := by
  have hstart := L.start_pos
  have halign := L.start_aligned
  have hend := L.end_lt
  have hle : size + sizeofMemoryBlock x ≤ totalSize x size := Align.le_alignUp (by decide)
  apply no_wrap_of_lt
  · -- the heap starts 32 bytes above zero at least, so the rounding has room
    simp only [ALLOC_ALIGNMENT]
    omega
  · omega

/-- The bump pointer after a request that no free block fits, as
    `region_malloc` computes it. -/
def nextBump (x : Xlen) (s : State) (size : Nat) : Nat :=
  (s.heap.heap_start + ALLOC_ALIGN x ((size + sizeofMemoryBlock x) % x.modulus)) % x.modulus

/-- A call that takes the first fit `f` off the free list. -/
structure Reuses (x : Xlen) (s s' : State) (free pre post : List Nat) (f size : Nat) : Prop where
  split : free = pre ++ f :: post
  fits : size ≤ s.heap.size x f
  state : s' = { heap := s.heap.setLink x (pre.getLast?.or none) (s.heap.next x f),
                 carved := s.carved ++ State.carving size (.reused f),
                 live := s.live ++ State.granted x size (.reused f) }

/-- A call that carves a block off the bump region. -/
structure Carves (L : HeapLayout x) (s s' : State) (size : Nat) : Prop where
  no_fit : NoFreeFit x s size
  size_lt : size < x.modulus
  accepted : nextBump x s size ≤ L.end_
  state : s' = { heap := { s.heap.setSize x s.heap.heap_start size with
                           heap_start := nextBump x s size },
                 carved := s.carved ++ State.carving size (.carved s.heap.heap_start),
                 live := s.live ++ State.granted x size (.carved s.heap.heap_start) }

/-- All that a call of `malloc` can do, with or without a wrap. -/
theorem HeapInv.malloc_split {free : List Nat} {size : Nat} (hi : HeapInv L s free)
    (hn : s.malloc L size = some s') :
    (∃ pre post f, Reuses x s s' free pre post f size) ∨ Carves L s s' size ∨
      (NoFreeFit x s size ∧ L.end_ < nextBump x s size ∧ s' = s) := by
  unfold State.malloc at hn
  by_cases hsize : size < x.modulus
  · rw [if_pos hsize] at hn
    obtain ⟨r, hsearch, hfound⟩ := hi.search size
    cases hfound with
    | node pre post f hfree hpre hfit =>
      rw [region_malloc_reused hsearch] at hn
      exact .inl ⟨pre, post, f, hfree, hfit, (Option.some.inj hn).symm⟩
    | nothing hall =>
      -- the search has gone through all free blocks
      have hnofit : NoFreeFit x s size := by
        intro b hb hlive
        rw [← (hi.sizes b hb).1]
        exact hall _ (hi.free_of_not_live hb hlive)
      by_cases hle : nextBump x s size ≤ L.end_
      · rw [region_malloc_bump hsearch hle] at hn
        exact .inr (.inl ⟨hnofit, hsize, hle, (Option.some.inj hn).symm⟩)
      · have hlt : L.end_ < nextBump x s size := Nat.lt_of_not_le hle
        rw [region_malloc_null hsearch hlt] at hn
        obtain rfl := Option.some.inj hn
        refine .inr (.inr ⟨hnofit, hlt, ?_⟩)
        simp [State.carving, State.granted, Outcome.ptr]
  · rw [if_neg hsize] at hn
    cases hn

/-- All that a call of `malloc` can do when its bump arithmetic is exact:
    reuse the first fit, carve a block, or return NULL. -/
theorem HeapInv.malloc_cases {free : List Nat} {size : Nat} (hi : HeapInv L s free)
    (hok : ExactBump L s (.malloc size)) (hn : s.malloc L size = some s') :
    (∃ pre post f, free = pre ++ f :: post ∧ size ≤ s.heap.size x f ∧
      s' = { heap := s.heap.setLink x (pre.getLast?.or none) (s.heap.next x f),
             carved := s.carved ++ State.carving size (.reused f),
             live := s.live ++ State.granted x size (.reused f) }) ∨
    (size < x.modulus ∧ s.heap.heap_start + totalSize x size ≤ L.end_ ∧
      s' = { heap := { s.heap.setSize x s.heap.heap_start size with
                       heap_start := s.heap.heap_start + totalSize x size },
             carved := s.carved ++ State.carving size (.carved s.heap.heap_start),
             live := s.live ++ State.granted x size (.carved s.heap.heap_start) }) ∨
    s' = s := by
  rcases hi.malloc_split hn with ⟨pre, post, f, hreuse⟩ | hcarve | ⟨_, _, hsame⟩
  · exact .inl ⟨pre, post, f, hreuse.split, hreuse.fits, hreuse.state⟩
  · rcases hok hcarve.no_fit with hfit | hnull
    · obtain ⟨halign, hbump⟩ := no_wrap hi.tiled.le hfit
      have hnext : nextBump x s size = s.heap.heap_start + totalSize x size := by
        rw [nextBump, halign, hbump]
      exact .inr (.inl ⟨hcarve.size_lt, hfit, hnext ▸ hcarve.state⟩)
    · exact absurd hcarve.accepted (Nat.not_le.mpr hnull)
  · exact .inr (.inr hsame)

/-- The bump pointer moves in `malloc` alone. -/
theorem bump_free {ptr : Nat} (hn : s.free x ptr = some s') :
    s'.heap.heap_start = s.heap.heap_start := by
  unfold State.free at hn
  split at hn
  · obtain rfl := Option.some.inj hn
    unfold region_free
    split <;> rfl
  · cases hn

theorem bump_write {ptr i : Nat} {v : UInt8} (hn : s.write ptr i v = some s') :
    s'.heap.heap_start = s.heap.heap_start := by
  unfold State.write at hn
  split at hn
  · obtain rfl := Option.some.inj hn
    rfl
  · cases hn

theorem heapInv_malloc {free : List Nat} {size : Nat} (hi : HeapInv L s free)
    (hok : ExactBump L s (.malloc size)) (hn : s.malloc L size = some s') :
    ∃ free', HeapInv L s' free' := by
  rcases hi.malloc_cases hok hn with ⟨pre, post, f, rfl, hfit, rfl⟩ | ⟨hsize, hfit, rfl⟩ | rfl
  · exact ⟨_, hi.reuse hfit⟩
  · exact ⟨free, hi.carve hsize hfit⟩
  · exact ⟨free, hi⟩

theorem heapInv_next {free : List Nat} {a : Action} (hi : HeapInv L s free)
    (hok : ExactBump L s a) (hn : (heapSystem L).next s a = some s') :
    ∃ free', HeapInv L s' free' := by
  cases a with
  | malloc size => exact heapInv_malloc hi hok hn
  | free ptr => exact heapInv_free hi hn
  | write ptr i v => exact ⟨free, heapInv_write hi hn⟩

/-! ## Section 5: Safety of every run -/

/-- The invariant of every run in which no request wraps around. -/
theorem heapInv_reachable (h : (heapSystem L).ReachableUnder (ExactBump L) s) :
    ∃ free, HeapInv L s free := by
  induction h with
  | init hs => exact ⟨[], heapInv_init hs⟩
  | step a _ hok hn ih =>
    obtain ⟨free, hi⟩ := ih
    exact heapInv_next hi hok hn

/-- **Allocator safety**, for both word sizes, every heap and every
    sequence of calls and of writes by clients: in every run in which the
    bump arithmetic of no request goes wrong, the live allocations are
    safe. -/
theorem safe_of_exact_bump (x : Xlen) (L : HeapLayout x) (s : State)
    (h : (heapSystem L).ReachableUnder (ExactBump L) s) : Safe L s := by
  obtain ⟨free, hi⟩ := heapInv_reachable h
  exact hi.safe

/-- A request that fits no free block fits no block of the free list. -/
theorem HeapInv.size_lt_of_noFreeFit {free : List Nat} {f size : Nat} (hi : HeapInv L s free)
    (hnofit : NoFreeFit x s size) (hf : f ∈ free) : s.heap.size x f < size := by
  obtain ⟨b, hb, rfl⟩ := hi.free_carved f hf
  rw [(hi.sizes b hb).1]
  exact hnofit b hb (hi.not_live_of_free hf)

/-- The condition leaves out no harmless request: in a heap that ends
    aligned, with room for a header below the top of the address space, a
    request that the wrapped comparison wrongly accepts is granted, and
    what is granted does not lie inside the heap. -/
theorem not_safe_of_wrapped {free : List Nat} {size : Nat} (hi : HeapInv L s free)
    (hsize : size < x.modulus) (hend : L.end_ % ALLOC_ALIGNMENT = 0)
    (htop : L.end_ + sizeofMemoryBlock x < x.modulus)
    (hbad : ¬ ExactBump L s (.malloc size)) :
    ∃ s', s.malloc L size = some s' ∧ ¬ Safe L s' := by
  simp only [ExactBump, Classical.not_imp, not_or, Nat.not_lt] at hbad
  obtain ⟨hnofit, hexact, hwrapped⟩ := hbad
  obtain ⟨r, hsearch, hfound⟩ := hi.search size
  have hnone : r = none := by
    -- no free block fits, so the search falls through to the bump region
    cases hfound with
    | nothing _ => rfl
    | node pre post f hfree _ hfit =>
      have hf : f ∈ free := hfree ▸ List.mem_append.mpr (Or.inr List.mem_cons_self)
      exact absurd hfit (Nat.not_le.mpr (hi.size_lt_of_noFreeFit hnofit hf))
  subst hnone
  have hbump := hi.bump_le
  have hlo := hi.tiled.le
  have hpos := L.start_pos
  have hgrant : State.granted x size (.carved s.heap.heap_start) =
      [{ ptr := s.heap.heap_start + sizeofMemoryBlock x, request := size }] :=
    granted_eq (b := { addr := s.heap.heap_start, size := size }) (Nat.lt_of_lt_of_le hpos hlo)
      (Nat.lt_of_le_of_lt (Nat.add_le_add_right hbump _) htop) (Or.inr rfl)
  refine ⟨_, by rw [State.malloc, if_pos hsize, region_malloc_bump hsearch hwrapped], ?_⟩
  intro hsafe
  have hin := (hsafe.inside { ptr := s.heap.heap_start + sizeofMemoryBlock x, request := size }
    (by rw [hgrant]; exact List.mem_append.mpr (Or.inr List.mem_cons_self))).2
  have haligned := hi.tiled.aligned L.start_mod
  -- were the payload inside, the rounded total would fit as well, for the
  -- heap ends aligned
  have hle : totalSize x size ≤ L.end_ - s.heap.heap_start := by
    refine Align.alignUp_le (by decide) (by simp only at hin; omega) ?_
    simp only [ALLOC_ALIGNMENT] at *
    omega
  omega

/-- The heap behind a 64 KiB image in a 256 KiB memory island. -/
def islandHeap : HeapLayout .rv32 where
  start := 0x48010000
  end_ := 0x48040000
  start_pos := by decide
  start_aligned := by decide
  start_le_end := by decide
  end_lt := by decide

def startState : State where
  heap := { mem := fun _ => 0, heap_start := islandHeap.start, freelist := 0 }
  carved := []
  live := []

/-- Two buffers, the first of which is freed and reused. -/
theorem safe_reuse : ∃ s : State,
    s.live = [⟨0x4801003c, 58⟩, ⟨0x48010008, 21⟩] ∧ Safe islandHeap s := by
  have hs := System.reachableUnder_of_replay (heapSystem islandHeap) (ExactBump islandHeap)
    startState [.malloc 42, .malloc 58, .free 0x48010008, .malloc 21]
    ⟨rfl, rfl, rfl, rfl⟩ rfl
  exact ⟨_, rfl, safe_of_exact_bump .rv32 islandHeap _ hs⟩

/-- A request of `0xffffffff` bytes is granted: the size of the block wraps
    around to eight bytes. -/
theorem huge_request_unsafe :
    ¬ ∀ s, (heapSystem islandHeap).Reachable s → Safe islandHeap s := by
  intro hall
  have hs := System.reachable_of_exec (heapSystem islandHeap) startState
    [.malloc 0xffffffff] ⟨rfl, rfl, rfl, rfl⟩ rfl
  exact absurd ((hall _ hs).inside _ List.mem_cons_self) (by decide)

/-- Behind two blocks it is granted as well, and is not safe either. -/
theorem not_safe_of_wrapped_islandHeap : ∃ s : State,
    s.live = [⟨0x48010008, 42⟩, ⟨0x4801003c, 58⟩] ∧
    ∃ s', s.malloc islandHeap 0xffffffff = some s' ∧ ¬ Safe islandHeap s' := by
  have hs := System.reachableUnder_of_replay (heapSystem islandHeap) (ExactBump islandHeap)
    startState [.malloc 42, .malloc 58] ⟨rfl, rfl, rfl, rfl⟩ rfl
  obtain ⟨free, hi⟩ := heapInv_reachable hs
  exact ⟨_, rfl, not_safe_of_wrapped hi (by decide) (by decide) (by decide) (by decide)⟩

end Alloc
