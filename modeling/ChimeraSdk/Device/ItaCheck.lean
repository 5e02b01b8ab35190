import ChimeraSdk.Device.Snrt

/-! # Comparing with the Golden Result

    `check` compares a result with the golden one in chunks that fit a
    quarter of its buffer.  While one pair of chunks is compared, the DMA
    engine fetches the next pair into the other half. -/

open Cluster ByteMemory

namespace Snrt

/-! ## Section 1: The program -/

/-- The arguments of `check` that are not only printed. -/
structure CheckArgs where
  data : Nat
  golden : Nat
  size : Nat
  l1_buffer : Nat
  l1_size : Nat

namespace CheckArgs

variable (x : CheckArgs)

def buffer_size : Nat := x.l1_size / 4

def buffer (i : Nat) : Nat := x.l1_buffer + i * x.buffer_size

/-- `(remaining < buffer_size) ? remaining : buffer_size` -/
def chunk (remaining : Nat) : Nat :=
  if remaining < x.buffer_size then remaining else x.buffer_size

end CheckArgs

/-- `if (data_val != golden_val) errors++;` -/
def countError (data_ptr golden_ptr : Nat) (m : Mem × Nat) : Mem × Nat :=
  (m.1, if m.1 data_ptr ≠ m.1 golden_ptr then m.2 + 1 else m.2)

def compareChunk (data_ptr golden_ptr check_size : Nat) : List (Mem × Nat → Mem × Nat) :=
  (List.range check_size).map fun j => countError (data_ptr + j) (golden_ptr + j)

variable (x : CheckArgs)

/-- The transfers of a pair of chunks. -/
def startPair [Runtime] (buffer_index : Bool) (processed copy_size : Nat) : List (Op Nat) :=
  [snrt_dma_start_1d (x.buffer (2 * buffer_index.toNat)) (x.data + processed) copy_size,
    snrt_dma_start_1d (x.buffer (2 * buffer_index.toNat + 1)) (x.golden + processed) copy_size]

/-- The transfers of the next pair, `if (copy_size > 0)`. -/
def startNext [Runtime] (buffer_index : Bool) (processed copy_size : Nat) : List (Op Nat) :=
  if 0 < copy_size then startPair x buffer_index processed copy_size else []

/-- `while (remaining > 0)`: what the loop does, if it ends within `fuel`
    passes. -/
def checkLoop [Runtime] : Nat → Nat → Nat → Bool → Option (List (Op Nat))
  | 0, remaining, _, _ => if remaining = 0 then some [] else none
  | fuel + 1, remaining, processed, buffer_index =>
      if remaining = 0 then some []
      else
        let check_size := x.chunk remaining
        let remaining := remaining - check_size
        let processed := processed + check_size
        let copy_size := x.chunk remaining
        (checkLoop fuel remaining processed (!buffer_index)).map fun rest =>
          snrt_dma_wait_all ::
            (startNext x (!buffer_index) processed copy_size ++
              ((compareChunk (x.buffer (2 * buffer_index.toNat))
                (x.buffer (2 * buffer_index.toNat + 1)) check_size).map .act ++ rest))

/-- `check`, which returns the number of errors. -/
def check [Runtime] (fuel : Nat) : Option (List (Op Nat)) :=
  (checkLoop x fuel x.size 0 false).map fun loop =>
    startPair x false 0 (x.chunk x.size) ++ (loop ++ [snrt_dma_wait_all])

/-! ## Section 2: Chunks and buffers -/

namespace CheckArgs

/-- The buffer of `check` is apart from what it compares. -/
structure Placed (x : CheckArgs) : Prop where
  data : Apart x.l1_buffer x.l1_size x.data x.size
  golden : Apart x.l1_buffer x.l1_size x.golden x.size

variable {x}

theorem chunk_le (remaining : Nat) : x.chunk remaining ≤ remaining := by
  unfold chunk
  split <;> omega

theorem chunk_le_buffer (remaining : Nat) : x.chunk remaining ≤ x.buffer_size := by
  unfold chunk
  split <;> omega

theorem four_buffers : 4 * x.buffer_size ≤ x.l1_size := by
  unfold buffer_size
  omega

theorem buffer_in {i : Nat} (hi : i < 4) :
    x.l1_buffer ≤ x.buffer i ∧ x.buffer i + x.buffer_size ≤ x.l1_buffer + x.l1_size := by
  have hfour : 4 * x.buffer_size ≤ x.l1_size := four_buffers
  have hmul : (i + 1) * x.buffer_size ≤ 4 * x.buffer_size := Nat.mul_le_mul_right _ hi
  rw [Nat.succ_mul] at hmul
  unfold buffer
  omega

theorem buffer_apart {i j n k : Nat} (hne : i ≠ j) (hn : n ≤ x.buffer_size)
    (hk : k ≤ x.buffer_size) : Apart (x.buffer i) n (x.buffer j) k := by
  unfold Apart buffer
  obtain hlt | hlt := Nat.lt_or_gt_of_ne hne
  · have hmul : (i + 1) * x.buffer_size ≤ j * x.buffer_size := Nat.mul_le_mul_right _ hlt
    rw [Nat.succ_mul] at hmul
    omega
  · have hmul : (j + 1) * x.buffer_size ≤ i * x.buffer_size := Nat.mul_le_mul_right _ hlt
    rw [Nat.succ_mul] at hmul
    omega

/-- A region that is apart from the whole buffer is apart from the chunks
    in it. -/
theorem apart_buffer {i n a k : Nat} {total : Nat} (hi : i < 4) (hn : n ≤ x.buffer_size)
    (h : Apart x.l1_buffer x.l1_size a total) {o : Nat} (hk : o + k ≤ total) :
    Apart (x.buffer i) n (a + o) k := by
  have hin := buffer_in (x := x) hi
  exact h.mono hin.1 (by omega) (by omega) (by omega)

end CheckArgs

/-! ## Section 3: What overlaps commutes -/

section Overlap

variable {x} {I : Mem × Nat → Prop} {b : Bool} {processed copy_size : Nat}
  {ops : List (Op Nat)}

/-- The transfers of a pair of chunks, in flight. -/
def pairInFlight (k : Fin 1) (x : CheckArgs) (b : Bool) (processed copy_size : Nat) :
    List (Task 1 (Mem × Nat) Engine) :=
  started k (started k [] (x.buffer (2 * b.toNat)) (x.data + processed) copy_size)
    (x.buffer (2 * b.toNat + 1)) (x.golden + processed) copy_size

theorem pairInFlight_inFlight : InFlight (pairInFlight 0 x b processed copy_size) :=
  InFlight.started (InFlight.started (fun _ ht => absurd ht List.not_mem_nil))

theorem toNat_bound (b : Bool) : b.toNat ≤ 1 := Bool.toNat_le b

/-- The two transfers fill different buffers, from outside both. -/
theorem startPair_ordered (hx : x.Placed) (hcopy : copy_size ≤ x.buffer_size)
    (hfit : processed + copy_size ≤ x.size)
    (hops : Ordered I (0 : Fin 1) (pairInFlight 0 x b processed copy_size) ops) :
    Ordered I (0 : Fin 1) [] (startPair x b processed copy_size ++ ops) := by
  have hb := toNat_bound b
  apply ordered_start (CheckArgs.apart_buffer (by omega) hcopy hx.data hfit)
    (fun f _ t ht => absurd ht List.not_mem_nil)
  apply ordered_start (CheckArgs.apart_buffer (by omega) hcopy hx.golden hfit) _ hops
  intro f hf t ht
  have hrun := (mem_started ht).resolve_left List.not_mem_nil
  exact transfer_comm (CheckArgs.buffer_apart (by omega) hcopy hcopy)
    (CheckArgs.apart_buffer (by omega) hcopy hx.golden hfit).symm
    (CheckArgs.apart_buffer (by omega) hcopy hx.data hfit).symm f hf t.run hrun

theorem startPair_free : ∀ op ∈ startPair x b processed copy_size, op.isBarrier = false := by
  intro op hop
  simp only [startPair, List.mem_cons, List.not_mem_nil, or_false] at hop
  obtain rfl | rfl := hop <;> rfl

theorem checkLoop_free {fuel remaining : Nat}
    (h : checkLoop x fuel remaining processed b = some ops) :
    ∀ op ∈ ops, op.isBarrier = false := by
  induction fuel generalizing remaining processed b ops with
  | zero =>
    unfold checkLoop at h
    split at h
    · obtain rfl := Option.some.inj h
      exact fun op hop => absurd hop List.not_mem_nil
    · cases h
  | succ fuel ih =>
    unfold checkLoop at h
    split at h
    · obtain rfl := Option.some.inj h
      exact fun op hop => absurd hop List.not_mem_nil
    · obtain ⟨rest, hrest, rfl⟩ := Option.map_eq_some_iff.mp h
      intro op hop
      obtain rfl | hop := List.mem_cons.mp hop
      · rfl
      obtain hnext | hop := List.mem_append.mp hop
      · unfold startNext at hnext
        split at hnext
        · exact startPair_free op hnext
        · cases hnext
      obtain hact | hop := List.mem_append.mp hop
      · obtain ⟨f, _, rfl⟩ := List.mem_map.mp hact
        rfl
      · exact ih hrest op hop

theorem startNext_ordered (hx : x.Placed) (hcopy : copy_size ≤ x.buffer_size)
    (hfit : processed + copy_size ≤ x.size)
    (hops : Ordered I (0 : Fin 1) (pairInFlight 0 x b processed copy_size) ops) :
    Ordered I (0 : Fin 1) [] (startNext x b processed copy_size ++ ops) := by
  unfold startNext
  by_cases hpos : 0 < copy_size
  · rw [if_pos hpos]
    exact startPair_ordered hx hcopy hfit hops
  · obtain rfl : copy_size = 0 := by omega
    rw [if_neg hpos]
    exact hops

theorem countError_looksAt (p q : Nat) : LooksAt (fun a => a = p ∨ a = q) (countError p q) := by
  refine ⟨fun mem errors => if mem p ≠ mem q then errors + 1 else errors, fun _ => rfl, ?_⟩
  intro mem mem' hsame
  dsimp only
  rw [hsame p (.inl rfl), hsame q (.inr rfl)]

/-- The comparisons look at the buffers that are not being filled. -/
theorem compareChunk_comm {n : Nat} (hn : n ≤ x.buffer_size) (hcopy : copy_size ≤ x.buffer_size) :
    ∀ f ∈ compareChunk (x.buffer (2 * b.toNat))
        (x.buffer (2 * b.toNat + 1)) n,
      ∀ t ∈ pairInFlight 0 x (!b) processed copy_size, CommuteOn I f t.run := by
  intro f hf
  obtain ⟨j, hj, rfl⟩ := List.mem_map.mp hf
  have hj' := List.mem_range.mp hj
  have hcomm : ∀ i src, i = 2 * (!b).toNat ∨ i = 2 * (!b).toNat + 1 →
      ∀ g ∈ transfer (x.buffer i) src copy_size,
        CommuteOn I (countError (x.buffer (2 * b.toNat) + j)
          (x.buffer (2 * b.toNat + 1) + j)) g := by
    intro i src hi g hg
    obtain ⟨o, ho, rfl⟩ := mem_transfer hg
    apply (countError_looksAt _ _).comm_copyByte
    have hne : i ≠ 2 * b.toNat ∧ i ≠ 2 * b.toNat + 1 := by
      cases b <;> simp at hi ⊢ <;> omega
    have hfirst := CheckArgs.buffer_apart (x := x) hne.1 hcopy hn
    have hsecond := CheckArgs.buffer_apart (x := x) hne.2 hcopy hn
    unfold Apart at hfirst hsecond
    omega
  intro t ht
  obtain ht | hrun := mem_started ht
  · exact hcomm _ _ (.inl rfl) _ ((mem_started ht).resolve_left List.not_mem_nil)
  · exact hcomm _ _ (.inr rfl) _ hrun

theorem startNext_left : left (0 : Fin 1) [] (startNext x b processed copy_size ++ ops) =
    left 0 (pairInFlight 0 x b processed copy_size) ops := by
  unfold startNext
  by_cases hpos : 0 < copy_size
  · rw [if_pos hpos]
    rfl
  · obtain rfl : copy_size = 0 := by omega
    rw [if_neg hpos]
    rfl

/-- One pass after the other: the wait at the head of a pass ends what the
    pass before has started. -/
theorem checkLoop_ordered (hx : x.Placed) {fuel remaining : Nat}
    {ctx : List (Task 1 (Mem × Nat) Engine)} (hctx : InFlight ctx)
    (hsize : processed + remaining = x.size)
    (h : checkLoop x fuel remaining processed b = some ops) :
    Ordered I 0 ctx (ops ++ [snrt_dma_wait_all]) ∧
      left 0 ctx (ops ++ [snrt_dma_wait_all]) = [] := by
  induction fuel generalizing remaining processed b ops ctx with
  | zero =>
    unfold checkLoop at h
    split at h
    · obtain rfl := Option.some.inj h
      exact ⟨ordered_wait hctx trivial, left_wait hctx⟩
    · cases h
  | succ fuel ih =>
    unfold checkLoop at h
    split at h
    · obtain rfl := Option.some.inj h
      exact ⟨ordered_wait hctx trivial, left_wait hctx⟩
    · obtain ⟨rest, hrest, rfl⟩ := Option.map_eq_some_iff.mp h
      have hle := CheckArgs.chunk_le (x := x) remaining
      have hle' := CheckArgs.chunk_le (x := x) (remaining - x.chunk remaining)
      have hnext : InFlight (pairInFlight 0 x (!b) (processed + x.chunk remaining)
        (x.chunk (remaining - x.chunk remaining))) := pairInFlight_inFlight
      obtain ⟨hord, hleft⟩ := ih hnext (by omega) hrest
      have hchunk := CheckArgs.chunk_le_buffer (x := x) remaining
      have hcopy := CheckArgs.chunk_le_buffer (x := x) (remaining - x.chunk remaining)
      rw [List.cons_append, List.append_assoc, List.append_assoc]
      constructor
      · apply ordered_wait hctx
        apply startNext_ordered hx hcopy (by omega)
        exact ordered_acts (compareChunk_comm hchunk hcopy) hord
      · rw [left_wait hctx, startNext_left, left_acts, hleft]

end Overlap

/-! ## Section 4: What the passes count -/

/-- The positions from `processed` on at which the result differs from the
    golden one. -/
def mismatches (mem : Mem) (processed remaining : Nat) : Nat :=
  (List.range remaining).countP fun i =>
    mem (x.data + (processed + i)) ≠ mem (x.golden + (processed + i))

/-- A pair of buffers has a pair of chunks, and only the buffer of `check`
    differs from the memory it was called with. -/
structure Loaded (mem : Mem) (b : Bool) (processed count : Nat) (now : Mem) :
    Prop where
  data : ∀ j < count, now (x.buffer (2 * b.toNat) + j) = mem (x.data + (processed + j))
  golden : ∀ j < count,
    now (x.buffer (2 * b.toNat + 1) + j) = mem (x.golden + (processed + j))
  outside : ∀ a, a < x.l1_buffer ∨ x.l1_buffer + x.l1_size ≤ a → now a = mem a

section Counting

variable {x} {mem : Mem} {m : Mem × Nat} {b : Bool} {processed copy_size : Nat}
  {ops : List (Op Nat)}

theorem perform_compareChunk (p q n : Nat) (m : Mem × Nat) :
    perform (compareChunk p q n) m =
      (m.1, m.2 + (List.range n).countP fun j => m.1 (p + j) ≠ m.1 (q + j)) := by
  induction n with
  | zero => rfl
  | succ n ih =>
    have hsplit : compareChunk p q (n + 1) = compareChunk p q n ++
      [countError (p + n) (q + n)] := by
      simp [compareChunk, List.range_succ]
    rw [hsplit, perform_append, ih, List.range_succ, List.countP_append, ← Nat.add_assoc]
    show countError (p + n) (q + n) _ = _
    unfold countError
    by_cases hne : m.1 (p + n) = m.1 (q + n)
    · simp [hne]
    · simp [hne]

/-- What a pass compares is the next part of what is to be compared. -/
theorem mismatches_chunk (h : Loaded x mem b processed copy_size m.1)
    (remaining : Nat) :
    ((List.range copy_size).countP fun j => m.1 (x.buffer (2 * b.toNat) + j) ≠
        m.1 (x.buffer (2 * b.toNat + 1) + j)) +
      mismatches x mem (processed + copy_size) remaining =
    mismatches x mem processed (copy_size + remaining) := by
  unfold mismatches
  rw [List.range_add, List.countP_append, List.countP_map]
  congr 1
  · apply List.countP_congr
    intro j hj
    have hj' := List.mem_range.mp hj
    rw [h.data j hj', h.golden j hj']
  · apply List.countP_congr
    intro j _
    simp only [Function.comp_apply, Nat.add_assoc]

theorem work_startNext : work (startNext x b processed copy_size) =
    work (startPair x b processed copy_size) := by
  unfold startNext
  by_cases hpos : 0 < copy_size
  · rw [if_pos hpos]
  · obtain rfl : copy_size = 0 := by omega
    rw [if_neg hpos]
    rfl

/-- What the transfers of a pair of chunks do. -/
theorem perform_startPair (hx : x.Placed) (hcopy : copy_size ≤ x.buffer_size)
    (hfit : processed + copy_size ≤ x.size) :
    perform (work (startPair x b processed copy_size)) m =
      (fun a =>
        if x.buffer (2 * b.toNat + 1) ≤ a ∧
            a < x.buffer (2 * b.toNat + 1) + copy_size then
          m.1 (x.golden + processed + (a - x.buffer (2 * b.toNat + 1)))
        else if x.buffer (2 * b.toNat) ≤ a ∧
            a < x.buffer (2 * b.toNat) + copy_size then
          m.1 (x.data + processed + (a - x.buffer (2 * b.toNat)))
        else m.1 a, m.2) := by
  have hb := toNat_bound b
  have happ₁ := CheckArgs.apart_buffer (x := x) (i := 2 * b.toNat) (by omega) hcopy
    hx.data hfit
  have happ₂ := CheckArgs.apart_buffer (x := x) (i := 2 * b.toNat + 1) (by omega)
    hcopy hx.golden hfit
  have happ := CheckArgs.apart_buffer (x := x) (i := 2 * b.toNat) (by omega) hcopy
    hx.golden hfit
  show perform (transfer _ _ _ ++ (transfer _ _ _ ++ [])) m = _
  rw [List.append_nil, perform_append, perform_transfer happ₁, perform_transfer happ₂]
  congr 1
  funext a
  by_cases ha : x.buffer (2 * b.toNat + 1) ≤ a ∧
      a < x.buffer (2 * b.toNat + 1) + copy_size
  · -- the golden bytes are not among those that the first transfer has written
    unfold Apart at happ
    dsimp only
    rw [if_pos ha, if_pos ha, if_neg (by omega)]
  · rw [if_neg ha, if_neg ha]

/-- They load the buffers. -/
theorem startPair_loaded (hx : x.Placed) (hcopy : copy_size ≤ x.buffer_size)
    (hfit : processed + copy_size ≤ x.size)
    (hout : ∀ a, a < x.l1_buffer ∨ x.l1_buffer + x.l1_size ≤ a → m.1 a = mem a) :
    Loaded x mem b processed copy_size
      (perform (work (startPair x b processed copy_size)) m).1 := by
  have hb := toNat_bound b
  have hin₁ := CheckArgs.buffer_in (x := x) (i := 2 * b.toNat) (by omega)
  have hin₂ := CheckArgs.buffer_in (x := x) (i := 2 * b.toNat + 1) (by omega)
  have happ := CheckArgs.buffer_apart (x := x) (i := 2 * b.toNat)
    (j := 2 * b.toNat + 1) (by omega) hcopy hcopy
  have hdata := hx.data
  have hgolden := hx.golden
  unfold Apart at happ hdata hgolden
  rw [perform_startPair hx hcopy hfit]
  refine ⟨?_, ?_, ?_⟩
  · intro j hj
    dsimp only
    rw [if_neg (by omega), if_pos (by omega), hout _ (by omega)]
    congr 1
    omega
  · intro j hj
    dsimp only
    rw [if_pos (by omega), hout _ (by omega)]
    congr 1
    omega
  · intro a ha
    dsimp only
    rw [if_neg (by omega), if_neg (by omega), hout a ha]

/-- They leave the other pair of buffers as it is. -/
theorem startPair_other (hx : x.Placed) (hcopy : copy_size ≤ x.buffer_size)
    (hfit : processed + copy_size ≤ x.size) {before count : Nat} (hcount : count ≤ x.buffer_size)
    (h : Loaded x mem b before count m.1) :
    Loaded x mem b before count
      (perform (work (startPair x (!b) processed copy_size)) m).1 := by
  have hout := (startPair_loaded (b := !b) hx hcopy hfit h.outside).outside
  have hne : ∀ i, i = 2 * b.toNat ∨ i = 2 * b.toNat + 1 →
      ∀ j < count, (perform (work (startPair x (!b) processed copy_size)) m).1
        (x.buffer i + j) = m.1 (x.buffer i + j) := by
    intro i hi j hj
    have hfirst := CheckArgs.buffer_apart (x := x) (i := i) (j := 2 * (!b).toNat)
      (by cases b <;> simp at hi ⊢ <;> omega) hcount hcopy
    have hsecond := CheckArgs.buffer_apart (x := x) (i := i) (j := 2 * (!b).toNat + 1)
      (by cases b <;> simp at hi ⊢ <;> omega) hcount hcopy
    unfold Apart at hfirst hsecond
    rw [perform_startPair hx hcopy hfit]
    dsimp only
    rw [if_neg (by omega), if_neg (by omega)]
  refine ⟨?_, ?_, hout⟩
  · intro j hj
    rw [hne _ (.inl rfl) j hj]
    exact h.data j hj
  · intro j hj
    rw [hne _ (.inr rfl) j hj]
    exact h.golden j hj

/-- **The loop counts**: with the next chunks loaded, what is left of the
    loop adds the mismatches that are left. -/
theorem checkLoop_result (hx : x.Placed) {fuel remaining : Nat}
    (hsize : processed + remaining = x.size)
    (h : checkLoop x fuel remaining processed b = some ops)
    (hload : Loaded x mem b processed (x.chunk remaining) m.1) :
    (perform (work ops) m).2 = m.2 + mismatches x mem processed remaining ∧
      ∀ a, a < x.l1_buffer ∨ x.l1_buffer + x.l1_size ≤ a →
        (perform (work ops) m).1 a = mem a := by
  induction fuel generalizing remaining processed b ops m with
  | zero =>
    unfold checkLoop at h
    split at h
    · next hdone =>
      obtain rfl := Option.some.inj h
      rw [hdone]
      exact ⟨rfl, hload.outside⟩
    · cases h
  | succ fuel ih =>
    unfold checkLoop at h
    split at h
    · next hdone =>
      obtain rfl := Option.some.inj h
      rw [hdone]
      exact ⟨rfl, hload.outside⟩
    · obtain ⟨rest, hrest, rfl⟩ := Option.map_eq_some_iff.mp h
      have hle := CheckArgs.chunk_le (x := x) remaining
      have hle' := CheckArgs.chunk_le (x := x) (remaining - x.chunk remaining)
      have hchunk := CheckArgs.chunk_le_buffer (x := x) remaining
      have hcopy := CheckArgs.chunk_le_buffer (x := x) (remaining - x.chunk remaining)
      have hfit : processed + x.chunk remaining + x.chunk (remaining - x.chunk remaining) ≤
          x.size := by omega
      have hcur := startPair_other hx hcopy hfit hchunk hload
      have hnext := startPair_loaded (b := !b) hx hcopy hfit hload.outside
      have hcount : (perform (work (startPair x (!b) (processed + x.chunk remaining)
          (x.chunk (remaining - x.chunk remaining)))) m).2 = m.2 := by
        rw [perform_startPair hx hcopy hfit]
      -- after the transfers and the comparisons the next pass finds its chunks loaded
      generalize hm₁ : perform (work (startPair x (!b) (processed + x.chunk remaining)
        (x.chunk (remaining - x.chunk remaining)))) m = m₁ at hcur hnext hcount
      have hpass : perform (work (snrt_dma_wait_all ::
          (startNext x (!b) (processed + x.chunk remaining)
            (x.chunk (remaining - x.chunk remaining)) ++
          ((compareChunk (x.buffer (2 * b.toNat))
            (x.buffer (2 * b.toNat + 1)) (x.chunk remaining)).map .act ++ rest)))) m =
          perform (work rest) (perform (compareChunk (x.buffer (2 * b.toNat))
            (x.buffer (2 * b.toNat + 1)) (x.chunk remaining)) m₁) := by
        rw [work_cons, work_append, work_append, work_acts, work_startNext, perform_append,
          perform_append, perform_append, ← hm₁]
        rfl
      rw [perform_compareChunk] at hpass
      have hsplit := mismatches_chunk hcur (remaining - x.chunk remaining)
      rw [Nat.add_sub_cancel' hle] at hsplit
      rw [hpass]
      generalize (List.range (x.chunk remaining)).countP _ = errors at hsplit ⊢
      obtain ⟨herrors, hout⟩ := ih (m := (m₁.1, m₁.2 + errors)) (by omega) hrest hnext
      refine ⟨?_, hout⟩
      rw [herrors, ← hsplit, ← hcount, Nat.add_assoc]

/-! ## Section 5: The check -/

/-- The check ends when its buffer holds a byte of each chunk, or when there
    is nothing to compare; otherwise its loop goes on for ever. -/
theorem checkLoop_ends_iff {fuel remaining : Nat} :
    (checkLoop x fuel remaining processed b).isSome ↔
      remaining ≤ fuel * x.buffer_size := by
  induction fuel generalizing remaining processed b with
  | zero =>
    unfold checkLoop
    by_cases hdone : remaining = 0
    · rw [if_pos hdone]
      simpa using hdone
    · rw [if_neg hdone]
      simpa using hdone
  | succ fuel ih =>
    unfold checkLoop
    by_cases hdone : remaining = 0
    · rw [if_pos hdone, hdone]
      simp
    · rw [if_neg hdone, Option.isSome_map, ih, Nat.succ_mul]
      unfold CheckArgs.chunk
      split <;> omega

end Counting

/-- Nothing that overlaps in the check gets in each other's way, and at the
    end it has waited for all transfers. -/
theorem check_commuting (hx : x.Placed) {fuel : Nat} {ops : List (Op Nat)}
    (h : check x fuel = some ops) :
    Commuting (fun _ => True) (fun _ : Fin 1 => ops) ∧ Drained (fun _ : Fin 1 => ops) := by
  obtain ⟨loop, hloop, rfl⟩ := Option.map_eq_some_iff.mp h
  have hle := CheckArgs.chunk_le (x := x) x.size
  have hchunk := CheckArgs.chunk_le_buffer (x := x) x.size
  have hflight : InFlight (pairInFlight 0 x false 0 (x.chunk x.size)) := pairInFlight_inFlight
  have hwaits := checkLoop_ordered (I := fun _ => True) hx hflight (Nat.zero_add _) hloop
  constructor
  · refine ⟨fun _ => ?_, fun _ _ _ _ _ => trivial, fun k => ?_, fun k k' hne => ?_⟩
    · intro op hop
      obtain hpair | hrest := List.mem_append.mp hop
      · exact startPair_free op hpair
      · obtain hbody | hwait := List.mem_append.mp hrest
        · exact checkLoop_free hloop op hbody
        · rw [List.mem_singleton.mp hwait]
          rfl
    · rw [Fin.fin_one_eq_zero k]
      exact startPair_ordered hx hchunk (by omega) hwaits.1
    · exact absurd (Subsingleton.elim k k') hne
  · intro k
    rw [Fin.fin_one_eq_zero k]
    exact hwaits.2

/-- **The check**: it returns when there is nothing to compare or its buffer
    has four bytes, and goes on for ever otherwise.  Whenever the DMA engine
    moves which byte, it returns the number of positions at which the
    result differs from the golden one, and leaves everything but its
    buffer as it was. -/
theorem check_counts [rt : Runtime] (x : CheckArgs) (hx : x.Placed) :
    ((∃ fuel, (check x fuel).isSome) ↔ x.size = 0 ∨ 4 ≤ x.l1_size) ∧
    ∀ fuel ops, check x fuel = some ops → ∀ mem,
      system.Terminates (initial (fun _ : Fin 1 => ops) (mem, 0)) ∧
      (∀ s, Reaches (fun _ : Fin 1 => ops) (mem, 0) s → system.Stuck s → Finished s) ∧
      ∀ m, Ends (fun _ : Fin 1 => ops) (mem, 0) m →
        m.2 = (List.range x.size).countP (fun i => mem (x.data + i) ≠ mem (x.golden + i)) ∧
        ∀ a, a < x.l1_buffer ∨ x.l1_buffer + x.l1_size ≤ a → m.1 a = mem a := by
  obtain rfl := rt.eq_modelled
  constructor
  · have hsome : ∀ fuel, (check x fuel).isSome ↔ x.size ≤ fuel * x.buffer_size := by
      intro fuel
      rw [check, Option.isSome_map, checkLoop_ends_iff]
    simp only [hsome]
    unfold CheckArgs.buffer_size
    constructor
    · intro ⟨fuel, hfuel⟩
      by_contra hnot
      have hzero : x.l1_size / 4 = 0 := by omega
      rw [hzero, Nat.mul_zero] at hfuel
      omega
    · intro hor
      refine ⟨x.size, ?_⟩
      obtain hsize | hbuffer := hor
      · omega
      · exact Nat.le_mul_of_pos_right _ (by omega)
  · intro fuel ops h mem
    obtain ⟨hcomm, _⟩ := check_commuting x hx h
    have hbal : Balanced (fun _ : Fin 1 => ops) := fun _ _ => rfl
    obtain ⟨hterm, hstuck⟩ := runs_end Nat.one_pos hbal (mem, 0)
    refine ⟨hterm, hstuck, ?_⟩
    intro m hm
    obtain ⟨loop, hloop, rfl⟩ := Option.map_eq_some_iff.mp h
    have hle := CheckArgs.chunk_le (x := x) x.size
    have hchunk := CheckArgs.chunk_le_buffer (x := x) x.size
    have hfit : 0 + x.chunk x.size ≤ x.size := by omega
    have hload := startPair_loaded (b := false) (m := (mem, 0)) hx hchunk hfit (fun _ _ => rfl)
    have hresult := checkLoop_result hx (Nat.zero_add _) hloop hload
    have hcount : (perform (work (startPair x false 0 (x.chunk x.size))) (mem, 0)).2 = 0 := by
      rw [perform_startPair hx hchunk hfit]
    have hturn : m = perform (work loop)
        (perform (work (startPair x false 0 (x.chunk x.size))) (mem, 0)) := by
      rw [hcomm.ends trivial hm, inTurn_one, work_append, work_append, perform_append,
        perform_append]
      rfl
    rw [hturn, hresult.1, hcount, Nat.zero_add]
    refine ⟨?_, hresult.2⟩
    unfold mismatches
    simp only [Nat.zero_add]

/-- Five bytes against five others, in chunks of two. -/
def fiveBytes : CheckArgs where
  data := 100
  golden := 200
  size := 5
  l1_buffer := 0
  l1_size := 8

theorem check_counts_fiveBytes :
    (∃ fuel, (check fiveBytes fuel).isSome) ∧ ∀ fuel ops, check fiveBytes fuel = some ops →
      ∀ mem m, Ends (fun _ : Fin 1 => ops) (mem, 0) m →
        m.2 = (List.range 5).countP fun i => mem (100 + i) ≠ mem (200 + i) := by
  have hx : fiveBytes.Placed := ⟨.inl (by decide), .inl (by decide)⟩
  have h := check_counts fiveBytes hx
  exact ⟨h.1.mpr (.inr (by decide)),
    fun fuel ops hops mem m hm => ((h.2 fuel ops hops mem).2.2 m hm).1⟩

end Snrt
