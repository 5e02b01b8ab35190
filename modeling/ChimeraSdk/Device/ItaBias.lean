import ChimeraSdk.Device.ItaMatMul

/-! # Buffers that Change

    There is one buffer for the bias, and the bias of the next column of
    tiles is fetched while the accelerator may still work on this column.
    The weights of the next job are fetched while the job is under way that
    names them as the next ones.  Where such a transfer changes its buffer,
    some run lets an accelerator see it. -/

open Cluster ByteMemory CInt

namespace Snrt

namespace ItaMatMul

open Dims

/-! ## Section 1: An accelerator that watches -/

/-- It counts its jobs, and remembers whether the job `t` has found next
    weights and a bias that it does not expect. -/
def watching (t : Nat) (expects : List UInt8 → List UInt8 → Bool) : Accelerator (Nat × Bool) where
  step := fun _ _ _ next bias l => (l.1 + 1, l.2 || (decide (l.1 = t) && !expects next bias))
  out := fun l _ => if l.2 then 1 else 0

/-- It expects a certain bias, -/
abbrev watchingBias (t : Nat) (expected : List UInt8) : Accelerator (Nat × Bool) :=
  watching t fun _ bias => bias == expected

/-- or certain next weights. -/
abbrev watchingNext (t : Nat) (expected : List UInt8) : Accelerator (Nat × Bool) :=
  watching t fun next _ => next == expected

theorem watchingBias_ignoresNext (t : Nat) (expected : List UInt8) :
    (watchingBias t expected).IgnoresNext := fun _ _ _ _ _ _ _ => rfl

/-- With the jobs one after the other it finds something else in the job `t`
    at most. -/
theorem stateAt_watching (d : Dims) {t : Nat} {expects : List UInt8 → List UInt8 → Bool}
    {input weight next bias : Nat → Nat} {mem : Mem} {i : Nat}
    (h : i ≤ t ∨ expects (nextAt (d.jobFlags t) mem (next t) d.tile_size_input_b)
      (tileAt mem (bias t) d.tile_size_bias) = true) :
    d.stateAt (watching t expects) input weight next bias mem (0, false) i = (i, false) := by
  induction i with
  | zero => rfl
  | succ i ih =>
    have hbefore := ih (h.imp_left Nat.le_of_succ_le)
    show (watching t expects).step _ _ _ _ _
      (d.stateAt _ input weight next bias mem (0, false) i) = _
    rw [hbefore]
    show (i + 1, false || (decide (i = t) && !expects _ _)) = _
    by_cases hi : i = t
    · obtain hlt | hfound := h
      · omega
      · rw [hi, hfound, Bool.not_true, Bool.and_false]
        rfl
    · rw [decide_eq_false hi]
      rfl

variable {x : ItaMatMul} {mem : Mem} {t : Nat} {expects : List UInt8 → List UInt8 → Bool}

/-- The accelerator has found something else. -/
def Raised (m : Mem × (Nat × Bool)) : Prop := m.2.2 = true

theorem job_keeps_raised (habove : x.Above) (i : Nat) :
    Keeps Raised (x.job (watching t expects) i) := by
  intro m hm
  unfold Raised at hm ⊢
  rw [(job_only habove i m).2]
  show (m.2.2 || _) = true
  rw [hm]
  rfl

theorem Copies.keeps_raised {r s : Buffer} {f : Mem × (Nat × Bool) → Mem × (Nat × Bool)}
    (hf : x.Copies r s f) : Keeps Raised f := by
  obtain ⟨dst, src, _, _, rfl⟩ := hf
  exact fun m hm => hm

/-- What is done between the triggers of the jobs `i` and `i + 1`. -/
theorem work_middle {acc : Accelerator (Nat × Bool)} {i : Nat} (hi : i + 1 < x.jobs) :
    work (x.middle acc i) = (x.weightCopies (i + 1) ++ x.job acc i :: x.outputCopies i) ++
      (x.biasCopies (i + 1) ++ x.inputCopies (i + 1)) := by
  unfold middle
  rw [work_append, work_tailOps, work_headOps, if_neg hi.ne]

/-- What it has found, it remembers. -/
theorem middle_keeps_raised (hx : x.Shaped) (habove : x.Above) {i : Nat} (hi : i + 1 < x.jobs) :
    ∀ f ∈ work (x.middle (watching t expects) i), Keeps Raised f := by
  intro f hf
  rw [work_middle hi] at hf
  simp only [List.mem_append, List.mem_cons] at hf
  obtain (hf | rfl | hf) | hf | hf := hf
  · exact (copies_weight hx f hf).keeps_raised
  · exact job_keeps_raised habove i
  · exact (copies_output (by omega) f hf).keeps_raised
  · exact (copies_bias hx f hf).1.keeps_raised
  · exact (copies_input hx hi f hf).keeps_raised

/-! ## Section 2: Runs that let it see -/

/-- Nothing between two triggers waits before all has been started. -/
theorem middle_any_order {acc : Accelerator (Nat × Bool)} (ht : t + 1 < x.jobs)
    {fs : List (Mem × (Nat × Bool) → Mem × (Nat × Bool))} (hperm : fs.Perm (work (x.middle acc t)))
    (m : Mem × (Nat × Bool)) : Ends (fun _ : Fin 1 => x.middle acc t) m (perform fs m) := by
  have hlast : ¬ t + 1 = x.jobs := ht.ne
  have hcode : x.middle acc t =
      (x.tailOps acc t ++ ((if x.kOf (t + 1) = 0 then [x.startBiasOp (t + 1)] else []) ++
        [x.startInput (t + 1)])) ++ [Engine.dma, Engine.ita].map .wait := by
    unfold middle headOps
    rw [if_neg (Nat.succ_ne_zero t)]
    simp only [List.append_assoc]
    rfl
  have hwaits : work ([Engine.dma, Engine.ita].map .wait : List (Op (Nat × Bool))) = [] := rfl
  rw [hcode, work_append, hwaits, List.append_nil] at hperm
  rw [hcode]
  apply ends_of_perm _ hperm
  intro op hop
  simp only [tailOps, List.mem_append, List.mem_cons, List.not_mem_nil, or_false] at hop
  obtain (hop | rfl | hop) | hop | rfl := hop
  · rw [if_neg hlast] at hop
    obtain rfl := List.mem_singleton.mp hop
    rfl
  · rfl
  · split at hop
    · obtain rfl := List.mem_singleton.mp hop
      rfl
    · exact absurd hop List.not_mem_nil
  · split at hop
    · obtain rfl := List.mem_singleton.mp hop
      rfl
    · exact absurd hop List.not_mem_nil
  · rfl

/-- **A race**: the job `t` comes behind `before`, and finds something else
    then. -/
theorem exists_race (hx : x.Shaped) (habove : x.Above) (ht : t + 1 < x.jobs)
    (before after : List (Mem × (Nat × Bool) → Mem × (Nat × Bool))) {m : Mem × (Nat × Bool)}
    (hperm : (before ++ x.job (watching t expects) t :: after).Perm
      (work (x.middle (watching t expects) t)))
    (hstate : (perform before m).2 = (t, false))
    (hsees : expects
      (nextAt (x.jobFlags t) (perform before m).1 (x.input_b_l1 (parity (t + 1)))
        x.tile_size_input_b)
      (tileAt (perform before m).1 x.bias_l1 x.tile_size_bias) = false) :
    ∃ m', Ends (fun _ : Fin 1 => x.middle (watching t expects) t) m m' ∧ Raised m' := by
  refine ⟨_, middle_any_order ht hperm m, ?_⟩
  have hraised : Raised (x.job (watching t expects) t (perform before m)) := by
    unfold Raised
    rw [(job_only habove t _).2]
    show ((perform before m).2.2 ||
      (decide ((perform before m).2.1 = t) && !expects (nextAt _ _ _ _) (tileAt _ _ _))) = true
    rw [hstate, hsees, decide_eq_true rfl]
    rfl
  rw [perform_append, perform_cons]
  apply keeps_perform _ _ hraised
  intro f hf
  apply middle_keeps_raised hx habove ht f
  exact hperm.subset (List.mem_append_right _ (List.mem_cons_of_mem _ hf))

section Race

variable {m : Mem × (Nat × Bool)} {expected : List UInt8}

/-- The state in front of the job `t`. -/
theorem Inv.state_watching (h : x.Inv (watching t expects) mem (0, false) t m) : m.2 = (t, false) :=
  h.state.trans (stateAt_watching x.toDims (.inl le_rfl))

/-- Only the first job of a tile has another bias than the job before. -/
theorem kOf_of_differs (hx : x.Shaped) (halike : x.BiasAlike mem t)
    (hdiff : ¬ x.BiasAlike mem (t + 1)) : x.kOf (t + 1) = 0 := by
  obtain ⟨hj, hk⟩ := next_indices hx t
  by_cases hlast : x.kOf t = x.N_TILE_EMBEDDING_SPACE - 1
  · rw [hk, if_pos hlast]
  · rw [if_neg hlast] at hj
    have hsame : x.biasTile (t + 1) = x.biasTile t := by
      unfold biasTile
      rw [hj]
    unfold BiasAlike at hdiff
    rw [hsame] at hdiff
    exact absurd halike hdiff

theorem perm_overtaking {α : Type} (weight output bias input : List α) (job : α) :
    (bias ++ job :: ((weight ++ output) ++ input)).Perm
      ((weight ++ job :: output) ++ (bias ++ input)) := by
  have hback : ((weight ++ job :: output) ++ (bias ++ input)).Perm
      (job :: ((weight ++ output) ++ (bias ++ input))) := by
    rw [List.append_assoc, List.append_assoc]
    exact List.perm_middle
  apply List.perm_middle.trans
  exact ((List.perm_append_comm_assoc _ _ _).cons job).trans hback.symm

/-- The transfer of the next bias overtakes the job. -/
theorem bias_race (hx : x.Shaped) (habove : x.Above) (hplaced : x.Placed) (ht : t + 1 < x.jobs)
    (halike : x.BiasAlike mem t) (hdiff : ¬ x.BiasAlike mem (t + 1))
    (hinv : x.Inv (watchingBias t (tileAt mem (x.biasTile t) x.tile_size_bias))
      mem (0, false) t m) :
    ∃ m', Ends (fun _ : Fin 1 => x.middle
      (watchingBias t (tileAt mem (x.biasTile t) x.tile_size_bias)) t) m m' ∧ Raised m' := by
  have hk := kOf_of_differs hx halike hdiff
  obtain ⟨_, hstate⟩ := perform_only (fun f hf => (copies_bias hx (t := t + 1) f hf).1) m
  have hsees : ∀ q, q < x.tile_size_bias →
      (perform (x.biasCopies (t + 1)) m).1 (x.bias_l1 + q) = mem (x.biasTile (t + 1) + q) := by
    intro q hq
    have hin : x.In .biases (x.biasTile (t + 1) + q) := (within_biases hx (t + 1)).add hq
    have happ := hplaced.apart (r := .bias) (s := .biases) (by simp) (within_self _)
      (within_biases hx (t + 1))
    have hcopy := perform_transfer_inside happ m hq
    unfold biasCopies
    rw [if_pos hk, ← hinv.source hplaced rfl hin]
    exact hcopy
  apply exists_race hx habove ht (x.biasCopies (t + 1))
    ((x.weightCopies (t + 1) ++ x.outputCopies t) ++ x.inputCopies (t + 1))
  · rw [work_middle ht]
    exact perm_overtaking _ _ _ _ _
  · exact hstate.trans hinv.state_watching
  · apply beq_false_of_ne
    intro heq
    apply hdiff
    intro q hq
    have hbyte := List.map_inj_left.mp heq q (List.mem_range.mpr hq)
    rw [← hsees q hq, hbyte]
    exact halike q hq

/-- The next weights are read, since the job `t` is not the last one. -/
theorem nextAt_of_lt (ht : t + 1 < x.jobs) (mem : Mem) (a n : Nat) :
    nextAt (x.jobFlags t) mem a n = tileAt mem a n := by
  unfold nextAt
  rw [if_pos ((next_enabled x.toDims t).mpr ht.ne)]

/-- The job overtakes the transfer of the next weights. -/
theorem held_race (hx : x.Shaped) (habove : x.Above) (ht : t + 1 < x.jobs)
    (hdiff : tileAt mem (x.heldTile t) x.tile_size_input_b ≠ expected)
    (hinv : x.Inv (watchingNext t expected) mem (0, false) t m) :
    ∃ m', Ends (fun _ : Fin 1 => x.middle (watchingNext t expected) t) m m' ∧ Raised m' := by
  apply exists_race hx habove ht []
    ((x.weightCopies (t + 1) ++ x.outputCopies t) ++
      (x.biasCopies (t + 1) ++ x.inputCopies (t + 1)))
  · rw [work_middle ht]
    exact perm_overtaking (x.weightCopies (t + 1)) (x.outputCopies t) []
      (x.biasCopies (t + 1) ++ x.inputCopies (t + 1)) _
  · exact hinv.state_watching
  · apply beq_false_of_ne
    rw [nextAt_of_lt ht]
    exact fun heq => hdiff (heq ▸ (tileAt_congr hinv.held).symm)

/-- The transfer of the next weights overtakes the job. -/
theorem fetched_race (hx : x.Shaped) (habove : x.Above) (hplaced : x.Placed) (ht : t + 1 < x.jobs)
    (hdiff : tileAt mem (x.weightTile (t + 1)) x.tile_size_input_b ≠ expected)
    (hinv : x.Inv (watchingNext t expected) mem (0, false) t m) :
    ∃ m', Ends (fun _ : Fin 1 => x.middle (watchingNext t expected) t) m m' ∧ Raised m' := by
  obtain ⟨_, hstate⟩ := perform_only (copies_weight hx (t := t + 1)) m
  have hsees : tileAt (perform (x.weightCopies (t + 1)) m).1 (x.input_b_l1 (parity (t + 1)))
      x.tile_size_input_b = tileAt mem (x.weightTile (t + 1)) x.tile_size_input_b :=
    tileAt_congr fun q hq => hinv.fetched hx hplaced hq
  apply exists_race hx habove ht (x.weightCopies (t + 1))
    (x.outputCopies t ++ (x.biasCopies (t + 1) ++ x.inputCopies (t + 1)))
  · rw [work_middle ht, List.append_assoc, List.cons_append]
  · exact hstate.trans hinv.state_watching
  · apply beq_false_of_ne
    rw [nextAt_of_lt ht, hsees]
    exact hdiff

end Race

/-! ## Section 3: When the program works -/

/-- Some job is the first one to have another bias. -/
theorem exists_first_change (hx : x.Shaped) (hdiff : ¬ x.SameBias mem) :
    ∃ t, t + 1 < x.jobs ∧ (∀ t', t' ≤ t → x.BiasAlike mem t') ∧ ¬ x.BiasAlike mem (t + 1) := by
  have hsome : ∃ t, t < x.jobs ∧ ¬ x.BiasAlike mem t := by
    by_contra hnone
    apply hdiff
    intro j q hj hq
    -- the first job of the tile `j` in the first row
    have hrow : j < x.N_TILE_SEQUENCE_LENGTH * x.N_TILE_PROJECTION_SPACE :=
      Nat.lt_of_lt_of_le hj (Nat.le_mul_of_pos_left _ hx.S)
    have hjob : j * x.N_TILE_EMBEDDING_SPACE < x.jobs := Nat.mul_lt_mul_of_pos_right hrow hx.E
    have halike : x.BiasAlike mem (j * x.N_TILE_EMBEDDING_SPACE) := by
      by_contra hnot
      exact hnone ⟨_, hjob, hnot⟩
    have hcolumn : x.jOf (j * x.N_TILE_EMBEDDING_SPACE) = j := by
      unfold jOf tileOf
      rw [Nat.mul_div_cancel _ hx.E, Nat.mod_eq_of_lt hj]
    have hbyte := halike q hq
    unfold biasTile at hbyte
    rwa [hcolumn] at hbyte
  classical
  obtain ⟨hlt, hnot⟩ := Nat.find_spec hsome
  have hbefore := fun t' => Nat.find_min hsome (m := t')
  generalize Nat.find hsome = t at *
  match t with
  | 0 => exact absurd (biasAlike_zero x mem) hnot
  | t + 1 =>
    refine ⟨t, hlt, ?_, hnot⟩
    intro t' ht'
    by_contra hnot'
    exact hbefore t' (by omega) ⟨by omega, hnot'⟩

/-- Some job is the first one whose next weights are other ones than those in
    their buffer. -/
theorem exists_first_fetch (hdiff : ¬ x.SameNext mem) :
    ∃ t, t + 1 < x.jobs ∧ (∀ t', t' < t → x.NextAlike mem t') ∧ ¬ x.NextAlike mem t := by
  have hsome : ∃ t, t + 1 < x.jobs ∧ ¬ x.NextAlike mem t := by
    by_contra hnone
    apply hdiff
    intro t ht
    by_contra hnot
    exact hnone ⟨t, ht, hnot⟩
  classical
  obtain ⟨hlt, hnot⟩ := Nat.find_spec hsome
  refine ⟨Nat.find hsome, hlt, ?_, hnot⟩
  intro t' ht'
  by_contra hnot'
  exact Nat.find_min hsome ht' ⟨by omega, hnot'⟩

/-- What the accelerator has found ends up in the last tile. -/
theorem finish_raised (hx : x.Shaped) (habove : x.Above) (hplaced : x.Placed)
    (hsize : 0 < x.tile_size_output) {n : Nat} (hn : n + 1 = x.jobs) {m m' : Mem × (Nat × Bool)}
    (hraised : Raised m) (h : Ends (fun _ : Fin 1 => x.finish (watching t expects) n) m m') :
    m'.1 (x.resultTile x.lastTile + 0) = 1 := by
  have hlast := lastTile_succ hx
  have happ : Apart (x.resultTile x.lastTile) x.tile_size_output
      (x.output_l1 (parity x.lastTile)) x.tile_size_output := result_apart hplaced _ (by omega)
  obtain ⟨htile, hk⟩ := last_of_tile hx (u := x.lastTile) (t := n) (by rw [hlast, hn]; rfl)
  have hflag : ¬ (x.jobFlags n).testBit 4 = true := by
    rw [(output_enabled x.toDims n).mpr hk]
    exact Bool.false_ne_true
  have hlt : n < x.jobs := by omega
  have honly := (perform_only (copies_output hlt) (x.job (watching t expects) n m)).1
  have hjob : (x.job (watching t expects) n m).2.2 = true := job_keeps_raised habove n m hraised
  rw [(job_only habove n m).2] at hjob
  rw [finish_perform hx habove hplaced hn h, perform_transfer_inside happ _ hsize, perform_cons,
    honly.same hplaced (by simp) (in_out hsize), job_eq habove, htile]
  dsimp only
  rw [if_neg hflag, if_pos (by omega)]
  show (if (x.jobState (watching t expects) n m).2 then 1 else 0) = (1 : UInt8)
  rw [hjob]
  rfl

/-- In some run of the program the accelerator finds something else, and the
    last tile of the output shows it. -/
def Shows (x : ItaMatMul) (regs : Regs) (acc : Accelerator (Nat × Bool)) (mem : Mem) : Prop :=
  ∃ m, Ends (fun _ : Fin 1 => x.matmul acc regs) (mem, (0, false)) m ∧
    m.1 (x.resultTile x.lastTile + 0) = 1

/-- A race shows in the output. -/
theorem shows_of_race (hx : x.Shaped) (habove : x.Above) (hplaced : x.Placed)
    (hsize : 0 < x.tile_size_output) (regs : Regs) (ht : t + 1 < x.jobs)
    (halike : ∀ t', t' ≤ t → x.BiasAlike mem t')
    (hnext : ∀ t', t' < t → (watching t expects).IgnoresNext ∨ x.NextAlike mem t')
    (hrace : ∀ m, x.Inv (watching t expects) mem (0, false) t m →
      ∃ m', Ends (fun _ : Fin 1 => x.middle (watching t expects) t) m m' ∧ Raised m') :
    x.Shows regs (watching t expects) mem := by
  obtain ⟨n, hn⟩ := Nat.exists_eq_succ_of_ne_zero (Nat.ne_zero_of_lt ht)
  obtain ⟨r, hr⟩ := Nat.exists_eq_add_of_le (show t + 1 ≤ n by omega)
  -- up to the job `t` in any way, then the race, then on in any way
  obtain ⟨m₀, hstart⟩ := exists_ends Nat.one_pos (balanced_one (x.start : List (Op (Nat × Bool))))
    (mem, (0, false))
  obtain ⟨m₁, hbefore⟩ := exists_ends Nat.one_pos
    (balanced_one ((List.range t).flatMap (x.middle (watching t expects)))) m₀
  have hinv := middles_ends hx habove hplaced halike hnext (by omega)
    (start_ends hx hplaced (by omega) hstart) hbefore
  obtain ⟨m₂, hrace, hraised⟩ := hrace m₁ hinv
  obtain ⟨m₃, hafter⟩ := exists_ends Nat.one_pos (balanced_one
    (((List.range r).map (t + 1 + ·)).flatMap (x.middle (watching t expects)))) m₂
  obtain ⟨m', hfinish⟩ :=
    exists_ends Nat.one_pos (balanced_one (x.finish (watching t expects) n)) m₃
  have hkept : Raised m₃ := by
    apply hafter.keeps _ hraised
    intro _ f hf
    unfold work at hf
    rw [List.flatMap_assoc] at hf
    obtain ⟨i, hi, hf⟩ := List.mem_flatMap.mp hf
    obtain ⟨i', hi', rfl⟩ := List.mem_map.mp hi
    have hlt := List.mem_range.mp hi'
    exact middle_keeps_raised hx habove (by omega) f hf
  have hmiddles : (List.range n).flatMap (x.middle (watching t expects)) =
      (List.range t).flatMap (x.middle (watching t expects)) ++ (x.middle (watching t expects) t ++
        ((List.range r).map (t + 1 + ·)).flatMap (x.middle (watching t expects))) := by
    rw [hr, List.range_add, List.flatMap_append, List.range_succ, List.flatMap_append,
      List.flatMap_singleton, List.append_assoc]
  refine ⟨m', ?_, finish_raised hx habove hplaced hsize hn.symm hkept hfinish⟩
  rw [matmul_eq hx habove regs hn.symm, hmiddles]
  exact hstart.append ((hbefore.append (hrace.append hafter)).append hfinish)

/-- Another bias shows. -/
theorem shows_bias (hx : x.Shaped) (habove : x.Above) (hplaced : x.Placed)
    (hsize : 0 < x.tile_size_output) (regs : Regs) (hdiff : ¬ x.SameBias mem) :
    ∃ t, x.Shows regs (watchingBias t (tileAt mem (x.biasTile t) x.tile_size_bias)) mem := by
  obtain ⟨t, ht, halike, hnot⟩ := exists_first_change hx hdiff
  refine ⟨t, shows_of_race hx habove hplaced hsize regs ht halike ?_ ?_⟩
  · exact fun _ _ => .inl (watchingBias_ignoresNext t _)
  · intro m hinv
    exact bias_race hx habove hplaced ht (halike t le_rfl) hnot hinv

/-- A transfer of weights that changes its buffer shows, whatever is expected
    there. -/
theorem shows_next (hx : x.Shaped) (habove : x.Above) (hplaced : x.Placed)
    (hsize : 0 < x.tile_size_output) (regs : Regs) (hbias : x.SameBias mem)
    (hdiff : ¬ x.SameNext mem) :
    ∃ t, t + 1 < x.jobs ∧ ∀ expected, x.Shows regs (watchingNext t expected) mem := by
  obtain ⟨t, ht, halike, hnot⟩ := exists_first_fetch hdiff
  refine ⟨t, ht, ?_⟩
  intro expected
  apply shows_of_race hx habove hplaced hsize regs ht (fun t' _ => hbias.alike hx t')
    (fun t' ht' => .inr (halike t' ht'))
  intro m hinv
  by_cases hheld : tileAt mem (x.heldTile t) x.tile_size_input_b = expected
  · apply fetched_race hx habove hplaced ht _ hinv
    intro hfetched
    apply hnot
    intro q hq
    exact List.map_inj_left.mp (hheld.trans hfetched.symm) q (List.mem_range.mpr hq)
  · exact held_race hx habove ht hheld hinv

/-- The next weights that are fetched show where others are expected. -/
theorem shows_fetched (hx : x.Shaped) (habove : x.Above) (hplaced : x.Placed)
    (hsize : 0 < x.tile_size_output) (regs : Regs) (hbias : x.SameBias mem) (hnext : x.SameNext mem)
    (ht : t + 1 < x.jobs) {expected : List UInt8}
    (hdiff : tileAt mem (x.weightTile (t + 1)) x.tile_size_input_b ≠ expected) :
    x.Shows regs (watchingNext t expected) mem := by
  apply shows_of_race hx habove hplaced hsize regs ht (fun t' _ => hbias.alike hx t')
    (fun t' ht' => .inr (hnext t' (by omega)))
  intro m hinv
  exact fetched_race hx habove hplaced ht hdiff hinv

/-- With the jobs one after the other nothing else is found, so that a run
    which shows something is none that delivers the product. -/
theorem Shows.not_works {regs : Regs} (hshows : x.Shows regs (watching t expects) mem)
    (hx : x.Shaped) (hsize : 0 < x.tile_size_output)
    (hexpected : expects (nextAt (x.jobFlags t) mem (x.weightTile (t + 1)) x.tile_size_input_b)
      (tileAt mem (x.biasTile t) x.tile_size_bias) = true) :
    ¬ x.Works (watching t expects) regs mem (0, false) := by
  intro hworks
  obtain ⟨m, hend, hone⟩ := hshows
  have hlast := lastTile_succ hx
  have hdelivered := (hworks.delivers m hend).tiles x.lastTile 0 (by omega) hsize
  rw [hone] at hdelivered
  unfold outputByte stateAt at hdelivered
  rw [stateAt_watching x.toDims (.inr hexpected)] at hdelivered
  have hzero : (1 : UInt8) = 0 := hdelivered
  exact absurd hzero (by decide)

/-- **What may change decides**: with every accelerator that does not depend
    on the weights of the next job, the program delivers the product in every
    run exactly when all tiles of the bias are alike, and with every
    accelerator exactly when besides no transfer of weights changes the
    buffer that the job names for the next ones. -/
theorem ita_matmul_l2_works_iff [rt : Runtime] (hx : x.Shaped) (habove : x.Above)
    (hplaced : x.Placed) (hsize : 0 < x.tile_size_output) (regs : Regs) (mem : Mem) :
    ((∀ (L : Type) (acc : Accelerator L) (l : L), acc.IgnoresNext → x.Works acc regs mem l) ↔
      x.SameBias mem) ∧
    ((∀ (L : Type) (acc : Accelerator L) (l : L), x.Works acc regs mem l) ↔
      x.SameBias mem ∧ x.SameNext mem) := by
  obtain rfl := rt.eq_modelled
  have hbias : (∀ (L : Type) (acc : Accelerator L) (l : L), acc.IgnoresNext →
      x.Works acc regs mem l) → x.SameBias mem := by
    intro h
    by_contra hdiff
    obtain ⟨t, hshows⟩ := shows_bias hx habove hplaced hsize regs hdiff
    exact hshows.not_works hx hsize (beq_self_eq_true _) (h _ _ _ (watchingBias_ignoresNext t _))
  refine ⟨⟨hbias, ?_⟩, ?_, ?_⟩
  · intro hsame L acc l hignores
    exact matmul_works hx habove hplaced regs acc hsame (.inl hignores) l
  · intro h
    have hsame := hbias fun L acc l _ => h L acc l
    refine ⟨hsame, ?_⟩
    by_contra hdiff
    obtain ⟨t, _, hshows⟩ := shows_next hx habove hplaced hsize regs hsame hdiff
    exact (hshows _).not_works hx hsize (beq_self_eq_true _) (h _ _ _)
  · intro ⟨hsame, hnext⟩ L acc l
    exact matmul_works hx habove hplaced regs acc hsame (.inr hnext) l

/-- With zeros everywhere it delivers the product with every accelerator,
    with other weights it need not, and with other biases not even with those
    that do not depend on the next weights. -/
theorem ita_matmul_l2_works_twoColumns :
    (∀ (L : Type) (acc : Accelerator L) (l : L),
      twoColumns.Works acc ⟨0, 0, 0, 0, 0, 0⟩ (fun _ => 0) l) ∧
    ((∀ (L : Type) (acc : Accelerator L) (l : L), acc.IgnoresNext →
        twoColumns.Works acc ⟨0, 0, 0, 0, 0, 0⟩ (fun p => if p < 288 then UInt8.ofNat p else 0) l) ∧
      ¬ ∀ (L : Type) (acc : Accelerator L) (l : L),
        twoColumns.Works acc ⟨0, 0, 0, 0, 0, 0⟩ (fun p => if p < 288 then UInt8.ofNat p else 0) l) ∧
    ¬ ∀ (L : Type) (acc : Accelerator L) (l : L), acc.IgnoresNext →
      twoColumns.Works acc ⟨0, 0, 0, 0, 0, 0⟩ UInt8.ofNat l := by
  have hx : twoColumns.Shaped := ⟨by decide, by decide, by decide⟩
  have habove : twoColumns.Above := ⟨by decide, by decide, by decide, by decide⟩
  have hplaced : twoColumns.Placed := by decide
  have hiff := ita_matmul_l2_works_iff hx habove hplaced (by decide) ⟨0, 0, 0, 0, 0, 0⟩
  refine ⟨?_, ⟨?_, ?_⟩, ?_⟩
  · exact (hiff _).2.mpr ⟨fun _ _ _ _ => rfl, fun _ _ _ _ => rfl⟩
  · apply (hiff _).1.mpr
    intro j q hj hq
    have hlo : ∀ p, ¬ twoColumns.bias_l2 + p < 288 := fun p => by
      show ¬ 288 + p < 288
      omega
    dsimp only
    rw [Nat.add_assoc, if_neg (hlo _), if_neg (hlo _)]
  · intro h
    have hnext := ((hiff _).2.mp h).2
    exact absurd (hnext 0 (by decide) 0 (by decide)) (by decide)
  · intro h
    have hsame := (hiff _).1.mp h
    exact absurd (hsame 1 0 (by decide) (by decide)) (by decide)

end ItaMatMul

end Snrt
