import ChimeraSdk.Framework.ByteMemory
import ChimeraSdk.Framework.Cluster

/-! # Transfers between Regions

    The memory of a cluster is an array of bytes, next to a state of the
    cores' own.  A transfer copies a region byte by byte, and an engine may
    copy the bytes in any order.  Two copies commute when neither writes
    what the other reads or writes; bytes that always take the same value
    commute wherever they overlap. -/

namespace ByteMemory

open Cluster

variable {L : Type}

/-- Two regions without a common byte. -/
def Apart (a n b k : Nat) : Prop := a + n ≤ b ∨ b + k ≤ a

instance (a n b k : Nat) : Decidable (Apart a n b k) :=
  inferInstanceAs (Decidable (a + n ≤ b ∨ b + k ≤ a))

theorem Apart.symm {a n b k : Nat} (h : Apart a n b k) : Apart b k a n := Or.symm h

theorem Apart.mono {a n b k a' n' b' k' : Nat} (h : Apart a n b k) (ha : a ≤ a')
    (hn : a' + n' ≤ a + n) (hb : b ≤ b') (hk : b' + k' ≤ b + k) : Apart a' n' b' k' := by
  unfold Apart at h ⊢
  omega

/-! ## Section 1: Copies -/

/-- Copies the byte at `src` to `dst`. -/
def copyByte (dst src : Nat) (m : Mem × L) : Mem × L := (Function.update m.1 dst (m.1 src), m.2)

/-- The copies of a transfer. -/
def transfer (dst src size : Nat) : List (Mem × L → Mem × L) :=
  (List.range size).map fun i => copyByte (dst + i) (src + i)

theorem mem_transfer {dst src size : Nat} {f : Mem × L → Mem × L}
    (h : f ∈ transfer dst src size) :
    ∃ i, i < size ∧ f = copyByte (dst + i) (src + i) := by
  obtain ⟨i, hi, rfl⟩ := List.mem_map.mp h
  exact ⟨i, List.mem_range.mp hi, rfl⟩

theorem transfer_succ (dst src size : Nat) :
    (transfer dst src (size + 1) : List (Mem × L → Mem × L)) =
      transfer dst src size ++ [copyByte (dst + size) (src + size)] := by
  simp [transfer, List.range_succ]

/-- **A transfer** between regions that are apart: its destination has what
    the source has, and everything else is as before. -/
theorem perform_transfer {dst src size : Nat} (h : Apart dst size src size) (m : Mem × L) :
    perform (transfer dst src size) m =
      (fun a => if dst ≤ a ∧ a < dst + size then m.1 (src + (a - dst)) else m.1 a, m.2) := by
  induction size with
  | zero =>
    have hnone : ∀ a, ¬ (dst ≤ a ∧ a < dst + 0) := by omega
    simp only [hnone, if_false]
    rfl
  | succ size ih =>
    have hsub : Apart dst size src size := h.mono le_rfl (by omega) le_rfl (by omega)
    rw [transfer_succ, perform_append, ih hsub]
    show copyByte (dst + size) (src + size) _ = _
    unfold copyByte
    congr 1
    funext a
    dsimp only
    by_cases ha : a = dst + size
    · -- the last byte: its source is not one of the bytes written before
      have hsrc : ¬ (dst ≤ src + size ∧ src + size < dst + size) := by
        unfold Apart at h
        omega
      have hlast : dst ≤ dst + size ∧ dst + size < dst + (size + 1) := by omega
      rw [ha, Function.update_self, if_neg hsrc, if_pos hlast, Nat.add_sub_cancel_left]
    · rw [Function.update_of_ne ha]
      by_cases hin : dst ≤ a ∧ a < dst + size
      · rw [if_pos hin, if_pos (by omega)]
      · rw [if_neg hin, if_neg (by omega)]

theorem perform_transfer_inside {dst src size q : Nat} (h : Apart dst size src size) (m : Mem × L)
    (hq : q < size) : (perform (transfer dst src size) m).1 (dst + q) = m.1 (src + q) := by
  rw [perform_transfer h]
  show (if _ then _ else _) = _
  rw [if_pos ⟨Nat.le_add_right _ _, Nat.add_lt_add_left hq dst⟩, Nat.add_sub_cancel_left]

theorem perform_transfer_outside {dst src size a : Nat} (h : Apart dst size src size) (m : Mem × L)
    (ha : a < dst ∨ dst + size ≤ a) : (perform (transfer dst src size) m).1 a = m.1 a := by
  rw [perform_transfer h]
  exact if_neg (by omega)

variable {I : Mem × L → Prop}

theorem copyByte_comm {dst src dst' src' : Nat} (hdst : dst ≠ dst') (hsrc : src ≠ dst')
    (hsrc' : src' ≠ dst) : CommuteOn I (copyByte (L := L) dst src) (copyByte dst' src') := by
  intro m _
  unfold copyByte
  dsimp only
  rw [Function.update_of_ne hsrc, Function.update_of_ne hsrc', Function.update_comm hdst]

/-- The copies of one transfer commute. -/
theorem transfer_pairwise {dst src size : Nat} (h : Apart dst size src size) :
    (transfer dst src size).Pairwise (CommuteOn I) := by
  apply List.pairwise_map.mpr
  apply List.Pairwise.imp_of_mem _ List.pairwise_lt_range
  intro i j hi hj hlt
  have hi' := List.mem_range.mp hi
  have hj' := List.mem_range.mp hj
  unfold Apart at h
  exact copyByte_comm (by omega) (by omega) (by omega)

/-- Transfers commute when neither writes what the other reads or
    writes. -/
theorem transfer_comm {dst src size dst' src' size' : Nat} (hdst : Apart dst size dst' size')
    (hsrc : Apart src size dst' size') (hsrc' : Apart src' size' dst size) :
    ∀ f ∈ transfer dst src size, ∀ g ∈ transfer dst' src' size', CommuteOn I f g := by
  intro f hf g hg
  obtain ⟨i, hi, rfl⟩ := mem_transfer hf
  obtain ⟨j, hj, rfl⟩ := mem_transfer hg
  unfold Apart at hdst hsrc hsrc'
  exact copyByte_comm (by omega) (by omega) (by omega)

/-! ## Section 2: Tasks that look at a region -/

/-- `f` does not write memory, and what it does depends on the bytes that
    satisfy `R` alone. -/
def LooksAt (R : Nat → Prop) (f : Mem × L → Mem × L) : Prop :=
  ∃ g : Mem → L → L, (∀ m, f m = (m.1, g m.1 m.2)) ∧
    ∀ mem mem' : Mem, (∀ a, R a → mem a = mem' a) → g mem = g mem'

theorem LooksAt.comm_copyByte {R : Nat → Prop} {f : Mem × L → Mem × L} (h : LooksAt R f)
    {dst src : Nat} (hdst : ¬ R dst) : CommuteOn I f (copyByte dst src) := by
  obtain ⟨g, hg, hlocal⟩ := h
  intro m _
  rw [hg, hg]
  show (_, g (Function.update m.1 dst (m.1 src)) m.2) = (_, g m.1 m.2)
  have hsame : g (Function.update m.1 dst (m.1 src)) = g m.1 := by
    apply hlocal
    intro a ha
    apply Function.update_of_ne
    intro heq
    exact hdst (heq ▸ ha)
  rw [hsame]
  rfl

/-- `f` writes only bytes that satisfy `W`, and what it does depends on the
    bytes that satisfy `R` alone. -/
structure Footprint (R W : Nat → Prop) (f : Mem × L → Mem × L) : Prop where
  writes : ∀ m a, ¬ W a → (f m).1 a = m.1 a
  reads : ∀ m m' : Mem × L, (∀ a, R a → m.1 a = m'.1 a) → m.2 = m'.2 →
    (f m).2 = (f m').2 ∧ ∀ a, W a → (f m).1 a = (f m').1 a

theorem Footprint.comm_copyByte {R W : Nat → Prop} {f : Mem × L → Mem × L} (h : Footprint R W f)
    {dst src : Nat} (hR : ¬ R dst) (hW : ¬ W dst) (hsrc : ¬ W src) :
    CommuteOn I f (copyByte dst src) := by
  intro m _
  have hsame : ∀ a, R a → (copyByte dst src m).1 a = m.1 a := by
    intro a ha
    apply Function.update_of_ne
    intro heq
    exact hR (heq ▸ ha)
  obtain ⟨hsnd, hfst⟩ := h.reads (copyByte dst src m) m hsame rfl
  apply Prod.ext
  · funext a
    show _ = Function.update (f m).1 dst ((f m).1 src) a
    by_cases ha : W a
    · have hne : a ≠ dst := fun heq => hW (heq ▸ ha)
      rw [hfst a ha, Function.update_of_ne hne]
    · rw [h.writes _ a ha, h.writes m src hsrc]
      show Function.update m.1 dst (m.1 src) a = _
      by_cases heq : a = dst
      · rw [heq, Function.update_self, Function.update_self]
      · rw [Function.update_of_ne heq, Function.update_of_ne heq, h.writes m a ha]
  · exact hsnd

/-- What changes nothing where `I` holds commutes with what keeps `I`. -/
theorem commuteOn_of_idle {f g : Mem × L → Mem × L} (hf : ∀ m, I m → f m = m) (hg : Keeps I g) :
    CommuteOn I f g := by
  intro m hm
  rw [hf m hm, hf (g m) (hg m hm)]

/-! ## Section 3: Bytes that always take the same value -/

/-- `mem` with the `n` bytes of `T` at `a`. -/
def overlay (mem T : Mem) (a n : Nat) : Mem := fun b => if a ≤ b ∧ b < a + n then T b else mem b

theorem overlay_comm (mem T : Mem) (a n b k : Nat) :
    overlay (overlay mem T a n) T b k = overlay (overlay mem T b k) T a n := by
  funext c
  unfold overlay
  by_cases ha : a ≤ c ∧ c < a + n <;> by_cases hb : b ≤ c ∧ c < b + k <;> simp [ha, hb]

/-- Wherever `I` holds, `f` stores the `n` bytes of `T` at `a`. -/
def StoresAt (I : Mem × L → Prop) (T : Mem) (a n : Nat) (f : Mem × L → Mem × L) : Prop :=
  ∀ m, I m → f m = (overlay m.1 T a n, m.2)

section Agreeing

variable {T : Mem} {fs : List (Mem × L → Mem × L)} {R : Nat → Prop} {m : Mem × L}

/-- **Agreeing stores commute**, wherever they overlap. -/
theorem StoresAt.comm {f g : Mem × L → Mem × L} {a n b k : Nat} (hf : StoresAt I T a n f)
    (hg : StoresAt I T b k g) (hIf : Keeps I f) (hIg : Keeps I g) : CommuteOn I f g := by
  intro m hm
  rw [hf (g m) (hIg m hm), hg (f m) (hIf m hm), hf m hm, hg m hm]
  dsimp only
  rw [overlay_comm]

/-- Stores to different places commute, whatever they store. -/
theorem StoresAt.comm_of_disjoint {T' : Mem} {f g : Mem × L → Mem × L} {a n b k : Nat}
    (hf : StoresAt I T a n f) (hg : StoresAt I T' b k g) (hIf : Keeps I f) (hIg : Keeps I g)
    (hapart : ∀ c, a ≤ c ∧ c < a + n → ¬ (b ≤ c ∧ c < b + k)) : CommuteOn I f g := by
  intro m hm
  rw [hf (g m) (hIg m hm), hg (f m) (hIf m hm), hf m hm, hg m hm]
  dsimp only
  congr 1
  funext c
  unfold overlay
  by_cases hin : a ≤ c ∧ c < a + n
  · rw [if_pos hin, if_neg (hapart c hin), if_pos hin]
  · rw [if_neg hin, if_neg hin]

/-- An address that some of the stores go to has its value in the end. -/
theorem perform_stores_inside (hfs : ∀ f ∈ fs, Keeps I f ∧ ∃ b n, StoresAt I T b n f) (hm : I m)
    {a : Nat}
    (ha : (∃ f ∈ fs, ∃ b n, (b ≤ a ∧ a < b + n) ∧ StoresAt I T b n f) ∨ m.1 a = T a) :
    (perform fs m).1 a = T a := by
  induction fs generalizing m with
  | nil =>
    obtain ⟨f, hf, _⟩ | hdone := ha
    · exact absurd hf List.not_mem_nil
    · exact hdone
  | cons f fs ih =>
    obtain ⟨hkeep, b, n, hb⟩ := hfs f List.mem_cons_self
    apply ih (fun g hg => hfs g (List.mem_cons_of_mem f hg)) (hkeep m hm)
    -- a store elsewhere leaves the byte, a store here gives it its value
    have hleft : m.1 a = T a → (f m).1 a = T a := by
      intro hdone
      rw [hb m hm]
      show (if b ≤ a ∧ a < b + n then T a else m.1 a) = T a
      rw [hdone, ite_self]
    obtain ⟨g, hg, c, k, hin, hst⟩ | hdone := ha
    · obtain rfl | hg := List.mem_cons.mp hg
      · right
        rw [hst m hm]
        exact if_pos hin
      · exact .inl ⟨g, hg, c, k, hin, hst⟩
    · exact .inr (hleft hdone)

end Agreeing

/-! ## Section 4: Arrays -/

theorem store_apply (mem : Mem) (a v n b : Nat) :
    store mem a v n b =
      if a ≤ b ∧ b < a + n then UInt8.ofNat (v / 256 ^ (b - a)) else mem b := by
  induction n generalizing mem a v with
  | zero =>
    rw [if_neg (by omega)]
    rfl
  | succ n ih =>
    rw [store, ih]
    by_cases hin : a + 1 ≤ b ∧ b < a + 1 + n
    · have hexp : b - a = (b - (a + 1)) + 1 := by omega
      rw [if_pos hin, if_pos (by omega), hexp, Nat.pow_succ', Nat.div_div_eq_div_mul]
    · rw [if_neg hin]
      by_cases hfirst : b = a
      · rw [hfirst, Function.update_self, if_pos (by omega), Nat.sub_self, Nat.pow_zero,
          Nat.div_one]
      · rw [Function.update_of_ne hfirst, if_neg (by omega)]

theorem load_of_bytes {mem : Mem} {a v n : Nat}
    (h : ∀ j, j < n → mem (a + j) = UInt8.ofNat (v / 256 ^ j)) : load mem a n = v % 256 ^ n := by
  have hstored : load mem a n = load (store mem a (v % 256 ^ n) n) a n := by
    apply load_congr
    intro b hlo hhi
    have hj := h (b - a) (by omega)
    rw [Nat.add_sub_cancel' hlo] at hj
    rw [hj, store_apply, if_pos ⟨hlo, hhi⟩]
    apply UInt8.toNat_inj.mp
    have hle : 256 ^ (b - a) * 256 ∣ 256 ^ n := by
      rw [← Nat.pow_succ]
      exact Nat.pow_dvd_pow 256 (by omega)
    show v / 256 ^ (b - a) % 256 = v % 256 ^ n / 256 ^ (b - a) % 256
    rw [← Nat.mod_mul_right_div_self, ← Nat.mod_mul_right_div_self, Nat.mod_mod_of_dvd _ hle]
  rw [hstored, load_store_self (Nat.mod_lt _ (Nat.pow_pos (by omega)))]

/-- A store of `width` bytes at `address`, of what `value` computes from the
    memory. -/
structure Store where
  address : Nat
  width : Nat
  value : Mem → Nat

def Store.run (s : Store) (m : Mem × L) : Mem × L :=
  (store m.1 s.address (s.value m.1) s.width, m.2)

/-- A memory with the elements `f` from `base` on, each of `width` bytes. -/
def array (base width : Nat) (f : Nat → Nat) : Mem := fun a =>
  UInt8.ofNat (f ((a - base) / width) / 256 ^ ((a - base) % width))

theorem array_apply (base : Nat) {width : Nat} (i : Nat) {j : Nat} (f : Nat → Nat)
    (hj : j < width) :
    array base width f (base + width * i + j) = UInt8.ofNat (f i / 256 ^ j) := by
  have hsub : base + width * i + j - base = width * i + j := by omega
  unfold array
  rw [hsub, Nat.mul_add_div (by omega), Nat.div_eq_of_lt hj, Nat.mul_add_mod, Nat.mod_eq_of_lt hj,
    Nat.add_zero]

theorem load_array (base width i : Nat) (f : Nat → Nat) :
    load (array base width f) (base + width * i) width = f i % 256 ^ width := by
  apply load_of_bytes
  intro j hj
  exact array_apply base i f hj

/-- A store of an element of the array. -/
theorem storesAt_element {base width i : Nat} {f : Nat → Nat} {v : Mem → Nat}
    (hv : ∀ m, I m → v m.1 = f i) :
    StoresAt I (array base width f) (base + width * i) width
      (Store.mk (base + width * i) width v).run := by
  intro m hm
  show (store m.1 _ (v m.1) width, m.2) = _
  rw [hv m hm]
  congr 1
  funext b
  rw [store_apply]
  unfold overlay
  by_cases hin : base + width * i ≤ b ∧ b < base + width * i + width
  · obtain ⟨j, rfl⟩ := Nat.exists_eq_add_of_le hin.1
    rw [if_pos hin, if_pos hin, array_apply base i f (by omega), Nat.add_sub_cancel_left]
  · rw [if_neg hin, if_neg hin]

/-- A store of a word of an array of bytes. -/
theorem storesAt_bytes {base i n : Nat} {f : Nat → Nat} {v : Mem → Nat}
    (hv : ∀ m, I m → ∀ j, j < n → UInt8.ofNat (v m.1 / 256 ^ j) = UInt8.ofNat (f (i + j))) :
    StoresAt I (array base 1 f) (base + i) n (Store.mk (base + i) n v).run := by
  intro m hm
  show (store m.1 _ (v m.1) n, m.2) = _
  congr 1
  funext b
  rw [store_apply]
  unfold overlay
  by_cases hin : base + i ≤ b ∧ b < base + i + n
  · obtain ⟨j, rfl⟩ := Nat.exists_eq_add_of_le hin.1
    have hbyte := array_apply base (i + j) f Nat.one_pos
    rw [Nat.one_mul, Nat.add_zero, Nat.pow_zero, Nat.div_one, ← Nat.add_assoc] at hbyte
    rw [if_pos hin, if_pos hin, hbyte, Nat.add_sub_cancel_left]
    exact hv m hm j (by omega)
  · rw [if_neg hin, if_neg hin]

/-- A store of a fixed value whose bytes `T` has. -/
theorem storesAt_value {T : Mem} {a n v : Nat}
    (hT : ∀ j, j < n → T (a + j) = UInt8.ofNat (v / 256 ^ j)) :
    StoresAt I T a n (Store.mk a n fun _ => v).run := by
  intro m _
  show (store m.1 a v n, m.2) = _
  congr 1
  funext b
  rw [store_apply]
  unfold overlay
  by_cases hin : a ≤ b ∧ b < a + n
  · obtain ⟨j, rfl⟩ := Nat.exists_eq_add_of_le hin.1
    rw [if_pos hin, if_pos hin, hT j (by omega), Nat.add_sub_cancel_left]
  · rw [if_neg hin, if_neg hin]

/-- Bytes for a region. -/
structure Piece where
  dst : Nat
  size : Nat
  value : Nat → UInt8

/-- The address lies in the region. -/
def Piece.Has (p : Piece) (a : Nat) : Prop := p.dst ≤ a ∧ a < p.dst + p.size

/-- The regions have no common byte. -/
def Piece.Apart (p q : Piece) : Prop := ∀ a, p.Has a → ¬ q.Has a

/-- `mem` with the pieces. -/
def image (mem : Mem) : List Piece → Mem
  | [] => mem
  | p :: ps => fun a =>
    if p.dst ≤ a ∧ a < p.dst + p.size then p.value (a - p.dst) else image mem ps a

variable {mem : Mem} {ps : List Piece} {p : Piece}

theorem Piece.has_add {i : Nat} (hi : i < p.size) : p.Has (p.dst + i) :=
  ⟨Nat.le_add_right _ _, Nat.add_lt_add_left hi _⟩

theorem image_inside (hpair : ps.Pairwise Piece.Apart) (hp : p ∈ ps) {i : Nat} (hi : i < p.size) :
    image mem ps (p.dst + i) = p.value i := by
  induction ps with
  | nil => exact absurd hp List.not_mem_nil
  | cons q ps ih =>
    obtain ⟨hq, hps⟩ := List.pairwise_cons.mp hpair
    unfold image
    by_cases hin : q.dst ≤ p.dst + i ∧ p.dst + i < q.dst + q.size
    · obtain rfl | hp := List.mem_cons.mp hp
      · rw [if_pos hin, Nat.add_sub_cancel_left]
      · exact absurd (Piece.has_add hi) (hq p hp _ hin)
    · obtain rfl | hp := List.mem_cons.mp hp
      · exact absurd (Piece.has_add hi) hin
      · rw [if_neg hin]
        exact ih hps hp

/-- Only the regions of the pieces may differ from `mem`. -/
def Around (mem : Mem) (ps : List Piece) (m : Mem × L) : Prop :=
  ∀ a, (∀ p ∈ ps, ¬ p.Has a) → m.1 a = mem a

/-- Wherever only the regions differ, `f` stores bytes of one of the pieces,
    from its byte `i` on. -/
structure Lays (mem : Mem) (ps : List Piece) (p : Piece) (i n : Nat)
    (f : Mem × L → Mem × L) : Prop where
  piece : p ∈ ps
  fits : i + n ≤ p.size
  stores : StoresAt (Around mem ps) (image mem ps) (p.dst + i) n f

theorem Lays.keeps {f : Mem × L → Mem × L} {i n : Nat} (h : Lays mem ps p i n f) :
    Keeps (Around mem ps) f := by
  have hfits := h.fits
  intro m hm a ha
  have hout : ¬ (p.dst + i ≤ a ∧ a < p.dst + i + n) :=
    fun hin => ha p h.piece ⟨by omega, by omega⟩
  rw [h.stores m hm]
  show (if _ then _ else _) = _
  rw [if_neg hout]
  exact hm a ha

/-- The tasks store the bytes of the piece, all of them. -/
structure Fills (mem : Mem) (ps : List Piece) (p : Piece)
    (fs : List (Mem × L → Mem × L)) : Prop where
  lays : ∀ f ∈ fs, ∃ i n, Lays mem ps p i n f
  covers : ∀ i, i < p.size → ∃ f ∈ fs, ∃ j n, Lays mem ps p j n f ∧ j ≤ i ∧ i < j + n

theorem Lays.comm {f g : Mem × L → Mem × L} {q : Piece} {i n j k : Nat} (hf : Lays mem ps p i n f)
    (hg : Lays mem ps q j k g) : CommuteOn (Around mem ps) f g :=
  hf.stores.comm hg.stores hf.keeps hg.keeps

section Laying

variable {as bs : List (Piece × List (Mem × L → Mem × L))} {m : Mem × L}

end Laying

end ByteMemory
