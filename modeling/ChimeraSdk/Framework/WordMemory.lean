import Mathlib.Algebra.Ring.Nat

/-! # Memory Addressed by Machine Words

    Addresses are the words of the machine and wrap around as its
    registers do.  A range is a start and a number of bytes; what is in
    it is measured by the distance from the start, so a range may lie
    across the end of the address space. -/

namespace WordMemory

abbrev Memory (w : Nat) : Type := BitVec w → BitVec 8

/-- The address `x` is one of the `n` bytes from `a` on. -/
def Within {w : Nat} (a : BitVec w) (n : Nat) (x : BitVec w) : Prop := (x - a).toNat < n

instance {w : Nat} (a : BitVec w) (n : Nat) (x : BitVec w) : Decidable (Within a n x) :=
  Nat.decLt _ _

/-- Two ranges without a byte in common. -/
def Disjoint {w : Nat} (a : BitVec w) (n : Nat) (b : BitVec w) (k : Nat) : Prop :=
  ∀ x, Within a n x → ¬ Within b k x

/-- Stores the low `n` bytes of `v` at `a`, in little-endian order. -/
def store {w : Nat} (mem : Memory w) (a : BitVec w) (n : Nat) (v : BitVec w) : Memory w :=
  fun x => if Within a n x then BitVec.ofNat 8 (v.toNat / 256 ^ (x - a).toNat) else mem x

/-- The number in the `n` bytes at `a`. -/
def bytesAt {w : Nat} (mem : Memory w) (a : BitVec w) : Nat → Nat
  | 0 => 0
  | n + 1 => bytesAt mem a n + 256 ^ n * (mem (a + BitVec.ofNat w n)).toNat

def load {w : Nat} (mem : Memory w) (a : BitVec w) (n : Nat) : BitVec w :=
  BitVec.ofNat w (bytesAt mem a n)

variable {w : Nat} {mem mem' : Memory w} {a b v x : BitVec w} {n k : Nat}

/-! ## Section 1: Ranges -/

theorem toNat_add_sub (hn : n < 2 ^ w) : (a + BitVec.ofNat w n - a).toNat = n := by
  rw [BitVec.add_comm, BitVec.add_sub_cancel, BitVec.toNat_ofNat, Nat.mod_eq_of_lt hn]

theorem within_add_ofNat (hn : n < 2 ^ w) : Within a k (a + BitVec.ofNat w n) ↔ n < k := by
  unfold Within
  rw [toNat_add_sub hn]

/-- A range inside the range from `a` on, in distances from `a`. -/
theorem within_offset (h : k + n ≤ 2 ^ w) : Within (a + BitVec.ofNat w k) n x ↔
    k ≤ (x - a).toNat ∧ (x - a).toNat < k + n := by
  have hd := (x - a).isLt
  unfold Within
  rw [← BitVec.sub_sub, BitVec.toNat_sub, BitVec.toNat_ofNat]
  rcases Nat.eq_zero_or_pos n with rfl | hn
  · omega
  · rw [Nat.mod_eq_of_lt (by omega : k < 2 ^ w)]
    by_cases hk : k ≤ (x - a).toNat
    · rw [show 2 ^ w - k + (x - a).toNat = (x - a).toNat - k + 2 ^ w by omega,
        Nat.add_mod_right, Nat.mod_eq_of_lt (by omega)]
      omega
    · rw [Nat.mod_eq_of_lt (by omega)]
      omega

/-- Two parts of one range, the first below the second. -/
theorem disjoint_offset {i j : Nat} (hij : i + n ≤ j ∨ j + k ≤ i) (hi : i + n ≤ 2 ^ w)
    (hj : j + k ≤ 2 ^ w) :
    Disjoint (a + BitVec.ofNat w i) n (a + BitVec.ofNat w j) k := by
  intro x hx hx'
  rw [within_offset hi] at hx
  rw [within_offset hj] at hx'
  omega

theorem Disjoint.symm (h : Disjoint a n b k) : Disjoint b k a n :=
  fun x hx hx' => h x hx' hx

theorem Disjoint.mono {a' b' : BitVec w} {n' k' : Nat} (h : Disjoint a n b k)
    (ha : ∀ x, Within a' n' x → Within a n x) (hb : ∀ x, Within b' k' x → Within b k x) :
    Disjoint a' n' b' k' :=
  fun x hx hx' => h x (ha x hx) (hb x hx')

/-! ## Section 2: Loads and stores -/

theorem store_outside (h : ¬ Within a n x) : store mem a n v x = mem x := if_neg h

theorem store_inside (h : Within a n x) :
    store mem a n v x = BitVec.ofNat 8 (v.toNat / 256 ^ (x - a).toNat) := if_pos h

theorem bytesAt_congr (hn : n ≤ 2 ^ w) (h : ∀ x, Within a n x → mem' x = mem x) :
    bytesAt mem' a n = bytesAt mem a n := by
  induction n with
  | zero => rfl
  | succ n ih =>
    have hprev : ∀ x, Within a n x → mem' x = mem x := fun x hx =>
      h x (Nat.lt_trans hx (Nat.lt_succ_self n))
    have hlast : Within a (n + 1) (a + BitVec.ofNat w n) :=
      (within_add_ofNat (by omega)).mpr (Nat.lt_succ_self n)
    rw [bytesAt, bytesAt, ih (by omega) hprev, h _ hlast]

/-- A load depends on the bytes it reads and on no other. -/
theorem load_congr (hn : n ≤ 2 ^ w) (h : ∀ x, Within a n x → mem' x = mem x) :
    load mem' a n = load mem a n := by
  unfold load
  rw [bytesAt_congr hn h]

theorem bytesAt_store (hk : k ≤ n) (hn : n ≤ 2 ^ w) :
    bytesAt (store mem a n v) a k = v.toNat % 256 ^ k := by
  induction k with
  | zero => rw [Nat.pow_zero, Nat.mod_one, bytesAt]
  | succ k ih =>
    have hbyte : (store mem a n v (a + BitVec.ofNat w k)).toNat = v.toNat / 256 ^ k % 256 := by
      rw [store_inside ((within_add_ofNat (by omega)).mpr hk), toNat_add_sub (by omega),
        BitVec.toNat_ofNat]
    rw [bytesAt, ih (by omega), hbyte, Nat.pow_succ, Nat.mod_mul]

theorem load_store_self (hw : w = 8 * n) : load (store mem a n v) a n = v := by
  have hn : n ≤ 2 ^ w := by
    have := Nat.lt_two_pow_self (n := w)
    omega
  have hv : v.toNat < 256 ^ n := by
    have := v.isLt
    rwa [show (256 : Nat) = 2 ^ 8 from rfl, ← Nat.pow_mul, ← hw]
  unfold load
  rw [bytesAt_store (Nat.le_refl n) hn, Nat.mod_eq_of_lt hv, BitVec.ofNat_toNat,
    BitVec.setWidth_eq]

theorem load_store_of_disjoint (hn : n ≤ 2 ^ w) (h : Disjoint a n b k) :
    load (store mem b k v) a n = load mem a n :=
  load_congr hn (fun x hx => store_outside (h x hx))

end WordMemory
