import Mathlib.Logic.Function.Basic
import Mathlib.Algebra.Ring.Nat

/-! # Byte-addressed Memory

    Words are stored in little-endian order, `n` bytes at a time.  A load
    gives back what a store of the same word put there, and nothing that
    happens outside the word matters to it. -/

namespace ByteMemory

abbrev Mem : Type := Nat → UInt8

/-- The `n`-byte word at `a`. -/
def load (mem : Mem) (a : Nat) : Nat → Nat
  | 0 => 0
  | n + 1 => (mem a).toNat + 256 * load mem (a + 1) n

/-- Stores the low `n` bytes of `v` at `a`. -/
def store (mem : Mem) (a v : Nat) : Nat → Mem
  | 0 => mem
  | n + 1 => store (Function.update mem a (UInt8.ofNat v)) (a + 1) (v / 256) n

variable {mem mem' : Mem} {a b v : Nat}

theorem load_congr {n : Nat} (h : ∀ i, a ≤ i → i < a + n → mem' i = mem i) :
    load mem' a n = load mem a n := by
  induction n generalizing a with
  | zero => rfl
  | succ n ih =>
    rw [load, load, h a (by omega) (by omega)]
    rw [ih (fun i hlo hhi => h i (by omega) (by omega))]

theorem load_lt (mem : Mem) (a n : Nat) : load mem a n < 256 ^ n := by
  induction n generalizing a with
  | zero => exact Nat.one_pos
  | succ n ih =>
    have hbyte := (mem a).toNat_lt
    have hrest := ih (a + 1)
    rw [load, Nat.pow_succ]
    omega

/-- Bytes outside the word a store writes stay as they are. -/
theorem store_outside {n i : Nat} (h : i < a ∨ a + n ≤ i) : store mem a v n i = mem i := by
  induction n generalizing mem a v with
  | zero => rfl
  | succ n ih =>
    rw [store, ih (by omega), Function.update_of_ne (by omega)]

/-- A word that is read back is cut to its bytes. -/
theorem load_store (mem : Mem) (a v n : Nat) : load (store mem a v n) a n = v % 256 ^ n := by
  induction n generalizing mem a v with
  | zero => rw [Nat.pow_zero, Nat.mod_one, load]
  | succ n ih =>
    have hbyte : (store (Function.update mem a (UInt8.ofNat v)) (a + 1) (v / 256) n a).toNat =
        v % 256 := by
      rw [store_outside (by omega), Function.update_self]
      exact UInt8.toNat_ofNat
    rw [load, store, hbyte, ih, Nat.pow_succ', Nat.mod_mul]

theorem load_store_self {n : Nat} (hv : v < 256 ^ n) : load (store mem a v n) a n = v := by
  rw [load_store, Nat.mod_eq_of_lt hv]

theorem load_store_of_disjoint {n k : Nat} (h : a + n ≤ b ∨ b + k ≤ a) :
    load (store mem b v k) a n = load mem a n := by
  apply load_congr
  intro i hlo hhi
  exact store_outside (by omega)

/-- Writing one byte outside a word does not change the word. -/
theorem load_update_of_outside {n i : Nat} {x : UInt8} (h : i < a ∨ a + n ≤ i) :
    load (Function.update mem i x) a n = load mem a n := by
  apply load_congr
  intro j hlo hhi
  rw [Function.update_of_ne (by omega)]

end ByteMemory
