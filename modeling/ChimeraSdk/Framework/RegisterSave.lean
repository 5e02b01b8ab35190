import ChimeraSdk.Framework.Floyd

/-! # Registers Saved on the Stack

    Code that stores registers in slots above the stack pointer, one word
    a slot, and code that loads them again.  A slot holds the register
    saved there as long as its bytes are left alone. -/

namespace RiscV

open WordMemory

variable {w : Nat} {Label Sym Csr Fn : Type}

/-- Registers with the slots they are saved in. -/
abbrev SaveArea : Type := List (Reg × Nat)

def saveCode (n : Nat) (slots : SaveArea) : List (Instr w Label Sym Csr Fn) :=
  slots.map fun s => .store n s.1 (s.2 * n) .sp

def restoreCode (n : Nat) (slots : SaveArea) : List (Instr w Label Sym Csr Fn) :=
  slots.map fun s => .load s.1 (s.2 * n) .sp

/-- The memory after the registers have been saved from `base` on. -/
def saveAll (n : Nat) (base : BitVec w) (m : Machine w Csr Fn) (mem : Memory w) :
    SaveArea → Memory w
  | [] => mem
  | s :: slots => saveAll n base m (store mem (base + BitVec.ofNat w (s.2 * n)) n (m.reg s.1)) slots

/-- The machine after the registers have been restored. -/
def restoreAll (n : Nat) (m : Machine w Csr Fn) : SaveArea → Machine w Csr Fn
  | [] => m
  | s :: slots =>
      restoreAll n (m.set s.1 (load m.mem (Program.operand m (s.2 * n) .sp) n)) slots

/-! ## Section 1: Saving -/

variable {n : Nat} {base : BitVec w} {m : Machine w Csr Fn} {mem : Memory w} {slots : SaveArea}

theorem wp_saveCode [DecidableEq Csr] {S : Spec w Label Csr Fn} {P : Program w Label Sym Csr Fn}
    {code : List (Instr w Label Sym Csr Fn)} :
    S.wp P (saveCode n slots ++ code) m ↔
      S.wp P code (m.withMem (saveAll n (m.reg .sp) m m.mem slots)) := by
  suffices h : ∀ mem, S.wp P (saveCode n slots ++ code) (m.withMem mem) ↔
      S.wp P code (m.withMem (saveAll n (m.reg .sp) m mem slots)) from h m.mem
  induction slots with
  | nil => exact fun _ => Iff.rfl
  | cons s slots ih =>
    intro mem
    show S.wp P (.store n s.1 (s.2 * n) .sp :: (saveCode n slots ++ code)) (m.withMem mem) ↔ _
    rw [Spec.wp_store]
    exact ih _

/-- Bytes outside the slots stay as they are. -/
theorem saveAll_outside {x : BitVec w}
    (h : ∀ s ∈ slots, ¬ Within (base + BitVec.ofNat w (s.2 * n)) n x) :
    saveAll n base m mem slots x = mem x := by
  induction slots generalizing mem with
  | nil => rfl
  | cons s slots ih =>
    rw [saveAll, ih (fun s' hs' => h s' (List.mem_cons_of_mem _ hs'))]
    exact store_outside (h s List.mem_cons_self)

/-- Two slots have no byte in common. -/
theorem slots_disjoint {i j k : Nat} (hij : i ≠ j) (hi : i < k) (hj : j < k)
    (hk : k * n ≤ 2 ^ w) :
    Disjoint (base + BitVec.ofNat w (i * n)) n (base + BitVec.ofNat w (j * n)) n := by
  have hroom : ∀ {l}, l < k → l * n + n ≤ k * n := fun {l} hl => by
    rw [← Nat.succ_mul]
    exact Nat.mul_le_mul_right n hl
  apply disjoint_offset _ (Nat.le_trans (hroom hi) hk) (Nat.le_trans (hroom hj) hk)
  rw [← Nat.succ_mul, ← Nat.succ_mul]
  rcases Nat.lt_or_gt_of_ne hij with h | h
  · exact .inl (Nat.mul_le_mul_right n h)
  · exact .inr (Nat.mul_le_mul_right n h)

/-- A slot is part of the save area. -/
theorem within_area {i k : Nat} {x : BitVec w} (hi : i < k) (hk : k * n ≤ 2 ^ w)
    (hx : Within (base + BitVec.ofNat w (i * n)) n x) : Within base (k * n) x := by
  have hroom : i * n + n ≤ k * n := by
    rw [← Nat.succ_mul]
    exact Nat.mul_le_mul_right n hi
  rw [within_offset (Nat.le_trans hroom hk)] at hx
  exact Nat.lt_of_lt_of_le hx.2 hroom

/-- A slot holds the register saved in it. -/
theorem load_saveAll {k : Nat} (hw : w = 8 * n) (hk : k * n ≤ 2 ^ w)
    (hlt : ∀ s ∈ slots, s.2 < k) (hnodup : (slots.map Prod.snd).Nodup) {s : Reg × Nat}
    (hs : s ∈ slots) :
    load (saveAll n base m mem slots) (base + BitVec.ofNat w (s.2 * n)) n = m.reg s.1 := by
  induction slots generalizing mem with
  | nil => cases hs
  | cons s₀ slots ih =>
    rw [List.map_cons, List.nodup_cons] at hnodup
    have hrest : ∀ s ∈ slots, s.2 < k := fun s hs => hlt s (List.mem_cons_of_mem _ hs)
    rw [saveAll]
    rcases List.mem_cons.mp hs with rfl | hmem
    · -- the later slots are apart from this one
      have hsame : ∀ x, Within (base + BitVec.ofNat w (s.2 * n)) n x →
          saveAll n base m (store mem (base + BitVec.ofNat w (s.2 * n)) n (m.reg s.1)) slots x =
            store mem (base + BitVec.ofNat w (s.2 * n)) n (m.reg s.1) x := by
        intro x hx
        apply saveAll_outside
        intro s' hs'
        have hne : s.2 ≠ s'.2 := fun heq => hnodup.1 (heq ▸ List.mem_map_of_mem hs')
        exact slots_disjoint hne (hlt s List.mem_cons_self) (hrest s' hs') hk x hx
      have hn : n ≤ 2 ^ w := by
        have := Nat.lt_two_pow_self (n := w)
        omega
      rw [load_congr hn hsame, load_store_self hw]
    · exact ih hrest hnodup.2 hmem

/-! ## Section 2: Restoring -/

/-- Restoring needs slots that nothing changes in the meantime, and does
    not touch the stack pointer. -/
theorem wp_restoreCode [DecidableEq Csr] {S : Spec w Label Csr Fn}
    {P : Program w Label Sym Csr Fn} {code : List (Instr w Label Sym Csr Fn)} (hn : w / 8 = n)
    (hkept : ∀ sp x, S.kept sp x) (hsp : ∀ s ∈ slots, s.1 ≠ .sp)
    (h : S.wp P code (restoreAll n m slots)) : S.wp P (restoreCode n slots ++ code) m := by
  induction slots generalizing m with
  | nil => exact h
  | cons s slots ih =>
    show S.wp P (.load s.1 (s.2 * n) .sp :: (restoreCode n slots ++ code)) m
    rw [Spec.wp_load (hsp s List.mem_cons_self), hn]
    exact ⟨fun x _ => hkept _ x, ih (fun s' hs' => hsp s' (List.mem_cons_of_mem _ hs')) h⟩

theorem restoreAll_mem : (restoreAll n m slots).mem = m.mem := by
  induction slots generalizing m with
  | nil => rfl
  | cons s slots ih => exact ih

theorem restoreAll_returned : (restoreAll n m slots).returned = m.returned := by
  induction slots generalizing m with
  | nil => rfl
  | cons s slots ih => exact ih

/-- A register without a slot stays as it is. -/
theorem restoreAll_regs_of_notMem {r : Reg} (h : r ∉ slots.map Prod.fst) :
    (restoreAll n m slots).regs r = m.regs r := by
  induction slots generalizing m with
  | nil => rfl
  | cons s slots ih =>
    rw [List.map_cons, List.mem_cons, not_or] at h
    rw [restoreAll, ih h.2]
    exact Function.update_of_ne h.1 ..

/-- A register with a slot gets the word in it. -/
theorem restoreAll_regs_of_mem (hsp : ∀ s ∈ slots, s.1 ≠ .sp)
    (hnodup : (slots.map Prod.fst).Nodup) {s : Reg × Nat} (hs : s ∈ slots) :
    (restoreAll n m slots).regs s.1 = load m.mem (Program.operand m (s.2 * n) .sp) n := by
  induction slots generalizing m with
  | nil => cases hs
  | cons s₀ slots ih =>
    rw [List.map_cons, List.nodup_cons] at hnodup
    rw [restoreAll]
    rcases List.mem_cons.mp hs with rfl | hmem
    · rw [restoreAll_regs_of_notMem hnodup.1]
      exact Function.update_self ..
    · rw [ih (fun s hs => hsp s (List.mem_cons_of_mem _ hs)) hnodup.2 hmem]
      have hne : Reg.sp ≠ s₀.1 := (hsp s₀ List.mem_cons_self).symm
      unfold Program.operand
      rw [Machine.reg_set_ne hne]
      rfl

end RiscV
