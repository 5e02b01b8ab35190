import Mathlib.Data.List.Nodup
import Mathlib.Logic.Function.Basic

/-! # Register Files

    A register keeps a part of what is written to it, always the same
    part.  A file of registers holds nothing but what its registers keep;
    it carries the proof of that, so that what is read can be written back
    without a change.  Next to the file stands the log of its writes. -/

/-- What the register at an address keeps of a value. -/
structure RegLayout (Addr Val : Type) where
  keep : Addr → Val → Val
  keep_keep : ∀ a v, keep a (keep a v) = keep a v

structure RegFile {Addr Val : Type} (layout : RegLayout Addr Val) where
  get : Addr → Val
  kept : ∀ a, layout.keep a (get a) = get a

namespace RegFile

variable {Addr Val : Type} {layout : RegLayout Addr Val}

theorem ext_get {r r' : RegFile layout} (h : ∀ a, r.get a = r'.get a) : r = r' := by
  cases r
  cases r'
  simp only [RegFile.mk.injEq]
  funext a
  exact h a

variable [DecidableEq Addr]

theorem kept_update (r : RegFile layout) (a : Addr) (v : Val) (b : Addr) :
    layout.keep b (Function.update r.get a (layout.keep a v) b) =
      Function.update r.get a (layout.keep a v) b := by
  by_cases hb : b = a
  · rw [hb, Function.update_self, layout.keep_keep]
  · rw [Function.update_of_ne hb, r.kept]

/-- Write one register. -/
def set (r : RegFile layout) (a : Addr) (v : Val) : RegFile layout where
  get := Function.update r.get a (layout.keep a v)
  kept := kept_update r a v

@[simp] theorem get_set_self (r : RegFile layout) (a : Addr) (v : Val) :
    (r.set a v).get a = layout.keep a v :=
  Function.update_self _ _ _

theorem get_set_ne (r : RegFile layout) {a b : Addr} (v : Val) (hne : b ≠ a) :
    (r.set a v).get b = r.get b :=
  Function.update_of_ne hne _ _

/-- Writing back what a register holds changes nothing. -/
theorem set_get (r : RegFile layout) (a : Addr) : r.set a (r.get a) = r := by
  apply ext_get
  intro b
  by_cases hb : b = a
  · rw [hb, get_set_self, r.kept]
  · rw [get_set_ne _ _ hb]

/-- Write registers one after the other. -/
def setAll (r : RegFile layout) (ws : List (Addr × Val)) : RegFile layout :=
  ws.foldl (fun r w => r.set w.1 w.2) r

variable {r : RegFile layout} {a : Addr} {v : Val} {ws : List (Addr × Val)}

@[simp] theorem setAll_nil : r.setAll [] = r := rfl

@[simp] theorem setAll_cons : r.setAll ((a, v) :: ws) = (r.set a v).setAll ws := rfl

/-- **Frame rule**: a register that is not written keeps its value. -/
theorem get_setAll_of_not_mem (h : a ∉ ws.map Prod.fst) : (r.setAll ws).get a = r.get a := by
  induction ws generalizing r with
  | nil => rfl
  | cons w ws ih =>
    rw [List.map_cons, List.mem_cons, not_or] at h
    obtain ⟨hne, hws⟩ := h
    rw [show r.setAll (w :: ws) = (r.set w.1 w.2).setAll ws from rfl, ih hws]
    exact get_set_ne r w.2 hne

/-- **Read rule**: among writes to distinct registers, each leaves what its
    register keeps of the value. -/
theorem get_setAll_of_mem (hnodup : (ws.map Prod.fst).Nodup) (hmem : (a, v) ∈ ws) :
    (r.setAll ws).get a = layout.keep a v := by
  induction ws generalizing r with
  | nil => cases hmem
  | cons w ws ih =>
    obtain ⟨hfresh, hnodup⟩ := List.nodup_cons.mp hnodup
    rcases List.mem_cons.mp hmem with rfl | hmem
    · -- the register is not written again
      rw [setAll_cons, get_setAll_of_not_mem hfresh, get_set_self]
    · exact ih hnodup hmem

/-- **Write-back rule**: writes of what the registers hold change nothing. -/
theorem setAll_get (h : ∀ w ∈ ws, r.get w.1 = w.2) : r.setAll ws = r := by
  induction ws with
  | nil => rfl
  | cons w ws ih =>
    obtain ⟨hw, hws⟩ := List.forall_mem_cons.mp h
    rw [show r.setAll (w :: ws) = (r.set w.1 w.2).setAll ws from rfl, ← hw, set_get]
    exact ih hws

end RegFile

/-- The registers with what has been written to them, oldest first. -/
structure RegLog {Addr Val : Type} (layout : RegLayout Addr Val) where
  file : RegFile layout
  writes : List (Addr × Val)

namespace RegLog

variable {Addr Val : Type} {layout : RegLayout Addr Val} [DecidableEq Addr]

/-- Write one register. -/
def set (l : RegLog layout) (a : Addr) (v : Val) : RegLog layout where
  file := l.file.set a v
  writes := l.writes ++ [(a, v)]

/-- Write registers one after the other. -/
def setAll (l : RegLog layout) (ws : List (Addr × Val)) : RegLog layout :=
  ws.foldl (fun l w => l.set w.1 w.2) l

theorem setAll_file (l : RegLog layout) (ws : List (Addr × Val)) :
    (l.setAll ws).file = l.file.setAll ws := by
  induction ws generalizing l with
  | nil => rfl
  | cons w ws ih => exact ih (l.set w.1 w.2)

theorem setAll_writes (l : RegLog layout) (ws : List (Addr × Val)) :
    (l.setAll ws).writes = l.writes ++ ws := by
  induction ws generalizing l with
  | nil => exact (List.append_nil _).symm
  | cons w ws ih => exact (ih (l.set w.1 w.2)).trans (List.append_assoc _ [w] ws)

end RegLog
