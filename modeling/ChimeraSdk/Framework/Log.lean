import Mathlib.Data.List.Basic

/-! # Logs by Party

    A log of a concurrent run is one list in which every entry names the
    party it belongs to.  What a property says about one party is said
    about the entries of that party. -/

namespace LTS

variable {κ α : Type} [DecidableEq κ]

/-- The entries of a log that belong to `k`, oldest first. -/
def entriesOf (k : κ) (log : List (κ × α)) : List α :=
  log.filterMap (fun e => if e.1 = k then some e.2 else none)

variable (k : κ) (log log' : List (κ × α))

@[simp] theorem entriesOf_nil : entriesOf k ([] : List (κ × α)) = [] := rfl

@[simp] theorem entriesOf_append :
    entriesOf k (log ++ log') = entriesOf k log ++ entriesOf k log' :=
  List.filterMap_append

@[simp] theorem entriesOf_self (a : α) : entriesOf k [(k, a)] = [a] := by
  simp [entriesOf]

theorem entriesOf_ne {k k' : κ} (a : α) (hne : k' ≠ k) : entriesOf k [(k', a)] = [] := by
  simp [entriesOf, hne]

end LTS
