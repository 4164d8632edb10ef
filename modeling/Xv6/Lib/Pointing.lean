import Mathlib

/-! Counting the cells that point to a given target, for reference counts. -/

namespace Xv6.Lib.Pointing

open Function

variable {Cell Target : Type} [Fintype Cell] [DecidableEq Target]

def pointing (cells : Cell → Option Target) (target : Target) : Nat :=
  (Finset.univ.filter fun cell => cells cell = some target).card

variable (cells : Cell → Option Target)

theorem pointing_pos (cell : Cell) (target : Target) (here : cells cell = some target) : 0 < pointing cells target :=
  Finset.card_pos.mpr ⟨cell, by simp [here]⟩

theorem pointing_zero (target : Target) : pointing cells target = 0 ↔ ∀ cell, cells cell ≠ some target := by
  simp [pointing, Finset.filter_eq_empty_iff]

variable [DecidableEq Cell]

theorem pointing_set (cell : Cell) (target other : Target) (free : cells cell = none) :
    pointing (update cells cell (some target)) other = pointing cells other + if other = target then 1 else 0 := by
  unfold pointing
  by_cases same : other = target
  · subst same
    have absent : cell ∉ Finset.univ.filter (fun c => cells c = some other) := by simp [free]
    rw [if_pos rfl, ← Finset.card_insert_of_notMem absent]
    congr 1
    ext c
    by_cases here : c = cell
    · simp [here]
    · simp [here]
  · rw [if_neg same, Nat.add_zero]
    congr 1
    ext c
    by_cases here : c = cell
    · simp [here, free, Ne.symm same]
    · simp [update_of_ne here]

theorem pointing_clear (cell : Cell) (target other : Target)
    (here : cells cell = some target) :
    pointing (update cells cell none) other + (if other = target then 1 else 0) = pointing cells other := by
  have free : update cells cell none cell = none := update_self _ _ _
  have back : update (update cells cell none) cell (some target) = cells := by
    rw [update_idem, ← here, update_eq_self]
  rw [← pointing_set _ cell target other free, back]

end Xv6.Lib.Pointing
