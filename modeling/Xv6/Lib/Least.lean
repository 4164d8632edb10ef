import Mathlib

/-! A scan of a list for the first element with the least key. -/

namespace Xv6.Lib.Least

open List

variable {α : Type*} [LinearOrder α] {eligible : α → Prop} [DecidablePred eligible] {key : α → Int} {bound : Int} {l : List α}

def visit (eligible : α → Prop) [DecidablePred eligible] (key : α → Int) (best : Option α × Int) (a : α) : Option α × Int :=
  if eligible a ∧ key a < best.2 then (some a, key a) else best

/-- Only keys below the bound count. -/
def scan (eligible : α → Prop) [DecidablePred eligible] (key : α → Int) (bound : Int) (l : List α) : Option α × Int :=
  l.foldl (visit eligible key) (none, bound)

/-- Nobody in the list has a smaller key, and nobody before has the same one. -/
structure First (eligible : α → Prop) (key : α → Int) (bound : Int) (l : List α) (a : α) : Prop where
  member : a ∈ l
  ready : eligible a
  small : key a < bound
  least : ∀ b ∈ l, eligible b → key a ≤ key b
  first : ∀ b ∈ l, b < a → eligible b → key a < key b

omit [DecidablePred eligible] in
theorem First.unique {a b : α} (one : First eligible key bound l a) (other : First eligible key bound l b) : a = b := by
  rcases lt_trichotomy a b with before | same | after
  · exact absurd (other.first a one.member before one.ready) (not_lt.mpr (one.least b other.member other.ready))
  · exact same
  · exact absurd (one.first b other.member after other.ready) (not_lt.mpr (other.least a one.member one.ready))

structure Scanned (eligible : α → Prop) (key : α → Int) (bound : Int) (l : List α) (best : Option α × Int) : Prop where
  nobody : best.1 = none → best.2 = bound
  somebody : ∀ a, best.1 = some a → First eligible key bound l a ∧ best.2 = key a
  least : ∀ b ∈ l, eligible b → best.2 ≤ key b

theorem scanned_visit {best : Option α × Int} {a : α} (before : Scanned eligible key bound l best) (last : ∀ b ∈ l, b < a) :
    Scanned eligible key bound (l ++ [a]) (visit eligible key best a) := by
  have bounded : best.2 ≤ bound := by
    cases found : best.1 with
    | none => exact (before.nobody found).le
    | some b =>
      obtain ⟨first, same⟩ := before.somebody b found
      exact same ▸ first.small.le
  rw [visit]
  split_ifs with better
  · obtain ⟨ready, smaller⟩ := better
    refine ⟨nofun, fun b same => ?_, fun b member ready' => ?_⟩
    · obtain rfl := Option.some.inj same
      refine ⟨⟨by simp, ready, smaller.trans_le bounded, fun c member ready' => ?_, fun c member less ready' => ?_⟩, rfl⟩
      · rcases mem_append.mp member with old | new
        · exact smaller.le.trans (before.least c old ready')
        · rw [mem_singleton.mp new]
      · rcases mem_append.mp member with old | new
        · exact smaller.trans_le (before.least c old ready')
        · exact absurd less (mem_singleton.mp new ▸ lt_irrefl _)
    · rcases mem_append.mp member with old | new
      · exact smaller.le.trans (before.least b old ready')
      · rw [mem_singleton.mp new]
  · have larger : eligible a → best.2 ≤ key a := fun ready => not_lt.mp fun smaller => better ⟨ready, smaller⟩
    refine ⟨before.nobody, fun b same => ?_, fun b member ready => ?_⟩
    · obtain ⟨first, value⟩ := before.somebody b same
      refine ⟨⟨mem_append_left _ first.member, first.ready, first.small, fun c member ready => ?_,
        fun c member less ready => ?_⟩, value⟩
      · rcases mem_append.mp member with old | new
        · exact first.least c old ready
        · rw [mem_singleton.mp new] at ready ⊢
          exact value ▸ larger ready
      · rcases mem_append.mp member with old | new
        · exact first.first c old less ready
        · rw [mem_singleton.mp new] at less
          exact absurd (last b first.member) (lt_asymm less)
    · rcases mem_append.mp member with old | new
      · exact before.least b old ready
      · rw [mem_singleton.mp new] at ready ⊢
        exact larger ready

theorem scanned_scan (sorted : l.Pairwise (· < ·)) : Scanned eligible key bound l (scan eligible key bound l) := by
  induction l using List.reverseRecOn with
  | nil => exact ⟨fun _ => rfl, nofun, nofun⟩
  | append_singleton l a ih =>
    obtain ⟨front, -, last⟩ := pairwise_append.mp sorted
    rw [scan, foldl_append]
    exact scanned_visit (ih front) fun b member => last b member a (mem_singleton.mpr rfl)

theorem scan_some (sorted : l.Pairwise (· < ·)) {b : α} (member : b ∈ l) (ready : eligible b) (small : key b < bound) :
    ∃ a, (scan eligible key bound l).1 = some a := by
  have scanned : Scanned eligible key bound l (scan eligible key bound l) := scanned_scan sorted
  cases found : (scan eligible key bound l).1 with
  | none =>
    have low := scanned.least b member ready
    rw [scanned.nobody found] at low
    exact absurd small (not_lt.mpr low)
  | some a => exact ⟨a, rfl⟩

/-- The scan ends with the first element of least key, if its key is below the bound. -/
theorem scan_eq_some_iff (sorted : l.Pairwise (· < ·)) (a : α) :
    (scan eligible key bound l).1 = some a ↔ First eligible key bound l a := by
  have scanned : Scanned eligible key bound l (scan eligible key bound l) := scanned_scan sorted
  refine ⟨fun found => (scanned.somebody a found).1, fun first => ?_⟩
  obtain ⟨b, found⟩ := scan_some sorted first.member first.ready first.small
  rw [found, (scanned.somebody b found).1.unique first]

theorem exists_first (sorted : l.Pairwise (· < ·)) {b : α} (member : b ∈ l) (ready : eligible b) (small : key b < bound) :
    ∃ a, First eligible key bound l a := by
  obtain ⟨a, found⟩ := scan_some sorted member ready small
  exact ⟨a, (scan_eq_some_iff sorted a).mp found⟩

end Xv6.Lib.Least
