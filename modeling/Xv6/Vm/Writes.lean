import Xv6.Vm.Space

/-! What writing one entry does to the tree, and how the roles of pages move with it. -/

namespace Xv6.Vm.Writes
open Lib.Ownership Memory Entry Space Option

section Structure
variable (s : Mem) (r : Nat)

def Distinct : Prop := ∀ p q x, tableAt s r p = some x → tableAt s r q = some x → p = q

variable {s r}

theorem child_setPte_other {t y : Nat} {i j : Fin 512} {pte : Nat} (different : y ≠ t ∨ j ≠ i) :
    child (s.setPte t i pte) y j = child s y j := by
  unfold child
  by_cases same : y = t
  · subst same
    rw [pte_setPte_index (different.resolve_left (fun h => h rfl))]
  · rw [pte_setPte_table same]

theorem child_setPte_same {t : Nat} {i : Fin 512} {pte : Nat} (bound : pte < 2 ^ 64) :
    child (s.setPte t i pte) t i = if Valid pte then some (PTE2PA pte) else none := by
  unfold child
  rw [pte_setPte_same bound]

theorem tableAt_setLow (distinct : Distinct s r) (i j k : Fin 512) (t pte : Nat)
    (here : tableAt s r (.low i j) = some t) (p : Path) : tableAt (s.setPte t k pte) r p = tableAt s r p := by
  have top : r ≠ t := by
    rintro rfl
    nomatch distinct .root (.low i j) r rfl here
  have mids : ∀ a y, child s r a = some y → y ≠ t := by
    rintro a y found rfl
    nomatch distinct (.mid a) (.low i j) y found here
  have upper : ∀ a, child (s.setPte t k pte) r a = child s r a := fun a =>
    child_setPte_other (Or.inl top)
  cases p with
  | root => simp only [tableAt]
  | mid a => simp only [tableAt, upper]
  | low a b =>
    simp only [tableAt, upper]
    cases found : child s r a with
    | none => simp only [bind_none]
    | some y => simp only [bind_some, child_setPte_other (Or.inl (mids a y found))]

theorem leafAt_setLow (distinct : Distinct s r) (v : Vpn) (t pte : Nat) (bound : pte < 2 ^ 64)
    (here : tableAt s r (.low v.top v.mid) = some t) (w : Vpn) :
    leafAt (s.setPte t v.low pte) r w =
      if w = v then (if Valid pte then some pte else none) else leafAt s r w := by
  unfold leafAt
  rw [tableAt_setLow distinct v.top v.mid v.low t pte here]
  by_cases same : w = v
  · subst same
    rw [here, bind_some, pte_setPte_same bound, if_pos rfl]
  · rw [if_neg same]
    cases found : tableAt s r (.low w.top w.mid) with
    | none => simp only [bind_none]
    | some y =>
      simp only [bind_some]
      by_cases table : y = t
      · subst table
        have path := distinct _ _ y found here
        simp only [Path.low.injEq] at path
        have index : w.low ≠ v.low := by
          intro low
          exact same (by cases w; cases v; simp_all)
        rw [pte_setPte_index index]
      · rw [pte_setPte_table table]

variable (s r) in
/-- Above the last level a valid entry points to a table. -/
structure Branches : Prop where
  top : ∀ i, Valid (s.pte r i) → ¬Leaf (s.pte r i)
  mid : ∀ i table, tableAt s r (.mid i) = some table → ∀ j, Valid (s.pte table j) → ¬Leaf (s.pte table j)

theorem branches_setLow (distinct : Distinct s r) (branches : Branches s r) (v : Vpn) (t pte : Nat)
    (here : tableAt s r (.low v.top v.mid) = some t) : Branches (s.setPte t v.low pte) r := by
  refine ⟨fun i => ?_, fun i table found j => ?_⟩
  · have top : r ≠ t := by
      rintro rfl
      nomatch distinct .root (.low v.top v.mid) r rfl here
    rw [pte_setPte_table top]
    exact branches.top i
  · rw [tableAt_setLow distinct v.top v.mid v.low t pte here] at found
    have mid : table ≠ t := by
      rintro rfl
      nomatch distinct (.mid i) (.low v.top v.mid) table found here
    rw [pte_setPte_table mid]
    exact branches.mid i table found j

theorem wellFormed_setLow (distinct : Distinct s r) (wf : WellFormed s r) (v : Vpn) (t pte : Nat) (bound : pte < 2 ^ 64)
    (here : tableAt s r (.low v.top v.mid) = some t) (leaf : Valid pte → Leaf pte) :
    WellFormed (s.setPte t v.low pte) r := by
  obtain ⟨top, mid⟩ := branches_setLow distinct ⟨wf.top, wf.mid⟩ v t pte here
  refine ⟨top, mid, fun w entry found => ?_⟩
  · rw [leafAt_setLow distinct v t pte bound here] at found
    by_cases same : w = v
    · rw [if_pos same] at found
      split at found
      · rename_i valid
        exact Option.some.inj found ▸ leaf valid
      · cases found
    · rw [if_neg same] at found
      exact wf.low w entry found

/-- The place below the i-th entry of a table above the last level. -/
def below : Path → Fin 512 → Path
  | .root, i => .mid i
  | .mid a, i => .low a i
  | .low a b, _ => .low a b

def Upper : Path → Prop
  | .low _ _ => False
  | _ => True

theorem tableAt_below (p : Path) (upper : Upper p) (i : Fin 512) (t : Nat) (here : tableAt s r p = some t) :
    tableAt s r (below p i) = child s t i := by
  cases p with
  | root =>
    obtain rfl := Option.some.inj here
    rfl
  | mid a =>
    simp only [tableAt] at here
    simp only [below, tableAt, here, bind_some]
  | low a b => exact upper.elim

/-- Writing an entry above the last level, where neither the table it pointed to nor the one it points to then has
valid entries. -/
structure Rewrite (s : Mem) (r : Nat) (p : Path) (i : Fin 512) (t pte : Nat) : Prop where
  distinct : Distinct s r
  upper : Upper p
  here : tableAt s r p = some t
  bound : pte < 2 ^ 64
  old : ∀ x, child s t i = some x → ∀ k, ¬Valid (s.pte x k)
  new : Valid pte → PTE2PA pte ≠ t ∧ (∀ k, ¬Valid (s.pte (PTE2PA pte) k)) ∧ ¬Leaf pte

variable {p : Path} {i : Fin 512} {t x pte : Nat}

section
variable (rewrite : Rewrite s r p i t pte)
include rewrite

theorem Rewrite.pte_other {q : Path} {y : Nat} (found : tableAt s r q = some y)
    (other : q ≠ p) (k : Fin 512) : (s.setPte t i pte).pte y k = s.pte y k :=
  pte_setPte_table fun same => other (rewrite.distinct q p y found (same ▸ rewrite.here))

theorem Rewrite.child_other {q : Path} {y : Nat} (found : tableAt s r q = some y)
    (other : q ≠ p) (k : Fin 512) : child (s.setPte t i pte) y k = child s y k := by
  unfold child
  rw [rewrite.pte_other found other k]

theorem Rewrite.bind_old {α : Type} (f : Nat → Option α)
    (empty : ∀ x, (∀ k, ¬Valid (s.pte x k)) → f x = none) : (child s t i).bind f = none := by
  cases found : child s t i with
  | none => rfl
  | some x => exact empty x (rewrite.old x found)

theorem Rewrite.bind_new {α : Type} (f : Nat → Option α)
    (empty : ∀ x, (∀ k, ¬Valid ((s.setPte t i pte).pte x k)) → f x = none) :
    (child (s.setPte t i pte) t i).bind f = none := by
  rw [child_setPte_same rewrite.bound]
  split_ifs with valid
  · obtain ⟨differs, unused, -⟩ := rewrite.new valid
    refine empty _ fun k => ?_
    rw [pte_setPte_table differs]
    exact unused k
  · rfl

theorem Rewrite.tableAt (q : Path) : Space.tableAt (s.setPte t i pte) r q =
    if q = below p i then (if Valid pte then some (PTE2PA pte) else none) else Space.tableAt s r q := by
  have written := child_setPte_same (s := s) (t := t) (i := i) rewrite.bound
  have none : ∀ (s : Mem) b x, (∀ k, ¬Valid (s.pte x k)) → child s x b = none := fun _ b _ empty => if_neg (empty b)
  cases p with
  | low a b => exact rewrite.upper.elim
  | root =>
    obtain rfl : r = t := Option.some.inj rewrite.here
    cases q with
    | root => simp [Space.tableAt, below]
    | mid a =>
      by_cases same : a = i
      · subst same
        simp only [Space.tableAt, below, if_pos, written]
      · simp only [Space.tableAt, below, Path.mid.injEq, if_neg same, child_setPte_other (Or.inr same)]
    | low a b =>
      simp only [Space.tableAt, below, reduceCtorEq, if_false]
      by_cases same : a = i
      · subst same
        rw [rewrite.bind_new _ (none _ b), rewrite.bind_old _ (none _ b)]
      · rw [child_setPte_other (Or.inr same)]
        refine bind_congr fun y found => rewrite.child_other (q := .mid a) found (by simp) b
  | mid c =>
    have top := rewrite.child_other (q := .root) rfl (by simp)
    cases q with
    | root => simp [Space.tableAt, below]
    | mid a => simp only [Space.tableAt, below, reduceCtorEq, if_false, top]
    | low a b =>
      simp only [Space.tableAt, below, Path.low.injEq, top]
      by_cases sameTop : a = c
      · subst sameTop
        have mid : child s r a = some t := rewrite.here
        simp only [mid, bind_some, true_and]
        by_cases sameMid : b = i
        · subst sameMid
          simp only [if_pos, written]
        · simp only [if_neg sameMid, child_setPte_other (Or.inr sameMid)]
      · simp only [sameTop, false_and, if_false]
        exact bind_congr fun y found => rewrite.child_other (q := .mid a) found (by simpa using sameTop) b

theorem Rewrite.leafAt (v : Vpn) : Space.leafAt (s.setPte t i pte) r v = Space.leafAt s r v := by
  unfold Space.leafAt
  by_cases changed : Path.low v.top v.mid = below p i
  · have here : Space.tableAt (s.setPte t i pte) r p = some t := by
      rw [rewrite.tableAt, if_neg (fun same => ?_), rewrite.here]
      rw [← same] at changed
      exact (changed ▸ rewrite.upper).elim
    rw [changed, tableAt_below p rewrite.upper i t rewrite.here, tableAt_below p rewrite.upper i t here]
    rw [rewrite.bind_new _ fun x empty => if_neg (empty _), rewrite.bind_old _ fun x empty => if_neg (empty _)]
  · rw [rewrite.tableAt, if_neg changed]
    refine bind_congr fun y found => ?_
    rw [rewrite.pte_other found fun same => (same ▸ rewrite.upper : Upper (.low v.top v.mid)).elim]

theorem Rewrite.branches (branches : Branches s r) : Branches (s.setPte t i pte) r := by
  -- An entry of the new tree above the last level is the new one or an old one.
  have entry : ∀ y j, (Valid (s.pte y j) → ¬Leaf (s.pte y j)) →
      Valid ((s.setPte t i pte).pte y j) → ¬Leaf ((s.setPte t i pte).pte y j) := by
    intro y j old
    by_cases table : y = t
    · subst table
      by_cases index : j = i
      · subst index
        rw [pte_setPte_same rewrite.bound]
        exact fun valid => (rewrite.new valid).2.2
      · rw [pte_setPte_index index]
        exact old
    · rw [pte_setPte_table table]
      exact old
  refine ⟨fun j => entry r j (branches.top j), fun a table found j => entry table j ?_⟩
  rw [rewrite.tableAt] at found
  split_ifs at found with new valid
  · obtain rfl := Option.some.inj found
    exact fun inside => absurd inside ((rewrite.new valid).2.1 j)
  · exact branches.mid a table found j

theorem Rewrite.wellFormed (wf : WellFormed s r) : WellFormed (s.setPte t i pte) r := by
  obtain ⟨top, mid⟩ := rewrite.branches ⟨wf.top, wf.mid⟩
  refine ⟨top, mid, fun v pte found => ?_⟩
  rw [rewrite.leafAt] at found
  exact wf.low v pte found

end

/-- Entering an empty table page below an upper table. -/
structure Link (s : Mem) (r : Nat) (p : Path) (i : Fin 512) (t x : Nat) : Prop where
  distinct : Distinct s r
  upper : Upper p
  here : tableAt s r p = some t
  invalid : ¬Valid (s.pte t i)
  fresh : ∀ q, tableAt s r q ≠ some x
  empty : ∀ k, s.pte x k = 0
  bound : x < 2 ^ 52

theorem Link.child_invalid (link : Link s r p i t x) : child s t i = none := if_neg link.invalid

theorem Link.rewrite (link : Link s r p i t x) : Rewrite s r p i t (PA2PTE x ||| PTE_V) where
  distinct := link.distinct
  upper := link.upper
  here := link.here
  bound := (reads_branch x link.bound).bound
  old y found := by
    rw [link.child_invalid] at found
    cases found
  new _ := by
    have reads := reads_branch x link.bound
    rw [reads.page, reads.leaf]
    refine ⟨fun same => link.fresh p (same ▸ link.here), fun k => ?_, by decide⟩
    rw [link.empty k]
    exact not_valid_zero

theorem Link.tableAt (link : Link s r p i t x) (q : Path) :
    Space.tableAt (s.setPte t i (PA2PTE x ||| PTE_V)) r q = if q = below p i then some x else Space.tableAt s r q := by
  have reads := reads_branch x link.bound
  rw [link.rewrite.tableAt, if_pos reads.valid, reads.page]

/-- Dropping a table page without valid entries from an upper table. -/
structure Unlink (s : Mem) (r : Nat) (p : Path) (i : Fin 512) (t c : Nat) : Prop where
  distinct : Distinct s r
  upper : Upper p
  here : tableAt s r p = some t
  child : tableAt s r (below p i) = some c
  empty : ∀ k, ¬Valid (s.pte c k)

theorem Unlink.rewrite (unlink : Unlink s r p i t x) : Rewrite s r p i t 0 where
  distinct := unlink.distinct
  upper := unlink.upper
  here := unlink.here
  bound := by decide
  old y found := by
    rw [← tableAt_below p unlink.upper i t unlink.here, unlink.child] at found
    exact Option.some.inj found ▸ unlink.empty
  new valid := absurd valid not_valid_zero

theorem Unlink.tableAt (unlink : Unlink s r p i t x) (q : Path) :
    Space.tableAt (s.setPte t i 0) r q = if q = below p i then none else Space.tableAt s r q := by
  rw [unlink.rewrite.tableAt, if_neg not_valid_zero]

end Structure

end Xv6.Vm.Writes
