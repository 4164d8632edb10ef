import Xv6.Vm.Entry
import Xv6.Lib.Ownership

/-! The tree that a root page spans in physical memory, and who owns the pages of it. -/

namespace Xv6.Vm.Space
open Lib.Ownership Memory Entry Option

inductive Path where
  | root
  | mid (i : Fin 512)
  | low (i j : Fin 512)
  deriving DecidableEq

structure Vpn where
  top : Fin 512
  mid : Fin 512
  low : Fin 512
  deriving DecidableEq

def vpn (va : Nat) : Vpn := ⟨PX 2 va, PX 1 va, PX 0 va⟩

def Vpn.page (v : Vpn) : Nat := (v.top.val * 512 + v.mid.val) * 512 + v.low.val

theorem page_vpn (va : Nat) (bound : va < 2 ^ 39) : (vpn va).page = va / PGSIZE := by
  simp only [vpn, Vpn.page, PX, Nat.shiftRight_eq_div_pow, PGSIZE]
  omega

theorem Vpn.page_injective (v w : Vpn) (same : v.page = w.page) : v = w := by
  obtain ⟨⟨a, ha⟩, ⟨b, hb⟩, ⟨c, hc⟩⟩ := v
  obtain ⟨⟨a', ha'⟩, ⟨b', hb'⟩, ⟨c', hc'⟩⟩ := w
  simp only [Vpn.page] at same
  simp only [Vpn.mk.injEq, Fin.mk.injEq]
  omega

theorem vpn_eq_iff (va : Nat) (bound : va < 2 ^ 39) (v : Vpn) : v = vpn va ↔ v.page = va / PGSIZE := by
  constructor
  · rintro rfl
    exact page_vpn va bound
  · intro same
    exact Vpn.page_injective v (vpn va) (same.trans (page_vpn va bound).symm)

def child (s : Mem) (table : Nat) (i : Fin 512) : Option Nat :=
  if Valid (s.pte table i) then some (PTE2PA (s.pte table i)) else none

def tableAt (s : Mem) (root : Nat) : Path → Option Nat
  | .root => some root
  | .mid i => child s root i
  | .low i j => (child s root i).bind fun table => child s table j

def leafAt (s : Mem) (root : Nat) (v : Vpn) : Option Nat :=
  (tableAt s root (.low v.top v.mid)).bind fun table =>
    if Valid (s.pte table v.low) then some (s.pte table v.low) else none

/-- Valid entries point to tables above the last level and allow an access on it. -/
structure WellFormed (s : Mem) (root : Nat) : Prop where
  top : ∀ i, Valid (s.pte root i) → ¬Leaf (s.pte root i)
  mid : ∀ i table, tableAt s root (.mid i) = some table → ∀ j, Valid (s.pte table j) → ¬Leaf (s.pte table j)
  low : ∀ v pte, leafAt s root v = some pte → Leaf pte

variable {s s' : Mem}

theorem pte_congr {table : Nat} (same : s'.page table = s.page table) (i : Fin 512) :
    s'.pte table i = s.pte table i := by
  unfold Mem.pte
  rw [same]

theorem child_congr {table : Nat} (same : s'.page table = s.page table) (i : Fin 512) :
    child s' table i = child s table i := by
  unfold child
  rw [pte_congr same i]

def SameTables (s s' : Mem) (root : Nat) : Prop := ∀ p table, tableAt s root p = some table → s'.page table = s.page table

theorem tableAt_congr {root : Nat} (same : SameTables s s' root) (p : Path) : tableAt s' root p = tableAt s root p := by
  have here : s'.page root = s.page root := same .root root rfl
  cases p with
  | root => simp only [tableAt]
  | mid i => simp only [tableAt, child_congr here]
  | low i j =>
    simp only [tableAt, child_congr here]
    cases found : child s root i with
    | none => simp only [bind_none]
    | some table => simp only [bind_some, child_congr (same (.mid i) table found)]

theorem leafAt_congr {root : Nat} (same : SameTables s s' root) (v : Vpn) : leafAt s' root v = leafAt s root v := by
  unfold leafAt
  rw [tableAt_congr same]
  cases found : tableAt s root (.low v.top v.mid) with
  | none => simp only [bind_none]
  | some table => simp only [bind_some, pte_congr (same _ table found)]

theorem wellFormed_congr {root : Nat} (same : SameTables s s' root) (wf : WellFormed s root) : WellFormed s' root := by
  refine ⟨fun i => ?_, fun i table found j => ?_, fun v pte found => ?_⟩
  · rw [pte_congr (same .root root rfl)]
    exact wf.top i
  · rw [tableAt_congr same] at found
    rw [pte_congr (same _ table found)]
    exact wf.mid i table found j
  · rw [leafAt_congr same] at found
    exact wf.low v pte found

theorem tableAt_empty (s : Mem) (r : Nat) (empty : ∀ k, ¬Valid (s.pte r k)) (p : Path) :
    tableAt s r p = if p = .root then some r else none := by
  cases p <;> simp [tableAt, child, empty]

theorem leafAt_empty (s : Mem) (r : Nat) (empty : ∀ k, ¬Valid (s.pte r k)) (v : Vpn) : leafAt s r v = none := by
  simp [leafAt, tableAt_empty s r empty]

theorem wellFormed_empty (s : Mem) (r : Nat) (empty : ∀ k, ¬Valid (s.pte r k)) : WellFormed s r := by
  refine ⟨fun i valid => absurd valid (empty i), fun i table found => ?_, fun v pte found => ?_⟩
  · rw [tableAt_empty s r empty] at found
    cases found
  · rw [leafAt_empty s r empty] at found
    cases found

/-- The roles of a page as one operation sees them: on the free list, held by the operation, a table
or a user page of the tree it works on. -/
inductive Role where
  | free
  | hand
  | table (p : Path)
  | leaf (v : Vpn)
  deriving DecidableEq

section
variable (user : Vpn → Prop)

inductive Owns (s : Mem) (root : Option Nat) (hand : List Nat) : Role → Nat → Prop where
  | free (x : Nat) (member : x ∈ s.freelist) : Owns s root hand .free x
  | hand (x : Nat) (member : x ∈ hand) : Owns s root hand .hand x
  | table (r x : Nat) (p : Path) (here : root = some r) (found : tableAt s r p = some x) :
      Owns s root hand (.table p) x
  | leaf (r pte : Nat) (v : Vpn) (here : root = some r) (inside : user v) (found : leafAt s r v = some pte) :
      Owns s root hand (.leaf v) (PTE2PA pte)

variable {user} {s : Mem} {root : Option Nat} {hand : List Nat}

@[simp] theorem owns_free (x : Nat) : Owns user s root hand .free x ↔ x ∈ s.freelist := by
  constructor
  · intro own
    cases own with
    | free _ member => exact member
  · exact Owns.free x

@[simp] theorem owns_hand (x : Nat) : Owns user s root hand .hand x ↔ x ∈ hand := by
  constructor
  · intro own
    cases own with
    | hand _ member => exact member
  · exact Owns.hand x

theorem owns_table (p : Path) (x : Nat) :
    Owns user s root hand (.table p) x ↔ ∃ r, root = some r ∧ tableAt s r p = some x := by
  constructor
  · intro own
    cases own with
    | table r _ _ here found => exact ⟨r, here, found⟩
  · rintro ⟨r, here, found⟩
    exact Owns.table r x p here found

theorem owns_leaf (v : Vpn) (x : Nat) :
    Owns user s root hand (.leaf v) x ↔ ∃ r pte, root = some r ∧ user v ∧ leafAt s r v = some pte ∧ PTE2PA pte = x := by
  constructor
  · intro own
    cases own with
    | leaf r pte _ here inside found => exact ⟨r, pte, here, inside, found, rfl⟩
  · rintro ⟨r, pte, here, inside, found, rfl⟩
    exact Owns.leaf r pte v here inside found

theorem owns_table_some (r : Nat) (p : Path) (x : Nat) :
    Owns user s (some r) hand (.table p) x ↔ tableAt s r p = some x := by
  simp only [owns_table, Option.some.injEq, exists_eq_left']

theorem owns_leaf_some (r : Nat) (v : Vpn) (x : Nat) :
    Owns user s (some r) hand (.leaf v) x ↔ user v ∧ ∃ pte, leafAt s r v = some pte ∧ PTE2PA pte = x := by
  rw [owns_leaf]
  constructor
  · rintro ⟨r', pte, same, inside, found⟩
    obtain rfl := Option.some.inj same
    exact ⟨inside, pte, found⟩
  · rintro ⟨inside, pte, found⟩
    exact ⟨r, pte, rfl, inside, found⟩

theorem not_owns_leaf (r : Nat) (v : Vpn) (absent : leafAt s r v = none) (x : Nat) :
    ¬Owns user s (some r) hand (.leaf v) x := by
  rw [owns_leaf_some]
  rintro ⟨_, pte, found, _⟩
  rw [absent] at found
  cases found

variable (user)

/-- What every operation on the tree may rely on and must re-establish. -/
structure Local [Layout] (s : Mem) (root : Option Nat) (hand : List Nat) : Prop where
  wf : ∀ r, root = some r → WellFormed s r
  exclusive : Exclusive (Owns user s root hand)
  nodup : s.freelist.Nodup ∧ hand.Nodup
  ram : ∀ x, Owned (Owns user s root hand) x → InRam x

/-- The operation keeps the pages it works on together and leaves every other page alone. -/
structure Step (s : Mem) (root : Option Nat) (hand : List Nat) (s' : Mem) (root' : Option Nat) (hand' : List Nat) :
    Prop where
  owned : ∀ x, Owned (Owns user s' root' hand') x ↔ Owned (Owns user s root hand) x
  frame : ∀ x, ¬Owned (Owns user s root hand) x → s'.page x = s.page x

variable {user}

theorem Step.refl (s : Mem) (root : Option Nat) (hand : List Nat) : Step user s root hand s root hand :=
  ⟨fun _ => Iff.rfl, fun _ _ => rfl⟩

theorem Step.trans {s s' s'' : Mem} {root root' root'' : Option Nat} {hand hand' hand'' : List Nat}
    (first : Step user s root hand s' root' hand') (second : Step user s' root' hand' s'' root'' hand'') :
    Step user s root hand s'' root'' hand'' := by
  refine ⟨fun x => (second.owned x).trans (first.owned x), fun x outside => ?_⟩
  rw [second.frame x (fun inside => outside ((first.owned x).mp inside)), first.frame x outside]

/-- A role in the tree, as opposed to one on a list. -/
def InTree : Role → Prop
  | .table _ | .leaf _ => True
  | _ => False

theorem inTree_of_ne {role : Role} (free : role ≠ .free) (hand : role ≠ .hand) : InTree role := by
  cases role with
  | free => exact absurd rfl free
  | hand => exact absurd rfl hand
  | _ => trivial

variable {hand' : List Nat} {s' : Mem}

theorem owns_tree_congr (tables : ∀ r, root = some r → SameTables s s' r)
    (role : Role) (tree : InTree role) (x : Nat) :
    Owns user s' root hand' role x ↔ Owns user s root hand role x := by
  cases role with
  | free | hand => exact tree.elim
  | table p =>
    rw [owns_table, owns_table]
    refine exists_congr fun r => and_congr_right fun here => ?_
    rw [tableAt_congr (tables r here)]
  | leaf v =>
    rw [owns_leaf, owns_leaf]
    refine exists_congr fun r => exists_congr fun pte => and_congr_right fun here => ?_
    rw [leafAt_congr (tables r here)]

theorem owns_congr (free : s'.freelist = s.freelist) (tables : ∀ r, root = some r → SameTables s s' r)
    (role : Role) (x : Nat) : Owns user s' root hand role x ↔ Owns user s root hand role x := by
  cases role with
  | free => rw [owns_free, owns_free, free]
  | hand => rw [owns_hand, owns_hand]
  | table p => exact owns_tree_congr tables (.table p) trivial x
  | leaf v => exact owns_tree_congr tables (.leaf v) trivial x

theorem mem_tail {x : Nat} {l : List Nat} (fresh : x ∉ l) (y : Nat) : y ∈ l ↔ y ∈ x :: l ∧ y ≠ x := by
  constructor
  · exact fun member => ⟨List.mem_cons_of_mem x member, fun same => fresh (same ▸ member)⟩
  · exact fun both => (List.mem_cons.mp both.1).resolve_left both.2

variable [Layout]

theorem Local.of_same {root' : Option Nat} (before : Local user s root hand)
    (same : ∀ role x, Owns user s' root' hand' role x ↔ Owns user s root hand role x)
    (wf : ∀ r, root' = some r → WellFormed s' r) (nodup : s'.freelist.Nodup ∧ hand'.Nodup)
    (frame : ∀ y, ¬Owned (Owns user s root hand) y → s'.page y = s.page y) :
    Local user s' root' hand' ∧ Step user s root hand s' root' hand' := by
  have owned : ∀ x, Owned (Owns user s' root' hand') x ↔ Owned (Owns user s root hand) x :=
    fun x => exists_congr fun role => same role x
  refine ⟨⟨wf, ?_, nodup, fun y own => before.ram y ((owned y).mp own)⟩, ⟨owned, frame⟩⟩
  intro first second x ownsFirst ownsSecond
  exact before.exclusive first second x ((same first x).mp ownsFirst) ((same second x).mp ownsSecond)

theorem Local.perm (before : Local user s root hand) (perm : hand.Perm hand') :
    Local user s root hand' ∧ Step user s root hand s root hand' := by
  refine before.of_same (fun role x => ?_) before.wf ⟨before.nodup.1, perm.nodup_iff.mp before.nodup.2⟩ (fun _ _ => rfl)
  cases role with
  | free => rw [owns_free, owns_free]
  | hand => rw [owns_hand, owns_hand, perm.mem_iff]
  | table p => rw [owns_table, owns_table]
  | leaf v => rw [owns_leaf, owns_leaf]

theorem Local.not_table (before : Local user s root hand) (role : Role) (x : Nat) (own : Owns user s root hand role x)
    (other : ∀ p, role ≠ .table p) (r : Nat) (here : root = some r) (p : Path) : tableAt s r p ≠ some x := by
  intro found
  exact other p (before.exclusive role (.table p) x own (Owns.table r x p here found))

theorem Local.shift {root' : Option Nat} (before : Local user s root hand) {x : Nat}
    (source target : Role) (own : Owns user s root hand source x) (different : source ≠ target)
    (left : ∀ y, Owns user s' root' hand' source y ↔ Owns user s root hand source y ∧ y ≠ x)
    (took : ∀ y, Owns user s' root' hand' target y ↔ y = x ∨ Owns user s root hand target y)
    (others : ∀ role, role ≠ source → role ≠ target → ∀ y, Owns user s' root' hand' role y ↔ Owns user s root hand role y)
    (wf : ∀ r, root' = some r → WellFormed s' r) (nodup : s'.freelist.Nodup ∧ hand'.Nodup)
    (frame : ∀ y, ¬Owned (Owns user s root hand) y → s'.page y = s.page y) :
    Local user s' root' hand' ∧ Step user s root hand s' root' hand' := by
  have moves := before.exclusive.moves own different left took others
  have owned := moves.owned _ _ x target ⟨source, own⟩
  exact ⟨⟨wf, moves.exclusive _ _ x target before.exclusive, nodup, fun y own => before.ram y ((owned y).mp own)⟩,
    ⟨owned, frame⟩⟩

end

end Xv6.Vm.Space
