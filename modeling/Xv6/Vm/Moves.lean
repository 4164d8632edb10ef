import Xv6.Vm.Writes

/-! The elementary operations on pages, each with the role that one page leaves or takes. -/

namespace Xv6.Vm.Moves
open List hiding get
open Lib.Ownership Lib.Exec Memory Entry Space Writes

theorem sameTables_setPage {s : Mem} {r x : Nat} {content : Page} (missing : ∀ p, tableAt s r p ≠ some x) :
    SameTables s (s.setPage x content) r := by
  intro p table found
  exact page_setPage_other (fun same => missing p (same ▸ found))

theorem setPte_frame {user : Vpn → Prop} {s : Mem} {hand : List Nat} {r : Nat} (p : Path) (t : Nat) (i : Fin 512) (pte : Nat) (here : tableAt s r p = some t) (y : Nat)
    (outside : ¬Owned (Owns user s (some r) hand) y) : (s.setPte t i pte).page y = s.page y :=
  page_setPage_other (ne_of_not_owned _ (.table p) t y (Owns.table r t p rfl here) outside)

theorem kalloc_none (s : Mem) (free : s.freelist = []) : kalloc s = .ok none s := by
  simp only [kalloc, bind, EStateM.bind, get, getThe, MonadStateOf.get, EStateM.get, free]
  rfl

theorem kalloc_some (s : Mem) (x : Nat) (rest : List Nat) (free : s.freelist = x :: rest) :
    kalloc s = .ok (some x) { s.setPage x (fun _ => 5) with freelist := rest } := by
  simp only [kalloc, bind, EStateM.bind, get, getThe, MonadStateOf.get, EStateM.get, free]
  rfl

variable [Layout] {user : Vpn → Prop} {s : Mem} {root : Option Nat} {hand : List Nat}

theorem local_distinct {r : Nat} (before : Local user s (some r) hand) : Distinct s r := by
  intro p q x first second
  have same := before.exclusive (.table p) (.table q) x (Owns.table r x p rfl first) (Owns.table r x q rfl second)
  simpa using same

theorem setPage_keeps (before : Local user s root hand) (role : Role) (x : Nat) (content : Page)
    (own : Owns user s root hand role x) (other : ∀ p, role ≠ .table p) :
    Local user (s.setPage x content) root hand ∧ Step user s root hand (s.setPage x content) root hand ∧
      ∀ r, root = some r → SameTables s (s.setPage x content) r := by
  have tables : ∀ r, root = some r → SameTables s (s.setPage x content) r := fun r here =>
    sameTables_setPage (before.not_table role x own other r here)
  have same : ∀ role y, Owns user (s.setPage x content) root hand role y ↔ Owns user s root hand role y :=
    owns_congr rfl tables
  have kept := Local.of_same before same (fun r here => wellFormed_congr (tables r here) (before.wf r here))
    before.nodup (fun y outside => page_setPage_other (ne_of_not_owned _ role x y own outside))
  exact ⟨kept.1, kept.2, tables⟩

structure Allocated (user : Vpn → Prop) (s : Mem) (root : Option Nat) (hand : List Nat) (x : Nat) (s' : Mem) : Prop where
  safe : Local user s' root (x :: hand)
  step : Step user s root hand s' root (x :: hand)
  tables : ∀ r, root = some r → SameTables s s' r
  others : ∀ y, y ≠ x → s'.page y = s.page y
  taken : s.freelist = x :: s'.freelist

theorem kalloc_ends (before : Local user s root hand) :
    Ends kalloc s (fun result s' =>
      (result = none ∧ s' = s ∧ s.freelist = []) ∨ ∃ x, result = some x ∧ Allocated user s root hand x s') := by
  cases free : s.freelist with
  | nil => exact ⟨none, s, kalloc_none s free, Or.inl ⟨rfl, rfl, rfl⟩⟩
  | cons x rest =>
    have own : Owns user s root hand .free x := Owns.free x (by rw [free]; exact mem_cons_self)
    have nodup : x ∉ rest ∧ rest.Nodup := by
      have all := before.nodup.1
      rw [free] at all
      exact nodup_cons.mp all
    have unheld : x ∉ hand := fun member => nomatch before.exclusive .free .hand x own (Owns.hand x member)
    have tables : ∀ r, root = some r → SameTables s { s.setPage x (fun _ => 5) with freelist := rest } r :=
      fun r here => sameTables_setPage (before.not_table .free x own (fun p same => nomatch same) r here)
    have result := before.shift .free .hand own nofun
      (fun y => by rw [owns_free, owns_free, free]; exact mem_tail nodup.1 y)
      (fun y => by rw [owns_hand, owns_hand, mem_cons])
      (fun role first second => owns_tree_congr tables role (inTree_of_ne first second))
      (fun r here => wellFormed_congr (tables r here) (before.wf r here))
      ⟨nodup.2, nodup_cons.mpr ⟨unheld, before.nodup.2⟩⟩
      (fun y outside => page_setPage_other (ne_of_not_owned _ .free x y own outside))
    exact ⟨some x, _, kalloc_some s x rest free, Or.inr ⟨x, rfl, result.1, result.2, tables,
      fun y different => page_setPage_other different, free⟩⟩

theorem Allocated.fill {x : Nat} {s' : Mem} (alloc : Allocated user s root hand x s') (content : Page) :
    Allocated user s root hand x (s'.setPage x content) := by
  obtain ⟨safe, step, tables⟩ := setPage_keeps alloc.safe .hand x content (Owns.hand x mem_cons_self)
    nofun
  refine ⟨safe, alloc.step.trans step, fun r here p table found => ?_, fun y different => ?_, alloc.taken⟩
  · rw [tables r here p table (by rw [tableAt_congr (alloc.tables r here)]; exact found),
      alloc.tables r here p table found]
  · rw [page_setPage_other different, alloc.others y different]

theorem Allocated.owns {x : Nat} {s' : Mem} (alloc : Allocated user s root hand x s') (role : Role) (y : Nat)
    (own : Owns user s root hand role y) (used : role ≠ .free) : Owns user s' root (x :: hand) role y := by
  cases role with
  | free => exact absurd rfl used
  | hand => exact Owns.hand y (mem_cons_of_mem x ((owns_hand y).mp own))
  | table p => exact (owns_tree_congr alloc.tables (.table p) trivial y).mpr own
  | leaf v => exact (owns_tree_congr alloc.tables (.leaf v) trivial y).mpr own

theorem Allocated.free {x : Nat} {s' : Mem} (alloc : Allocated user s root hand x s') :
    Owns user s root hand .free x :=
  Owns.free x (by rw [alloc.taken]; exact mem_cons_self)

structure Freed (user : Vpn → Prop) (s : Mem) (root : Option Nat) (hand : List Nat) (x : Nat) (s' : Mem) : Prop where
  safe : Local user s' root hand
  step : Step user s root (x :: hand) s' root hand
  tables : ∀ r, root = some r → SameTables s s' r
  others : ∀ y, y ≠ x → s'.page y = s.page y

theorem kfree_ends (x : Nat) (before : Local user s root (x :: hand)) :
    Ends (kfree x) s (fun _ s' => s' = s.freed x ∧ Freed user s root hand x s') := by
  have own : Owns user s root (x :: hand) .hand x := Owns.hand x mem_cons_self
  have nodup := nodup_cons.mp before.nodup.2
  have unfree : x ∉ s.freelist := fun member => nomatch before.exclusive .free .hand x (Owns.free x member) own
  have tables : ∀ r, root = some r → SameTables s (s.freed x) r :=
    fun r here => sameTables_setPage (before.not_table .hand x own (fun p same => nomatch same) r here)
  have result := before.shift .hand .free own nofun
    (fun y => by rw [owns_hand, owns_hand]; exact mem_tail nodup.1 y)
    (fun y => by rw [owns_free, owns_free]; exact mem_cons)
    (fun role first second => owns_tree_congr tables role (inTree_of_ne second first))
    (fun r here => wellFormed_congr (tables r here) (before.wf r here))
    ⟨nodup_cons.mpr ⟨unfree, before.nodup.1⟩, nodup.2⟩
    (fun y outside => page_setPage_other (ne_of_not_owned _ .hand x y own outside))
  refine ⟨(), s.freed x, ?_, rfl, result.1, result.2, tables, fun y different => page_setPage_other different⟩
  simp only [kfree, if_pos (before.ram x ⟨.hand, own⟩)]
  rfl

theorem link_of_hand {r : Nat} (before : Local user s (some r) (x :: hand)) (p : Path) (upper : Upper p) (i : Fin 512)
    (t : Nat) (here : tableAt s r p = some t) (invalid : ¬Valid (s.pte t i)) (empty : ∀ k, s.pte x k = 0) :
    Link s r p i t x where
  distinct := local_distinct before
  upper := upper
  here := here
  invalid := invalid
  fresh := before.not_table .hand x (Owns.hand x mem_cons_self) nofun r rfl
  empty := empty
  bound := lt_trans (inRam_bound x (before.ram x ⟨.hand, Owns.hand x mem_cons_self⟩)) (by decide)

section Tables
variable {r : Nat} {p : Path} {i : Fin 512} {t x : Nat}

omit [Layout] in
theorem owns_rewrite {pte : Nat} {hand' : List Nat} (rewrite : Rewrite s r p i t pte) (role : Role) (listed : role ≠ .hand)
    (other : role ≠ .table (below p i)) (y : Nat) :
    Owns user (s.setPte t i pte) (some r) hand' role y ↔ Owns user s (some r) hand role y := by
  cases role with
  | free => rw [owns_free, owns_free, freelist_setPte]
  | hand => exact absurd rfl listed
  | table q => rw [owns_table_some, owns_table_some, rewrite.tableAt, if_neg fun same => other (congrArg _ same)]
  | leaf v => rw [owns_leaf_some, owns_leaf_some, rewrite.leafAt]

theorem link_moves (before : Local user s (some r) (x :: hand)) (link : Link s r p i t x) :
    Local user (s.setPte t i (PA2PTE x ||| PTE_V)) (some r) hand ∧
      Step user s (some r) (x :: hand) (s.setPte t i (PA2PTE x ||| PTE_V)) (some r) hand := by
  have nodup := nodup_cons.mp before.nodup.2
  refine before.shift .hand (.table (below p i)) (Owns.hand x mem_cons_self) nofun (fun y => ?_) (fun y => ?_)
    (fun role => owns_rewrite link.rewrite role)
    (fun r' same => Option.some.inj same ▸ link.rewrite.wellFormed (before.wf r rfl)) ⟨before.nodup.1, nodup.2⟩
    (setPte_frame p t i _ link.here)
  · rw [owns_hand, owns_hand]
    exact mem_tail nodup.1 y
  · rw [owns_table_some, owns_table_some, link.tableAt, if_pos rfl, tableAt_below p link.upper i t link.here,
      link.child_invalid]
    simp [eq_comm]

theorem unlink_moves (before : Local user s (some r) hand) (unlink : Unlink s r p i t x) :
    Local user (s.setPte t i 0) (some r) (x :: hand) ∧
      Step user s (some r) hand (s.setPte t i 0) (some r) (x :: hand) := by
  have own : Owns user s (some r) hand (.table (below p i)) x := Owns.table r x _ rfl unlink.child
  have unheld : x ∉ hand := fun member => nomatch before.exclusive _ _ _ own (Owns.hand _ member)
  refine before.shift (.table (below p i)) .hand own nofun (fun y => ?_) (fun y => ?_)
    (fun role other listed => owns_rewrite unlink.rewrite role listed other)
    (fun r' same => Option.some.inj same ▸ unlink.rewrite.wellFormed (before.wf r rfl))
    ⟨before.nodup.1, nodup_cons.mpr ⟨unheld, before.nodup.2⟩⟩ (setPte_frame p t i 0 unlink.here)
  · rw [owns_table_some, owns_table_some, unlink.tableAt, if_pos rfl, unlink.child]
    simp [eq_comm]
  · rw [owns_hand, owns_hand, mem_cons]

omit [Layout] in
theorem owns_empty (empty : ∀ k, ¬Valid (s.pte r k)) {hand hand' : List Nat} (role : Role) (listed : role ≠ .hand)
    (other : role ≠ .table .root) (y : Nat) : Owns user s (some r) hand role y ↔ Owns user s none hand' role y := by
  cases role with
  | free => rw [owns_free, owns_free]
  | hand => exact absurd rfl listed
  | table q =>
    rw [owns_table_some, owns_table, tableAt_empty s r empty, if_neg fun same => other (congrArg _ same)]
    simp
  | leaf v =>
    rw [owns_leaf_some, owns_leaf, leafAt_empty s r empty]
    simp

theorem root_of_hand (before : Local user s none (r :: hand)) (empty : ∀ k, ¬Valid (s.pte r k)) :
    Local user s (some r) hand ∧ Step user s none (r :: hand) s (some r) hand := by
  have nodup := nodup_cons.mp before.nodup.2
  refine before.shift .hand (.table .root) (Owns.hand r mem_cons_self) nofun (fun y => ?_) (fun y => ?_)
    (owns_empty empty) (fun r' same => Option.some.inj same ▸ wellFormed_empty s r empty) ⟨before.nodup.1, nodup.2⟩
    (fun _ _ => rfl)
  · rw [owns_hand, owns_hand]
    exact mem_tail nodup.1 y
  · rw [owns_table_some, owns_table]
    simp [tableAt, eq_comm]

theorem hand_of_root (before : Local user s (some r) hand) (empty : ∀ k, ¬Valid (s.pte r k)) :
    Local user s none (r :: hand) ∧ Step user s (some r) hand s none (r :: hand) := by
  have own : Owns user s (some r) hand (.table .root) r := Owns.table r r .root rfl rfl
  have unheld : r ∉ hand := fun member => nomatch before.exclusive _ _ _ own (Owns.hand _ member)
  refine before.shift (.table .root) .hand own nofun (fun y => ?_) (fun y => ?_)
    (fun role other listed y => (owns_empty empty role listed other y).symm) nofun
    ⟨before.nodup.1, nodup_cons.mpr ⟨unheld, before.nodup.2⟩⟩ (fun _ _ => rfl)
  · rw [owns_table_some, owns_table]
    simp [tableAt, eq_comm]
  · rw [owns_hand, owns_hand, mem_cons]

end Tables

section Leaves
variable {r : Nat} {v : Vpn} {t : Nat}

section
variable (before : Local user s (some r) hand)
include before

theorem owns_setLow_leaf (here : tableAt s r (.low v.top v.mid) = some t)
    (pte : Nat) (bound : pte < 2 ^ 64) (hand' : List Nat) (w : Vpn) (y : Nat) :
    Owns user (s.setPte t v.low pte) (some r) hand' (.leaf w) y ↔
      if w = v then user v ∧ Valid pte ∧ PTE2PA pte = y else Owns user s (some r) hand (.leaf w) y := by
  rw [owns_leaf_some, owns_leaf_some, leafAt_setLow (local_distinct before) v t pte bound here]
  by_cases same : w = v
  · subst same
    by_cases valid : Valid pte <;> simp [valid]
  · simp only [if_neg same]

theorem owns_setLow_other (here : tableAt s r (.low v.top v.mid) = some t)
    (pte : Nat) (bound : pte < 2 ^ 64) (hand' : List Nat) (role : Role) (listed : role ≠ .hand) (other : role ≠ .leaf v)
    (y : Nat) : Owns user (s.setPte t v.low pte) (some r) hand' role y ↔ Owns user s (some r) hand role y := by
  cases role with
  | free => rw [owns_free, owns_free, freelist_setPte]
  | hand => exact absurd rfl listed
  | table q =>
    rw [owns_table_some, owns_table_some, tableAt_setLow (local_distinct before) v.top v.mid v.low t pte here]
  | leaf w => rw [owns_setLow_leaf before here pte bound hand' w y, if_neg fun same => other (congrArg _ same)]

omit before in
theorem map_moves {x perm : Nat} (before : Local user s (some r) (x :: hand))
    (here : tableAt s r (.low v.top v.mid) = some t) (absent : leafAt s r v = none) (inside : user v)
    (small : perm < 2 ^ 10) (leaf : Leaf perm) :
    Local user (s.setPte t v.low (PA2PTE x ||| perm ||| PTE_V)) (some r) hand ∧
      Step user s (some r) (x :: hand) (s.setPte t v.low (PA2PTE x ||| perm ||| PTE_V)) (some r) hand := by
  have own : Owns user s (some r) (x :: hand) .hand x := Owns.hand x mem_cons_self
  have nodup := nodup_cons.mp before.nodup.2
  have reads := reads_entry x perm (lt_trans (inRam_bound x (before.ram x ⟨.hand, own⟩)) (by decide)) small
  refine before.shift .hand (.leaf v) own nofun (fun y => ?_) (fun y => ?_)
    (owns_setLow_other before here _ reads.bound hand)
    (fun r' same => Option.some.inj same ▸ wellFormed_setLow (local_distinct before) (before.wf r rfl) v t _ reads.bound
      here (fun _ => reads.leaf.mpr leaf)) ⟨before.nodup.1, nodup.2⟩ (setPte_frame _ t v.low _ here)
  · rw [owns_hand, owns_hand]
    exact mem_tail nodup.1 y
  · rw [owns_setLow_leaf before here _ reads.bound hand v y, if_pos rfl, or_iff_left (not_owns_leaf r v absent y)]
    simp [inside, reads.valid, reads.page, eq_comm]

theorem setLow_keeps (here : tableAt s r (.low v.top v.mid) = some t)
    (pte : Nat) (bound : pte < 2 ^ 64) (leaf : Valid pte → Leaf pte)
    (same : user v → ∃ old, leafAt s r v = some old ∧ Valid pte ∧ PTE2PA pte = PTE2PA old) :
    Local user (s.setPte t v.low pte) (some r) hand ∧
      Step user s (some r) hand (s.setPte t v.low pte) (some r) hand := by
  refine before.of_same (fun role y => ?_) (fun r' same => Option.some.inj same ▸
    wellFormed_setLow (local_distinct before) (before.wf r rfl) v t pte bound here leaf) before.nodup
    (setPte_frame _ t v.low pte here)
  by_cases listed : role = .hand
  · rw [listed, owns_hand, owns_hand]
  by_cases other : role = .leaf v
  · rw [other, owns_setLow_leaf before here pte bound hand v y, if_pos rfl, owns_leaf_some]
    constructor
    · rintro ⟨inside, valid, page⟩
      obtain ⟨old, found, _, equal⟩ := same inside
      exact ⟨inside, old, found, equal.symm.trans page⟩
    · rintro ⟨inside, old, found, page⟩
      obtain ⟨old', found', valid, equal⟩ := same inside
      obtain rfl := Option.some.inj (found.symm.trans found')
      exact ⟨inside, valid, equal.trans page⟩
  · exact owns_setLow_other before here pte bound hand role listed other y

theorem unmap_moves {pte : Nat}
    (here : tableAt s r (.low v.top v.mid) = some t) (found : leafAt s r v = some pte) (inside : user v) :
    Local user (s.setPte t v.low 0) (some r) (PTE2PA pte :: hand) ∧
      Step user s (some r) hand (s.setPte t v.low 0) (some r) (PTE2PA pte :: hand) := by
  have own : Owns user s (some r) hand (.leaf v) (PTE2PA pte) := Owns.leaf r pte v rfl inside found
  have unheld : PTE2PA pte ∉ hand := fun member => nomatch before.exclusive _ _ _ own (Owns.hand _ member)
  refine before.shift (.leaf v) .hand own nofun (fun y => ?_) (fun y => ?_)
    (fun role other listed => owns_setLow_other before here 0 (by decide) _ role listed other)
    (fun r' same => Option.some.inj same ▸ wellFormed_setLow (local_distinct before) (before.wf r rfl) v t 0 (by decide)
      here (fun valid => absurd valid not_valid_zero))
    ⟨before.nodup.1, nodup_cons.mpr ⟨unheld, before.nodup.2⟩⟩ (setPte_frame _ t v.low 0 here)
  · rw [owns_setLow_leaf before here 0 (by decide) _ v y, if_pos rfl, owns_leaf_some, found]
    simp [not_valid_zero, eq_comm]
  · rw [owns_hand, owns_hand, mem_cons]

end

end Leaves

end Xv6.Vm.Moves
