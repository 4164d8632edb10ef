import Xv6.Vm.Alloc

/-! Giving whole address spaces back: freewalk, uvmfree and proc_freepagetable; and making new ones. -/

namespace Xv6.Vm.Free
open Lib.Ownership Lib.Exec Memory Pagetable Entry Space Writes Moves Walk Unmap Alloc

def Under : Path → Path → Prop
  | .root, q => q ≠ .root
  | .mid a, .low b _ => a = b
  | _, _ => False

theorem under_below (p : Path) (upper : Upper p) (i : Fin 512) : Under p (below p i) := by
  cases p with
  | root => exact fun same => nomatch same
  | mid a => rfl
  | low a b => exact upper.elim

theorem under_trans (p : Path) (upper : Upper p) (i : Fin 512) (q : Path) (under : Under (below p i) q) : Under p q := by
  cases p with
  | root =>
    rintro rfl
    exact under
  | mid a => cases q <;> exact under.elim
  | low a b => exact upper.elim

theorem not_under_refl (p : Path) : ¬Under p p := by
  cases p <;> simp [Under]

theorem not_under_parent (p : Path) (upper : Upper p) (i : Fin 512) : ¬Under (below p i) p := by
  cases p with
  | root | mid a => exact id
  | low a b => exact upper.elim

theorem not_under_sibling (p : Path) (upper : Upper p) (i j : Fin 512) (different : j ≠ i) :
    ¬Under (below p i) (below p j) ∧ below p j ≠ below p i := by
  cases p with
  | root | mid a => exact ⟨id, fun same => different (by simpa [below] using same)⟩
  | low a b => exact upper.elim

theorem freewalkEntry_invalid (recurse : Nat → VM Unit) (s : Mem) (t : Nat) (i : Fin 512) (invalid : ¬Valid (s.pte t i)) :
    freewalkEntry recurse t i s = .ok () s := by
  rw [freewalkEntry, bind_ok (getPte_run s t i), if_neg (fun both => invalid both.1), if_neg invalid]
  rfl

theorem freewalkEntry_table (recurse : Nat → VM Unit) (s s' : Mem) (t : Nat) (i : Fin 512) (valid : Valid (s.pte t i))
    (table : ¬Leaf (s.pte t i)) (ran : recurse (PTE2PA (s.pte t i)) s = .ok () s') :
    freewalkEntry recurse t i s = .ok () (s'.setPte t i 0) := by
  rw [freewalkEntry, bind_ok (getPte_run s t i), if_pos ⟨valid, table⟩, bind_ok ran]
  rfl

variable [Layout] {user : Vpn → Prop} {s : Mem} {r : Nat} {hand : List Nat}

/-- Everything below the table t at p has gone back to the free list, and t has no valid entry. -/
structure Cleared (user : Vpn → Prop) (s : Mem) (r : Nat) (hand : List Nat) (p : Path) (t : Nat) (s' : Mem) : Prop where
  safe : Local user s' (some r) hand
  step : Step user s (some r) hand s' (some r) hand
  leaves : ∀ v, leafAt s' r v = none
  tables : ∀ q, ¬Under p q → tableAt s' r q = tableAt s r q
  empty : ∀ k, ¬Valid (s'.pte t k)
  data : ∀ x ∈ hand, s'.page x = s.page x

/-- The table at p and everything below it has gone back to the free list. -/
structure Pruned (user : Vpn → Prop) (s : Mem) (r : Nat) (hand : List Nat) (p : Path) (s' : Mem) : Prop where
  safe : Local user s' (some r) hand
  step : Step user s (some r) hand s' (some r) hand
  leaves : ∀ v, leafAt s' r v = none
  tables : ∀ q, q ≠ p → ¬Under p q → tableAt s' r q = tableAt s r q
  gone : tableAt s' r p = none
  data : ∀ x ∈ hand, s'.page x = s.page x

/-- What freewalk does at p: it clears the table and frees it, with the entry that leads to it still set. -/
def Frees (user : Vpn → Prop) (r : Nat) (hand : List Nat) (levels : Nat) (p : Path) : Prop :=
  ∀ s t, Local user s (some r) hand → (∀ v, leafAt s r v = none) → tableAt s r p = some t →
    ∃ s', freewalk levels t s = .ok () (s'.freed t) ∧ Cleared user s r hand p t s'

theorem frees_of_loop (before : Local user s (some r) hand) (levels : Nat) (p : Path) (t : Nat)
    (here : tableAt s r p = some t)
    (loop : Ends (forM (List.finRange 512) (freewalkEntry (freewalk levels) t)) s
      (fun _ s' => Cleared user s r hand p t s')) :
    ∃ s', freewalk (levels + 1) t s = .ok () (s'.freed t) ∧ Cleared user s r hand p t s' := by
  obtain ⟨_, s', ran, cleared⟩ := loop
  refine ⟨s', ?_, cleared⟩
  rw [freewalk, bind_ok ran]
  simp only [kfree, if_pos (before.ram t ⟨_, Owns.table r t p rfl here⟩)]
  rfl

theorem frees_low (levels : Nat) (a b : Fin 512) : Frees user r hand (levels + 1) (.low a b) := by
  intro s t before bare here
  have empty : ∀ k, ¬Valid (s.pte t k) := by
    intro k valid
    have leaf := bare ⟨a, b, k⟩
    unfold leafAt at leaf
    rw [here, Option.bind_some, if_pos valid] at leaf
    cases leaf
  refine frees_of_loop before levels _ t here ?_
  have loop := Ends.forM (freewalkEntry (freewalk levels) t) (List.finRange 512) (fun _ s' => s' = s) s rfl ?_
  · apply Ends.weaken loop
    rintro _ s' rfl
    exact ⟨before, Step.refl _ _ _, bare, fun _ _ => rfl, empty, fun _ _ => rfl⟩
  · rintro i rest s' rfl
    exact ⟨(), s', freewalkEntry_invalid _ s' t i (empty i), rfl⟩

theorem freewalkEntry_ends (levels : Nat) (p : Path) (upper : Upper p) (i : Fin 512) (t : Nat)
    (sub : Frees user r hand levels (below p i)) (before : Local user s (some r) hand)
    (bare : ∀ v, leafAt s r v = none) (here : tableAt s r p = some t) (table : Valid (s.pte t i) → ¬Leaf (s.pte t i)) :
    Ends (freewalkEntry (freewalk levels) t i) s (fun _ s' => Pruned user s r hand (below p i) s') := by
  have link := tableAt_below (s := s) p upper i t here
  by_cases valid : Valid (s.pte t i)
  · have child : tableAt s r (below p i) = some (PTE2PA (s.pte t i)) := by
      rw [link]
      unfold Space.child
      rw [if_pos valid]
    obtain ⟨s₁, ran, cleared⟩ := sub s _ before bare child
    have here₁ : tableAt s₁ r p = some t := (cleared.tables p (not_under_parent p upper i)).trans here
    have child₁ : tableAt s₁ r (below p i) = some (PTE2PA (s.pte t i)) := by
      rw [cleared.tables _ (not_under_refl _), child]
    have unlink : Unlink s₁ r p i t (PTE2PA (s.pte t i)) :=
      ⟨local_distinct cleared.safe, upper, here₁, child₁, cleared.empty⟩
    have apart : t ≠ PTE2PA (s.pte t i) := by
      intro same
      have path := local_distinct cleared.safe p (below p i) t here₁ (same ▸ child₁)
      cases p with
      | root | mid a => nomatch path
      | low a b => exact upper.elim
    obtain ⟨safe, step⟩ := unlink_moves cleared.safe unlink
    obtain ⟨_, s₂, _, rfl, freed⟩ := kfree_ends _ safe
    refine ⟨(), _, freewalkEntry_table _ s _ t i valid (table valid) ran, ?_⟩
    rw [freed_setPte s₁ _ t i 0 apart]
    refine ⟨freed.safe, (cleared.step.trans step).trans freed.step, fun v => ?_, fun q other apart' => ?_, ?_,
      fun x held => ?_⟩
    · rw [leafAt_congr (freed.tables r rfl), unlink.rewrite.leafAt, cleared.leaves]
    · rw [tableAt_congr (freed.tables r rfl), unlink.tableAt, if_neg other, cleared.tables q apart']
    · rw [tableAt_congr (freed.tables r rfl), unlink.tableAt, if_pos rfl]
    · have own : Owns user s₁ (some r) hand .hand x := Owns.hand x held
      have notChild := cleared.safe.exclusive.ne own (Owns.table r _ _ rfl child₁) nofun
      have notTable := cleared.safe.exclusive.ne own (Owns.table r _ _ rfl here₁) nofun
      rw [freed.others x notChild, ← cleared.data x held]
      exact page_setPage_other notTable
  · refine ⟨(), s, freewalkEntry_invalid _ s t i valid, before, Step.refl _ _ _, bare, fun _ _ _ => rfl, ?_,
      fun _ _ => rfl⟩
    rw [link]
    unfold Space.child
    rw [if_neg valid]

theorem frees_upper (levels : Nat) (p : Path) (upper : Upper p) (sub : ∀ i, Frees user r hand levels (below p i)) :
    Frees user r hand (levels + 1) p := by
  intro s t before bare here
  refine frees_of_loop before levels p t here ?_
  -- What is left of the loop is what may still be valid.
  have loop := Ends.forM (freewalkEntry (freewalk levels) t) (List.finRange 512)
    (fun rest s' => Local user s' (some r) hand ∧ Step user s (some r) hand s' (some r) hand ∧
      (∀ v, leafAt s' r v = none) ∧ (∀ q, ¬Under p q → tableAt s' r q = tableAt s r q) ∧
      (∀ j, j ∉ rest → tableAt s' r (below p j) = none) ∧ ∀ x ∈ hand, s'.page x = s.page x) s
    ⟨before, Step.refl _ _ _, bare, fun _ _ => rfl, fun j absent => absurd (List.mem_finRange j) absent, fun _ _ => rfl⟩ ?_
  · apply Ends.weaken loop
    rintro _ s' ⟨safe, step, leaves, tables, gone, data⟩
    refine ⟨safe, step, leaves, tables, fun k valid => ?_, data⟩
    have absent := gone k List.not_mem_nil
    rw [tableAt_below p upper k t ((tables p (not_under_refl p)).trans here)] at absent
    unfold Space.child at absent
    rw [if_pos valid] at absent
    cases absent
  · rintro i rest s' ⟨safe, step, leaves, tables, gone, data⟩
    have here' := (tables p (not_under_refl p)).trans here
    have table : Valid (s'.pte t i) → ¬Leaf (s'.pte t i) := by
      cases p with
      | root =>
        obtain rfl := Option.some.inj here'
        exact (safe.wf _ rfl).top i
      | mid a => exact (safe.wf r rfl).mid a t here' i
      | low a b => exact upper.elim
    apply Ends.weaken (freewalkEntry_ends levels p upper i t (sub i) safe leaves here' table)
    intro _ s'' pruned
    refine ⟨pruned.safe, step.trans pruned.step, pruned.leaves, fun q apart => ?_, fun j absent => ?_, fun x held => ?_⟩
    · rw [pruned.tables q (fun same => apart (same ▸ under_below p upper i))
        (fun under => apart (under_trans p upper i q under)), tables q apart]
    · by_cases same : j = i
      · rw [same, pruned.gone]
      · obtain ⟨apart, other⟩ := not_under_sibling p upper i j same
        rw [pruned.tables _ other apart, gone j (by simp [same, absent])]
    · rw [pruned.data x held, data x held]

theorem freewalk_ends (before : Local user s (some r) hand) (bare : ∀ v, leafAt s r v = none) :
    Ends (freewalk 3 r) s (fun _ s' =>
      Local user s' none hand ∧ Step user s (some r) hand s' none hand ∧ ∀ x ∈ hand, s'.page x = s.page x) := by
  have frees : Frees user r hand 3 .root :=
    frees_upper 2 .root trivial fun a => frees_upper 1 (.mid a) trivial fun b => frees_low 0 a b
  obtain ⟨s₁, ran, cleared⟩ := frees s r before bare rfl
  obtain ⟨safe, step⟩ := hand_of_root cleared.safe cleared.empty
  obtain ⟨_, s₂, _, rfl, freed⟩ := kfree_ends r safe
  refine ⟨(), _, ran, freed.safe, (cleared.step.trans step).trans freed.step, fun x held => ?_⟩
  have own : Owns user s₁ (some r) hand .hand x := Owns.hand x held
  have notRoot := cleared.safe.exclusive.ne own (Owns.table r r .root rfl rfl) nofun
  rw [freed.others x notRoot, cleared.data x held]

end Xv6.Vm.Free
