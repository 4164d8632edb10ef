import Xv6.Vm.Walk

/-! uvmunmap: the pages of a range leave the tree, freed or handed back. -/

namespace Xv6.Vm.Unmap
open Lib.Ownership Lib.Exec Memory Pagetable Entry Space Writes Moves Walk

theorem page_of_vpn (m : Nat) (bound : m < 2 ^ 27) : (vpn (m * PGSIZE)).page = m := by
  rw [page_vpn (m * PGSIZE) (by unfold PGSIZE; omega)]
  exact Nat.mul_div_cancel m (by decide)

theorem vpn_eq_range (m : Nat) (bound : m < 2 ^ 27) (w : Vpn) : w = vpn (m * PGSIZE) ↔ m ≤ w.page ∧ w.page < m + 1 := by
  rw [vpn_eq_iff (m * PGSIZE) (by unfold PGSIZE; omega) w, Nat.mul_div_cancel m (by decide)]
  omega

theorem flags_of_leaf (pte : Nat) (leaf : Leaf pte) : PTE_FLAGS pte ≠ PTE_V := by
  intro same
  rw [leaf_low, ← flags_eq, same] at leaf
  exact absurd leaf (by decide)

theorem freed_setPte (s : Mem) (x t : Nat) (i : Fin 512) (pte : Nat) (apart : t ≠ x) :
    (s.freed x).setPte t i pte = (s.setPte t i pte).freed x := by
  unfold Mem.freed Mem.setPte Mem.setPage
  simp only [Mem.mk.injEq, and_true, Function.update_of_ne apart]
  exact Function.update_comm apart.symm _ _ _

theorem leafAt_table {s : Mem} {r : Nat} {v : Vpn} {pte : Nat} (found : leafAt s r v = some pte) :
    ∃ t, tableAt s r (.low v.top v.mid) = some t ∧ Valid (s.pte t v.low) ∧ s.pte t v.low = pte := by
  unfold leafAt at found
  obtain ⟨t, here, entry⟩ := Option.bind_eq_some_iff.mp found
  split at entry
  · rename_i valid
    exact ⟨t, here, valid, Option.some.inj entry⟩
  · cases entry

theorem leafAt_valid (s : Mem) (r : Nat) (v : Vpn) (pte : Nat) (found : leafAt s r v = some pte) : Valid pte := by
  obtain ⟨t, _, valid, rfl⟩ := leafAt_table found
  exact valid

variable [Layout]

variable {user : Vpn → Prop} {s : Mem} {r : Nat} {hand : List Nat}

/-- The pages from lo up to hi are no longer in the tree. -/
structure Unmapped (user : Vpn → Prop) (s : Mem) (r : Nat) (hand : List Nat) (lo hi : Nat) (s' : Mem) : Prop where
  safe : Local user s' (some r) hand
  step : Step user s (some r) hand s' (some r) hand
  leaves : ∀ w, leafAt s' r w = if lo ≤ w.page ∧ w.page < hi then none else leafAt s r w
  tables : ∀ p x, tableAt s r p = some x → tableAt s' r p = some x
  data : ∀ role x, Owns user s (some r) hand role x → role ≠ .free → (∀ p, role ≠ .table p) →
    (∀ w, role = .leaf w → ¬(lo ≤ w.page ∧ w.page < hi)) → s'.page x = s.page x

theorem Unmapped.refl (before : Local user s (some r) hand) (lo hi : Nat) (empty : hi ≤ lo) :
    Unmapped user s r hand lo hi s where
  safe := before
  step := Step.refl s (some r) hand
  leaves w := by rw [if_neg (by omega)]
  tables _ _ found := found
  data _ _ _ _ _ _ := rfl

theorem Unmapped.trans {s' s'' : Mem} {lo mid hi : Nat} (first : Unmapped user s r hand lo mid s')
    (second : Unmapped user s' r hand mid hi s'') (lower : lo ≤ mid) (upper : mid ≤ hi) :
    Unmapped user s r hand lo hi s'' where
  safe := second.safe
  step := first.step.trans second.step
  leaves w := by
    rw [second.leaves w, first.leaves w]
    split_ifs <;> first | rfl | omega
  tables p x found := second.tables p x (first.tables p x found)
  data role x own used other outside := by
    have own' : Owns user s' (some r) hand role x := by
      cases role with
      | free => exact absurd rfl used
      | hand => simpa using own
      | table p => exact absurd rfl (other p)
      | leaf w =>
        rw [owns_leaf_some, first.leaves w, if_neg (fun inside => outside w rfl ⟨inside.1, by omega⟩)]
        exact (owns_leaf_some r w x).mp own
    rw [second.data role x own' used other (fun w same inside => outside w same ⟨by omega, inside.2⟩),
      first.data role x own used other (fun w same inside => outside w same ⟨inside.1, by omega⟩)]

theorem uvmunmapLoop_turn (doFree : Bool) (npages va pte t : Nat) (bound : va < MAXVA)
    (here : tableAt s r (.low (vpn va).top (vpn va).mid) = some t) (valid : Valid (s.pte t (vpn va).low))
    (entry : s.pte t (vpn va).low = pte) (leaf : Leaf pte) :
    uvmunmapLoop r doFree (npages + 1) va s =
      (do
        if doFree then kfree (PTE2PA pte)
        setPte t (vpn va).low 0
        uvmunmapLoop r doFree npages (va + PGSIZE)) s := by
  have walked := walk_reads s r va bound
  rw [here] at walked
  rw [uvmunmapLoop, bind_ok walked]
  simp only [Option.map_some]
  rw [bind_ok (getPte_run s t (vpn va).low), entry]
  rw [entry] at valid
  rw [if_neg (not_not.mpr valid), if_neg (flags_of_leaf pte leaf)]

section
variable (before : Local user s (some r) hand)
include before

theorem unmap_page_free (m pte t : Nat) (bound : m < 2 ^ 27) (inside : user (vpn (m * PGSIZE)))
    (here : tableAt s r (.low (vpn (m * PGSIZE)).top (vpn (m * PGSIZE)).mid) = some t)
    (found : leafAt s r (vpn (m * PGSIZE)) = some pte) :
    Unmapped user s r hand m (m + 1) ((s.freed (PTE2PA pte)).setPte t (vpn (m * PGSIZE)).low 0) ∧
      kfree (PTE2PA pte) s = .ok () (s.freed (PTE2PA pte)) := by
  have own : Owns user s (some r) hand (.leaf (vpn (m * PGSIZE))) (PTE2PA pte) := Owns.leaf r pte _ rfl inside found
  have ownTable : Owns user s (some r) hand (.table (.low (vpn (m * PGSIZE)).top (vpn (m * PGSIZE)).mid)) t :=
    Owns.table r t _ rfl here
  have apart : t ≠ PTE2PA pte := before.exclusive.ne ownTable own nofun
  obtain ⟨safe, step⟩ := unmap_moves before here found inside
  obtain ⟨_, s', ran, rfl, freed⟩ := kfree_ends (PTE2PA pte) safe
  rw [freed_setPte s _ t _ _ apart]
  have tables := fun p => tableAt_setLow (local_distinct before) _ _ (vpn (m * PGSIZE)).low t 0 here p
  refine ⟨⟨freed.safe, step.trans freed.step, fun w => ?_, fun p x found' => ?_, ?_⟩, ?_⟩
  · rw [leafAt_congr (freed.tables r rfl),
      leafAt_setLow (local_distinct before) _ t 0 (by decide) here, if_neg not_valid_zero]
    simp only [vpn_eq_range m (by omega) w]
  · rw [tableAt_congr (freed.tables r rfl), tables]
    exact found'
  · intro role x own' used other outside
    have notTable : x ≠ t := before.exclusive.ne own' ownTable (other _)
    have notFreed : x ≠ PTE2PA pte := by
      refine before.exclusive.ne own' own (fun same => outside _ same ?_)
      rw [page_of_vpn m bound]
      omega
    rw [freed.others x notFreed]
    exact page_setPage_other notTable
  · have ram := before.ram _ ⟨_, own⟩
    simp only [kfree, if_pos ram]
    rfl

theorem uvmunmapLoop_free (npages m : Nat) (bound : m + npages ≤ 2 ^ 26)
    (mapped : ∀ w : Vpn, m ≤ w.page → w.page < m + npages → user w ∧ leafAt s r w ≠ none) :
    Ends (uvmunmapLoop r true npages (m * PGSIZE)) s (fun _ s' => Unmapped user s r hand m (m + npages) s') := by
  induction npages generalizing m s with
  | zero => exact Ends.pure (Unmapped.refl before m m le_rfl)
  | succ npages ih =>
    have page := page_of_vpn m (by omega)
    obtain ⟨inside, present⟩ := mapped (vpn (m * PGSIZE)) (by omega) (by omega)
    obtain ⟨pte, found⟩ := Option.ne_none_iff_exists'.mp present
    obtain ⟨t, here, valid, entry⟩ := leafAt_table found
    obtain ⟨turn, freed⟩ := unmap_page_free before m pte t (by omega) inside here found
    have rest := ih turn.safe (m + 1) (by omega) (fun w lower upper => by
      obtain ⟨inside', present'⟩ := mapped w (by omega) (by omega)
      rw [turn.leaves w, if_neg (by omega)]
      exact ⟨inside', present'⟩)
    apply Ends.of_run_eq (uvmunmapLoop_turn true npages (m * PGSIZE) pte t (by unfold PGSIZE MAXVA; omega) here
      valid entry ((before.wf r rfl).low _ pte found))
    rw [if_pos rfl]
    apply Ends.after freed
    apply Ends.after (setPte_run _ t _ 0)
    rw [show m * PGSIZE + PGSIZE = (m + 1) * PGSIZE by ring]
    apply Ends.weaken rest
    intro _ s' done
    have all := turn.trans done (by omega) (by omega)
    rwa [show m + 1 + npages = m + (npages + 1) by ring] at all

theorem uvmunmap_free (npages m : Nat) (bound : m + npages ≤ 2 ^ 26)
    (mapped : ∀ w : Vpn, m ≤ w.page → w.page < m + npages → user w ∧ leafAt s r w ≠ none) :
    Ends (uvmunmap r (m * PGSIZE) npages true) s (fun _ s' => Unmapped user s r hand m (m + npages) s') := by
  unfold uvmunmap
  rw [if_neg (by rw [Nat.mul_mod_left]; exact fun h => h rfl)]
  exact uvmunmapLoop_free before npages m bound mapped

theorem uvmunmap_other (m pte : Nat) (bound : m < 2 ^ 26)
    (outside : ¬user (vpn (m * PGSIZE))) (found : leafAt s r (vpn (m * PGSIZE)) = some pte) :
    Ends (uvmunmap r (m * PGSIZE) 1 false) s (fun _ s' => Unmapped user s r hand m (m + 1) s') := by
  obtain ⟨t, here, valid, entry⟩ := leafAt_table found
  unfold uvmunmap
  rw [if_neg (by rw [Nat.mul_mod_left]; exact fun h => h rfl)]
  apply Ends.of_run_eq (uvmunmapLoop_turn false 0 (m * PGSIZE) pte t (by unfold PGSIZE MAXVA; omega) here
    valid entry ((before.wf r rfl).low _ pte found))
  rw [if_neg (by decide)]
  apply Ends.after (setPte_run _ t _ 0)
  apply Ends.pure
  obtain ⟨safe, step⟩ := setLow_keeps before here 0 (by decide) (fun valid => absurd valid not_valid_zero)
    (fun inside => absurd inside outside)
  refine ⟨safe, step, fun w => ?_, fun p x found' => ?_, ?_⟩
  · rw [leafAt_setLow (local_distinct before) _ t 0 (by decide) here, if_neg not_valid_zero]
    simp only [vpn_eq_range m (by omega) w]
  · rw [tableAt_setLow (local_distinct before) _ _ _ t 0 here]
    exact found'
  · intro role x own used other _
    exact page_setPage_other (before.exclusive.ne own (Owns.table r t _ rfl here) (other _))

end

end Xv6.Vm.Unmap
