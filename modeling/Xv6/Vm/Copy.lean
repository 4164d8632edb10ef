import Xv6.Vm.Shape

/-! uvmcopy: the user pages of one address space duplicated in another; uvmclear. -/

namespace Xv6.Vm.Copy
open Lib.Ownership Lib.Exec Memory Pagetable Entry Space Writes Moves Walk Unmap Alloc Free Shape

section Apart
variable {user : Vpn → Prop} {s s' : Mem} {root root' : Option Nat} {hand hand' : List Nat} {r : Nat}

/-- The pages of another tree are none that the operation works on. -/
def Apart (user : Vpn → Prop) (s : Mem) (root : Option Nat) (hand : List Nat) (r : Nat) : Prop :=
  ∀ role x, InTree role → Owns user s (some r) [] role x → ¬Owned (Owns user s root hand) x

theorem Apart.tables (apart : Apart user s root hand r) (step : Step user s root hand s' root' hand') :
    SameTables s s' r := by
  intro p table found
  exact step.frame table (apart (.table p) table trivial (Owns.table r table p rfl found))

theorem Apart.step (apart : Apart user s root hand r) (step : Step user s root hand s' root' hand') :
    Apart user s' root' hand' r := by
  intro role x tree own owned
  have tables : ∀ r', some r = some r' → SameTables s s' r' := fun r' same => Option.some.inj same ▸ apart.tables step
  exact apart role x tree ((owns_tree_congr tables role tree x).mp own) ((step.owned x).mp owned)

theorem Apart.data (apart : Apart user s root hand r) (step : Step user s root hand s' root' hand') (v : Vpn)
    (inside : user v) (pte : Nat) (found : leafAt s r v = some pte) : s'.page (PTE2PA pte) = s.page (PTE2PA pte) :=
  step.frame _ (apart (.leaf v) _ trivial (Owns.leaf r pte v rfl inside found))

end Apart

/-- The pages of uvmcopy: those of the tree at old, flags and content. -/
def CopyOf (s : Mem) (old : Nat) (w : Vpn) (perm : Nat) (content : Page) : Prop :=
  ∃ pte, leafAt s old w = some pte ∧ perm = PTE_FLAGS pte ∧ content = s.page (PTE2PA pte)

theorem copyOf_congr {s s' : Mem} {old : Nat} {w : Vpn} (leaves : leafAt s' old w = leafAt s old w)
    (data : ∀ pte, leafAt s old w = some pte → s'.page (PTE2PA pte) = s.page (PTE2PA pte)) (perm : Nat) (content : Page) :
    CopyOf s' old w perm content ↔ CopyOf s old w perm content := by
  unfold CopyOf
  rw [leaves]
  refine exists_congr fun pte => and_congr_right fun found => ?_
  rw [data pte found]

variable [Layout] {s s' : Mem} {old new : Nat} {hand : List Nat}

theorem Extended.weaken {entry entry' : Vpn → Nat → Page → Prop} {lo hi : Nat}
    (extended : Extended entry s new hand lo hi s')
    (implies : ∀ w perm content, lo ≤ w.page → w.page < hi → entry w perm content → entry' w perm content) :
    Extended entry' s new hand lo hi s' where
  safe := extended.safe
  step := extended.step
  leaves := extended.leaves
  fresh w low high := by
    obtain ⟨pte, x, perm, found, reads, content⟩ := extended.fresh w low high
    exact ⟨pte, x, perm, found, reads, implies w perm _ low high content⟩
  tables := extended.tables
  data := extended.data

theorem uvmcopyLoop_ends (before : Local userVpn s (some new) hand) (apart : Apart userVpn s (some new) hand old)
    (wf : WellFormed s old) (npages m : Nat) (bound : m + npages ≤ 2 ^ 26 - 2)
    (source : ∀ w : Vpn, w.page < m + npages → leafAt s old w ≠ none)
    (filled : ∀ w : Vpn, w.page < m → leafAt s new w ≠ none)
    (empty : ∀ w : Vpn, userVpn w → m ≤ w.page → leafAt s new w = none) :
    Ends (uvmcopyLoop old new npages (m * PGSIZE)) s (fun ok s' =>
      (ok = true ∧ Extended (CopyOf s old) s new hand m (m + npages) s') ∨
        (ok = false ∧ Unmapped userVpn s new hand 0 m s')) := by
  induction npages generalizing m s with
  | zero => exact Ends.pure (Or.inl ⟨rfl, Extended.refl before m⟩)
  | succ npages ih =>
    have page := page_of_vpn m (by omega)
    have inside : userVpn (vpn (m * PGSIZE)) := (userVpn_iff _).mpr (by omega)
    obtain ⟨pte, found⟩ := Option.ne_none_iff_exists'.mp (source (vpn (m * PGSIZE)) (by omega))
    obtain ⟨t, here, valid, entry⟩ := leafAt_table found
    have walked := walk_reads s old (m * PGSIZE) (by unfold PGSIZE MAXVA; omega)
    rw [here] at walked
    unfold uvmcopyLoop
    apply Ends.after walked
    simp only [Option.map_some]
    apply Ends.after (getPte_run s t _)
    rw [entry] at valid ⊢
    rw [if_neg (not_not.mpr valid)]
    have leaf : Leaf (PTE_FLAGS pte) := by
      rw [flags_eq, ← leaf_low]
      exact wf.low _ pte found
    refine addPage_ends (CopyOf s old) before m (PTE_FLAGS pte) (by omega) filled empty
      (by rw [flags_eq]; exact Nat.mod_lt _ (by decide)) leaf (fun s => s.page (PTE2PA pte)) ?_ _ _ _ ?_ ?_
    · intro x s₁ alloc
      exact ⟨pte, found, rfl, apart.data alloc.step _ inside pte found⟩
    · intro s' grown
      rw [Nat.mul_div_cancel m (by decide)]
      have ends := uvmunmap_free grown.safe m 0 (by omega) (fun w _ high => by
        rw [grown.leaves]
        exact ⟨(userVpn_iff w).mpr (by omega), filled w (by omega)⟩)
      simp only [Nat.zero_mul, Nat.zero_add] at ends
      refine Ends.bind ends ?_
      intro _ s'' done
      exact Ends.pure (Or.inr ⟨rfl, grown_unmapped grown done⟩)
    · intro s' one top
      have tables := apart.tables one.step
      rw [show m * PGSIZE + PGSIZE = (m + 1) * PGSIZE by ring]
      apply Ends.weaken (ih one.safe (apart.step one.step) (wellFormed_congr tables wf) (m + 1) (by omega)
        (fun w low => ?_) (one.filled filled) (fun w inside' high => ?_))
      · rintro ok s₃ (⟨rfl, rest⟩ | ⟨rfl, done⟩)
        · have rest' : Extended (CopyOf s old) s' new hand (m + 1) (m + 1 + npages) s₃ := by
            refine Extended.weaken rest fun w perm content low high => ?_
            exact (copyOf_congr (leafAt_congr tables w) (fun pte found =>
              apart.data one.step w ((userVpn_iff w).mpr (by omega)) pte found) perm content).mp
          have all := one.trans rest' (by omega) (by omega) (by omega) empty
          rw [show m + 1 + npages = m + (npages + 1) by ring] at all
          exact Or.inl ⟨rfl, all⟩
        · exact Or.inr ⟨rfl, one.unmapped done (Nat.zero_le m) (by omega) (by omega) empty⟩
      · rw [leafAt_congr tables]
        exact source w (by omega)
      · rw [one.leaves w (by omega)]
        exact empty w inside' (by omega)

theorem uvmcopy_ends (before : Local userVpn s (some new) hand) (apart : Apart userVpn s (some new) hand old)
    (wf : WellFormed s old) (sz : Nat) (source : Filled s old (pages sz)) (target : Filled s new 0) :
    Ends (uvmcopy old new sz) s (fun ok s' =>
      (ok = true ∧ Extended (CopyOf s old) s new hand 0 (pages sz) s') ∨ (ok = false ∧ Grown userVpn s new hand s')) := by
  have top := source.bound
  have ends := uvmcopyLoop_ends before apart wf (pages sz) 0 (by omega) (fun w low => source.below w (by omega))
    target.below target.above
  simp only [Nat.zero_mul, Nat.zero_add] at ends
  apply Ends.weaken ends
  rintro ok s' (⟨rfl, extended⟩ | ⟨rfl, done⟩)
  · exact Or.inl ⟨rfl, extended⟩
  · exact Or.inr ⟨rfl, unmapped_grown done⟩

theorem uvmclear_ends {r : Nat} (before : Local userVpn s (some r) hand) (va pte : Nat) (bound : va < MAXVA)
    (found : leafAt s r (vpn va) = some pte) :
    Ends (uvmclear r va) s (fun _ s' =>
      Mapped userVpn s r hand hand (vpn va) (pte &&& (2 ^ 64 - 1 - PTE_U)) s') := by
  obtain ⟨t, here, valid, entry⟩ := leafAt_table found
  obtain ⟨page, valid', leaf', small⟩ := clear_user pte
  have walked := walk_reads s r va bound
  rw [here] at walked
  rw [entry] at valid
  unfold uvmclear
  apply Ends.after walked
  simp only [Option.map_some]
  apply Ends.after (getPte_run s t _)
  rw [entry]
  refine ⟨(), _, setPte_run s t _ _, (Grown.refl before).mapped here small (valid'.mpr valid) ?_⟩
  exact setLow_keeps before here _ small (fun _ => leaf'.mpr ((before.wf r rfl).low _ pte found))
    (fun _ => ⟨pte, found, valid'.mpr valid, page⟩)

end Xv6.Vm.Copy
