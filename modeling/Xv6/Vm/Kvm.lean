import Xv6.Vm.Cost
import Xv6.Vm.Pages

/-! kvmmap: the direct maps of the kernel page table, and the tables they take. -/

namespace Xv6.Vm.Kvm
open Lib.Ownership Lib.Exec Lib.Budget Memory Pagetable Entry Space Writes Moves Walk Unmap Alloc Cost Pages Option
open Sched.Table (Slot)

def kvmmap (pagetable va x size perm : Nat) : VM Unit := do
  if ← mappages pagetable va size x perm then pure () else throw "kvmmap"

theorem mappages_pages (r lo more x perm : Nat) :
    mappages r (lo * PGSIZE) ((more + 1) * PGSIZE) x perm = mappagesLoop r perm more (lo * PGSIZE) x := by
  have start : PGROUNDDOWN (lo * PGSIZE) = lo * PGSIZE := by
    unfold PGROUNDDOWN
    rw [Nat.mul_div_cancel _ (by decide)]
  have last : PGROUNDDOWN (lo * PGSIZE + (more + 1) * PGSIZE - 1) = (lo + more) * PGSIZE := by
    unfold PGROUNDDOWN PGSIZE
    omega
  have count : ((lo + more) * PGSIZE - lo * PGSIZE) / PGSIZE = more := by
    rw [← Nat.sub_mul, Nat.add_sub_cancel_left, Nat.mul_div_cancel _ (by decide)]
  unfold mappages
  rw [if_neg (by unfold PGSIZE; omega), start, last, count]

def Has (s : Mem) (r va : Nat) : Prop := tableAt s r (.low (vpn va).top (vpn va).mid) ≠ none

open Classical in
noncomputable def need (s : Mem) (r va : Nat) : Nat := if Has s r va then 0 else 2

theorem walk_has (s : Mem) (r va t : Nat) (bound : va < MAXVA)
    (here : tableAt s r (.low (vpn va).top (vpn va).mid) = some t) :
    walk r va true s = .ok (some (t, (vpn va).low)) s := by
  have reads : ∀ table i x, child s table i = some x → walkLevel table i true s = .ok (some x) s := by
    intro table i x found
    unfold child at found
    split at found
    · rename_i valid
      unfold walkLevel
      rw [bind_ok (getPte_run s table i), if_pos valid, ← found]
      rfl
    · cases found
  simp only [tableAt, vpn] at here
  obtain ⟨mid, first, second⟩ := bind_eq_some_iff.mp here
  unfold walk
  rw [if_neg (Nat.not_le.mpr bound)]
  have loop := walkLoop_some va true 1 r mid s s (reads r _ mid first)
  rw [walkLoop_some va true 0 mid t s s (reads mid _ t second)] at loop
  rw [bind_ok loop]
  rfl

theorem same_region (v w : Vpn) (same : v.page / 512 = w.page / 512) : v.top = w.top ∧ v.mid = w.mid := by
  obtain ⟨⟨a, ha⟩, ⟨b, hb⟩, ⟨c, hc⟩⟩ := v
  obtain ⟨⟨a', ha'⟩, ⟨b', hb'⟩, ⟨c', hc'⟩⟩ := w
  simp only [Vpn.page] at same
  simp only [Fin.mk.injEq]
  omega

theorem need_next {s' : Mem} {r : Nat} (lo : Nat) (bound : lo + 1 < 2 ^ 26)
    (here : tableAt s' r (.low (vpn (lo * PGSIZE)).top (vpn (lo * PGSIZE)).mid) ≠ none) :
    need s' r ((lo + 1) * PGSIZE) ≤ 2 * ((lo + 1) / 512 - lo / 512) := by
  by_cases same : (lo + 1) / 512 = lo / 512
  · obtain ⟨top, mid⟩ := same_region (vpn ((lo + 1) * PGSIZE)) (vpn (lo * PGSIZE))
      (by rw [page_of_vpn _ (by omega), page_of_vpn _ (by omega)]; exact same)
    have has : Has s' r ((lo + 1) * PGSIZE) := by
      unfold Has
      rw [top, mid]
      exact here
    unfold need
    rw [if_pos has]
    exact Nat.zero_le _
  · have small : need s' r ((lo + 1) * PGSIZE) ≤ 2 := by
      unfold need
      split <;> omega
    omega

section
variable [Layout] {user : Vpn → Prop} {s : Mem} {r : Nat} {hand : List Nat}

theorem walk_spends (before : Local user s (some r) hand) (va : Nat) (bound : va < MAXVA) :
    Ends (walk r va true) s (fun result s' => (Grown user s r hand s' ∧ ∀ found, result = some found →
      found.2 = (vpn va).low ∧ tableAt s' r (.low (vpn va).top (vpn va).mid) = some found.1) ∧
        if result.isSome then free s ≤ free s' + need s r va else free s < need s r va) := by
  by_cases has : Has s r va
  · obtain ⟨t, here⟩ := ne_none_iff_exists'.mp has
    refine ⟨_, s, walk_has s r va t bound here, ⟨Grown.refl before, fun found same => ?_⟩, Nat.le_add_right _ _⟩
    obtain rfl := Option.some.inj same
    exact ⟨rfl, here⟩
  · obtain ⟨result, s', ran, grown, found⟩ := walk_ends before va bound
    refine ⟨result, s', ran, ⟨grown, found⟩, ?_⟩
    unfold need
    rw [if_neg has]
    by_cases enough : 2 ≤ free s
    · obtain ⟨some, spent⟩ := walk_costs r va s result s' enough ran
      rw [if_pos (isSome_iff_ne_none.mpr some)]
      exact spent
    · split
      · omega
      · omega

/-- The pages from lo to lo + more are mapped, and no other entry has changed. -/
structure Ranged (user : Vpn → Prop) (s : Mem) (r : Nat) (hand : List Nat) (lo more : Nat) (s' : Mem) : Prop where
  safe : Local user s' (some r) hand
  step : Step user s (some r) hand s' (some r) hand
  leaves : ∀ w : Vpn, ¬(lo ≤ w.page ∧ w.page ≤ lo + more) → leafAt s' r w = leafAt s r w

theorem spendingTurn (before : Local user s (some r) hand) (perm : Nat) (small : perm < 2 ^ 10) (leaf : Leaf perm)
    (lo x : Nat) (low : lo < 2 ^ 26) (page : x < 2 ^ 52) (here : ∀ v : Vpn, v.page = lo → ¬user v ∧ leafAt s r v = none)
    {A : Type} (next : VM A) (failed : A) (post : A → Mem → Prop)
    (full : ∀ s', free s < need s r (lo * PGSIZE) → post failed s')
    (rest : ∀ s', Ranged user s r hand lo 0 s' → tableAt s' r (.low (vpn (lo * PGSIZE)).top (vpn (lo * PGSIZE)).mid) ≠ none →
      free s ≤ free s' + need s r (lo * PGSIZE) → Ends next s' post) :
    Ends (do
      match ← walk r (lo * PGSIZE) true with
      | none => pure failed
      | some (table, i) => do
          let old ← getPte table i
          if Valid old then throw "mappages: remap"
          setPte table i (PA2PTE x ||| perm ||| PTE_V)
          next) s post := by
  have number := page_of_vpn lo (by omega)
  have reads := reads_entry x perm page small
  refine mapTurn_of_walk (lo * PGSIZE) _ (fun found s' => Grown user s r hand s' ∧
    if found then free s ≤ free s' + need s r (lo * PGSIZE) else free s < need s r (lo * PGSIZE))
    (fun s' after => (after.1.leaves _).trans (here _ number).2)
    (Ends.weaken (walk_spends before _ (by unfold PGSIZE MAXVA; omega)) fun result s' holds =>
      ⟨⟨holds.1.1, holds.2⟩, holds.1.2⟩)
    next failed post (fun s' poor => full s' poor.2) (fun s' t after table => ?_)
  have grown := after.1
  have mapped := grown.mapped table reads.bound reads.valid (setLow_keeps grown.safe table _ reads.bound
    (fun _ => reads.leaf.mpr leaf) (fun inside => absurd inside (here _ number).1))
  refine rest _ ⟨mapped.safe, mapped.step, fun w other => ?_⟩ ?_ after.2
  · rw [mapped.leaves, if_neg]
    rintro rfl
    omega
  · rw [tableAt_setLow (local_distinct grown.safe) _ _ _ t _ table, table]
    exact some_ne_none _

theorem mappagesLoop_ends (before : Local user s (some r) hand) (perm : Nat) (small : perm < 2 ^ 10) (leaf : Leaf perm)
    (more lo x : Nat) (bound : lo + more < 2 ^ 26) (page : x + more < 2 ^ 52)
    (outside : ∀ v : Vpn, lo ≤ v.page → v.page ≤ lo + more → ¬user v)
    (absent : ∀ v : Vpn, lo ≤ v.page → v.page ≤ lo + more → leafAt s r v = none) :
    Ends (mappagesLoop r perm more (lo * PGSIZE) x) s (fun ok s' =>
      if ok then Ranged user s r hand lo more s' ∧
        free s ≤ free s' + (need s r (lo * PGSIZE) + 2 * ((lo + more) / 512 - lo / 512))
      else free s < need s r (lo * PGSIZE) + 2 * ((lo + more) / 512 - lo / 512)) := by
  induction more generalizing s lo x with
  | zero =>
    unfold mappagesLoop
    refine spendingTurn before perm small leaf lo x (by omega) (by omega) (fun v same => ⟨outside v (by omega) (by omega),
      absent v (by omega) (by omega)⟩) (pure true) false _ (fun s' poor => ?_) (fun s' ranged _ rich => ?_)
    · simpa using poor
    · exact Ends.pure ⟨ranged, by simpa using rich⟩
  | succ more ih =>
    unfold mappagesLoop
    refine spendingTurn before perm small leaf lo x (by omega) (by omega) (fun v same => ⟨outside v (by omega) (by omega),
      absent v (by omega) (by omega)⟩) _ false _ (fun s' poor => ?_) (fun s₁ ranged table rich => ?_)
    · simp only [Bool.false_eq_true, if_false]
      omega
    · rw [show lo * PGSIZE + PGSIZE = (lo + 1) * PGSIZE by ring]
      have more' := need_next lo (by omega) table
      apply Ends.weaken (ih ranged.safe (lo + 1) (x + 1) (by omega) (by omega)
        (fun v low high => outside v (by omega) (by omega)) (fun v low high => ?_))
      · intro ok s₂ holds
        cases ok with
        | true =>
          simp only [if_true] at holds ⊢
          obtain ⟨rest, spent⟩ := holds
          refine ⟨⟨rest.safe, ranged.step.trans rest.step, fun w other => ?_⟩, ?_⟩
          · rw [rest.leaves w (by omega), ranged.leaves w (by omega)]
          · rw [show lo + 1 + more = lo + (more + 1) by ring] at spent
            omega
        | false =>
          simp only [Bool.false_eq_true, if_false] at holds ⊢
          rw [show lo + 1 + more = lo + (more + 1) by ring] at holds
          omega
      · rw [ranged.leaves v (by omega)]
        exact absent v (by omega) (by omega)

variable {g : Holders} {sz : Slot → Nat}

/-- The tables that more + 1 pages from lo on take at most. -/
def tables (lo more : Nat) : Nat := 2 + 2 * ((lo + more) / 512 - lo / 512)

theorem kvmmap_sound (sound : Sound g sz s) (root : g.root .kernel = some r) (perm : Nat) (small : perm < 2 ^ 10)
    (leaf : Leaf perm) (lo more x : Nat) (bound : lo + more < 2 ^ 26) (page : x + more < 2 ^ 52)
    (absent : ∀ v : Vpn, lo ≤ v.page → v.page ≤ lo + more → leafAt s r v = none) :
    Runs (fun _ => free s < tables lo more) (kvmmap r (lo * PGSIZE) x ((more + 1) * PGSIZE) perm) s (fun _ s' =>
      Sound g sz s' ∧ (∀ w : Vpn, ¬(lo ≤ w.page ∧ w.page ≤ lo + more) → leafAt s' r w = leafAt s r w) ∧
        free s ≤ free s' + tables lo more) := by
  have part := sound.good.part .kernel
  rw [root] at part
  have atMost : need s r (lo * PGSIZE) ≤ 2 := by
    unfold need
    split <;> omega
  obtain ⟨ok, s', ran, holds⟩ := mappagesLoop_ends part perm small leaf more lo x bound page (fun _ _ _ => id) absent
  unfold kvmmap
  rw [mappages_pages]
  apply Runs.after ran
  cases ok with
  | false =>
    simp only [Bool.false_eq_true, if_false] at holds
    refine Or.inl ⟨_, s', rfl, ?_⟩
    unfold tables
    omega
  | true =>
    simp only [if_true] at holds
    obtain ⟨ranged, spent⟩ := holds
    have step := ranged.step
    rw [← root] at step
    have safe := ranged.safe
    rw [← root] at safe
    have replaced := sound.replace .kernel safe step (fun _ _ => rfl) nofun
    rw [Holders.replace, Function.update_eq_self] at replaced
    refine Ends.runs (Ends.pure ⟨replaced, ranged.leaves, ?_⟩)
    unfold tables
    omega

theorem Extended.fill {entry entry' : Vpn → Nat → Page → Prop} {m : Nat} {s' : Mem} (before : Local userVpn s (some r) hand)
    (one : Extended entry s r hand m (m + 1) s') (low : m < 2 ^ 26 - 2) (x perm pte : Nat)
    (found : leafAt s' r (vpn (m * PGSIZE)) = some pte) (reads : Reads pte x perm)
    (fresh : Owns userVpn s (some r) hand .free x) (content : Page) (meets : entry' (vpn (m * PGSIZE)) perm content) :
    Extended entry' s r hand m (m + 1) (s'.setPage x content) := by
  have inside : userVpn (vpn (m * PGSIZE)) := by
    rw [userVpn_iff, page_of_vpn m (by omega)]
    exact low
  have own : Owns userVpn s' (some r) hand (.leaf (vpn (m * PGSIZE))) x := by
    rw [← reads.page]
    exact Owns.leaf r pte _ rfl inside found
  obtain ⟨safe, step, tables⟩ := setPage_keeps one.safe _ x content own nofun
  have same := leafAt_congr (tables r rfl)
  refine ⟨safe, one.step.trans step, fun w other => ?_, fun w lower upper => ?_, fun p y here => ?_, fun role y own' used other => ?_⟩
  · rw [same, one.leaves w other]
  · obtain rfl := (vpn_eq_range m (by omega) w).mpr ⟨lower, upper⟩
    exact ⟨pte, x, perm, by rw [same, found], reads, by rw [page_setPage_same]; exact meets⟩
  · rw [tableAt_congr (tables r rfl)]
    exact one.tables p y here
  · rw [page_setPage_other (before.exclusive.ne own' fresh used), one.data role y own' used other]

def FirstPage (src : List (BitVec 8)) (_ : Vpn) (perm : Nat) (content : Page) : Prop :=
  perm = PTE_W ||| PTE_R ||| PTE_X ||| PTE_U ∧ content = fun i => src.getD i.val 0

theorem uvmfirst_ends (before : Local userVpn s (some r) hand) (filled : Filled s r 0) (src : List (BitVec 8))
    (short : src.length < PGSIZE) (rich : 3 ≤ free s) :
    Ends (uvmfirst r src) s (fun _ s' => Extended (FirstPage src) s r hand 0 1 s' ∧ free s ≤ free s' + 3) := by
  unfold uvmfirst
  rw [if_neg (by omega)]
  refine Ends.bind (kalloc_costs.ends s (by omega) _ (kalloc_ends before)) ?_
  rintro result s₁ ⟨⟨rfl, _, _⟩ | ⟨x, rfl, alloc⟩, got, spent⟩
  · exact absurd rfl got
  · have fill := alloc.fill (fun _ => 0)
    have inside : userVpn (vpn (0 * PGSIZE)) := by
      rw [userVpn_iff, page_of_vpn 0 (by decide)]
      decide
    have ram := fill.safe.ram x ⟨.hand, Owns.hand x List.mem_cons_self⟩
    have reads := reads_entry x (PTE_W ||| PTE_R ||| PTE_X ||| PTE_U) (lt_trans (inRam_bound x ram) (by decide)) (by decide)
    have absent : leafAt (s₁.setPage x (fun _ => 0)) r (vpn (0 * PGSIZE)) = none := by
      rw [leafAt_congr (fill.tables r rfl)]
      exact filled.above _ inside (Nat.zero_le _)
    apply Ends.after rfl
    have enough : 2 ≤ free (s₁.setPage x (fun _ => 0)) := by
      change 2 ≤ free s₁
      omega
    refine Ends.bind ((mappages_costs r (0 * PGSIZE) x _ (by decide)).ends _ enough _ (mappages_user fill.safe
      (0 * PGSIZE) _ (by decide) (by decide) inside absent (by decide) (by decide))) ?_
    rintro ok s₂ ⟨⟨rfl, _⟩ | ⟨rfl, mapped⟩, done, spent'⟩
    · cases done
    · have one : Extended (ZeroPage (PTE_W ||| PTE_R ||| PTE_X ||| PTE_U)) s r hand 0 (0 + 1) s₂ :=
        allocated_mapped before fill ⟨rfl, page_setPage_same _ _ _⟩ (by decide) mapped reads
      have found : leafAt s₂ r (vpn (0 * PGSIZE)) = some (PA2PTE x ||| (PTE_W ||| PTE_R ||| PTE_X ||| PTE_U) ||| PTE_V) := by
        rw [mapped.leaves, if_pos rfl]
      have zero : s₂.page x = fun _ => 0 := by
        rw [mapped.data .hand x (Owns.hand x List.mem_cons_self) nofun nofun]
        exact page_setPage_same _ _ _
      refine ⟨(), _, rfl, Extended.fill before one (by decide) x _ _ found reads alloc.free _ ⟨rfl, ?_⟩, ?_⟩
      · rw [zero]
      · change free s₁ ≤ free s₂ + 2 at spent'
        change free s ≤ free s₂ + 3
        omega

end

end Xv6.Vm.Kvm
