import Xv6.Vm.Free

/-! Whole address spaces: proc_pagetable makes one, uvmcopy fills one, proc_freepagetable takes one back. -/

namespace Xv6.Vm.Shape
open Lib.Ownership Lib.Exec Memory Pagetable Entry Space Writes Moves Walk Unmap Alloc Free

theorem trampoline_page : TRAMPOLINE = (2 ^ 26 - 1) * PGSIZE := rfl

theorem trapframe_page : TRAPFRAME = (2 ^ 26 - 2) * PGSIZE := rfl

theorem page_trampoline : (vpn TRAMPOLINE).page = 2 ^ 26 - 1 := by
  rw [trampoline_page, page_of_vpn _ (by decide)]

theorem page_trapframe : (vpn TRAPFRAME).page = 2 ^ 26 - 2 := by
  rw [trapframe_page, page_of_vpn _ (by decide)]

theorem not_userVpn_trampoline : ¬userVpn (vpn TRAMPOLINE) := by
  rw [userVpn_iff, page_trampoline]
  decide

theorem not_userVpn_trapframe : ¬userVpn (vpn TRAPFRAME) := by
  rw [userVpn_iff, page_trapframe]
  decide

theorem ne_of_userVpn {v w : Vpn} (inside : userVpn v) (outside : ¬userVpn w) : v ≠ w := by
  rintro rfl
  exact outside inside

theorem vpn_cases (w : Vpn) : userVpn w ∨ w = vpn TRAPFRAME ∨ w = vpn TRAMPOLINE ∨ 2 ^ 26 ≤ w.page := by
  rw [userVpn_iff, trampoline_page, trapframe_page, vpn_eq_range _ (by decide), vpn_eq_range _ (by decide)]
  omega

variable [Layout]

/-- The pages above the user's: the trapframe and the trampoline, out of the user's reach. -/
structure Reserved (s : Mem) (r trapframe : Nat) : Prop where
  trapframe : ∃ pte, leafAt s r (vpn TRAPFRAME) = some pte ∧ PTE2PA pte = trapframe ∧ ¬User pte
  trampoline : ∃ pte, leafAt s r (vpn TRAMPOLINE) = some pte ∧ PTE2PA pte = Layout.trampoline ∧ ¬User pte
  above : ∀ w : Vpn, 2 ^ 26 ≤ w.page → leafAt s r w = none

variable {s s' : Mem} {r : Nat} {hand : List Nat}

theorem Reserved.congr {trapframe : Nat} (top : Reserved s r trapframe) (same : ∀ w, ¬userVpn w → leafAt s' r w = leafAt s r w) :
    Reserved s' r trapframe where
  trapframe := by
    rw [same _ not_userVpn_trapframe]
    exact top.trapframe
  trampoline := by
    rw [same _ not_userVpn_trampoline]
    exact top.trampoline
  above w high := by
    rw [same w (by rw [userVpn_iff]; omega)]
    exact top.above w high

/-- The operation has given the whole tree back. -/
structure Closed (s : Mem) (root : Option Nat) (hand : List Nat) (s' : Mem) : Prop where
  safe : Local userVpn s' none hand
  step : Step userVpn s root hand s' none hand
  data : ∀ x ∈ hand, s'.page x = s.page x

structure Opened (s : Mem) (r : Nat) (hand : List Nat) (s' : Mem) : Prop where
  safe : Local userVpn s' (some r) hand
  step : Step userVpn s none hand s' (some r) hand
  data : ∀ x ∈ hand, s'.page x = s.page x

variable {s'' : Mem}

theorem Opened.closed (opened : Opened s r hand s') (closed : Closed s' (some r) hand s'') :
    Closed s none hand s'' where
  safe := closed.safe
  step := opened.step.trans closed.step
  data x held := (closed.data x held).trans (opened.data x held)

theorem Opened.grown (opened : Opened s r hand s') (grown : Grown userVpn s' r hand s'') :
    Opened s r hand s'' where
  safe := grown.safe
  step := opened.step.trans grown.step
  data x held := by
    rw [grown.data .hand x (Owns.hand x held) nofun nofun, opened.data x held]

theorem Opened.mapped {v : Vpn} {pte : Nat} (opened : Opened s r hand s')
    (mapped : Mapped userVpn s' r hand hand v pte s'') : Opened s r hand s'' where
  safe := mapped.safe
  step := opened.step.trans mapped.step
  data x held := by
    rw [mapped.data .hand x (Owns.hand x held) nofun nofun, opened.data x held]

theorem Closed.unmapped {lo hi : Nat} (unmapped : Unmapped userVpn s r hand lo hi s')
    (closed : Closed s' (some r) hand s'') : Closed s (some r) hand s'' where
  safe := closed.safe
  step := unmapped.step.trans closed.step
  data x held := by
    rw [closed.data x held, unmapped.data .hand x (Owns.hand x held) nofun
      nofun nofun]

theorem uvmfree_ends (before : Local userVpn s (some r) hand) (sz : Nat) (filled : Filled s r (pages sz))
    (bare : ∀ w, ¬userVpn w → leafAt s r w = none) : Ends (uvmfree r sz) s (fun _ s' => Closed s (some r) hand s') := by
  have top := filled.bound
  have small : sz < 2 ^ 63 := by
    unfold pages PGSIZE at top
    omega
  -- freewalk after the pages of the size have gone.
  have finish : ∀ s', Unmapped userVpn s r hand 0 (pages sz) s' →
      Ends (freewalk 3 r) s' (fun _ s'' => Closed s (some r) hand s'') := by
    intro s' unmapped
    apply Ends.weaken (freewalk_ends unmapped.safe (fun v => ?_))
    · rintro _ s'' ⟨safe, step, data⟩
      exact Closed.unmapped unmapped ⟨safe, step, data⟩
    · rw [unmapped.leaves]
      by_cases low : v.page < pages sz
      · rw [if_pos ⟨Nat.zero_le _, low⟩]
      · rw [if_neg (by omega)]
        by_cases inside : userVpn v
        · exact filled.above v inside (by omega)
        · exact bare v inside
  unfold uvmfree
  by_cases some : 0 < sz
  · have count : PGROUNDUP sz / PGSIZE = pages sz := by
      rw [pgroundup_eq sz small]
      exact Nat.mul_div_cancel _ (by decide)
    rw [if_pos some, count]
    have ends := uvmunmap_free before (pages sz) 0 (by omega)
      (fun w _ high => ⟨(userVpn_iff w).mpr (by omega), filled.below w (by omega)⟩)
    simp only [Nat.zero_mul, Nat.zero_add] at ends
    exact Ends.bind ends (fun _ s' unmapped => finish s' unmapped)
  · rw [if_neg some]
    have none : sz = 0 := by omega
    subst none
    exact finish s (Unmapped.refl before 0 _ (by decide))

theorem uvmcreate_ends (before : Local userVpn s none hand) :
    Ends uvmcreate s (fun result s' => (result = none ∧ Closed s none hand s') ∨
      ∃ r, result = some r ∧ Opened s r hand s' ∧ ∀ w, leafAt s' r w = none) := by
  unfold uvmcreate
  refine Ends.bind (kalloc_ends before) ?_
  rintro result s₁ (⟨rfl, rfl, _⟩ | ⟨x, rfl, alloc⟩)
  · exact Ends.pure (Or.inl ⟨rfl, before, Step.refl _ _ _, fun _ _ => rfl⟩)
  · have zeroed := alloc.fill (fun _ => 0)
    have empty : ∀ k, ¬Valid ((s₁.setPage x (fun _ => 0)).pte x k) := by
      intro k
      rw [pte_zeroPage]
      exact not_valid_zero
    obtain ⟨safe, step⟩ := root_of_hand zeroed.safe empty
    refine ⟨some x, _, rfl, Or.inr ⟨x, rfl, ⟨safe, zeroed.step.trans step, fun y held => ?_⟩, leafAt_empty _ x empty⟩⟩
    exact zeroed.others y (before.exclusive.ne (Owns.hand y held) zeroed.free nofun)

theorem uvmfree_bare (before : Local userVpn s (some r) hand) (bare : ∀ w, leafAt s r w = none) :
    Ends (uvmfree r 0) s (fun _ s' => Closed s (some r) hand s') :=
  uvmfree_ends before 0 ⟨fun _ low => absurd low (Nat.not_lt_zero _), fun w _ _ => bare w, Nat.zero_le _⟩
    (fun w _ => bare w)

theorem trampoline_bound : Layout.trampoline < 2 ^ 52 := by
  have inText := Layout.code.2
  have data := Layout.data
  have room := Layout.room
  unfold PHYSTOP KERNBASE at room
  unfold PGSIZE at inText
  omega

theorem top_of_leaves (trapframe : Nat) (bound : trapframe < 2 ^ 52)
    (leaves : ∀ w, leafAt s r w = if w = vpn TRAPFRAME then some (PA2PTE trapframe ||| (PTE_R ||| PTE_W) ||| PTE_V)
      else if w = vpn TRAMPOLINE then some (PA2PTE Layout.trampoline ||| (PTE_R ||| PTE_X) ||| PTE_V) else none) :
    Filled s r 0 ∧ Reserved s r trapframe := by
  have low := reads_entry trapframe (PTE_R ||| PTE_W) bound (by decide)
  have high := reads_entry Layout.trampoline (PTE_R ||| PTE_X) trampoline_bound (by decide)
  refine ⟨⟨fun _ low => absurd low (Nat.not_lt_zero _), fun w inside _ => ?_, Nat.zero_le _⟩, ⟨?_, ?_, fun w beyond => ?_⟩⟩
  · rw [leaves, if_neg (ne_of_userVpn inside not_userVpn_trapframe), if_neg (ne_of_userVpn inside not_userVpn_trampoline)]
  · exact ⟨_, by rw [leaves, if_pos rfl], low.page, fun user => absurd (low.user.mp user) (by decide)⟩
  · exact ⟨_, by rw [leaves, if_neg (by decide), if_pos rfl], high.page,
      fun user => absurd (high.user.mp user) (by decide)⟩
  · have notLow : w ≠ vpn TRAPFRAME := by
      rintro rfl
      rw [page_trapframe] at beyond
      omega
    have notHigh : w ≠ vpn TRAMPOLINE := by
      rintro rfl
      rw [page_trampoline] at beyond
      omega
    rw [leaves, if_neg notLow, if_neg notHigh]

theorem procPagetable_ends (before : Local userVpn s none hand) (trapframe : Nat) (bound : trapframe < 2 ^ 52) :
    Ends (procPagetable trapframe) s (fun result s' => (result = none ∧ Closed s none hand s') ∨
      ∃ r, result = some r ∧ Opened s r hand s' ∧ Filled s' r 0 ∧ Reserved s' r trapframe) := by
  unfold procPagetable
  refine Ends.bind (uvmcreate_ends before) ?_
  rintro result s₁ (⟨rfl, closed⟩ | ⟨r, rfl, opened, bare⟩)
  · exact Ends.pure (Or.inl ⟨rfl, closed⟩)
  · refine Ends.bind (mappages_other opened.safe TRAMPOLINE Layout.trampoline (PTE_R ||| PTE_X) (by decide)
      (by decide) not_userVpn_trampoline (bare _) trampoline_bound (by decide) (by decide)) ?_
    rintro ok s₂ (⟨rfl, grown⟩ | ⟨rfl, first⟩)
    · simp only [Bool.false_eq_true, ↓reduceIte]
      refine Ends.bind (uvmfree_bare grown.safe (fun w => (grown.leaves w).trans (bare w))) ?_
      intro _ s₃ closed
      exact Ends.pure (Or.inl ⟨rfl, (opened.grown grown).closed closed⟩)
    · simp only [↓reduceIte]
      have apart : vpn TRAPFRAME ≠ vpn TRAMPOLINE := by decide
      refine Ends.bind (mappages_other first.safe TRAPFRAME trapframe (PTE_R ||| PTE_W) (by decide)
        (by decide) not_userVpn_trapframe (by rw [first.leaves, if_neg apart, bare]) bound (by decide) (by decide)) ?_
      rintro ok s₃ (⟨rfl, grown⟩ | ⟨rfl, second⟩)
      · simp only [Bool.false_eq_true, ↓reduceIte]
        have tramp : leafAt s₃ r (vpn TRAMPOLINE) = some (PA2PTE Layout.trampoline ||| (PTE_R ||| PTE_X) ||| PTE_V) := by
          rw [grown.leaves, first.leaves, if_pos rfl]
        rw [trampoline_page] at tramp ⊢
        refine Ends.bind (uvmunmap_other grown.safe (2 ^ 26 - 1) _ (by decide)
          (by rw [← trampoline_page]; exact not_userVpn_trampoline) tramp) ?_
        intro _ s₄ unmapped
        refine Ends.bind (uvmfree_bare unmapped.safe (fun w => ?_)) ?_
        · rw [unmapped.leaves]
          split_ifs with here
          · rfl
          · rw [grown.leaves, first.leaves, if_neg, bare]
            rw [trampoline_page, vpn_eq_range _ (by decide)]
            exact here
        · intro _ s₅ closed
          exact Ends.pure (Or.inl ⟨rfl, ((opened.mapped first).grown grown).closed (Closed.unmapped unmapped closed)⟩)
      · simp only [↓reduceIte]
        refine Ends.pure (Or.inr ⟨r, rfl, (opened.mapped first).mapped second, ?_⟩)
        apply top_of_leaves trapframe bound
        intro w
        rw [second.leaves, first.leaves, bare]

theorem procFreepagetable_ends (before : Local userVpn s (some r) hand) (sz trapframe : Nat)
    (filled : Filled s r (pages sz)) (top : Reserved s r trapframe) :
    Ends (procFreepagetable r sz) s (fun _ s' => Closed s (some r) hand s') := by
  obtain ⟨high, tramp, _⟩ := top.trampoline
  obtain ⟨low, frame, _⟩ := top.trapframe
  have outside := not_userVpn_trampoline
  have outside' := not_userVpn_trapframe
  unfold procFreepagetable
  rw [trampoline_page] at tramp outside ⊢
  rw [trapframe_page] at frame outside' ⊢
  refine Ends.bind (uvmunmap_other before (2 ^ 26 - 1) high (by decide) outside tramp) ?_
  intro _ s₁ first
  have frame' : leafAt s₁ r (vpn ((2 ^ 26 - 2) * PGSIZE)) = some low := by
    rw [first.leaves, if_neg (by rw [page_of_vpn _ (by decide)]; decide), frame]
  refine Ends.bind (uvmunmap_other first.safe (2 ^ 26 - 2) low (by decide) outside' frame') ?_
  intro _ s₂ second
  have leaves : ∀ w, leafAt s₂ r w = if 2 ^ 26 - 2 ≤ w.page ∧ w.page < 2 ^ 26 then none else leafAt s r w := by
    intro w
    rw [second.leaves, first.leaves]
    split_ifs <;> first | rfl | omega
  apply Ends.weaken (uvmfree_ends second.safe sz ⟨fun w below => ?_, fun w inside above => ?_, filled.bound⟩
    (fun w outside => ?_))
  · intro _ s₃ closed
    exact Closed.unmapped first (Closed.unmapped second closed)
  · have bound := filled.bound
    rw [leaves, if_neg (by omega)]
    exact filled.below w below
  · rw [userVpn_iff] at inside
    rw [leaves, if_neg (by omega)]
    exact filled.above w ((userVpn_iff w).mpr inside) above
  · rw [userVpn_iff] at outside
    rw [leaves]
    split_ifs with here
    · rfl
    · exact top.above w (by omega)

end Xv6.Vm.Shape
