import Xv6.System.Boot

/-! Memory in every state between operations: who has each page, and the shape of every address space. -/

namespace Xv6.System.Memory
open Lib.Ownership Lib.Exec Sched.Table
open Vm Vm.Memory Vm.Space Vm.Alloc Vm.Shape Vm.Unmap Vm.UserMem Vm.Pages
open Ftable Calls Safe Processes Spaces Boot

section
variable [Layout]

/-- Between operations each page of memory has one use, and no page is on the free list twice. -/
theorem page_has_one_use (w : World) (reachable : Reachable w) :
    (∀ x, InRam x → ∃! use, Uses (holders w [] none) w.mem use x) ∧
      (∀ use x, Uses (holders w [] none) w.mem use x → InRam x) ∧ w.mem.freelist.Nodup := by
  obtain ⟨inv, _⟩ := reachable_inv w reachable
  refine ⟨fun x ram => ?_, fun use x uses => (inv.sound.good.covers x).mp ⟨use, uses⟩, inv.sound.good.nodup.1⟩
  obtain ⟨use, uses⟩ := (inv.sound.good.covers x).mpr ram
  exact ⟨use, uses, fun other uses' => inv.sound.good.exclusive other use x uses' uses⟩

end

theorem page_has_one_use_forked : ∃ w r pte, @Reachable linked w ∧ (w.task 1).pagetable = some r ∧
    leafAt w.mem r (vpn 0) = some pte ∧ ∃! use, Uses (holders w [] none) w.mem use (PTE2PA pte) := by
  let _ := linked
  obtain ⟨w, reachable, table, _, memory, r, here, program⟩ := forked_reachable
  obtain ⟨inv, _⟩ := reachable_inv w reachable
  obtain ⟨r₁, trapframe, here₁, _, shaped⟩ := Inv.running inv 1 (by rw [table]; decide +kernel)
  have byte := program 0 (by decide)
  rw [← memoryOf_some here, ← memory, memoryOf_some here₁] at byte
  obtain ⟨x, found⟩ := Option.ne_none_iff_exists'.mp (translate_of_byte byte)
  cases translate_owns [] shaped.reserved 0 x found with
  | leaf r' pte v root inside leaf =>
    obtain rfl := Option.some.inj root
    obtain ⟨unique, ram, _⟩ := page_has_one_use w reachable
    have uses : Uses (holders w [] none) w.mem (.leaf (.proc 1) (vpn 0)) (PTE2PA pte) :=
      ⟨_, pte, here₁, inside, leaf, rfl⟩
    exact ⟨w, _, pte, reachable, here₁, leaf, unique _ (ram _ _ uses)⟩

section
variable [Layout] {s : Mem} {r sz trapframe : Nat}

theorem shaped_leaves (shaped : Shaped s r sz trapframe) (v : Vpn) :
    leafAt s r v ≠ none ↔ v.page < pages sz ∨ v = vpn TRAPFRAME ∨ v = vpn TRAMPOLINE := by
  obtain ⟨filled, ⟨pte, frame, _⟩, ⟨pte', code, _⟩, above⟩ := shaped
  constructor
  · intro mapped
    by_contra outside
    simp only [not_or, Nat.not_lt] at outside
    obtain ⟨high, noFrame, noCode⟩ := outside
    have apart : v.page ≠ 2 ^ 26 - 2 := fun same => noFrame (Vpn.page_injective v _ same)
    have apart' : v.page ≠ 2 ^ 26 - 1 := fun same => noCode (Vpn.page_injective v _ same)
    rcases Nat.lt_or_ge v.page (2 ^ 26 - 2) with user | top
    · exact mapped (filled.above v user high)
    · exact mapped (above v (by omega))
  · rintro (low | rfl | rfl)
    · exact filled.below v low
    · simp [frame]
    · simp [code]

theorem shaped_size (shaped : Shaped s r sz trapframe) : PGROUNDUP sz = pages sz * PGSIZE ∧ pages sz * PGSIZE ≤ TRAPFRAME := by
  have bound := shaped.filled.bound
  have rounded : PGROUNDUP sz = pages sz * PGSIZE := by
    apply pgroundup_eq
    unfold pages PGSIZE at bound
    omega
  refine ⟨rounded, ?_⟩
  unfold TRAPFRAME TRAMPOLINE MAXVA PGSIZE
  omega

/-- The valid entries of every address space are those of its user pages, of the trapframe and of the
trampoline, and no operation runs into a panic other than that of an exiting init, unless it follows a
null pointer. -/
theorem address_space_shape (w : World) (reachable : Reachable w) :
    (∀ i r, (w.task i).pagetable = some r → WellFormed w.mem r ∧
      (∀ v, leafAt w.mem r v ≠ none ↔ v.page * PGSIZE < PGROUNDUP (w.task i).sz ∨ v = vpn TRAPFRAME ∨ v = vpn TRAMPOLINE) ∧
      (∀ v pte, leafAt w.mem r v = some pte → v = vpn TRAPFRAME ∨ v = vpn TRAMPOLINE → ¬User pte) ∧
      PGROUNDUP (w.task i).sz ≤ TRAPFRAME) ∧
    ∀ op, (∀ p, op.caller = some p → (w.table.proc p).state = .running) → ∀ message w',
      perform op w = .error message w' → Fault message := by
  obtain ⟨inv, _⟩ := reachable_inv w reachable
  refine ⟨fun i r here => ?_, fun op running message w' failed => ?_⟩
  · obtain ⟨trapframe, _, shaped⟩ := inv.sound.spaces i r here
    obtain ⟨rounded, bound⟩ := shaped_size shaped
    refine ⟨inv.sound.good.wf (.proc i) r here, fun v => ?_, fun v pte leaf reserved => ?_, ?_⟩
    · refine (shaped_leaves shaped v).trans (or_congr_left ?_)
      rw [show PGROUNDUP (w.task i).sz = pages (w.task i).sz * PGSIZE from rounded]
      exact (Nat.mul_lt_mul_right (by decide)).symm
    · obtain ⟨_, ⟨frame, hereFrame, _, noUser⟩, ⟨code, hereCode, _, noUser'⟩, _⟩ := shaped
      rcases reserved with rfl | rfl
      · rwa [Option.some.inj (leaf.symm.trans hereFrame)]
      · rwa [Option.some.inj (leaf.symm.trans hereCode)]
    · exact rounded.trans_le bound
  · rcases perform_runs inv op running with ⟨message', _, failed', fault⟩ | ⟨_, _, ran, _⟩
    · obtain ⟨rfl, _⟩ := EStateM.Result.error.inj (failed'.symm.trans failed)
      exact fault
    · cases ran.symm.trans failed

end

theorem address_space_shape_booted : ∃ w, @Reachable linked w ∧ ∃ r, (w.task 0).pagetable = some r ∧
    (leafAt w.mem r (vpn 0) ≠ none ↔ (vpn 0).page * PGSIZE < PGROUNDUP (w.task 0).sz ∨ vpn 0 = vpn TRAPFRAME ∨
      vpn 0 = vpn TRAMPOLINE) := by
  let _ := linked
  obtain ⟨w, reachable, booted⟩ := booted_reachable fun _ _ => 0
  obtain ⟨r, here, _⟩ := booted.program
  exact ⟨w, reachable, r, here, ((address_space_shape w reachable).1 0 r here).2.1 (vpn 0)⟩

end Xv6.System.Memory
