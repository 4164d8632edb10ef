import Xv6.Lib.Budget
import Xv6.Vm.Walk

/-! How many free pages the operations of vm.c need at most. -/

namespace Xv6.Vm.Cost
open Lib.Exec Lib.Budget Memory Pagetable Option

def free (s : Mem) : Nat := s.freelist.length

theorem kalloc_costs : Costs free 1 kalloc (fun result => result ≠ none) := by
  intro s result s' enough ran
  unfold free at enough ⊢
  unfold kalloc at ran
  rw [bind_ok (get_ok s)] at ran
  cases list : s.freelist with
  | nil =>
    rw [list] at enough
    exact absurd enough (by decide)
  | cons x rest =>
    rw [list] at ran
    obtain ⟨rfl, rfl⟩ := EStateM.Result.ok.inj ran
    exact ⟨some_ne_none x, le_rfl⟩

theorem getPte_costs (table : Nat) (i : Fin 512) : Costs free 0 (getPte table i) (fun _ => True) :=
  Costs.bind 0 0 rfl Costs.get fun _ _ => Costs.pure _ _ _ trivial

theorem setPte_costs (table : Nat) (i : Fin 512) (pte : Nat) : Costs free 0 (setPte table i pte) (fun _ => True) :=
  Costs.change _ fun _ => le_rfl

theorem setPage_costs (x : Nat) (content : Mem → Page) :
    Costs free 0 (modify fun s => s.setPage x (content s) : VM PUnit) (fun _ => True) :=
  Costs.change _ fun _ => le_rfl

theorem zeroPage_costs (x : Nat) : Costs free 0 (zeroPage x) (fun _ => True) := setPage_costs x _

theorem walkLevel_costs (table : Nat) (i : Fin 512) :
    Costs free 1 (walkLevel table i true) (fun result => result ≠ none) := by
  unfold walkLevel
  refine Costs.bind 0 1 rfl (getPte_costs table i) fun pte _ => ?_
  rw [if_pos rfl]
  split
  · exact Costs.pure _ _ _ (some_ne_none _)
  · refine Costs.bind 1 0 rfl kalloc_costs fun result some => ?_
    cases result with
    | none => exact absurd rfl some
    | some x =>
      refine Costs.bind 0 0 rfl (zeroPage_costs x) fun _ _ => ?_
      refine Costs.bind 0 0 rfl (setPte_costs table i _) fun _ _ => ?_
      exact Costs.pure _ _ _ (some_ne_none _)

theorem walkLoop_costs (va level table : Nat) :
    Costs free level (walkLoop va true level table) (fun result => result ≠ none) := by
  induction level generalizing table with
  | zero => exact Costs.pure _ _ _ (some_ne_none _)
  | succ level ih =>
    refine Costs.bind 1 level (Nat.add_comm _ _) (walkLevel_costs table _) fun result some => ?_
    cases result with
    | none => exact absurd rfl some
    | some next => exact ih next

theorem walk_costs (r va : Nat) : Costs free 2 (walk r va true) (fun result => result ≠ none) := by
  unfold walk
  split
  · exact Costs.throw _ _ _
  · refine Costs.bind 2 0 rfl (walkLoop_costs va 2 r) fun result some => ?_
    cases result with
    | none => exact absurd rfl some
    | some table => exact Costs.pure _ _ _ (some_ne_none _)

theorem mappages_costs (r va x perm : Nat) (aligned : va % PGSIZE = 0) :
    Costs free 2 (mappages r va PGSIZE x perm) (fun ok => ok = true) := by
  rw [Walk.mappages_page r va x perm aligned]
  unfold mappagesLoop
  refine Costs.bind 2 0 rfl (walk_costs r va) fun result some => ?_
  cases result with
  | none => exact absurd rfl some
  | some pair =>
    refine Costs.bind 0 0 rfl (getPte_costs _ _) fun pte _ => ?_
    simp only
    split
    · exact Costs.throw _ _ _
    · exact Costs.bind 0 0 rfl (setPte_costs _ _ _) fun _ _ => Costs.pure _ _ _ rfl

theorem uvmcreate_costs : Costs free 1 uvmcreate (fun result => result ≠ none) := by
  unfold uvmcreate
  refine Costs.bind 1 0 rfl kalloc_costs fun result some => ?_
  cases result with
  | none => exact absurd rfl some
  | some x => exact Costs.bind 0 0 rfl (zeroPage_costs x) fun _ _ => Costs.pure _ _ _ (some_ne_none _)

theorem procPagetable_costs [Layout] (trapframe : Nat) :
    Costs free 5 (procPagetable trapframe) (fun result => result ≠ none) := by
  unfold procPagetable
  refine Costs.bind 1 4 rfl uvmcreate_costs fun result some => ?_
  cases result with
  | none => exact absurd rfl some
  | some r =>
    refine Costs.bind 2 2 rfl (mappages_costs r TRAMPOLINE _ _ (by decide)) fun ok mapped => ?_
    rw [mapped, if_pos rfl]
    refine Costs.bind 2 0 rfl (mappages_costs r TRAPFRAME _ _ (by decide)) fun ok mapped => ?_
    rw [mapped, if_pos rfl]
    exact Costs.pure _ _ _ (some_ne_none _)

theorem lookup_costs (r va : Nat) : Costs free 0 (walk r va false) (fun _ => True) := by
  intro s result s' _ ran
  by_cases bound : va < MAXVA
  · rw [Walk.walk_reads s r va bound] at ran
    obtain ⟨_, rfl⟩ := EStateM.Result.ok.inj ran
    exact ⟨trivial, le_rfl⟩
  · unfold walk at ran
    rw [if_pos (Nat.not_lt.mp bound)] at ran
    cases ran

theorem uvmcopyLoop_costs [Layout] (old new npages m : Nat) :
    Costs free (3 * npages) (uvmcopyLoop old new npages (m * PGSIZE)) (fun ok => ok = true) := by
  induction npages generalizing m with
  | zero => exact Costs.pure _ _ _ rfl
  | succ npages ih =>
    unfold uvmcopyLoop
    refine Costs.bind 0 (3 * (npages + 1)) (Nat.zero_add _) (lookup_costs old _) fun result _ => ?_
    cases result with
    | none => exact Costs.throw _ _ _
    | some pair =>
      refine Costs.bind 0 (3 * (npages + 1)) (Nat.zero_add _) (getPte_costs _ _) fun pte _ => ?_
      simp only
      split
      · exact Costs.throw _ _ _
      · refine Costs.bind 1 (2 + 3 * npages) (by ring) kalloc_costs fun page some => ?_
        cases page with
        | none => exact absurd rfl some
        | some x =>
          refine Costs.bind 0 (2 + 3 * npages) (Nat.zero_add _) (setPage_costs x _) fun _ _ => ?_
          refine Costs.bind 2 (3 * npages) rfl (mappages_costs new _ _ _ (Nat.mul_mod_left _ _)) fun ok mapped => ?_
          rw [mapped, if_pos rfl, show m * PGSIZE + PGSIZE = (m + 1) * PGSIZE by ring]
          exact ih (m + 1)

theorem uvmcopy_costs [Layout] (old new sz : Nat) :
    Costs free (3 * ((sz + PGSIZE - 1) / PGSIZE)) (uvmcopy old new sz) (fun ok => ok = true) := by
  have costs := uvmcopyLoop_costs old new ((sz + PGSIZE - 1) / PGSIZE) 0
  rwa [Nat.zero_mul] at costs

end Xv6.Vm.Cost
