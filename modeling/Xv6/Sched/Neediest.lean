import Xv6.Sched.Share

/-! Which process one policy-1 pass dispatches, whatever the other CPUs run. -/

namespace Xv6.Sched.Neediest
open Table Passes Share List

theorem resetLone_state (counter : Int) (k : Kernel) (i j : Slot) :
    ((resetLone counter k i).proc j).state = (k.proc j).state := by
  unfold resetLone
  split_ifs
  · dsimp only
    by_cases same : j = i
    · rw [same, Kernel.proc_modify_same]
    · rw [Kernel.proc_modify_other same]
  · rfl

/-- The pass switches to the foremost process if that one is RUNNABLE, and to nobody if it is RUNNING. -/
theorem psChoose_iff (k : Kernel) (i : Slot) :
    (psChoose k).1 = some i ↔ Foremost k i ∧ (k.proc i).state = .runnable := by
  rw [← minProc_iff]
  cases chosen : (psScan k slots).minProc with
  | none =>
    rw [psChoose_none k chosen]
    simp
  | some j =>
    rw [psChoose_some k j chosen, switchTo, resetLone_state]
    split_ifs with ready
    · exact ⟨fun same => ⟨same, Option.some.inj same ▸ ready⟩, And.left⟩
    · exact ⟨by rintro ⟨⟩, fun both => absurd (Option.some.inj both.1 ▸ both.2) ready⟩

section
variable (quantum : Kernel → Slot → Id Kernel)

theorem dispatched_iff (k : Kernel) (decay : Int) (policy : k.schedPolicy = 1) (i : Slot) :
    (schedulerPass quantum k decay).run.1.1 = [i] ↔ (psChoose k).1 = some i := by
  have pass : (schedulerPass quantum k decay).run.1 = (dispatch quantum (psChoose k)).run := by
    simp [schedulerPass, policy]
  rw [pass, dispatch]
  cases (psChoose k).1 with
  | none | some j => simp

/-- A pass of policy 1 dispatches one process, RUNNABLE and of least accumulator among those that are, exactly if the
first process of least accumulator among the RUNNABLE and the RUNNING ones is RUNNABLE. -/
theorem pass_dispatches_neediest_iff (k : Kernel) (decay : Int) (policy : k.schedPolicy = 1) :
    (∃ i, (schedulerPass quantum k decay).run.1.1 = [i] ∧ (k.proc i).state = .runnable ∧
        ∀ j, (k.proc j).state = .runnable → (k.proc i).accumulator ≤ (k.proc j).accumulator) ↔
      ∃ i, Foremost k i ∧ (k.proc i).state = .runnable := by
  constructor
  · rintro ⟨i, pass, _, _⟩
    exact ⟨i, (psChoose_iff k i).mp ((dispatched_iff quantum k decay policy i).mp pass)⟩
  · rintro ⟨i, foremost, ready⟩
    refine ⟨i, (dispatched_iff quantum k decay policy i).mpr ((psChoose_iff k i).mpr ⟨foremost, ready⟩), ready, ?_⟩
    exact fun j runnable => foremost.least j (mem_slots j) (Or.inl runnable)

end

def pair (first : Procstate) : Kernel where
  proc i := if i = 0 then { procinit with state := first } else
    if i = 1 then { procinit with state := .runnable, accumulator := 5 } else procinit
  nextpid := 3
  schedPolicy := 1
  minAccumulator := 0
  initproc := 0

theorem pair_foremost (first : Procstate) (active : first = .runnable ∨ first = .running) :
    Foremost (pair first) 0 where
  member := mem_slots 0
  ready := active
  small := by simp [pair, procinit, LLONG_MAX]
  least j _ _ := by
    simp only [pair]
    split_ifs <;> simp [procinit]
  first j _ below := absurd below (by simp)

theorem pass_dispatches_neediest_pair :
    (∃ i, (schedulerPass (fun k _ => (pure k : Id Kernel)) (pair .runnable) 100).run.1.1 = [i] ∧
      ((pair .runnable).proc i).state = .runnable ∧
      ∀ j, ((pair .runnable).proc j).state = .runnable →
        ((pair .runnable).proc i).accumulator ≤ ((pair .runnable).proc j).accumulator) :=
  (pass_dispatches_neediest_iff _ (pair .runnable) 100 rfl).mpr ⟨0, pair_foremost .runnable (Or.inl rfl), rfl⟩

/-- While the process with the least accumulator runs on another CPU, a process that waits is not dispatched. -/
theorem running_minimum_idles :
    ((pair .running).proc 1).state = .runnable ∧
      (schedulerPass (fun k _ => (pure k : Id Kernel)) (pair .running) 100).run.1.1 = [] := by
  have chosen := (minProc_iff (pair .running) 0).mpr (pair_foremost .running (Or.inr rfl))
  have nobody : (psChoose (pair .running)).1 = none := by
    rw [psChoose_some _ 0 chosen, switchTo, resetLone_state]
    rfl
  refine ⟨rfl, ?_⟩
  have pass : (schedulerPass (fun k _ => (pure k : Id Kernel)) (pair .running) 100).run.1 =
      (dispatch (fun k _ => (pure k : Id Kernel)) (psChoose (pair .running))).run := by
    simp [schedulerPass, pair]
  rw [pass, dispatch, nobody]
  rfl

end Xv6.Sched.Neediest
