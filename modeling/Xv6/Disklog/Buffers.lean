import Xv6.Disklog.Commit

/-! What the code of log.c does to the disk, one write list for each function,
for a cache whose buffers agree with the disk outside the logged blocks. -/

namespace Xv6.Disklog.Buffers
open Lib.Bytes Lib.Crash Commit Function List Option

def view (k : Kernel) (disk : Disk) (b : Blockno) : Block := (k.data b).getD (disk b)

def touch (k : Kernel) (disk : Disk) (b : Blockno) : Kernel :=
  (k.fill b (view k disk b)).setRef b (k.refcnt b + 1)

variable (k : Kernel) (disk : Disk) (b : Blockno)

@[simp] theorem view_setRef (count : Nat) : view (k.setRef b count) disk = view k disk := rfl

@[simp] theorem view_setHeader (lh : Logheader) : view (k.setHeader lh) disk = view k disk := rfl

@[simp] theorem view_fill (contents : Block) : view (k.fill b contents) disk = update (view k disk) b contents := by
  funext x
  by_cases same : x = b
  · subst same
    simp [view, Kernel.fill]
  · simp [view, Kernel.fill, same]

@[simp] theorem view_touch : view (touch k disk b) disk = view k disk := by
  simp only [touch, view_setRef, view_fill]
  exact update_eq_self b _

theorem bread_emits : Emits (bread b) k disk [] (view k disk b) (touch k disk b) := by
  unfold bread
  refine Emits.quiet (Emits.getMemory k disk) ?_
  cases cached : k.data b with
  | some contents =>
    have same : touch k disk b = k.setRef b (k.refcnt b + 1) := by
      have idle : k.fill b contents = k := by
        simp only [Kernel.fill, ← cached, update_eq_self]
      simp only [touch, view, cached, getD_some, idle]
    rw [same]
    have value : view k disk b = contents := by simp only [view, cached, getD_some]
    rw [value]
    exact Emits.quiet (Emits.modifyMemory _ k disk) (Emits.pure contents _ disk)
  | none =>
    have value : view k disk b = disk b := by simp only [view, cached, getD_none]
    rw [touch, value]
    exact Emits.quiet (Emits.diskRead b k disk)
      (Emits.quiet (Emits.modifyMemory _ k disk) (Emits.pure (disk b) _ disk))

theorem bwrite_emits (contents : Block)
    (cached : k.data b = some contents) : Emits (bwrite b) k disk [(b, contents)] () k := by
  unfold bwrite
  refine Emits.quiet (Emits.getMemory k disk) ?_
  simp only [cached]
  exact Emits.diskWrite b contents k disk

def logBlock (start : Blockno) (tail : Nat) : Blockno := start + BitVec.ofNat 32 tail + 1

def afterWriteBlock (k : Kernel) (disk : Disk) (tail : Nat) : Kernel :=
  let slot := logBlock k.log.start tail
  let home := k.log.lh.block tail
  let held := (touch (touch k disk slot) disk home).fill slot (view k disk home)
  let released := held.setRef home (held.refcnt home - 1)
  released.setRef slot (released.refcnt slot - 1)

theorem writeBlock_emits (tail : Nat) :
    Emits (writeBlock tail) k disk [(logBlock k.log.start tail, view k disk (k.log.lh.block tail))] ()
      (afterWriteBlock k disk tail) := by
  unfold writeBlock
  refine Emits.quiet (Emits.getMemory k disk) ?_
  refine Emits.quiet (bread_emits k disk (logBlock k.log.start tail)) ?_
  refine Emits.quiet (bread_emits _ disk (k.log.lh.block tail)) ?_
  rw [view_touch]
  refine Emits.quiet (Emits.modifyMemory _ _ disk) ?_
  refine Emits.bind (bwrite_emits _ disk (logBlock k.log.start tail) _ (update_self _ _ _)) ?_
  exact Emits.quiet (Emits.modifyMemory _ _ _) (Emits.modifyMemory _ _ _)

theorem log_afterWriteBlock (tail : Nat) : (afterWriteBlock k disk tail).log = k.log := rfl

theorem view_update_cached (contents old : Block)
    (cached : k.data b = some old) : view k (update disk b contents) = view k disk := by
  funext x
  by_cases same : x = b
  · subst same
    simp only [view, cached, getD_some]
  · simp only [view, update_of_ne same]

theorem view_afterWriteBlock (tail : Nat) :
    view (afterWriteBlock k disk tail)
        (update disk (logBlock k.log.start tail) (view k disk (k.log.lh.block tail))) =
      update (view k disk) (logBlock k.log.start tail) (view k disk (k.log.lh.block tail)) := by
  rw [view_update_cached _ disk _ _ (view k disk (k.log.lh.block tail)) (update_self _ _ _)]
  simp only [afterWriteBlock, view_setRef, view_fill, view_touch]

def afterInstallBlock (recovering : Bool) (k : Kernel) (disk : Disk) (tail : Nat) : Kernel :=
  let slot := logBlock k.log.start tail
  let home := k.log.lh.block tail
  let held := (touch (touch k disk slot) disk home).fill home (view k disk slot)
  let unpinned := if recovering then held else held.setRef home (held.refcnt home - 1)
  let released := unpinned.setRef slot (unpinned.refcnt slot - 1)
  released.setRef home (released.refcnt home - 1)

variable (recovering : Bool)

theorem installBlock_emits (k : Kernel) (disk : Disk) (tail : Nat) :
    Emits (installBlock recovering tail) k disk
      [(k.log.lh.block tail, view k disk (logBlock k.log.start tail))] ()
      (afterInstallBlock recovering k disk tail) := by
  unfold installBlock
  refine Emits.quiet (Emits.getMemory k disk) ?_
  refine Emits.quiet (bread_emits k disk (logBlock k.log.start tail)) ?_
  refine Emits.quiet (bread_emits _ disk (k.log.lh.block tail)) ?_
  refine Emits.quiet (Emits.modifyMemory _ _ disk) ?_
  refine Emits.bind (bwrite_emits _ disk (k.log.lh.block tail) _ (update_self _ _ _)) ?_
  cases recovering with
  | true =>
    exact Emits.quiet (Emits.modifyMemory _ _ _) (Emits.modifyMemory _ _ _)
  | false =>
    refine Emits.quiet (Emits.modifyMemory _ _ _) ?_
    exact Emits.quiet (Emits.modifyMemory _ _ _) (Emits.modifyMemory _ _ _)

theorem log_afterInstallBlock (k : Kernel) (disk : Disk) (tail : Nat) :
    (afterInstallBlock recovering k disk tail).log = k.log := by
  cases recovering <;> rfl

theorem view_afterInstallBlock (k : Kernel) (disk : Disk) (tail : Nat) :
    view (afterInstallBlock recovering k disk tail)
        (update disk (k.log.lh.block tail) (view k disk (logBlock k.log.start tail))) =
      update (view k disk) (k.log.lh.block tail) (view k disk (logBlock k.log.start tail)) := by
  have cached : (afterInstallBlock recovering k disk tail).data (k.log.lh.block tail) =
      some (view k disk (logBlock k.log.start tail)) := by
    cases recovering <;> exact update_self _ _ _
  rw [view_update_cached _ disk _ _ _ cached]
  cases recovering <;>
    simp only [afterInstallBlock, view_setRef, view_fill, view_touch, ↓reduceIte, Bool.false_eq_true]

def copies (dst src : Nat → Blockno) (contents : Disk) (count : Nat) : List (Blockno × Block) :=
  (List.range count).map fun i => (dst i, contents (src i))

theorem copies_succ (dst src : Nat → Blockno) (contents : Disk) (count : Nat) :
    copies dst src contents (count + 1) = copies dst src contents count ++ [(dst count, contents (src count))] := by
  simp [copies, range_succ]

theorem copies_untouched (dst src : Nat → Blockno) (contents disk : Disk) (count : Nat) (b : Blockno)
    (apart : ∀ i, i < count → dst i ≠ b) : replay (copies dst src contents count) disk b = disk b := by
  apply replay_untouched
  intro entry member
  obtain ⟨i, bound, rfl⟩ := mem_map.mp member
  exact apart i (mem_range.mp bound)

theorem copyLoop_emits (body : Nat → LogM Unit) (after : Kernel → Disk → Nat → Kernel)
    (log : Log) (dst src : Nat → Blockno)
    (step : ∀ k disk i, k.log = log → Emits (body i) k disk [(dst i, view k disk (src i))] () (after k disk i))
    (kept : ∀ k disk i, k.log = log → (after k disk i).log = log)
    (shown : ∀ k disk i, k.log = log → view (after k disk i) (update disk (dst i) (view k disk (src i))) =
      update (view k disk) (dst i) (view k disk (src i)))
    (k : Kernel) (disk : Disk) (started : k.log = log) (count : Nat)
    (apart : ∀ i j, i < count → j < count → dst i ≠ src j) :
    ∃ k', Emits (forM (List.range count) body) k disk (copies dst src (view k disk) count) () k' ∧
      k'.log = log ∧ view k' (replay (copies dst src (view k disk) count) disk) =
        replay (copies dst src (view k disk) count) (view k disk) := by
  induction count with
  | zero => exact ⟨k, Emits.pure () k disk, started, rfl⟩
  | succ count ih =>
    obtain ⟨k', run, log', views⟩ := ih (fun i j hi hj => apart i j (by omega) (by omega))
    have source : view k' (replay (copies dst src (view k disk) count) disk) (src count) =
        view k disk (src count) := by
      rw [views]
      exact copies_untouched dst src _ _ count _ (fun i bound => apart i count (by omega) (by omega))
    have last := step k' (replay (copies dst src (view k disk) count) disk) count log'
    have seen := shown k' (replay (copies dst src (view k disk) count) disk) count log'
    rw [source] at last seen
    refine ⟨_, ?_, kept k' (replay (copies dst src (view k disk) count) disk) count log', ?_⟩
    · rw [range_succ, forM_append, copies_succ]
      refine Emits.bind run ?_
      simpa using Emits.bind last (Emits.pure () _ _)
    · rw [copies_succ, replay_append, replay_append, ← views]
      exact seen

end Xv6.Disklog.Buffers
