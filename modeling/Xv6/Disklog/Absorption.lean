import Xv6.Disklog.Group

/-! Absorption in log_write, the pins of the logged buffers, and the contents that commit writes. -/

namespace Xv6.Disklog.Absorption
open Lib.Crash Commit Buffers Recovery Disklog.Group List
open Function (update update_apply update_of_ne update_self)

section Model

/-- What happens in a group of operations: a caller changes b->data and calls log_write, callers get and release buffers, and
bget takes a buffer without references for another block. -/
inductive Act where
  | write (outstanding : Int) (b : Blockno) (contents : Block)
  | bread (b : Blockno)
  | brelse (b : Blockno)
  | recycle (b : Blockno)

/-- The last two fields only watch: the references that callers of bread have, and the contents at the last log_write. -/
structure State where
  k : Kernel
  refs : Blockno → Nat
  last : Blockno → Option Block

/-- A step; none where the code panics or the caller has no reference. -/
def step (disk : Disk) (s : State) : Act → Option State
  | .write outstanding b contents =>
      (logWrite (s.k.fill b contents) outstanding b).toOption.map fun k =>
        { s with k, last := update s.last b (some contents) }
  | .bread b => some { s with k := touch s.k disk b, refs := update s.refs b (s.refs b + 1) }
  | .brelse b =>
      if 0 < s.refs b then
        some { s with k := s.k.setRef b (s.k.refcnt b - 1), refs := update s.refs b (s.refs b - 1) }
      else none
  | .recycle b =>
      if s.k.refcnt b = 0 then some { s with k := { s.k with data := update s.k.data b none } } else none

def start (k : Kernel) : State := ⟨k, k.refcnt, fun _ => none⟩

def commitUpto (count : Nat) : LogM Unit := do
  commitLog
  forM (List.range count) (installBlock false)

end Model

section Group

variable {s s' : State} {disk : Disk}

def pinned (lh : Logheader) (b : Blockno) : Nat := if b ∈ headerList lh then 1 else 0

structure Inv (s : State) : Prop where
  positive : 0 ≤ s.k.log.lh.n
  small : s.k.log.lh.n ≤ LOGSIZE
  nodup : (headerList s.k.log.lh).Nodup
  listed : ∀ b, b ∈ headerList s.k.log.lh ↔ s.last b ≠ none
  pins : ∀ b, s.k.refcnt b = s.refs b + pinned s.k.log.lh b
  dirty : ∀ b contents, s.last b = some contents → s.k.data b = some contents

theorem Inv.step (inv : Inv s) {a : Act} (taken : step disk s a = some s') : Inv s' := by
  cases a with
  | write outstanding b contents =>
    simp only [Absorption.step, Option.map_eq_some_iff] at taken
    obtain ⟨k, ok, rfl⟩ := taken
    have ran : logWrite (s.k.fill b contents) outstanding b = .ok k := by
      cases result : logWrite (s.k.fill b contents) outstanding b <;> rw [result] at ok <;> cases ok
      rfl
    obtain ⟨data, -, -, positive, header, refcnt⟩ := @logWrite_spec b (s.k.fill b contents) k outstanding inv.positive ran
    change headerList k.log.lh = if b ∈ headerList s.k.log.lh then headerList s.k.log.lh else headerList s.k.log.lh ++ [b] at header
    change k.refcnt = if b ∈ headerList s.k.log.lh then s.k.refcnt else update s.k.refcnt b (s.k.refcnt b + 1) at refcnt
    have small : k.log.lh.n ≤ LOGSIZE := by
      have room : s.k.log.lh.n < LOGSIZE := (@logWrite_room b (s.k.fill b contents) k outstanding ran).1
      have before := length_headerList s.k.log.lh
      have after := length_headerList k.log.lh
      have more : (headerList k.log.lh).length ≤ (headerList s.k.log.lh).length + 1 := by
        rw [header]
        split_ifs <;> simp
      have nonneg := inv.positive
      omega
    have last : ∀ x, update s.last b (some contents) x ≠ none ↔ x = b ∨ s.last x ≠ none := by
      intro x
      by_cases here : x = b <;> simp [here]
    have dirty : ∀ x c, update s.last b (some contents) x = some c → k.data x = some c := by
      intro x c written
      rw [data]
      by_cases here : x = b
      · rw [here, update_self] at written
        rw [here, ← written]
        exact update_self _ _ _
      · rw [update_of_ne here] at written
        exact (update_of_ne here _ _).trans (inv.dirty x c written)
    by_cases present : b ∈ headerList s.k.log.lh
    all_goals
      simp only [present, if_true, if_false] at header refcnt
      refine ⟨positive, small, ?_, fun x => ?_, fun x => ?_, dirty⟩
      all_goals dsimp only [pinned]
      all_goals rw [header]
    · exact inv.nodup
    · rw [last, ← inv.listed]
      exact ⟨.inr, fun either => either.elim (fun same => same ▸ present) id⟩
    · rw [refcnt]
      exact inv.pins x
    · exact nodup_append_comm.mp (nodup_cons.mpr ⟨present, inv.nodup⟩)
    · rw [last, ← inv.listed, mem_append, mem_singleton, or_comm]
    · have before := inv.pins x
      unfold pinned at before
      rw [refcnt, update_apply]
      by_cases here : x = b
      · simp only [here, if_neg present] at before
        simp [here, before]
      · simpa [here] using before
  | bread b =>
    cases taken
    refine ⟨inv.positive, inv.small, inv.nodup, inv.listed, fun x => ?_, fun x c written => ?_⟩
    · have before := inv.pins x
      simp only [touch, Kernel.setRef, Kernel.fill, update_apply]
      by_cases here : x = b
      · subst here
        simp only [if_true]
        omega
      · simpa only [if_neg here] using before
    · have cached := inv.dirty x c written
      by_cases here : x = b
      · subst here
        refine (update_self _ _ _).trans ?_
        rw [view, cached]
        rfl
      · exact (update_of_ne here _ _).trans cached
  | brelse b =>
    simp only [Absorption.step] at taken
    split_ifs at taken with held
    cases taken
    refine ⟨inv.positive, inv.small, inv.nodup, inv.listed, fun x => ?_, inv.dirty⟩
    have before := inv.pins x
    simp only [Kernel.setRef, update_apply]
    by_cases here : x = b
    · subst here
      simp only [if_true]
      omega
    · simpa only [if_neg here] using before
  | recycle b =>
    simp only [Absorption.step] at taken
    split_ifs at taken with free
    cases taken
    refine ⟨inv.positive, inv.small, inv.nodup, inv.listed, inv.pins, fun x c written => ?_⟩
    -- a pinned buffer is not without references
    have other : x ≠ b := by
      rintro rfl
      have count := inv.pins x
      rw [pinned, if_pos ((inv.listed x).mpr (by rw [written]; exact Option.some_ne_none c))] at count
      omega
    exact (update_of_ne other _ _).trans (inv.dirty x c written)

theorem Inv.start {k : Kernel} (empty : k.log.lh.n = 0) : Inv (start k) := by
  have none : headerList k.log.lh = [] := by rw [headerList, empty]; rfl
  refine ⟨empty.ge, ?_, ?_, fun b => ?_, fun b => ?_, by rintro _ _ ⟨⟩⟩
  all_goals simp only [Absorption.start]
  · rw [empty]
    decide
  · rw [none]
    exact nodup_nil
  · simp [none]
  · simp [pinned, none]

theorem Inv.run {acts : List Act} (inv : Inv s) (ran : acts.foldlM (Absorption.step disk) s = some s') : Inv s' := by
  induction acts generalizing s with
  | nil => exact Option.some.inj ran ▸ inv
  | cons a acts ih =>
    rw [foldlM_cons] at ran
    obtain ⟨s₁, taken, rest⟩ := Option.bind_eq_some_iff.mp ran
    exact ih (inv.step taken) rest

end Group

section Commit

variable (k : Kernel) (disk : Disk)

theorem refcnt_afterWriteBlock (tail : Nat) : (afterWriteBlock k disk tail).refcnt = k.refcnt := by
  funext b
  simp only [afterWriteBlock, touch, Kernel.setRef, Kernel.fill, update_apply]
  grind

theorem refcnt_afterWriteHead : (afterWriteHead k disk).refcnt = k.refcnt := by
  funext b
  simp only [afterWriteHead, touch, Kernel.setRef, Kernel.fill, update_apply]
  grind

theorem refcnt_afterInstallBlock (tail : Nat) (b : Blockno) :
    (afterInstallBlock false k disk tail).refcnt b = k.refcnt b - [k.log.lh.block tail].count b := by
  simp only [afterInstallBlock, touch, Kernel.setRef, Kernel.fill, update_apply, count_singleton, beq_iff_eq]
  grind

theorem writeLog_pins : ∃ writes k', Emits writeLog k disk writes () k' ∧ k'.log = k.log ∧ k'.refcnt = k.refcnt := by
  obtain ⟨writes, k', emits, same⟩ := loop_emits k disk writeBlock (fun _ k' => k'.log = k.log ∧ k'.refcnt = k.refcnt)
    ⟨rfl, rfl⟩ (fun k₁ disk i same => ⟨_, _, writeBlock_emits k₁ disk i, same.1,
      (refcnt_afterWriteBlock k₁ disk i).trans same.2⟩) k.log.lh.n.toNat
  exact ⟨writes, k', Emits.quiet (Emits.getMemory k disk) emits, same⟩

theorem install_pins (count : Nat) : ∃ writes k', Emits (forM (List.range count) (installBlock false)) k disk writes () k' ∧
    k'.log = k.log ∧ ∀ b, k'.refcnt b = k.refcnt b - ((List.range count).map k.log.lh.block).count b := by
  refine loop_emits k disk _ (fun i k' => k'.log = k.log ∧
    ∀ b, k'.refcnt b = k.refcnt b - ((List.range i).map k.log.lh.block).count b) ⟨rfl, fun _ => rfl⟩ ?_ count
  rintro k₁ disk i ⟨log, dropped⟩
  refine ⟨_, _, installBlock_emits false k₁ disk i, log, fun b => ?_⟩
  rw [refcnt_afterInstallBlock, dropped, log, range_succ, map_append, count_append, Nat.sub_sub]
  rfl

theorem commitUpto_pins (count : Nat) : ∃ k' disk', run (commitUpto count) k disk = .ok (k', disk') ∧
    ∀ b, k'.refcnt b = k.refcnt b - ((List.range count).map k.log.lh.block).count b := by
  obtain ⟨writes, k₁, emits, log, refcnt⟩ := writeLog_pins k disk
  have head := writeHead_emits k₁ (replay writes disk)
  obtain ⟨more, k₂, emits', -, dropped⟩ := install_pins (afterWriteHead k₁ (replay writes disk)) _ count
  refine ⟨k₂, _, run_emits k disk (Emits.bind (Emits.bind emits head) emits'), fun b => ?_⟩
  rw [dropped, refcnt_afterWriteHead, refcnt]
  rw [← log]
  rfl

theorem commit_pins : ∃ k' disk', run commit k disk = .ok (k', disk') ∧
    ∀ b, k'.refcnt b = k.refcnt b - (headerList k.log.lh).count b := by
  have first := Emits.getMemory k disk
  by_cases some : k.log.lh.n > 0
  · obtain ⟨writes, k₁, emits, log, refcnt⟩ := writeLog_pins k disk
    have head := writeHead_emits k₁ (replay writes disk)
    obtain ⟨more, k₂, emits', -, dropped⟩ := install_pins (afterWriteHead k₁ (replay writes disk))
      (replay [_] (replay writes disk)) k.log.lh.n.toNat
    have install : Emits (installTrans false) (afterWriteHead k₁ (replay writes disk)) _ more () k₂ :=
      Emits.quiet (Emits.getMemory _ _) (by rw [show (afterWriteHead k₁ (replay writes disk)).log = k.log from log]; exact emits')
    have all : Emits (do writeLog; writeHead; installTrans false; modifyMemory clearHeader; writeHead) k disk _ () _ :=
      Emits.bind emits (Emits.bind head (Emits.bind install
        (Emits.quiet (Emits.modifyMemory clearHeader k₂ _) (writeHead_emits (clearHeader k₂) _))))
    refine ⟨_, _, run_emits k disk (Emits.quiet first (by simp only [some, if_true]; exact all)), fun b => ?_⟩
    rw [refcnt_afterWriteHead]
    change k₂.refcnt b = _
    rw [dropped, refcnt_afterWriteHead, refcnt, headerList, ← log]
    rfl
  · have all : Emits commit k disk [] () k := by
      refine Emits.quiet first ?_
      simp only [some, if_false]
      exact Emits.pure () k disk
    refine ⟨_, _, run_emits k disk all, fun b => ?_⟩
    rw [headerList, Int.toNat_of_nonpos (not_lt.mp some)]
    rfl

theorem commit_contents {k : Kernel} {disk : Disk} (positive : 0 ≤ k.log.lh.n) (small : k.log.lh.n ≤ LOGSIZE)
    (nodup : (headerList k.log.lh).Nodup)
    (outside : ∀ b ∈ headerList k.log.lh, ∀ j ≤ k.log.lh.n.toNat, b ≠ k.log.start + BitVec.ofNat 32 j)
    (cached : ∀ b ∈ headerList k.log.lh, (k.data b).isSome) {k' : Kernel} {disk' : Disk}
    (ran : run commit k disk = .ok (k', disk')) {i : Nat} {b : Blockno} (here : (headerList k.log.lh)[i]? = some b) :
    disk' (logBlock k.log.start i) = view k disk b ∧ disk' b = view k disk b := by
  obtain ⟨t, start, -, blocks, staged⟩ := @exists_staged k disk (k.log.lh.n.toNat + 1) positive small (Nat.lt_succ_self _) nodup
    (fun b listed j inside => outside b listed j (Nat.le_of_lt_succ inside)) cached
  obtain ⟨inside, place⟩ := List.getElem?_eq_some_iff.mp here
  have bound : i < t.blocks.length := by
    rw [blocks, length_map]
    exact inside
  have listed : b ∈ headerList k.log.lh := place ▸ getElem_mem inside
  have contents : t.contents i = view k disk b := by
    simp [blocks, Transaction.contents, Function.comp_def, here]
  obtain ⟨k'', header, cleared, -, -, emits⟩ := commit_emits t k disk staged (Nat.zero_lt_of_lt bound)
  obtain ⟨-, rfl⟩ := Prod.mk.inj (Except.ok.inj (ran.symm.trans (run_emits k disk emits)))
  have home : b ≠ t.start := fun same => outside b listed 0 (Nat.zero_le _) (by simp [same, start])
  have slot := t.logBlock_ne_start i bound
  rw [← start, replay_append, replay, replay_append]
  refine ⟨(update_of_ne slot _ _).trans ?_, (update_of_ne home _ _).trans ?_⟩
  · have apart : ∀ entry ∈ t.blocks, entry.1 ≠ logBlock t.start i :=
      fun entry member => t.home_ne_logBlock _ (t.outside entry member) i bound
    rw [replay_untouched _ _ _ apart, update_of_ne slot, logWrites_slot t _ i bound, contents]
  · exact replay_listed _ _ t.distinct (b, view k disk b) (blocks ▸ mem_map_of_mem listed)

end Commit

/-- In a group of operations the header lists every block that was logged, once, and the buffer of a listed block has one
reference more than its callers have; install_trans drops these references one by one, so that after commit every buffer has the
references of its callers. The log and the home locations get the contents of the last log_write of each block. -/
theorem absorption_is_exact {k : Kernel} {disk : Disk} {acts : List Act} {s : State} (empty : k.log.lh.n = 0)
    (ran : acts.foldlM (step disk) (start k) = some s) :
    (headerList s.k.log.lh).Nodup ∧ (∀ b, b ∈ headerList s.k.log.lh ↔ s.last b ≠ none) ∧
    (∀ b, s.k.refcnt b = s.refs b + if b ∈ headerList s.k.log.lh then 1 else 0) ∧
    (∀ count ≤ s.k.log.lh.n.toNat, ∃ k' disk', run (commitUpto count) s.k disk = .ok (k', disk') ∧
      ∀ b, k'.refcnt b = s.refs b + if b ∈ (headerList s.k.log.lh).drop count then 1 else 0) ∧
    ∃ k' disk', run commit s.k disk = .ok (k', disk') ∧ k'.refcnt = s.refs ∧
      ((∀ b ∈ headerList s.k.log.lh, ∀ j ≤ s.k.log.lh.n.toNat, b ≠ s.k.log.start + BitVec.ofNat 32 j) →
        ∀ i b contents, (headerList s.k.log.lh)[i]? = some b → s.last b = some contents →
          disk' (logBlock s.k.log.start i) = contents ∧ disk' b = contents) := by
  have inv := (Inv.start empty).run ran
  have pins : ∀ b, s.k.refcnt b = s.refs b + (headerList s.k.log.lh).count b := by
    intro b
    rw [inv.pins, inv.nodup.count]
    rfl
  refine ⟨inv.nodup, inv.listed, inv.pins, fun count few => ?_, ?_⟩
  · obtain ⟨k', disk', done, dropped⟩ := commitUpto_pins s.k disk count
    refine ⟨k', disk', done, fun b => ?_⟩
    -- the rounds so far have dropped the pins of a first part of the list
    have parts := congrArg (List.count b) (take_append_drop count (headerList s.k.log.lh))
    have front : (List.range count).map s.k.log.lh.block = (headerList s.k.log.lh).take count := by
      rw [headerList, ← map_take, take_range, Nat.min_eq_left few]
    have rest : ((headerList s.k.log.lh).drop count).Nodup := inv.nodup.sublist (drop_sublist _ _)
    rw [count_append, rest.count] at parts
    rw [dropped, pins, front]
    omega
  · obtain ⟨k', disk', done, dropped⟩ := commit_pins s.k disk
    refine ⟨k', disk', done, funext fun b => ?_, fun outside i b contents here written => ?_⟩
    · rw [dropped, pins, Nat.add_sub_cancel]
    · have cached := inv.dirty b contents written
      have value : view s.k disk b = contents := by rw [view, cached]; rfl
      rw [← value]
      refine commit_contents inv.positive inv.small inv.nodup outside (fun x listed => ?_) done here
      obtain ⟨c, last⟩ := Option.ne_none_iff_exists'.mp ((inv.listed x).mp listed)
      rw [inv.dirty x c last]
      rfl

/-- A block is logged twice, with another one between; the caller releases its buffer before the commit. -/
def twice (disk : Disk) : Option State :=
  [.bread 50, .write 1 50 (fun _ => 1), .bread 51, .write 1 51 (fun _ => 2), .write 1 50 (fun _ => 3), .brelse 50].foldlM
    (step disk) (start ⟨fun _ => none, fun _ => 0, ⟨2, 30, ⟨0, fun _ => 0⟩⟩⟩)

theorem absorption_is_exact_twice : ∃ s, twice (fun _ _ => 0) = some s ∧ s.k.refcnt 50 = 1 ∧
    ∃ k' disk', run commit s.k (fun _ _ => 0) = .ok (k', disk') ∧ k'.refcnt 50 = 0 ∧ k'.refcnt 51 = 1 ∧
      disk' 3 = (fun _ => 3) ∧ disk' 50 = fun _ => 3 := by
  obtain ⟨s, ran⟩ : ∃ s, twice (fun _ _ => 0) = some s := ⟨_, rfl⟩
  obtain ⟨-, -, pins, -, k', disk', done, refs, contents⟩ := absorption_is_exact rfl ran
  cases ran
  refine ⟨_, rfl, pins 50, k', disk', done, congrFun refs 50, congrFun refs 51, contents ?_ 0 50 _ rfl rfl⟩
  intro b listed j few
  change b ∈ [50, 51] at listed
  change j ≤ 2 at few
  rw [mem_pair] at listed
  interval_cases j <;> rcases listed with rfl | rfl <;> decide

end Xv6.Disklog.Absorption
