import Xv6.System.Safe

/-! The system calls on descriptors: closing the last end of a pipe is where they meet memory. -/

namespace Xv6.System.Descriptors
open Lib.Ownership Lib.Exec Lib.Bytes Sched.Table Sched.Lifecycle Function
open Vm Vm.Memory Vm.Pagetable Vm.Space Vm.Shape Vm.Copy Vm.UserMem Vm.Pages
open Ftable Calls Safe

def left (p : Proc) : Buffer 32 × Int := (p.exitMsg, p.xstate)

/-- A slot keeps being unused, and keeps being a zombie; nobody sets a message or a status. -/
structure Alive (p q : Proc) : Prop where
  unused : q.state = .unused ↔ p.state = .unused
  zombie : q.state = .zombie ↔ p.state = .zombie
  left : left q = left p

variable {p q : Proc}

theorem Alive.message (alive : Alive p q) : q.exitMsg = p.exitMsg := congrArg Prod.fst alive.left

instance : IsPreorder Proc Alive where
  refl _ := ⟨Iff.rfl, Iff.rfl, rfl⟩
  trans _ _ _ first second := ⟨second.unused.trans first.unused, second.zombie.trans first.zombie,
    second.left.trans first.left⟩

theorem alive_of_live (before : p.state ≠ .unused ∧ p.state ≠ .zombie)
    (after : q.state ≠ .unused ∧ q.state ≠ .zombie) (same : left q = left p) : Alive p q :=
  ⟨iff_of_false after.1 before.1, iff_of_false after.2 before.2, same⟩

theorem alive_of_state (same : q.state = p.state) (kept : left q = left p) : Alive p q :=
  ⟨by rw [same], by rw [same], kept⟩

/-- A zombie has been reaped, or it is there with what it left. -/
def Settled (p q : Proc) : Prop := p.state = .zombie → q.state = .unused ∨ (q.state = .zombie ∧ left q = left p)

theorem settled_of_alive (alive : Alive p q) : Settled p q :=
  fun gone => Or.inr ⟨alive.zombie.mpr gone, alive.left⟩

theorem alive_wakeup (p : Proc) (chan : Option Chan) (minAccumulator : Int) : Alive p (p.wakeup chan minAccumulator) := by
  unfold Proc.wakeup
  split
  · rename_i asleep
    refine alive_of_live ?_ (by simp) rfl
    rw [asleep.1]
    decide
  · exact refl_of Alive p

variable (k : Kernel) (self : Option Slot)

theorem wakeup_alive (chan : Option Chan) : Kernel.Each Alive k (k.wakeup self chan) := by
  intro i
  simp only [Kernel.wakeup, Kernel.proc_mapProcs]
  split
  · exact refl_of Alive _
  · exact alive_wakeup _ _ _

theorem wakeup_running (chan : Option Chan) (i : Slot)
    (running : (k.proc i).state = .running) : ((k.wakeup self chan).proc i).state = .running := by
  simp only [Kernel.wakeup, Kernel.proc_mapProcs, Proc.wakeup, running]
  simp [running]

/-- The process table has at most seen sleepers woken up. -/
structure Quiet (k k' : Kernel) : Prop where
  alive : Kernel.Each Alive k k'
  running : ∀ i, (k.proc i).state = .running → (k'.proc i).state = .running
  init : k'.initproc = k.initproc
  reachable : Reachable k → Reachable k'

theorem Quiet.refl : Quiet k k := ⟨Kernel.Each.refl k, fun _ => id, rfl, id⟩

theorem Quiet.trans {k k' k'' : Kernel} (first : Quiet k k') (second : Quiet k' k'') : Quiet k k'' :=
  ⟨first.alive.trans second.alive, fun i => second.running i ∘ first.running i, second.init.trans first.init,
    second.reachable ∘ first.reachable⟩

theorem quiet_wakeup (chan : Chan) : Quiet k (k.wakeup self (some chan)) where
  alive := wakeup_alive k self (some chan)
  running := wakeup_running k self (some chan)
  init := rfl
  reachable before := .step k _ (.wakeup self chan) before nofun rfl

theorem ofile_setFd_other {t : Files} {i j : Slot} {fd fd' : Fd} {f : Option FileId} (different : j ≠ i) :
    (t.setFd i fd f).ofile (j, fd') = t.ofile (j, fd') :=
  update_of_ne (fun same => different (Prod.mk.inj same).1) _ _

theorem dupFds_idle (w : World) (p np : Slot) (closed : ∀ fd, w.files.ofile (p, fd) = none) :
    forM (List.finRange NOFILE) (dupFd p np) w = .ok () w := by
  refine forM_idle _ _ w fun fd => ?_
  unfold dupFd
  rw [bind_ok (get_ok w), closed fd]
  rfl

section
variable [Layout]

/-- The world after operations on files: memory, files and sleepers have changed. -/
structure Filed (w : World) (hand : List Nat) (extra : FileId → Nat) (w' : World) : Prop where
  kept : Kept w' hand none
  files : w'.files.Ok extra
  quiet : Quiet w.table w'.table
  task : w'.task = w.task

variable {w : World} {hand : List Nat} {extra : FileId → Nat}

theorem Filed.trans {w' w'' : World} {hand' : List Nat} {extra' : FileId → Nat} (first : Filed w hand extra w')
    (second : Filed w' hand' extra' w'') : Filed w hand' extra' w'' :=
  ⟨second.kept, second.files, first.quiet.trans second.quiet, second.task.trans first.task⟩

theorem kept_setFiles (t : Files) (kept : Kept w hand none) (pipes : ∀ x, t.Piped x ↔ w.files.Piped x) :
    Kept { w with files := t } hand none :=
  kept_of_sound kept ⟨rfl, rfl⟩ rfl (fun _ => ⟨rfl, rfl, fun _ => rfl⟩) ⟨rfl, rfl⟩ pipes

theorem freePipe_ends {g : Holders} {sz : Slot → Nat} (t : Files) (sound : Sound g sz w.mem) (free : Option Nat)
    (here : ∀ x, free = some x → g.pipe x) (pipes : ∀ x, t.Piped x ↔ g.pipe x ∧ free ≠ some x) :
    Ends (freePage free) w (fun _ w' => ∃ s, w' = { w with mem := s } ∧ Sound { g with pipe := t.Piped } sz s) := by
  cases free with
  | none =>
    refine Ends.pure ⟨w.mem, rfl, ?_⟩
    have same : t.Piped = g.pipe := funext fun x => propext (by simpa using pipes x)
    rw [same]
    exact sound
  | some x =>
    have taken := sound.takePipe t.Piped (here x rfl) (fun y => by
      rw [pipes y]
      simp [eq_comm])
    apply Ends.weaken (freePage_ends taken x g.hand rfl)
    rintro _ w' ⟨s, rfl, freed, _⟩
    exact ⟨s, rfl, freed⟩

variable (self : Slot)

theorem closeFile_run (f : FileId) (closing : Files.Closing) (t : Files)
    (closed : w.files.fileclose f = .ok (closing, t)) (kept : Kept w hand none)
    (freed : ∀ x, closing.free = some x → w.files.Piped x)
    (piped : ∀ x, t.Piped x ↔ w.files.Piped x ∧ closing.free ≠ some x) :
    Ends (closeFile self f) w (fun _ w' => w'.files = t ∧ w'.task = w.task ∧ Quiet w.table w'.table ∧
      Kept w' hand none) := by
  unfold closeFile
  apply Ends.after (get_ok w)
  rw [closed]
  apply Ends.after (modify_ok _ w)
  have wake : ∃ k, Quiet w.table k ∧
      wakeSleepers self closing.wake { w with files := t } = .ok () { w with files := t, table := k } := by
    cases closing.wake with
    | none => exact ⟨w.table, Quiet.refl _, rfl⟩
    | some chan => exact ⟨_, quiet_wakeup w.table (some self) chan, rfl⟩
  obtain ⟨k, quiet, woken⟩ := wake
  apply Ends.after woken
  apply Ends.weaken (freePipe_ends (w := { w with files := t, table := k }) t kept closing.free freed piped)
  rintro _ w' ⟨s, rfl, sound⟩
  refine ⟨rfl, rfl, quiet, ?_⟩
  exact kept_of_sound sound ⟨rfl, rfl⟩ rfl (fun _ => ⟨rfl, rfl, fun _ => rfl⟩) ⟨rfl, rfl⟩ (fun _ => Iff.rfl)

theorem closeFile_ends (f : FileId) (kept : Kept w hand none) (ok : w.files.Ok (Files.holding extra f)) :
    Ends (closeFile self f) w (fun _ w' => Filed w hand extra w' ∧ w'.files.ofile = w.files.ofile) := by
  obtain ⟨closing, t, closed, dropped⟩ := ok.fileclose
  apply Ends.weaken (closeFile_run self f closing t closed kept dropped.freed dropped.piped)
  rintro _ w' ⟨files, task, quiet, kept'⟩
  refine ⟨⟨kept', ?_, quiet, task⟩, ?_⟩
  · rw [files]
    exact dropped.ok
  · rw [files]
    exact dropped.ofile

theorem filed_setFiles (t : Files) (kept : Kept w hand none) (ok : t.Ok extra)
    (pipes : ∀ x, t.Piped x ↔ w.files.Piped x) : Filed w hand extra { w with files := t } :=
  ⟨kept_setFiles t kept pipes, ok, Quiet.refl _, rfl⟩

/-- What an operation leaves: it is also one of the process table, or none. -/
structure Next (w w' : World) : Prop where
  inv : Inv w'
  settled : Kernel.Each Settled w.table w'.table
  table : Reachable w.table → Reachable w'.table

theorem next_mem (inv : Inv w) (s : Mem) (kept : Kept { w with mem := s } [] none) : Next w { w with mem := s } :=
  ⟨⟨kept, inv.files, inv.idle, inv.bare, inv.closed⟩, fun i => settled_of_alive (refl_of Alive (w.table.proc i)), id⟩

theorem Next.refl (inv : Inv w) : Next w w := next_mem inv w.mem inv.sound

theorem next_slot {w' : World} (inv : Inv w) (p : Slot) (kept : Kept w' [] none) (files : w'.files.Ok 0)
    (others : ∀ i, i ≠ p → Alive (w.table.proc i) (w'.table.proc i) ∧ w'.task i = w.task i ∧
      ∀ fd, w'.files.ofile (i, fd) = w.files.ofile (i, fd))
    (idle : (w'.table.proc p).state = .unused ↔ (w'.task p).pagetable = none)
    (bare : (w'.task p).pagetable = none → (w'.task p).trapframe = none ∧ (w'.task p).sz = 0)
    (closed : (w'.table.proc p).state = .unused ∨ (w'.table.proc p).state = .zombie →
      ∀ fd, w'.files.ofile (p, fd) = none)
    (own : Settled (w.table.proc p) (w'.table.proc p)) (table : Reachable w.table → Reachable w'.table) : Next w w' := by
  refine ⟨⟨kept, files, fun i => ?_, fun i => ?_, fun i => ?_⟩, fun i => ?_, table⟩
  · by_cases same : i = p
    · rw [same]
      exact idle
    · obtain ⟨alive, task, _⟩ := others i same
      rw [alive.unused, task]
      exact inv.idle i
  · by_cases same : i = p
    · rw [same]
      exact bare
    · rw [(others i same).2.1]
      exact inv.bare i
  · by_cases same : i = p
    · rw [same]
      exact closed
    · obtain ⟨alive, _, ofile⟩ := others i same
      rw [alive.unused, alive.zombie]
      intro gone fd
      rw [ofile]
      exact inv.closed i gone fd
  · by_cases same : i = p
    · rw [same]
      exact own
    · exact settled_of_alive (others i same).1

theorem filed_next {w' : World} (inv : Inv w) (filed : Filed w [] 0 w') (p : Slot)
    (running : (w.table.proc p).state = .running)
    (others : ∀ i fd, i ≠ p → w'.files.ofile (i, fd) = w.files.ofile (i, fd)) : Next w w' := by
  have still := filed.quiet.running p running
  refine next_slot inv p filed.kept filed.files (fun i other => ⟨filed.quiet.alive i, by rw [filed.task], fun fd =>
    others i fd other⟩) ?_ ?_ ?_ (settled_of_alive (filed.quiet.alive p)) filed.quiet.reachable
  · rw [(filed.quiet.alive p).unused, filed.task]
    exact inv.idle p
  · rw [filed.task]
    exact inv.bare p
  · rw [still]
    rintro (impossible | impossible) <;> cases impossible

theorem sysClose_ends (inv : Inv w) (p : Slot) (fd : Int)
    (running : (w.table.proc p).state = .running) :
    Ends (sysClose p fd) w (fun _ w' => Next w w') := by
  unfold sysClose
  apply Ends.after (get_ok w)
  by_cases bound : 0 ≤ fd ∧ fd.toNat < NOFILE
  · rw [dif_pos bound]
    cases here : w.files.ofile (p, ⟨fd.toNat, bound.2⟩) with
    | none => exact Ends.pure (Next.refl inv)
    | some f =>
      have cleared := filed_setFiles (w.files.setFd p ⟨fd.toNat, bound.2⟩ none) inv.sound (inv.files.clearFd p _ f here)
        (fun _ => Iff.rfl)
      apply Ends.after (modify_ok _ w)
      refine Ends.bind (closeFile_ends p f cleared.kept cleared.files) ?_
      rintro _ w' ⟨filed, ofile⟩
      refine Ends.pure (filed_next inv (cleared.trans filed) p running fun i fd' other => ?_)
      rw [ofile]
      exact ofile_setFd_other other
  · rw [dif_neg bound]
    exact Ends.pure (Next.refl inv)

variable (p : Slot)

theorem closeFd_ends (fd : Fd) (kept : Kept w hand none) (ok : w.files.Ok extra) :
    Ends (closeFd p fd) w (fun _ w' => Filed w hand extra w' ∧ w'.files.ofile = (w.files.setFd p fd none).ofile) := by
  unfold closeFd
  apply Ends.after (get_ok w)
  cases here : w.files.ofile (p, fd) with
  | none =>
    refine Ends.pure ⟨⟨kept, ok, Quiet.refl _, rfl⟩, ?_⟩
    exact (update_eq_self_iff.mpr here.symm).symm
  | some f =>
    -- The descriptor still points to the file while it is closed, so the counts are taken without it.
    obtain ⟨closing, t, closed, dropped⟩ := (ok.clearFd p fd f here).fileclose
    rw [Files.fileclose_setFd] at closed
    cases first : w.files.fileclose f with
    | error message =>
      rw [first] at closed
      cases closed
    | ok result =>
      obtain ⟨closing', t'⟩ := result
      rw [first] at closed
      obtain ⟨rfl, rfl⟩ := Prod.mk.inj (Except.ok.inj closed)
      refine Ends.bind (closeFile_run p f closing' t' first kept dropped.freed dropped.piped) ?_
      rintro _ w' ⟨rfl, task, quiet, kept'⟩
      apply Ends.after (get_ok w')
      refine ⟨(), _, rfl, ⟨kept_setFiles _ kept' (fun _ => Iff.rfl), dropped.ok, quiet, task⟩, ?_⟩
      exact dropped.ofile

theorem closeFds_ends (kept : Kept w hand none) (ok : w.files.Ok extra) :
    Ends (forM (List.finRange NOFILE) (closeFd p)) w (fun _ w' => Filed w hand extra w' ∧
      (∀ fd, w'.files.ofile (p, fd) = none) ∧ ∀ i fd, i ≠ p → w'.files.ofile (i, fd) = w.files.ofile (i, fd)) := by
  let inv (rest : List Fd) (w' : World) : Prop := Filed w hand extra w' ∧
    (∀ fd, fd ∉ rest → w'.files.ofile (p, fd) = none) ∧ ∀ i fd, i ≠ p → w'.files.ofile (i, fd) = w.files.ofile (i, fd)
  have start : inv (List.finRange NOFILE) w :=
    ⟨⟨kept, ok, Quiet.refl _, rfl⟩, fun fd absent => absurd (List.mem_finRange fd) absent, fun _ _ _ => rfl⟩
  apply Ends.weaken (Ends.forM _ _ inv w start ?_)
  · rintro _ w' ⟨filed, closed, others⟩
    exact ⟨filed, fun fd => closed fd (by simp), others⟩
  rintro fd rest w₁ ⟨filed, closed, others⟩
  apply Ends.weaken (closeFd_ends p fd filed.kept filed.files)
  rintro _ w₂ ⟨filed', ofile⟩
  refine ⟨filed.trans filed', fun fd' absent => ?_, fun i fd' other => ?_⟩
  · rw [ofile]
    by_cases same : fd' = fd
    · rw [same]
      exact update_self _ _ _
    · refine (update_of_ne (fun equal => same (Prod.mk.inj equal).2) _ _).trans (closed fd' ?_)
      simp [same, absent]
  · rw [ofile, ofile_setFd_other other]
    exact others i fd' other

theorem dupFd_ends (p np : Slot) (fd : Fd) (kept : Kept w hand none) (ok : w.files.Ok extra)
    (free : w.files.ofile (np, fd) = none) :
    Ends (dupFd p np fd) w (fun _ w' => Filed w hand extra w' ∧ w' = { w with files := w'.files } ∧
      w'.files.ofile = (w.files.setFd np fd (w.files.ofile (p, fd))).ofile) := by
  unfold dupFd
  apply Ends.after (get_ok w)
  cases here : w.files.ofile (p, fd) with
  | none =>
    refine Ends.pure ⟨⟨kept, ok, Quiet.refl _, rfl⟩, rfl, ?_⟩
    exact (update_eq_self_iff.mpr free.symm).symm
  | some f =>
    obtain ⟨t, dup, ok', ofile, pipes⟩ := ok.filedup p fd f here
    simp only [dup]
    have set := ok'.setFd np fd (by rw [ofile]; exact free)
    refine ⟨(), _, rfl, filed_setFiles _ kept set pipes, rfl, ?_⟩
    simp only [Files.setFd, ofile]

theorem dupFds_ends (p np : Slot) (different : p ≠ np) (kept : Kept w hand none) (ok : w.files.Ok extra)
    (free : ∀ fd, w.files.ofile (np, fd) = none) :
    Ends (forM (List.finRange NOFILE) (dupFd p np)) w (fun _ w' => Filed w hand extra w' ∧ w' = { w with files := w'.files } ∧
      (∀ fd, w'.files.ofile (np, fd) = w.files.ofile (p, fd)) ∧
        ∀ i fd, i ≠ np → w'.files.ofile (i, fd) = w.files.ofile (i, fd)) := by
  let inv (rest : List Fd) (w' : World) : Prop := rest.Nodup ∧ Filed w hand extra w' ∧ w' = { w with files := w'.files } ∧
    (∀ fd, w'.files.ofile (np, fd) = if fd ∈ rest then none else w.files.ofile (p, fd)) ∧
      ∀ i fd, i ≠ np → w'.files.ofile (i, fd) = w.files.ofile (i, fd)
  have start : inv (List.finRange NOFILE) w :=
    ⟨List.nodup_finRange _, ⟨kept, ok, Quiet.refl _, rfl⟩, rfl, fun fd => by simp [free fd], fun _ _ _ => rfl⟩
  apply Ends.weaken (Ends.forM _ _ inv w start ?_)
  · rintro _ w' ⟨_, filed, same, copied, others⟩
    exact ⟨filed, same, fun fd => by simpa using copied fd, others⟩
  rintro fd rest w₁ ⟨nodup, filed, same, copied, others⟩
  obtain ⟨absent, nodup'⟩ := List.nodup_cons.mp nodup
  have empty : w₁.files.ofile (np, fd) = none := by simpa using copied fd
  apply Ends.weaken (dupFd_ends p np fd filed.kept filed.files empty)
  rintro _ w₂ ⟨filed', same', ofile⟩
  refine ⟨nodup', filed.trans filed', ?_, fun fd' => ?_, fun i fd' other => ?_⟩
  · rw [same', same]
  · rw [ofile]
    by_cases same : fd' = fd
    · subst same
      rw [if_neg absent, ← others p fd' different]
      exact update_self _ _ _
    · refine (update_of_ne (fun equal => same (Prod.mk.inj equal).2) _ _).trans ?_
      rw [copied fd']
      simp [same]
  · rw [ofile, ofile_setFd_other other]
    exact others i fd' other

theorem closeFds_idle (closed : ∀ fd, w.files.ofile (p, fd) = none) :
    forM (List.finRange NOFILE) (closeFd p) w = .ok () w := by
  refine forM_idle _ _ w fun fd => ?_
  unfold closeFd
  rw [bind_ok (get_ok w), closed fd]
  rfl

theorem sysDup_ends (inv : Inv w) (p : Slot) (fd : Int)
    (running : (w.table.proc p).state = .running) :
    Ends (sysDup p fd) w (fun _ w' => Next w w') := by
  unfold sysDup
  apply Ends.after (get_ok w)
  by_cases bound : 0 ≤ fd ∧ fd.toNat < NOFILE
  · rw [dif_pos bound]
    cases here : w.files.ofile (p, ⟨fd.toNat, bound.2⟩) with
    | none => exact Ends.pure (Next.refl inv)
    | some f =>
      simp only
      cases found : w.files.fdalloc p f with
      | mk slot t =>
        cases slot with
        | none => exact Ends.pure (Next.refl inv)
        | some fd' =>
          obtain ⟨free, rfl⟩ := Files.fdalloc_some p f fd' t found
          obtain ⟨t', dup, ok, ofile, pipes⟩ := inv.files.filedup p _ f here
          have set := ok.setFd p fd' (by rw [ofile]; exact free)
          simp only [Files.filedup_setFd, dup, Except.map]
          refine ⟨some fd', _, rfl, filed_next inv (filed_setFiles _ inv.sound set pipes) p running fun i fd'' other => ?_⟩
          refine (ofile_setFd_other other).trans ?_
          rw [ofile]
  · rw [dif_neg bound]
    exact Ends.pure (Next.refl inv)

theorem openFile_ends (inv : Inv w) (p : Slot) (device readable writable : Bool)
    (running : (w.table.proc p).state = .running) :
    Ends (openFile p device readable writable) w (fun _ w' => Next w w') := by
  unfold openFile
  apply Ends.after (get_ok w)
  cases alloc : w.files.filealloc with
  | mk file t =>
    cases file with
    | none => exact Ends.pure (Next.refl inv)
    | some f =>
      obtain ⟨ok, ofile, pipes, _, bare⟩ := inv.files.filealloc f t alloc
      have filed := filed_setFiles t inv.sound ok pipes
      apply Ends.after (modify_ok _ w)
      cases found : t.fdalloc p f with
      | mk slot t' =>
        cases slot with
        | none =>
          refine Ends.bind (closeFile_ends p f filed.kept filed.files) ?_
          rintro _ w' ⟨filed', ofile'⟩
          refine Ends.pure (filed_next inv (filed.trans filed') p running fun i fd other => ?_)
          rw [ofile']
          exact congrFun ofile (i, fd)
        | some fd =>
          obtain ⟨free, rfl⟩ := Files.fdalloc_some p f fd t' found
          have used : 0 < (t.ftable f).ref := by
            rw [ok.counts f]
            simp [Files.holding]
          obtain ⟨ok', pipes'⟩ := (ok.setFd p fd free).setKind f (if device then .device else .inode) readable writable
            bare used (fun page => by cases device <;> simp)
          refine ⟨some fd, _, rfl, filed_next inv (filed_setFiles _ inv.sound ok' fun x => ?_) p running fun i fd' other => ?_⟩
          · exact (pipes' x).trans (pipes x)
          · exact (ofile_setFd_other other).trans (congrFun ofile (i, fd'))

theorem closeBoth_ends (rf wf : FileId) (different : rf ≠ wf) (kept : Kept w hand none)
    (ok : w.files.Ok (Files.holding (Files.holding extra rf) wf)) {A : Type} (result : A) :
    Ends (do closeFile self rf; closeFile self wf; pure result) w (fun a w' => a = result ∧ Filed w hand extra w' ∧
      w'.files.ofile = w.files.ofile) := by
  rw [Files.holding_comm _ _ _ different] at ok
  refine Ends.bind (closeFile_ends self rf kept ok) ?_
  rintro _ w₁ ⟨filed, ofile⟩
  refine Ends.bind (closeFile_ends self wf filed.kept filed.files) ?_
  rintro _ w₂ ⟨filed', ofile'⟩
  exact Ends.pure ⟨rfl, filed.trans filed', ofile'.trans ofile⟩

theorem pipealloc_ends (kept : Kept w hand none) (ok : w.files.Ok extra) :
    Ends (pipealloc self) w (fun result w' => w'.files.ofile = w.files.ofile ∧
      ((result = none ∧ Filed w hand extra w') ∨ ∃ rf wf, result = some (rf, wf) ∧ rf ≠ wf ∧
        Filed w hand (Files.holding (Files.holding extra rf) wf) w')) := by
  unfold pipealloc
  apply Ends.after (get_ok w)
  cases first : w.files.filealloc with
  | mk file t =>
    cases file with
    | none => exact Ends.pure ⟨rfl, Or.inl ⟨rfl, kept, ok, Quiet.refl _, rfl⟩⟩
    | some rf =>
      obtain ⟨ok₁, ofile₁, pipes₁, _, bare₁⟩ := ok.filealloc rf t first
      have filed₁ := filed_setFiles t kept ok₁ pipes₁
      have used₁ : 0 < (t.ftable rf).ref := by
        rw [ok₁.counts rf]
        simp [Files.holding]
      apply Ends.after (modify_ok _ w)
      cases second : t.filealloc with
      | mk file t' =>
        cases file with
        | none =>
          refine Ends.bind (closeFile_ends self rf filed₁.kept filed₁.files) ?_
          rintro _ w' ⟨filed', ofile'⟩
          exact Ends.pure ⟨ofile'.trans ofile₁, Or.inl ⟨rfl, filed₁.trans filed'⟩⟩
        | some wf =>
          obtain ⟨ok₂, ofile₂, pipes₂, _, bare₂⟩ := ok₁.filealloc wf t' second
          obtain ⟨idle, same⟩ := Files.filealloc_some wf t' second
          have different : rf ≠ wf := by
            rintro rfl
            omega
          have filed₂ : Filed w hand (Files.holding (Files.holding extra rf) wf) { w with files := t' } :=
            filed_setFiles t' kept ok₂ fun x => (pipes₂ x).trans (pipes₁ x)
          apply Ends.after (modify_ok _ _)
          refine Ends.bind (onMem_ends (kalloc_sound filed₂.kept)) ?_
          rintro result _ ⟨s, rfl, ⟨rfl, rfl, _⟩ | ⟨x, rfl, sound, _, _, _⟩⟩
          · apply Ends.weaken (closeBoth_ends self rf wf different filed₂.kept filed₂.files none)
            rintro _ w' ⟨rfl, filed', ofile'⟩
            exact ⟨ofile'.trans (ofile₂.trans ofile₁), Or.inl ⟨rfl, filed₂.trans filed'⟩⟩
          · have rfKept : t'.ftable rf = t.ftable rf := by
              rw [same, Files.ftable_setFile_other different]
            have used₂ : 0 < (t'.ftable wf).ref := by
              rw [ok₂.counts wf]
              simp [Files.holding]
            -- A page in hand holds no pipe yet.
            have fresh : ¬t'.Piped x := by
              intro piped
              have clash := sound.good.exclusive .pipe Use.hand x piped (by simp [Uses])
              cases clash
            apply Ends.after (get_ok _)
            obtain ⟨ok₃, pipes₃⟩ := ok₂.openPipe rf wf x (fun i => byteAt (s.page x) (24 + i.val)) different
              (by rw [rfKept]; exact bare₁) bare₂ (by rw [rfKept]; exact used₁) used₂ fresh
            refine ⟨some (rf, wf), _, rfl, ofile₂.trans ofile₁, Or.inr ⟨rf, wf, rfl, different, ?_, ok₃, Quiet.refl _, rfl⟩⟩
            exact kept_of_sound (sound.givePipe _ rfl fun y => (pipes₃ y).trans or_comm) ⟨rfl, rfl⟩ rfl (fun _ => ⟨rfl, rfl, fun _ => rfl⟩) ⟨rfl, rfl⟩
              (fun _ => Iff.rfl)

theorem copyoutFds_ends (r fdarray : Nat) (first second : List Byte) (kept : Kept w hand none)
    (here : (w.task p).pagetable = some r) :
    Ends (onMem (do
      if ← copyout r fdarray first then copyout r ((fdarray + 4) % 2 ^ 64) second else pure false)) w
      (fun _ w' => ∃ s, w' = { w with mem := s } ∧ Kept w' hand none) := by
  apply Ends.weaken (onMem_ends ?_)
  · rintro _ w' ⟨s, rfl, sound⟩
    exact ⟨s, rfl, sound⟩
  refine Ends.bind (copyout_sound kept p here fdarray first) ?_
  rintro ok s ⟨_, sound⟩
  cases ok with
  | false => exact Ends.pure sound
  | true =>
    apply Ends.weaken (copyout_sound sound p here ((fdarray + 4) % 2 ^ 64) second)
    exact fun _ _ stored => stored.2

theorem sysPipe_ends (inv : Inv w) (p : Slot) (fdarray : Nat)
    (running : (w.table.proc p).state = .running) :
    Ends (sysPipe p fdarray) w (fun _ w' => Next w w') := by
  unfold sysPipe
  refine Ends.bind (pipealloc_ends p inv.sound inv.files) ?_
  rintro _ w₁ ⟨ofile₁, ⟨rfl, filed⟩ | ⟨rf, wf, rfl, different, filed⟩⟩
  · exact Ends.pure (filed_next inv filed p running fun i fd _ => congrFun ofile₁ (i, fd))
  -- Whichever way it fails, both ends are closed and no descriptor is left.
  have undo : ∀ w₂, Filed w [] (Files.holding (Files.holding 0 rf) wf) w₂ →
      (∀ i fd, i ≠ p → w₂.files.ofile (i, fd) = w.files.ofile (i, fd)) →
      Ends (do closeFile p rf; closeFile p wf; pure false) w₂ (fun _ w' => Next w w') := by
    intro w₂ filed₂ others
    apply Ends.weaken (closeBoth_ends p rf wf different filed₂.kept filed₂.files false)
    rintro _ w' ⟨_, filed', ofile'⟩
    refine filed_next inv (filed₂.trans filed') p running fun i fd other => ?_
    rw [ofile']
    exact others i fd other
  apply Ends.after (get_ok w₁)
  cases found₀ : w₁.files.fdalloc p rf with
  | mk slot t =>
    cases slot with
    | none => exact undo w₁ filed fun i fd _ => congrFun ofile₁ (i, fd)
    | some fd0 =>
      obtain ⟨free₀, rfl⟩ := Files.fdalloc_some p rf fd0 t found₀
      have swapped := filed.files
      rw [Files.holding_comm _ _ _ different] at swapped
      have ok₂ := swapped.setFd p fd0 free₀
      have others₂ : ∀ i fd, i ≠ p → (w₁.files.setFd p fd0 (some rf)).ofile (i, fd) = w.files.ofile (i, fd) :=
        fun i fd other => (ofile_setFd_other other).trans (congrFun ofile₁ (i, fd))
      have here₂ : (w₁.files.setFd p fd0 (some rf)).ofile (p, fd0) = some rf := update_self _ _ _
      apply Ends.after (modify_ok _ w₁)
      cases found₁ : (w₁.files.setFd p fd0 (some rf)).fdalloc p wf with
      | mk slot t' =>
        cases slot with
        | none =>
          have ok₃ := ok₂.clearFd p fd0 rf here₂
          rw [Files.holding_comm _ _ _ different.symm] at ok₃
          apply Ends.after (modify_ok _ _)
          refine undo _ (filed.trans (filed_setFiles _ filed.kept ok₃ fun _ => Iff.rfl)) fun i fd other => ?_
          exact (ofile_setFd_other other).trans (others₂ i fd other)
        | some fd1 =>
          obtain ⟨free₁, rfl⟩ := Files.fdalloc_some p wf fd1 t' found₁
          have apart : fd0 ≠ fd1 := by
            rintro rfl
            rw [here₂] at free₁
            cases free₁
          have ok₃ := ok₂.setFd p fd1 free₁
          have others₃ : ∀ i fd, i ≠ p → ((w₁.files.setFd p fd0 (some rf)).setFd p fd1 (some wf)).ofile (i, fd) =
              w.files.ofile (i, fd) := fun i fd other => (ofile_setFd_other other).trans (others₂ i fd other)
          have filed₃ : Filed w [] 0 { w₁ with files := (w₁.files.setFd p fd0 (some rf)).setFd p fd1 (some wf) } :=
            filed.trans (filed_setFiles _ filed.kept ok₃ fun _ => Iff.rfl)
          cases space : (w₁.task p).pagetable with
          | none =>
            rw [filed.task] at space
            have unused := (inv.idle p).mpr space
            rw [running] at unused
            cases unused
          | some r =>
            apply Ends.after (modify_ok _ _)
            apply Ends.after (follow_run rfl)
            refine Ends.bind (copyoutFds_ends p r fdarray _ _ filed₃.kept space) ?_
            rintro copied _ ⟨s, rfl, kept⟩
            have filed₄ : Filed w [] 0 { w₁ with
                files := (w₁.files.setFd p fd0 (some rf)).setFd p fd1 (some wf), mem := s } :=
              ⟨kept, filed₃.files, filed₃.quiet, filed₃.task⟩
            cases copied with
            | true => exact Ends.pure (filed_next inv filed₄ p running others₃)
            | false =>
              have here₃ : ((w₁.files.setFd p fd0 (some rf)).setFd p fd1 (some wf)).ofile (p, fd0) = some rf :=
                (update_of_ne (fun equal => apart (Prod.mk.inj equal).2) _ _).trans here₂
              have here₄ : (((w₁.files.setFd p fd0 (some rf)).setFd p fd1 (some wf)).setFd p fd0 none).ofile (p, fd1) =
                  some wf :=
                (update_of_ne (fun equal => apart (Prod.mk.inj equal).2.symm) _ _).trans
                  (update_self _ _ _)
              have ok₅ := (ok₃.clearFd p fd0 rf here₃).clearFd p fd1 wf here₄
              apply Ends.after (modify_ok _ _)
              refine undo _ (filed₄.trans (filed_setFiles _ filed₄.kept ok₅ fun _ => Iff.rfl)) fun i fd other => ?_
              refine (ofile_setFd_other other).trans ?_
              exact (ofile_setFd_other other).trans (others₃ i fd other)

end

end Xv6.System.Descriptors
