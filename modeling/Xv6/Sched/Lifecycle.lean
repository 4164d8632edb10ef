import Xv6.Str
import Xv6.Sched.Passes

/-! The life of a process as the process table sees it: every operation of proc.c and
sysproc.c that writes a slot, and the states they reach from userinit. -/

namespace Xv6.Sched.Lifecycle
open Table Passes Lib.Bytes

/-- allocproc; memory says whether the trapframe page and the page table could be allocated. -/
def allocproc (k : Kernel) (memory : Bool) : Option Slot × Kernel :=
  match k.findUnused with
  | none => (none, k)
  | some i =>
      let k := { k with nextpid := wrap32 (k.nextpid + 1) }.modify i
        (fun p => { p with pid := k.nextpid, state := .used })
      if memory then (some i, k) else (none, k.modify i Proc.freeproc)

/-- What the page allocator answers to a fork: to allocproc and to uvmcopy. -/
structure ForkMemory where
  alloc : Bool
  copy : Bool

def fork (k : Kernel) (p : Slot) (memory : ForkMemory) : Option Slot × Kernel :=
  match allocproc k memory.alloc with
  | (none, k) => (none, k)
  | (some np, k) =>
      if memory.copy then (some np, k.modify np (fun q => { q with parent := some p, state := .runnable }))
      else (none, k.modify np Proc.freeproc)

def born (p : Slot) (pid : Int) (q : Proc) : Proc := { q with pid := pid, parent := some p, state := .runnable }

theorem fork_none (k : Kernel) (p : Slot) (memory : ForkMemory) (full : k.findUnused = none) :
    fork k p memory = (none, k) := by
  simp only [fork, allocproc, full]

theorem fork_some (k : Kernel) (p i : Slot) (memory : ForkMemory) (free : k.findUnused = some i) :
    fork k p memory =
      if memory.alloc ∧ memory.copy then
        (some i, { k with nextpid := wrap32 (k.nextpid + 1) }.modify i (born p k.nextpid))
      else (none, { k with nextpid := wrap32 (k.nextpid + 1) }.modify i Proc.freeproc) := by
  obtain ⟨alloc, copy⟩ := memory
  cases alloc <;> cases copy <;>
    simp only [fork, allocproc, free, Kernel.modify_modify, Bool.false_eq_true, and_true, and_false, and_self,
      ↓reduceIte] <;> rfl

def reparentVisit (p : Slot) (k : Kernel) (pp : Slot) : Kernel :=
  if (k.proc pp).parent = some p then
    (k.modify pp (fun q => { q with parent := some k.initproc })).wakeup (some p) (some (.proc k.initproc))
  else k

def reparent (k : Kernel) (p : Slot) : Kernel := slots.foldl (reparentVisit p) k

def exit (k : Kernel) (p : Slot) (status : Int) (msg : Buffer 32) : Except String Kernel :=
  if p = k.initproc then .error "init exiting"
  else
    let k := reparent k p
    let k := k.wakeup (some p) ((k.proc p).parent.map .proc)
    .ok (k.modify p (fun q =>
      { q with exitMsg := Str.safestrcpy q.exitMsg msg, xstate := status, state := .zombie }))

/-- One scan of wait by p, copied telling whether both copyouts succeed: the pid returned, -1, or
none when the caller goes to sleep. -/
def wait (k : Kernel) (p : Slot) (copied : Bool) : Option Int × Kernel :=
  match slots.find? fun pp => decide ((k.proc pp).parent = some p ∧ (k.proc pp).state = .zombie) with
  | some pp => if copied then (some (k.proc pp).pid, k.modify pp Proc.freeproc) else (some (-1), k)
  | none =>
      if (∀ pp ∈ slots, (k.proc pp).parent ≠ some p) ∨ (k.proc p).killed then (some (-1), k)
      else (none, k.modify p (fun q => { q with chan := some (.proc p), state := .sleeping }))

/-- A timer interrupt in the quantum of i, with the exit of a process found killed on its way back
to user space. -/
def quantum (trap : Trap) (k : Kernel) (i : Slot) : Except String Kernel :=
  match trap with
  | .user =>
      if (k.proc i).killed then exit (clockintr k (some i)) i (-1) (k.proc i).exitMsg
      else .ok (usertrapTimer k i)
  | .kernel => .ok (kerneltrapTimer k i)

/-- The timer of the first hart is one operation. That of another hart, or of the idle scheduler, is its parts:
cfsUpdate, and where there is a process charge and yield. -/
inductive Op where
  | scheduleRr (i : Slot)
  | schedulePs
  | scheduleCfs (decay : Int)
  | timer (trap : Trap) (i : Slot)
  | cfsUpdate
  | charge (i : Slot)
  | yield (i : Slot)
  | fork (i : Slot) (memory : ForkMemory)
  | exit (i : Slot) (status : Int) (msg : Buffer 32)
  | wait (i : Slot) (copied : Bool)
  | kill (pid : Int)
  | setkilled (i : Slot)
  | sleep (i : Slot) (chan : Chan)
  | awake (i : Slot)
  | wakeup (self : Option Slot) (chan : Chan)
  | setPsPriority (i : Slot) (priority : Int)
  | setCfsPriority (i : Slot) (priority : Int)
  | setPolicy (policy : Int)

/-- An operation on the kernel; none when it panics. -/
def perform (k : Kernel) : Op → Option Kernel
  | .scheduleRr i => some (if (k.proc i).state = .runnable then k.modify i (·.setState .running) else k)
  | .schedulePs => some (psChoose k).2
  | .scheduleCfs decay => some (cfsChoose k decay).2
  | .timer trap i => (quantum trap k i).toOption
  | .cfsUpdate => some k.cfsUpdate
  | .charge i => some (k.modify i Proc.charge)
  | .yield i => some (yield k i)
  | .fork i memory => some (fork k i memory).2
  | .exit i status msg => (exit k i status msg).toOption
  | .wait i copied => some (wait k i copied).2
  | .kill pid => some (k.kill pid).1
  | .setkilled i => some (k.modify i (fun p => { p with killed := true }))
  | .sleep i chan => some (k.modify i (fun p => { p with chan := some chan, state := .sleeping }))
  | .awake i => some (k.modify i (fun p => { p with chan := none }))
  | .wakeup self chan => some (k.wakeup self (some chan))
  | .setPsPriority i priority =>
      some (if priority < 1 ∨ 10 < priority then k else k.modify i (fun p => { p with psPriority := priority }))
  | .setCfsPriority i priority =>
      some (if 2 < priority ∨ priority < 0 then k else k.modify i (fun p => { p with cfsPriority := priority }))
  | .setPolicy policy => some (if 2 < policy ∨ policy < 0 then k else { k with schedPolicy := policy })

/-- The process an operation is made by, which must be the one running. -/
def Op.caller : Op → Option Slot
  | .timer _ i | .charge i | .yield i | .fork i _ | .exit i _ _ | .wait i _ | .setkilled i | .sleep i _ | .awake i
  | .setPsPriority i _ | .setCfsPriority i _ => some i
  | _ => none

def userinit (k : Kernel) : Kernel :=
  match allocproc k true with
  | (none, k) => k
  | (some p, k) => { k with initproc := p }.modify p (·.setState .runnable)

def boot : Kernel :=
  userinit { proc := fun _ => procinit, nextpid := 1, schedPolicy := 0, minAccumulator := INT_MAX, initproc := 0 }

inductive Reachable : Kernel → Prop where
  | boot : Reachable boot
  | step (k k' : Kernel) (op : Op) (before : Reachable k)
      (running : ∀ i, op.caller = some i → (k.proc i).state = .running)
      (performed : perform k op = some k') : Reachable k'

/-- An operation by a process that is RUNNING, or by none. -/
def act (k : Kernel) (op : Op) : Option Kernel :=
  if ∀ i ∈ op.caller, (k.proc i).state = .running then perform k op else none

theorem act_eq_some {k k' : Kernel} {op : Op} (acted : act k op = some k') :
    (∀ i, op.caller = some i → (k.proc i).state = .running) ∧ perform k op = some k' := by
  unfold act at acted
  split_ifs at acted with running
  exact ⟨running, acted⟩

def history (ops : List Op) (k : Kernel) : Option Kernel := ops.foldlM act k

theorem Reachable.history (ops : List Op) (k k' : Kernel) (before : Reachable k)
    (performed : Lifecycle.history ops k = some k') : Reachable k' := by
  induction ops generalizing k with
  | nil => exact Option.some.inj performed ▸ before
  | cons op ops ih =>
    obtain ⟨middle, acted, rest⟩ := Option.bind_eq_some_iff.mp performed
    obtain ⟨running, step⟩ := act_eq_some acted
    exact ih middle (.step k middle op before running step) rest

/-- The kinds of change that operations make to a slot. -/
inductive Kind where
  | time | start | life | setting | plain

/-- The changes of one slot of which every operation is made. -/
inductive Touch : Kind → Proc → Proc → Prop where
  | cfsUpdate (p : Proc) : Touch .time p p.cfsUpdate
  | start (p : Proc) : Touch .start p (p.setState .running)
  | used (p : Proc) (pid : Int) : Touch .life p { p with pid := pid, state := .used }
  | born (p : Proc) (parent : Slot) (pid : Int) : Touch .life p (born parent pid p)
  | freeproc (p : Proc) : Touch .life p p.freeproc
  | psPriority (p : Proc) (priority : Int) : Touch .setting p { p with psPriority := priority }
  | cfsPriority (p : Proc) (priority : Int) (range : 0 ≤ priority ∧ priority ≤ 2) :
      Touch .setting p { p with cfsPriority := priority }
  | wakeup (p : Proc) (chan : Option Chan) (minAccumulator : Int) : Touch .plain p (p.wakeup chan minAccumulator)
  | charge (p : Proc) : Touch .plain p p.charge
  | yield (p : Proc) : Touch .plain p (p.setState .runnable)
  | kill (p : Proc) : Touch .plain p p.kill
  | setkilled (p : Proc) : Touch .plain p { p with killed := true }
  | adopt (p : Proc) (parent : Option Slot) : Touch .plain p { p with parent := parent }
  | zombie (p : Proc) (msg : Buffer 32) (status : Int) :
      Touch .plain p { p with exitMsg := msg, xstate := status, state := .zombie }
  | sleep (p : Proc) (chan : Chan) : Touch .plain p { p with chan := some chan, state := .sleeping }
  | awake (p : Proc) : Touch .plain p { p with chan := none }
  | reset (p : Proc) : Touch .plain p { p with accumulator := 0 }

/-- The kinds of change that an operation is made of. -/
def Op.kinds : Op → List Kind
  | .scheduleRr _ | .scheduleCfs _ => [.start]
  | .schedulePs => [.start, .plain]
  | .timer _ _ => [.time, .plain]
  | .cfsUpdate => [.time]
  | .fork _ _ => [.life]
  | .wait _ _ => [.life, .plain]
  | .setPsPriority _ _ | .setCfsPriority _ _ => [.setting]
  | _ => [.plain]

/-- The relation holds for every change of the kind. -/
def Admits (relation : Proc → Proc → Prop) (kind : Kind) : Prop := ∀ p q, Touch kind p q → relation p q

section Touches
variable {relation : Proc → Proc → Prop} [IsPreorder Proc relation] {k k' : Kernel}

theorem modify_each {kind : Kind} (admits : Admits relation kind) (k : Kernel) (i : Slot) (change : Proc → Proc)
    (touch : Touch kind (k.proc i) (change (k.proc i))) : Kernel.Each relation k (k.modify i change) :=
  Kernel.Each.modify (admits _ _ touch)

section Plain
variable (plain : Admits relation .plain)
include plain

theorem wakeup_each (k : Kernel) (self : Option Slot) (chan : Option Chan) :
    Kernel.Each relation k (k.wakeup self chan) := by
  intro i
  simp only [Kernel.wakeup, Kernel.proc_mapProcs]
  split
  · exact refl_of relation _
  · exact plain _ _ (.wakeup _ _ _)

theorem reparent_each (k : Kernel) (p : Slot) : Kernel.Each relation k (reparent k p) := by
  refine Kernel.Each.foldl _ (fun k pp => ?_) slots k
  unfold reparentVisit
  split
  · exact (modify_each plain k pp (fun q => { q with parent := some k.initproc }) (.adopt _ _)).trans
      (wakeup_each plain _ _ _)
  · exact Kernel.Each.refl k

theorem exit_each {p : Slot} {status : Int} {msg : Buffer 32} (exited : exit k p status msg = .ok k') :
    Kernel.Each relation k k' := by
  unfold exit at exited
  split at exited
  · cases exited
  · obtain rfl := Except.ok.inj exited
    exact ((reparent_each plain k p).trans (wakeup_each plain _ _ _)).trans (modify_each plain _ p _ (.zombie _ _ _))

theorem wait_each (life : Admits relation .life) (k : Kernel) (p : Slot) (copied : Bool) :
    Kernel.Each relation k (wait k p copied).2 := by
  unfold wait
  split
  · split
    · exact modify_each life k _ Proc.freeproc (.freeproc _)
    · exact Kernel.Each.refl k
  · split
    · exact Kernel.Each.refl k
    · exact modify_each plain k p (fun q => { q with chan := some (.proc p), state := .sleeping }) (.sleep _ _)

section Time
variable (time : Admits relation .time)
include time

omit [IsPreorder Proc relation] plain in
theorem cfsUpdate_each (k : Kernel) : Kernel.Each relation k k.cfsUpdate := fun i => time _ _ (.cfsUpdate (k.proc i))

theorem quantum_each {trap : Trap} {i : Slot} (ended : quantum trap k i = .ok k') : Kernel.Each relation k k' := by
  cases trap with
  | user =>
    simp only [quantum] at ended
    split at ended
    · exact (wakeup_each plain k _ _).trans (exit_each plain ended)
    · obtain rfl := Except.ok.inj ended
      exact (((wakeup_each plain k _ _).trans (modify_each plain _ i Proc.charge (.charge _))).trans
        (cfsUpdate_each time _)).trans (modify_each plain _ i (·.setState .runnable) (.yield _))
  | kernel =>
    obtain rfl := Except.ok.inj ended
    have counted := (wakeup_each plain k (some i) (some .ticks)).trans (cfsUpdate_each time _)
    simp only [kerneltrapTimer, kerneltrapTick]
    split
    · exact (counted.trans (modify_each plain _ i Proc.charge (.charge _))).trans
        (modify_each plain _ i (·.setState .runnable) (.yield _))
    · exact counted

end Time

end Plain

section Start
variable (start : Admits relation .start)
include start

theorem switchTo_each (k : Kernel) (i : Slot) : Kernel.Each relation k (switchTo k i).2 := by
  unfold switchTo
  split
  · exact modify_each start k i (·.setState .running) (.start _)
  · exact Kernel.Each.refl k

theorem psChoose_each (plain : Admits relation .plain) (k : Kernel) : Kernel.Each relation k (psChoose k).2 := by
  cases chosen : (psScan k slots).minProc with
  | none =>
    rw [psChoose_none k chosen]
    exact fun i => refl_of relation (k.proc i)
  | some i =>
    rw [psChoose_some k i chosen]
    refine Kernel.Each.trans (k := { k with minAccumulator := (psScan k slots).minAccumulator }) ?_ (switchTo_each start _ i)
    unfold resetLone
    split
    · exact modify_each plain _ i (fun p => { p with accumulator := 0 }) (.reset _)
    · exact Kernel.Each.refl _

theorem cfsChoose_each (k : Kernel) (decay : Int) : Kernel.Each relation k (cfsChoose k decay).2 := by
  unfold cfsChoose
  cases (cfsScan k decay slots).minProc with
  | none => exact Kernel.Each.refl k
  | some i => exact switchTo_each start k i

end Start

theorem fork_each (life : Admits relation .life) (k : Kernel) (p : Slot) (memory : ForkMemory) :
    Kernel.Each relation k (fork k p memory).2 := by
  cases free : k.findUnused with
  | none =>
    rw [fork_none k p memory free]
    exact Kernel.Each.refl k
  | some i =>
    rw [fork_some k p i memory free]
    split
    · exact modify_each life { k with nextpid := wrap32 (k.nextpid + 1) } i (born p k.nextpid) (.born _ _ _)
    · exact modify_each life { k with nextpid := wrap32 (k.nextpid + 1) } i Proc.freeproc (.freeproc _)

omit [IsPreorder Proc relation] in
theorem if_each {condition : Prop} [Decidable condition] {changed same : Kernel} (first : condition → Kernel.Each relation k changed)
    (second : ¬condition → Kernel.Each relation k same) : Kernel.Each relation k (if condition then changed else same) := by
  split
  · exact first ‹_›
  · exact second ‹_›

/-- A relation that holds for the changes an operation is made of holds for the operation. -/
theorem perform_each {op : Op} (admits : ∀ kind ∈ op.kinds, Admits relation kind) (performed : perform k op = some k') :
    Kernel.Each relation k k' := by
  cases op with
  | timer trap i =>
    simp only [perform] at performed
    cases ended : quantum trap k i with
    | error msg => simp [ended, Except.toOption] at performed
    | ok after =>
      simp only [ended, Except.toOption, Option.some.injEq] at performed
      exact performed ▸ quantum_each (admits .plain (by simp [Op.kinds])) (admits .time (by simp [Op.kinds])) ended
  | exit i status msg =>
    simp only [perform] at performed
    cases ended : exit k i status msg with
    | error msg => simp [ended, Except.toOption] at performed
    | ok after =>
      simp only [ended, Except.toOption, Option.some.injEq] at performed
      exact performed ▸ exit_each (admits .plain (by simp [Op.kinds])) ended
  | schedulePs =>
    exact Option.some.inj performed ▸ psChoose_each (admits .start (by simp [Op.kinds])) (admits .plain (by simp [Op.kinds])) k
  | scheduleCfs decay => exact Option.some.inj performed ▸ cfsChoose_each (admits .start (by simp [Op.kinds])) k decay
  | scheduleRr i =>
    exact Option.some.inj performed ▸ if_each (fun _ => modify_each (admits .start (by simp [Op.kinds])) k i _ (.start _))
      fun _ => Kernel.Each.refl k
  | cfsUpdate => exact Option.some.inj performed ▸ cfsUpdate_each (admits .time (by simp [Op.kinds])) k
  | fork i memory => exact Option.some.inj performed ▸ fork_each (admits .life (by simp [Op.kinds])) k i memory
  | wait i copied =>
    exact Option.some.inj performed ▸ wait_each (admits .plain (by simp [Op.kinds])) (admits .life (by simp [Op.kinds])) k i copied
  | wakeup self chan => exact Option.some.inj performed ▸ wakeup_each (admits .plain (by simp [Op.kinds])) k self (some chan)
  | charge i => exact Option.some.inj performed ▸ modify_each (admits .plain (by simp [Op.kinds])) k i _ (.charge _)
  | yield i => exact Option.some.inj performed ▸ modify_each (admits .plain (by simp [Op.kinds])) k i _ (.yield _)
  | setkilled i => exact Option.some.inj performed ▸ modify_each (admits .plain (by simp [Op.kinds])) k i _ (.setkilled _)
  | sleep i chan => exact Option.some.inj performed ▸ modify_each (admits .plain (by simp [Op.kinds])) k i _ (.sleep _ _)
  | awake i => exact Option.some.inj performed ▸ modify_each (admits .plain (by simp [Op.kinds])) k i _ (.awake _)
  | kill pid =>
    cases performed
    unfold Kernel.kill
    split
    · exact Kernel.Each.refl k
    · exact modify_each (admits .plain (by simp [Op.kinds])) k _ Proc.kill (.kill _)
  | setPsPriority i priority =>
    exact Option.some.inj performed ▸ if_each (fun _ => Kernel.Each.refl k)
      fun _ => modify_each (admits .setting (by simp [Op.kinds])) k i _ (.psPriority _ _)
  | setCfsPriority i priority =>
    exact Option.some.inj performed ▸ if_each (fun _ => Kernel.Each.refl k)
      fun range => modify_each (admits .setting (by simp [Op.kinds])) k i _ (.cfsPriority _ _ (by omega))
  | setPolicy policy =>
    exact Option.some.inj performed ▸ if_each (fun _ => Kernel.Each.refl k) fun _ i => refl_of relation (k.proc i)

end Touches

/-- What every operation keeps true of every slot. -/
structure Sound (p : Proc) : Prop where
  unused : p.state = .unused → p.pid = 0
  cfs : 0 ≤ p.cfsPriority ∧ p.cfsPriority ≤ 2

/-- What the scheduler and the operations it runs never change in a slot. -/
structure Keeps (p q : Proc) : Prop where
  sound : Sound p → Sound q
  pid : q.pid = p.pid
  psPriority : q.psPriority = p.psPriority

instance : IsPreorder Proc Keeps where
  refl _ := ⟨id, rfl, rfl⟩
  trans _ _ _ first second :=
    ⟨second.sound ∘ first.sound, second.pid.trans first.pid, second.psPriority.trans first.psPriority⟩

def Preserves (p q : Proc) : Prop := Sound p → Sound q

instance : IsPreorder Proc Preserves where
  refl _ := id
  trans _ _ _ first second := second ∘ first

theorem keeps_live (p q : Proc) (live : q.state = .unused → p.state = .unused) (pid : q.pid = p.pid)
    (psPriority : q.psPriority = p.psPriority) (cfsPriority : q.cfsPriority = p.cfsPriority) : Keeps p q := by
  refine ⟨fun sound => ⟨fun unused => ?_, ?_⟩, pid, psPriority⟩
  · rw [pid]
    exact sound.unused (live unused)
  · rw [cfsPriority]
    exact sound.cfs

theorem keeps_start : Admits Keeps .start := by
  rintro p q ⟨⟩
  exact keeps_live _ _ nofun rfl rfl rfl

theorem keeps_time : Admits Keeps .time := by
  rintro p q ⟨⟩
  unfold Proc.cfsUpdate
  split_ifs <;> exact keeps_live _ _ id rfl rfl rfl

theorem keeps_plain : Admits Keeps .plain := by
  intro p q touch
  cases touch with
  | wakeup =>
    unfold Proc.wakeup
    split
    · exact keeps_live _ _ nofun rfl rfl rfl
    · exact refl_of Keeps p
  | charge =>
    unfold Proc.charge
    split
    · exact keeps_live _ _ id rfl rfl rfl
    · exact refl_of Keeps p
  | kill =>
    refine keeps_live _ _ (fun unused => ?_) rfl rfl rfl
    unfold Proc.kill at unused
    by_cases asleep : p.state = .sleeping
    · simp only [asleep, ↓reduceIte] at unused
      cases unused
    · simpa only [asleep, ↓reduceIte] using unused
  | setkilled | adopt | awake | reset => exact keeps_live _ _ id rfl rfl rfl
  | yield | zombie | sleep => exact keeps_live _ _ nofun rfl rfl rfl

theorem quantum_keeps (trap : Trap) (k k' : Kernel) (i : Slot) (ended : quantum trap k i = .ok k') :
    Kernel.Each Keeps k k' :=
  quantum_each keeps_plain keeps_time ended

variable (quantum : Kernel → Slot → Except String Kernel)

theorem dispatch_keeps
    (keeps : ∀ k k' i, quantum k i = .ok k' → Kernel.Each Keeps k k') (choice : Option Slot × Kernel)
    (out : List Slot × Kernel) (ended : dispatch quantum choice = .ok out) : Kernel.Each Keeps choice.2 out.2 := by
  obtain ⟨chosen, k⟩ := choice
  cases chosen with
  | none =>
    obtain rfl := Except.ok.inj ended
    exact Kernel.Each.refl k
  | some i =>
    simp only [dispatch] at ended
    cases after : quantum k i with
    | error msg => simp [after, Bind.bind, Except.bind] at ended
    | ok k' =>
      rw [after] at ended
      obtain rfl := Except.ok.inj ended
      exact keeps k k' i after

theorem rrVisit_keeps
    (keeps : ∀ k k' i, quantum k i = .ok k' → Kernel.Each Keeps k k') (out out' : List Slot × Kernel) (i : Slot)
    (visited : rrVisit quantum out i = .ok out') : Kernel.Each Keeps out.2 out'.2 := by
  unfold rrVisit at visited
  split at visited
  · cases after : quantum (out.2.modify i (·.setState .running)) i with
    | error msg => simp [after, Bind.bind, Except.bind] at visited
    | ok k' =>
      rw [after] at visited
      obtain rfl := Except.ok.inj visited
      exact (modify_each keeps_start out.2 i _ (.start _)).trans
        (keeps _ k' i after)
  · obtain rfl := Except.ok.inj visited
    exact Kernel.Each.refl out.2

theorem rrFold_keeps
    (keeps : ∀ k k' i, quantum k i = .ok k' → Kernel.Each Keeps k k') (visited : List Slot)
    (out out' : List Slot × Kernel) (ended : visited.foldlM (rrVisit quantum) out = .ok out') :
    Kernel.Each Keeps out.2 out'.2 := by
  induction visited generalizing out with
  | nil =>
    obtain rfl := Except.ok.inj ended
    exact Kernel.Each.refl out.2
  | cons i visited ih =>
    rw [List.foldlM_cons] at ended
    cases first : rrVisit quantum out i with
    | error msg => simp [first, Bind.bind, Except.bind] at ended
    | ok middle =>
      rw [first] at ended
      exact (rrVisit_keeps quantum keeps out middle i first).trans (ih middle ended)

theorem schedulerPass_keeps
    (keeps : ∀ k k' i, quantum k i = .ok k' → Kernel.Each Keeps k k') (k : Kernel) (decay : Int)
    (out : (List Slot × Kernel) × Int) (ended : schedulerPass quantum k decay = .ok out) :
    Kernel.Each Keeps k out.1.2 := by
  unfold schedulerPass at ended
  split_ifs at ended
  · cases folded : slots.foldlM (rrVisit quantum) ([], k) with
    | error msg => simp [folded] at ended
    | ok after =>
      simp only [folded, Except.map_ok, Except.ok.injEq] at ended
      exact ended ▸ rrFold_keeps quantum keeps slots ([], k) after folded
  · cases ran : dispatch quantum (psChoose k) with
    | error msg => simp [ran] at ended
    | ok after =>
      simp only [ran, Except.map_ok, Except.ok.injEq] at ended
      exact ended ▸ (psChoose_each keeps_start keeps_plain k).trans (dispatch_keeps quantum keeps _ after ran)
  · cases ran : dispatch quantum (cfsChoose k decay) with
    | error msg => simp [ran] at ended
    | ok after =>
      simp only [ran, Except.map_ok, Except.ok.injEq] at ended
      exact ended ▸ (cfsChoose_each keeps_start k decay).trans (dispatch_keeps quantum keeps _ after ran)
  · obtain rfl := Except.ok.inj ended
    exact Kernel.Each.refl k

theorem preserves_live (p q : Proc) (live : q.state ≠ .unused) (cfsPriority : q.cfsPriority = p.cfsPriority) :
    Preserves p q := by
  intro sound
  refine ⟨fun unused => absurd unused live, ?_⟩
  rw [cfsPriority]
  exact sound.cfs

theorem preserves_life : Admits Preserves .life := by
  intro p q touch
  cases touch with
  | used | born => exact preserves_live _ _ nofun rfl
  | freeproc => exact fun sound => ⟨fun _ => rfl, sound.cfs⟩

theorem preserves (kind : Kind) : Admits Preserves kind := by
  intro p q touch
  cases kind with
  | time => exact (keeps_time p q touch).sound
  | start => exact (keeps_start p q touch).sound
  | plain => exact (keeps_plain p q touch).sound
  | life => exact preserves_life p q touch
  | setting =>
    cases touch with
    | psPriority => exact fun sound => ⟨sound.unused, sound.cfs⟩
    | cfsPriority _ _ range => exact fun sound => ⟨sound.unused, range⟩

variable (k : Kernel)

theorem fork_sound (p : Slot) (memory : ForkMemory) : Kernel.Each Preserves k (fork k p memory).2 :=
  fork_each preserves_life k p memory

theorem allocproc_sound (memory : Bool) : Kernel.Each Preserves k (allocproc k memory).2 := by
  unfold allocproc
  cases k.findUnused with
  | none => exact Kernel.Each.refl k
  | some i =>
    have used : Kernel.Each Preserves { k with nextpid := wrap32 (k.nextpid + 1) }
        ({ k with nextpid := wrap32 (k.nextpid + 1) }.modify i (fun p => { p with pid := k.nextpid, state := .used })) :=
      modify_each preserves_life _ i _ (.used _ _)
    cases memory with
    | true => exact used
    | false => exact used.trans (modify_each preserves_life _ i Proc.freeproc (.freeproc _))

theorem userinit_sound : Kernel.Each Preserves k (userinit k) := by
  have allocated := allocproc_sound k true
  unfold userinit
  split
  · rename_i k' none
    rw [none] at allocated
    exact allocated
  · rename_i p k' found
    rw [found] at allocated
    exact allocated.trans (modify_each (preserves .plain) { k' with initproc := p } p (·.setState .runnable) (.yield _))

theorem perform_sound (k k' : Kernel) (op : Op) (performed : perform k op = some k') : Kernel.Each Preserves k k' :=
  perform_each (fun kind _ => preserves kind) performed

theorem procinit_sound : Sound procinit := ⟨fun _ => rfl, by decide⟩

theorem Reachable.sound (reachable : Reachable k) (i : Slot) : Sound (k.proc i) := by
  induction reachable with
  | boot => exact userinit_sound _ i procinit_sound
  | step k k' op before running performed ih => exact perform_sound k k' op performed i ih

end Xv6.Sched.Lifecycle
