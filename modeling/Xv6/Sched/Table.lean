import Xv6.Param
import Xv6.Lib.Bytes

/-! The process table of proc.c: the fields of struct proc that scheduling, exit
and wait read, and what each operation does to one slot. -/

namespace Xv6.Sched.Table
open Lib.Bytes

inductive Procstate where
  | unused | used | sleeping | runnable | running | zombie
  deriving DecidableEq, Repr

abbrev Slot := Fin NPROC

instance : NeZero NPROC := ⟨by decide⟩

instance : LawfulBEq Slot := inferInstance

/-- The addresses processes sleep on: a process (its wait channel), the tick counter, anything else. -/
inductive Chan where
  | proc (p : Slot)
  | ticks
  | other (address : Nat)
  deriving DecidableEq, Repr

structure Proc where
  state : Procstate
  chan : Option Chan
  killed : Bool
  xstate : Int
  pid : Int
  parent : Option Slot
  exitMsg : Buffer 32
  accumulator : Int
  psPriority : Int
  cfsPriority : Int
  rtime : Int
  stime : Int
  retime : Int
  deriving DecidableEq

def wrap32 (x : Int) : Int := x.bmod (2 ^ 32)

def procinit : Proc where
  state := .unused
  chan := none
  killed := false
  xstate := 0
  pid := 0
  parent := none
  exitMsg _ := 0
  accumulator := 0
  psPriority := 5
  cfsPriority := 0
  rtime := 0
  stime := 0
  retime := 0

namespace Proc

def freeproc (p : Proc) : Proc :=
  { p with pid := 0, parent := none, chan := none, killed := false, xstate := 0, state := .unused }

def wakeup (chan : Option Chan) (minAccumulator : Int) (p : Proc) : Proc :=
  if p.state = .sleeping ∧ p.chan = chan then { p with state := .runnable, accumulator := minAccumulator } else p

def kill (p : Proc) : Proc :=
  { p with killed := true, state := if p.state = .sleeping then .runnable else p.state }

def charge (p : Proc) : Proc :=
  if p.accumulator < 10 then { p with accumulator := p.accumulator + p.psPriority } else p

def cfsUpdate (p : Proc) : Proc :=
  if p.state = .runnable then { p with retime := wrap32 (p.retime + 1) }
  else if p.state = .sleeping then { p with stime := wrap32 (p.stime + 1) }
  else if p.state = .running then { p with rtime := wrap32 (p.rtime + 1) }
  else p

theorem cfsUpdate_fields (p : Proc) :
    p.cfsUpdate.state = p.state ∧ p.cfsUpdate.chan = p.chan ∧ p.cfsUpdate.psPriority = p.psPriority ∧
      p.cfsUpdate.accumulator = p.accumulator := by
  unfold cfsUpdate
  split_ifs <;> exact ⟨rfl, rfl, rfl, rfl⟩

theorem charge_state (p : Proc) : p.charge.state = p.state := by
  unfold charge
  split <;> rfl

def setState (p : Proc) (state : Procstate) : Proc := { p with state := state }

end Proc

/-- The process table with the globals of proc.c. -/
@[ext] structure Kernel where
  proc : Slot → Proc
  nextpid : Int
  schedPolicy : Int
  minAccumulator : Int
  initproc : Slot
  deriving DecidableEq

def LLONG_MAX : Int := 2 ^ 63 - 1
def INT_MAX : Int := 2 ^ 31 - 1

def slots : List Slot := List.finRange NPROC

theorem mem_slots (i : Slot) : i ∈ slots := List.mem_finRange i

namespace Kernel

def setProc (k : Kernel) (i : Slot) (p : Proc) : Kernel := { k with proc := Function.update k.proc i p }

def modify (k : Kernel) (i : Slot) (change : Proc → Proc) : Kernel := k.setProc i (change (k.proc i))

def mapProcs (k : Kernel) (change : Slot → Proc → Proc) : Kernel := { k with proc := fun i => change i (k.proc i) }

@[simp] theorem proc_modify_same (k : Kernel) (i : Slot) (change : Proc → Proc) :
    (k.modify i change).proc i = change (k.proc i) :=
  Function.update_self _ _ _

theorem proc_modify_other {k : Kernel} {i j : Slot} {change : Proc → Proc} (different : j ≠ i) :
    (k.modify i change).proc j = k.proc j :=
  Function.update_of_ne different _ _

theorem modify_modify (k : Kernel) (i : Slot) (first second : Proc → Proc) :
    (k.modify i first).modify i second = k.modify i (fun p => second (first p)) := by
  ext1
  · funext j
    by_cases same : j = i
    · subst same
      simp only [proc_modify_same]
    · simp only [proc_modify_other same]
  all_goals rfl

@[simp] theorem proc_mapProcs (k : Kernel) (change : Slot → Proc → Proc) (i : Slot) :
    (k.mapProcs change).proc i = change i (k.proc i) := rfl

def Each (relation : Proc → Proc → Prop) (k k' : Kernel) : Prop := ∀ i, relation (k.proc i) (k'.proc i)

section
variable {relation : Proc → Proc → Prop} [IsPreorder Proc relation]

theorem Each.refl (k : Kernel) : Each relation k k := fun i => refl_of relation (k.proc i)

theorem Each.trans {k k' k'' : Kernel} (first : Each relation k k') (second : Each relation k' k'') :
    Each relation k k'' :=
  fun i => trans_of relation (first i) (second i)

theorem Each.modify {k : Kernel} {i : Slot} {change : Proc → Proc}
    (related : relation (k.proc i) (change (k.proc i))) : Each relation k (k.modify i change) := by
  intro j
  by_cases same : j = i
  · rw [same, proc_modify_same]
    exact related
  · rw [proc_modify_other same]
    exact refl_of relation _

theorem Each.foldl (visit : Kernel → Slot → Kernel) (step : ∀ k i, Each relation k (visit k i))
    (visited : List Slot) (k : Kernel) : Each relation k (visited.foldl visit k) := by
  induction visited generalizing k with
  | nil => exact Each.refl k
  | cons i visited ih => exact (step k i).trans (ih (visit k i))

end

def wakeup (k : Kernel) (self : Option Slot) (chan : Option Chan) : Kernel :=
  k.mapProcs fun i p => if some i = self then p else p.wakeup chan k.minAccumulator

def cfsUpdate (k : Kernel) : Kernel := k.mapProcs fun _ p => p.cfsUpdate

def findUnused (k : Kernel) : Option Slot := slots.find? fun i => decide ((k.proc i).state = .unused)

theorem findUnused_state (k : Kernel) (i : Slot) (free : k.findUnused = some i) : (k.proc i).state = .unused := by
  simpa using List.find?_some free

/-- The slot that kill and get_cfs_stats settle on: the first with the pid. -/
def findPid (k : Kernel) (pid : Int) : Option Slot := slots.find? fun i => decide ((k.proc i).pid = pid)

/-- get_ps_priority keeps scanning, so the last slot with the pid wins. -/
def getPsPriority (k : Kernel) (pid : Int) : Option Slot :=
  slots.foldl (fun found i => if (k.proc i).pid = pid then some i else found) none

theorem foldl_last {A : Type} (p : A → Prop) [DecidablePred p] (list : List A) (start : Option A) :
    list.foldl (fun found i => if p i then some i else found) start =
      (list.reverse.find? fun i => decide (p i)).or start := by
  induction list generalizing start with
  | nil => rfl
  | cons i list ih =>
    rw [List.foldl_cons, ih, List.reverse_cons, List.find?_append, Option.or_assoc]
    by_cases here : p i <;> simp [here]

theorem getPsPriority_eq (k : Kernel) (pid : Int) :
    k.getPsPriority pid = slots.reverse.find? fun i => decide ((k.proc i).pid = pid) :=
  (foldl_last (fun i => (k.proc i).pid = pid) slots none).trans Option.or_none

theorem getPsPriority_some {k : Kernel} {pid : Int} {i : Slot} (found : k.getPsPriority pid = some i) :
    (k.proc i).pid = pid := by
  rw [getPsPriority_eq] at found
  simpa using List.find?_some found

def sysGetPsPriority (k : Kernel) (pid : Int) : Int :=
  match k.getPsPriority pid with
  | none => -1
  | some i => (k.proc i).psPriority

def kill (k : Kernel) (pid : Int) : Kernel × Int :=
  match k.findPid pid with
  | none => (k, -1)
  | some i => (k.modify i Proc.kill, 0)

end Kernel

end Xv6.Sched.Table
