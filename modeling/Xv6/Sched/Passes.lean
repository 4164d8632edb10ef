import Xv6.Sched.Table

/-! The three passes of scheduler() and the timer interrupt that ends a quantum. -/

namespace Xv6.Sched.Passes
open Table

structure PsScan where
  minProc : Option Slot
  minAcc : Int
  procCounter : Int
  minAccumulator : Int

def psVisit (scan : PsScan) (i : Slot) (p : Proc) : PsScan :=
  if p.state = .runnable ∨ p.state = .running then
    let procCounter := scan.procCounter + 1
    if p.accumulator < scan.minAcc ∨ procCounter = 0 then
      { minProc := some i, minAcc := p.accumulator, procCounter := procCounter, minAccumulator := p.accumulator }
    else { scan with procCounter := procCounter }
  else scan

def psStart (k : Kernel) : PsScan :=
  { minProc := none, minAcc := LLONG_MAX, procCounter := 0, minAccumulator := k.minAccumulator }

def psScan (k : Kernel) (visited : List Slot) : PsScan :=
  visited.foldl (fun scan i => psVisit scan i (k.proc i)) (psStart k)

def resetLone (procCounter : Int) (k : Kernel) (i : Slot) : Kernel :=
  if procCounter = 1 then { k.modify i (fun p => { p with accumulator := 0 }) with minAccumulator := 0 } else k

def switchTo (k : Kernel) (i : Slot) : Option Slot × Kernel :=
  if (k.proc i).state = .runnable then (some i, k.modify i (·.setState .running)) else (none, k)

/-- The choice of the policy-1 pass: the kernel as the chosen process is switched to. -/
def psChoose (k : Kernel) : Option Slot × Kernel :=
  let scan := psScan k slots
  let k := { k with minAccumulator := scan.minAccumulator }
  match scan.minProc with
  | none => (none, k)
  | some i => switchTo (resetLone scan.procCounter k i) i

theorem psChoose_none (k : Kernel) (chosen : (psScan k slots).minProc = none) :
    psChoose k = (none, { k with minAccumulator := (psScan k slots).minAccumulator }) := by
  simp only [psChoose, chosen]

theorem psChoose_some (k : Kernel) (i : Slot) (chosen : (psScan k slots).minProc = some i) :
    psChoose k = switchTo (resetLone (psScan k slots).procCounter
      { k with minAccumulator := (psScan k slots).minAccumulator } i) i := by
  simp only [psChoose, chosen]

/-- C division on the target: dividing by zero gives -1. -/
def divw (a b : Int) : Int := if b = 0 then -1 else wrap32 (a.tdiv b)

/-- The decay factor; an unknown priority keeps the factor of the slot before. -/
def decayFactor (priority current : Int) : Int :=
  if priority = 0 then 75 else if priority = 1 then 100 else if priority = 2 then 125 else current

def vruntime (decay : Int) (p : Proc) : Int :=
  wrap32 (decay * divw p.rtime (wrap32 (wrap32 (p.rtime + p.stime) + p.retime)))

structure CfsScan where
  minProc : Option Slot
  minVruntime : Int
  decay : Int

def cfsVisit (scan : CfsScan) (i : Slot) (p : Proc) : CfsScan :=
  let decay := decayFactor p.cfsPriority scan.decay
  if p.state = .runnable ∧ vruntime decay p < scan.minVruntime then
    { minProc := some i, minVruntime := vruntime decay p, decay := decay }
  else { scan with decay := decay }

def cfsScan (k : Kernel) (decay : Int) (visited : List Slot) : CfsScan :=
  visited.foldl (fun scan i => cfsVisit scan i (k.proc i)) { minProc := none, minVruntime := INT_MAX, decay := decay }

def cfsChoose (k : Kernel) (decay : Int) : Option Slot × Kernel :=
  match (cfsScan k decay slots).minProc with
  | none => (none, k)
  | some i => switchTo k i

/-- How the quantum of a process ends: a timer interrupt taken in user mode or in the kernel. -/
inductive Trap where
  | user | kernel
  deriving DecidableEq, Repr

def clockintr (k : Kernel) (self : Option Slot) : Kernel := k.wakeup self (some .ticks)

def yield (k : Kernel) (i : Slot) : Kernel := k.modify i (·.setState .runnable)

/-- The tail of usertrap, after devintr, for a timer interrupt of a process that was not killed. -/
def usertrapTick (k : Kernel) (i : Slot) : Kernel := yield (k.modify i Proc.charge).cfsUpdate i

/-- The tail of kerneltrap: the charge comes after cfs_update. -/
def kerneltrapTick (k : Kernel) (i : Slot) : Kernel :=
  let k := k.cfsUpdate
  if (k.proc i).state = .running then yield (k.modify i Proc.charge) i else k

/-- The two on the first hart, where devintr calls clockintr. -/
def usertrapTimer (k : Kernel) (i : Slot) : Kernel := usertrapTick (clockintr k (some i)) i

def kerneltrapTimer (k : Kernel) (i : Slot) : Kernel := kerneltrapTick (clockintr k (some i)) i

def timer (trap : Trap) (k : Kernel) (i : Slot) : Kernel :=
  match trap with
  | .user => usertrapTimer k i
  | .kernel => kerneltrapTimer k i

section
variable {m : Type → Type} [Monad m] (quantum : Kernel → Slot → m Kernel)

def rrVisit (out : List Slot × Kernel) (i : Slot) : m (List Slot × Kernel) :=
  if (out.2.proc i).state = .runnable then do
    let k ← quantum (out.2.modify i (·.setState .running)) i
    pure (out.1 ++ [i], k)
  else pure out

/-- Switch to the process a pass chose, if any; quantum is what happens until it switches back. -/
def dispatch (choice : Option Slot × Kernel) : m (List Slot × Kernel) :=
  match choice.1 with
  | none => pure ([], choice.2)
  | some i => do
      let k ← quantum choice.2 i
      pure ([i], k)

/-- One turn of the for(;;) loop of scheduler() on the only CPU: the slots it dispatched, the kernel
it leaves and the decay_factor it carries to the next turn. -/
def schedulerPass (k : Kernel) (decay : Int) : m ((List Slot × Kernel) × Int) :=
  if k.schedPolicy = 0 then (·, decay) <$> slots.foldlM (rrVisit quantum) ([], k)
  else if k.schedPolicy = 1 then (·, decay) <$> dispatch quantum (psChoose k)
  else if k.schedPolicy = 2 then (·, (cfsScan k decay slots).decay) <$> dispatch quantum (cfsChoose k decay)
  else pure (([], k), decay)

end

end Xv6.Sched.Passes
