import Xv6.Param
import Xv6.Lib.Transition

/-! The concurrent core of proc.c: any number of CPUs run the scheduler, and processes that yield, sleep, wake
others up, kill, fork, exit and wait. A CPU does one command at a time; p->lock, wait_lock and the other spin
locks are held by CPUs, and p->lock stays with the CPU across swtch. -/

namespace Xv6.Sync.Machine
open Lib.Transition
open Function (update)

/-- The process table, and the process that gets orphans. -/
class Table (P : Type) where
  procs : List P
  complete : ∀ p, p ∈ procs
  initproc : P

inductive Procstate where
  | unused | used | sleeping | runnable | running | zombie
  deriving DecidableEq

/-- The address of a process, on which it sleeps in wait, or any other address. -/
inductive Chan (P X : Type) where
  | proc (p : P)
  | other (x : X)
  deriving DecidableEq

inductive Lock (L : Type) where
  | wait
  | other (l : L)
  deriving DecidableEq

/-- The places of a process at which the functions below hold no spin lock, so that interrupts may come: other kernel
code and user code, or between two critical sections of kill, allocproc, fork, sleep, exit or wait. -/
inductive Window (P L : Type) where
  | kernel
  | kill (pid : BitVec 32) (todo : List P)
  | alloc (todo : List P)
  | forkParent (np : P)
  | forkRun (np : P)
  | relock (l : Lock L)
  | exit (status : Int)
  | wait

/-- What follows a call of wakeup: a handler returns to the place it interrupted, reparent and exit go on. -/
inductive Return (P L : Type) where
  | resume (w : Window P L)
  | reparent (todo : List P) (status : Int)
  | exit (status : Int)

/-- Where a process that is not running goes on: the place in which it called sched, or forkret. -/
inductive Context (P L : Type) where
  | forkret
  | yield (w : Window P L)
  | sleep (l : Lock L)
  | exit

structure Proc (P L X : Type) where
  state : Procstate
  chan : Option (Chan P X)
  killed : Bool
  parent : Option P
  xstate : Int
  pid : BitVec 32
  /-- No two processes ever get the same number here. -/
  serial : Nat
  context : Context P L
  accumulator : Int
  vruntime : Int

/-- The place of a CPU in the kernel code of a process. -/
inductive Act (P L X : Type) where
  | window (w : Window P L)
  | yield (w : Window P L)
  | sleep (ch : Chan P X) (l : Lock L)
  | doze (ch : Chan P X) (l : Lock L)
  | sched (x : Context P L)
  | resumed (x : Context P L)
  | awake (l : Lock L)
  | wakeup (ch : Chan P X) (todo : List P) (k : Return P L)
  | wakeOne (ch : Chan P X) (q : P) (todo : List P) (k : Return P L)
  | wakeDone (ch : Chan P X) (q : P) (todo : List P) (k : Return P L)
  | killOne (pid : BitVec 32) (q : P) (todo : List P)
  | allocOne (q : P) (todo : List P)
  | fork (np : P)
  | forkLink (np : P)
  | forkUnlock (np : P)
  | forkDone (np : P)
  | unlock (q : P)
  | reparent (todo : List P) (status : Int)
  | wakeParent (status : Int)
  | zombify (status : Int)
  | zombie (status : Int)
  | gone
  | waitScan (todo : List P) (havekids : Bool)
  | waitOne (q : P) (todo : List P)
  | waitFree (q : P) (result : Int)
  | waitEnd (result : Int)

/-- The place of a CPU in scheduler: in the loop of policy 0 or the dispatch of all three, or in a pass of policy 1
or 2 that looks for min_proc. -/
inductive Pass (P : Type) where
  | idle
  | scan (todo : List P)
  | test (p : P) (todo : List P)
  | ready (p : P) (todo : List P)
  | back (p : P) (todo : List P)
  | cleared (p : P) (todo : List P)
  | scan1 (todo : List P) (min : Option P) (minAcc : Int) (count : Nat)
  | look1 (p : P) (todo : List P) (min : Option P) (minAcc : Int) (count : Nat)
  | scan2 (todo : List P) (min : Option P) (minVruntime : Int)
  | look2 (p : P) (todo : List P) (min : Option P) (minVruntime : Int)
  | chosen (p : P) (alone : Bool)
  | reset (p : P) (alone : Bool)

/-- A CPU is in scheduler, in an interrupt handler that interrupts it, or it runs a process; todo is the rest of
the loop over the table that the scheduler then returns to. -/
inductive Pc (P L X : Type) where
  | sched (pass : Pass P)
  | intr (pass : Pass P) (act : Act P L X)
  | run (p : P) (todo : List P) (act : Act P L X)

/-- An exit, or a child that wait has reaped. -/
inductive Record where
  | exit (serial : Nat) (status : Int)
  | reap (parent child : Nat) (pid : BitVec 32) (status : Int)

variable {P C L X D : Type}

/-- The machine: the process table and its locks, the other locks, for every CPU c->proc and its place, and data
that the other locks protect. -/
structure State (P C L X D : Type) where
  proc : P → Proc P L X
  plock : P → Option C
  lock : Lock L → Option C
  current : C → Option P
  pc : C → Pc P L X
  policy : Nat
  nextpid : BitVec 32
  born : Nat
  data : D
  history : List Record

inductive Cmd (P L X D : Type) where
  | jump (pc : Pc P L X)
  | acquireProc (q : P) (pc : Pc P L X)
  | releaseProc (q : P) (pc : Pc P L X)
  | acquire (l : Lock L) (pc : Pc P L X)
  | release (l : Lock L) (pc : Pc P L X)
  | assign (q : P) (b : Proc P L X) (record : Option Record) (pc : Pc P L X)
  | allocate (q : P) (pc : Pc P L X)
  | dispatch (p : P) (todo : List P)
  | clear (p : P) (todo : List P)
  | store (d : D)

section Commands
variable [DecidableEq P] [DecidableEq C] [DecidableEq L]

def State.go (s : State P C L X D) (c : C) (pc : Pc P L X) : State P C L X D := { s with pc := update s.pc c pc }

def State.put (s : State P C L X D) (q : P) (b : Proc P L X) : State P C L X D :=
  { s with proc := update s.proc q b }

/-- What a command does; none if the CPU has to wait for a lock. -/
def exec (s : State P C L X D) (c : C) : Cmd P L X D → Option (State P C L X D)
  | .jump pc => some (s.go c pc)
  | .acquireProc q pc =>
      if s.plock q = none then some { s.go c pc with plock := update s.plock q (some c) } else none
  | .releaseProc q pc => some { s.go c pc with plock := update s.plock q none }
  | .acquire l pc => if s.lock l = none then some { s.go c pc with lock := update s.lock l (some c) } else none
  | .release l pc => some { s.go c pc with lock := update s.lock l none }
  | .assign q b record pc => some { (s.put q b).go c pc with history := record.toList ++ s.history }
  | .allocate q pc =>
      some { (s.put q { s.proc q with
          pid := s.nextpid, serial := s.born, state := .used, context := .forkret }).go c pc with
        nextpid := s.nextpid + 1, born := s.born + 1 }
  | .dispatch p todo =>
      some { (s.put p { s.proc p with state := .running }).go c (.run p todo (.resumed (s.proc p).context)) with
        current := update s.current c (some p) }
  | .clear p todo => some { s.go c (.sched (.cleared p todo)) with current := update s.current c none }
  | .store d => some { s with data := d }

end Commands

section Code
variable [DecidableEq P] [DecidableEq C] [DecidableEq L] [DecidableEq X] [Table P]

def LLONG_MAX : Int := 2 ^ 63 - 1
def INT_MAX : Int := 2 ^ 31 - 1

def Return.act : Return P L → Act P L X
  | .resume w => .window w
  | .reparent todo status => .reparent todo status
  | .exit status => .zombify status

/-- What follows sleep: only wait sleeps with wait_lock. -/
def Lock.after : Lock L → Act P L X
  | .wait => .waitScan Table.procs false
  | .other _ => .window .kernel

/-- The same CPU elsewhere in kernel code; an interrupt handler that is done returns to the scheduler. -/
def Pc.act : Pc P L X → Act P L X → Pc P L X
  | .run p todo _, a => .run p todo a
  | .intr pass _, .window _ => .sched pass
  | .intr pass _, a => .intr pass a
  | .sched pass, a => .intr pass a

def freeproc (b : Proc P L X) : Proc P L X :=
  { b with pid := 0, parent := none, chan := none, killed := false, xstate := 0, state := .unused }

def schedule (s : State P C L X D) : Pass P → Cmd P L X D
  | .idle => .jump (.sched (match s.policy with
      | 0 => .scan Table.procs
      | 1 => .scan1 Table.procs none LLONG_MAX 0
      | 2 => .scan2 Table.procs none INT_MAX
      | _ => .idle))
  | .scan [] => .jump (.sched .idle)
  | .scan (p :: todo) => .acquireProc p (.sched (.test p todo))
  | .test p todo => .jump (.sched (if (s.proc p).state = .runnable then .ready p todo else .cleared p todo))
  | .ready p todo => .dispatch p todo
  | .back p todo => .clear p todo
  | .cleared p todo => .releaseProc p (.sched (.scan todo))
  | .scan1 [] min _ count => .jump (.sched (match min with
      | some p => .chosen p (count = 1)
      | none => .idle))
  | .scan1 (p :: todo) min minAcc count => .acquireProc p (.sched (.look1 p todo min minAcc count))
  | .look1 p todo min minAcc count => .releaseProc p (.sched (
      if (s.proc p).state = .runnable ∨ (s.proc p).state = .running then
        if (s.proc p).accumulator < minAcc ∨ count + 1 = 0 then .scan1 todo (some p) (s.proc p).accumulator (count + 1)
        else .scan1 todo min minAcc (count + 1)
      else .scan1 todo min minAcc count))
  | .scan2 [] min _ => .jump (.sched (match min with
      | some p => .chosen p false
      | none => .idle))
  | .scan2 (p :: todo) min minVruntime => .acquireProc p (.sched (.look2 p todo min minVruntime))
  | .look2 p todo min minVruntime => .releaseProc p (.sched (
      if (s.proc p).state = .runnable ∧ (s.proc p).vruntime < minVruntime then .scan2 todo (some p) (s.proc p).vruntime
      else .scan2 todo min minVruntime))
  | .chosen p alone => .acquireProc p (.sched (.reset p alone))
  | .reset p alone =>
      .assign p { s.proc p with accumulator := if alone then 0 else (s.proc p).accumulator } none (.sched (.test p []))

def waking (s : State P C L X D) (c : C) (pc : Pc P L X) : Act P L X → Option (Cmd P L X D)
  | .wakeup _ [] k => some (.jump (pc.act k.act))
  | .wakeup ch (q :: todo) k => some (
      if s.current c = some q then .jump (pc.act (.wakeup ch todo k))
      else .acquireProc q (pc.act (.wakeOne ch q todo k)))
  | .wakeOne ch q todo k => some (
      if (s.proc q).state = .sleeping ∧ (s.proc q).chan = some ch then
        .assign q { s.proc q with state := .runnable } none (pc.act (.wakeDone ch q todo k))
      else .releaseProc q (pc.act (.wakeup ch todo k)))
  | .wakeDone ch q todo k => some (.releaseProc q (pc.act (.wakeup ch todo k)))
  | _ => none

def thread (s : State P C L X D) (p : P) (todo : List P) : Act P L X → Option (Cmd P L X D)
  -- yield, sleep and sched
  | .yield w => some (.assign p { s.proc p with state := .runnable } none (.run p todo (.sched (.yield w))))
  | .sleep ch l => some (.release l (.run p todo (.doze ch l)))
  | .doze ch l => some (.assign p { s.proc p with chan := some ch, state := .sleeping } none
      (.run p todo (.sched (.sleep l))))
  | .sched x => some (.assign p { s.proc p with context := x } none (.sched (.back p todo)))
  | .resumed .forkret => some (.releaseProc p (.run p todo (.window .kernel)))
  | .resumed (.yield w) => some (.releaseProc p (.run p todo (.window w)))
  | .resumed (.sleep l) => some (.assign p { s.proc p with chan := none } none (.run p todo (.awake l)))
  | .awake l => some (.releaseProc p (.run p todo (.window (.relock l))))
  | .window (.relock l) => some (.acquire l (.run p todo l.after))
  -- kill
  | .window (.kill _ []) => some (.jump (.run p todo (.window .kernel)))
  | .window (.kill pid (q :: rest)) => some (.acquireProc q (.run p todo (.killOne pid q rest)))
  | .killOne pid q rest => some (
      if (s.proc q).pid = pid then
        .assign q { s.proc q with
          killed := true, state := if (s.proc q).state = .sleeping then .runnable else (s.proc q).state } none
          (.run p todo (.unlock q))
      else .releaseProc q (.run p todo (.window (.kill pid rest))))
  | .unlock q => some (.releaseProc q (.run p todo (.window .kernel)))
  -- allocproc and fork
  | .window (.alloc []) => some (.jump (.run p todo (.window .kernel)))
  | .window (.alloc (q :: rest)) => some (.acquireProc q (.run p todo (.allocOne q rest)))
  | .allocOne q rest => some (
      if (s.proc q).state = .unused then .allocate q (.run p todo (.fork q))
      else .releaseProc q (.run p todo (.window (.alloc rest))))
  | .fork np => some (.releaseProc np (.run p todo (.window (.forkParent np))))
  | .window (.forkParent np) => some (.acquire .wait (.run p todo (.forkLink np)))
  | .forkLink np => some (.assign np { s.proc np with parent := some p } none (.run p todo (.forkUnlock np)))
  | .forkUnlock np => some (.release .wait (.run p todo (.window (.forkRun np))))
  | .window (.forkRun np) => some (.acquireProc np (.run p todo (.forkDone np)))
  | .forkDone np => some (.assign np { s.proc np with state := .runnable } none (.run p todo (.unlock np)))
  -- reparent and exit
  | .window (.exit status) => some (.acquire .wait (.run p todo (.reparent Table.procs status)))
  | .reparent [] status => some (.jump (.run p todo (.wakeParent status)))
  | .reparent (q :: rest) status => some (
      if (s.proc q).parent = some p then
        .assign q { s.proc q with parent := some Table.initproc } none
          (.run p todo (.wakeup (.proc Table.initproc) Table.procs (.reparent rest status)))
      else .jump (.run p todo (.reparent rest status)))
  | .wakeParent status => some (.jump (.run p todo (match (s.proc p).parent with
      | some f => .wakeup (.proc f) Table.procs (.exit status)
      | none => .zombify status)))
  | .zombify status => some (.acquireProc p (.run p todo (.zombie status)))
  | .zombie status => some (.assign p { s.proc p with xstate := status, state := .zombie }
      (some (.exit (s.proc p).serial status)) (.run p todo .gone))
  | .gone => some (.release .wait (.run p todo (.sched .exit)))
  -- wait
  | .window .wait => some (.acquire .wait (.run p todo (.waitScan Table.procs false)))
  | .waitScan [] havekids => some (
      if havekids = false ∨ (s.proc p).killed then .jump (.run p todo (.waitEnd (-1)))
      else .acquireProc p (.run p todo (.sleep (.proc p) .wait)))
  | .waitScan (q :: rest) havekids => some (
      if (s.proc q).parent = some p then .acquireProc q (.run p todo (.waitOne q rest))
      else .jump (.run p todo (.waitScan rest havekids)))
  | .waitOne q rest => some (
      if (s.proc q).state = .zombie then
        .assign q (freeproc (s.proc q))
          (some (.reap (s.proc p).serial (s.proc q).serial (s.proc q).pid (s.proc q).xstate))
          (.run p todo (.waitFree q (s.proc q).pid.toInt))
      else .releaseProc q (.run p todo (.waitScan rest true)))
  | .waitFree q result => some (.releaseProc q (.run p todo (.waitEnd result)))
  | .waitEnd _ => some (.release .wait (.run p todo (.window .kernel)))
  | _ => none

/-- fork without memory for the copy, and wait with an address that copyout cannot write. -/
def failing (s : State P C L X D) (p : P) (todo : List P) : Act P L X → Option (Cmd P L X D)
  | .fork np => some (.assign np (freeproc (s.proc np)) none (.run p todo (.unlock np)))
  | .waitOne q _ => if (s.proc q).state = .zombie then some (.jump (.run p todo (.waitFree q (-1)))) else none
  | _ => none

/-- What a CPU may do next: go on, or where no p->lock is held, yield in a timer interrupt, call one of the functions,
take or give back another lock, or change data. -/
inductive Choice (L X D : Type) where
  | run
  | fail
  | yield
  | sleep (x : X) (l : L)
  | wakeup (x : X)
  | kill (pid : BitVec 32)
  | fork
  | exit (status : Int)
  | wait
  | acquire (l : L)
  | release (l : L)
  | change (d : D)

/-- The scheduler holds no p->lock, so that interrupts are on. -/
def Pass.unlocked : Pass P → Bool
  | .idle | .scan _ | .scan1 .. | .scan2 .. | .chosen .. => true
  | _ => false

/-- Kernel code, or an interrupt handler, that may call wakeup, acquire and release. -/
def Pc.unlocked : Pc P L X → Bool
  | .run _ _ (.window _) => true
  | .sched pass => pass.unlocked
  | _ => false

/-- Where a call of wakeup from unlocked code returns to. -/
def Pc.resume : Pc P L X → Return P L
  | .run _ _ (.window w) => .resume w
  | _ => .resume .kernel

/-- noff is not counted here: a CPU may yield or sleep also while it holds another spin lock, where sched would panic. -/
def command (s : State P C L X D) (c : C) : Choice L X D → Option (Cmd P L X D)
  | .run => match s.pc c with
      | .sched pass => some (schedule s pass)
      | .intr pass a => waking s c (.intr pass a) a
      | .run p todo a => (waking s c (.run p todo a) a).or (thread s p todo a)
  | .fail => match s.pc c with
      | .run p todo a => failing s p todo a
      | _ => none
  | .yield => match s.pc c with
      | .run p todo (.window w) => some (.acquireProc p (.run p todo (.yield w)))
      | _ => none
  | .sleep x l => match s.pc c with
      | .run p todo (.window .kernel) =>
          if s.lock (.other l) = some c then some (.acquireProc p (.run p todo (.sleep (.other x) (.other l)))) else none
      | _ => none
  | .wakeup x =>
      if (s.pc c).unlocked then some (.jump ((s.pc c).act (.wakeup (.other x) Table.procs (s.pc c).resume))) else none
  | .kill pid => match s.pc c with
      | .run p todo (.window .kernel) => some (.jump (.run p todo (.window (.kill pid Table.procs))))
      | _ => none
  | .fork => match s.pc c with
      | .run p todo (.window .kernel) => some (.jump (.run p todo (.window (.alloc Table.procs))))
      | _ => none
  | .exit status => match s.pc c with
      | .run p todo (.window .kernel) =>
          if p = Table.initproc then none else some (.jump (.run p todo (.window (.exit status))))
      | _ => none
  | .wait => match s.pc c with
      | .run p todo (.window .kernel) => some (.jump (.run p todo (.window .wait)))
      | _ => none
  | .acquire l => if (s.pc c).unlocked then some (.acquire (.other l) (s.pc c)) else none
  | .release l => if (s.pc c).unlocked ∧ s.lock (.other l) = some c then some (.release (.other l) (s.pc c)) else none
  | .change d => if (s.pc c).unlocked then some (.store d) else none

/-- A command of a CPU, set_policy, or a change to the numbers that the policies compare. -/
inductive Event (P C L X D : Type) where
  | cpu (c : C) (choice : Choice L X D)
  | policy (n : Nat)
  | drift (p : P) (accumulator vruntime : Int)

def step (s : State P C L X D) : Event P C L X D → Option (State P C L X D)
  | .cpu c choice => (command s c choice).bind (exec s c)
  | .policy n => some { s with policy := n }
  | .drift p accumulator vruntime =>
      some (s.put p { s.proc p with accumulator := accumulator, vruntime := vruntime })

/-- After userinit: the first process is runnable, every CPU is in scheduler and no lock is held. A context is read
only after allocproc has set it. -/
structure Init (s : State P C L X D) : Prop where
  first : (s.proc Table.initproc).state = .runnable
  others : ∀ p, p ≠ Table.initproc → (s.proc p).state = .unused
  blank : ∀ p, (s.proc p).chan = none ∧ (s.proc p).parent = none
  context : ∀ p, (s.proc p).context = .forkret
  free : (∀ p, s.plock p = none) ∧ ∀ l, s.lock l = none
  idle : ∀ c, s.pc c = .sched .idle ∧ s.current c = none
  serials : (s.proc Table.initproc).serial < s.born
  nothing : s.history = []

end Code

end Xv6.Sync.Machine
