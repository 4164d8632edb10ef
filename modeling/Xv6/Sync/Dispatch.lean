import Xv6.Sync.Machine

/-! A process runs on at most one CPU: which p->lock a CPU holds and which process it runs follows from its place,
and a process is RUNNING exactly while a CPU runs it and is not about to leave it. -/

namespace Xv6.Sync.Dispatch
open Lib.Transition Machine
open Function (Injective update update_of_ne update_self)

variable {P C L X D : Type}

section Places

def passHeld : Pass P → Option P
  | .test p _ | .ready p _ | .back p _ | .cleared p _ | .look1 p .. | .look2 p .. | .reset p _ => some p
  | _ => none

def actHeld (own : Option P) : Act P L X → Option P
  | .yield _ | .sleep .. | .doze .. | .sched _ | .resumed _ | .awake _ | .zombie _ | .gone => own
  | .wakeOne _ q .. | .wakeDone _ q .. | .killOne _ q _ | .unlock q | .allocOne q _ | .fork q | .forkDone q
  | .waitOne q _ | .waitFree q _ => some q
  | _ => none

def held : Pc P L X → Option P
  | .sched pass => passHeld pass
  | .intr _ a => actHeld none a
  | .run p _ a => actHeld (some p) a

def on : Pc P L X → Option P
  | .sched (.back p _) | .run p _ _ => some p
  | _ => none

def leaving : Pc P L X → Bool
  | .sched (.back ..) | .run _ _ (.sched _) | .run _ _ .gone => true
  | _ => false

/-- The process on whose kernel stack the CPU is. -/
def runs : Pc P L X → Option P
  | .run p _ _ => some p
  | _ => none

/-- The child that fork, interrupted here, is about to make RUNNABLE. -/
def windowForking : Window P L → Option P
  | .forkParent np | .forkRun np => some np
  | _ => none

def returnForking : Return P L → Option P
  | .resume w => windowForking w
  | _ => none

def contextForking : Context P L → Option P
  | .yield w => windowForking w
  | _ => none

def actForking : Act P L X → Option P
  | .window w | .yield w => windowForking w
  | .sched x | .resumed x => contextForking x
  | .wakeup _ _ k | .wakeOne _ _ _ k | .wakeDone _ _ _ k => returnForking k
  | .fork np | .forkLink np | .forkUnlock np | .forkDone np => some np
  | _ => none

def forking : Pc P L X → Option P
  | .run _ _ a => actForking a
  | _ => none

/-- The scheduler has seen that the process is RUNNABLE. -/
def chose : Pc P L X → Option P
  | .sched (.ready p _) => some p
  | _ => none

/-- Interrupt handlers run while the scheduler holds no p->lock. -/
def Handler : Pc P L X → Prop
  | .intr pass _ => pass.unlocked = true
  | _ => True

theorem held_of_leaving {pc : Pc P L X} (leaves : leaving pc = true) : held pc = on pc := by
  cases pc with
  | sched pass => cases pass <;> first | rfl | cases leaves
  | intr pass a => cases leaves
  | run p todo a => cases a <;> first | rfl | cases leaves

theorem forking_act {pc : Pc P L X} {a b : Act P L X} (here : pc.act a = pc) (same : actForking b = actForking a) {np : P}
    (forks : forking (pc.act b) = some np) : forking pc = some np := by
  cases pc with
  | sched pass => cases forks
  | intr pass a' => cases b <;> cases forks
  | run p todo a' =>
    obtain rfl := (Pc.run.inj here).2.2
    exact same.symm.trans forks

theorem unlocked_pass {pass : Pass P} (free : pass.unlocked = true) :
    passHeld pass = none ∧ on (.sched pass : Pc P L X) = none ∧ leaving (.sched pass : Pc P L X) = false ∧
      chose (.sched pass : Pc P L X) = none := by
  cases pass <;> first | exact ⟨rfl, rfl, rfl, rfl⟩ | cases free

end Places

section Typing
variable [Table P]

/-- The changes of p->state that a CPU makes to a process it does not run. -/
inductive Change (pc : Pc P L X) (q : P) : Procstate → Procstate → Prop where
  | wake : Change pc q .sleeping .runnable
  | reap : Change pc q .zombie .unused
  | forked (mine : forking pc = some q) : Change pc q .used .runnable
  | failed (mine : forking pc = some q) : Change pc q .used .unused

structure Stays (s : State P C L X D) (pc pc' : Pc P L X) : Prop where
  on : on pc' = on pc
  chose : ∀ p, chose pc' = some p → (s.proc p).state = .runnable
  handler : Handler pc'

structure Keeps (s : State P C L X D) (pc pc' : Pc P L X) : Prop extends Stays s pc pc' where
  runs : runs pc' = runs pc
  forking : ∀ np, forking pc' = some np → forking pc = some np

/-- What is known about a command at the place where it is done. -/
inductive Typed (s : State P C L X D) (pc : Pc P L X) : Cmd P L X D → Prop where
  | jump (pc' : Pc P L X) (keeps : Keeps s pc pc') (same : held pc' = held pc) (still : leaving pc' = leaving pc) :
      Typed s pc (.jump pc')
  | acquireProc (q : P) (pc' : Pc P L X) (keeps : Keeps s pc pc') (free : held pc = none) (took : held pc' = some q)
      (still : leaving pc = false ∧ leaving pc' = false) : Typed s pc (.acquireProc q pc')
  | releaseProc (q : P) (pc' : Pc P L X) (keeps : Keeps s pc pc') (had : held pc = some q) (free : held pc' = none)
      (still : leaving pc = false ∧ leaving pc' = false) : Typed s pc (.releaseProc q pc')
  | acquire (l : Lock L) (pc' : Pc P L X) (keeps : Keeps s pc pc') (same : held pc' = held pc)
      (still : leaving pc' = leaving pc) : Typed s pc (.acquire l pc')
  | release (l : Lock L) (pc' : Pc P L X) (keeps : Keeps s pc pc') (same : held pc' = held pc)
      (still : leaving pc' = leaving pc) : Typed s pc (.release l pc')
  | write (q : P) (b : Proc P L X) (record : Option Record) (pc' : Pc P L X) (keeps : Keeps s pc pc')
      (state : b.state = (s.proc q).state) (context : b.context = (s.proc q).context) (same : held pc' = held pc)
      (still : leaving pc' = leaving pc) : Typed s pc (.assign q b record pc')
  | save (p : P) (todo : List P) (x : Context P L) (here : pc = .run p todo (.sched x)) :
      Typed s pc (.assign p { s.proc p with context := x } none (.sched (.back p todo)))
  | change (q : P) (b : Proc P L X) (record : Option Record) (pc' : Pc P L X) (keeps : Keeps s pc pc')
      (change : Change pc q (s.proc q).state b.state) (context : b.context = (s.proc q).context)
      (done : (s.proc q).state = .used → forking pc' = none) (had : held pc = some q) (has : held pc' = some q)
      (still : leaving pc = false ∧ leaving pc' = false) : Typed s pc (.assign q b record pc')
  | leave (p : P) (b : Proc P L X) (record : Option Record) (pc' : Pc P L X) (keeps : Keeps s pc pc') (runs : on pc = some p)
      (had : held pc = some p) (has : held pc' = some p) (leaves : leaving pc = false ∧ leaving pc' = true)
      (stops : b.state ≠ .running ∧ b.state ≠ .used) (context : b.context = (s.proc p).context) :
      Typed s pc (.assign p b record pc')
  | allocate (q : P) (p : P) (todo rest : List P) (here : pc = .run p todo (.allocOne q rest))
      (unused : (s.proc q).state = .unused) : Typed s pc (.allocate q (.run p todo (.fork q)))
  | dispatch (p : P) (todo : List P) (here : pc = .sched (.ready p todo)) : Typed s pc (.dispatch p todo)
  | clear (p : P) (todo : List P) (here : pc = .sched (.back p todo)) : Typed s pc (.clear p todo)
  | store (d : D) : Typed s pc (.store d)

variable (s : State P C L X D) (c : C)

theorem schedule_typed (pass : Pass P) : Typed s (.sched pass) (schedule s pass) := by
  cases pass with
  | idle =>
    simp only [schedule]
    split <;> exact .jump _ ⟨⟨rfl, nofun, trivial⟩, rfl, nofun⟩ rfl rfl
  | scan todo =>
    cases todo with
    | nil => exact .jump _ ⟨⟨rfl, nofun, trivial⟩, rfl, nofun⟩ rfl rfl
    | cons p todo => exact .acquireProc _ _ ⟨⟨rfl, nofun, trivial⟩, rfl, nofun⟩ rfl rfl ⟨rfl, rfl⟩
  | test p todo =>
    simp only [schedule]
    split_ifs with runnable
    · refine .jump _ ⟨⟨rfl, fun q same => ?_, trivial⟩, rfl, nofun⟩ rfl rfl
      rw [← Option.some.inj same]
      exact runnable
    · exact .jump _ ⟨⟨rfl, nofun, trivial⟩, rfl, nofun⟩ rfl rfl
  | ready p todo => exact .dispatch p todo rfl
  | back p todo => exact .clear p todo rfl
  | cleared p todo => exact .releaseProc _ _ ⟨⟨rfl, nofun, trivial⟩, rfl, nofun⟩ rfl rfl ⟨rfl, rfl⟩
  | scan1 todo min minAcc count | scan2 todo min minVruntime =>
    cases todo with
    | nil => cases min <;> exact .jump _ ⟨⟨rfl, nofun, trivial⟩, rfl, nofun⟩ rfl rfl
    | cons p todo => exact .acquireProc _ _ ⟨⟨rfl, nofun, trivial⟩, rfl, nofun⟩ rfl rfl ⟨rfl, rfl⟩
  | look1 p todo min minAcc count | look2 p todo min minVruntime =>
    simp only [schedule]
    split_ifs <;> exact .releaseProc _ _ ⟨⟨rfl, nofun, trivial⟩, rfl, nofun⟩ rfl rfl ⟨rfl, rfl⟩
  | chosen p alone => exact .acquireProc _ _ ⟨⟨rfl, nofun, trivial⟩, rfl, nofun⟩ rfl rfl ⟨rfl, rfl⟩
  | reset p alone => exact .write _ _ _ _ ⟨⟨rfl, nofun, trivial⟩, rfl, nofun⟩ rfl rfl rfl rfl

variable {s c}

def inside : Pc P L X → Bool
  | .sched _ => false
  | _ => true

def wakes : Act P L X → Bool
  | .wakeup .. | .wakeOne .. | .wakeDone .. => true
  | _ => false

omit [Table P] in
theorem act_wakes {pc : Pc P L X} (handler : Handler pc) (within : inside pc = true) {a : Act P L X} (here : pc.act a = pc)
    (b : Act P L X) (waking : wakes b = true) (same : actForking b = actForking a) :
    Keeps s pc (pc.act b) ∧ held (pc.act b) = actHeld none b ∧ leaving (pc.act b) = false := by
  have forks : ∀ np, forking (pc.act b) = some np → forking pc = some np := fun np => forking_act here same
  cases pc with
  | sched pass => cases within
  | intr pass a' =>
    cases b with
    | wakeup ch todo k | wakeOne ch q todo k | wakeDone ch q todo k =>
      exact ⟨⟨⟨rfl, nofun, handler⟩, rfl, nofun⟩, rfl, rfl⟩
    | _ => cases waking
  | run p todo a' =>
    cases b with
    | wakeup ch todo k | wakeOne ch q todo k | wakeDone ch q todo k =>
      exact ⟨⟨⟨rfl, nofun, trivial⟩, rfl, forks⟩, rfl, rfl⟩
    | _ => cases waking

omit [Table P] in
theorem act_return {pc : Pc P L X} (handler : Handler pc) (within : inside pc = true) {ch : Chan P X} {todo : List P}
    {k : Return P L} (here : pc.act (.wakeup ch todo k) = pc) :
    Keeps s pc (pc.act k.act) ∧ held (pc.act k.act) = none ∧ leaving (pc.act k.act) = false := by
  have forks : ∀ np, forking (pc.act k.act) = some np → forking pc = some np :=
    fun np => forking_act here (by cases k <;> rfl)
  cases pc with
  | sched pass => cases within
  | intr pass a =>
    cases k with
    | resume w =>
      obtain ⟨free, off, stays, none⟩ := unlocked_pass (L := L) (X := X) handler
      exact ⟨⟨⟨off, fun p chosen => (by cases none.symm.trans chosen), trivial⟩, rfl, nofun⟩, free, stays⟩
    | _ => exact ⟨⟨⟨rfl, nofun, handler⟩, rfl, nofun⟩, rfl, rfl⟩
  | run p todo a => cases k <;> exact ⟨⟨⟨rfl, nofun, trivial⟩, rfl, forks⟩, rfl, rfl⟩

omit [Table P] in
theorem waking_typed [DecidableEq P] [DecidableEq X] {pc : Pc P L X} (handler : Handler pc) (within : inside pc = true) {a : Act P L X} (here : pc.act a = pc)
    {cmd : Cmd P L X D} (does : waking s c pc a = some cmd) : Typed s pc cmd := by
  have now := fun waking : wakes a = true => act_wakes (s := s) handler within here a waking rfl
  rw [here] at now
  cases a with
  | wakeup ch todo k =>
    obtain ⟨_, free, stays⟩ := now rfl
    cases todo with
    | nil =>
      cases does
      obtain ⟨keeps, free', stays'⟩ := act_return (s := s) handler within here
      exact .jump _ keeps (free'.trans free.symm) (stays'.trans stays.symm)
    | cons q todo =>
      simp only [waking] at does
      cases does
      split_ifs
      · obtain ⟨keeps, free', stays'⟩ := act_wakes (s := s) handler within here (.wakeup ch todo k) rfl rfl
        exact .jump _ keeps (free'.trans free.symm) (stays'.trans stays.symm)
      · obtain ⟨keeps, took, stays'⟩ := act_wakes (s := s) handler within here (.wakeOne ch q todo k) rfl rfl
        exact .acquireProc _ _ keeps free took ⟨stays, stays'⟩
  | wakeOne ch q todo k =>
    obtain ⟨_, had, stays⟩ := now rfl
    simp only [waking] at does
    cases does
    split_ifs with asleep
    · obtain ⟨keeps, has, stays'⟩ := act_wakes (s := s) handler within here (.wakeDone ch q todo k) rfl rfl
      have change : Change pc q (s.proc q).state .runnable := by
        rw [asleep.1]
        exact .wake
      exact .change _ _ _ _ keeps change rfl (fun used => by cases asleep.1.symm.trans used) had has ⟨stays, stays'⟩
    · obtain ⟨keeps, free, stays'⟩ := act_wakes (s := s) handler within here (.wakeup ch todo k) rfl rfl
      exact .releaseProc _ _ keeps had free ⟨stays, stays'⟩
  | wakeDone ch q todo k =>
    obtain ⟨_, had, stays⟩ := now rfl
    cases does
    obtain ⟨keeps, free, stays'⟩ := act_wakes (s := s) handler within here (.wakeup ch todo k) rfl rfl
    exact .releaseProc _ _ keeps had free ⟨stays, stays'⟩
  | _ => cases does

omit [Table P] in
theorem Keeps.run {p : P} {todo : List P} {a b : Act P L X} (forks : ∀ np, actForking b = some np → actForking a = some np) :
    Keeps s (.run p todo a) (.run p todo b) :=
  ⟨⟨rfl, nofun, trivial⟩, rfl, forks⟩

theorem window_typed [DecidableEq P] {p : P} {todo : List P} {w : Window P L} {cmd : Cmd P L X D}
    (does : thread s p todo (.window w) = some cmd) : Typed s (.run p todo (.window w)) cmd := by
  cases w with
  | kernel => cases does
  | kill pid rest | alloc rest =>
    cases rest with
    | nil =>
      cases does
      exact .jump _ (.run nofun) rfl rfl
    | cons q rest =>
      cases does
      exact .acquireProc _ _ (.run nofun) rfl rfl ⟨rfl, rfl⟩
  | relock l =>
    cases does
    cases l <;> exact .acquire _ _ (.run nofun) rfl rfl
  | forkParent np =>
    cases does
    exact .acquire _ _ (.run fun _ => id) rfl rfl
  | forkRun np =>
    cases does
    exact .acquireProc _ _ (.run fun _ => id) rfl rfl ⟨rfl, rfl⟩
  | exit status | wait =>
    cases does
    exact .acquire _ _ (.run nofun) rfl rfl

theorem thread_typed [DecidableEq P] {p : P} {todo : List P} {a : Act P L X}
    (forks : ∀ np, forking (.run p todo a : Pc P L X) = some np → (s.proc np).state = .used) {cmd : Cmd P L X D}
    (does : thread s p todo a = some cmd) : Typed s (.run p todo a) cmd := by
  cases a with
  | window w => exact window_typed does
  | yield w =>
    cases does
    exact .leave _ _ _ _ (.run fun _ => id) rfl rfl rfl ⟨rfl, rfl⟩ ⟨by simp, by simp⟩ rfl
  | doze ch l | zombie status =>
    cases does
    exact .leave _ _ _ _ (.run nofun) rfl rfl rfl ⟨rfl, rfl⟩ ⟨by simp, by simp⟩ rfl
  | sleep ch l | gone | waitEnd result =>
    cases does
    exact .release _ _ (.run nofun) rfl rfl
  | sched x =>
    cases does
    exact .save p todo x rfl
  | resumed x =>
    cases x with
    | forkret =>
      cases does
      exact .releaseProc _ _ (.run nofun) rfl rfl ⟨rfl, rfl⟩
    | yield w =>
      cases does
      exact .releaseProc _ _ (.run fun _ => id) rfl rfl ⟨rfl, rfl⟩
    | sleep l =>
      cases does
      exact .write _ _ _ _ (.run nofun) rfl rfl rfl rfl
    | exit => cases does
  | awake l | unlock q | waitFree q result =>
    cases does
    exact .releaseProc _ _ (.run nofun) rfl rfl ⟨rfl, rfl⟩
  | killOne pid q rest =>
    simp only [thread] at does
    cases does
    split_ifs with match' asleep
    · refine .change _ _ _ _ (.run nofun) ?_ rfl (fun _ => rfl) rfl rfl ⟨rfl, rfl⟩
      rw [asleep]
      exact .wake
    · exact .write _ _ _ _ (.run nofun) rfl rfl rfl rfl
    · exact .releaseProc _ _ (.run nofun) rfl rfl ⟨rfl, rfl⟩
  | allocOne q rest =>
    simp only [thread] at does
    cases does
    split_ifs with unused
    · exact .allocate q p todo rest rfl unused
    · exact .releaseProc _ _ (.run nofun) rfl rfl ⟨rfl, rfl⟩
  | fork np =>
    cases does
    exact .releaseProc _ _ (.run fun _ => id) rfl rfl ⟨rfl, rfl⟩
  | forkLink np =>
    cases does
    exact .write _ _ _ _ (.run fun _ => id) rfl rfl rfl rfl
  | forkUnlock np =>
    cases does
    exact .release _ _ (.run fun _ => id) rfl rfl
  | forkDone np =>
    cases does
    refine .change _ _ _ _ (.run nofun) ?_ rfl (fun _ => rfl) rfl rfl ⟨rfl, rfl⟩
    rw [forks np rfl]
    exact .forked rfl
  | reparent rest status =>
    cases rest with
    | nil =>
      cases does
      exact .jump _ (.run nofun) rfl rfl
    | cons q rest =>
      simp only [thread] at does
      cases does
      split_ifs
      · exact .write _ _ _ _ (.run nofun) rfl rfl rfl rfl
      · exact .jump _ (.run nofun) rfl rfl
  | wakeParent status =>
    simp only [thread] at does
    cases does
    cases (s.proc p).parent <;> exact .jump _ (.run nofun) rfl rfl
  | zombify status =>
    cases does
    exact .acquireProc _ _ (.run nofun) rfl rfl ⟨rfl, rfl⟩
  | waitScan rest havekids =>
    cases rest with
    | nil =>
      simp only [thread] at does
      cases does
      split_ifs
      · exact .jump _ (.run nofun) rfl rfl
      · exact .acquireProc _ _ (.run nofun) rfl rfl ⟨rfl, rfl⟩
    | cons q rest =>
      simp only [thread] at does
      cases does
      split_ifs
      · exact .acquireProc _ _ (.run nofun) rfl rfl ⟨rfl, rfl⟩
      · exact .jump _ (.run nofun) rfl rfl
  | waitOne q rest =>
    simp only [thread] at does
    cases does
    split_ifs with dead
    · refine .change _ _ _ _ (.run nofun) ?_ rfl (fun _ => rfl) rfl rfl ⟨rfl, rfl⟩
      rw [dead]
      exact .reap
    · exact .releaseProc _ _ (.run nofun) rfl rfl ⟨rfl, rfl⟩
  | _ => cases does

omit [Table P] in
theorem failing_typed {p : P} {todo : List P} {a : Act P L X}
    (forks : ∀ np, forking (.run p todo a : Pc P L X) = some np → (s.proc np).state = .used) {cmd : Cmd P L X D}
    (does : failing s p todo a = some cmd) : Typed s (.run p todo a) cmd := by
  cases a with
  | fork np =>
    cases does
    refine .change _ _ _ _ (.run nofun) ?_ rfl (fun _ => rfl) rfl rfl ⟨rfl, rfl⟩
    rw [forks np rfl]
    exact .failed rfl
  | waitOne q rest =>
    simp only [failing] at does
    split_ifs at does
    cases does
    exact .jump _ (.run nofun) rfl rfl
  | _ => cases does

omit [Table P] in
theorem unlocked_pc {pc : Pc P L X} (free : pc.unlocked = true) :
    (∃ p todo w, pc = .run p todo (.window w)) ∨ ∃ pass, pc = .sched pass ∧ pass.unlocked = true := by
  cases pc with
  | sched pass => exact .inr ⟨pass, rfl, free⟩
  | intr pass a => cases free
  | run p todo a =>
    cases a with
    | window w => exact .inl ⟨p, todo, w, rfl⟩
    | _ => cases free

omit [Table P] in
theorem keeps_unlocked {pc : Pc P L X} (free : pc.unlocked = true) : Keeps s pc pc := by
  rcases unlocked_pc free with ⟨p, todo, w, rfl⟩ | ⟨pass, rfl, open'⟩
  · exact .run fun _ => id
  · obtain ⟨_, _, _, none⟩ := unlocked_pass (L := L) (X := X) open'
    exact ⟨⟨rfl, fun p chosen => (by cases none.symm.trans chosen), trivial⟩, rfl, fun _ => id⟩

section Sources
variable [DecidableEq P] [DecidableEq C] [DecidableEq X] {cmd : Cmd P L X D}

inductive Source (s : State P C L X D) (c : C) : Cmd P L X D → Prop where
  | schedule (pass : Pass P) (here : s.pc c = .sched pass) : Source s c (schedule s pass)
  | waking (a : Act P L X) (within : inside (s.pc c) = true) (here : (s.pc c).act a = s.pc c) {cmd : Cmd P L X D}
      (does : waking s c (s.pc c) a = some cmd) : Source s c cmd
  | thread (p : P) (todo : List P) (a : Act P L X) (here : s.pc c = .run p todo a) {cmd : Cmd P L X D}
      (does : thread s p todo a = some cmd) : Source s c cmd
  | failing (p : P) (todo : List P) (a : Act P L X) (here : s.pc c = .run p todo a) {cmd : Cmd P L X D}
      (does : failing s p todo a = some cmd) : Source s c cmd
  | acquire (l : L) (free : (s.pc c).unlocked = true) : Source s c (.acquire (.other l) (s.pc c))
  | release (l : L) (free : (s.pc c).unlocked = true) (holds : s.lock (.other l) = some c) :
      Source s c (.release (.other l) (s.pc c))
  | change (d : D) (free : (s.pc c).unlocked = true) : Source s c (.store d)
  | wakeup (x : X) (free : (s.pc c).unlocked = true) :
      Source s c (.jump ((s.pc c).act (.wakeup (.other x) Table.procs (s.pc c).resume)))
  | yield (p : P) (todo : List P) (w : Window P L) (here : s.pc c = .run p todo (.window w)) :
      Source s c (.acquireProc p (.run p todo (.yield w)))
  | sleep (x : X) (l : L) (p : P) (todo : List P) (here : s.pc c = .run p todo (.window .kernel))
      (holds : s.lock (.other l) = some c) :
      Source s c (.acquireProc p (.run p todo (.sleep (.other x) (.other l))))
  | kill (pid : BitVec 32) (p : P) (todo : List P) (here : s.pc c = .run p todo (.window .kernel)) :
      Source s c (.jump (.run p todo (.window (.kill pid Table.procs))))
  | fork (p : P) (todo : List P) (here : s.pc c = .run p todo (.window .kernel)) :
      Source s c (.jump (.run p todo (.window (.alloc Table.procs))))
  | exit (status : Int) (p : P) (todo : List P) (here : s.pc c = .run p todo (.window .kernel))
      (other : p ≠ Table.initproc) : Source s c (.jump (.run p todo (.window (.exit status))))
  | wait (p : P) (todo : List P) (here : s.pc c = .run p todo (.window .kernel)) :
      Source s c (.jump (.run p todo (.window .wait)))

theorem command_source {choice : Choice L X D} (does : command s c choice = some cmd) : Source s c cmd := by
  cases choice <;> simp only [command] at does
  case run =>
    split at does
    next pass here =>
      cases does
      exact .schedule pass here
    next pass a here =>
      rw [← here] at does
      cases a with
      | window w => cases does
      | _ => exact .waking _ (by rw [here]; rfl) (by rw [here]; rfl) does
    next p todo a here =>
      rcases Option.or_eq_some_iff.mp does with woken | ⟨_, moved⟩
      · rw [← here] at woken
        exact .waking a (by rw [here]; rfl) (by rw [here]; rfl) woken
      · exact .thread p todo a here moved
  case fail =>
    split at does
    next p todo a here => exact .failing p todo a here does
    next => cases does
  case acquire l =>
    split_ifs at does with free
    cases does
    exact .acquire l free
  case release l =>
    split_ifs at does with free
    cases does
    exact .release l free.1 free.2
  case change d =>
    split_ifs at does with free
    cases does
    exact .change d free
  case wakeup x =>
    split_ifs at does with free
    cases does
    exact .wakeup x free
  case yield =>
    split at does <;> cases does
    rename_i p todo w here
    exact .yield p todo w here
  case sleep x l =>
    split at does
    next p todo here =>
      split_ifs at does with holds
      cases does
      exact .sleep x l p todo here holds
    next => cases does
  case kill pid =>
    split at does <;> cases does
    rename_i p todo here
    exact .kill pid p todo here
  case fork =>
    split at does <;> cases does
    rename_i p todo here
    exact .fork p todo here
  case exit status =>
    split at does
    next p todo here =>
      split_ifs at does with first
      cases does
      exact .exit status p todo here first
    next => cases does
  case wait =>
    split at does <;> cases does
    rename_i p todo here
    exact .wait p todo here

omit [DecidableEq C] in
theorem source_typed (handler : Handler (s.pc c)) (forks : ∀ np, forking (s.pc c) = some np → (s.proc np).state = .used)
    (source : Source s c cmd) : Typed s (s.pc c) cmd := by
  cases source with
  | schedule pass here =>
    rw [here]
    exact schedule_typed s pass
  | waking a within here does => exact waking_typed handler within here does
  | thread p todo a here does =>
    rw [here] at forks ⊢
    exact thread_typed forks does
  | failing p todo a here does =>
    rw [here] at forks ⊢
    exact failing_typed forks does
  | acquire l free => exact .acquire _ _ (keeps_unlocked free) rfl rfl
  | release l free => exact .release _ _ (keeps_unlocked free) rfl rfl
  | change d => exact .store d
  | wakeup x free =>
    rcases unlocked_pc free with ⟨p, todo, w, here⟩ | ⟨pass, here, open'⟩
    · rw [here]
      exact .jump _ (.run fun _ => id) rfl rfl
    · obtain ⟨noLock, off, stays, _⟩ := unlocked_pass (L := L) (X := X) open'
      rw [here]
      exact .jump _ ⟨⟨off.symm, nofun, open'⟩, rfl, nofun⟩ noLock.symm stays.symm
  | yield p todo w here =>
    rw [here]
    exact .acquireProc _ _ (.run fun _ => id) rfl rfl ⟨rfl, rfl⟩
  | sleep x l p todo here =>
    rw [here]
    exact .acquireProc _ _ (.run nofun) rfl rfl ⟨rfl, rfl⟩
  | exit status p todo here =>
    rw [here]
    exact .jump _ (.run nofun) rfl rfl
  | _ =>
    rename_i here
    rw [here]
    exact .jump _ (.run nofun) rfl rfl

end Sources

end Typing

section Invariant

/-- Who makes a child: a CPU in fork, or a process that was interrupted there and has lost its CPU. -/
inductive Makes (s : State P C L X D) (np : P) : C ⊕ P → Prop where
  | cpu (c : C) (here : forking (s.pc c) = some np) : Makes s np (.inl c)
  | proc (p : P) (away : ∀ c, runs (s.pc c) ≠ some p) (here : contextForking (s.proc p).context = some np) :
      Makes s np (.inr p)

/-- A process is RUNNING exactly if a CPU runs it and is not about to leave it; no two CPUs run one process; every lock
is held by the CPU whose place says so; and a process stays USED while one maker makes it. -/
structure Inv (s : State P C L X D) : Prop where
  locks : ∀ c q, s.plock q = some c ↔ held (s.pc c) = some q
  current : ∀ c, s.current c = on (s.pc c)
  distinct : ∀ c d p, on (s.pc c) = some p → on (s.pc d) = some p → c = d
  running : ∀ c p, on (s.pc c) = some p → ((s.proc p).state = .running ↔ leaving (s.pc c) = false)
  somewhere : ∀ p, (s.proc p).state = .running → ∃ c, on (s.pc c) = some p
  chosen : ∀ c p, chose (s.pc c) = some p → (s.proc p).state = .runnable
  forks : ∀ x np, Makes s np x → (s.proc np).state = .used
  apart : ∀ x y np, Makes s np x → Makes s np y → x = y
  handler : ∀ c, Handler (s.pc c)

theorem held_of_chose {pc : Pc P L X} {p : P} (chosen : chose pc = some p) : held pc = some p := by
  cases pc with
  | sched pass => cases pass <;> first | exact chosen | cases chosen
  | _ => cases chosen

variable {s s' : State P C L X D} {c : C} {q : P} {pc : Pc P L X}

theorem Inv.same (inv : Inv s) (pcs : s'.pc = s.pc) (plock : s'.plock = s.plock) (current : s'.current = s.current)
    (states : ∀ p, (s'.proc p).state = (s.proc p).state) (contexts : ∀ p, (s'.proc p).context = (s.proc p).context) :
    Inv s' := by
  have makers : ∀ x np, Makes s' np x → Makes s np x := by
    intro x np makes
    cases makes with
    | cpu c here => exact .cpu c (pcs ▸ here)
    | proc p away here => exact .proc p (pcs ▸ away) (contexts p ▸ here)
  refine ⟨?_, ?_, ?_, fun d p => ?_, fun p => ?_, fun d p => ?_, fun x np makes => ?_,
    fun x y np first second => inv.apart x y np (makers x np first) (makers y np second), ?_⟩
  · rw [plock, pcs]
    exact inv.locks
  · rw [current, pcs]
    exact inv.current
  · rw [pcs]
    exact inv.distinct
  · rw [states, pcs]
    exact inv.running d p
  · rw [states, pcs]
    exact inv.somewhere p
  · rw [states, pcs]
    exact inv.chosen d p
  · rw [states]
    exact inv.forks x np (makers x np makes)
  · rw [pcs]
    exact inv.handler

theorem Inv.used (inv : Inv s) (c : C) (np : P) (here : forking (s.pc c) = some np) : (s.proc np).state = .used :=
  inv.forks _ np (.cpu c here)

theorem Inv.holder (inv : Inv s) (had : held (s.pc c) = some q) {d : C} (other : held (s.pc d) = some q) : d = c :=
  Option.some.inj (((inv.locks d q).mpr other).symm.trans ((inv.locks c q).mpr had))

theorem Inv.off (inv : Inv s) (had : held (s.pc c) = some q) (still : leaving (s.pc c) = false)
    (stopped : (s.proc q).state ≠ .running) (d : C) : on (s.pc d) ≠ some q := by
  intro here
  have leaves : leaving (s.pc d) = true := by
    by_contra stays
    exact stopped ((inv.running d q here).mpr (by simpa using stays))
  obtain rfl := inv.holder had ((held_of_leaving leaves).trans here)
  exact absurd (still.symm.trans leaves) (by decide)

section Moves
variable [DecidableEq C] (inv : Inv s) (pcs : s'.pc = update s.pc c pc)
include pcs

theorem pc_self : s'.pc c = pc := by
  rw [pcs, update_self]

theorem pc_other {d : C} (other : d ≠ c) : s'.pc d = s.pc d := by
  rw [pcs, update_of_ne other]

theorem field_moved {A : Type} (field : Pc P L X → A) (same : field pc = field (s.pc c)) (d : C) :
    field (s'.pc d) = field (s.pc d) := by
  by_cases self : d = c
  · rw [self, pc_self pcs, same]
  · rw [pc_other pcs self]

theorem makes_moved (same : runs pc = runs (s.pc c)) (forks : ∀ np, forking pc = some np → forking (s.pc c) = some np)
    (contexts : ∀ p, (s'.proc p).context = (s.proc p).context) (x : C ⊕ P) (np : P) (makes : Makes s' np x) :
    Makes s np x := by
  cases makes with
  | cpu d here =>
    by_cases self : d = c
    · rw [self, pc_self pcs] at here
      exact .cpu d (self ▸ forks np here)
    · rw [pc_other pcs self] at here
      exact .cpu d here
  | proc p away here =>
    refine .proc p (fun d => ?_) (contexts p ▸ here)
    have apart := away d
    by_cases self : d = c
    · rwa [self, pc_self pcs, same, ← self] at apart
    · rwa [pc_other pcs self] at apart

include inv

theorem chosen_moved (chosen : ∀ p, chose pc = some p → (s.proc p).state = .runnable) {d : C} {p : P} (here : chose (s'.pc d) = some p) :
    (s.proc p).state = .runnable := by
  by_cases self : d = c
  · rw [self, pc_self pcs] at here
    exact chosen p here
  · rw [pc_other pcs self] at here
    exact inv.chosen d p here

theorem handler_moved (handler : Handler pc) (d : C) : Handler (s'.pc d) := by
  by_cases self : d = c
  · rw [self, pc_self pcs]
    exact handler
  · rw [pc_other pcs self]
    exact inv.handler d

/-- A step that leaves all states as they are, where a maker may hand its child over to another. -/
theorem Inv.moved (stays : Stays s (s.pc c) pc) (still : leaving pc = leaving (s.pc c))
    (current : s'.current = s.current) (states : ∀ p, (s'.proc p).state = (s.proc p).state)
    (locks : ∀ d q, s'.plock q = some d ↔ held (s'.pc d) = some q) (f : C ⊕ P → C ⊕ P) (injective : Injective f)
    (makers : ∀ x np, Makes s' np x → Makes s np (f x)) : Inv s' where
  locks := locks
  current d := by
    rw [current, field_moved pcs on stays.on, inv.current]
  distinct d e p first second := by
    rw [field_moved pcs on stays.on] at first second
    exact inv.distinct d e p first second
  running d p here := by
    rw [field_moved pcs on stays.on] at here
    rw [states, field_moved pcs leaving still]
    exact inv.running d p here
  somewhere p here := by
    rw [states] at here
    obtain ⟨d, there⟩ := inv.somewhere p here
    exact ⟨d, by rwa [field_moved pcs on stays.on]⟩
  chosen d p here := by
    rw [states]
    exact chosen_moved inv pcs stays.chose here
  forks x np makes := by
    rw [states]
    exact inv.forks (f x) np (makers x np makes)
  apart x y np first second := injective (inv.apart _ _ np (makers x np first) (makers y np second))
  handler := handler_moved inv pcs stays.handler

theorem Inv.stayed (keeps : Keeps s (s.pc c) pc) (still : leaving pc = leaving (s.pc c))
    (current : s'.current = s.current) (states : ∀ p, (s'.proc p).state = (s.proc p).state)
    (contexts : ∀ p, (s'.proc p).context = (s.proc p).context)
    (locks : ∀ d q, s'.plock q = some d ↔ held (s'.pc d) = some q) : Inv s' :=
  inv.moved pcs keeps.toStays still current states locks id Function.injective_id
    (makes_moved pcs keeps.runs keeps.forking contexts)

theorem Inv.kept (plock : s'.plock = s.plock) (same : held pc = held (s.pc c)) (d : C) (p : P) :
    s'.plock p = some d ↔ held (s'.pc d) = some p := by
  rw [plock, field_moved pcs held same]
  exact inv.locks d p

theorem Inv.took [DecidableEq P] (plock : s'.plock = update s.plock q (some c)) (unlocked : s.plock q = none)
    (free : held (s.pc c) = none) (took : held pc = some q) (d : C) (p : P) :
    s'.plock p = some d ↔ held (s'.pc d) = some p := by
  rw [plock]
  by_cases here : p = q
  · subst here
    rw [update_self]
    constructor
    · intro same
      rw [← Option.some.inj same, pc_self pcs]
      exact took
    · intro there
      by_cases self : d = c
      · rw [self]
      · rw [pc_other pcs self] at there
        cases unlocked.symm.trans ((inv.locks d p).mpr there)
  · rw [update_of_ne here]
    by_cases self : d = c
    · rw [self, pc_self pcs, took, inv.locks, free]
      exact ⟨nofun, fun same => absurd (Option.some.inj same).symm here⟩
    · rw [pc_other pcs self]
      exact inv.locks d p

theorem Inv.gave [DecidableEq P] (plock : s'.plock = update s.plock q none)
    (had : held (s.pc c) = some q) (free : held pc = none) (d : C) (p : P) :
    s'.plock p = some d ↔ held (s'.pc d) = some p := by
  rw [plock]
  by_cases here : p = q
  · subst here
    rw [update_self]
    refine ⟨nofun, fun there => ?_⟩
    by_cases self : d = c
    · rw [self, pc_self pcs, free] at there
      cases there
    · rw [pc_other pcs self] at there
      exact absurd (inv.holder had there) self
  · rw [update_of_ne here]
    by_cases self : d = c
    · rw [self, pc_self pcs, free, inv.locks, had]
      exact ⟨fun same => absurd (Option.some.inj same).symm here, nofun⟩
    · rw [pc_other pcs self]
      exact inv.locks d p

variable {x : Procstate} (here : (s'.proc q).state = x) (others : ∀ p, p ≠ q → (s'.proc p).state = (s.proc p).state)
include here others

theorem Inv.changed (same : on pc = on (s.pc c)) (handler : Handler pc)
    (chosen : ∀ d p, chose (s'.pc d) = some p → (s.proc p).state = .runnable) (current : s'.current = s.current) (locks : ∀ d q, s'.plock q = some d ↔ held (s'.pc d) = some q)
    (had : held (s.pc c) = some q) (still : leaving (s.pc c) = false ∧ leaving pc = false)
    (stopped : (s.proc q).state ≠ .running ∧ (s.proc q).state ≠ .runnable ∧ x ≠ .running)
    (forks : ∀ x np, Makes s' np x → (s'.proc np).state = .used)
    (apart : ∀ x y np, Makes s' np x → Makes s' np y → x = y) : Inv s' := by
  have off := inv.off had still.1 stopped.1
  refine ⟨locks, fun d => ?_, fun d e p first second => ?_, fun d p there => ?_, fun p there => ?_, fun d p there => ?_,
    forks, apart, handler_moved inv pcs handler⟩
  · rw [current, field_moved pcs on same, inv.current]
  · rw [field_moved pcs on same] at first second
    exact inv.distinct d e p first second
  · rw [field_moved pcs on same] at there
    have other : p ≠ q := by
      rintro rfl
      exact off d there
    rw [others p other, field_moved pcs leaving (still.2.trans still.1.symm)]
    exact inv.running d p there
  · have other : p ≠ q := by
      rintro rfl
      exact stopped.2.2 (here.symm.trans there)
    rw [others p other] at there
    obtain ⟨d, found⟩ := inv.somewhere p there
    exact ⟨d, by rwa [field_moved pcs on same]⟩
  · have ready := chosen d p there
    have other : p ≠ q := by
      rintro rfl
      exact stopped.2.1 ready
    rwa [others p other]

theorem Inv.left (keeps : Keeps s (s.pc c) pc) (current : s'.current = s.current)
    (locks : ∀ d q, s'.plock q = some d ↔ held (s'.pc d) = some q) (runs : on (s.pc c) = some q)
    (leaves : leaving (s.pc c) = false ∧ leaving pc = true) (stops : x ≠ .running ∧ x ≠ .used)
    (contexts : ∀ p, (s'.proc p).context = (s.proc p).context) : Inv s' := by
  have was := (inv.running c q runs).mpr leaves.1
  refine ⟨locks, fun d => ?_, fun d e p first second => ?_, fun d p there => ?_, fun p there => ?_, fun d p there => ?_,
    fun d np there => ?_, fun d e np first second => ?_, handler_moved inv pcs keeps.handler⟩
  · rw [current, field_moved pcs on keeps.on, inv.current]
  · rw [field_moved pcs on keeps.on] at first second
    exact inv.distinct d e p first second
  · rw [field_moved pcs on keeps.on] at there
    by_cases self : p = q
    · subst self
      obtain rfl := inv.distinct d c p there runs
      rw [here, pc_self pcs, leaves.2]
      exact ⟨fun same => absurd same stops.1, nofun⟩
    · have other : d ≠ c := by
        rintro rfl
        exact self (Option.some.inj (there.symm.trans runs))
      rw [others p self, pc_other pcs other]
      exact inv.running d p there
  · have other : p ≠ q := by
      rintro rfl
      exact stops.1 (here.symm.trans there)
    rw [others p other] at there
    obtain ⟨d, found⟩ := inv.somewhere p there
    exact ⟨d, by rwa [field_moved pcs on keeps.on]⟩
  · have chosen := chosen_moved inv pcs keeps.chose there
    have other : p ≠ q := by
      rintro rfl
      cases chosen.symm.trans was
    rwa [others p other]
  · have fresh := inv.forks d np (makes_moved pcs keeps.runs keeps.forking contexts d np there)
    have other : np ≠ q := by
      rintro rfl
      cases fresh.symm.trans was
    rwa [others np other]
  · have before := makes_moved pcs keeps.runs keeps.forking contexts
    exact inv.apart d e np (before d np first) (before e np second)

end Moves

theorem on_of_runs {p : P} (here : runs pc = some p) : on pc = some p := by
  cases pc with
  | run => exact here
  | _ => cases here

theorem Change.stops {before after : Procstate} (change : Change pc q before after) :
    before ≠ .running ∧ before ≠ .runnable ∧ after ≠ .running := by
  cases change <;> exact ⟨by simp, by simp, by simp⟩

theorem Change.mine {after : Procstate} (change : Change pc q .used after) : forking pc = some q := by
  cases change with
  | forked mine | failed mine => exact mine

section Hands
variable [DecidableEq P] [DecidableEq C] {todo : List P} (z : C ⊕ P) (np : P) (makes : Makes s' np z)
include makes

/-- A process that leaves its CPU takes its child along. -/
theorem makes_saved {x : Context P L} (here : s.pc c = .run q todo (.sched x))
    (pcs : s'.pc = update s.pc c (.sched (.back q todo))) (procs : s'.proc = update s.proc q { s.proc q with context := x }) :
    Makes s np (Equiv.swap (.inl c) (.inr q) z) := by
  cases makes with
  | cpu d forks =>
    by_cases self : d = c
    · rw [self, pc_self pcs] at forks
      cases forks
    · rw [pc_other pcs self] at forks
      rw [Equiv.swap_apply_of_ne_of_ne (by simpa using self) Sum.inl_ne_inr]
      exact .cpu d forks
  | proc p away forks =>
    rw [procs] at forks
    by_cases same : p = q
    · rw [same, update_self] at forks
      rw [same, Equiv.swap_apply_right]
      exact .cpu c (by rw [here]; exact forks)
    · rw [update_of_ne same] at forks
      rw [Equiv.swap_apply_of_ne_of_ne Sum.inr_ne_inl (by simpa using same)]
      refine .proc p (fun d => ?_) forks
      by_cases self : d = c
      · rw [self, here]
        exact fun equal => same (Option.some.inj equal).symm
      · have apart := away d
        rwa [pc_other pcs self] at apart

theorem makes_dispatched (off : ∀ d, runs (s.pc d) ≠ some q) {pass : Pass P} (here : s.pc c = .sched pass)
    (pcs : s'.pc = update s.pc c (.run q todo (.resumed (s.proc q).context)))
    (contexts : ∀ p, (s'.proc p).context = (s.proc p).context) : Makes s np (Equiv.swap (.inl c) (.inr q) z) := by
  cases makes with
  | cpu d forks =>
    by_cases self : d = c
    · rw [self, pc_self pcs] at forks
      rw [self, Equiv.swap_apply_left]
      exact .proc q off forks
    · rw [pc_other pcs self] at forks
      rw [Equiv.swap_apply_of_ne_of_ne (by simpa using self) Sum.inl_ne_inr]
      exact .cpu d forks
  | proc p away forks =>
    have same : p ≠ q := by
      rintro rfl
      exact away c (by rw [pc_self pcs]; rfl)
    rw [Equiv.swap_apply_of_ne_of_ne Sum.inr_ne_inl (by simpa using same)]
    refine .proc p (fun d => ?_) (contexts p ▸ forks)
    by_cases self : d = c
    · rw [self, here]
      nofun
    · have apart := away d
      rwa [pc_other pcs self] at apart

end Hands

theorem put_self [DecidableEq P] (s : State P C L X D) (q : P) (b : Proc P L X) : ((s.put q b).proc q).state = b.state := by
  simp only [State.put, update_self]

theorem put_state [DecidableEq P] (s : State P C L X D) (q : P) (b : Proc P L X) {p : P} (other : p ≠ q) :
    ((s.put q b).proc p).state = (s.proc p).state := by
  simp only [State.put, update_of_ne other]

theorem put_kept [DecidableEq P] {A : Type} (field : Proc P L X → A) (s : State P C L X D) (q : P) (b : Proc P L X)
    (same : field b = field (s.proc q)) (p : P) : field ((s.put q b).proc p) = field (s.proc p) := by
  by_cases here : p = q
  · rw [here]
    simpa only [State.put, update_self] using same
  · simp only [State.put, update_of_ne here]

section Switches
variable [DecidableEq C] (inv : Inv s) {todo : List P} (plock : s'.plock = s.plock)
include inv plock

theorem Inv.dispatched [DecidableEq P] (here : s.pc c = .sched (.ready q todo))
    (pcs : s'.pc = update s.pc c (.run q todo (.resumed (s.proc q).context)))
    (procs : s'.proc = update s.proc q { s.proc q with state := .running })
    (current : s'.current = update s.current c (some q)) : Inv s' := by
  have ready := inv.chosen c q (by rw [here]; rfl)
  have off := inv.off (by rw [here]; rfl : held (s.pc c) = some q) (by rw [here]; rfl) (by rw [ready]; simp)
  have contexts : ∀ p, (s'.proc p).context = (s.proc p).context := by
    rw [procs]
    exact put_kept Proc.context s q _ rfl
  have makers := fun z np makes =>
    makes_dispatched z np makes (fun d there => off d (on_of_runs there)) here pcs contexts
  have others : ∀ p, p ≠ q → (s'.proc p).state = (s.proc p).state := fun p other => by rw [procs, update_of_ne other]
  have onHere : on (s'.pc c) = some q := by rw [pc_self pcs]; rfl
  have onThere : ∀ d p, on (s'.pc d) = some p → d = c ∧ p = q ∨ d ≠ c ∧ on (s.pc d) = some p ∧ p ≠ q := by
    intro d p there
    by_cases self : d = c
    · rw [self, onHere] at there
      exact .inl ⟨self, (Option.some.inj there).symm⟩
    · rw [pc_other pcs self] at there
      exact .inr ⟨self, there, fun same => off d (same ▸ there)⟩
  refine ⟨inv.kept pcs plock (by rw [here]; rfl), fun d => ?_, fun d e p first second => ?_, fun d p there => ?_,
    fun p there => ?_, fun d p there => ?_, fun x np there => ?_, fun x y np first second => ?_,
    handler_moved inv pcs trivial⟩
  · by_cases self : d = c
    · rw [self, current, update_self, onHere]
    · rw [pc_other pcs self, current, update_of_ne self, inv.current]
  · rcases onThere d p first with ⟨rfl, rfl⟩ | ⟨_, before, other⟩ <;>
      rcases onThere e p second with ⟨rfl, same⟩ | ⟨_, before', other'⟩
    · rfl
    · exact absurd rfl other'
    · exact absurd same other
    · exact inv.distinct d e p before before'
  · rcases onThere d p there with ⟨rfl, rfl⟩ | ⟨apart, before, other⟩
    · rw [procs, update_self, pc_self pcs]
      exact ⟨fun _ => rfl, fun _ => rfl⟩
    · rw [others p other, pc_other pcs apart]
      exact inv.running d p before
  · by_cases same : p = q
    · exact ⟨c, same ▸ onHere⟩
    · rw [others p same] at there
      obtain ⟨d, found⟩ := inv.somewhere p there
      have other : d ≠ c := by
        rintro rfl
        rw [here] at found
        cases found
      exact ⟨d, by rw [pc_other pcs other, found]⟩
  · by_cases self : d = c
    · rw [self, pc_self pcs] at there
      cases there
    · rw [pc_other pcs self] at there
      have apart : p ≠ q := by
        rintro rfl
        exact self (inv.holder (by rw [here]; rfl) (held_of_chose there))
      rw [others p apart]
      exact inv.chosen d p there
  · have fresh := inv.forks _ np (makers x np there)
    have other : np ≠ q := by
      rintro rfl
      cases fresh.symm.trans ready
    rwa [others np other]
  · exact (Equiv.swap _ _).injective (inv.apart _ _ np (makers x np first) (makers y np second))

theorem Inv.cleared (here : s.pc c = .sched (.back q todo)) (pcs : s'.pc = update s.pc c (.sched (.cleared q todo)))
    (procs : s'.proc = s.proc) (current : s'.current = update s.current c none) : Inv s' := by
  have runs : on (s.pc c) = some q := by
    rw [here]
    rfl
  have stopped : (s.proc q).state ≠ .running := by
    intro running
    have stays := (inv.running c q runs).mp running
    rw [here] at stays
    cases stays
  have onThere : ∀ d p, on (s'.pc d) = some p → d ≠ c ∧ on (s.pc d) = some p := by
    intro d p there
    by_cases self : d = c
    · rw [self, pc_self pcs] at there
      cases there
    · exact ⟨self, by rwa [pc_other pcs self] at there⟩
  have makers := makes_moved pcs (by rw [here]; rfl) nofun fun p => by rw [procs]
  refine ⟨inv.kept pcs plock (by rw [here]; rfl), fun d => ?_,
    fun d e p first second => inv.distinct d e p (onThere d p first).2 (onThere e p second).2, fun d p there => ?_,
    fun p there => ?_, fun d p there => ?_, fun x np there => ?_,
    fun x y np first second => inv.apart x y np (makers x np first) (makers y np second), handler_moved inv pcs trivial⟩
  · by_cases self : d = c
    · rw [self, current, update_self, pc_self pcs]
      rfl
    · rw [pc_other pcs self, current, update_of_ne self, inv.current]
  · obtain ⟨other, before⟩ := onThere d p there
    rw [procs, pc_other pcs other]
    exact inv.running d p before
  · rw [procs] at there
    obtain ⟨d, found⟩ := inv.somewhere p there
    have other : d ≠ c := by
      rintro rfl
      obtain rfl := Option.some.inj (runs.symm.trans found)
      exact stopped there
    exact ⟨d, by rw [pc_other pcs other, found]⟩
  · rw [procs]
    exact chosen_moved inv pcs nofun there
  · rw [procs]
    exact inv.forks x np (makers x np there)

end Switches

variable [DecidableEq P] [DecidableEq C] [DecidableEq L]

theorem Inv.exec (inv : Inv s) {cmd : Cmd P L X D} (typed : Typed s (s.pc c) cmd) (does : exec s c cmd = some s') : Inv s' := by
  cases typed with
  | jump pc' keeps same still | release l pc' keeps same still =>
    cases does
    exact inv.stayed rfl keeps still rfl (fun _ => rfl) (fun _ => rfl) (inv.kept rfl rfl same)
  | acquire l pc' keeps same still =>
    simp only [Machine.exec] at does
    split_ifs at does
    cases does
    exact inv.stayed rfl keeps still rfl (fun _ => rfl) (fun _ => rfl) (inv.kept rfl rfl same)
  | acquireProc q pc' keeps free took still =>
    simp only [Machine.exec] at does
    split_ifs at does with unlocked
    cases does
    exact inv.stayed rfl keeps (still.2.trans still.1.symm) rfl (fun _ => rfl) (fun _ => rfl)
      (inv.took rfl rfl unlocked free took)
  | releaseProc q pc' keeps had free still =>
    cases does
    exact inv.stayed rfl keeps (still.2.trans still.1.symm) rfl (fun _ => rfl) (fun _ => rfl) (inv.gave rfl rfl had free)
  | write q b record pc' keeps state context same still =>
    cases does
    exact inv.stayed rfl keeps still rfl (put_kept Proc.state s q b state) (put_kept Proc.context s q b context)
      (inv.kept rfl rfl same)
  | save p todo x here =>
    cases does
    exact inv.moved rfl ⟨by rw [here]; rfl, nofun, trivial⟩ (by rw [here]; rfl) rfl (put_kept Proc.state s p _ rfl)
      (inv.kept rfl rfl (by rw [here]; rfl)) (Equiv.swap (.inl c) (.inr p)) (Equiv.injective _)
      fun z np makes => makes_saved z np makes here rfl rfl
  | store d =>
    cases does
    exact inv.same rfl rfl rfl (fun _ => rfl) fun _ => rfl
  | change q b record pc' keeps change context done had has still =>
    cases does
    have makers : ∀ x np, Makes { (s.put q b).go c pc' with history := record.toList ++ s.history } np x → Makes s np x :=
      makes_moved rfl keeps.runs keeps.forking (put_kept Proc.context s q b context)
    refine inv.changed rfl (put_self s q b) (fun r other => put_state s q b other) keeps.on keeps.handler
      (fun d r there => chosen_moved inv rfl keeps.chose there) rfl (inv.kept rfl rfl (has.trans had.symm)) had still
      change.stops (fun x np there => ?_) (fun x y np first second => inv.apart x y np (makers x np first) (makers y np second))
    have before := makers x np there
    have fresh := inv.forks x np before
    have other : np ≠ q := by
      rintro rfl
      have past := done fresh
      rw [fresh] at change
      obtain rfl := inv.apart x (.inl c) np before (.cpu c change.mine)
      cases there with
      | cpu _ there =>
        rw [pc_self rfl, past] at there
        cases there
    exact (put_state s q b other).trans fresh
  | leave p b record pc' keeps runs had has leaves stops context =>
    cases does
    exact inv.left rfl (put_self s p b) (fun r other => put_state s p b other) keeps rfl
      (inv.kept rfl rfl (has.trans had.symm)) runs leaves stops (put_kept Proc.context s p b context)
  | allocate q p todo rest here unused =>
    cases does
    -- whoever made a child before still makes it, and c makes the new one
    have new : ∀ x np, Makes { (s.put q { s.proc q with
          pid := s.nextpid, serial := s.born, state := .used, context := .forkret }).go c (.run p todo (.fork q)) with
        nextpid := s.nextpid + 1, born := s.born + 1 } np x →
        (x = .inl c ∧ np = q) ∨ (x ≠ .inl c ∧ Makes s np x ∧ np ≠ q) := by
      intro x np there
      have old : Makes s np x → np ≠ q := by
        rintro before rfl
        cases (inv.forks x np before).symm.trans unused
      cases there with
      | cpu d forks =>
        change forking ((update s.pc c (.run p todo (.fork q))) d) = some np at forks
        by_cases self : d = c
        · rw [self, update_self] at forks
          exact .inl ⟨congrArg _ self, (Option.some.inj forks).symm⟩
        · rw [update_of_ne self] at forks
          exact .inr ⟨by simpa using self, .cpu d forks, old (.cpu d forks)⟩
      | proc r away forks =>
        change contextForking ((update s.proc q _) r).context = some np at forks
        by_cases same : r = q
        · rw [same, update_self] at forks
          cases forks
        · rw [update_of_ne same] at forks
          have before : Makes s np (.inr r) := by
            refine .proc r (fun d there => away d ?_) forks
            change runs ((update s.pc c (.run p todo (.fork q))) d) = some r
            by_cases self : d = c
            · rw [self, update_self]
              rwa [self, here] at there
            · rwa [update_of_ne self]
          exact .inr ⟨nofun, before, old before⟩
    have chosen : ∀ d r, chose ((update s.pc c (.run p todo (.fork q))) d) = some r → (s.proc r).state = .runnable := by
      intro d r there
      by_cases self : d = c
      · rw [self, update_self] at there
        cases there
      · rw [update_of_ne self] at there
        exact inv.chosen d r there
    refine inv.changed rfl (put_self s q _) (fun r other => put_state s q _ other) (by rw [here]; rfl) trivial chosen rfl
      (inv.kept rfl rfl (by rw [here]; rfl)) (by rw [here]; rfl) (by rw [here]; exact ⟨rfl, rfl⟩)
      (by rw [unused]; exact ⟨by simp, by simp, by simp⟩) (fun x np there => ?_) (fun x y np first second => ?_)
    · rcases new x np there with ⟨_, rfl⟩ | ⟨_, before, other⟩
      · exact put_self s np _
      · exact (put_state s q _ other).trans (inv.forks x np before)
    · rcases new x np first with ⟨rfl, rfl⟩ | ⟨_, before, other⟩ <;> rcases new y np second with ⟨rfl, same⟩ | ⟨_, before', other'⟩
      · rfl
      · exact absurd rfl other'
      · exact absurd same other
      · exact inv.apart x y np before before'
  | dispatch p todo here =>
    cases does
    exact inv.dispatched rfl here rfl rfl rfl
  | clear p todo here =>
    cases does
    exact inv.cleared rfl here rfl rfl rfl

omit [DecidableEq C] [DecidableEq L] in
theorem Inv.init [Table P] (start : Init s) : Inv s := by
  have idle : ∀ c, s.pc c = .sched .idle := fun c => (start.idle c).1
  have still : ∀ p, (s.proc p).state ≠ .running := by
    intro p here
    by_cases first : p = Table.initproc
    · rw [first, start.first] at here
      cases here
    · rw [start.others p first] at here
      cases here
  have nobody : ∀ x np, ¬Makes s np x := by
    intro x np makes
    cases makes with
    | cpu c here =>
      rw [idle c] at here
      cases here
    | proc p _ here =>
      rw [start.context p] at here
      cases here
  refine ⟨fun c q => ?_, fun c => ?_, fun c _ p here => ?_, fun c p here => ?_, fun p here => (still p here).elim,
    fun c p here => ?_, fun x np here => (nobody x np here).elim, fun x _ np here => (nobody x np here).elim, fun c => ?_⟩
  · rw [start.free.1 q, idle c]
    exact ⟨nofun, nofun⟩
  · rw [idle c, (start.idle c).2]
    rfl
  · rw [idle c] at here
    cases here
  · rw [idle c] at here
    cases here
  · rw [idle c] at here
    cases here
  · rw [idle c]
    trivial

variable [DecidableEq X] [Table P]

theorem Inv.next (inv : Inv s) {e : Event P C L X D} (taken : step s e = some s') : Inv s' := by
  cases e with
  | cpu c choice =>
    obtain ⟨cmd, does, done⟩ := Option.bind_eq_some_iff.mp taken
    exact inv.exec (source_typed (inv.handler c) (inv.used c) (command_source does)) done
  | policy n =>
    cases taken
    exact inv.same rfl rfl rfl (fun _ => rfl) fun _ => rfl
  | drift p accumulator vruntime =>
    cases taken
    exact inv.same rfl rfl rfl (put_kept Proc.state s p _ rfl) (put_kept Proc.context s p _ rfl)

def Steps (s s' : State P C L X D) : Prop := ∃ e, step s e = some s'

theorem Inv.of_reachable (reachable : Reachable Init Steps s) : Inv s :=
  reachable.invariant Inv (fun _ => Inv.init) (fun _ _ inv ⟨_, taken⟩ => inv.next taken)

theorem Inv.dispatches (inv : Inv s) {e : Event P C L X D} (taken : step s e = some s') {c : C} {p : P}
    (now : s'.current c = some p) (before : s.current c ≠ some p) : (s.proc p).state = .runnable := by
  cases e with
  | cpu d choice =>
    obtain ⟨cmd, does, done⟩ := Option.bind_eq_some_iff.mp taken
    cases source_typed (inv.handler d) (inv.used d) (command_source does) with
    | dispatch q todo here =>
      cases done
      have ready := inv.chosen d q (by rw [here]; rfl)
      change (update s.current d (some q)) c = some p at now
      by_cases self : c = d
      · rw [self, update_self] at now
        rwa [← Option.some.inj now]
      · rw [update_of_ne self] at now
        exact absurd now before
    | clear q todo here =>
      cases done
      change (update s.current d none) c = some p at now
      by_cases self : c = d
      · rw [self, update_self] at now
        cases now
      · rw [update_of_ne self] at now
        exact absurd now before
    | acquire l pc' | acquireProc q pc' =>
      simp only [Machine.exec] at done
      split_ifs at done
      cases done
      exact absurd now before
    | _ =>
      cases done
      exact absurd now before
  | policy n | drift q accumulator vruntime =>
    cases taken
    exact absurd now before

/-- No two CPUs run the same process; a process whose lock is free is RUNNING exactly if one CPU runs it; and a CPU
switches only to a process that is RUNNABLE then. -/
theorem runs_on_one_cpu (reachable : Reachable Init Steps s) :
    (∀ c d p, s.current c = some p → s.current d = some p → c = d) ∧
      (∀ p, s.plock p = none → ((s.proc p).state = .running ↔ ∃! c, s.current c = some p)) ∧
      ∀ e s', step s e = some s' → ∀ c p, s'.current c = some p → s.current c ≠ some p →
        (s.proc p).state = .runnable := by
  have inv := Inv.of_reachable reachable
  have distinct : ∀ c d p, s.current c = some p → s.current d = some p → c = d := by
    intro c d p first second
    rw [inv.current] at first second
    exact inv.distinct c d p first second
  refine ⟨distinct, fun p free => ⟨fun running => ?_, fun ⟨c, here, _⟩ => ?_⟩, fun e s' taken c p => inv.dispatches taken⟩
  · obtain ⟨c, here⟩ := inv.somewhere p running
    rw [← inv.current] at here
    exact ⟨c, here, fun d there => distinct d c p there here⟩
  · replace here : on (s.pc c) = some p := (inv.current c).symm.trans here
    refine (inv.running c p here).mpr ?_
    by_contra leaves
    have had := (held_of_leaving (by simpa using leaves)).trans here
    cases free.symm.trans ((inv.locks c p).mpr had)

instance : Table (Fin NPROC) where
  procs := List.finRange NPROC
  complete := List.mem_finRange
  initproc := ⟨0, NPROC_pos⟩

def booted {D : Type} (d : D) : State (Fin NPROC) Nat Unit Unit D where
  proc p := {
    state := if p.val = 0 then .runnable else .unused, chan := none, killed := false, parent := none, xstate := 0,
    pid := if p.val = 0 then 1 else 0, serial := 0, context := .forkret, accumulator := 0, vruntime := 0 }
  plock _ := none
  lock _ := none
  current _ := none
  pc _ := .sched .idle
  policy := 0
  nextpid := 2
  born := 1
  data := d
  history := []

theorem booted_init {D : Type} (d : D) : Init (booted d) where
  first := rfl
  others _ other := if_neg fun zero => other (Fin.ext zero)
  blank _ := ⟨rfl, rfl⟩
  context _ := rfl
  free := ⟨fun _ => rfl, fun _ => rfl⟩
  idle _ := ⟨rfl, rfl⟩
  serials := Nat.zero_lt_one
  nothing := rfl

/-- CPU 1 looks for the process with the least accumulator and finds the first one; before it dispatches it, CPU 0 does. -/
def contended : List (Event (Fin NPROC) Nat Unit Unit Unit) :=
  [.policy 1] ++ List.replicate (2 * NPROC + 2) (.cpu 1 .run) ++ [.policy 0] ++ List.replicate 5 (.cpu 0 .run) ++
    List.replicate 4 (.cpu 1 .run)

theorem runs_on_one_cpu_contended :
    ∃ s, contended.foldlM step (booted ()) = some s ∧ (s.proc Table.initproc).state = .running ∧
      ∃! c, s.current c = some Table.initproc := by
  have ends : (contended.foldlM step (booted ())).map
      (fun s => ((s.proc Table.initproc).state, s.plock Table.initproc)) = some (.running, none) := by decide +kernel
  obtain ⟨s, played, facts⟩ := Option.map_eq_some_iff.mp ends
  obtain ⟨running, free⟩ := Prod.mk.inj facts
  have start : Reachable Init Steps (booted ()) := .init _ (booted_init ())
  have reached := start.foldlM (fun _ e _ taken => ⟨e, taken⟩) played
  exact ⟨s, played, running, ((runs_on_one_cpu reached).2.1 Table.initproc free).mp running⟩

end Invariant

end Xv6.Sync.Dispatch
