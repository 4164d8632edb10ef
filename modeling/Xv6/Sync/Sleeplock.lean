import Xv6.Lib.Transition

/-! Sleep locks: acquiresleep, releasesleep and holdingsleep of one lock by any number of processes, with the sleep and
wakeup that they call. A process takes one step at a time; lk->lk and p->lock are spin locks. -/

namespace Xv6.Sync.Sleeplock
open Lib.Transition
open Function (Injective update update_apply update_of_ne update_self)

/-- The processes: the table that wakeup goes through, and their pids. -/
class Processes (P : Type) where
  procs : List P
  complete : ∀ p, p ∈ procs
  pid : P → BitVec 32
  distinct : Injective pid

inductive Procstate where
  | sleeping | runnable | running
  deriving DecidableEq

/-- Where a process is: outside, or before a statement of one of the functions. -/
inductive Pc (P : Type) where
  | outside
  -- acquiresleep, and sleep from its first statement on
  | acquire
  | test
  | sleep
  | release
  | doze
  | sched
  | off
  | awake
  | take
  | taken
  | holding
  -- releasesleep, and wakeup
  | drop
  | clear
  | wakeup (todo : List P)
  | wakeOne (q : P) (todo : List P)
  | dropped
  -- holdingsleep of a process that holds the lock or not
  | ask (holds : Bool)
  | asked (holds : Bool)
  | answered (holds result : Bool)
  deriving DecidableEq

variable {P : Type}

/-- The lock, with its fields and its spin lock, and of the processes what sleep and wakeup look at; chan says whether
p->chan is the lock. -/
structure State (P : Type) where
  locked : Bool
  pid : BitVec 32
  lk : Option P
  plock : P → Option P
  state : P → Procstate
  chan : P → Bool
  pc : P → Pc P

/-- A process calls one of the functions, or goes on; or somebody kills a process. -/
inductive Event (P : Type) where
  | acquiresleep (p : P)
  | releasesleep (p : P)
  | holdingsleep (p : P)
  | run (p : P)
  | kill (q : P)

variable [DecidableEq P] [Processes P]

def State.go (s : State P) (p : P) (pc : Pc P) : State P := { s with pc := update s.pc p pc }

def State.setState (s : State P) (p : P) (state : Procstate) : State P :=
  { s with state := update s.state p state }

/-- What wakeup and kill do to a process that sleeps. -/
def State.rouse (s : State P) (q : P) : State P := if s.state q = .sleeping then s.setState q .runnable else s

def State.wake (s : State P) (q : P) : State P := if s.chan q then s.rouse q else s

/-- The next statement of a process; none if it has to wait for a spin lock or is not running. -/
def run (s : State P) (p : P) : Option (State P) :=
  match s.pc p with
  | .outside | .holding => none
  | .acquire => if s.lk = none then some { s.go p .test with lk := some p } else none
  | .test => some (s.go p (if s.locked then .sleep else .take))
  -- sleep(lk, &lk->lk): p->lock before the release of lk->lk
  | .sleep => if s.plock p = none then some { s.go p .release with plock := update s.plock p (some p) } else none
  | .release => some { s.go p .doze with lk := none }
  | .doze => some { (s.go p .sched).setState p .sleeping with chan := update s.chan p true }
  -- the scheduler gives p->lock back, and takes it again to run a process that is RUNNABLE
  | .sched => some { s.go p .off with plock := update s.plock p none }
  | .off =>
      if s.plock p = none ∧ s.state p = .runnable then
        some { (s.go p .awake).setState p .running with plock := update s.plock p (some p) }
      else none
  | .awake => some { s.go p .acquire with chan := update s.chan p false, plock := update s.plock p none }
  | .take => some { s.go p .taken with locked := true, pid := Processes.pid p }
  | .taken => some { s.go p .holding with lk := none }
  | .drop => if s.lk = none then some { s.go p .clear with lk := some p } else none
  | .clear => some { s.go p (.wakeup Processes.procs) with locked := false, pid := 0 }
  | .wakeup [] => some (s.go p .dropped)
  | .wakeup (q :: todo) =>
      if q = p then some (s.go p (.wakeup todo))
      else if s.plock q = none then some { s.go p (.wakeOne q todo) with plock := update s.plock q (some p) }
      else none
  | .wakeOne q todo => some { (s.wake q).go p (.wakeup todo) with plock := update s.plock q none }
  | .dropped => some { s.go p .outside with lk := none }
  | .ask holds => if s.lk = none then some { s.go p (.asked holds) with lk := some p } else none
  | .asked holds => some (s.go p (.answered holds (s.locked && s.pid == Processes.pid p)))
  | .answered holds _ => some { s.go p (if holds then .holding else .outside) with lk := none }

def step (s : State P) : Event P → Option (State P)
  | .acquiresleep p => if s.pc p = .outside then some (s.go p .acquire) else none
  | .releasesleep p => if s.pc p = .holding then some (s.go p .drop) else none
  | .holdingsleep p => match s.pc p with
      | .outside => some (s.go p (.ask false))
      | .holding => some (s.go p (.ask true))
      | _ => none
  | .run p => run s p
  | .kill q => if s.plock q = none then some (s.rouse q) else none

def Steps (s s' : State P) : Prop := ∃ e, step s e = some s'

structure Init (s : State P) : Prop where
  unlocked : s.locked = false
  free : s.lk = none ∧ ∀ p, s.plock p = none
  outside : ∀ p, s.pc p = .outside
  awake : ∀ p, s.state p ≠ .sleeping

section Places

def inner : Pc P → Bool
  | .test | .sleep | .release | .take | .taken | .clear | .wakeup _ | .wakeOne .. | .dropped | .asked _
  | .answered .. => true
  | _ => false

/-- The process has the lock: it is between acquiresleep and releasesleep, or just before or after. -/
def owns : Pc P → Bool
  | .taken | .holding | .drop | .clear | .ask true | .asked true | .answered true _ => true
  | _ => false

/-- Whose p->lock the process, or the CPU that leaves it, holds. -/
def held (p : P) : Pc P → Option P
  | .release | .doze | .sched | .awake => some p
  | .wakeOne q _ => some q
  | _ => none

/-- Neither asleep nor about to sleep. -/
def up : Pc P → Bool
  | .doze | .sched | .off => false
  | _ => true

def pending : Pc P → List P
  | .wakeup todo => todo
  | .wakeOne q todo => q :: todo
  | _ => []

omit [DecidableEq P] [Processes P] in
theorem inner_of_pending {pc : Pc P} {q : P} (waits : q ∈ pending pc) : inner pc = true := by
  cases pc with
  | wakeup | wakeOne => rfl
  | _ => cases waits

end Places

def Asleep (s : State P) (q : P) : Prop := s.pc q = .doze ∨ s.state q = .sleeping

structure Fits (lk : Option P) (plock : P → Option P) (p : P) (pc : Pc P) : Prop where
  inner : inner pc = true → lk = some p
  held : ∀ q, held p pc = some q → plock q = some p

def Locks (s : State P) : Prop := ∀ p, Fits s.lk s.plock p (s.pc p)

section Locks
variable {s s' : State P} {p : P} {pc : Pc P}

omit [Processes P] in
theorem moved (property : P → Pc P → Prop) (pcs : s'.pc = update s.pc p pc) (here : property p pc)
    (others : ∀ q, q ≠ p → property q (s.pc q)) (q : P) : property q (s'.pc q) := by
  rw [pcs]
  by_cases same : q = p
  · rw [same, update_self]
    exact here
  · rw [update_of_ne same]
    exact others q same

variable (locks : Locks s) (pcs : s'.pc = update s.pc p pc) {old : Pc P} (here : s.pc p = old)
include locks

omit [DecidableEq P] [Processes P] in
theorem Locks.alone (mine : inner (s.pc p) = true) {q : P} (inside : inner (s.pc q) = true) : q = p :=
  Option.some.inj (((locks q).inner inside).symm.trans ((locks p).inner mine))

include pcs here

omit [Processes P] in
theorem Locks.kept (lk : s'.lk = s.lk) (plock : s'.plock = s.plock) (inside : inner pc = inner old)
    (same : held p pc = held p old) : Locks s' := by
  subst here
  unfold Locks
  rw [lk, plock]
  exact moved (Fits s.lk s.plock) pcs ⟨inside ▸ (locks p).inner, same ▸ (locks p).held⟩ fun q _ => locks q

omit [Processes P] in
theorem Locks.took (free : s.lk = none) (lk : s'.lk = some p) (plock : s'.plock = s.plock)
    (same : held p pc = held p old) : Locks s' := by
  subst here
  unfold Locks
  rw [lk, plock]
  refine moved (Fits (some p) s.plock) pcs ⟨fun _ => rfl, same ▸ (locks p).held⟩ fun q _ => ⟨fun mine => ?_, (locks q).held⟩
  cases ((locks q).inner mine).symm.trans free

omit [Processes P] in
theorem Locks.gave (mine : inner old = true) (outside : inner pc = false) (plock : s'.plock = s.plock)
    (same : held p pc = held p old) : Locks s' := by
  subst here
  unfold Locks
  rw [plock]
  refine moved (Fits s'.lk s.plock) pcs ⟨fun inside => ?_, same ▸ (locks p).held⟩
    fun q other => ⟨fun inside => ?_, (locks q).held⟩
  · cases outside.symm.trans inside
  · exact absurd (locks.alone mine inside) other

omit [Processes P] in
theorem Locks.tookProc {r : P} (free : s.plock r = none) (lk : s'.lk = s.lk) (plock : s'.plock = update s.plock r (some p))
    (inside : inner pc = inner old) (has : held p pc = some r) : Locks s' := by
  subst here
  unfold Locks
  rw [lk, plock]
  refine moved (Fits s.lk (update s.plock r (some p))) pcs ⟨inside ▸ (locks p).inner, fun x mine => ?_⟩
    fun q _ => ⟨(locks q).inner, fun x mine => ?_⟩
  · rw [← Option.some.inj (has.symm.trans mine), update_self]
  · have different : x ≠ r := by
      rintro rfl
      cases ((locks q).held x mine).symm.trans free
    rw [update_of_ne different, (locks q).held x mine]

omit [Processes P] in
theorem Locks.gaveProc {r : P} (had : held p old = some r) (none : held p pc = none) (lk : s'.lk = s.lk)
    (plock : s'.plock = update s.plock r Option.none) (inside : inner pc = inner old) : Locks s' := by
  subst here
  unfold Locks
  rw [lk, plock]
  refine moved (Fits s.lk (update s.plock r Option.none)) pcs ⟨inside ▸ (locks p).inner, fun x mine => ?_⟩
    fun q other => ⟨(locks q).inner, fun x mine => ?_⟩
  · cases none.symm.trans mine
  · have different : x ≠ r := by
      rintro rfl
      exact other (Option.some.inj (((locks q).held x mine).symm.trans ((locks p).held x had)))
    rw [update_of_ne different, (locks q).held x mine]

end Locks

structure Knows (locked : Bool) (pid : BitVec 32) (p : P) (pc : Pc P) : Prop where
  owner : owns pc = true → locked = true ∧ pid = Processes.pid p
  take : pc = .take → locked = false
  wait : pc = .sleep ∨ pc = .release → locked = true
  answer : ∀ holds result, pc = .answered holds result → result = holds

structure Owned (s : State P) : Prop where
  knows : ∀ p, Knows s.locked s.pid p (s.pc p)
  owned : s.locked = true → ∃ p, owns (s.pc p) = true

/-- A place from which nothing but the ownership of the lock is known. -/
def plain : Pc P → Bool
  | .take | .sleep | .release | .answered .. => false
  | _ => true

section Owned
variable {s s' : State P} {p : P} {pc : Pc P}

omit [DecidableEq P] in
theorem knows_plain {locked : Bool} {pid : BitVec 32} (ordinary : plain pc = true)
    (owner : owns pc = true → locked = true ∧ pid = Processes.pid p) : Knows locked pid p pc where
  owner := owner
  take here := by subst here; cases ordinary
  wait here := by rcases here with rfl | rfl <;> cases ordinary
  answer _ _ here := by subst here; cases ordinary

omit [DecidableEq P] in
theorem Owned.unique (owned : Owned s) {q : P} (mine : owns (s.pc p) = true) (other : owns (s.pc q) = true) : q = p := by
  have first := ((owned.knows p).owner mine).2
  have second := ((owned.knows q).owner other).2
  exact Processes.distinct (second.symm.trans first)

variable (owned : Owned s) (pcs : s'.pc = update s.pc p pc) {old : Pc P} (here : s.pc p = old)
include owned pcs

include here in
theorem Owned.kept (locked : s'.locked = s.locked) (pid : s'.pid = s.pid) (same : owns pc = owns old)
    (knows : Knows s.locked s.pid p pc) : Owned s' := by
  subst here
  constructor
  · rw [locked, pid]
    exact moved (Knows s.locked s.pid) pcs knows fun q _ => owned.knows q
  · rw [locked]
    intro busy
    obtain ⟨q, has⟩ := owned.owned busy
    refine ⟨q, ?_⟩
    rw [pcs]
    by_cases here : q = p
    · rw [here, update_self, same, ← here]
      exact has
    · rw [update_of_ne here]
      exact has

include here in
theorem Owned.plain (locked : s'.locked = s.locked) (pid : s'.pid = s.pid) (same : owns pc = owns old)
    (ordinary : Sleeplock.plain pc = true) : Owned s' :=
  owned.kept pcs here locked pid same (knows_plain ordinary (same ▸ here ▸ (owned.knows p).owner))

theorem Owned.took (locks : Locks s) (here : s.pc p = .take) (locked : s'.locked = true) (pid : s'.pid = Processes.pid p)
    (has : owns pc = true) (ordinary : Sleeplock.plain pc = true) : Owned s' := by
  have free := (owned.knows p).take here
  have mine : inner (s.pc p) = true := by rw [here]; rfl
  constructor
  · rw [locked, pid]
    refine moved (Knows true (Processes.pid p)) pcs (knows_plain ordinary fun _ => ⟨rfl, rfl⟩) fun q other => ?_
    refine ⟨fun owner => ?_, fun take => ?_, fun _ => rfl, (owned.knows q).answer⟩
    · cases ((owned.knows q).owner owner).1.symm.trans free
    · exact absurd (locks.alone mine (by rw [take]; rfl)) other
  · exact fun _ => ⟨p, by rw [pcs, update_self, has]⟩

theorem Owned.cleared (locks : Locks s) (here : s.pc p = .clear) (locked : s'.locked = false)
    (none : owns pc = false) (ordinary : Sleeplock.plain pc = true) : Owned s' := by
  have mine : inner (s.pc p) = true := by rw [here]; rfl
  have has : owns (s.pc p) = true := by rw [here]; rfl
  constructor
  · rw [locked]
    refine moved (Knows false s'.pid) pcs (knows_plain ordinary fun owner => ?_) fun q other => ?_
    · cases none.symm.trans owner
    · refine ⟨fun owner => absurd (owned.unique has owner) other, fun _ => rfl, fun wait => ?_, (owned.knows q).answer⟩
      exact absurd (locks.alone mine (by rcases wait with wait | wait <;> rw [wait] <;> rfl)) other
  · intro busy
    cases locked.symm.trans busy

end Owned

structure Rests (state : P → Procstate) (chan : P → Bool) (p : P) (pc : Pc P) : Prop where
  parked : state p = .sleeping → pc = .sched ∨ pc = .off
  chan : pc = .sched ∨ pc = .off → chan p = true

/-- Who sleeps on the lock waits for a process that has it, or is about to be woken. -/
structure Parked (s : State P) : Prop where
  rests : ∀ p, Rests s.state s.chan p (s.pc p)
  waiting : ∀ q, Asleep s q → s.locked = true ∨ ∃ p, q ∈ pending (s.pc p)

section Parked
variable {s s' : State P} {p : P} {pc : Pc P}

omit [Processes P] in
theorem pending_moved (pcs : s'.pc = update s.pc p pc) {q : P} (more : q ∈ pending (s.pc p) → q ∈ pending pc)
    (some : ∃ r, q ∈ pending (s.pc r)) : ∃ r, q ∈ pending (s'.pc r) := by
  obtain ⟨r, waits⟩ := some
  refine ⟨r, ?_⟩
  rw [pcs]
  by_cases here : r = p
  · rw [here, update_self]
    exact more (here ▸ waits)
  · rw [update_of_ne here]
    exact waits

omit [DecidableEq P] [Processes P] in
theorem Parked.awake (parked : Parked s) {old : Pc P} (here : s.pc p = old) (runs : up old = true) : s.state p ≠ .sleeping := by
  intro sleeps
  rcases (parked.rests p).parked sleeps with stops | stops <;> cases here.symm.trans stops <;> cases runs

omit [Processes P] in
theorem asleep_moved (pcs : s'.pc = update s.pc p pc) (state : ∀ q, s'.state q = .sleeping → s.state q = .sleeping)
    (runs : pc = .doze → Asleep s p) {q : P} (asleep : Asleep s' q) : Asleep s q := by
  rcases asleep with dozes | sleeps
  · rw [pcs] at dozes
    by_cases here : q = p
    · subst here
      rw [update_self] at dozes
      exact runs dozes
    · rw [update_of_ne here] at dozes
      exact .inl dozes
  · exact .inr (state q sleeps)

variable (parked : Parked s) (pcs : s'.pc = update s.pc p pc) {old : Pc P} (here : s.pc p = old)
include parked pcs

include here in
omit [Processes P] in
theorem Parked.kept (state : s'.state = s.state) (chan : s'.chan = s.chan) (locked : s.locked = true → s'.locked = true)
    (runs : up old = true) (goes : up pc = true) (more : ∀ q, Asleep s q → q ∈ pending old → q ∈ pending pc) : Parked s' := by
  constructor
  · rw [state, chan]
    refine moved (Rests s.state s.chan) pcs ⟨fun sleeps => absurd sleeps (parked.awake here runs), fun stops => ?_⟩
      fun q _ => parked.rests q
    rcases stops with rfl | rfl <;> cases goes
  · subst here
    intro q asleep
    have before := asleep_moved pcs (fun q => by rw [state]; exact id) (fun dozes => by subst dozes; cases goes) asleep
    exact (parked.waiting q before).imp locked (pending_moved pcs (more q before))

omit [Processes P] in
theorem Parked.dozes (state : s'.state = s.state) (chan : s'.chan = s.chan) (locked : s'.locked = s.locked)
    (here : s.pc p = .release) (goes : pc = .doze) (busy : s.locked = true) : Parked s' := by
  constructor
  · rw [state, chan]
    have awake := parked.awake here rfl
    exact moved (Rests s.state s.chan) pcs ⟨fun sleeps => absurd sleeps awake, by simp [goes]⟩ fun q _ => parked.rests q
  · exact fun q _ => .inl (locked.trans busy)

include here in
omit [Processes P] in
theorem Parked.switched (others : ∀ q, q ≠ p → s'.state q = s.state q ∧ s'.chan q = s.chan q)
    (locked : s'.locked = s.locked) (rests : Rests s'.state s'.chan p pc) (goes : pc ≠ .doze)
    (asleep : s'.state p = .sleeping → Asleep s p) (none : pending old = []) : Parked s' := by
  subst here
  constructor
  · refine moved (Rests s'.state s'.chan) pcs rests fun q other => ?_
    obtain ⟨state, chan⟩ := others q other
    exact ⟨state ▸ (parked.rests q).parked, chan ▸ (parked.rests q).chan⟩
  · intro q sleeps
    have before : Asleep s q := by
      by_cases here : q = p
      · subst here
        rcases sleeps with dozes | sleeps
        · rw [pcs, update_self] at dozes
          exact absurd dozes goes
        · exact asleep sleeps
      · unfold Asleep at sleeps ⊢
        rwa [pcs, update_of_ne here, (others q here).1] at sleeps
    rw [locked]
    refine (parked.waiting q before).imp_right (pending_moved pcs fun waits => ?_)
    rw [none] at waits
    cases waits

theorem Parked.cleared (state : s'.state = s.state) (chan : s'.chan = s.chan) (here : s.pc p = .clear)
    (goes : pc = .wakeup Processes.procs) : Parked s' := by
  constructor
  · rw [state, chan]
    have awake := parked.awake here rfl
    exact moved (Rests s.state s.chan) pcs ⟨fun sleeps => absurd sleeps awake, by simp [goes]⟩ fun q _ => parked.rests q
  · exact fun q _ => .inr ⟨p, by rw [pcs, update_self, goes]; exact Processes.complete q⟩

end Parked

section Rouse
variable {s : State P} {q : P}

omit [Processes P] in
theorem rouse_state (s : State P) (q r : P) :
    (s.rouse q).state r = if r = q ∧ s.state q = .sleeping then .runnable else s.state r := by
  unfold State.rouse State.setState
  by_cases asleep : s.state q = .sleeping
  · simp only [asleep, if_true, and_true]
    exact update_apply _ _ _ _
  · simp [asleep]

omit [Processes P] in
theorem rouse_fields (s : State P) (q : P) : (s.rouse q).locked = s.locked ∧ (s.rouse q).pid = s.pid ∧
    (s.rouse q).lk = s.lk ∧ (s.rouse q).plock = s.plock ∧ (s.rouse q).chan = s.chan ∧ (s.rouse q).pc = s.pc := by
  unfold State.rouse State.setState
  split <;> exact ⟨rfl, rfl, rfl, rfl, rfl, rfl⟩

omit [Processes P] in
theorem rouse_sleeping {r : P} (sleeps : (s.rouse q).state r = .sleeping) : s.state r = .sleeping ∧ r ≠ q := by
  rw [rouse_state] at sleeps
  split_ifs at sleeps with woken
  refine ⟨sleeps, ?_⟩
  rintro rfl
  exact woken ⟨rfl, sleeps⟩

omit [Processes P] in
theorem Parked.rouse (parked : Parked s) (q : P) : Parked (s.rouse q) := by
  obtain ⟨locked, _, _, _, chan, pc⟩ := rouse_fields s q
  constructor
  · rw [chan, pc]
    exact fun r => ⟨fun sleeps => (parked.rests r).parked (rouse_sleeping sleeps).1, (parked.rests r).chan⟩
  · rw [locked, pc]
    intro r asleep
    refine parked.waiting r ?_
    unfold Asleep at asleep ⊢
    rw [pc] at asleep
    exact asleep.imp_right fun sleeps => (rouse_sleeping sleeps).1

omit [Processes P] in
theorem wake_fields (s : State P) (q : P) : (s.wake q).locked = s.locked ∧ (s.wake q).pid = s.pid ∧
    (s.wake q).lk = s.lk ∧ (s.wake q).chan = s.chan ∧ (s.wake q).pc = s.pc := by
  unfold State.wake
  obtain ⟨locked, pid, lk, _, chan, pcs⟩ := rouse_fields s q
  split
  · exact ⟨locked, pid, lk, chan, pcs⟩
  · exact ⟨rfl, rfl, rfl, rfl, rfl⟩

omit [Processes P] in
theorem Parked.wake (parked : Parked s) (q : P) : Parked (s.wake q) := by
  unfold State.wake
  split
  · exact parked.rouse q
  · exact parked

omit [Processes P] in
theorem Parked.woken (parked : Parked s) (dozes : s.pc q ≠ .doze) : ¬Asleep (s.wake q) q := by
  rintro (dozes' | sleeps)
  · rw [(wake_fields s q).2.2.2.2] at dozes'
    exact dozes dozes'
  · unfold State.wake at sleeps
    split at sleeps
    · exact (rouse_sleeping sleeps).2 rfl
    · rename_i elsewhere
      exact elsewhere ((parked.rests q).chan ((parked.rests q).parked sleeps))

end Rouse

structure Inv (s : State P) : Prop where
  locks : Locks s
  owned : Owned s
  parked : Parked s

section Steps
variable {s s' : State P} {p : P} {pc : Pc P}

section
variable (inv : Inv s)
include inv

section
variable {old : Pc P} (here : s.pc p = old) (runs : up old = true) (goes : up pc = true) (same : held p pc = held p old)
  (owner : owns pc = owns old)
include here runs goes same owner

theorem Inv.go (inside : inner pc = inner old) (knows : Knows s.locked s.pid p pc)
    (more : ∀ q, Asleep s q → q ∈ pending old → q ∈ pending pc) : Inv (s.go p pc) where
  locks := inv.locks.kept rfl here rfl rfl inside same
  owned := inv.owned.kept rfl here rfl rfl owner knows
  parked := inv.parked.kept rfl here rfl rfl id runs goes more

variable (ordinary : plain pc = true) (none : pending old = [])
include ordinary none

theorem Inv.called (inside : inner pc = inner old) : Inv (s.go p pc) := by
  refine inv.go here runs goes same owner inside (knows_plain ordinary (owner ▸ here ▸ (inv.owned.knows p).owner)) fun q _ waits => ?_
  rw [none] at waits
  cases waits

theorem Inv.took (free : s.lk = Option.none) : Inv { s.go p pc with lk := some p } where
  locks := inv.locks.took rfl here free rfl rfl same
  owned := inv.owned.plain rfl here rfl rfl owner ordinary
  parked := inv.parked.kept rfl here rfl rfl id runs goes fun q _ waits => by rw [none] at waits; cases waits

theorem Inv.gave (mine : inner old = true) (outside : inner pc = false) : Inv { s.go p pc with lk := Option.none } where
  locks := inv.locks.gave rfl here mine outside rfl same
  owned := inv.owned.plain rfl here rfl rfl owner ordinary
  parked := inv.parked.kept rfl here rfl rfl id runs goes fun q _ waits => by rw [none] at waits; cases waits

end

theorem Inv.test (here : s.pc p = .test) : Inv (s.go p (if s.locked then .sleep else .take)) := by
  cases busy : s.locked with
  | true =>
    rw [if_pos rfl]
    exact inv.go here rfl rfl rfl rfl rfl ⟨nofun, nofun, fun _ => busy, nofun⟩ nofun
  | false =>
    rw [if_neg (by simp)]
    exact inv.go here rfl rfl rfl rfl rfl ⟨nofun, fun _ => busy, by simp, nofun⟩ nofun

theorem Inv.asked {holds : Bool} (here : s.pc p = .asked holds) :
    Inv (s.go p (.answered holds (s.locked && s.pid == Processes.pid p))) := by
  refine inv.go here rfl rfl rfl (by cases holds <;> rfl) rfl ?_ nofun
  have owner := (inv.owned.knows p).owner
  rw [here] at owner
  refine ⟨fun has => owner (by cases holds <;> exact has), nofun, by simp, fun _ _ answered => ?_⟩
  cases answered
  cases holds with
  | true =>
    obtain ⟨busy, mine⟩ := owner rfl
    simp [busy, mine]
  | false =>
    by_contra wrong
    have said : s.locked = true ∧ s.pid = Processes.pid p := by simpa using wrong
    obtain ⟨q, has⟩ := inv.owned.owned said.1
    have same : q = p := Processes.distinct (((inv.owned.knows q).owner has).2.symm.trans said.2)
    rw [same, here] at has
    cases has

theorem Inv.wakeOne {q : P} {todo : List P} (here : s.pc p = .wakeOne q todo) :
    Inv { (s.wake q).go p (.wakeup todo) with plock := update s.plock q none } := by
  obtain ⟨locked, pid, lk, _, pcs⟩ := wake_fields s q
  have moves : ((s.wake q).go p (.wakeup todo)).pc = update s.pc p (.wakeup todo) := by simp only [State.go, pcs]
  -- the process that is looked at is not about to sleep: it would hold its p->lock
  have dozes : s.pc q ≠ .doze := by
    intro dozes
    have own := (inv.locks q).held q (by rw [dozes]; rfl)
    obtain rfl := Option.some.inj (own.symm.trans ((inv.locks p).held q (by rw [here]; rfl)))
    cases dozes.symm.trans here
  refine ⟨inv.locks.gaveProc moves here rfl rfl lk rfl rfl, inv.owned.plain moves here locked pid rfl rfl, ?_⟩
  refine (inv.parked.wake q).kept rfl (pcs ▸ here) rfl rfl id rfl rfl fun r asleep waits => ?_
  exact (List.mem_cons.mp waits).resolve_left fun same => inv.parked.woken dozes (same ▸ asleep)

theorem Inv.wakeup {q : P} {todo : List P} (here : s.pc p = .wakeup (q :: todo)) (free : s.plock q = none) :
    Inv { s.go p (.wakeOne q todo) with plock := update s.plock q (some p) } where
  locks := inv.locks.tookProc rfl here free rfl rfl rfl rfl
  owned := inv.owned.plain rfl here rfl rfl rfl rfl
  parked := inv.parked.kept rfl here rfl rfl id rfl rfl fun _ _ => id

theorem Inv.wakeSelf {todo : List P} (here : s.pc p = .wakeup (p :: todo)) : Inv (s.go p (.wakeup todo)) := by
  refine inv.go here rfl rfl rfl rfl rfl (knows_plain rfl nofun) fun q asleep waits => ?_
  refine (List.mem_cons.mp waits).resolve_left ?_
  rintro rfl
  rcases asleep with dozes | sleeps
  · cases dozes.symm.trans here
  · exact inv.parked.awake here rfl sleeps

theorem Inv.run (taken : run s p = some s') : Inv s' := by
  unfold Sleeplock.run at taken
  split at taken
  next => cases taken
  next => cases taken
  next here =>
    split_ifs at taken with free
    cases taken
    exact inv.took here rfl rfl rfl rfl rfl rfl free
  next here =>
    cases taken
    exact inv.test here
  next here =>
    split_ifs at taken with free
    cases taken
    refine ⟨inv.locks.tookProc rfl here free rfl rfl rfl rfl, inv.owned.kept rfl here rfl rfl rfl ?_, ?_⟩
    · exact ⟨nofun, nofun, fun _ => (inv.owned.knows p).wait (.inl here), nofun⟩
    · exact inv.parked.kept rfl here rfl rfl id rfl rfl nofun
  next here =>
    cases taken
    have busy := (inv.owned.knows p).wait (.inr here)
    exact ⟨inv.locks.gave rfl here rfl rfl rfl rfl, inv.owned.plain rfl here rfl rfl rfl rfl,
      inv.parked.dozes rfl rfl rfl rfl here rfl busy⟩
  next here =>
    cases taken
    refine ⟨inv.locks.kept rfl here rfl rfl rfl rfl, inv.owned.plain rfl here rfl rfl rfl rfl, ?_⟩
    refine inv.parked.switched rfl here (fun q other => ⟨?_, ?_⟩) rfl ⟨fun _ => .inl rfl, fun _ => ?_⟩ nofun (fun _ => .inl here) rfl
    · exact update_of_ne other _ _
    · exact update_of_ne other _ _
    · exact update_self _ _ _
  next here =>
    cases taken
    refine ⟨inv.locks.gaveProc rfl here rfl rfl rfl rfl rfl, inv.owned.plain rfl here rfl rfl rfl rfl, ?_⟩
    exact inv.parked.switched rfl here (fun q _ => ⟨rfl, rfl⟩) rfl
      ⟨fun _ => .inr rfl, fun _ => (inv.parked.rests p).chan (.inl here)⟩ nofun .inr rfl
  next here =>
    split_ifs at taken with free
    cases taken
    refine ⟨inv.locks.tookProc rfl here free.1 rfl rfl rfl rfl, inv.owned.plain rfl here rfl rfl rfl rfl, ?_⟩
    have runs : update s.state p .running p ≠ .sleeping := by simp
    exact inv.parked.switched rfl here (fun q other => ⟨update_of_ne other _ _, rfl⟩) rfl
      ⟨fun sleeps => absurd sleeps runs, by simp⟩ nofun (fun sleeps => absurd sleeps runs) rfl
  next here =>
    cases taken
    refine ⟨inv.locks.gaveProc rfl here rfl rfl rfl rfl rfl, inv.owned.plain rfl here rfl rfl rfl rfl, ?_⟩
    have awake := inv.parked.awake here rfl
    exact inv.parked.switched rfl here (fun q other => ⟨rfl, update_of_ne other _ _⟩) rfl
      ⟨fun sleeps => absurd sleeps awake, by simp⟩ nofun (fun sleeps => absurd sleeps awake) rfl
  next here =>
    cases taken
    exact ⟨inv.locks.kept rfl here rfl rfl rfl rfl, inv.owned.took rfl inv.locks here rfl rfl rfl rfl,
      inv.parked.kept rfl here rfl rfl (fun _ => rfl) rfl rfl nofun⟩
  next here =>
    cases taken
    exact inv.gave here rfl rfl rfl rfl rfl rfl rfl rfl
  next here =>
    split_ifs at taken with free
    cases taken
    exact inv.took here rfl rfl rfl rfl rfl rfl free
  next here =>
    cases taken
    exact ⟨inv.locks.kept rfl here rfl rfl rfl rfl, inv.owned.cleared rfl inv.locks here rfl rfl rfl,
      inv.parked.cleared rfl rfl rfl here rfl⟩
  next here =>
    cases taken
    exact inv.go here rfl rfl rfl rfl rfl (knows_plain rfl nofun) nofun
  next q todo here =>
    split_ifs at taken with self free
    · cases taken
      subst self
      exact inv.wakeSelf here
    · cases taken
      exact inv.wakeup here free
  next q todo here =>
    cases taken
    exact inv.wakeOne here
  next here =>
    cases taken
    exact inv.gave here rfl rfl rfl rfl rfl rfl rfl rfl
  next holds here =>
    split_ifs at taken with free
    cases taken
    exact inv.took here rfl rfl rfl (by cases holds <;> rfl) rfl rfl free
  next holds here =>
    cases taken
    exact inv.asked here
  next holds result here =>
    cases taken
    cases holds <;> exact inv.gave here rfl rfl rfl rfl rfl rfl rfl rfl

theorem Inv.next {e : Event P} (taken : step s e = some s') : Inv s' := by
  cases e with
  | acquiresleep p | releasesleep p =>
    simp only [step] at taken
    split_ifs at taken with here
    cases taken
    exact inv.called here rfl rfl rfl rfl rfl rfl rfl
  | holdingsleep p =>
    simp only [step] at taken
    split at taken
    next here =>
      cases taken
      exact inv.called here rfl rfl rfl rfl rfl rfl rfl
    next here =>
      cases taken
      exact inv.called here rfl rfl rfl rfl rfl rfl rfl
    next => cases taken
  | run p => exact inv.run taken
  | kill q =>
    simp only [step] at taken
    split_ifs at taken
    cases taken
    obtain ⟨locked, pid, lk, plock, _, pcs⟩ := rouse_fields s q
    refine ⟨?_, ?_, inv.parked.rouse q⟩
    · unfold Locks
      rw [lk, plock, pcs]
      exact inv.locks
    · exact ⟨by rw [locked, pid, pcs]; exact inv.owned.knows, by rw [locked, pcs]; exact inv.owned.owned⟩

end

omit [DecidableEq P] in
theorem Inv.init (start : Init s) : Inv s := by
  have outside := start.outside
  refine ⟨fun p => ⟨?_, ?_⟩, ⟨fun p => ?_, fun busy => ?_⟩, ⟨fun p => ?_, fun q asleep => ?_⟩⟩
  · rw [outside]
    exact nofun
  · rw [outside]
    exact nofun
  · rw [outside]
    exact knows_plain rfl nofun
  · cases start.unlocked.symm.trans busy
  · rw [outside]
    exact ⟨fun sleeps => absurd sleeps (start.awake p), by simp⟩
  · rcases asleep with dozes | sleeps
    · cases (outside q).symm.trans dozes
    · exact absurd sleeps (start.awake q)

theorem Inv.of_reachable (reachable : Reachable Init Steps s) : Inv s :=
  reachable.invariant Inv (fun _ => Inv.init) fun _ _ inv ⟨_, taken⟩ => inv.next taken

/-- At most one process has the lock, lk->pid names it and holdingsleep is right about everybody; and when the lock and
its spin lock are free nobody sleeps on it. -/
theorem sleeplock_excludes (reachable : Reachable Init Steps s) :
    (∀ p q, owns (s.pc p) = true → owns (s.pc q) = true → p = q) ∧
      (∀ p, owns (s.pc p) = true ↔ s.locked = true ∧ s.pid = Processes.pid p) ∧
      (∀ p holds result, s.pc p = .answered holds result → (result = true ↔ owns (s.pc p) = true)) ∧
      (s.locked = false → s.lk = none → ∀ p, ¬(s.state p = .sleeping ∧ s.chan p = true)) := by
  have inv := Inv.of_reachable reachable
  refine ⟨fun p q first second => inv.owned.unique second first, fun p => ⟨(inv.owned.knows p).owner, fun named => ?_⟩,
    fun p holds result here => ?_, fun unlocked free p sleeps => ?_⟩
  · obtain ⟨q, has⟩ := inv.owned.owned named.1
    rw [← Processes.distinct (((inv.owned.knows q).owner has).2.symm.trans named.2)]
    exact has
  · rw [(inv.owned.knows p).answer holds result here, here]
    cases holds <;> simp [owns]
  · rcases inv.parked.waiting p (.inr sleeps.1) with busy | ⟨q, waits⟩
    · cases unlocked.symm.trans busy
    · cases free.symm.trans ((inv.locks q).inner (inner_of_pending waits))

end Steps

instance : Processes Bool where
  procs := [false, true]
  complete := by decide
  pid p := if p then 2 else 1
  distinct := by decide

def fresh : State Bool where
  locked := false
  pid := 0
  lk := none
  plock _ := none
  state _ := .running
  chan _ := false
  pc _ := .outside

def acquired : Option (State Bool) :=
  [.acquiresleep true, .run true, .run true, .run true, .run true].foldlM step fresh

theorem sleeplock_excludes_acquired : ∃ s, acquired = some s ∧ s.pc true = .holding ∧
    (owns (s.pc true) = true ↔ s.locked = true ∧ s.pid = Processes.pid true) ∧
    (owns (s.pc false) = true ↔ s.locked = true ∧ s.pid = Processes.pid false) := by
  have start : Init fresh := ⟨rfl, ⟨rfl, fun _ => rfl⟩, fun _ => rfl, by decide⟩
  have excludes := sleeplock_excludes ((Reachable.init fresh start).foldlM (fun s e s' taken => ⟨e, taken⟩)
    (show acquired = some (acquired.getD fresh) from rfl))
  exact ⟨acquired.getD fresh, rfl, rfl, excludes.2.1 true, excludes.2.1 false⟩

end Xv6.Sync.Sleeplock
