import Xv6.Lib.Circuit
import Xv6.Sched.Lifecycle

/-! The default policy on one CPU: the loop of the scheduler over the table, one slot at a time, while whatever has the
CPU in between changes the table. -/

namespace Xv6.Sched.RoundRobin
open Table Passes Lifecycle Lib.Circuit List Option

def Unstarted (p q : Proc) : Prop := q.state = .running → p.state = .running

instance : IsPreorder Proc Unstarted where
  refl _ := id
  trans _ _ _ first second := first ∘ second

theorem unstarted {kind : Kind} (other : kind ≠ .start) : Admits Unstarted kind := by
  intro p q touch running
  cases touch with
  | start => exact absurd rfl other
  | cfsUpdate => rwa [p.cfsUpdate_fields.1] at running
  | charge => rwa [Proc.charge_state] at running
  | wakeup =>
    unfold Proc.wakeup at running
    split at running
    · cases running
    · exact running
  | kill =>
    unfold Proc.kill at running
    simp only at running
    split at running
    · cases running
    · exact running
  | psPriority | cfsPriority | setkilled | adopt | awake | reset => exact running
  | used | born | freeproc | yield | zombie | sleep => cases running

theorem perform_unstarted {k k' : Kernel} {op : Op} (performed : perform k op = some k') (other : .start ∉ op.kinds) :
    Kernel.Each Unstarted k k' :=
  perform_each (fun _ member => unstarted fun same => other (same ▸ member)) performed

/-- The kernel, the slot that the loop has come to, and whether its process has the CPU. -/
structure State where
  kernel : Kernel
  cursor : Cursor NPROC

/-- The scheduler looks at the slot; the process that has the CPU or an interrupt handler changes the table; the
process switches back to the scheduler. -/
inductive Event where
  | visit
  | meanwhile (change : Kernel → Kernel)
  | back

/-- No process has been made RUNNING, and the policy is still round robin. -/
def Quiet (k k' : Kernel) : Prop :=
  (∀ i, (k'.proc i).state = .running → (k.proc i).state = .running) ∧ k'.schedPolicy = 0

instance (k k' : Kernel) : Decidable (Quiet k k') := by unfold Quiet; infer_instance

theorem perform_quiet {k k' : Kernel} {op : Op} (performed : perform k op = some k') (other : .start ∉ op.kinds)
    (policy : k'.schedPolicy = 0) : Quiet k k' :=
  ⟨perform_unstarted performed other, policy⟩

/-- scheduler (case 0), with the loop starting again after the last slot. sched panics for a process that is RUNNING. -/
def step (s : State) : Event → Option State
  | .visit =>
      if s.cursor.stopped then none
      else if (s.kernel.proc s.cursor.place).state = .runnable then
        some ⟨s.kernel.modify s.cursor.place (·.setState .running), ⟨s.cursor.place, true⟩⟩
      else some ⟨s.kernel, ⟨following s.cursor.place, false⟩⟩
  | .meanwhile change => if Quiet s.kernel (change s.kernel) then some ⟨change s.kernel, s.cursor⟩ else none
  | .back =>
      if s.cursor.stopped ∧ (s.kernel.proc s.cursor.place).state ≠ .running then
        some ⟨s.kernel, ⟨following s.cursor.place, false⟩⟩
      else none

def State.move (s : State) : Event → Move
  | .visit => if (s.kernel.proc s.cursor.place).state = .runnable then .enter else .skip
  | .meanwhile _ => .stay
  | .back => .leave

theorem step_cases {s s' : State} {event : Event} (next : step s event = some s') :
    (event = .visit ∧ s.cursor.stopped = false ∧ (s.kernel.proc s.cursor.place).state = .runnable ∧
      s' = ⟨s.kernel.modify s.cursor.place (·.setState .running), ⟨s.cursor.place, true⟩⟩) ∨
    (event = .visit ∧ s.cursor.stopped = false ∧ (s.kernel.proc s.cursor.place).state ≠ .runnable ∧
      s' = ⟨s.kernel, ⟨following s.cursor.place, false⟩⟩) ∨
    (∃ change, event = .meanwhile change ∧ Quiet s.kernel (change s.kernel) ∧ s' = ⟨change s.kernel, s.cursor⟩) ∨
    (event = .back ∧ s.cursor.stopped = true ∧ (s.kernel.proc s.cursor.place).state ≠ .running ∧
      s' = ⟨s.kernel, ⟨following s.cursor.place, false⟩⟩) := by
  cases event with
  | visit =>
    simp only [step] at next
    split_ifs at next with stopped ready
    · exact .inl ⟨rfl, by simpa using stopped, ready, (Option.some.inj next).symm⟩
    · exact .inr (.inl ⟨rfl, by simpa using stopped, ready, (Option.some.inj next).symm⟩)
  | meanwhile change =>
    simp only [step] at next
    split_ifs at next with quiet
    exact .inr (.inr (.inl ⟨change, rfl, quiet, (Option.some.inj next).symm⟩))
  | back =>
    simp only [step] at next
    split_ifs at next with held
    exact .inr (.inr (.inr ⟨rfl, held.1, held.2, (Option.some.inj next).symm⟩))

theorem step_takes {s s' : State} {event : Event} (next : step s event = some s') :
    s.cursor.takes (s.move event) = some s'.cursor := by
  rcases step_cases next with ⟨rfl, free, ready, rfl⟩ | ⟨rfl, free, ready, rfl⟩ | ⟨_, rfl, _, rfl⟩ | ⟨rfl, held, _, rfl⟩
  · simp [State.move, Cursor.takes, free, ready]
  · simp [State.move, Cursor.takes, free, ready]
  · rfl
  · simp [State.move, Cursor.takes, held]

/-- Only the process that has the CPU is RUNNING. -/
def Inv (s : State) : Prop := ∀ i, (s.kernel.proc i).state = .running → s.cursor = ⟨i, true⟩

theorem Inv.idle {s : State} (inv : Inv s) (free : s.cursor.stopped = false) (i : Slot) :
    (s.kernel.proc i).state ≠ .running := by
  intro running
  rw [inv i running] at free
  cases free

theorem Inv.step {s s' : State} {event : Event} (inv : Inv s) (next : step s event = some s') : Inv s' := by
  intro i running
  rcases step_cases next with ⟨_, free, _, rfl⟩ | ⟨_, free, _, rfl⟩ | ⟨_, _, quiet, rfl⟩ | ⟨_, _, ended, rfl⟩
  · by_cases here : i = s.cursor.place
    · rw [here]
    · rw [Kernel.proc_modify_other here] at running
      exact absurd running (inv.idle free i)
  · exact absurd running (inv.idle free i)
  · exact inv i (quiet.1 i running)
  · rw [inv i running] at ended
    exact absurd running ended

def booted : State := ⟨boot, ⟨0, false⟩⟩

/-- A run from the boot: the state before each event. -/
structure Run (length : Nat) where
  state : Nat → State
  event : Nat → Event
  start : state 0 = booted
  steps : ∀ i < length, step (state i) (event i) = some (state (i + 1))

namespace Run
variable {length : Nat} (run : Run length)

def Dispatches (i : Nat) (p : Slot) : Prop :=
  run.event i = .visit ∧ (run.state i).cursor = ⟨p, false⟩ ∧ ((run.state i).kernel.proc p).state = .runnable

theorem inv (i : Nat) (inside : i ≤ length) : Inv (run.state i) := by
  induction i with
  | zero =>
    rw [run.start]
    have none : ∀ i, (boot.proc i).state ≠ .running := by decide +kernel
    exact fun i running => absurd running (none i)
  | succ i ih => exact (ih (by omega)).step (run.steps i (by omega))

def circuit (a b : Nat) (inside : b ≤ length) : Round NPROC (b - a) where
  cursor i := (run.state (a + i)).cursor
  move i := (run.state (a + i)).move (run.event (a + i))
  takes i short := step_takes (run.steps (a + i) (by omega))

theorem enters_iff {a b i : Nat} (inside : b ≤ length) (short : i < b - a) (q : Slot) :
    (run.circuit a b inside).enters q i ↔ run.Dispatches (a + i) q := by
  unfold Round.enters Dispatches circuit
  simp only
  rcases step_cases (run.steps (a + i) (by omega)) with
    ⟨event, free, ready, _⟩ | ⟨event, free, ready, _⟩ | ⟨_, event, _⟩ | ⟨event, _⟩
  · simp only [event, State.move, if_pos ready, true_and]
    constructor
    · rintro rfl
      exact ⟨by rw [← free], ready⟩
    · exact fun here => by rw [here.1]
  · simp only [event, State.move, if_neg ready, true_and]
    refine iff_of_false (fun impossible => nomatch impossible.1) fun here => ready ?_
    rw [here.1]
    exact here.2
  · simp [event, State.move]
  · simp [event, State.move]

theorem skips {a b i : Nat} (inside : b ≤ length) (short : i < b - a) (skipped : (run.circuit a b inside).move i = .skip) :
    (run.state (a + i)).cursor.stopped = false ∧
      ((run.state (a + i)).kernel.proc (run.state (a + i)).cursor.place).state ≠ .runnable := by
  unfold circuit at skipped
  simp only at skipped
  rcases step_cases (run.steps (a + i) (by omega)) with
    ⟨event, free, ready, _⟩ | ⟨event, free, ready, _⟩ | ⟨_, event, _⟩ | ⟨event, _⟩
  · simp [event, State.move, ready] at skipped
  · exact ⟨free, ready⟩
  · simp [event, State.move] at skipped
  · simp [event, State.move] at skipped

/-- Between two dispatches of p with none in between, every other process that was always ready has been dispatched;
and just once if p was ready again as soon as it had given up the CPU. -/
theorem round_robin {a b : Nat} {p q : Slot} (order : a < b) (inside : b ≤ length) (first : run.Dispatches a p)
    (second : run.Dispatches b p) (consecutive : ∀ i, a < i → i < b → ¬run.Dispatches i p) (other : q ≠ p)
    (ready : ∀ i, a < i → i ≤ b →
      ((run.state i).kernel.proc q).state = .runnable ∨ ((run.state i).kernel.proc q).state = .running) :
    (∃ i, a < i ∧ i < b ∧ run.Dispatches i q) ∧
      ((∀ i, a < i → i ≤ b → (run.state i).cursor = ⟨p, true⟩ ∨ ((run.state i).kernel.proc p).state = .runnable) →
        ∃! i, a < i ∧ i < b ∧ run.Dispatches i q) := by
  have start : ((run.circuit (a + 1) b inside).cursor 0) = ⟨p, true⟩ := by
    obtain ⟨event, here, runnable⟩ := first
    have next := step_takes (run.steps a (by omega))
    rw [event, here, State.move, here, if_pos runnable] at next
    exact (Option.some.inj next).symm
  have ends : (run.circuit (a + 1) b inside).cursor (b - (a + 1)) = ⟨p, false⟩ := by
    show (run.state (a + 1 + (b - (a + 1)))).cursor = _
    rw [Nat.add_sub_cancel' order]
    exact second.2.1
  have within : ∀ i < b - (a + 1), a < a + 1 + i ∧ a + 1 + i < b := fun i short => by omega
  obtain ⟨some, once⟩ := Round.stops (run.circuit (a + 1) b inside) start ends other fun i short here skipped => by
    obtain ⟨free, idle⟩ := run.skips inside short skipped
    rw [show (run.state (a + 1 + i)).cursor.place = q from here] at idle
    rcases ready (a + 1 + i) (within i short).1 (within i short).2.le with runnable | running
    · exact idle runnable
    · exact (run.inv _ (by omega)).idle free q running
  constructor
  · obtain ⟨i, short, entered⟩ := some
    exact ⟨a + 1 + i, (within i short).1, (within i short).2, (run.enters_iff inside short q).mp entered⟩
  · intro steady
    obtain ⟨i, ⟨short, entered⟩, only⟩ := once fun i short here => by
      refine ⟨fun skipped => ?_, fun entered => ?_⟩
      · obtain ⟨free, idle⟩ := run.skips inside short skipped
        rw [show (run.state (a + 1 + i)).cursor.place = p from here] at idle
        rcases steady (a + 1 + i) (within i short).1 (within i short).2.le with held | runnable
        · rw [held] at free
          cases free
        · exact idle runnable
      · exact consecutive (a + 1 + i) (within i short).1 (within i short).2 ((run.enters_iff inside short p).mp ⟨entered, here⟩)
    refine ⟨a + 1 + i, ⟨(within i short).1, (within i short).2, (run.enters_iff inside short q).mp entered⟩, ?_⟩
    rintro j ⟨after, before, dispatched⟩
    obtain ⟨k, rfl⟩ : ∃ k, j = a + 1 + k := ⟨j - (a + 1), by omega⟩
    rw [only k ⟨by omega, (run.enters_iff inside (by omega) q).mpr dispatched⟩]

def ofEvents (events : List Event) (plays : (events.foldlM step booted).isSome) : Run events.length where
  state i := ((events.take i).foldlM step booted).getD booted
  event i := events.getD i .back
  start := rfl
  steps i inside := by
    obtain ⟨last, whole⟩ := isSome_iff_exists.mp plays
    rw [← take_append_drop (i + 1) events, foldlM_append] at whole
    obtain ⟨next, here, _⟩ := bind_eq_some_iff.mp whole
    rw [here, getD_some]
    rw [← take_append_getElem inside, foldlM_append] at here
    obtain ⟨before, there, taken⟩ := bind_eq_some_iff.mp here
    rw [there, getD_some, getD_eq_getElem _ _ inside]
    simpa using taken

end Run

def turns : List Event :=
  [.visit, .meanwhile fun k => (fork k 0 ⟨true, true⟩).2, .meanwhile (yield · 0), .back,
    .visit, .meanwhile (yield · 1), .back] ++ List.replicate 62 .visit ++
  [.visit, .meanwhile (yield · 0), .back, .visit]

def turnsRun : Run turns.length := Run.ofEvents turns (by decide +kernel)

theorem round_robin_turns : ∃! i, 4 < i ∧ i < 72 ∧ turnsRun.Dispatches i 0 := by
  have first : turnsRun.Dispatches 4 1 := ⟨rfl, by decide +kernel, by decide +kernel⟩
  have second : turnsRun.Dispatches 72 1 := ⟨rfl, by decide +kernel, by decide +kernel⟩
  have away : ∀ i < 72, 4 < i → (turnsRun.state i).cursor ≠ ⟨1, false⟩ := by decide +kernel
  have ready : ∀ i ≤ 72, 4 < i → ((turnsRun.state i).kernel.proc 0).state = .runnable ∨
    ((turnsRun.state i).kernel.proc 0).state = .running := by decide +kernel
  have steady : ∀ i ≤ 72, 4 < i → (turnsRun.state i).cursor = ⟨1, true⟩ ∨
    ((turnsRun.state i).kernel.proc 1).state = .runnable := by decide +kernel
  exact (turnsRun.round_robin (by decide) (by decide) first second
    (fun i after before dispatched => away i before after dispatched.2.1) (by decide)
    fun i after before => ready i before after).2 fun i after before => steady i before after

end Xv6.Sched.RoundRobin
