import Xv6.Lib.Transition
import Xv6.Sched.Fair

/-! Timer interrupts of several harts: the clock, which only the first of them advances, and the times
of the processes, which all of them do. -/

namespace Xv6.Sched.Ticks
open Table Passes Lifecycle Fair
open Lib.Transition (total total_invariant)

/-- What a hart is doing as its timer interrupts it. -/
inductive Mode where
  | user (i : Slot)
  | kernel (i : Slot)
  | idle
  deriving DecidableEq, Repr

def Mode.myproc : Mode → Option Slot
  | .user i | .kernel i => some i
  | .idle => none

structure Machine where
  kernel : Kernel
  ticks : BitVec 32

namespace Machine

def change (s : Machine) (f : Kernel → Kernel) : Machine := { s with kernel := f s.kernel }

def clockintr (s : Machine) (self : Option Slot) : Machine :=
  { kernel := Passes.clockintr s.kernel self, ticks := s.ticks + 1 }

/-- devintr for the software interrupt that stands for the timer. -/
def devintr (s : Machine) (hart : Nat) (self : Option Slot) : Machine := if hart = 0 then s.clockintr self else s

/-- usertrap after devintr. A process found killed exits before it is charged or anybody's time counted. -/
def usertrap (s : Machine) (i : Slot) : Except String Machine :=
  if (s.kernel.proc i).killed then
    (exit s.kernel i (-1) (s.kernel.proc i).exitMsg).map fun k => { s with kernel := k }
  else .ok (s.change (usertrapTick · i))

def kerneltrap (s : Machine) : Option Slot → Machine
  | none => s.change Kernel.cfsUpdate
  | some i => s.change (kerneltrapTick · i)

def interrupt (s : Machine) (hart : Nat) (mode : Mode) : Except String Machine :=
  let s := s.devintr hart mode.myproc
  match mode with
  | .user i => s.usertrap i
  | .kernel i => .ok (s.kerneltrap (some i))
  | .idle => .ok (s.kerneltrap none)

end Machine

def timed : Op → Bool
  | .timer _ _ | .cfsUpdate => true
  | _ => false

inductive Event where
  | interrupt (hart : Nat) (mode : Mode)
  | op (op : Op) (plain : timed op = false)

def step (s : Machine) : Event → Option Machine
  | .interrupt hart mode => (s.interrupt hart mode).toOption
  | .op op _ => (perform s.kernel op).map fun k => { s with kernel := k }

def Event.caller : Event → Option Slot
  | .interrupt _ mode => mode.myproc
  | .op made _ => made.caller

/-- A step by a process that is RUNNING, or by none. -/
def take (s : Machine) (e : Event) : Option Machine :=
  if ∀ i ∈ e.caller, (s.kernel.proc i).state = .running then step s e else none

/-- A timer interrupt of the process makes it exit before the times are counted. -/
def findsKilled (s : Machine) : Mode → Bool
  | .user i => (s.kernel.proc i).killed
  | _ => false

/-- The event counts the times. -/
def updates (s : Machine) : Event → Bool
  | .interrupt _ mode => !findsKilled s mode
  | .op _ _ => false

section Interrupts
variable {s s' : Machine} {i : Slot}

theorem wakeup_self (k : Kernel) (i : Slot) (chan : Option Chan) : (k.wakeup (some i) chan).proc i = k.proc i := by
  simp [Kernel.wakeup]

theorem devintr_self (hart : Nat) (i : Slot) : (s.devintr hart (some i)).kernel.proc i = s.kernel.proc i := by
  unfold Machine.devintr
  split
  · exact wakeup_self s.kernel i (some .ticks)
  · rfl

theorem interrupt_ok {hart : Nat} {mode : Mode} (next : step s (.interrupt hart mode) = some s') :
    s.interrupt hart mode = .ok s' := by
  simp only [step] at next
  cases ended : s.interrupt hart mode with
  | error message =>
    rw [ended] at next
    cases next
  | ok after =>
    rw [ended] at next
    exact congrArg Except.ok (Option.some.inj next)

theorem usertrap_cases (ended : s.usertrap i = .ok s') :
    ((s.kernel.proc i).killed = true ∧
      ∃ k, exit s.kernel i (-1) (s.kernel.proc i).exitMsg = .ok k ∧ s' = { s with kernel := k }) ∨
    ((s.kernel.proc i).killed = false ∧
      s' = s.change (usertrapTick · i)) := by
  unfold Machine.usertrap at ended
  split at ended
  · rename_i killed
    cases exited : exit s.kernel i (-1) (s.kernel.proc i).exitMsg with
    | error message =>
      rw [exited] at ended
      cases ended
    | ok k =>
      rw [exited] at ended
      exact .inl ⟨killed, k, rfl, (Except.ok.inj ended).symm⟩
  · rename_i alive
    exact .inr ⟨Bool.eq_false_iff.mpr alive, (Except.ok.inj ended).symm⟩

end Interrupts

section Reached
variable {s s' : Machine}

theorem reachable_op {k k' : Kernel} (op : Op) (before : Reachable k)
    (running : ∀ i, op.caller = some i → (k.proc i).state = .running) (performed : perform k op = some k') : Reachable k' :=
  .step k k' op before running performed

theorem reachable_devintr (before : Reachable s.kernel) (hart : Nat) (self : Option Slot) :
    Reachable (s.devintr hart self).kernel := by
  unfold Machine.devintr
  split
  · exact reachable_op (.wakeup self .ticks) before nofun rfl
  · exact before

theorem state_charge (k : Kernel) (i : Slot) : ((k.modify i Proc.charge).proc i).state = (k.proc i).state := by
  rw [Kernel.proc_modify_same, Proc.charge_state]

theorem state_cfsUpdate (k : Kernel) (i : Slot) : (k.cfsUpdate.proc i).state = (k.proc i).state :=
  (Proc.cfsUpdate_fields _).1

/-- Whatever the harts do, the process table is one that the operations reach. -/
theorem take_reachable {e : Event} (taken : take s e = some s') (before : Reachable s.kernel) : Reachable s'.kernel := by
  unfold take at taken
  split_ifs at taken with running
  have next := taken
  cases e with
  | op op plain =>
    obtain ⟨k, performed, rfl⟩ := Option.map_eq_some_iff.mp next
    exact reachable_op op before running performed
  | interrupt hart mode =>
    have woken := reachable_devintr before hart mode.myproc
    cases mode with
    | idle =>
      cases next
      exact reachable_op .cfsUpdate woken nofun rfl
    | kernel i =>
      have updated := reachable_op .cfsUpdate woken nofun rfl
      cases next
      simp only [Machine.kerneltrap, Machine.change, kerneltrapTick]
      split
      · rename_i running
        have charged := reachable_op (.charge i) updated (fun j same => Option.some.inj same ▸ running) rfl
        refine reachable_op (.yield i) charged (fun j same => ?_) rfl
        obtain rfl := Option.some.inj same
        rw [state_charge]
        exact running
      · exact updated
    | user i =>
      have running : ((s.devintr hart (some i)).kernel.proc i).state = .running := by
        rw [devintr_self]
        exact running i rfl
      rcases usertrap_cases (interrupt_ok next) with ⟨-, k, exited, rfl⟩ | ⟨-, rfl⟩
      · have performed : perform (s.devintr hart (some i)).kernel
            (.exit i (-1) ((s.devintr hart (some i)).kernel.proc i).exitMsg) = some k :=
          congrArg Except.toOption exited
        exact reachable_op (.exit i (-1) _) woken (fun j same => Option.some.inj same ▸ running) performed
      · have charged := reachable_op (.charge i) woken (fun j same => Option.some.inj same ▸ running) rfl
        have updated := reachable_op .cfsUpdate charged nofun rfl
        refine reachable_op (.yield i) updated (fun j same => ?_) rfl
        obtain rfl := Option.some.inj same
        rw [state_cfsUpdate, state_charge]
        exact running

end Reached

section Times
variable {p q : Proc}

def Live (p : Proc) : Prop := p.state = .runnable ∨ p.state = .running ∨ p.state = .sleeping

instance (p : Proc) : Decidable (Live p) := inferInstanceAs (Decidable (_ ∨ _))

def Untimed (p q : Proc) : Prop := q.rtime = p.rtime ∧ q.stime = p.stime ∧ q.retime = p.retime

instance : IsPreorder Proc Untimed where
  refl _ := ⟨rfl, rfl, rfl⟩
  trans _ _ _ first second :=
    ⟨second.1.trans first.1, second.2.1.trans first.2.1, second.2.2.trans first.2.2⟩

theorem untimed {kind : Kind} (other : kind ≠ .time) : Admits Untimed kind := by
  intro p q touch
  cases touch with
  | cfsUpdate => exact absurd rfl other
  | wakeup =>
    unfold Proc.wakeup
    split <;> exact ⟨rfl, rfl, rfl⟩
  | charge =>
    unfold Proc.charge
    split <;> exact ⟨rfl, rfl, rfl⟩
  | _ => exact ⟨rfl, rfl, rfl⟩

theorem untimed_plain : Admits Untimed .plain := untimed (by simp)

theorem perform_untimed {k k' : Kernel} {op : Op} (plain : timed op = false) (performed : perform k op = some k') :
    Kernel.Each Untimed k k' := by
  refine perform_each (fun kind member => untimed ?_) performed
  rintro rfl
  cases op <;> simp [timed, Op.kinds] at plain member

/-- Neither the times nor whether they go on has changed. -/
def Calm (p q : Proc) : Prop := Untimed p q ∧ (Live q ↔ Live p)

instance : IsPreorder Proc Calm where
  refl p := ⟨refl_of Untimed p, Iff.rfl⟩
  trans _ _ _ first second := ⟨trans_of Untimed first.1 second.1, second.2.trans first.2⟩

theorem calm_devintr (s : Machine) (hart : Nat) (self : Option Slot) : Kernel.Each Calm s.kernel (s.devintr hart self).kernel := by
  unfold Machine.devintr
  split
  · refine fun i => ⟨wakeup_each untimed_plain s.kernel self (some .ticks) i, ?_⟩
    simp only [Machine.clockintr, Passes.clockintr, Kernel.wakeup, Kernel.proc_mapProcs, Proc.wakeup]
    split_ifs with own asleep
    · exact Iff.rfl
    · exact iff_of_true (.inl rfl) (.inr (.inr asleep.1))
    · exact Iff.rfl
  · exact Kernel.Each.refl _

theorem calm_charge (k : Kernel) (i : Slot) : Kernel.Each Calm k (k.modify i Proc.charge) := by
  refine Kernel.Each.modify ⟨untimed_plain _ _ (.charge _), ?_⟩
  unfold Live
  rw [Proc.charge_state]

/-- What an event does to the times: nothing, or one cfs_update, which may find the process awake that slept before. -/
def Aged (updated : Bool) (p q : Proc) : Prop := ∃ p', Calm p p' ∧ Untimed (if updated then p'.cfsUpdate else p') q

theorem aged_kerneltrap (s : Machine) (self : Option Slot) (i : Slot) :
    Untimed (s.kernel.proc i).cfsUpdate ((s.kerneltrap self).kernel.proc i) := by
  unfold Machine.kerneltrap
  cases self with
  | none => exact refl_of Untimed _
  | some j =>
    simp only [Machine.change, kerneltrapTick]
    split
    · exact ((modify_each untimed_plain _ j Proc.charge (.charge _)).trans
        (modify_each untimed_plain _ j (·.setState .runnable) (.yield _))) i
    · exact refl_of Untimed _

theorem take_aged {s s' : Machine} {e : Event} (taken : take s e = some s') (i : Slot) :
    Aged (updates s e) (s.kernel.proc i) (s'.kernel.proc i) := by
  unfold take at taken
  split_ifs at taken
  cases e with
  | op op plain =>
    obtain ⟨k, performed, rfl⟩ := Option.map_eq_some_iff.mp taken
    exact ⟨_, refl_of Calm _, perform_untimed plain performed i⟩
  | interrupt hart mode =>
    have woken := calm_devintr s hart mode.myproc
    have ended := interrupt_ok taken
    cases mode with
    | user j =>
      have own : ((s.devintr hart (Mode.user j).myproc).kernel.proc j).killed = (s.kernel.proc j).killed :=
        congrArg Proc.killed (devintr_self hart j)
      rcases usertrap_cases ended with ⟨killed, k, exited, rfl⟩ | ⟨alive, rfl⟩
      · rw [updates, findsKilled, ← own, killed]
        exact ⟨_, woken i, exit_each untimed_plain exited i⟩
      · rw [updates, findsKilled, ← own, alive]
        exact ⟨_, (woken.trans (calm_charge _ j)) i, modify_each untimed_plain _ j (·.setState .runnable) (.yield _) i⟩
    | kernel j =>
      obtain rfl := Except.ok.inj ended
      exact ⟨_, woken i, aged_kerneltrap _ _ i⟩
    | idle =>
      obtain rfl := Except.ok.inj ended
      exact ⟨_, woken i, aged_kerneltrap _ _ i⟩

theorem recorded_untimed (untimed : Untimed p q) : recorded q = recorded p := by
  unfold recorded
  rw [untimed.1, untimed.2.1, untimed.2.2]

theorem counted_untimed (untimed : Untimed p q) (counted : Counted p) : Counted q := by
  refine ⟨?_, (recorded_untimed untimed).trans_le counted.small⟩
  rw [untimed.1, untimed.2.1, untimed.2.2]
  exact counted.nonneg

theorem counted_cfsUpdate (counted : Counted p) (room : recorded p + (if Live p then 1 else 0) ≤ INT_MAX) :
    Counted p.cfsUpdate ∧ recorded p.cfsUpdate = recorded p + if Live p then 1 else 0 := by
  have idle : ¬Live p → p.cfsUpdate = p := by
    intro dead
    simp only [Live, not_or] at dead
    simp [Proc.cfsUpdate, dead]
  by_cases live : Live p
  · rw [if_pos live] at room ⊢
    obtain ⟨⟨ran, slept, waited⟩, -⟩ := counted
    have next : ∀ x : Int, 0 ≤ x → x ≤ recorded p → wrap32 (x + 1) = x + 1 := by
      intro x low high
      unfold INT_MAX at room
      exact Int.bmod_eq_of_le (by omega) (by omega)
    unfold recorded at room next ⊢
    have counted : ∀ q : Proc, 0 ≤ q.rtime ∧ 0 ≤ q.stime ∧ 0 ≤ q.retime →
        q.rtime + q.stime + q.retime = p.rtime + p.stime + p.retime + 1 → p.cfsUpdate = q →
        Counted p.cfsUpdate ∧ p.cfsUpdate.rtime + p.cfsUpdate.stime + p.cfsUpdate.retime =
          p.rtime + p.stime + p.retime + 1 := by
      rintro q nonneg grown rfl
      exact ⟨⟨nonneg, grown.trans_le room⟩, grown⟩
    rcases live with state | state | state
    · refine counted { p with retime := p.retime + 1 } ⟨ran, slept, by dsimp only; omega⟩ (by dsimp only; omega) ?_
      rw [Proc.cfsUpdate, if_pos state, next p.retime waited (by omega)]
    · refine counted { p with rtime := p.rtime + 1 } ⟨by dsimp only; omega, slept, waited⟩ (by dsimp only; omega) ?_
      simp [Proc.cfsUpdate, state, next p.rtime ran (by omega)]
    · refine counted { p with stime := p.stime + 1 } ⟨ran, by dsimp only; omega, waited⟩ (by dsimp only; omega) ?_
      simp [Proc.cfsUpdate, state, next p.stime slept (by omega)]
  · rw [if_neg live, idle live]
    exact ⟨counted, (add_zero _).symm⟩

/-- The time of a process that has not overflown grows by the updates that find it. -/
theorem Aged.recorded {updated : Bool} (aged : Aged updated p q) (counted : Counted p)
    (room : recorded p + (if updated = true ∧ Live p then 1 else 0) ≤ INT_MAX) :
    Counted q ∧ recorded q = recorded p + if updated = true ∧ Live p then 1 else 0 := by
  obtain ⟨p', calm, rest⟩ := aged
  have same := recorded_untimed calm.1
  have counted' := counted_untimed calm.1 counted
  cases updated with
  | false =>
    simp only [Bool.false_eq_true, false_and, if_false, add_zero] at rest ⊢
    exact ⟨counted_untimed rest counted', (recorded_untimed rest).trans same⟩
  | true =>
    simp only [if_true, true_and] at rest room ⊢
    rw [← same] at room ⊢
    simp only [← calm.2] at room ⊢
    obtain ⟨counted'', grown⟩ := counted_cfsUpdate counted' room
    exact ⟨counted_untimed rest counted'', (recorded_untimed rest).trans grown⟩

def time (p : Proc) : BitVec 32 := BitVec.ofInt 32 (recorded p)

theorem ofInt_wrap32 (x : Int) : BitVec.ofInt 32 (wrap32 x) = BitVec.ofInt 32 x := by
  apply BitVec.eq_of_toInt_eq
  rw [BitVec.toInt_ofInt, BitVec.toInt_ofInt]
  exact Int.bmod_bmod

theorem time_cfsUpdate (live : Live p) : time p.cfsUpdate = time p + 1 := by
  have one : BitVec.ofInt 32 1 = 1 := rfl
  unfold time Fair.recorded Proc.cfsUpdate
  rcases live with state | state | state <;>
    · simp only [state, reduceCtorEq, ↓reduceIte, BitVec.ofInt_add, ofInt_wrap32, one]
      ring

theorem Aged.time {updated : Bool} (aged : Aged updated p q) (live : Live p) :
    time q = time p + if updated then 1 else 0 := by
  obtain ⟨p', calm, rest⟩ := aged
  have same : ∀ {p q : Proc}, Untimed p q → Ticks.time q = Ticks.time p :=
    fun untimed => congrArg (BitVec.ofInt 32) (recorded_untimed untimed)
  rw [same rest]
  cases updated with
  | false => simp [same calm.1]
  | true => simp [time_cfsUpdate (calm.2.mpr live), same calm.1]

end Times

section Defined
variable {s : Machine} {events : List Event}

def booted : Machine := { kernel := boot, ticks := 0 }

/-- The event counts the time of the process in the slot. -/
def lives (i : Slot) (s : Machine) (e : Event) : Nat := if updates s e = true ∧ Live (s.kernel.proc i) then 1 else 0

theorem boot_counted (i : Slot) : Counted (boot.proc i) ∧ recorded (boot.proc i) = 0 := by
  have times : ∀ i, ((boot.proc i).rtime, (boot.proc i).stime, (boot.proc i).retime) = (0, 0, 0) := by decide +kernel
  have same := times i
  simp only [Prod.mk.injEq] at same
  have none : recorded (boot.proc i) = 0 := by
    unfold recorded
    omega
  exact ⟨⟨⟨by omega, by omega, by omega⟩, by rw [none]; decide⟩, none⟩

/-- So many updates that found the process are its time, as long as that is in the range of an int. -/
def Recorded (i : Slot) (n : Nat) (s : Machine) : Prop :=
  n < 2 ^ 31 → Counted (s.kernel.proc i) ∧ recorded (s.kernel.proc i) = n

theorem Recorded.next {i : Slot} {n : Nat} {s s' : Machine} {e : Event} (before : Recorded i n s) (taken : take s e = some s') :
    Recorded i (n + lives i s e) s' := by
  intro few
  obtain ⟨counted, same⟩ := before (by omega)
  have weight : (lives i s e : Int) = if updates s e = true ∧ Live (s.kernel.proc i) then 1 else 0 := by
    unfold lives
    split_ifs <;> rfl
  have room : recorded (s.kernel.proc i) + lives i s e ≤ INT_MAX := by
    unfold INT_MAX
    omega
  rw [weight] at room
  obtain ⟨counted', grown⟩ := (take_aged taken i).recorded counted room
  exact ⟨counted', by rw [grown, same, ← weight, Nat.cast_add]⟩

theorem recorded_run (played : events.foldlM take booted = some s) (i : Slot)
    (few : total take (lives i) events booted < 2 ^ 31) :
    Counted (s.kernel.proc i) ∧ recorded (s.kernel.proc i) = total take (lives i) events booted := by
  have start : Recorded i 0 booted := fun _ => boot_counted i
  have grown : Recorded i (0 + total take (lives i) events booted) s :=
    total_invariant (fun _ _ _ _ before taken => before.next taken) start played
  rw [zero_add] at grown
  exact grown few

/-- In a run in which no process is counted so often that its time overflows, the arithmetic of the policy-2 pass is
defined exactly if every slot, also one that is free now, has had a process at some count. -/
theorem fair_pass_defined_iff (played : events.foldlM take booted = some s)
    (few : ∀ i, total take (lives i) events booted < 2 ^ 31) (decay : Int) :
    (checkedScan s.kernel decay slots).isSome ↔ ∀ i, 0 < total take (lives i) events booted := by
  have reachable : Reachable s.kernel := by
    have runs := Lib.Transition.Reachable.foldlM (fun s e s' (taken : take s e = some s') =>
      (take_reachable taken : Reachable s.kernel → Reachable s'.kernel)) (.init booted rfl) played
    exact runs.invariant (fun s => Reachable s.kernel) (fun s (same : booted = s) => same ▸ .boot) fun _ _ before next => next before
  rw [checkedScan_isSome fun i => (reachable.sound s.kernel i).cfs]
  refine forall_congr' fun i => ?_
  obtain ⟨counted, same⟩ := recorded_run played i (few i)
  rw [counted.defined_iff, same]
  omega

/-- init forks until the table is full, and the timer interrupts it. -/
def crowded : List Event :=
  [.op (.scheduleRr 0) rfl] ++ List.replicate 63 (.op (.fork 0 ⟨true, true⟩) rfl) ++ [.interrupt 0 (.user 0), .op (.setPolicy 2) rfl]

theorem fair_pass_defined_crowded : ∃ s, crowded.foldlM take booted = some s ∧ (checkedScan s.kernel 100 slots).isSome := by
  have played : (crowded.foldlM take booted).isSome = true := by decide +kernel
  obtain ⟨s, found⟩ := Option.isSome_iff_exists.mp played
  have once : ∀ i, total take (lives i) crowded booted = 1 := by decide +kernel
  refine ⟨s, found, (fair_pass_defined_iff found (fun i => ?_) 100).mpr fun i => ?_⟩
  · rw [once i]
    decide
  · rw [once i]
    decide

/-- init asks for policy 2 before it does anything else. -/
def hasty : List Event := [.op (.scheduleRr 0) rfl, .op (.setPolicy 2) rfl]

/-- The slots that were never used have no time, which the first pass of policy 2 divides by. -/
theorem first_fair_pass_undefined : ∃ s, hasty.foldlM take booted = some s ∧ s.kernel.schedPolicy = 2 ∧
    checkedScan s.kernel 100 slots = none := by
  have played : ((hasty.foldlM take booted).map fun s => (s.kernel.schedPolicy, (checkedScan s.kernel 100 slots).isSome)) =
      some (2, false) := by
    decide +kernel
  obtain ⟨s, found, facts⟩ := Option.map_eq_some_iff.mp played
  obtain ⟨policy, undefined⟩ := Prod.mk.inj facts
  exact ⟨s, found, policy, Option.not_isSome_iff_eq_none.mp (by rw [undefined]; decide)⟩

end Defined

section Clock
variable {s s' : Machine} {i : Slot} {events : List Event}

/-- A step before and after which the process in the slot is there. -/
def stay (i : Slot) (s : Machine) (e : Event) : Option Machine :=
  (take s e).bind fun s' => if Live (s.kernel.proc i) ∧ Live (s'.kernel.proc i) then some s' else none

/-- How much the times and the clock get ahead of each other: an interrupt of another hart counts the times only, and
one of the first hart that finds a killed process in user mode moves the clock only. -/
def drift (s : Machine) : Event → Nat × Nat
  | .interrupt hart mode =>
      if hart = 0 then (if findsKilled s mode then (0, 1) else (0, 0)) else if findsKilled s mode then (0, 0) else (1, 0)
  | .op _ _ => (0, 0)

theorem ticks_interrupt {hart : Nat} {mode : Mode} (ended : s.interrupt hart mode = .ok s') :
    s'.ticks = s.ticks + if hart = 0 then 1 else 0 := by
  have clock : (s.devintr hart mode.myproc).ticks = s.ticks + if hart = 0 then 1 else 0 := by
    unfold Machine.devintr
    split_ifs
    · rfl
    · exact (BitVec.add_zero _).symm
  rw [← clock]
  cases mode with
  | user j =>
    rcases usertrap_cases ended with ⟨-, k, -, rfl⟩ | ⟨-, rfl⟩
    · rfl
    · rfl
  | kernel j =>
    obtain rfl := Except.ok.inj ended
    rfl
  | idle =>
    obtain rfl := Except.ok.inj ended
    rfl

/-- How far the time of a process and the clock have come since they were equal. -/
def Ahead (i : Slot) (start : BitVec 32) (n : Nat × Nat) (s : Machine) : Prop :=
  time (s.kernel.proc i) - s.ticks + BitVec.ofNat 32 n.2 = start + BitVec.ofNat 32 n.1

theorem ofNat_succ (n : Nat) : BitVec.ofNat 32 (n + 1) = BitVec.ofNat 32 n + 1 := BitVec.ofNat_add n 1

theorem Ahead.next {start : BitVec 32} {n : Nat × Nat} {e : Event} (before : Ahead i start n s) (stays : stay i s e = some s') :
    Ahead i start (n + drift s e) s' := by
  obtain ⟨s', taken, there⟩ := Option.bind_eq_some_iff.mp stays
  split_ifs at there with live
  cases there
  have aged := (take_aged taken i).time live.1
  unfold take at taken
  split_ifs at taken
  unfold Ahead at before ⊢
  cases e with
  | op op plain =>
    obtain ⟨k, performed, rfl⟩ := Option.map_eq_some_iff.mp taken
    rw [aged]
    simpa [drift, updates] using before
  | interrupt hart mode =>
    rw [aged, ticks_interrupt (interrupt_ok taken)]
    cases killed : findsKilled s mode with
    | true | false =>
      by_cases first : hart = 0
      · simp only [updates, drift, killed, first, if_true, Bool.not_true, Bool.not_false, Bool.false_eq_true, if_false,
          Prod.fst_add, Prod.snd_add, add_zero, ofNat_succ]
        linear_combination before
      · simp only [updates, drift, killed, first, if_true, Bool.not_true, Bool.not_false, Bool.false_eq_true, if_false,
          Prod.fst_add, Prod.snd_add, add_zero, ofNat_succ]
        linear_combination before

/-- However the harts take their interrupts, the time of a process that stays grows with the clock exactly if other
harts interrupt as often, but for killed processes in user mode, as the first one finds a killed process in user mode (in
ints, that is modulo their size). -/
theorem time_follows_clock_iff (played : events.foldlM (stay i) s = some s') :
    time (s'.kernel.proc i) - time (s.kernel.proc i) = s'.ticks - s.ticks ↔
      (total (stay i) drift events s).1 ≡ (total (stay i) drift events s).2 [MOD 2 ^ 32] := by
  have start : Ahead i (time (s.kernel.proc i) - s.ticks) 0 s := rfl
  have grown : Ahead i (time (s.kernel.proc i) - s.ticks) (0 + total (stay i) drift events s) s' :=
    total_invariant (fun _ _ _ _ before stays => before.next stays) start played
  rw [zero_add, Ahead] at grown
  rw [Nat.ModEq, ← BitVec.toNat_ofNat, ← BitVec.toNat_ofNat, BitVec.toNat_inj]
  constructor
  · intro same
    linear_combination same - grown
  · intro same
    linear_combination grown + same

/-- The first hart finds a killed process in user mode, and the second one is in the kernel for init. -/
def balanced : List Event :=
  [.op (.scheduleRr 0) rfl, .op (.fork 0 ⟨true, true⟩) rfl, .op (.scheduleRr 1) rfl, .op (.kill 2) rfl, .interrupt 1 (.kernel 0),
    .interrupt 0 (.user 1), .op (.scheduleRr 0) rfl, .interrupt 0 (.user 0), .interrupt 0 .idle]

theorem time_follows_clock_balanced : ∃ s, balanced.foldlM (stay 0) booted = some s ∧ s.ticks = 3 ∧
    time (s.kernel.proc 0) - time (booted.kernel.proc 0) = s.ticks - booted.ticks := by
  have played : ((balanced.foldlM (stay 0) booted).map fun s => (s.ticks, total (stay 0) drift balanced booted)) =
      some (3, 1, 1) := by
    decide +kernel
  obtain ⟨s, found, facts⟩ := Option.map_eq_some_iff.mp played
  obtain ⟨ticks, drifted⟩ := Prod.mk.inj facts
  exact ⟨s, found, ticks, (time_follows_clock_iff found).mpr (by rw [drifted])⟩

/-- The timer of the second hart adds to the time of init and not to the clock. -/
theorem second_hart_counts_twice : ∃ s, [.interrupt 1 .idle].foldlM (stay 0) booted = some s ∧
    time (s.kernel.proc 0) - time (booted.kernel.proc 0) = 1 ∧ s.ticks - booted.ticks = 0 := by
  have played : (([.interrupt 1 .idle].foldlM (stay 0) booted).map fun s =>
      (time (s.kernel.proc 0) - time (booted.kernel.proc 0), s.ticks - booted.ticks)) = some (1, 0) := by
    decide +kernel
  obtain ⟨s, found, facts⟩ := Option.map_eq_some_iff.mp played
  exact ⟨s, found, Prod.mk.inj facts⟩

end Clock

section Sleeping

/-- What passes between two looks of sys_sleep at the clock, and whether the process has been killed by then. -/
structure Nap where
  increments : Nat
  killed : Bool

/-- The loop of sys_sleep: after how many naps it returns, and what; none if it sleeps on after all of them.
The comparison of ticks - ticks0 with n is one of unsigned numbers. -/
def sleepLoop (n ticks0 ticks : BitVec 32) (killed : Bool) (naps : List Nap) : Option (Nat × Int) :=
  if (ticks - ticks0).toNat < n.toNat then
    if killed then some (0, -1)
    else
      match naps with
      | [] => none
      | nap :: naps =>
        (sleepLoop n ticks0 (ticks + BitVec.ofNat 32 nap.increments) nap.killed naps).map fun (k, r) => (k + 1, r)
  else some (0, 0)

def sysSleep (n ticks : BitVec 32) (killed : Bool) (naps : List Nap) : Option (Nat × Int) :=
  sleepLoop n ticks ticks killed naps

/-- What sleep is for: it returns 0 as soon as the time is up, and -1 if the process is found killed before. -/
def sleepsFor (n : Int) (since : Nat) (killed : Bool) (naps : List Nap) : Option (Nat × Int) :=
  if max n 0 ≤ since then some (0, 0)
  else if killed then some (0, -1)
  else
    match naps with
    | [] => none
    | nap :: naps => (sleepsFor n (since + nap.increments) nap.killed naps).map fun (k, r) => (k + 1, r)

variable {n ticks0 : BitVec 32}

theorem sleepLoop_sleeps (sign : 0 ≤ n.toInt) (naps : List Nap) (gaps : ∀ nap ∈ naps, nap.increments < 2 ^ 31) (since : Nat)
    (recent : since < 2 ^ 32) (killed : Bool) :
    sleepLoop n ticks0 (ticks0 + BitVec.ofNat 32 since) killed naps = sleepsFor n.toInt since killed naps := by
  have size : n.toInt = n.toNat ∧ n.toNat < 2 ^ 31 := by
    have := n.isLt
    rw [BitVec.toInt_eq_toNat_cond] at *
    split_ifs at * <;> omega
  -- at a look before the last, less than n has passed, so that the next one comes before the counter is round
  induction naps generalizing since killed with
  | nil =>
    rw [sleepLoop, sleepsFor, BitVec.add_comm, BitVec.add_sub_cancel, BitVec.toNat_ofNat, Nat.mod_eq_of_lt recent]
    by_cases up : n.toNat ≤ since
    · rw [if_neg (by omega), if_pos (by omega)]
    · have early : ¬max n.toInt 0 ≤ since := by omega
      rw [if_pos (by omega), if_neg early]
  | cons nap naps ih =>
    rw [sleepLoop, sleepsFor, BitVec.add_comm, BitVec.add_sub_cancel, BitVec.toNat_ofNat, Nat.mod_eq_of_lt recent]
    by_cases up : n.toNat ≤ since
    · rw [if_neg (by omega), if_pos (by omega)]
    · have gap := gaps nap List.mem_cons_self
      have early : ¬max n.toInt 0 ≤ since := by omega
      rw [if_pos (by omega), if_neg early, BitVec.add_comm (BitVec.ofNat 32 since), BitVec.add_assoc, ← BitVec.ofNat_add,
        ih (fun nap later => gaps nap (List.mem_cons_of_mem _ later)) (since + nap.increments) (by omega)]

/-- sys_sleep sleeps for n ticks if n is not negative, and otherwise does not return at once. -/
theorem sys_sleep_waits_iff (n ticks : BitVec 32) (killed : Bool) (naps : List Nap)
    (gaps : ∀ nap ∈ naps, nap.increments < 2 ^ 31) :
    sysSleep n ticks killed naps = sleepsFor n.toInt 0 killed naps ↔ 0 ≤ n.toInt := by
  constructor
  · intro same
    by_contra negative
    have least : max n.toInt 0 ≤ (0 : Nat) := by omega
    have large : 0 < n.toNat := Nat.pos_of_ne_zero fun zero => negative (by rw [BitVec.toInt_eq_toNat_cond, zero]; decide)
    rw [sysSleep, sleepLoop.eq_def, sleepsFor.eq_def, if_pos least, BitVec.sub_self, if_pos (by simpa using large)] at same
    cases killed with
    | true => cases same
    | false =>
      cases naps with
      | nil => cases same
      | cons nap naps =>
        obtain ⟨_, -, late⟩ := Option.map_eq_some_iff.mp same
        cases late
  · intro sign
    have start := @sleepLoop_sleeps n ticks sign naps gaps 0 (by decide) killed
    rwa [BitVec.add_zero] at start

theorem sys_sleep_waits_across_wrap : (∀ nap ∈ [Nap.mk 2 false], nap.increments < 2 ^ 31) ∧
    sysSleep 2 (-1) false [⟨2, false⟩] = some (1, 0) := by
  refine ⟨by decide, ((sys_sleep_waits_iff 2 (-1) false [⟨2, false⟩] (by decide)).mpr (by decide)).trans (by decide)⟩

/-- The call with -1 sleeps on after any tick. -/
theorem sys_sleep_negative_waits : sysSleep (-1) 0 false [⟨1, false⟩] = none ∧ sleepsFor (-1) 0 false [⟨1, false⟩] = some (0, 0) := by
  decide

end Sleeping

end Xv6.Sched.Ticks
