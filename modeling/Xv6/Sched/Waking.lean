import Xv6.Sched.Lifecycle
import Xv6.Sched.Share

/-! The accumulator with which a process comes back from sleep. -/

namespace Xv6.Sched.Waking
open Table Passes Lifecycle Share Lib.Least List

/-- The least accumulator of a RUNNABLE or RUNNING process, 0 if there is none. -/
def activeMin (k : Kernel) : Int :=
  ((slots.filter fun i => decide (Active (k.proc i))).map fun i => (k.proc i).accumulator).min?.getD 0

/-- The process is active, and no active one has a smaller accumulator. -/
def Lowest (k : Kernel) (i : Slot) : Prop :=
  Active (k.proc i) ∧ ∀ j, Active (k.proc j) → (k.proc i).accumulator ≤ (k.proc j).accumulator

theorem Lowest.activeMin {k : Kernel} {i : Slot} (lowest : Lowest k i) : activeMin k = (k.proc i).accumulator := by
  have least : ((slots.filter fun j => decide (Active (k.proc j))).map fun j => (k.proc j).accumulator).min? =
      some (k.proc i).accumulator := by
    rw [min?_eq_some_iff]
    refine ⟨mem_map.mpr ⟨i, mem_filter.mpr ⟨mem_slots i, decide_eq_true lowest.1⟩, rfl⟩, fun x member => ?_⟩
    obtain ⟨j, active, rfl⟩ := mem_map.mp member
    exact lowest.2 j (of_decide_eq_true (mem_filter.mp active).2)
  rw [Waking.activeMin, least, Option.getD_some]

/-- The global minimum is that of the active processes. -/
def Fresh (k : Kernel) : Prop := ∃ i, Lowest k i ∧ k.minAccumulator = (k.proc i).accumulator

/-- Who is active, and with which accumulator, has not changed. -/
def Calm (p q : Proc) : Prop := (Active q ↔ Active p) ∧ q.accumulator = p.accumulator

section Freshness
variable {k k' : Kernel} {i : Slot}

theorem Fresh.calm (fresh : Fresh k) (calm : ∀ j, Calm (k.proc j) (k'.proc j)) (global : k'.minAccumulator = k.minAccumulator) :
    Fresh k' := by
  obtain ⟨i, ⟨active, least⟩, same⟩ := fresh
  refine ⟨i, ⟨(calm i).1.mpr active, fun j active' => ?_⟩, ?_⟩
  · rw [(calm i).2, (calm j).2]
    exact least j ((calm j).1.mp active')
  · rw [global, same, (calm i).2]

theorem Fresh.modify (fresh : Fresh k) (i : Slot) (change : Proc → Proc) (calm : Calm (k.proc i) (change (k.proc i))) :
    Fresh (k.modify i change) := by
  refine fresh.calm (fun j => ?_) rfl
  by_cases same : j = i
  · rw [same, Kernel.proc_modify_same]
    exact calm
  · rw [Kernel.proc_modify_other same]
    exact ⟨Iff.rfl, rfl⟩

theorem Fresh.switchTo (fresh : Fresh k) (i : Slot) : Fresh (switchTo k i).2 := by
  unfold Passes.switchTo
  split_ifs with ready
  · exact fresh.modify i (·.setState .running) ⟨iff_of_true (.inr rfl) (.inl ready), rfl⟩
  · exact fresh

/-- Those who wake up join at the minimum, which stays what it was. -/
theorem Fresh.wakeup (fresh : Fresh k) (self : Option Slot) (chan : Option Chan) : Fresh (k.wakeup self chan) := by
  obtain ⟨i, ⟨active, least⟩, same⟩ := fresh
  have there : (k.wakeup self chan).proc i = k.proc i := by
    simp only [Kernel.wakeup, Kernel.proc_mapProcs, Proc.wakeup]
    split_ifs with own asleep
    · rfl
    · rcases active with state | state <;> cases state.symm.trans asleep.1
    · rfl
  refine ⟨i, ⟨by rwa [there], fun j active' => ?_⟩, by rw [there]; exact same⟩
  rw [there]
  simp only [Kernel.wakeup, Kernel.proc_mapProcs, Proc.wakeup] at active' ⊢
  split_ifs at active' ⊢ with own asleep
  · exact least j active'
  · exact same.ge
  · exact least j active'

theorem lone_active (counter : (psScan k slots).procCounter = 1) (mine : Active (k.proc i)) {j : Slot}
    (theirs : Active (k.proc j)) : j = i := by
  rw [(found_psScan k slots).counted, countP_eq_length_filter] at counter
  obtain ⟨x, only⟩ := length_eq_one_iff.mp (Int.ofNat_inj.mp counter)
  have listed : ∀ j, Active (k.proc j) → j = x := fun j active =>
    mem_singleton.mp (only ▸ mem_filter.mpr ⟨mem_slots j, decide_eq_true active⟩)
  rw [listed j theirs, listed i mine]

theorem minAccumulator_psScan (foremost : Foremost k i) : (psScan k slots).minAccumulator = (k.proc i).accumulator := by
  have chosen := (minProc_iff k i).mpr foremost
  have found := found_psScan k slots
  have best : Scanned (fun j => Active (k.proc j)) (fun j => (k.proc j).accumulator) LLONG_MAX slots
      ((psScan k slots).minProc, (psScan k slots).minAcc) :=
    found.best ▸ scanned_scan (pairwise_lt_finRange NPROC)
  rw [found.global, if_neg (by rw [chosen]; nofun)]
  exact (best.somebody i chosen).2

/-- A pass of policy 1 that finds an active process leaves their minimum in the global variable. -/
theorem pass_fresh (foremost : Foremost k i) : Fresh (psChoose k).2 := by
  rw [psChoose_some k i ((minProc_iff k i).mpr foremost), minAccumulator_psScan foremost]
  refine Fresh.switchTo ?_ i
  unfold resetLone
  split_ifs with lone
  · refine ⟨i, ⟨?_, fun j active => ?_⟩, ?_⟩
    · simp only [Kernel.proc_modify_same]
      exact foremost.ready
    · have same : j = i := by
        by_contra other
        simp only [Kernel.proc_modify_other other] at active
        exact other (lone_active lone foremost.ready active)
      rw [same]
    · simp only [Kernel.proc_modify_same]
  · exact ⟨i, ⟨foremost.ready, fun j active => foremost.least j (mem_slots j) active⟩, rfl⟩

end Freshness

/-- The operations that leave the accumulators and the active processes as they are, but for those they wake up. -/
def quiet : Op → Bool
  | .scheduleRr _ | .scheduleCfs _ | .cfsUpdate | .yield _ | .setkilled _ | .awake _ | .wakeup _ _ | .setPsPriority _ _
  | .setCfsPriority _ _ | .setPolicy _ => true
  | _ => false

theorem Fresh.act {k k' : Kernel} {op : Op} (fresh : Fresh k) (calm : quiet op = true) (acted : act k op = some k') : Fresh k' := by
  obtain ⟨running, performed⟩ := act_eq_some acted
  cases op with
  | scheduleRr i =>
    cases performed
    split_ifs with ready
    · exact fresh.modify i _ ⟨iff_of_true (.inr rfl) (.inl ready), rfl⟩
    · exact fresh
  | scheduleCfs decay =>
    cases performed
    unfold cfsChoose
    split
    · exact fresh
    · exact fresh.switchTo _
  | cfsUpdate =>
    cases performed
    refine fresh.calm (fun j => ?_) rfl
    obtain ⟨state, -, -, accumulator⟩ := (k.proc j).cfsUpdate_fields
    exact ⟨by unfold Active; rw [show (k.cfsUpdate.proc j).state = _ from state], accumulator⟩
  | yield i =>
    cases performed
    exact fresh.modify i _ ⟨iff_of_true (.inl rfl) (.inr (running i rfl)), rfl⟩
  | setkilled i | awake i =>
    cases performed
    exact fresh.modify i _ ⟨Iff.rfl, rfl⟩
  | wakeup self chan =>
    cases performed
    exact fresh.wakeup self (some chan)
  | setPsPriority i priority | setCfsPriority i priority =>
    cases performed
    split_ifs
    · exact fresh
    · exact fresh.modify i _ ⟨Iff.rfl, rfl⟩
  | setPolicy policy =>
    cases performed
    split_ifs
    · exact fresh
    · exact fresh.calm (fun _ => ⟨Iff.rfl, rfl⟩) rfl
  | _ => cases calm

/-- A slot as it was, but for its time and its parent, or woken up with the given accumulator. -/
def Woken (accumulator : Int) (p q : Proc) : Prop :=
  (q.state = p.state ∧ q.accumulator = p.accumulator) ∨
    (p.state = .sleeping ∧ q.state = .runnable ∧ q.accumulator = accumulator)

instance (accumulator : Int) : IsPreorder Proc (Woken accumulator) where
  refl _ := .inl ⟨rfl, rfl⟩
  trans p q r first second := by
    rcases first with ⟨state, same⟩ | ⟨asleep, ready, joined⟩
    · rcases second with ⟨state', same'⟩ | ⟨asleep, ready, joined⟩
      · exact .inl ⟨state'.trans state, same'.trans same⟩
      · exact .inr ⟨state ▸ asleep, ready, joined⟩
    · rcases second with ⟨state', same'⟩ | ⟨asleep', _, _⟩
      · exact .inr ⟨asleep, state'.trans ready, same'.trans joined⟩
      · cases ready.symm.trans asleep'

section Wakers
variable {k k' : Kernel} {j : Slot}

theorem wakeup_woken (k : Kernel) (self : Option Slot) (chan : Option Chan) :
    Kernel.Each (Woken k.minAccumulator) k (k.wakeup self chan) := by
  intro i
  simp only [Kernel.wakeup, Kernel.proc_mapProcs, Proc.wakeup]
  split_ifs with own asleep
  · exact .inl ⟨rfl, rfl⟩
  · exact .inr ⟨asleep.1, rfl, rfl⟩
  · exact .inl ⟨rfl, rfl⟩

theorem reparent_woken (k : Kernel) (p : Slot) : (reparent k p).minAccumulator = k.minAccumulator ∧
    Kernel.Each (Woken k.minAccumulator) k (reparent k p) := by
  unfold reparent
  induction slots generalizing k with
  | nil => exact ⟨rfl, Kernel.Each.refl k⟩
  | cons pp visited ih =>
    have first : (reparentVisit p k pp).minAccumulator = k.minAccumulator ∧
        Kernel.Each (Woken k.minAccumulator) k (reparentVisit p k pp) := by
      unfold reparentVisit
      split_ifs
      · exact ⟨rfl, Kernel.Each.trans (Kernel.Each.modify (.inl ⟨rfl, rfl⟩)) (wakeup_woken _ _ _)⟩
      · exact ⟨rfl, Kernel.Each.refl k⟩
    obtain ⟨global, rest⟩ := ih (reparentVisit p k pp)
    rw [first.1] at global rest
    exact ⟨global, first.2.trans rest⟩

theorem exit_woken {p : Slot} {status : Int} {msg : Lib.Bytes.Buffer 32} (exited : exit k p status msg = .ok k')
    (other : j ≠ p) : Woken k.minAccumulator (k.proc j) (k'.proc j) := by
  unfold exit at exited
  split at exited
  · cases exited
  · obtain rfl := Except.ok.inj exited
    obtain ⟨global, reparented⟩ := reparent_woken k p
    have woken := wakeup_woken (reparent k p) (some p) (((reparent k p).proc p).parent.map .proc)
    rw [global] at woken
    rw [Kernel.proc_modify_other other]
    exact (reparented.trans woken) j

theorem quantum_woken {trap : Trap} {i : Slot} (ended : quantum trap k i = .ok k') (other : j ≠ i) :
    Woken k.minAccumulator (k.proc j) (k'.proc j) := by
  have woken : Woken k.minAccumulator (k.proc j) ((clockintr k (some i)).proc j) := wakeup_woken k (some i) (some .ticks) j
  have updated : ∀ p : Proc, Woken k.minAccumulator p p.cfsUpdate :=
    fun p => .inl ⟨p.cfsUpdate_fields.1, p.cfsUpdate_fields.2.2.2⟩
  cases trap with
  | user =>
    simp only [quantum] at ended
    split at ended
    · exact trans_of (Woken _) woken (exit_woken ended other)
    · obtain rfl := Except.ok.inj ended
      simp only [usertrapTimer, usertrapTick, yield, Kernel.proc_modify_other other, Kernel.cfsUpdate, Kernel.proc_mapProcs]
      exact trans_of (Woken _) woken (updated _)
  | kernel =>
    obtain rfl := Except.ok.inj ended
    have ticked : Woken k.minAccumulator (k.proc j) ((clockintr k (some i)).cfsUpdate.proc j) :=
      trans_of (Woken _) woken (updated _)
    simp only [kerneltrapTimer, kerneltrapTick]
    split_ifs
    · simpa only [yield, Kernel.proc_modify_other other] using ticked
    · exact ticked

theorem switchTo_asleep {i : Slot} (asleep : (k.proc j).state = .sleeping) : (switchTo k i).2.proc j = k.proc j := by
  unfold switchTo
  split_ifs with ready
  · have other : j ≠ i := fun same => by cases asleep.symm.trans (same ▸ ready)
    simp only [Kernel.proc_modify_other other]
  · rfl

/-- Whatever wakes a process up other than kill gives it the global minimum. -/
theorem act_woken {op : Op} (acted : act k op = some k') (mild : ∀ pid, op ≠ .kill pid) (asleep : (k.proc j).state = .sleeping) :
    Woken k.minAccumulator (k.proc j) (k'.proc j) := by
  obtain ⟨running, performed⟩ := act_eq_some acted
  have apart : ∀ {i : Slot}, (k.proc i).state ≠ .sleeping → j ≠ i := fun awake same => awake (same ▸ asleep)
  have caller : ∀ i, op.caller = some i → j ≠ i := fun i mine => apart (by rw [running i mine]; decide)
  have modified : ∀ (k₁ : Kernel) (i : Slot) (change : Proc → Proc), k₁.proc = k.proc → j ≠ i →
      Woken k.minAccumulator (k.proc j) ((k₁.modify i change).proc j) := by
    intro k₁ i change same other
    rw [Kernel.proc_modify_other other, same]
    exact .inl ⟨rfl, rfl⟩
  have untouched : Woken k.minAccumulator (k.proc j) (k.proc j) := .inl ⟨rfl, rfl⟩
  cases op with
  | kill pid => exact absurd rfl (mild pid)
  | wakeup self chan =>
    cases performed
    exact wakeup_woken k self (some chan) j
  | timer trap i =>
    simp only [perform] at performed
    cases ended : quantum trap k i with
    | error message => simp [ended, Except.toOption] at performed
    | ok after =>
      simp only [ended, Except.toOption, Option.some.injEq] at performed
      exact performed ▸ quantum_woken ended (caller i rfl)
  | exit i status msg =>
    simp only [perform] at performed
    cases ended : exit k i status msg with
    | error message => simp [ended, Except.toOption] at performed
    | ok after =>
      simp only [ended, Except.toOption, Option.some.injEq] at performed
      exact performed ▸ exit_woken ended (caller i rfl)
  | cfsUpdate =>
    cases performed
    exact .inl ⟨(k.proc j).cfsUpdate_fields.1, (k.proc j).cfsUpdate_fields.2.2.2⟩
  | charge i | yield i | setkilled i | sleep i chan | awake i =>
    cases performed
    exact modified k i _ rfl (caller i rfl)
  | setPsPriority i priority | setCfsPriority i priority =>
    cases performed
    split_ifs
    · exact untouched
    · exact modified k i _ rfl (caller i rfl)
  | setPolicy policy =>
    cases performed
    split_ifs <;> exact untouched
  | scheduleRr i =>
    cases performed
    split_ifs with ready
    · exact modified k i _ rfl (apart (by rw [ready]; decide))
    · exact untouched
  | scheduleCfs decay =>
    cases performed
    unfold cfsChoose
    split
    · exact untouched
    · rw [switchTo_asleep asleep]
      exact untouched
  | schedulePs =>
    cases performed
    cases chosen : (psScan k slots).minProc with
    | none =>
      rw [psChoose_none k chosen]
      exact untouched
    | some i =>
      have other : j ≠ i := apart fun same => by
        rcases ((minProc_iff k i).mp chosen).ready with state | state <;> cases state.symm.trans same
      have same : (resetLone (psScan k slots).procCounter { k with minAccumulator := (psScan k slots).minAccumulator } i).proc j =
          k.proc j := by
        unfold resetLone
        split_ifs
        · simp only [Kernel.proc_modify_other other]
        · rfl
      rw [psChoose_some k i chosen, switchTo_asleep (by rw [same]; exact asleep), same]
      exact untouched
  | fork i memory =>
    cases performed
    cases free : k.findUnused with
    | none =>
      rw [fork_none k i memory free]
      exact untouched
    | some np =>
      have other : j ≠ np := apart (by rw [Kernel.findUnused_state k np free]; decide)
      rw [fork_some k i np memory free]
      split_ifs <;> exact modified _ np _ rfl other
  | wait i copied =>
    cases performed
    unfold wait
    split
    · rename_i pp found
      have zombie : (k.proc pp).parent = some i ∧ (k.proc pp).state = .zombie := by simpa using List.find?_some found
      split
      · exact modified k pp Proc.freeproc rfl (apart (by rw [zombie.2]; decide))
      · exact untouched
    · split
      · exact untouched
      · exact modified k i (fun q => { q with chan := some (.proc i), state := .sleeping }) rfl (caller i rfl)

end Wakers

theorem Fresh.history {k k' : Kernel} {ops : List Op} (fresh : Fresh k) (calm : ∀ op ∈ ops, quiet op = true)
    (played : history ops k = some k') : Fresh k' := by
  induction ops generalizing k with
  | nil => exact Option.some.inj played ▸ fresh
  | cons op ops ih =>
    obtain ⟨one, rest⟩ := forall_mem_cons.mp calm
    obtain ⟨middle, acted, later⟩ := Option.bind_eq_some_iff.mp played
    exact ih (fresh.act one acted) rest later

/-- A process that wakes up, other than by a kill, joins at the least accumulator of the active processes if the last
pass of policy 1 found one of them and there were only quiet operations since. -/
theorem woken_joins_minimum {before passed k k' : Kernel} {leader i : Slot} {ops : List Op} {op : Op}
    (somebody : Active (before.proc leader) ∧ (before.proc leader).accumulator < LLONG_MAX)
    (pass : act before .schedulePs = some passed) (since : history ops passed = some k) (calm : ∀ op ∈ ops, quiet op = true)
    (acted : act k op = some k') (mild : ∀ pid, op ≠ .kill pid)
    (asleep : (k.proc i).state = .sleeping) (ready : (k'.proc i).state = .runnable) :
    (k'.proc i).accumulator = activeMin k := by
  obtain ⟨first, foremost⟩ : ∃ first, Foremost before first :=
    exists_first (pairwise_lt_finRange NPROC) (mem_slots leader) somebody.1 somebody.2
  have fresh : Fresh passed := by
    cases (act_eq_some pass).2
    exact pass_fresh foremost
  obtain ⟨low, lowest, same⟩ := fresh.history calm since
  rcases act_woken acted mild asleep with ⟨state, -⟩ | ⟨-, -, joined⟩
  · cases (asleep.symm.trans state.symm).trans ready
  · rw [joined, same, lowest.activeMin]

/-- Two children of init take turns under policy 1 while it sleeps. -/
def turns : List Op :=
  [.scheduleRr 0, .fork 0 ⟨true, true⟩, .fork 0 ⟨true, true⟩, .setPolicy 1, .sleep 0 (.other 5), .schedulePs, .timer .user 1,
    .schedulePs, .timer .user 2]

/-- The third turn, in which init is woken up. -/
theorem woken_joins_minimum_turns : ∃ before passed k k', history turns boot = some before ∧
    act before .schedulePs = some passed ∧ history [.setPsPriority 1 7] passed = some k ∧
    act k (.wakeup (some 1) (.other 5)) = some k' ∧ activeMin k = 5 ∧ (k'.proc 0).accumulator = activeMin k := by
  have played : ((history turns boot).bind fun before => (act before .schedulePs).bind fun passed =>
      (history [.setPsPriority 1 7] passed).bind fun k => (act k (.wakeup (some 1) (.other 5))).map fun k' =>
        ((before.proc 1).state, (before.proc 1).accumulator, (k.proc 0).state, (k'.proc 0).state, activeMin k)) =
      some (.runnable, 5, .sleeping, .runnable, 5) := by
    decide +kernel
  obtain ⟨before, started, played⟩ := Option.bind_eq_some_iff.mp played
  obtain ⟨passed, pass, played⟩ := Option.bind_eq_some_iff.mp played
  obtain ⟨k, since, played⟩ := Option.bind_eq_some_iff.mp played
  obtain ⟨k', acted, facts⟩ := Option.map_eq_some_iff.mp played
  simp only [Prod.mk.injEq] at facts
  obtain ⟨runnable, accumulator, asleep, ready, least⟩ := facts
  exact ⟨before, passed, k, k', started, pass, since, acted, least,
    woken_joins_minimum ⟨.inl runnable, by rw [accumulator]; decide⟩ pass since (by simp [quiet]) acted nofun asleep ready⟩

/-- Before the first pass of policy 1 the tick wakes init, alone in the table, with the value from boot. -/
theorem woken_with_sentinel : ∃ k k', Reachable k ∧ act k (.wakeup none .ticks) = some k' ∧ (k.proc 0).state = .sleeping ∧
    (k'.proc 0).state = .runnable ∧ activeMin k = 0 ∧ (k'.proc 0).accumulator = INT_MAX := by
  have played : ((history [.scheduleRr 0, .sleep 0 .ticks] boot).bind fun k => (act k (.wakeup none .ticks)).map fun k' =>
      ((k.proc 0).state, (k'.proc 0).state, activeMin k, (k'.proc 0).accumulator)) = some (.sleeping, .runnable, 0, INT_MAX) := by
    decide +kernel
  obtain ⟨k, found, played⟩ := Option.bind_eq_some_iff.mp played
  obtain ⟨k', acted, facts⟩ := Option.map_eq_some_iff.mp played
  simp only [Prod.mk.injEq] at facts
  exact ⟨k, k', Reachable.boot.history _ boot k found, acted, facts⟩

end Xv6.Sched.Waking
