import Xv6.Lib.Least
import Xv6.Sched.Lifecycle

/-! The fair policy: which process one policy-2 pass dispatches, and when its arithmetic is defined. -/

namespace Xv6.Sched.Fair
open Table Passes Lifecycle Lib.Least List Option

def decayOf (p : Proc) : Int := decayFactor p.cfsPriority 100

def recorded (p : Proc) : Int := p.rtime + p.stime + p.retime

/-- The part of its time that p has been running, times its decay factor; zero if there is no time. -/
def share (p : Proc) : ℚ := decayOf p * p.rtime / recorded p

def charged (p : Proc) : Int := vruntime (decayOf p) p

/-- set_cfs_priority accepts only these priorities. -/
def Prioritised (k : Kernel) : Prop := ∀ i, 0 ≤ (k.proc i).cfsPriority ∧ (k.proc i).cfsPriority ≤ 2

theorem decayFactor_eq {p : Proc} (known : 0 ≤ p.cfsPriority ∧ p.cfsPriority ≤ 2) (current : Int) :
    decayFactor p.cfsPriority current = decayOf p := by
  have three : p.cfsPriority = 0 ∨ p.cfsPriority = 1 ∨ p.cfsPriority = 2 := by omega
  rcases three with low | middle | high
  · simp [decayOf, decayFactor, low]
  · simp [decayOf, decayFactor, middle]
  · simp [decayOf, decayFactor, high]

theorem decayOf_range (p : Proc) : 0 < decayOf p ∧ decayOf p ≤ 125 := by
  unfold decayOf decayFactor
  split_ifs <;> decide

section Choice
variable {k : Kernel}

def Ready (k : Kernel) (i : Slot) : Prop := (k.proc i).state = .runnable

instance (k : Kernel) : DecidablePred (Ready k) := fun i => inferInstanceAs (Decidable ((k.proc i).state = .runnable))

/-- The first RUNNABLE process of the table with the least number. -/
abbrev Leading (k : Kernel) (i : Slot) : Prop := First (Ready k) (fun j => charged (k.proc j)) INT_MAX slots i

theorem cfsVisit_eq (known : Prioritised k) (scan : CfsScan) (i : Slot) :
    ((cfsVisit scan i (k.proc i)).minProc, (cfsVisit scan i (k.proc i)).minVruntime) =
      visit (Ready k) (fun j => charged (k.proc j)) (scan.minProc, scan.minVruntime) i := by
  unfold cfsVisit visit Ready charged
  simp only [decayFactor_eq (known i)]
  split_ifs <;> rfl

theorem cfsScan_eq (known : Prioritised k) (decay : Int) (visited : List Slot) :
    ((cfsScan k decay visited).minProc, (cfsScan k decay visited).minVruntime) =
      scan (Ready k) (fun j => charged (k.proc j)) INT_MAX visited := by
  induction visited using List.reverseRecOn with
  | nil => rfl
  | append_singleton visited i ih =>
    unfold cfsScan scan at ih ⊢
    rw [foldl_append, foldl_append, ← ih]
    exact cfsVisit_eq known _ i

theorem cfsScan_iff (known : Prioritised k) (decay : Int) (i : Slot) :
    (cfsScan k decay slots).minProc = some i ↔ Leading k i := by
  have sorted : slots.Pairwise (· < ·) := pairwise_lt_finRange NPROC
  have found := congrArg Prod.fst (cfsScan_eq known decay slots)
  rw [show (cfsScan k decay slots).minProc = _ from found]
  exact scan_eq_some_iff sorted i

theorem cfsChoose_iff (known : Prioritised k) (decay : Int) (i : Slot) : (cfsChoose k decay).1 = some i ↔ Leading k i := by
  rw [← cfsScan_iff known decay]
  unfold cfsChoose
  cases found : (cfsScan k decay slots).minProc with
  | none => exact ⟨nofun, nofun⟩
  | some j =>
    have leading := (cfsScan_iff known decay j).mp found
    have ready : (k.proc j).state = .runnable := leading.ready
    simp only [switchTo, if_pos ready]

section Pass
variable (quantum : Kernel → Slot → Id Kernel)

theorem fair_dispatched_iff (known : Prioritised k) (decay : Int) (policy : k.schedPolicy = 2) (i : Slot) :
    (schedulerPass quantum k decay).run.1.1 = [i] ↔ Leading k i := by
  have pass : (schedulerPass quantum k decay).run.1 = (dispatch quantum (cfsChoose k decay)).run := by
    simp [schedulerPass, policy]
  rw [pass, dispatch, ← cfsChoose_iff known decay]
  cases (cfsChoose k decay).1 with
  | none | some j => simp

/-- Nothing has been counted below zero or beyond the range of an int. -/
structure Counted (p : Proc) : Prop where
  nonneg : 0 ≤ p.rtime ∧ 0 ≤ p.stime ∧ 0 ≤ p.retime
  small : recorded p ≤ INT_MAX

/-- The pass divides in integers, so a process that has been doing anything but run counts as nothing. -/
theorem charged_eq {p : Proc} (counted : Counted p) :
    charged p = if recorded p = 0 then -decayOf p else if p.rtime = recorded p then decayOf p else 0 := by
  obtain ⟨⟨ran, slept, waited⟩, small⟩ := counted
  have decay := decayOf_range p
  have exact' : ∀ x : Int, -2 ^ 31 ≤ x → x < 2 ^ 31 → wrap32 x = x :=
    fun x low high => Int.bmod_eq_of_le (by omega) (by omega)
  unfold recorded INT_MAX at small
  have sum : wrap32 (wrap32 (p.rtime + p.stime) + p.retime) = recorded p := by
    rw [exact' (p.rtime + p.stime) (by omega) (by omega)]
    exact exact' _ (by omega) (by omega)
  unfold charged vruntime divw
  rw [sum]
  by_cases none : recorded p = 0
  · rw [if_pos none, if_pos none, exact' _ (by omega) (by omega)]
    omega
  · have more : 0 < recorded p := by
      unfold recorded at none ⊢
      omega
    rw [if_neg none, if_neg none]
    by_cases all : p.rtime = recorded p
    · rw [if_pos all, all, Int.tdiv_self none, exact' 1 (by omega) (by omega), exact' _ (by omega) (by omega), mul_one]
    · have part : p.rtime < recorded p := by
        unfold recorded at all ⊢
        omega
      rw [if_neg all, Int.tdiv_eq_ediv_of_nonneg ran, Int.ediv_eq_zero_of_lt ran part, exact' 0 (by omega) (by omega),
        mul_zero]
      rfl

theorem share_nonneg {p : Proc} (counted : Counted p) : 0 ≤ share p := by
  have decay := decayOf_range p
  obtain ⟨⟨ran, slept, waited⟩, -⟩ := counted
  have total : 0 ≤ recorded p := by
    unfold recorded
    omega
  exact div_nonneg (mul_nonneg (by exact_mod_cast decay.1.le) (by exact_mod_cast ran)) (by exact_mod_cast total)

theorem share_le_iff {p q : Proc} (some : 0 < recorded p) (some' : 0 < recorded q) :
    share p ≤ share q ↔ decayOf p * p.rtime * recorded q ≤ decayOf q * q.rtime * recorded p := by
  unfold share
  rw [div_le_div_iff₀ (by exact_mod_cast some) (by exact_mod_cast some')]
  exact_mod_cast Iff.rfl

/-- The first RUNNABLE process that has been doing something else than run. -/
structure FirstMixed (k : Kernel) (i : Slot) : Prop where
  ready : (k.proc i).state = .runnable
  mixed : (k.proc i).rtime ≠ recorded (k.proc i)
  first : ∀ j < i, (k.proc j).state = .runnable → (k.proc j).rtime = recorded (k.proc j)

/-- The pass takes the first process that has been doing something else than run, unless there is one without any time. -/
theorem FirstMixed.leading {i : Slot} (mixed : FirstMixed k i) (counted : ∀ j, Counted (k.proc j))
    (old : ∀ j, (k.proc j).state = .runnable → recorded (k.proc j) ≠ 0) : Leading k i := by
  have mine : charged (k.proc i) = 0 := by
    rw [charged_eq (counted i), if_neg (old i mixed.ready), if_neg mixed.mixed]
  refine ⟨mem_slots i, mixed.ready, by simp only [mine]; decide, fun j _ ready => ?_, fun j _ less ready => ?_⟩
  · have decay := decayOf_range (k.proc j)
    simp only [mine]
    rw [charged_eq (counted j), if_neg (old j ready)]
    split_ifs <;> omega
  · have decay := decayOf_range (k.proc j)
    simp only [mine]
    rw [charged_eq (counted j), if_neg (old j ready), if_pos (mixed.first j less ready)]
    exact decay.1

theorem exists_leading (counted : ∀ j, Counted (k.proc j)) {j : Slot} (ready : (k.proc j).state = .runnable) :
    ∃ i, Leading k i := by
  have small : charged (k.proc j) < INT_MAX := by
    have decay := decayOf_range (k.proc j)
    unfold INT_MAX
    rw [charged_eq (counted j)]
    split_ifs <;> omega
  exact exists_first (pairwise_lt_finRange NPROC) (mem_slots j) ready small

/-- A pass of policy 2 dispatches a RUNNABLE process of least share whenever there is a RUNNABLE one, exactly if one of
them has no time, or the first one that has been doing something else than run has the least share. -/
theorem fair_pass_iff (decay : Int) (policy : k.schedPolicy = 2) (known : Prioritised k) (counted : ∀ j, Counted (k.proc j)) :
    ((∀ i, (schedulerPass quantum k decay).run.1.1 = [i] → (k.proc i).state = .runnable ∧
        ∀ j, (k.proc j).state = .runnable → share (k.proc i) ≤ share (k.proc j)) ∧
      ((∃ j, (k.proc j).state = .runnable) → ∃ i, (schedulerPass quantum k decay).run.1.1 = [i])) ↔
    ((∀ j, (k.proc j).state = .runnable → recorded (k.proc j) ≠ 0) → ∀ i, FirstMixed k i →
      ∀ j, (k.proc j).state = .runnable →
        decayOf (k.proc i) * (k.proc i).rtime * recorded (k.proc j) ≤
          decayOf (k.proc j) * (k.proc j).rtime * recorded (k.proc i)) := by
  have dispatched := fair_dispatched_iff quantum known decay policy
  have positive : ∀ j, recorded (k.proc j) ≠ 0 → 0 < recorded (k.proc j) := by
    intro j some
    have nonneg := (counted j).nonneg
    unfold recorded at some ⊢
    omega
  constructor
  · rintro ⟨right, -⟩ old i mixed j ready
    have least := (right i ((dispatched i).mpr (mixed.leading counted old))).2 j ready
    exact (share_le_iff (positive i (old i mixed.ready)) (positive j (old j ready))).mp least
  · intro right
    refine ⟨fun i pass => ?_, fun ⟨j, ready⟩ => ?_⟩
    · have leading := (dispatched i).mp pass
      refine ⟨leading.ready, fun j ready => ?_⟩
      have low : charged (k.proc i) ≤ charged (k.proc j) := leading.least j (mem_slots j) ready
      rw [charged_eq (counted i), charged_eq (counted j)] at low
      by_cases new : recorded (k.proc i) = 0
      · have zero : share (k.proc i) = 0 := by rw [share, new, Int.cast_zero, div_zero]
        rw [zero]
        exact share_nonneg (counted j)
      · -- a process without any time would come first
        have old : ∀ j, (k.proc j).state = .runnable → recorded (k.proc j) ≠ 0 := by
          intro j ready none
          have before : charged (k.proc i) ≤ charged (k.proc j) := leading.least j (mem_slots j) ready
          rw [charged_eq (counted i), charged_eq (counted j), if_neg new, if_pos none] at before
          have decay := decayOf_range (k.proc i)
          have decay' := decayOf_range (k.proc j)
          split_ifs at before <;> omega
        rw [share_le_iff (positive i new) (positive j (old j ready))]
        rw [if_neg new, if_neg (old j ready)] at low
        by_cases all : (k.proc i).rtime = recorded (k.proc i)
        · have decay' := decayOf_range (k.proc i)
          rw [if_pos all] at low
          split_ifs at low with all'
          · rw [all, all', mul_assoc, mul_assoc, mul_comm (recorded (k.proc j))]
            exact mul_le_mul_of_nonneg_right low (mul_nonneg (positive i new).le (positive j (old j ready)).le)
          · omega
        · refine right old i ⟨leading.ready, all, fun b less ready' => ?_⟩ j ready
          have after : charged (k.proc i) < charged (k.proc b) := leading.first b (mem_slots b) less ready'
          rw [charged_eq (counted i), charged_eq (counted b), if_neg new, if_neg all, if_neg (old b ready')] at after
          by_contra mixed
          rw [if_neg mixed] at after
          exact lt_irrefl _ after
    · obtain ⟨i, leading⟩ := exists_leading counted ready
      exact ⟨i, (dispatched i).mpr leading⟩

end Pass

def busy : Proc := { procinit with state := .runnable, cfsPriority := 1, rtime := 9, retime := 1 }

def patient : Proc := { procinit with state := .runnable, cfsPriority := 1, rtime := 1, retime := 9 }

/-- Two RUNNABLE processes. -/
def pair (p q : Proc) : Kernel where
  proc i := if i = 0 then p else if i = 1 then q else procinit
  nextpid := 3
  schedPolicy := 2
  minAccumulator := 0
  initproc := 0

theorem pair_counted {p q : Proc} (first : Counted p) (second : Counted q) (i : Slot) : Counted ((pair p q).proc i) := by
  unfold pair
  dsimp only
  split_ifs
  · exact first
  · exact second
  · exact ⟨by decide, by decide⟩

theorem counted_busy : Counted busy := ⟨by decide, by decide⟩

theorem counted_patient : Counted patient := ⟨by decide, by decide⟩

/-- Of two processes of the same priority and the same time the pass dispatches the one that ran more. -/
theorem greater_share_dispatched :
    (schedulerPass (fun k _ => (pure k : Id Kernel)) (pair busy patient) 100).run.1.1 = [0] ∧ patient.state = .runnable ∧
      patient.cfsPriority = busy.cfsPriority ∧ recorded patient = recorded busy ∧ share patient < share busy := by
  have known : Prioritised (pair busy patient) := by
    unfold Prioritised
    decide +kernel
  have mixed : FirstMixed (pair busy patient) 0 := ⟨rfl, by decide, fun j less => absurd less (by simp)⟩
  have leading := mixed.leading (pair_counted counted_busy counted_patient) (by decide +kernel)
  refine ⟨(fair_dispatched_iff _ known 100 rfl 0).mpr leading, rfl, rfl, rfl, ?_⟩
  simp [share, decayOf, decayFactor, recorded, busy, patient, procinit]
  norm_num

/-- With the one that ran less in front the pass is right. -/
theorem fair_pass_patient_first :
    (∀ i, (schedulerPass (fun k _ => (pure k : Id Kernel)) (pair patient busy) 100).run.1.1 = [i] →
      ((pair patient busy).proc i).state = .runnable ∧ ∀ j, ((pair patient busy).proc j).state = .runnable →
        share ((pair patient busy).proc i) ≤ share ((pair patient busy).proc j)) ∧
      ((∃ j, ((pair patient busy).proc j).state = .runnable) →
        ∃ i, (schedulerPass (fun k _ => (pure k : Id Kernel)) (pair patient busy) 100).run.1.1 = [i]) := by
  have known : Prioritised (pair patient busy) := by
    unfold Prioritised
    decide +kernel
  have counted := pair_counted counted_patient counted_busy
  refine (fair_pass_iff (fun k _ => (pure k : Id Kernel)) 100 rfl known counted).mpr fun _ i mixed => ?_
  have first : i = 0 := by
    by_contra other
    exact absurd (mixed.first 0 (Fin.pos_iff_ne_zero.mpr other) rfl) (by decide)
  rw [first]
  decide +kernel

end Choice

section Defined

def InInt (x : Int) : Prop := -2 ^ 31 ≤ x ∧ x ≤ INT_MAX

instance (x : Int) : Decidable (InInt x) := inferInstanceAs (Decidable (_ ∧ _))

/-- The result of an int operation; C leaves it undefined out of the range of an int. -/
def checked (x : Int) : Option Int := if InInt x then some x else none

theorem checked_eq_some {x y : Int} : checked x = some y ↔ InInt x ∧ x = y := by
  unfold checked
  split_ifs with range
  · simp [range]
  · simp [range]

/-- The computation of the pass for one process, none where C leaves it undefined. -/
def checkedVruntime (decay : Int) (p : Proc) : Option Int := do
  let sum ← checked (p.rtime + p.stime)
  let total ← checked (sum + p.retime)
  if total = 0 then none
  else
    let ratio ← checked (p.rtime.tdiv total)
    checked (decay * ratio)

/-- One slot of the policy-2 scan: the computation is made whatever the state of the slot. -/
def checkedVisit (k : Kernel) (scan : CfsScan) (i : Slot) : Option CfsScan := do
  let _ ← checkedVruntime (decayFactor (k.proc i).cfsPriority scan.decay) (k.proc i)
  some (cfsVisit scan i (k.proc i))

def checkedScan (k : Kernel) (decay : Int) (visited : List Slot) : Option CfsScan :=
  visited.foldlM (checkedVisit k) { minProc := none, minVruntime := INT_MAX, decay := decay }

/-- No division by zero, and nothing out of the range of an int. -/
structure Defined (p : Proc) : Prop where
  sum : InInt (p.rtime + p.stime)
  total : InInt (recorded p)
  nonzero : recorded p ≠ 0
  ratio : InInt (p.rtime.tdiv (recorded p))
  product : InInt (decayOf p * p.rtime.tdiv (recorded p))

theorem checkedVruntime_isSome {p : Proc} : (checkedVruntime (decayOf p) p).isSome ↔ Defined p := by
  constructor
  · intro computed
    obtain ⟨v, computed⟩ := isSome_iff_exists.mp computed
    unfold checkedVruntime at computed
    obtain ⟨sum, first, computed⟩ := bind_eq_some_iff.mp computed
    obtain ⟨total, second, computed⟩ := bind_eq_some_iff.mp computed
    obtain ⟨range, rfl⟩ := checked_eq_some.mp first
    obtain ⟨range', rfl⟩ := checked_eq_some.mp second
    split_ifs at computed with zero
    obtain ⟨ratio, third, computed⟩ := bind_eq_some_iff.mp computed
    obtain ⟨quotient, rfl⟩ := checked_eq_some.mp third
    obtain ⟨product, -⟩ := checked_eq_some.mp computed
    exact ⟨range, range', zero, quotient, product⟩
  · rintro ⟨sum, total, nonzero, ratio, product⟩
    unfold checkedVruntime
    simp only [checked, if_pos sum, bind_eq_bind, bind_some]
    rw [show p.rtime + p.stime + p.retime = recorded p from rfl]
    simp only [if_pos total, bind_some, if_neg nonzero, if_pos ratio, if_pos product, isSome_some]

section Scan
variable {k : Kernel}

theorem checkedVisit_eq (known : Prioritised k) (scan : CfsScan) (i : Slot) :
    checkedVisit k scan i =
      (checkedVruntime (decayOf (k.proc i)) (k.proc i)).map fun _ => cfsVisit scan i (k.proc i) := by
  rw [checkedVisit, decayFactor_eq (known i)]
  cases checkedVruntime (decayOf (k.proc i)) (k.proc i) <;> rfl

theorem checkedFold_isSome (known : Prioritised k) (visited : List Slot) (scan : CfsScan) :
    (visited.foldlM (checkedVisit k) scan).isSome ↔ ∀ i ∈ visited, Defined (k.proc i) := by
  induction visited generalizing scan with
  | nil => simp
  | cons i visited ih =>
    rw [foldlM_cons, forall_mem_cons, ← checkedVruntime_isSome, checkedVisit_eq known]
    cases checkedVruntime (decayOf (k.proc i)) (k.proc i) with
    | none => simp
    | some v => simpa using ih (cfsVisit scan i (k.proc i))

theorem checkedScan_isSome (known : Prioritised k) (decay : Int) :
    (checkedScan k decay slots).isSome ↔ ∀ i, Defined (k.proc i) := by
  rw [checkedScan, checkedFold_isSome known]
  exact ⟨fun all i => all i (mem_slots i), fun all i _ => all i⟩

/-- As long as the counters have not overflown, only a process without any time makes the arithmetic undefined. -/
theorem Counted.defined_iff {p : Proc} (counted : Counted p) : Defined p ↔ recorded p ≠ 0 := by
  refine ⟨Defined.nonzero, fun some => ?_⟩
  obtain ⟨⟨ran, slept, waited⟩, small⟩ := counted
  have decay := decayOf_range p
  have quotient : p.rtime.tdiv (recorded p) = 0 ∨ p.rtime.tdiv (recorded p) = 1 := by
    by_cases all : p.rtime = recorded p
    · rw [all]
      exact .inr (Int.tdiv_self some)
    · rw [Int.tdiv_eq_ediv_of_nonneg ran]
      exact .inl (Int.ediv_eq_zero_of_lt ran (by unfold recorded at all ⊢; omega))
  unfold recorded INT_MAX at small
  refine ⟨⟨by omega, ?_⟩, ⟨?_, ?_⟩, some, ?_, ?_⟩
  · unfold INT_MAX
    omega
  · unfold recorded
    omega
  · unfold recorded INT_MAX
    omega
  · rcases quotient with same | same <;> rw [same] <;> decide
  · unfold InInt INT_MAX
    rcases quotient with same | same <;> rw [same] <;> omega

end Scan

end Defined

end Xv6.Sched.Fair
