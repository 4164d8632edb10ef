import Xv6.Lib.Least
import Xv6.Sched.Passes

/-! Shares of the processor under the priority policy on one CPU. -/

namespace Xv6.Sched.Share
open Table Passes Lib.Least List

def Active (p : Proc) : Prop := p.state = .runnable ∨ p.state = .running

instance (p : Proc) : Decidable (Active p) := inferInstanceAs (Decidable (_ ∨ _))

/-- The first process in the table, of those that are RUNNABLE or RUNNING, with the least accumulator. -/
abbrev Foremost (k : Kernel) (i : Slot) : Prop :=
  First (fun j => Active (k.proc j)) (fun j => (k.proc j).accumulator) LLONG_MAX slots i

/-- The scan of policy 1 looks for the least accumulator, and counts; its counter is never 0 at a process. -/
structure Found (k : Kernel) (visited : List Slot) (found : PsScan) : Prop where
  counted : found.procCounter = visited.countP fun i => decide (Active (k.proc i))
  best : (found.minProc, found.minAcc) =
    scan (fun j => Active (k.proc j)) (fun j => (k.proc j).accumulator) LLONG_MAX visited
  global : found.minAccumulator = if found.minProc = none then k.minAccumulator else found.minAcc

theorem found_psScan (k : Kernel) (visited : List Slot) : Found k visited (psScan k visited) := by
  induction visited using List.reverseRecOn with
  | nil => exact ⟨rfl, rfl, rfl⟩
  | append_singleton visited i ih =>
    obtain ⟨counted, best, global⟩ := ih
    have nonzero : ¬(psScan k visited).procCounter + 1 = 0 := by omega
    have next : psScan k (visited ++ [i]) = psVisit (psScan k visited) i (k.proc i) := foldl_append
    have scans : ∀ now, scan (fun j => Active (k.proc j)) (fun j => (k.proc j).accumulator) LLONG_MAX (visited ++ [i]) = now ↔
        visit (fun j => Active (k.proc j)) (fun j => (k.proc j).accumulator)
          ((psScan k visited).minProc, (psScan k visited).minAcc) i = now := by
      intro now
      rw [best, scan, scan, foldl_append]
      rfl
    rw [next]
    unfold psVisit
    by_cases active : (k.proc i).state = .runnable ∨ (k.proc i).state = .running
    · have here : Active (k.proc i) := active
      have more : (psScan k visited).procCounter + 1 = ((visited ++ [i]).countP fun i => decide (Active (k.proc i)) : Nat) := by
        simp [countP_append, here, counted]
      simp only [if_pos active, nonzero, or_false]
      by_cases smaller : (k.proc i).accumulator < (psScan k visited).minAcc
      · rw [if_pos smaller]
        exact ⟨more, ((scans _).mpr (if_pos ⟨here, smaller⟩)).symm, rfl⟩
      · rw [if_neg smaller]
        exact ⟨more, ((scans _).mpr (if_neg fun both => smaller both.2)).symm, global⟩
    · have idle : ¬Active (k.proc i) := active
      rw [if_neg active]
      exact ⟨by simp [countP_append, idle, counted], ((scans _).mpr (if_neg fun both => idle both.1)).symm, global⟩

theorem minProc_iff (k : Kernel) (i : Slot) : (psScan k slots).minProc = some i ↔ Foremost k i := by
  have best := congrArg Prod.fst (found_psScan k slots).best
  rw [show (psScan k slots).minProc = _ from best]
  exact scan_eq_some_iff (pairwise_lt_finRange NPROC) i

/-- A fixed set of processes that never block, everything else staying off the run queue. -/
structure Steady (set : Finset Slot) (k : Kernel) : Prop where
  policy : k.schedPolicy = 1
  several : 2 ≤ set.card
  ready : ∀ i ∈ set, (k.proc i).state = .runnable
  priority : ∀ i ∈ set, 1 ≤ (k.proc i).psPriority ∧ (k.proc i).psPriority ≤ 10
  others : ∀ i, i ∉ set → ¬Active (k.proc i) ∧ ¬((k.proc i).state = .sleeping ∧ (k.proc i).chan = some .ticks)

theorem Steady.counter (set : Finset Slot) (k : Kernel) (steady : Steady set k) :
    2 ≤ (psScan k slots).procCounter := by
  rw [(found_psScan k slots).counted, countP_eq_length_filter]
  have included : set ⊆ (slots.filter fun i => decide (Active (k.proc i))).toFinset := by
    intro i member
    simp only [mem_toFinset, mem_filter, decide_eq_true_eq]
    exact ⟨mem_slots i, Or.inl (steady.ready i member)⟩
  have cards := (Finset.card_le_card included).trans (toFinset_card_le _)
  have several := steady.several
  omega

theorem Steady.psChoose (set : Finset Slot) (k : Kernel) (steady : Steady set k) :
    (∃ i ∈ set, (psScan k slots).minProc = some i ∧ psChoose k =
        (some i, { k with minAccumulator := (psScan k slots).minAccumulator }.modify i (·.setState .running)) ∧
      ∀ j ∈ set, (k.proc i).accumulator ≤ (k.proc j).accumulator) ∨
    ((psScan k slots).minProc = none ∧ (psChoose k).1 = none ∧ (psChoose k).2.proc = k.proc ∧
      (psChoose k).2.schedPolicy = k.schedPolicy) := by
  have many : ¬(psScan k slots).procCounter = 1 := by have h := steady.counter; omega
  unfold Passes.psChoose
  cases chosen : (psScan k slots).minProc with
  | none =>
    right
    simp only [chosen, and_self]
  | some i =>
    left
    have foremost := (minProc_iff k i).mp chosen
    have member : i ∈ set := by
      by_contra outside
      exact (steady.others i outside).1 foremost.ready
    refine ⟨i, member, rfl, ?_, fun j inside => foremost.least j (mem_slots j) (.inl (steady.ready j inside))⟩
    simp only [chosen, resetLone, switchTo, if_neg many, steady.ready i member, ↓reduceIte]

theorem charge_setState (p : Proc) (state : Procstate) :
    (p.setState state).charge.accumulator = p.charge.accumulator := by
  unfold Proc.charge Proc.setState
  by_cases below : p.accumulator < 10 <;> simp only [below, ↓reduceIte]

theorem timer_self (trap : Trap) (k : Kernel) (i : Slot) (running : (k.proc i).state = .running) :
    ((timer trap k i).proc i).state = .runnable ∧
      ((timer trap k i).proc i).psPriority = (k.proc i).psPriority ∧
      ((timer trap k i).proc i).accumulator = (k.proc i).charge.accumulator := by
  cases trap with
  | user =>
    by_cases below : (k.proc i).accumulator < 10 <;>
      simp [timer, usertrapTimer, usertrapTick, yield, clockintr, Kernel.wakeup, Kernel.cfsUpdate, Proc.cfsUpdate, Proc.charge,
        Proc.setState, running, below]
  | kernel =>
    by_cases below : (k.proc i).accumulator < 10 <;>
      simp [timer, kerneltrapTimer, kerneltrapTick, yield, clockintr, Kernel.wakeup, Kernel.cfsUpdate, Proc.cfsUpdate, Proc.charge,
        Proc.setState, running, below]

theorem timer_other (trap : Trap) (k : Kernel) (i j : Slot) (different : j ≠ i)
    (awake : ¬((k.proc j).state = .sleeping ∧ (k.proc j).chan = some .ticks)) :
    (timer trap k i).proc j = (k.proc j).cfsUpdate := by
  have kept : (clockintr k (some i)).proc j = k.proc j := by
    have apart : ¬(some j = some i) := fun same => different (Option.some.inj same)
    simp only [clockintr, Kernel.wakeup, Kernel.proc_mapProcs, if_neg apart, Proc.wakeup, if_neg awake]
  cases trap with
  | user =>
    simp only [timer, usertrapTimer, usertrapTick, yield, Kernel.proc_modify_other different, Kernel.cfsUpdate,
      Kernel.proc_mapProcs, kept]
  | kernel =>
    simp only [timer, kerneltrapTimer, kerneltrapTick]
    split
    · simp only [yield, Kernel.proc_modify_other different, Kernel.cfsUpdate, Kernel.proc_mapProcs, kept]
    · simp only [Kernel.cfsUpdate, Kernel.proc_mapProcs, kept]

theorem timer_policy (trap : Trap) (k : Kernel) (i : Slot) : (timer trap k i).schedPolicy = k.schedPolicy := by
  cases trap with
  | user => rfl
  | kernel =>
    simp only [timer, kerneltrapTimer, kerneltrapTick]
    split <;> rfl

def turn (trap : Trap) (k : Kernel) (decay : Int) : (List Slot × Kernel) × Int :=
  Id.run (schedulerPass (fun k i => pure (timer trap k i)) k decay)

def run : List Trap → Kernel → Int → List Slot × Kernel
  | [], k, _ => ([], k)
  | trap :: traps, k, decay =>
      let first := turn trap k decay
      let rest := run traps first.1.2 first.2
      (first.1.1 ++ rest.1, rest.2)

/-- No charge of the run finds the accumulator at the cap. -/
def Uncapped : List Trap → Kernel → Int → Prop
  | [], _, _ => True
  | trap :: traps, k, decay =>
      let first := turn trap k decay
      (∀ i ∈ first.1.1, (k.proc i).accumulator < 10) ∧ Uncapped traps first.1.2 first.2

/-- The dispatches a slot received, weighed by its priority. -/
def share (k : Kernel) (dispatched : List Slot) (i : Slot) : Int := dispatched.count i * (k.proc i).psPriority

theorem Steady.turn_cases (set : Finset Slot) (k : Kernel) (trap : Trap) (decay : Int) (steady : Steady set k) :
    (∃ i ∈ set, (psScan k slots).minProc = some i ∧ (turn trap k decay).1.1 = [i] ∧
      (∀ j ∈ set, (k.proc i).accumulator ≤ (k.proc j).accumulator) ∧
      Steady set (turn trap k decay).1.2 ∧
      ∀ j, ((turn trap k decay).1.2.proc j).psPriority = (k.proc j).psPriority ∧
        ((turn trap k decay).1.2.proc j).accumulator =
          if j = i then (k.proc i).charge.accumulator else (k.proc j).accumulator) ∨
    ((psScan k slots).minProc = none ∧ (turn trap k decay).1.1 = [] ∧ Steady set (turn trap k decay).1.2 ∧
      (turn trap k decay).1.2.proc = k.proc) := by
  have choice : (turn trap k decay).1 = Id.run (dispatch (fun k i => pure (timer trap k i)) (Passes.psChoose k)) := by
    simp only [turn, schedulerPass, steady.policy, one_ne_zero, ↓reduceIte, Id.run_map]
  rw [choice]
  rcases steady.psChoose with ⟨i, member, first, chosen, least⟩ | ⟨first, none, procs, policy⟩
  · left
    rw [chosen]
    simp only [dispatch, pure_bind, Id.run_pure]
    set running := { k with minAccumulator := (psScan k slots).minAccumulator }.modify i (·.setState .running)
      with running_def
    have here : running.proc i = (k.proc i).setState .running := by
      rw [running_def, Kernel.proc_modify_same]
    have elsewhere : ∀ j, j ≠ i → running.proc j = k.proc j := fun j different => by
      rw [running_def, Kernel.proc_modify_other different]
    obtain ⟨state, priority, accumulator⟩ := timer_self trap running i (by rw [here]; rfl)
    -- No slot other than i is woken: the members are runnable and the rest do not sleep for ticks.
    have others : ∀ j, j ≠ i → (timer trap running i).proc j = (k.proc j).cfsUpdate := by
      intro j different
      rw [timer_other trap running i j different, elsewhere j different]
      rw [elsewhere j different]
      by_cases inside : j ∈ set
      · simp [steady.ready j inside]
      · exact (steady.others j inside).2
    refine ⟨i, member, first, rfl, least, ?_, ?_⟩
    · refine ⟨(timer_policy trap running i).trans steady.policy, steady.several, ?_, ?_, ?_⟩
      · intro j inside
        by_cases same : j = i
        · rw [same, state]
        · rw [others j same, (Proc.cfsUpdate_fields _).1, steady.ready j inside]
      · intro j inside
        by_cases same : j = i
        · rw [same, priority, here]
          exact steady.priority i member
        · rw [others j same, (Proc.cfsUpdate_fields _).2.2.1]
          exact steady.priority j inside
      · intro j outside
        have different : j ≠ i := fun same => outside (same ▸ member)
        obtain ⟨idle, awake⟩ := steady.others j outside
        rw [others j different]
        unfold Active
        rw [(Proc.cfsUpdate_fields _).1, (Proc.cfsUpdate_fields _).2.1]
        exact ⟨idle, awake⟩
    · intro j
      by_cases same : j = i
      · subst same
        rw [priority, accumulator, here, if_pos rfl]
        exact ⟨rfl, charge_setState _ _⟩
      · rw [others j same, if_neg same]
        exact ⟨(Proc.cfsUpdate_fields _).2.2.1, (Proc.cfsUpdate_fields _).2.2.2⟩
  · right
    simp only [dispatch, none, Id.run_pure]
    refine ⟨first, trivial, ?_, procs⟩
    refine ⟨policy.trans steady.policy, steady.several, ?_, ?_, ?_⟩ <;> rw [procs]
    exacts [steady.ready, steady.priority, steady.others]

theorem share_append (k : Kernel) (first rest : List Slot) (i : Slot) :
    share k (first ++ rest) i = share k first i + share k rest i := by
  unfold share
  rw [count_append]
  push_cast
  ring

/-- Accumulators plus shares stay within one charge of each other. -/
theorem Steady.spread (set : Finset Slot) (traps : List Trap) (k : Kernel) (decay : Int) (steady : Steady set k)
    (close : ∀ i ∈ set, ∀ j ∈ set, (k.proc i).accumulator ≤ (k.proc j).accumulator + 10)
    (uncapped : Uncapped traps k decay) :
    ∀ i ∈ set, ∀ j ∈ set, (k.proc i).accumulator + share k (run traps k decay).1 i ≤
      (k.proc j).accumulator + share k (run traps k decay).1 j + 10 := by
  induction traps generalizing k decay with
  | nil =>
    intro i memberI j memberJ
    simpa [run, share] using close i memberI j memberJ
  | cons trap traps ih =>
    obtain ⟨below, uncapped⟩ := uncapped
    intro i memberI j memberJ
    simp only [run, share_append]
    rcases steady.turn_cases set k trap decay with ⟨c, member, _, dispatched, least, after, fields⟩ | ⟨_, idle, after, same⟩
    · -- The charge goes to a least accumulator, so it cannot take it more than one priority past the others.
      have charged : (k.proc c).charge.accumulator = (k.proc c).accumulator + (k.proc c).psPriority := by
        unfold Proc.charge
        rw [if_pos (below c (by rw [dispatched]; exact mem_singleton_self c))]
      have moved : ∀ x ∈ set, ((turn trap k decay).1.2.proc x).accumulator =
          (k.proc x).accumulator + share k (turn trap k decay).1.1 x := by
        intro x _
        rw [(fields x).2, dispatched, charged]
        by_cases same : x = c
        · simp [same, share]
        · simp [same, share, Ne.symm same]
      have close' : ∀ i ∈ set, ∀ j ∈ set, ((turn trap k decay).1.2.proc i).accumulator ≤
          ((turn trap k decay).1.2.proc j).accumulator + 10 := by
        intro i memberI j memberJ
        have priority := steady.priority c member
        have leastJ := least j memberJ
        have closeIJ := close i memberI j memberJ
        rw [(fields i).2, (fields j).2, charged]
        split_ifs with sameI sameJ sameJ
        · omega
        · omega
        · subst sameJ; omega
        · exact closeIJ
      have rest := ih (turn trap k decay).1.2 (turn trap k decay).2 after close' uncapped
        i memberI j memberJ
      rw [moved i memberI, moved j memberJ] at rest
      simp only [share, (fields i).1, (fields j).1] at rest ⊢
      omega
    · have rest := ih (turn trap k decay).1.2 (turn trap k decay).2 after (by rw [same]; exact close)
        uncapped i memberI j memberJ
      simpa [share, idle, same] using rest

/-- As long as no charge meets the cap, every two processes of a steady set that start level get
dispatches in proportion to their priorities, up to one charge. -/
theorem proportional_share (set : Finset Slot) (traps : List Trap) (k : Kernel) (decay : Int)
    (steady : Steady set k) (level : ∀ i ∈ set, ∀ j ∈ set, (k.proc i).accumulator = (k.proc j).accumulator)
    (uncapped : Uncapped traps k decay) :
    ∀ i ∈ set, ∀ j ∈ set, |share k (run traps k decay).1 i - share k (run traps k decay).1 j| ≤ 10 := by
  intro i memberI j memberJ
  have close : ∀ i ∈ set, ∀ j ∈ set, (k.proc i).accumulator ≤ (k.proc j).accumulator + 10 := by
    intro x memberX y memberY
    have same := level x memberX y memberY
    omega
  have up := steady.spread set traps k decay close uncapped i memberI j memberJ
  have down := steady.spread set traps k decay close uncapped j memberJ i memberI
  have same := level i memberI j memberJ
  rw [abs_le]
  omega

def twoProcs (priority : Int) : Kernel where
  proc i :=
    if i = 0 ∨ i = 1 then { procinit with state := .runnable, pid := i + 1, psPriority := priority } else procinit
  nextpid := 3
  schedPolicy := 1
  minAccumulator := 0
  initproc := 0

theorem twoProcs_steady (priority : Int) (low : 1 ≤ priority) (high : priority ≤ 10) :
    Steady {0, 1} (twoProcs priority) := by
  refine ⟨rfl, by decide, ?_, ?_, ?_⟩
  · intro i member
    have cases : i = 0 ∨ i = 1 := by simpa using member
    simp only [twoProcs, if_pos cases]
  · intro i member
    have cases : i = 0 ∨ i = 1 := by simpa using member
    simp only [twoProcs, if_pos cases]
    exact ⟨low, high⟩
  · intro i outside
    have cases : ¬(i = 0 ∨ i = 1) := by simpa using outside
    simp only [twoProcs, if_neg cases, Active]
    exact ⟨by decide, by decide⟩

theorem twoProcs_level (priority : Int) :
    ∀ i ∈ ({0, 1} : Finset Slot), ∀ j ∈ ({0, 1} : Finset Slot),
      ((twoProcs priority).proc i).accumulator = ((twoProcs priority).proc j).accumulator := by
  intro i memberI j memberJ
  have casesI : i = 0 ∨ i = 1 := by simpa using memberI
  have casesJ : j = 0 ∨ j = 1 := by simpa using memberJ
  simp only [twoProcs, if_pos casesI, if_pos casesJ]

/-- Five dispatches of two processes of priority 4, the last one charging an accumulator of 8. -/
theorem twoProcs_shares :
    |share (twoProcs 4) (run (List.replicate 5 .user) (twoProcs 4) 100).1 0 -
      share (twoProcs 4) (run (List.replicate 5 .user) (twoProcs 4) 100).1 1| ≤ 10 :=
  proportional_share {0, 1} _ _ _ (twoProcs_steady 4 (by decide) (by decide)) (twoProcs_level 4)
    (by simp only [List.replicate, Uncapped]; decide +kernel) 0 (by decide) 1 (by decide)

/-- With both accumulators at the cap the table order decides: slot 1 is passed over. -/
theorem twoProcs_starved :
    Steady {0, 1} (twoProcs 10) ∧
      (∀ i ∈ ({0, 1} : Finset Slot), ∀ j ∈ ({0, 1} : Finset Slot),
        ((twoProcs 10).proc i).accumulator = ((twoProcs 10).proc j).accumulator) ∧
      ¬|share (twoProcs 10) (run (List.replicate 4 .user) (twoProcs 10) 100).1 0 -
        share (twoProcs 10) (run (List.replicate 4 .user) (twoProcs 10) 100).1 1| ≤ 10 := by
  refine ⟨twoProcs_steady 10 (by decide) (by decide), twoProcs_level 10, ?_⟩
  decide +kernel

end Xv6.Sched.Share
