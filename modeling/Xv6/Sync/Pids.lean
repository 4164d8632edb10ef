import Xv6.Sync.Effects

/-! Process ids: allocpid counts in 32 bits and does not look whether a process still has the next number. -/

namespace Xv6.Sync.Pids
open Lib.Transition Machine Dispatch Effects
open Function (update update_apply update_of_ne update_self)

variable {P C L X D : Type} {s s' : State P C L X D} {c : C}

def Live (s : State P C L X D) (p : P) : Prop := (s.proc p).state ≠ .unused

/-- The pids of processes are positive and no two have the same. -/
structure Identified (s : State P C L X D) : Prop where
  positive : ∀ p, Live s p → 0 < (s.proc p).pid.toInt
  unique : ∀ p q, Live s p → Live s q → (s.proc p).pid = (s.proc q).pid → p = q

/-- The next pid is positive and no process has it. -/
def Fresh (s : State P C L X D) : Prop := 0 < s.nextpid.toInt ∧ ∀ p, Live s p → (s.proc p).pid ≠ s.nextpid

/-- In this step allocproc gives a free slot its pid. -/
def Allocates (s : State P C L X D) : Event P C L X D → Prop
  | .cpu c _ => ∃ p todo q rest, s.pc c = .run p todo (.allocOne q rest) ∧ (s.proc q).state = .unused
  | _ => False

/-- A step that makes no process and gives none a new pid. -/
def KeepsPids (s s' : State P C L X D) : Prop := ∀ p, Live s' p → Live s p ∧ (s'.proc p).pid = (s.proc p).pid

theorem Identified.kept (identified : Identified s) (keeps : KeepsPids s s') : Identified s' where
  positive p live := by
    obtain ⟨before, same⟩ := keeps p live
    exact same ▸ identified.positive p before
  unique p q first second equal := by
    obtain ⟨before, same⟩ := keeps p first
    obtain ⟨before', same'⟩ := keeps q second
    exact identified.unique p q before before' (same.symm.trans (equal.trans same'))

theorem KeepsPids.of_procs (same : s'.proc = s.proc) : KeepsPids s s' := by
  intro p live
  rw [Live, same] at live
  exact ⟨live, by rw [same]⟩

theorem typed_live (inv : Inv s) {q : P} {b : Proc P L X} {record : Option Record} {pc' : Pc P L X}
    (typed : Typed s (s.pc c) (.assign q b record pc' : Cmd P L X D)) (live : b.state ≠ .unused) : Live s q := by
  cases typed with
  | write _ _ _ _ _ state _ _ _ => rwa [Live, ← state]
  | save _ _ _ _ => exact live
  | change _ _ _ _ _ change _ _ _ _ _ =>
    intro unused
    rw [unused] at change
    cases change
  | leave _ _ _ _ _ runs _ _ leaves _ _ =>
    intro unused
    cases unused.symm.trans ((inv.running c q runs).mpr leaves.1)

section
variable [DecidableEq P]

theorem KeepsPids.put {q : P} {b : Proc P L X} (procs : s'.proc = update s.proc q b)
    (keeps : b.state ≠ .unused → Live s q ∧ b.pid = (s.proc q).pid) : KeepsPids s s' := by
  intro p live
  rw [Live, procs] at live
  rw [procs]
  by_cases here : p = q
  · subst here
    rw [update_self] at live ⊢
    exact keeps live
  · rw [update_of_ne here] at live ⊢
    exact ⟨live, rfl⟩

omit [DecidableEq P] in
theorem assigned_pid [Table P] {pc pc' : Pc P L X} {q : P} {b : Proc P L X} {record : Option Record}
    (assigned : Assigned s pc q b record pc') : b.state = .unused ∨ b.pid = (s.proc q).pid := by
  cases assigned with
  | reap | failed => exact .inl rfl
  | _ => exact .inr rfl

variable [DecidableEq C] [DecidableEq L] [DecidableEq X] [Table P]

theorem step_pids (inv : Inv s) {e : Event P C L X D} (taken : step s e = some s') :
    (Allocates s e ∧ ∃ q, (s.proc q).state = .unused ∧ ((s'.proc q).state = .used ∧ (s'.proc q).pid = s.nextpid) ∧
      ∀ p, p ≠ q → s'.proc p = s.proc p) ∨ ¬Allocates s e ∧ KeepsPids s s' := by
  cases e with
  | policy n =>
    cases taken
    exact .inr ⟨id, .of_procs rfl⟩
  | drift p accumulator vruntime =>
    cases taken
    exact .inr ⟨id, .put rfl fun live => ⟨live, rfl⟩⟩
  | cpu c choice =>
    obtain ⟨cmd, does, done⟩ := Option.bind_eq_some_iff.mp taken
    have typed := source_typed (inv.handler c) (inv.used c) (command_source does)
    have source := command_source does
    by_cases allocates : Allocates s (.cpu c choice)
    · left
      obtain ⟨p, todo, q, rest, here, unused⟩ := allocates
      cases choice with
      | run =>
        simp only [command, here, waking, thread, unused, if_true, Option.none_or] at does
        cases does
        cases done
        refine ⟨⟨p, todo, q, rest, here, unused⟩, q, unused, ?_, fun r other => update_of_ne other _ _⟩
        have now : (State.put s q { s.proc q with
            pid := s.nextpid, serial := s.born, state := .used, context := .forkret }).proc q = _ :=
          update_self _ _ _
        exact ⟨congrArg Proc.state now, congrArg Proc.pid now⟩
      | _ => simp [command, here, Pc.unlocked, failing] at does
    · right
      refine ⟨allocates, ?_⟩
      cases cmd with
      | assign q b record pc' =>
        cases done
        refine .put rfl fun live => ⟨typed_live inv typed live, ?_⟩
        exact (assigned_pid (source_assigned source)).resolve_left live
      | allocate q pc' =>
        cases typed with
        | allocate _ p todo rest here unused => exact absurd ⟨p, todo, q, rest, here, unused⟩ allocates
      | dispatch p todo =>
        cases typed with
        | dispatch _ _ here =>
          cases done
          refine .put rfl fun _ => ⟨?_, rfl⟩
          rw [Live, inv.chosen c p (by rw [here]; rfl)]
          simp
      | acquire l pc' | acquireProc q pc' =>
        simp only [exec] at done
        split_ifs at done
        cases done
        exact .of_procs rfl
      | _ =>
        cases done
        exact .of_procs rfl

omit [DecidableEq C] [DecidableEq L] [DecidableEq X] [Table P] in
/-- The state after a pid is given is in order exactly if the pid was fresh. -/
theorem Identified.allocated_iff (identified : Identified s) {q : P} (unused : (s.proc q).state = .unused)
    (now : (s'.proc q).state = .used ∧ (s'.proc q).pid = s.nextpid) (others : ∀ p, p ≠ q → s'.proc p = s.proc p) :
    Identified s' ↔ Fresh s := by
  have live : Live s' q := by
    rw [Live, now.1]
    simp
  have away : ∀ p, Live s p → p ≠ q := by
    rintro p there rfl
    exact there unused
  have there : ∀ p, Live s p → Live s' p := fun p before => by rwa [Live, others p (away p before)]
  constructor
  · intro after
    refine ⟨now.2 ▸ after.positive q live, fun p before equal => away p before ?_⟩
    exact after.unique p q (there p before) live (by rw [others p (away p before), equal, now.2])
  · intro fresh
    have elsewhere : ∀ p, p ≠ q → Live s' p → Live s p ∧ (s'.proc p).pid ≠ (s'.proc q).pid := by
      intro p other before
      rw [Live, others p other] at before
      exact ⟨before, by rw [others p other, now.2]; exact fresh.2 p before⟩
    refine ⟨fun p before => ?_, fun p r first second equal => ?_⟩
    · by_cases here : p = q
      · rw [here, now.2]
        exact fresh.1
      · rw [others p here]
        exact identified.positive p (elsewhere p here before).1
    · by_cases here : p = q <;> by_cases here' : r = q
      · exact here.trans here'.symm
      · exact absurd (here ▸ equal).symm (elsewhere r here' second).2
      · exact absurd (here' ▸ equal) (elsewhere p here first).2
      · rw [others p here, others r here'] at equal
        exact identified.unique p r (elsewhere p here first).1 (elsewhere r here' second).1 equal

/-- After userinit the first process has pid 1 and the next one gets 2. -/
def Boots (s : State P C L X D) : Prop :=
  Init s ∧ (s.proc Table.initproc).pid = 1 ∧ s.nextpid = 2

/-- Steps in which every pid that is given is fresh. -/
def FreshSteps (s s' : State P C L X D) : Prop := ∃ e, step s e = some s' ∧ (Allocates s e → Fresh s)

omit [DecidableEq P] [DecidableEq C] [DecidableEq L] [DecidableEq X] in
theorem Identified.boot (boots : Boots s) : Identified s := by
  have only : ∀ p, Live s p → p = Table.initproc := by
    intro p live
    by_contra other
    exact live (boots.1.others p other)
  refine ⟨fun p live => ?_, fun p q first second _ => (only p first).trans (only q second).symm⟩
  rw [only p live, boots.2.1]
  decide

theorem step_identified_iff (inv : Inv s) (identified : Identified s) {e : Event P C L X D} (taken : step s e = some s') :
    Identified s' ↔ (Allocates s e → Fresh s) := by
  rcases step_pids inv taken with ⟨allocates, q, unused, now, others⟩ | ⟨stays, keeps⟩
  · rw [identified.allocated_iff unused now others]
    exact ⟨fun fresh _ => fresh, fun fresh => fresh allocates⟩
  · exact ⟨fun _ allocates => absurd allocates stays, fun _ => identified.kept keeps⟩

/-- As long as every pid is fresh when it is given, the pids of processes are positive and distinct in every state;
and the first step that gives one that is not ends that. -/
theorem pids_identify_iff (reachable : Reachable Boots FreshSteps s) :
    Identified s ∧ ∀ e s', step s e = some s' → (Identified s' ↔ (Allocates s e → Fresh s)) := by
  have identified : Inv s ∧ Identified s :=
    reachable.invariant (fun s => Inv s ∧ Identified s) (fun _ boots => ⟨Inv.init boots.1, .boot boots⟩)
      (fun _ _ before ⟨_, taken, fresh⟩ =>
        ⟨before.1.next taken, (step_identified_iff before.1 before.2 taken).mpr fresh⟩)
  exact ⟨identified.2, fun e s' taken => step_identified_iff identified.1 identified.2 taken⟩

end

section Wrap

/-- The machine with the table of the source, and nothing beside it. -/
abbrev Plain := State (Fin NPROC) Nat Unit Unit Unit

def first : Fin NPROC := ⟨0, NPROC_pos⟩
def second : Fin NPROC := ⟨1, by decide⟩

def third : Fin NPROC := ⟨2, by decide⟩

instance (s : Plain) : Decidable (Fresh s) :=
  inferInstanceAs (Decidable (0 < s.nextpid.toInt ∧ ∀ p, (s.proc p).state ≠ .unused → (s.proc p).pid ≠ s.nextpid))

def freshStep (s : Plain) (e : Event (Fin NPROC) Nat Unit Unit Unit) : Option Plain :=
  if Fresh s then step s e else none

/-- The first process is dispatched and forks, and begins another fork. -/
def forks : List (Event (Fin NPROC) Nat Unit Unit Unit) :=
  List.replicate 5 (.cpu 0 .run) ++ .cpu 0 .fork :: List.replicate 11 (.cpu 0 .run) ++
    .cpu 0 .fork :: List.replicate 5 (.cpu 0 .run)

theorem pids_identify_forks :
    ∃ s s' : Plain, forks.foldlM freshStep (booted ()) = some s ∧ step s (.cpu 0 .run) = some s' ∧
      ((s'.proc first).pid = 1 ∧ (s'.proc second).pid = 2 ∧ (s'.proc third).pid = 3 ∧ Live s' third) ∧ Identified s' := by
  have ends : ((forks.foldlM freshStep (booted ())).bind fun s => (step s (.cpu 0 .run)).map fun s' =>
      (decide (Fresh s), (s'.proc first).pid, (s'.proc second).pid, (s'.proc third).pid, (s'.proc third).state)) =
        some (true, 1, 2, 3, .used) := by decide +kernel
  obtain ⟨s, played, last⟩ := Option.bind_eq_some_iff.mp ends
  obtain ⟨s', taken, facts⟩ := Option.map_eq_some_iff.mp last
  simp only [Prod.mk.injEq, decide_eq_true_eq] at facts
  obtain ⟨fresh, one, two, three, used⟩ := facts
  have start : Reachable Boots FreshSteps (booted ()) := .init _ ⟨booted_init (), rfl, rfl⟩
  have reached := start.foldlM (fun s e s' taken => by
    obtain ⟨fresh, taken⟩ := Option.ite_none_right_eq_some.mp taken
    exact ⟨e, taken, fun _ => fresh⟩) played
  refine ⟨s, s', played, taken, ⟨one, two, three, by rw [Live, used]; simp⟩, ?_⟩
  exact ((pids_identify_iff reached).2 _ s' taken).mpr fun _ => fresh

variable {s : Plain}

/-- The first process runs on the first CPU, in the kernel, and the second slot is free. -/
structure Idles (s : Plain) (todo : List (Fin NPROC)) : Prop where
  place : s.pc 0 = .run first todo (.window .kernel)
  free : ∀ p, s.plock p = none
  running : (s.proc first).state = .running ∧ (s.proc first).pid = 1
  unused : (s.proc second).state = .unused

theorem fork_takes_pid {todo : List (Fin NPROC)} (idles : Idles s todo) :
    ∃ used after, Relation.ReflTransGen Steps s used ∧ Relation.ReflTransGen Steps used after ∧
      (used.proc first = s.proc first ∧ (used.proc second).state = .used ∧ (used.proc second).pid = s.nextpid) ∧
      Idles after todo ∧ after.nextpid = s.nextpid + 1 := by
  have procs : (Table.procs : List (Fin NPROC)) = first :: second :: (List.finRange NPROC).drop 2 := by decide
  have apart : first ≠ second := by decide
  obtain ⟨place, free, running, unused⟩ := idles
  set rest := (List.finRange NPROC).drop 2
  -- fork and the scan of allocproc, which passes over the first slot
  let s₁ := s.go 0 (.run first todo (.window (.alloc (first :: second :: rest))))
  let s₂ : Plain := { s₁.go 0 (.run first todo (.allocOne first (second :: rest))) with
    plock := update s₁.plock first (some 0) }
  let s₃ : Plain := { s₂.go 0 (.run first todo (.window (.alloc (second :: rest)))) with
    plock := update s₂.plock first none }
  let s₄ : Plain := { s₃.go 0 (.run first todo (.allocOne second rest)) with
    plock := update s₃.plock second (some 0) }
  have e₁ : step s (.cpu 0 .fork) = some s₁ := by
    simp [step, command, place, procs, exec, s₁]
  have e₂ : step s₁ (.cpu 0 .run) = some s₂ := by
    simp [step, command, waking, thread, exec, State.go, free, s₁, s₂]
  have e₃ : step s₂ (.cpu 0 .run) = some s₃ := by
    simp [step, command, waking, thread, exec, State.go, running, s₁, s₂, s₃]
  have e₄ : step s₃ (.cpu 0 .run) = some s₄ := by
    simp [step, command, waking, thread, exec, State.go, free, apart.symm, s₁, s₂, s₃, s₄]
  -- the second slot gets its pid; without memory it is freed
  let s₅ : Plain := { (s₄.put second { s₄.proc second with
      pid := s₄.nextpid, serial := s₄.born, state := .used, context := .forkret }).go 0 (.run first todo (.fork second)) with
    nextpid := s₄.nextpid + 1, born := s₄.born + 1 }
  let s₆ : Plain :=
    (s₅.put second (freeproc (s₅.proc second))).go 0 (.run first todo (.unlock second))
  let s₇ : Plain := { s₆.go 0 (.run first todo (.window .kernel)) with
    plock := update s₆.plock second none }
  have e₅ : step s₄ (.cpu 0 .run) = some s₅ := by
    simp [step, command, waking, thread, exec, State.go, unused, s₁, s₂, s₃, s₄, s₅]
  have e₆ : step s₅ (.cpu 0 .fail) = some s₆ := by
    simp [step, command, failing, exec, State.go, s₅, s₆, State.put]
  have e₇ : step s₆ (.cpu 0 .run) = some s₇ := by
    simp [step, command, waking, thread, exec, State.go, s₆, s₇]
  refine ⟨s₅, s₇, ?_, ?_, ?_, ⟨?_, fun p => ?_, ?_, ?_⟩, rfl⟩
  · exact .tail (.tail (.tail (.tail (.single ⟨_, e₁⟩) ⟨_, e₂⟩) ⟨_, e₃⟩) ⟨_, e₄⟩) ⟨_, e₅⟩
  · exact .tail (.single ⟨_, e₆⟩) ⟨_, e₇⟩
  · simp [s₁, s₂, s₃, s₄, s₅, State.go, State.put, apart]
  · simp [s₇, State.go]
  · simp [s₁, s₂, s₃, s₄, s₅, s₆, s₇, State.go, State.put, update_apply, free]
  · simp [s₁, s₂, s₃, s₄, s₅, s₆, s₇, State.go, State.put, apart, running]
  · simp [s₆, s₇, State.go, State.put, freeproc]

/-- The first CPU dispatches the first process. -/
def dispatching : List (Event (Fin NPROC) Nat Unit Unit Unit) := List.replicate 5 (.cpu 0 .run)

theorem boot_idles : ∃ s todo, dispatching.foldlM step (booted ()) = some s ∧ Idles s todo ∧ s.nextpid = 2 := by
  have played : dispatching.foldlM step (booted ()) = some _ := rfl
  exact ⟨_, _, played, ⟨rfl, by decide +kernel, by decide +kernel, by decide +kernel⟩, rfl⟩

theorem idles_after (n : Nat) : ∃ s todo, Reachable Boots Steps s ∧ Idles s todo ∧ s.nextpid = 2 + BitVec.ofNat 32 n := by
  induction n with
  | zero =>
    obtain ⟨s, todo, run, idles, next⟩ := boot_idles
    have start : Reachable Boots Steps (booted ()) := .init _ ⟨booted_init (), rfl, rfl⟩
    exact ⟨s, todo, start.foldlM (fun _ e _ taken => ⟨e, taken⟩) run, idles, by rw [next]; rfl⟩
  | succ n ih =>
    obtain ⟨s, todo, reachable, idles, next⟩ := ih
    obtain ⟨used, after, run, back, _, idles', next'⟩ := fork_takes_pid idles
    refine ⟨after, todo, (reachable.onward run).onward back, idles', ?_⟩
    rw [next', next, BitVec.add_assoc]
    congr 1
    exact (BitVec.ofNat_add n 1).symm

/-- Call 2^31 - 1 of fork gives a process a negative pid, and call 2^32 the pid of the first process. -/
theorem pids_wrap :
    (∃ s : Plain, Reachable Boots Steps s ∧ ∃ p, Live s p ∧ (s.proc p).pid.toInt < 0) ∧
      ∃ s : Plain, Reachable Boots Steps s ∧
        ∃ p q, p ≠ q ∧ Live s p ∧ Live s q ∧ (s.proc p).pid = (s.proc q).pid := by
  constructor
  · obtain ⟨s, todo, reachable, idles, next⟩ := idles_after (2 ^ 31 - 2)
    obtain ⟨used, _, run, _, ⟨_, live, pid⟩, _⟩ := fork_takes_pid idles
    refine ⟨used, reachable.onward run, second, by rw [Live, live]; simp, ?_⟩
    rw [pid, next]
    decide
  · obtain ⟨s, todo, reachable, idles, next⟩ := idles_after (2 ^ 32 - 1)
    obtain ⟨used, _, run, _, ⟨same, live, pid⟩, _⟩ := fork_takes_pid idles
    refine ⟨used, reachable.onward run, first, second, by decide, ?_, by rw [Live, live]; simp, ?_⟩
    · rw [Live, same, idles.running.1]
      simp
    · rw [same, idles.running.2, pid, next]
      decide

end Wrap

end Xv6.Sync.Pids
