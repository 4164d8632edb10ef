import Xv6.Sync.Dispatch

/-! What the commands of a CPU do: where each comes from, and which processes and locks it changes. -/

namespace Xv6.Sync.Effects
open Lib.Transition Machine Dispatch
open Function (update update_eq_self update_of_ne update_self)

variable {P C L X D : Type} {s s' : State P C L X D} {c : C} {cmd : Cmd P L X D}

section Sources
variable [DecidableEq P] [DecidableEq C] [DecidableEq X] [Table P]

/-- Every assignment to the table, with the place it is made from and the place it leads to. -/
inductive Assigned (s : State P C L X D) (pc : Pc P L X) : P → Proc P L X → Option Record → Pc P L X → Prop where
  | reset (p : P) (alone : Bool) (here : pc = .sched (.reset p alone)) :
      Assigned s pc p { s.proc p with accumulator := if alone then 0 else (s.proc p).accumulator } none (.sched (.test p []))
  | wake (ch : Chan P X) (q : P) (todo : List P) (k : Return P L) (here : pc.act (.wakeOne ch q todo k) = pc)
      (asleep : (s.proc q).state = .sleeping ∧ (s.proc q).chan = some ch) :
      Assigned s pc q { s.proc q with state := .runnable } none (pc.act (.wakeDone ch q todo k))
  | yield (p : P) (todo : List P) (w : Window P L) (here : pc = .run p todo (.yield w)) :
      Assigned s pc p { s.proc p with state := .runnable } none (.run p todo (.sched (.yield w)))
  | doze (p : P) (todo : List P) (ch : Chan P X) (l : Lock L) (here : pc = .run p todo (.doze ch l)) :
      Assigned s pc p { s.proc p with chan := some ch, state := .sleeping } none (.run p todo (.sched (.sleep l)))
  | sched (p : P) (todo : List P) (x : Context P L) (here : pc = .run p todo (.sched x)) :
      Assigned s pc p { s.proc p with context := x } none (.sched (.back p todo))
  | resumed (p : P) (todo : List P) (l : Lock L) (here : pc = .run p todo (.resumed (.sleep l))) :
      Assigned s pc p { s.proc p with chan := none } none (.run p todo (.awake l))
  | kill (p : P) (todo : List P) (pid : BitVec 32) (q : P) (rest : List P) (here : pc = .run p todo (.killOne pid q rest)) :
      Assigned s pc q { s.proc q with
          killed := true, state := if (s.proc q).state = .sleeping then .runnable else (s.proc q).state } none
        (.run p todo (.unlock q))
  | link (p : P) (todo : List P) (np : P) (here : pc = .run p todo (.forkLink np)) :
      Assigned s pc np { s.proc np with parent := some p } none (.run p todo (.forkUnlock np))
  | forked (p : P) (todo : List P) (np : P) (here : pc = .run p todo (.forkDone np)) :
      Assigned s pc np { s.proc np with state := .runnable } none (.run p todo (.unlock np))
  | reparent (p : P) (todo : List P) (q : P) (rest : List P) (status : Int)
      (here : pc = .run p todo (.reparent (q :: rest) status)) (child : (s.proc q).parent = some p) :
      Assigned s pc q { s.proc q with parent := some Table.initproc } none
        (.run p todo (.wakeup (.proc Table.initproc) Table.procs (.reparent rest status)))
  | zombie (p : P) (todo : List P) (status : Int) (here : pc = .run p todo (.zombie status)) :
      Assigned s pc p { s.proc p with xstate := status, state := .zombie } (some (.exit (s.proc p).serial status))
        (.run p todo .gone)
  | reap (p : P) (todo : List P) (q : P) (rest : List P) (here : pc = .run p todo (.waitOne q rest))
      (dead : (s.proc q).state = .zombie) :
      Assigned s pc q (freeproc (s.proc q))
        (some (.reap (s.proc p).serial (s.proc q).serial (s.proc q).pid (s.proc q).xstate))
        (.run p todo (.waitFree q (s.proc q).pid.toInt))
  | failed (p : P) (todo : List P) (np : P) (here : pc = .run p todo (.fork np)) :
      Assigned s pc np (freeproc (s.proc np)) none (.run p todo (.unlock np))

omit [DecidableEq C] [DecidableEq X] in
theorem thread_assigned {p : P} {todo : List P} {a : Act P L X} {q : P} {b : Proc P L X} {record : Option Record}
    {pc' : Pc P L X} (does : thread s p todo a = some (.assign q b record pc' : Cmd P L X D)) :
    Assigned s (.run p todo a) q b record pc' := by
  cases a with
  | yield w =>
    cases does
    exact .yield p todo w rfl
  | doze ch l =>
    cases does
    exact .doze p todo ch l rfl
  | sched x =>
    cases does
    exact .sched p todo x rfl
  | resumed x =>
    cases x with
    | sleep l =>
      cases does
      exact .resumed p todo l rfl
    | _ => cases does
  | killOne pid r rest =>
    by_cases found : (s.proc r).pid = pid
    · simp only [thread, if_pos found] at does
      cases does
      exact .kill p todo pid q rest rfl
    · simp only [thread, if_neg found] at does
      cases does
  | forkLink np =>
    cases does
    exact .link p todo q rfl
  | forkDone np =>
    cases does
    exact .forked p todo q rfl
  | reparent rest status =>
    cases rest with
    | nil => cases does
    | cons r rest =>
      simp only [thread] at does
      split_ifs at does with child <;> cases does
      exact .reparent p todo q rest status rfl child
  | zombie status =>
    cases does
    exact .zombie p todo status rfl
  | waitScan rest havekids =>
    cases rest <;> simp only [thread] at does <;> split_ifs at does <;> cases does
  | waitOne r rest =>
    simp only [thread] at does
    split_ifs at does with dead <;> cases does
    exact .reap p todo q rest rfl dead
  | allocOne r rest =>
    simp only [thread] at does
    split_ifs at does <;> cases does
  | window w =>
    cases w with
    | kill pid rest | alloc rest => cases rest <;> cases does
    | _ => cases does
  | _ => cases does

omit [DecidableEq C] in
theorem source_assigned {q : P} {b : Proc P L X} {record : Option Record} {pc' : Pc P L X}
    (source : Source s c (.assign q b record pc')) : Assigned s (s.pc c) q b record pc' := by
  generalize same : Cmd.assign q b record pc' = cmd at source
  cases source with
  | schedule pass here =>
    rw [here]
    cases pass with
    | reset p alone =>
      cases same
      exact .reset q alone rfl
    | scan todo | scan1 todo | scan2 todo => cases todo <;> cases same
    | _ => cases same
  | waking a within here does =>
    subst same
    cases a with
    | wakeup ch todo k =>
      cases todo with
      | nil => cases does
      | cons r todo =>
        simp only [Machine.waking] at does
        split_ifs at does <;> cases does
    | wakeOne ch r todo k =>
      simp only [Machine.waking] at does
      split_ifs at does with asleep <;> cases does
      exact .wake ch q todo k here asleep
    | _ => cases does
  | thread p todo a here does =>
    subst same
    rw [here]
    exact thread_assigned does
  | failing p todo a here does =>
    subst same
    rw [here]
    cases a with
    | fork np =>
      cases does
      exact .failed p todo q rfl
    | waitOne r rest =>
      simp only [Machine.failing] at does
      split_ifs at does
      cases does
    | _ => cases does
  | _ => cases same

end Sources

section Targets
variable [DecidableEq P] [DecidableEq C] [DecidableEq L]

def target (s : State P C L X D) (c : C) : Cmd P L X D → Pc P L X
  | .jump pc | .acquireProc _ pc | .releaseProc _ pc | .acquire _ pc | .release _ pc | .assign _ _ _ pc
  | .allocate _ pc => pc
  | .dispatch p todo => .run p todo (.resumed (s.proc p).context)
  | .clear p todo => .sched (.cleared p todo)
  | .store _ => s.pc c

theorem exec_pc (done : exec s c cmd = some s') : s'.pc = update s.pc c (target s c cmd) := by
  cases cmd with
  | acquire l pc | acquireProc q pc =>
    simp only [exec] at done
    split_ifs at done
    cases done
    rfl
  | store d =>
    cases done
    exact (update_eq_self c s.pc).symm
  | _ =>
    cases done
    rfl

/-- The locks other than p->lock after a command. -/
def locked (s : State P C L X D) (c : C) : Cmd P L X D → Lock L → Option C
  | .acquire l _ => update s.lock l (some c)
  | .release l _ => update s.lock l none
  | _ => s.lock

theorem exec_lock (done : exec s c cmd = some s') : s'.lock = locked s c cmd := by
  cases cmd with
  | acquire l pc | acquireProc q pc =>
    simp only [exec] at done
    split_ifs at done
    cases done
    rfl
  | _ =>
    cases done
    rfl

def table (s : State P C L X D) : Cmd P L X D → P → Proc P L X
  | .assign q b _ _ => update s.proc q b
  | .allocate q _ => update s.proc q { s.proc q with
      pid := s.nextpid, serial := s.born, state := .used, context := .forkret }
  | .dispatch p _ => update s.proc p { s.proc p with state := .running }
  | _ => s.proc

theorem exec_table (done : exec s c cmd = some s') : s'.proc = table s cmd := by
  cases cmd with
  | acquire l pc | acquireProc q pc =>
    simp only [exec] at done
    split_ifs at done
    cases done
    rfl
  | _ =>
    cases done
    rfl

theorem exec_free {l : Lock L} {pc : Pc P L X} (done : exec s c (.acquire l pc) = some s') : s.lock l = none := by
  simp only [exec] at done
  split_ifs at done with free
  exact free

end Targets

section Needs
variable [Table P]

/-- The lock that the code after a call of wakeup goes on with. -/
def returnNeeds : Return P L → Option (Lock L)
  | .resume _ => none
  | _ => some .wait

/-- The lock, other than p->lock, that a CPU at this place holds. -/
def actNeeds : Act P L X → Option (Lock L)
  | .sleep _ l => some l
  | .forkLink _ | .forkUnlock _ | .reparent .. | .wakeParent _ | .zombify _ | .zombie _ | .gone | .waitScan ..
  | .waitOne .. | .waitFree .. | .waitEnd _ => some .wait
  | .wakeup _ _ k | .wakeOne _ _ _ k | .wakeDone _ _ _ k => returnNeeds k
  | _ => none

def needs : Pc P L X → Option (Lock L)
  | .sched _ => none
  | .intr _ a | .run _ _ a => actNeeds a

omit [Table P] in
theorem needs_act {pc : Pc P L X} (within : inside pc = true) (a : Act P L X) : needs (pc.act a) = actNeeds a := by
  cases pc with
  | sched pass => cases within
  | intr pass b => cases a <;> rfl
  | run p todo b => rfl

omit [Table P] in
theorem needs_return (k : Return P L) : actNeeds (k.act : Act P L X) = returnNeeds k := by
  cases k <;> rfl

omit [Table P] in
theorem unlocked_needs {pc : Pc P L X} (free : pc.unlocked = true) : needs pc = none := by
  rcases unlocked_pc free with ⟨p, todo, w, rfl⟩ | ⟨pass, rfl, _⟩ <;> rfl

/-- The locks that a command needs and leaves. -/
def Lawful (s : State P C L X D) (c : C) : Cmd P L X D → Prop
  | .acquire l pc => needs (s.pc c) = none ∧ (l = .wait → needs pc = some .wait) ∧ ∀ l', needs pc = some l' → l' = l
  | .release l pc => s.lock l = some c ∧ needs pc = none ∧ ∀ l', needs (s.pc c) = some l' → l' = l
  | cmd => needs (target s c cmd) = needs (s.pc c) ∨
      needs (s.pc c) = none ∧ ∃ l, needs (target s c cmd) = some (.other l) ∧ s.lock (.other l) = some c

/-- A CPU holds the locks that its place needs. -/
structure Locking (s : State P C L X D) : Prop where
  holds : ∀ c l, needs (s.pc c) = some l → s.lock l = some c
  wait : ∀ c, s.lock .wait = some c → needs (s.pc c) = some .wait

section
variable [DecidableEq P]

theorem window_lawful {p : P} {todo : List P} {w : Window P L} (here : s.pc c = .run p todo (.window w))
    (does : thread s p todo (.window w) = some cmd) : Lawful s c cmd := by
  have idle : needs (s.pc c) = none := by rw [here]; rfl
  cases w with
  | kernel => cases does
  | kill pid rest | alloc rest => cases rest <;> cases does <;> exact .inl idle.symm
  | forkRun np =>
    cases does
    exact .inl idle.symm
  | relock l =>
    cases does
    cases l with
    | wait => exact ⟨idle, fun _ => rfl, fun l' same => (Option.some.inj same).symm⟩
    | other l => exact ⟨idle, nofun, nofun⟩
  | forkParent np | exit status | wait =>
    cases does
    exact ⟨idle, fun _ => rfl, fun l' same => (Option.some.inj same).symm⟩

theorem thread_lawful {p : P} {todo : List P} {a : Act P L X} (here : s.pc c = .run p todo a)
    (holds : ∀ l, needs (s.pc c) = some l → s.lock l = some c) (does : thread s p todo a = some cmd) : Lawful s c cmd := by
  have now : needs (s.pc c) = actNeeds a := by rw [here]; rfl
  rw [here] at holds
  cases a with
  | window w => exact window_lawful here does
  | sleep ch l =>
    cases does
    exact ⟨holds l rfl, rfl, fun l' same => (Option.some.inj (now.symm.trans same)).symm⟩
  | forkUnlock np | gone | waitEnd result =>
    cases does
    exact ⟨holds .wait rfl, rfl, fun l' same => (Option.some.inj (now.symm.trans same)).symm⟩
  | resumed x =>
    cases x with
    | exit => cases does
    | _ =>
      cases does
      exact .inl now.symm
  | waitScan rest havekids => cases rest <;> simp only [thread] at does <;> split_ifs at does <;> cases does <;> exact .inl now.symm
  | killOne pid q rest =>
    by_cases found : (s.proc q).pid = pid
    · simp only [thread, if_pos found] at does
      cases does
      exact .inl now.symm
    · simp only [thread, if_neg found] at does
      cases does
      exact .inl now.symm
  | allocOne q rest | waitOne q rest =>
    simp only [thread] at does
    split_ifs at does <;> cases does <;> exact .inl now.symm
  | reparent rest status =>
    cases rest with
    | nil =>
      cases does
      exact .inl now.symm
    | cons q rest =>
      simp only [thread] at does
      split_ifs at does <;> cases does <;> exact .inl now.symm
  | wakeParent status =>
    simp only [thread] at does
    cases parent : (s.proc p).parent <;> rw [parent] at does <;> cases does <;> exact .inl now.symm
  | wakeup ch rest k | wakeOne ch q rest k | wakeDone ch q rest k => cases does
  | _ =>
    cases does
    exact .inl now.symm

variable [DecidableEq C] [DecidableEq X]

omit [DecidableEq C] in
theorem source_lawful (locking : Locking s) (source : Source s c cmd) : Lawful s c cmd := by
  cases source with
  | schedule pass here =>
    have idle : needs (s.pc c) = none := by rw [here]; rfl
    cases pass with
    | scan todo | scan1 todo | scan2 todo => cases todo <;> exact .inl idle.symm
    | _ => exact .inl idle.symm
  | waking a within here does =>
    have now : needs (s.pc c) = actNeeds a := by rw [← needs_act within a, here]
    cases a with
    | wakeup ch todo k =>
      cases todo with
      | nil =>
        cases does
        exact .inl ((needs_act within _).trans ((needs_return k).trans now.symm))
      | cons q todo =>
        simp only [Machine.waking] at does
        split_ifs at does <;> cases does <;> exact .inl ((needs_act within _).trans now.symm)
    | wakeOne ch q todo k =>
      simp only [Machine.waking] at does
      split_ifs at does <;> cases does <;> exact .inl ((needs_act within _).trans now.symm)
    | wakeDone ch q todo k =>
      cases does
      exact .inl ((needs_act within _).trans now.symm)
    | _ => cases does
  | thread p todo a here does => exact thread_lawful here (locking.holds c) does
  | failing p todo a here does =>
    cases a with
    | fork np =>
      cases does
      exact .inl (by rw [here]; rfl)
    | waitOne q rest =>
      simp only [Machine.failing] at does
      split_ifs at does
      cases does
      exact .inl (by rw [here]; rfl)
    | _ => cases does
  | acquire l free =>
    have idle := unlocked_needs free
    exact ⟨idle, (fun wait => by cases wait), fun l' same => by cases idle.symm.trans same⟩
  | release l free holds =>
    have idle := unlocked_needs free
    exact ⟨holds, idle, fun l' same => by cases idle.symm.trans same⟩
  | change d free => exact .inl rfl
  | wakeup x free =>
    rcases unlocked_pc free with ⟨p, todo, w, here⟩ | ⟨pass, here, _⟩ <;> exact .inl (by rw [target, here]; rfl)
  | sleep x l p todo here holds => exact .inr ⟨by rw [here]; rfl, l, rfl, holds⟩
  | yield p todo w here | kill pid p todo here | fork p todo here | exit status p todo here | wait p todo here =>
    exact .inl (by rw [here]; rfl)

variable [DecidableEq L]

theorem Locking.moved (locking : Locking s) (pcs : s'.pc = update s.pc c (target s c cmd))
    (locks : s'.lock = locked s c cmd) (free : ∀ l pc, cmd = .acquire l pc → s.lock l = none)
    (source : Source s c cmd) : Locking s' := by
  have lawful := source_lawful locking source
  have other : ∀ d l, d ≠ c → s.lock l = some d → s'.lock l = some d := by
    intro d l apart holds
    rw [locks]
    cases cmd with
    | acquire l' pc =>
      have different : l ≠ l' := by
        rintro rfl
        cases (free l pc rfl).symm.trans holds
      simp only [locked, update_of_ne different, holds]
    | release l' pc =>
      have different : l ≠ l' := by
        rintro rfl
        exact apart (Option.some.inj (holds.symm.trans lawful.1))
      simp only [locked, update_of_ne different, holds]
    | _ => exact holds
  have back : ∀ d, d ≠ c → s'.lock .wait = some d → s.lock .wait = some d := by
    intro d apart holds
    rw [locks] at holds
    cases cmd with
    | acquire l pc =>
      by_cases same : Lock.wait = l
      · rw [locked, same, update_self] at holds
        exact absurd (Option.some.inj holds).symm apart
      · rwa [locked, update_of_ne same] at holds
    | release l pc =>
      by_cases same : Lock.wait = l
      · rw [locked, same, update_self] at holds
        cases holds
      · rwa [locked, update_of_ne same] at holds
    | _ => exact holds
  refine ⟨fun d l need => ?_, fun d holds => ?_⟩
  · by_cases self : d = c
    · subst self
      rw [pc_self pcs] at need
      rw [locks]
      cases cmd with
      | acquire l' pc =>
        obtain rfl := lawful.2.2 l need
        exact update_self _ _ _
      | release l' pc => cases lawful.2.1.symm.trans need
      | _ =>
        rcases lawful with same | ⟨_, l', same, holds⟩
        · exact locking.holds d l (same.symm.trans need)
        · rwa [← Option.some.inj (same.symm.trans need)]
    · rw [pc_other pcs self] at need
      exact other d l self (locking.holds d l need)
  · by_cases self : d = c
    · subst self
      rw [pc_self pcs]
      rw [locks] at holds
      cases cmd with
      | acquire l pc =>
        by_cases same : l = .wait
        · exact lawful.2.1 same
        · rw [locked, update_of_ne (Ne.symm same)] at holds
          cases lawful.1.symm.trans (locking.wait d holds)
      | release l pc =>
        by_cases same : l = .wait
        · rw [locked, same, update_self] at holds
          cases holds
        · rw [locked, update_of_ne (Ne.symm same)] at holds
          exact absurd (lawful.2.2 .wait (locking.wait d holds)).symm same
      | _ =>
        rcases lawful with same | ⟨idle, _⟩
        · exact same.trans (locking.wait d holds)
        · cases idle.symm.trans (locking.wait d holds)
    · rw [pc_other pcs self]
      exact locking.wait d (back d self holds)

theorem Locking.next (locking : Locking s) {e : Event P C L X D} (taken : step s e = some s') : Locking s' := by
  cases e with
  | cpu c choice =>
    obtain ⟨cmd, does, done⟩ := Option.bind_eq_some_iff.mp taken
    exact locking.moved (exec_pc done) (exec_lock done) (fun l pc same => exec_free (same ▸ done)) (command_source does)
  | policy n | drift q accumulator vruntime =>
    cases taken
    exact ⟨locking.holds, locking.wait⟩

omit [DecidableEq P] [DecidableEq C] [DecidableEq L] [DecidableEq X] in
theorem Locking.init (start : Init s) : Locking s where
  holds c l need := by
    rw [(start.idle c).1] at need
    cases need
  wait c holds := by cases (start.free.2 .wait).symm.trans holds

end

end Needs

end Xv6.Sync.Effects
