import Xv6.Sync.Effects

/-! sleep and wakeup lose no wakeup: while a lock protects a condition, and whoever makes the condition true also
calls wakeup before it gives the lock back, nobody sleeps on the channel when the lock is free and the condition is
true. -/

namespace Xv6.Sync.Wakeup
open Lib.Transition Machine Dispatch Effects Option
open Function (update update_of_ne update_self)

variable {P C L X D : Type} {s s' : State P C L X D} {c : C} {q : P}

/-- SLEEPING on the channel, or in sleep past the release of the lock. -/
def Asleep (ch : Chan P X) (s : State P C L X D) (q : P) : Prop :=
  ((s.proc q).state = .sleeping ∧ (s.proc q).chan = some ch) ∨ ∃ c todo l, s.pc c = .run q todo (.doze ch l)

/-- The processes that a call of wakeup has still to look at. -/
inductive Visits (ch : Chan P X) (pc : Pc P L X) : List P → Prop where
  | next (todo : List P) (k : Return P L) (here : pc.act (.wakeup ch todo k) = pc) : Visits ch pc todo
  | one (q : P) (todo : List P) (k : Return P L) (here : pc.act (.wakeOne ch q todo k) = pc) : Visits ch pc (q :: todo)
  | done (q : P) (todo : List P) (k : Return P L) (here : pc.act (.wakeDone ch q todo k) = pc) : Visits ch pc todo

section Places

theorem act_inj {pc : Pc P L X} (within : inside pc = true) {a b : Act P L X} (waking : wakes b = true)
    (same : pc.act a = pc.act b) : a = b := by
  cases pc with
  | sched pass => cases within
  | intr pass x =>
    cases b with
    | wakeup ch todo k | wakeOne ch q todo k | wakeDone ch q todo k => cases a <;> cases same; rfl
    | _ => cases waking
  | run p todo x => exact (Pc.run.inj same).2.2

theorem act_act {pc : Pc P L X} (within : inside pc = true) {a : Act P L X} (waking : wakes a = true) (b : Act P L X) :
    (pc.act a).act b = pc.act b := by
  cases pc with
  | sched pass => cases within
  | intr pass x =>
    cases a with
    | wakeup ch todo k | wakeOne ch q todo k | wakeDone ch q todo k => cases b <;> rfl
    | _ => cases waking
  | run p todo x => rfl

variable {todo : List P}

theorem visits_act {ch : Chan P X} {pc : Pc P L X} (within : inside pc = true) {a : Act P L X} (waking : wakes a = true)
    (visits : Visits ch (pc.act a) todo) :
    (∃ k, a = .wakeup ch todo k) ∨ (∃ q rest k, a = .wakeOne ch q rest k ∧ todo = q :: rest) ∨
      ∃ q k, a = .wakeDone ch q todo k := by
  cases visits with
  | next todo k here =>
    rw [act_act within waking] at here
    exact .inl ⟨k, (act_inj within waking here).symm⟩
  | one q rest k here =>
    rw [act_act within waking] at here
    exact .inr (.inl ⟨q, rest, k, (act_inj within waking here).symm, rfl⟩)
  | done q todo k here =>
    rw [act_act within waking] at here
    exact .inr (.inr ⟨q, k, (act_inj within waking here).symm⟩)

theorem visits_run {ch : Chan P X} {p : P} {rest : List P} {a : Act P L X}
    (visits : Visits ch (.run p rest a) todo) : wakes a = true := by
  cases visits with
  | next todo k here | one q todo k here | done q todo k here =>
    obtain rfl := (Pc.run.inj here).2.2
    rfl

theorem not_visits_sched {ch : Chan P X} {pass : Pass P} : ¬Visits ch (.sched pass : Pc P L X) todo := by
  intro visits
  cases visits with
  | next todo k here | one q todo k here | done q todo k here => cases here

theorem not_visits_return {ch : Chan P X} {pc : Pc P L X} (within : inside pc = true) (k : Return P L) :
    ¬Visits ch (pc.act k.act) todo := by
  intro visits
  cases pc with
  | sched pass => cases within
  | run p rest x =>
    have waking := visits_run visits
    cases k <;> cases waking
  | intr pass x =>
    cases k with
    | resume w => exact not_visits_sched visits
    | _ =>
      cases visits with
      | next todo k here | one q todo k here | done q todo k here => cases here

end Places

section Steps
variable [DecidableEq P] [Table P]

/-- In scheduler, or in a process neither past the release in sleep nor in wakeup. -/
def quiet : Pc P L X → Bool
  | .intr .. | .run _ _ (.doze ..) | .run _ _ (.wakeup ..) | .run _ _ (.wakeOne ..) | .run _ _ (.wakeDone ..) => false
  | _ => true

omit [DecidableEq P] [Table P] in
theorem not_visits_quiet {ch : Chan P X} {pc : Pc P L X} {todo : List P} (still : quiet pc = true) : ¬Visits ch pc todo := by
  intro visits
  cases pc with
  | sched pass => exact not_visits_sched visits
  | intr pass a => cases still
  | run p rest a =>
    have waking := visits_run visits
    cases a <;> first | (cases waking; done) | cases still

/-- Where the code of a process leads: past the release in sleep, to a call of wakeup from the start of the table, or
elsewhere. -/
theorem thread_leads {p : P} {todo : List P} {a : Act P L X} {cmd : Cmd P L X D} (does : thread s p todo a = some cmd) :
    (∃ ch l, a = .sleep ch l ∧ cmd = .release l (.run p todo (.doze ch l))) ∨
      (∃ ch k, target s c cmd = .run p todo (.wakeup ch Table.procs k)) ∨ quiet (target s c cmd) = true := by
  cases a with
  | sleep ch l =>
    cases does
    exact .inl ⟨ch, l, rfl, rfl⟩
  | window w =>
    cases w with
    | kernel => cases does
    | kill pid rest | alloc rest => cases rest <;> cases does <;> exact .inr (.inr rfl)
    | relock l =>
      cases does
      cases l <;> exact .inr (.inr rfl)
    | _ =>
      cases does
      exact .inr (.inr rfl)
  | resumed x =>
    cases x with
    | exit => cases does
    | _ =>
      cases does
      exact .inr (.inr rfl)
  | killOne pid q rest =>
    by_cases found : (s.proc q).pid = pid
    · simp only [thread, if_pos found] at does
      cases does
      exact .inr (.inr rfl)
    · simp only [thread, if_neg found] at does
      cases does
      exact .inr (.inr rfl)
  | allocOne q rest | waitOne q rest =>
    simp only [thread] at does
    split_ifs at does <;> cases does <;> exact .inr (.inr rfl)
  | reparent rest status =>
    cases rest with
    | nil =>
      cases does
      exact .inr (.inr rfl)
    | cons q rest =>
      simp only [thread] at does
      split_ifs at does <;> cases does
      · exact .inr (.inl ⟨_, _, rfl⟩)
      · exact .inr (.inr rfl)
  | wakeParent status =>
    simp only [thread] at does
    cases parent : (s.proc p).parent <;> rw [parent] at does <;> cases does
    · exact .inr (.inr rfl)
    · exact .inr (.inl ⟨_, _, rfl⟩)
  | waitScan rest havekids =>
    cases rest <;> simp only [thread] at does <;> split_ifs at does <;> cases does <;> exact .inr (.inr rfl)
  | wakeup ch rest k | wakeOne ch q rest k | wakeDone ch q rest k => cases does
  | _ =>
    cases does
    exact .inr (.inr rfl)

variable [DecidableEq X] {ch : Chan P X} {cmd : Cmd P L X D}

/-- The same for all commands of a CPU; those in wakeup, and those that move no CPU, are left apart. -/
theorem source_leads (source : Source s c cmd) :
    (∃ a, inside (s.pc c) = true ∧ (s.pc c).act a = s.pc c ∧ waking s c (s.pc c) a = some cmd) ∨
      (∃ p todo ch l, s.pc c = .run p todo (.sleep ch l) ∧ cmd = .release l (.run p todo (.doze ch l))) ∨
      (∃ pc ch k, inside pc = true ∧ target s c cmd = pc.act (.wakeup ch Table.procs k)) ∨ target s c cmd = s.pc c ∨
      quiet (target s c cmd) = true := by
  cases source with
  | schedule pass here =>
    refine .inr (.inr (.inr (.inr ?_)))
    cases pass with
    | scan todo | scan1 todo | scan2 todo => cases todo <;> rfl
    | _ => rfl
  | waking a within here does => exact .inl ⟨a, within, here, does⟩
  | thread p todo a here does =>
    rcases thread_leads (c := c) does with ⟨ch, l, rfl, same⟩ | ⟨ch, k, calls⟩ | still
    · exact .inr (.inl ⟨p, todo, ch, l, here, same⟩)
    · exact .inr (.inr (.inl ⟨.run p todo .gone, ch, k, rfl, calls⟩))
    · exact .inr (.inr (.inr (.inr still)))
  | failing p todo a here does =>
    refine .inr (.inr (.inr (.inr ?_)))
    cases a with
    | fork np =>
      cases does
      rfl
    | waitOne r rest =>
      simp only [Machine.failing] at does
      split_ifs at does
      cases does
      rfl
    | _ => cases does
  | acquire l free | release l free holds | change d free => exact .inr (.inr (.inr (.inl rfl)))
  | wakeup x free =>
    refine .inr (.inr (.inl ?_))
    rcases unlocked_pc free with ⟨p, todo, w, here⟩ | ⟨pass, here, _⟩
    · exact ⟨.run p todo .gone, .other x, _, rfl, by rw [target, here]; rfl⟩
    · exact ⟨.intr pass .gone, .other x, _, rfl, by rw [target, here]; rfl⟩
  | _ => exact .inr (.inr (.inr (.inr rfl)))

theorem source_doze {rest : List P} {l : Lock L} (source : Source s c cmd)
    (now : target s c cmd = .run q rest (.doze ch l)) (was : s.pc c ≠ .run q rest (.doze ch l)) :
    ∃ todo, s.pc c = .run q todo (.sleep ch l) ∧ cmd = .release l (.run q rest (.doze ch l)) := by
  have stays : ∀ (pc : Pc P L X) (b : Act P L X), pc.act b = .run q rest (.doze ch l) → ∃ ch l, b = .doze ch l := by
    intro pc b same
    cases pc with
    | sched pass => cases same
    | intr pass x => cases b <;> cases same
    | run p todo x => exact ⟨ch, l, (Pc.run.inj same).2.2⟩
  rcases source_leads source with ⟨a, -, -, does⟩ | ⟨p, todo, ch', l', here, rfl⟩ | ⟨pc, ch', k', -, calls⟩ | same | still
  · cases a with
    | wakeup ch' todo k' =>
      cases todo with
      | nil =>
        cases does
        obtain ⟨_, _, same⟩ := stays _ _ now
        cases k' <;> cases same
      | cons r todo =>
        simp only [Machine.waking] at does
        split_ifs at does <;> cases does <;> obtain ⟨_, _, same⟩ := stays _ _ now <;> cases same
    | wakeOne ch' r todo k' =>
      simp only [Machine.waking] at does
      split_ifs at does <;> cases does <;> obtain ⟨_, _, same⟩ := stays _ _ now <;> cases same
    | wakeDone ch' r todo k' =>
      cases does
      obtain ⟨_, _, same⟩ := stays _ _ now
      cases same
    | _ => cases does
  · cases now
    exact ⟨_, here, rfl⟩
  · obtain ⟨_, _, same⟩ := stays _ _ (calls.symm.trans now)
    cases same
  · exact absurd (same.symm.trans now) was
  · rw [now] at still
    cases still

omit [DecidableEq P] [DecidableEq X] in
theorem assigned_asleep {pc pc' : Pc P L X} {b : Proc P L X} {record : Option Record}
    (assigned : Assigned s pc q b record pc') (asleep : b.state = .sleeping ∧ b.chan = some ch) :
    ((s.proc q).state = .sleeping ∧ (s.proc q).chan = some ch) ∨ ∃ todo l, pc = .run q todo (.doze ch l) := by
  cases assigned with
  | doze _ todo ch' l here =>
    obtain rfl := Option.some.inj asleep.2
    exact .inr ⟨todo, l, here⟩
  | kill p todo pid _ rest here =>
    obtain ⟨state, chan⟩ := asleep
    dsimp only at state chan
    split_ifs at state with sleeping
    exact absurd state sleeping
  | resumed => cases asleep.2
  | reset | sched | link | reparent => exact .inl asleep
  | _ => cases asleep.1

variable [DecidableEq C] [DecidableEq L]

theorem asleep_back {e : Event P C L X D} (taken : step s e = some s') (asleep : Asleep ch s' q) :
    Asleep ch s q ∨ ∃ c x todo l, e = .cpu c x ∧ s.pc c = .run q todo (.sleep ch l) ∧
      s'.lock = update s.lock l none := by
  cases e with
  | policy n =>
    cases taken
    exact .inl asleep
  | drift p accumulator vruntime =>
    cases taken
    refine .inl (asleep.imp_left fun sleeping => ?_)
    by_cases here : q = p
    · subst here
      simpa only [State.put, update_self] using sleeping
    · simpa only [State.put, update_of_ne here] using sleeping
  | cpu c choice =>
    obtain ⟨cmd, does, done⟩ := bind_eq_some_iff.mp taken
    have source := command_source does
    rcases asleep with sleeping | ⟨d, todo, l, doze⟩
    · rw [exec_table done] at sleeping
      left
      cases cmd with
      | assign r b record pc =>
        by_cases here : q = r
        · subst here
          rw [table, update_self] at sleeping
          rcases assigned_asleep (source_assigned source) sleeping with before | ⟨todo, l, here⟩
          · exact .inl before
          · exact .inr ⟨c, todo, l, here⟩
        · rw [table, update_of_ne here] at sleeping
          exact .inl sleeping
      | allocate r pc | dispatch r todo =>
        by_cases here : q = r
        · subst here
          rw [table, update_self] at sleeping
          cases sleeping.1
        · rw [table, update_of_ne here] at sleeping
          exact .inl sleeping
      | _ => exact .inl sleeping
    · by_cases same : s.pc d = .run q todo (.doze ch l)
      · exact .inl (.inr ⟨d, todo, l, same⟩)
      · by_cases self : d = c
        · subst self
          rw [pc_self (exec_pc done)] at doze
          obtain ⟨todo', here, rfl⟩ := source_doze source doze same
          exact .inr ⟨d, choice, todo', l, rfl, here, exec_lock done⟩
        · rw [pc_other (exec_pc done) self] at doze
          exact absurd doze same

omit [DecidableEq P] [Table P] [DecidableEq X] [DecidableEq C] [DecidableEq L] in
theorem not_dozing (inv : Inv s) (holds : held (s.pc c) = some q) (awake : ∀ todo l, s.pc c ≠ .run q todo (.doze ch l)) :
    ¬∃ d todo l, s.pc d = .run q todo (.doze ch l) := by
  rintro ⟨d, todo, l, doze⟩
  obtain rfl := inv.holder holds (by rw [doze]; rfl : held (s.pc d) = some q)
  exact awake todo l doze

omit [DecidableEq P] [Table P] [DecidableEq X] [DecidableEq C] [DecidableEq L] in
theorem not_asleep_on (inv : Inv s) (runs : on (s.pc c) = some q) (stays : leaving (s.pc c) = false)
    (awake : ∀ todo l, s.pc c ≠ .run q todo (.doze ch l)) : ¬Asleep ch s q := by
  rintro (⟨sleeping, _⟩ | ⟨d, todo, l, doze⟩)
  · cases sleeping.symm.trans ((inv.running c q runs).mpr stays)
  · obtain rfl := inv.distinct d c q (by rw [doze]; rfl) runs
    exact awake todo l doze

/-- A call of wakeup starts with the whole table, and passes over a process only if it does not sleep. -/
theorem source_visits (inv : Inv s) {choice : Choice L X D} (does : command s c choice = some cmd)
    (done : exec s c cmd = some s') {rest : List P} (visits : Visits ch (s'.pc c) rest) :
    (∀ p, p ∈ rest) ∨ ∃ todo, Visits ch (s.pc c) todo ∧ ∀ p ∈ todo, p ∉ rest → ¬Asleep ch s' p := by
  have back : ∀ p, Asleep ch s' p → (∀ todo l, s.pc c ≠ .run p todo (.sleep ch l)) → Asleep ch s p := by
    intro p asleep elsewhere
    have taken : step s (.cpu c choice) = some s' := by
      rw [step, does]
      exact done
    rcases asleep_back taken asleep with before | ⟨d, x, todo, l, same, here, _⟩
    · exact before
    · cases same
      exact absurd here (elsewhere todo l)
  rw [pc_self (exec_pc done)] at visits
  rcases source_leads (command_source does) with ⟨a, within, here, does⟩ | ⟨_, _, _, _, -, rfl⟩ | ⟨pc, ch', k, within, calls⟩ |
    same | still
  · cases a with
    | wakeup ch' todo k =>
      have place : held (s.pc c) = none ∧ leaving (s.pc c) = false := by
        rw [← here]
        exact (act_wakes (s := s) (inv.handler c) within here _ rfl rfl).2
      cases todo with
      | nil =>
        cases does
        exact absurd visits (not_visits_return within k)
      | cons p todo =>
        simp only [Machine.waking] at does
        split_ifs at does with self <;> cases does
        · rcases visits_act within rfl visits with ⟨k', same⟩ | ⟨_, _, _, same, _⟩ | ⟨_, _, same⟩ <;> cases same
          refine .inr ⟨_, .next _ k here, fun r member passed => ?_⟩
          rcases List.mem_cons.mp member with rfl | later
          · have runs : on (s.pc c) = some r := (inv.current c).symm.trans self
            have elsewhere : ∀ a : Act P L X, wakes a = false → ∀ todo, s.pc c ≠ .run r todo a := by
              rintro a quiet todo' there
              rw [there] at here
              obtain rfl := (Pc.run.inj here).2.2
              cases quiet
            exact fun asleep => not_asleep_on inv runs place.2 (fun todo l => elsewhere _ rfl todo)
              (back r asleep fun todo l => elsewhere _ rfl todo)
          · exact absurd later passed
        · rcases visits_act within rfl visits with ⟨k', same⟩ | ⟨_, _, _, same, rfl⟩ | ⟨_, _, same⟩ <;> cases same
          exact .inr ⟨_, .next _ k here, fun r member passed => absurd member passed⟩
    | wakeOne ch' p todo k =>
      have had : held (s.pc c) = some p := by
        rw [← here]
        exact (act_wakes (s := s) (inv.handler c) within here _ rfl rfl).2.1
      have elsewhere : ∀ a : Act P L X, wakes a = false → ∀ todo, s.pc c ≠ .run p todo a := by
        rintro a quiet todo' there
        rw [there] at here
        obtain rfl := (Pc.run.inj here).2.2
        cases quiet
      have awake : ∀ todo l, s.pc c ≠ .run p todo (.doze ch l) := fun todo l => elsewhere _ rfl todo
      have undozing := not_dozing inv had awake
      simp only [Machine.waking] at does
      split_ifs at does with asleep <;> cases does
      · rcases visits_act within rfl visits with ⟨k', same⟩ | ⟨_, _, _, same, rfl⟩ | ⟨_, _, same⟩ <;> cases same
        refine .inr ⟨_, .one p _ k here, fun r member passed => ?_⟩
        rcases List.mem_cons.mp member with rfl | later
        · rintro (⟨sleeping, _⟩ | ⟨d, rest', l, doze⟩)
          · rw [exec_table done, table, update_self] at sleeping
            cases sleeping
          · by_cases self : d = c
            · subst self
              rw [pc_self (exec_pc done)] at doze
              have quiet := visits_run (doze ▸ visits)
              cases quiet
            · rw [pc_other (exec_pc done) self] at doze
              exact undozing ⟨d, rest', l, doze⟩
        · exact absurd later passed
      · rcases visits_act within rfl visits with ⟨k', same⟩ | ⟨_, _, _, same, rfl⟩ | ⟨_, _, same⟩ <;> cases same
        refine .inr ⟨_, .one p _ k here, fun r member passed => ?_⟩
        rcases List.mem_cons.mp member with rfl | later
        · intro now
          rcases back r now fun todo l => elsewhere _ rfl todo with sleeping | dozing
          · exact asleep sleeping
          · exact undozing dozing
        · exact absurd later passed
    | wakeDone ch' p todo k =>
      cases does
      rcases visits_act within rfl visits with ⟨k', same⟩ | ⟨_, _, _, same, rfl⟩ | ⟨_, _, same⟩ <;> cases same
      exact .inr ⟨_, .done p _ k here, fun r member passed => absurd member passed⟩
    | _ => cases does
  · cases visits_run visits
  · rw [calls] at visits
    rcases visits_act within rfl visits with ⟨_, same⟩ | ⟨_, _, _, same, _⟩ | ⟨_, _, same⟩ <;> cases same
    exact .inl Table.complete
  · rw [same] at visits
    exact .inr ⟨rest, visits, fun p member passed => absurd member passed⟩
  · exact absurd visits (not_visits_quiet still)

end Steps

section Discipline

/-- What has happened in the critical section of the lock: the condition became true, wakeup was called. -/
structure Watch where
  changed : Bool
  woke : Bool

def actor : Event P C L X D → Option C
  | .cpu c _ => some c
  | _ => none

variable [DecidableEq P] [DecidableEq C] [DecidableEq L] [DecidableEq X] [Table P] (lk : Lock L) (ch : Chan P X)
  (cond : State P C L X D → Prop) [DecidablePred cond]

/-- The holder of the lock calls wakeup on the channel: from kernel code or a handler, in reparent, or in exit. -/
def calls (s : State P C L X D) : Event P C L X D → Bool
  | .cpu c (.wakeup x) => s.lock lk = some c ∧ ch = .other x
  | .cpu c .run => match s.pc c with
      | .run p _ (.reparent (q :: _) _) =>
          s.lock lk = some c ∧ (s.proc q).parent = some p ∧ ch = .proc Table.initproc
      | .run p _ (.wakeParent _) => s.lock lk = some c ∧ (s.proc p).parent.map .proc = some ch
      | _ => false
  | _ => false

/-- A critical section begins and ends with a change of the lock. -/
def watch (s : State P C L X D) (e : Event P C L X D) (s' : State P C L X D) (w : Watch) : Watch where
  changed := s'.lock lk = s.lock lk ∧ (w.changed ∨ ¬cond s ∧ cond s')
  woke := s'.lock lk = s.lock lk ∧ (w.woke ∨ calls lk ch s e)

/-- The CPU stands at the start of sleep on the channel, with this lock. -/
def sleeper : Pc P L X → Option (Lock L)
  | .run _ _ (.sleep ch' l) => if ch' = ch then some l else none
  | _ => none

/-- How the lock, the channel and the condition are used: only the holder of the lock makes the condition true; sleep
is called with the lock held and the condition false; and the holder does not give the lock back after it has made
the condition true, unless it has also called wakeup. -/
structure Disciplined (s : State P C L X D) (e : Event P C L X D) (s' : State P C L X D) (w : Watch) : Prop where
  changes : ¬cond s → cond s' → ∃ c ∈ actor e, s.lock lk = some c ∧ s'.lock lk = some c
  sleeps : ∀ c ∈ actor e, ∀ l ∈ sleeper ch (s'.pc c), l = lk ∧ s'.lock lk = some c ∧ ¬cond s'
  wakes : s.lock lk ≠ none → s'.lock lk = none → w.changed → w.woke

instance (s : State P C L X D) (e : Event P C L X D) (s' : State P C L X D) (w : Watch) :
    Decidable (Disciplined lk ch cond s e s' w) :=
  decidable_of_iff ((¬cond s → cond s' → ∃ c ∈ actor e, s.lock lk = some c ∧ s'.lock lk = some c) ∧
    (∀ c ∈ actor e, ∀ l ∈ sleeper ch (s'.pc c), l = lk ∧ s'.lock lk = some c ∧ ¬cond s') ∧
    (s.lock lk ≠ none → s'.lock lk = none → w.changed → w.woke))
    ⟨fun ⟨changes, sleeps, wakes⟩ => ⟨changes, sleeps, wakes⟩, fun ⟨changes, sleeps, wakes⟩ => ⟨changes, sleeps, wakes⟩⟩

/-- A step that keeps to the discipline, with what is watched. -/
def watchedStep (x : State P C L X D × Watch) (e : Event P C L X D) : Option (State P C L X D × Watch) :=
  (step x.1 e).bind fun s' =>
    if Disciplined lk ch cond x.1 e s' x.2 then some (s', watch lk ch cond x.1 e s' x.2) else none

structure Guarded (s : State P C L X D) (w : Watch) : Prop where
  free : s.lock lk = none → cond s → ∀ q, ¬Asleep ch s q
  before : ∀ c, s.lock lk = some c → cond s → ¬w.changed → ∀ q, ¬Asleep ch s q
  after : ∀ c, s.lock lk = some c → w.woke → (∃ todo, Visits ch (s.pc c) todo) ∨ ∀ q, ¬Asleep ch s q
  passed : ∀ c todo, s.lock lk = some c → Visits ch (s.pc c) todo → ∀ q, q ∉ todo → ¬Asleep ch s q
  tested : ∀ c p todo l, s.pc c = .run p todo (.sleep ch l) → l = lk ∧ s.lock lk = some c ∧ ¬cond s

variable {lk ch cond} {e : Event P C L X D} {w : Watch}

theorem lock_kept (locking : Locking s) (taken : step s e = some s') {l : Lock L} (holds : s.lock l = some c) :
    s'.lock l = some c ∨ s'.lock l = none ∧ ∃ x, e = .cpu c x := by
  cases e with
  | policy n | drift p accumulator vruntime =>
    cases taken
    exact .inl holds
  | cpu d choice =>
    obtain ⟨cmd, does, done⟩ := bind_eq_some_iff.mp taken
    rw [exec_lock done]
    cases cmd with
    | acquire l' pc =>
      have different : l ≠ l' := by
        rintro rfl
        cases (exec_free done).symm.trans holds
      exact .inl (by rw [locked, update_of_ne different, holds])
    | release l' pc =>
      by_cases same : l = l'
      · subst same
        have mine := (source_lawful locking (command_source does)).1
        obtain rfl := Option.some.inj (mine.symm.trans holds)
        exact .inr ⟨by rw [locked, update_self], choice, rfl⟩
      · exact .inl (by rw [locked, update_of_ne same, holds])
    | _ => exact .inl holds

theorem pc_elsewhere (taken : step s e = some s') (elsewhere : ∀ x, e ≠ .cpu c x) : s'.pc c = s.pc c := by
  cases e with
  | policy n | drift p accumulator vruntime =>
    cases taken
    rfl
  | cpu d choice =>
    obtain ⟨cmd, does, done⟩ := bind_eq_some_iff.mp taken
    refine pc_other (exec_pc done) ?_
    rintro rfl
    exact elsewhere choice rfl

omit [DecidableEq C] [DecidableEq L] in
/-- A CPU in wakeup does nothing else before it returns. -/
theorem visits_waking {cmd : Cmd P L X D} (source : Source s c cmd) {todo : List P} (visits : Visits ch (s.pc c) todo) :
    ∃ a, inside (s.pc c) = true ∧ (s.pc c).act a = s.pc c ∧ waking s c (s.pc c) a = some cmd := by
  have apart : ∀ p todo a, s.pc c = .run p todo a → wakes a = true := by
    intro p todo a here
    rw [here] at visits
    exact visits_run visits
  have locked : (s.pc c).unlocked = false := by
    by_contra free
    rcases unlocked_pc (by simpa using free) with ⟨p, todo, w, here⟩ | ⟨pass, here, _⟩
    · cases apart p todo _ here
    · rw [here] at visits
      exact not_visits_sched visits
  cases source with
  | schedule pass here =>
    rw [here] at visits
    exact (not_visits_sched visits).elim
  | waking a within here does => exact ⟨a, within, here, does⟩
  | thread p todo a here does =>
    have waking := apart p todo a here
    cases a with
    | wakeup ch' todo k | wakeOne ch' q todo k | wakeDone ch' q todo k => cases does
    | _ => cases waking
  | failing p todo a here does =>
    have waking := apart p todo a here
    cases a with
    | wakeup ch' todo k | wakeOne ch' q todo k | wakeDone ch' q todo k => cases does
    | _ => cases waking
  | acquire l free | release l free | change d free | wakeup x free => cases locked.symm.trans free
  | yield p todo _ here | sleep _ _ p todo here | kill _ p todo here | fork p todo here | exit _ p todo here
  | wait p todo here => cases apart p todo _ here

theorem visits_locks {x : Choice L X D} (taken : step s (.cpu c x) = some s') {todo : List P}
    (visits : Visits ch (s.pc c) todo) : s'.lock = s.lock := by
  obtain ⟨cmd, does, done⟩ := bind_eq_some_iff.mp taken
  obtain ⟨a, _, _, wakes⟩ := visits_waking (command_source does) visits
  rw [exec_lock done]
  cases a with
  | wakeup ch' todo k =>
    cases todo with
    | nil =>
      cases wakes
      rfl
    | cons q todo =>
      simp only [waking] at wakes
      split_ifs at wakes <;> cases wakes <;> rfl
  | wakeOne ch' q todo k =>
    simp only [waking] at wakes
    split_ifs at wakes <;> cases wakes <;> rfl
  | wakeDone ch' q todo k =>
    cases wakes
    rfl
  | _ => cases wakes

/-- A CPU in wakeup stays there until it has looked at every process. -/
theorem visits_next {x : Choice L X D} (taken : step s (.cpu c x) = some s') {todo : List P}
    (visits : Visits ch (s.pc c) todo) : Visits ch (s.pc c) [] ∨ ∃ rest, Visits ch (s'.pc c) rest := by
  obtain ⟨cmd, does, done⟩ := bind_eq_some_iff.mp taken
  obtain ⟨a, within, here, wakes⟩ := visits_waking (command_source does) visits
  have now : ∀ b, Dispatch.wakes b = true → ((s.pc c).act b).act b = (s.pc c).act b := fun b waking => act_act within waking b
  rw [← here] at visits
  rw [pc_self (exec_pc done)]
  cases a with
  | wakeup ch' todo k =>
    rcases visits_act within rfl visits with ⟨_, same⟩ | ⟨_, _, _, same, _⟩ | ⟨_, _, same⟩ <;> cases same
    cases todo with
    | nil => exact .inl (.next [] k here)
    | cons q rest =>
      simp only [waking] at wakes
      split_ifs at wakes <;> cases wakes
      · exact .inr ⟨rest, .next rest k (now _ rfl)⟩
      · exact .inr ⟨_, .one q rest k (now _ rfl)⟩
  | wakeOne ch' q rest k =>
    rcases visits_act within rfl visits with ⟨_, same⟩ | ⟨_, _, _, same, _⟩ | ⟨_, _, same⟩ <;> cases same
    simp only [waking] at wakes
    split_ifs at wakes <;> cases wakes
    · exact .inr ⟨rest, .done q rest k (now _ rfl)⟩
    · exact .inr ⟨rest, .next rest k (now _ rfl)⟩
  | wakeDone ch' q todo k =>
    rcases visits_act within rfl visits with ⟨_, same⟩ | ⟨_, _, _, same, _⟩ | ⟨_, _, same⟩ <;> cases same
    cases wakes
    exact .inr ⟨_, .next _ k (now _ rfl)⟩
  | _ => cases wakes

theorem calls_visits (taken : step s e = some s') (called : calls lk ch s e = true) :
    ∃ c, s.lock lk = some c ∧ Visits ch (s'.pc c) Table.procs := by
  cases e with
  | policy n | drift p accumulator vruntime => cases called
  | cpu c x =>
    obtain ⟨cmd, does, done⟩ := bind_eq_some_iff.mp taken
    refine ⟨c, ?_⟩
    rw [pc_self (exec_pc done)]
    cases x with
    | wakeup x =>
      obtain ⟨mine, rfl⟩ := of_decide_eq_true called
      refine ⟨mine, .next _ (s.pc c).resume ?_⟩
      simp only [command] at does
      split_ifs at does with free
      cases does
      rcases unlocked_pc free with ⟨p, todo, w, here⟩ | ⟨pass, here, _⟩ <;> rw [target, here] <;> rfl
    | run =>
      simp only [calls] at called
      split at called
      next p todo q rest status here =>
        obtain ⟨mine, child, rfl⟩ := of_decide_eq_true called
        simp only [command, here, waking, thread, none_or, child, if_true] at does
        cases does
        exact ⟨mine, .next _ (.reparent rest status) rfl⟩
      next p todo status here =>
        obtain ⟨mine, child⟩ := of_decide_eq_true called
        obtain ⟨f, parent, rfl⟩ := map_eq_some_iff.mp child
        simp only [command, here, waking, thread, none_or, parent] at does
        cases does
        exact ⟨mine, .next _ (.exit status) rfl⟩
      next => cases called
    | _ => cases called

theorem taken_not_visits (taken : step s e = some s') {l : Lock L} (free : s.lock l = none) (holds : s'.lock l = some c) :
    (∃ x, e = .cpu c x) ∧ ∀ (ch : Chan P X) (todo : List P), ¬Visits ch (s.pc c) todo := by
  cases e with
  | policy n | drift p accumulator vruntime =>
    cases taken
    cases free.symm.trans holds
  | cpu d choice =>
    obtain ⟨cmd, does, done⟩ := bind_eq_some_iff.mp taken
    have mine : c = d := by
      rw [exec_lock done] at holds
      cases cmd with
      | acquire l' pc | release l' pc =>
        by_cases same : l = l'
        · rw [locked, same, update_self] at holds
          first | exact (Option.some.inj holds).symm | cases holds
        · rw [locked, update_of_ne same] at holds
          cases free.symm.trans holds
      | _ => cases free.symm.trans holds
    subst mine
    refine ⟨⟨choice, rfl⟩, fun ch todo visits => ?_⟩
    rw [visits_locks taken visits] at holds
    cases free.symm.trans holds

theorem Guarded.next (inv : Inv s) (locking : Locking s) (guarded : Guarded lk ch cond s w) (taken : step s e = some s')
    (disciplined : Disciplined lk ch cond s e s' w) : Guarded lk ch cond s' (watch lk ch cond s e s' w) := by
  -- a process falls asleep only where it gives the lock back with the condition false
  have falls : ∀ q, Asleep ch s' q → Asleep ch s q ∨ s'.lock lk = none ∧ ¬cond s := by
    intro q asleep
    refine (asleep_back taken asleep).imp_right ?_
    rintro ⟨c, x, todo, l, _, here, locks⟩
    obtain ⟨rfl, _, unmet⟩ := guarded.tested c q todo l here
    exact ⟨by rw [locks, update_self], unmet⟩
  have stays : ∀ c q, s'.lock lk = some c → Asleep ch s' q → Asleep ch s q := by
    intro c q holds asleep
    refine (falls q asleep).resolve_right fun ⟨free, _⟩ => ?_
    cases free.symm.trans holds
  have same : ∀ c d, s'.lock lk = some c → s.lock lk = some d → d = c := by
    intro c d after before
    rcases lock_kept locking taken before with kept | ⟨free, _⟩
    · exact Option.some.inj (kept.symm.trans after)
    · cases free.symm.trans after
  refine ⟨fun free met q asleep => ?_, fun c holds met quiet q asleep => ?_, fun c holds woke => ?_,
    fun c rest holds visits q passed asleep => ?_, fun c p todo l here => ?_⟩
  · have already : cond s := by
      by_contra unmet
      obtain ⟨c, _, _, holds⟩ := disciplined.changes unmet met
      cases free.symm.trans holds
    have before := (falls q asleep).resolve_right fun ⟨_, unmet⟩ => unmet already
    cases holds : s.lock lk with
    | none => exact guarded.free holds already q before
    | some c =>
      by_cases changed : w.changed
      · have woke := disciplined.wakes (by rw [holds]; simp) free changed
        refine (guarded.after c holds woke).resolve_left ?_ q before
        rintro ⟨todo, visits⟩
        obtain ⟨_, x, rfl⟩ := (lock_kept locking taken holds).resolve_left fun kept => by cases free.symm.trans kept
        rw [visits_locks taken visits, holds] at free
        cases free
      · exact guarded.before c holds already changed q before
  · have before := stays c q holds asleep
    cases owned : s.lock lk with
    | none =>
      have already : cond s := by
        by_contra unmet
        obtain ⟨d, _, held, _⟩ := disciplined.changes unmet met
        cases owned.symm.trans held
      exact guarded.free owned already q before
    | some d =>
      obtain rfl := same c d holds owned
      have steady : s'.lock lk = s.lock lk := holds.trans owned.symm
      have already : cond s := by
        by_contra unmet
        exact quiet (decide_eq_true ⟨steady, .inr ⟨unmet, met⟩⟩)
      exact guarded.before d owned already (fun changed => quiet (decide_eq_true ⟨steady, .inl changed⟩)) q before
  · obtain ⟨still, woke⟩ := of_decide_eq_true woke
    have owned : s.lock lk = some c := still.symm.trans holds
    rcases woke with woke | called
    · rcases guarded.after c owned woke with ⟨todo, visits⟩ | awake
      · by_cases mine : ∃ x, e = .cpu c x
        · obtain ⟨x, rfl⟩ := mine
          rcases visits_next taken visits with past | onward
          · exact .inr fun q asleep => guarded.passed c [] owned past q (by simp) (stays c q holds asleep)
          · exact .inl onward
        · exact .inl ⟨todo, by rwa [pc_elsewhere taken fun x equal => mine ⟨x, equal⟩]⟩
      · exact .inr fun q asleep => awake q (stays c q holds asleep)
    · obtain ⟨d, mine, visits⟩ := calls_visits taken called
      obtain rfl := Option.some.inj (mine.symm.trans owned)
      exact .inl ⟨_, visits⟩
  · have before := stays c q holds asleep
    by_cases mine : ∃ x, e = .cpu c x
    · obtain ⟨x, rfl⟩ := mine
      obtain ⟨cmd, does, done⟩ := bind_eq_some_iff.mp taken
      rcases source_visits inv does done visits with full | ⟨todo, earlier, awake⟩
      · exact passed (full q)
      · by_cases member : q ∈ todo
        · exact awake q member passed asleep
        · cases owned : s.lock lk with
          | none => exact (taken_not_visits taken owned holds).2 ch _ earlier
          | some d =>
            obtain rfl := same c d holds owned
            exact guarded.passed d todo owned earlier q member before
    · cases owned : s.lock lk with
      | none => exact mine (taken_not_visits taken owned holds).1
      | some d =>
        obtain rfl := same c d holds owned
        rw [pc_elsewhere taken fun x equal => mine ⟨x, equal⟩] at visits
        exact guarded.passed d rest owned visits q passed before
  · by_cases mine : ∃ x, e = .cpu c x
    · obtain ⟨x, rfl⟩ := mine
      exact disciplined.sleeps c rfl l (by rw [here]; exact if_pos rfl)
    · have elsewhere : ∀ x, e ≠ .cpu c x := fun x equal => mine ⟨x, equal⟩
      rw [pc_elsewhere taken elsewhere] at here
      obtain ⟨rfl, owned, unmet⟩ := guarded.tested c p todo l here
      refine ⟨rfl, (lock_kept locking taken owned).resolve_right fun ⟨_, x, equal⟩ => elsewhere x equal, fun met => ?_⟩
      obtain ⟨d, acts, held, _⟩ := disciplined.changes unmet met
      obtain rfl := Option.some.inj (held.symm.trans owned)
      cases e with
      | cpu d x =>
        cases acts
        exact elsewhere x rfl
      | policy n | drift q accumulator vruntime => cases acts

omit [DecidableEq P] [DecidableEq C] [DecidableEq L] [DecidableEq X] [DecidablePred cond] in
theorem Guarded.init (start : Init s) : Guarded lk ch cond s w := by
  have awake : ∀ q, ¬Asleep ch s q := by
    rintro q (⟨sleeping, _⟩ | ⟨c, todo, l, doze⟩)
    · by_cases first : q = Table.initproc
      · rw [first, start.first] at sleeping
        cases sleeping
      · rw [start.others q first] at sleeping
        cases sleeping
    · rw [(start.idle c).1] at doze
      cases doze
  refine ⟨fun _ _ => awake, fun _ _ _ _ => awake, fun _ _ _ => .inr awake, fun _ _ _ _ q _ => awake q,
    fun c p todo l here => ?_⟩
  rw [(start.idle c).1] at here
  cases here

variable (lk ch cond) in
def WatchedSteps (before after : State P C L X D × Watch) : Prop := ∃ e, watchedStep lk ch cond before e = some after

theorem guarded_of_reachable {x : State P C L X D × Watch}
    (reachable : Reachable (fun x => Init x.1) (WatchedSteps lk ch cond) x) :
    Inv x.1 ∧ Locking x.1 ∧ Guarded lk ch cond x.1 x.2 := by
  refine reachable.invariant (fun x : State P C L X D × Watch => Inv x.1 ∧ Locking x.1 ∧ Guarded lk ch cond x.1 x.2)
    (fun x start => ⟨Inv.init start, Locking.init start, Guarded.init start⟩) ?_
  rintro x y ⟨inv, locking, guarded⟩ ⟨e, watched⟩
  obtain ⟨s', taken, allowed⟩ := bind_eq_some_iff.mp watched
  obtain ⟨disciplined, same⟩ := ite_none_right_eq_some.mp allowed
  cases same
  exact ⟨inv.next taken, locking.next taken, guarded.next inv locking taken disciplined⟩

/-- If the lock is free and the condition is true, nobody is SLEEPING on the channel. -/
theorem no_wakeup_lost (lk : Lock L) (ch : Chan P X) (cond : State P C L X D → Prop) [DecidablePred cond]
    (s : State P C L X D) (w : Watch) (reachable : Reachable (fun x => Init x.1) (WatchedSteps lk ch cond) (s, w))
    (free : s.lock lk = none) (met : cond s) (p : P) :
    ¬((s.proc p).state = .sleeping ∧ (s.proc p).chan = some ch) :=
  fun sleeping => (guarded_of_reachable reachable).2.2.free free met p (.inl sleeping)

/-- The first process runs on CPU 0, takes the lock, finds the condition false and sleeps; then a handler on CPU 1 takes
the lock, makes the condition true, calls wakeup and gives the lock back. -/
def handover : List (Event (Fin NPROC) Nat Unit Unit Bool) :=
  List.replicate 5 (.cpu 0 .run) ++ [.cpu 0 (.acquire ()), .cpu 0 (.sleep () ())] ++ List.replicate 5 (.cpu 0 .run) ++
    [.cpu 1 (.acquire ()), .cpu 1 (.change true), .cpu 1 (.wakeup ())] ++ List.replicate (2 * NPROC + 2) (.cpu 1 .run) ++
    [.cpu 1 (.release ())]

def handedOver : Option (State (Fin NPROC) Nat Unit Unit Bool × Watch) :=
  handover.foldlM (watchedStep (.other ()) (.other ()) (·.data = true)) (booted false, ⟨false, false⟩)

theorem no_wakeup_lost_handover :
    ∃ s w, handedOver = some (s, w) ∧ (s.proc Table.initproc).state = .runnable ∧
      ∀ p, ¬((s.proc p).state = .sleeping ∧ (s.proc p).chan = some (.other ())) := by
  have ends : handedOver.map (fun x => (x.1.lock (.other ()), x.1.data, (x.1.proc Table.initproc).state)) =
      some (none, true, .runnable) := by decide +kernel
  obtain ⟨⟨s, w⟩, played, facts⟩ := map_eq_some_iff.mp ends
  simp only [Prod.mk.injEq] at facts
  obtain ⟨free, met, runnable⟩ := facts
  have start : Reachable (fun x => Init x.1) (WatchedSteps (.other ()) (.other ()) (·.data = true))
    ((booted false, ⟨false, false⟩) : State (Fin NPROC) Nat Unit Unit Bool × Watch) := .init _ (booted_init false)
  have reached := start.foldlM (fun _ e _ taken => ⟨e, taken⟩) played
  exact ⟨s, w, played, runnable, no_wakeup_lost (.other ()) (.other ()) (·.data = true) s w reached free met⟩

end Discipline

end Xv6.Sync.Wakeup
