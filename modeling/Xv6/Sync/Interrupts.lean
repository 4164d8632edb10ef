import Xv6.Lib.Transition

/-! Interrupts and spinlocks: acquire and release by the threads on any number of CPUs, with push_off and pop_off, and the switch
of a process from its CPU to the one it resumes on. A call of acquire is one step, at the time at which it gets the lock. -/

namespace Xv6.Sync.Interrupts
open Lib.Transition
open Function (update update_eq_self update_idem update_of_ne update_self)

section Model

structure Cpu where
  noff : Nat
  intena : Bool
  on : Bool

def push_off (c : Cpu) : Cpu :=
  { noff := c.noff + 1, intena := if c.noff = 0 then c.on else c.intena, on := false }

def pop_off (c : Cpu) : Except String Cpu :=
  if c.on then .error "pop_off - interruptible"
  else if c.noff < 1 then .error "pop_off"
  else
    let c := { c with noff := c.noff - 1 }
    .ok (if c.noff = 0 ∧ c.intena = true then { c with on := true } else c)

variable {C L P : Type}

/-- The CPUs, the locks with the CPU that holds them, the process on each CPU (none while its scheduler runs), and for a process in
sched its variable intena. -/
structure State (C L P : Type) where
  cpu : C → Cpu
  lock : L → Option C
  proc : C → Option P
  saved : P → Option Bool

/-- intr stands for intr_on and intr_off, which no code calls that holds a lock; resume for the swtch of a scheduler. -/
inductive Event (C L P : Type) where
  | acquire (c : C) (l : L)
  | release (c : C) (l : L)
  | myproc (c : C)
  | intr (c : C) (on : Bool)
  | sched (c : C)
  | resume (c : C) (p : P)

variable [DecidableEq C] [DecidableEq L] [DecidableEq P]

/-- A step; none where it cannot happen, an error where the kernel panics. A process in sched has changed its state before. -/
def step (plock : P → L) (s : State C L P) : Event C L P → Option (Except String (State C L P))
  | .acquire c l => match s.lock l with
      | none => some (.ok { s with cpu := update s.cpu c (push_off (s.cpu c)), lock := update s.lock l (some c) })
      | some c' => if c' = c then some (.error "acquire") else none
  | .release c l =>
      if s.lock l = some c then
        some ((pop_off (s.cpu c)).map fun cpu => { s with cpu := update s.cpu c cpu, lock := update s.lock l none })
      else some (.error "release")
  | .myproc c => some ((pop_off (push_off (s.cpu c))).map fun cpu => { s with cpu := update s.cpu c cpu })
  | .intr c on =>
      if (s.cpu c).noff = 0 then some (.ok { s with cpu := update s.cpu c { s.cpu c with on } }) else none
  | .sched c => match s.proc c with
      | none => none
      | some p =>
          if s.lock (plock p) ≠ some c then some (.error "sched p->lock")
          else if (s.cpu c).noff ≠ 1 then some (.error "sched locks")
          else if (s.cpu c).on then some (.error "sched interruptible")
          else some (.ok { s with saved := update s.saved p (some (s.cpu c).intena), proc := update s.proc c none })
  | .resume c p => match s.proc c, s.saved p with
      | none, some intena =>
          if s.lock (plock p) = some c then
            some (.ok { s with
              cpu := update s.cpu c { s.cpu c with intena }
              proc := update s.proc c (some p), saved := update s.saved p none })
          else none
      | _, _ => none

structure Init (s : State C L P) : Prop where
  free : ∀ l, s.lock l = none
  noff : ∀ c, (s.cpu c).noff = 0
  alone : ∀ c d p, s.proc c = some p → s.proc d = some p → c = d
  saved : ∀ p, s.saved p = none

/-- A step that does not panic. -/
def taking (plock : P → L) (s : State C L P) (e : Event C L P) : Option (State C L P) :=
  allowed (fun _ _ => True) (step plock) s e

def acquires (c : C) : Event C L P → Bool
  | .acquire d _ => d = c
  | _ => false

def releases (c : C) : Event C L P → Bool
  | .release d _ => d = c
  | _ => false

/-- The CPU goes on with another thread, or its thread turns interrupts on or off. -/
def redirects (c : C) : Event C L P → Bool
  | .intr d _ | .resume d _ => d = c
  | _ => false

end Model

section Nesting

variable {c : Cpu} {held : ℕ∞}

/-- Whether interrupts will be on when the CPU holds no lock. -/
def flag (c : Cpu) : Bool := if c.noff = 0 then c.on else c.intena

/-- A CPU that holds so many locks. -/
structure Nested (c : Cpu) (held : ℕ∞) : Prop where
  count : (c.noff : ℕ∞) = held
  off : 0 < c.noff → c.on = false

theorem Nested.push (nested : Nested c held) : Nested (push_off c) (held + 1) where
  count := by rw [← nested.count, push_off, Nat.cast_succ]
  off _ := rfl

theorem flag_push (c : Cpu) : flag (push_off c) = flag c := rfl

theorem Nested.pop (nested : Nested c (held + 1)) :
    ∃ c', pop_off c = .ok c' ∧ Nested c' held ∧ flag c' = flag c ∧ c.noff = c'.noff + 1 := by
  obtain ⟨noff, intena, on⟩ := c
  obtain ⟨count, off⟩ := nested
  cases noff with
  | zero => exact absurd count.symm (by simp)
  | succ n =>
    obtain rfl := off n.succ_pos
    have fewer : (n : ℕ∞) = held := by
      rw [Nat.cast_succ] at count
      simpa using count
    refine ⟨_, rfl, ?_⟩
    simp only [Nat.add_sub_cancel]
    by_cases last : n = 0 ∧ intena = true
    · rw [if_pos last]
      exact ⟨⟨fewer, fun more => absurd last.1 more.ne'⟩, by simp [flag, last], rfl⟩
    · rw [if_neg last]
      refine ⟨⟨fewer, fun _ => rfl⟩, ?_, rfl⟩
      by_cases none : n = 0
      · simp [flag, none, Bool.eq_false_iff.mpr fun on => last ⟨none, on⟩]
      · simp [flag, none]

end Nesting

section Runs

variable {C L P : Type} {s s' : State C L P} {plock : P → L}

def held (lock : L → Option C) (c : C) : Set L := { l | lock l = some c }

structure Inv (s : State C L P) : Prop where
  nested : ∀ c, Nested (s.cpu c) (held s.lock c).encard
  alone : ∀ c d p, s.proc c = some p → s.proc d = some p → c = d
  parked : ∀ p intena, s.saved p = some intena → ∀ c, s.proc c ≠ some p

variable [DecidableEq C] [DecidableEq L] [DecidableEq P]

omit [DecidableEq C] in
theorem encard_held_take {lock : L → Option C} {l : L} (free : lock l = none) (c : C) :
    (held (update lock l (some c)) c).encard = (held lock c).encard + 1 := by
  have taken : held (update lock l (some c)) c = insert l (held lock c) := by
    ext x
    by_cases here : x = l
    · simp [held, here]
    · simp [held, here]
  rw [taken, Set.encard_insert_of_notMem (by simp [held, free])]

omit [DecidableEq C] in
theorem held_other {lock : L → Option C} {l : L} {c d : C} (other : d ≠ c) {holder : Option C}
    (mine : lock l = none ∨ lock l = some c) (next : holder = none ∨ holder = some c) :
    held (update lock l holder) d = held lock d := by
  ext x
  by_cases here : x = l
  · rcases mine with mine | mine <;> rcases next with next | next <;> simp [held, here, mine, next, other.symm]
  · simp [held, update_of_ne here]

omit [DecidableEq L] [DecidableEq P] in
theorem nested_update {lock : L → Option C} (inv : ∀ c, Nested (s.cpu c) (held s.lock c).encard) (c : C) {cpu : Cpu}
    (nested : Nested cpu (held lock c).encard) (others : ∀ d ≠ c, held lock d = held s.lock d) (d : C) :
    Nested (update s.cpu c cpu d) (held lock d).encard := by
  by_cases here : d = c
  · rw [here, update_self]
    exact nested
  · rw [update_of_ne here, others d here]
    exact inv d

/-- What a step does to the counts, the flags and the processes that wait to be resumed. -/
structure Effect (s : State C L P) (e : Event C L P) (s' : State C L P) : Prop where
  count : ∀ c, (s.cpu c).noff + (if acquires c e then 1 else 0) = (s'.cpu c).noff + if releases c e then 1 else 0
  flag : ∀ c, redirects c e = false → flag (s'.cpu c) = flag (s.cpu c)
  parked : ∀ p intena, (∀ d, e ≠ .resume d p) → s.saved p = some intena → s'.saved p = some intena

omit [DecidableEq L] in
theorem effect_update (c : C) {cpu : Cpu} {e : Event C L P} (cpus : s'.cpu = update s.cpu c cpu) (saved : s'.saved = s.saved)
    (count : (s.cpu c).noff + (if acquires c e then 1 else 0) = cpu.noff + if releases c e then 1 else 0)
    (others : ∀ d ≠ c, acquires d e = false ∧ releases d e = false) (kept : redirects c e = false → flag cpu = flag (s.cpu c)) :
    Effect s e s' := by
  refine ⟨fun d => ?_, fun d quiet => ?_, fun p intena _ => by rw [saved]; exact id⟩
  · rw [cpus]
    by_cases here : d = c
    · rw [here, update_self]
      exact count
    · rw [update_of_ne here, (others d here).1, (others d here).2]
  · rw [cpus]
    by_cases here : d = c
    · rw [here, update_self]
      exact kept (here ▸ quiet)
    · rw [update_of_ne here]

/-- What a step may end in: a state with the invariant, or a panic other than those of pop_off. -/
def Sound (s : State C L P) (e : Event C L P) : Except String (State C L P) → Prop
  | .ok s' => Inv s' ∧ Effect s e s'
  | .error message => message ≠ "pop_off" ∧ message ≠ "pop_off - interruptible"

theorem Inv.step (inv : Inv s) {e : Event C L P} {r : Except String (State C L P)} (taken : step plock s e = some r) :
    Sound s e r := by
  cases e with
  | acquire c l =>
    simp only [Interrupts.step] at taken
    split at taken
    · rename_i free
      cases taken
      refine ⟨⟨nested_update inv.nested c ?_ fun d other => held_other other (.inl free) (.inr rfl), inv.alone, inv.parked⟩,
        effect_update c rfl rfl (by simp [acquires, releases, push_off]) (fun d other => ?_) fun _ => flag_push _⟩
      · rw [encard_held_take free]
        exact (inv.nested c).push
      · simp [acquires, releases, other.symm]
    · split_ifs at taken
      cases taken
      exact ⟨by decide, by decide⟩
  | release c l =>
    simp only [Interrupts.step] at taken
    split_ifs at taken with mine
    · have before : (held s.lock c).encard = (held (update s.lock l none) c).encard + 1 := by
        rw [← encard_held_take (update_self l none s.lock) c, update_idem, ← mine, update_eq_self]
      obtain ⟨cpu, popped, nested, kept, fewer⟩ := (before ▸ inv.nested c).pop
      rw [popped] at taken
      cases taken
      refine ⟨⟨nested_update inv.nested c nested fun d other => held_other other (.inr mine) (.inl rfl), inv.alone, inv.parked⟩,
        effect_update c rfl rfl (by simp [acquires, releases, fewer]) (fun d other => ?_) fun _ => kept⟩
      simp [acquires, releases, other.symm]
    · cases taken
      exact ⟨by decide, by decide⟩
  | myproc c =>
    obtain ⟨cpu, popped, nested, kept, fewer⟩ := (inv.nested c).push.pop
    simp only [Interrupts.step, popped] at taken
    cases taken
    refine ⟨⟨nested_update inv.nested c nested fun _ _ => rfl, inv.alone, inv.parked⟩,
      effect_update c rfl rfl ?_ (fun _ _ => ⟨rfl, rfl⟩) fun _ => kept⟩
    simpa [acquires, releases, push_off] using fewer
  | intr c on =>
    simp only [Interrupts.step] at taken
    split_ifs at taken with none
    cases taken
    exact ⟨⟨nested_update inv.nested c ⟨(inv.nested c).count, fun some => absurd none some.ne'⟩ fun _ _ => rfl, inv.alone,
      inv.parked⟩, effect_update c rfl rfl rfl (fun _ _ => ⟨rfl, rfl⟩) fun quiet => by simp [redirects] at quiet⟩
  | sched c =>
    simp only [Interrupts.step] at taken
    split at taken
    · cases taken
    · rename_i p here
      split_ifs at taken with lock locks on <;> cases taken
      · exact ⟨by decide, by decide⟩
      · exact ⟨by decide, by decide⟩
      · exact ⟨by decide, by decide⟩
      · have gone : ∀ d q, update s.proc c none d = some q → d ≠ c ∧ s.proc d = some q := by
          intro d q there
          by_cases same : d = c
          · rw [same, update_self] at there
            cases there
          · exact ⟨same, by rwa [update_of_ne same] at there⟩
        refine ⟨⟨inv.nested, fun d d' q first second => ?_, fun q intena saved d there => ?_⟩,
          ⟨fun _ => rfl, fun _ _ => rfl, fun q intena _ saved => ?_⟩⟩
        · exact inv.alone d d' q (gone d q first).2 (gone d' q second).2
        · obtain ⟨other, there⟩ := gone d q there
          by_cases mine : q = p
          · exact other (inv.alone d c p (mine ▸ there) here)
          · simp only [update_of_ne mine] at saved
            exact inv.parked q intena saved d there
        · have mine : q ≠ p := fun same => inv.parked q intena saved c (same ▸ here)
          simpa only [update_of_ne mine] using saved
  | resume c p =>
    simp only [Interrupts.step] at taken
    split at taken
    · rename_i intena _ parked
      split_ifs at taken with lock
      cases taken
      have back : ∀ d q, update s.proc c (some p) d = some q → (d = c ∧ q = p) ∨ (q ≠ p ∧ s.proc d = some q) := by
        intro d q there
        by_cases same : d = c
        · rw [same, update_self] at there
          exact .inl ⟨same, (Option.some.inj there).symm⟩
        · rw [update_of_ne same] at there
          exact .inr ⟨fun mine => inv.parked p intena parked d (mine ▸ there), there⟩
      refine ⟨⟨nested_update inv.nested c ⟨(inv.nested c).count, (inv.nested c).off⟩ fun _ _ => rfl, fun d d' q first second => ?_,
        fun q intena saved d there => ?_⟩, ⟨fun d => ?_, fun d quiet => ?_, fun q intena other saved => ?_⟩⟩
      · rcases back d q first with ⟨rfl, rfl⟩ | ⟨other, there⟩
        · rcases back d' q second with ⟨rfl, -⟩ | ⟨other, -⟩
          · rfl
          · exact absurd rfl other
        · rcases back d' q second with ⟨-, rfl⟩ | ⟨-, there'⟩
          · exact absurd rfl other
          · exact inv.alone d d' q there there'
      · rcases back d q there with ⟨-, rfl⟩ | ⟨other, there⟩
        · simp at saved
        · simp only [update_of_ne other] at saved
          exact inv.parked q intena saved d there
      · by_cases here : d = c
        · simp [acquires, releases, here]
        · simp [acquires, releases, here]
      · have other : d ≠ c := fun same => by simp [redirects, same] at quiet
        simp only [update_of_ne other]
      · have mine : q ≠ p := fun same => other c (same ▸ rfl)
        simpa only [update_of_ne mine] using saved
    · cases taken

theorem Inv.taking (inv : Inv s) {e : Event C L P} (taken : taking plock s e = some s') : Inv s' ∧ Effect s e s' :=
  inv.step (allowed_eq_some taken).2

omit [DecidableEq C] [DecidableEq L] [DecidableEq P] in
theorem Inv.init (init : Init s) : Inv s := by
  refine ⟨fun c => ?_, init.alone, fun p intena saved => ?_⟩
  · have none : held s.lock c = ∅ := by simp [held, init.free]
    rw [none, Set.encard_empty]
    exact ⟨by rw [init.noff, Nat.cast_zero], fun some => absurd (init.noff c) some.ne'⟩
  · cases (init.saved p).symm.trans saved

section Events
variable {events : List (Event C L P)}

theorem Inv.run (inv : Inv s) (played : events.foldlM (Interrupts.taking plock) s = some s') : Inv s' :=
  (Reachable.foldlM (fun _ _ _ taken inv => (Inv.taking inv taken).1) (.init s inv) played).invariant Inv (fun _ => id)
    fun _ _ inv next => next inv

theorem Inv.counts (inv : Inv s) (played : events.foldlM (Interrupts.taking plock) s = some s') (c : C) :
    (s.cpu c).noff + events.countP (acquires c) = (s'.cpu c).noff + events.countP (releases c) := by
  induction events generalizing s with
  | nil =>
    cases played
    rfl
  | cons e rest ih =>
    obtain ⟨mid, first, later⟩ := Option.bind_eq_some_iff.mp played
    obtain ⟨inv', effect⟩ := inv.taking first
    have one := effect.count c
    have others := ih inv' later
    rw [List.countP_cons, List.countP_cons]
    omega

theorem Inv.flags (inv : Inv s) (played : events.foldlM (Interrupts.taking plock) s = some s') {c : C}
    (quiet : ∀ e ∈ events, redirects c e = false) : flag (s'.cpu c) = flag (s.cpu c) := by
  induction events generalizing s with
  | nil =>
    cases played
    rfl
  | cons e rest ih =>
    obtain ⟨mid, first, later⟩ := Option.bind_eq_some_iff.mp played
    obtain ⟨inv', effect⟩ := inv.taking first
    obtain ⟨here, others⟩ := List.forall_mem_cons.mp quiet
    exact (ih inv' later others).trans (effect.flag c here)

theorem Inv.waits (inv : Inv s) (played : events.foldlM (Interrupts.taking plock) s = some s') {p : P} {intena : Bool}
    (away : ∀ d, .resume d p ∉ events) (saved : s.saved p = some intena) : s'.saved p = some intena := by
  induction events generalizing s with
  | nil =>
    cases played
    exact saved
  | cons e rest ih =>
    obtain ⟨mid, first, later⟩ := Option.bind_eq_some_iff.mp played
    obtain ⟨inv', effect⟩ := inv.taking first
    refine ih inv' later (fun d member => away d (List.mem_cons_of_mem _ member)) (effect.parked p intena (fun d same => ?_) saved)
    exact away d (same ▸ List.mem_cons_self)

end Events

theorem sched_saves {c : C} {p : P} (here : s.proc c = some p) (taken : taking plock s (.sched c) = some s') :
    s'.saved p = some (flag (s.cpu c)) := by
  have ran := (allowed_eq_some taken).2
  simp only [step, here] at ran
  split_ifs at ran with lock locks on <;> cases ran
  have nonzero : (s.cpu c).noff ≠ 0 := by omega
  simp [flag, nonzero]

theorem Inv.resumes (inv : Inv s) {d : C} {p : P} {intena : Bool} (saved : s.saved p = some intena)
    (taken : Interrupts.taking plock s (.resume d p) = some s') : s'.proc d = some p ∧ flag (s'.cpu d) = intena := by
  have ran := (allowed_eq_some taken).2
  simp only [Interrupts.step, saved] at ran
  split at ran
  · rename_i same
    cases same
    split_ifs at ran with lock
    cases ran
    -- the scheduler that switches to the process has its lock
    have nonempty : (held s.lock d).encard ≠ 0 := Set.encard_ne_zero.mpr ⟨plock p, lock⟩
    rw [← (inv.nested d).count] at nonempty
    have nonzero : (s.cpu d).noff ≠ 0 := Nat.cast_ne_zero.mp nonempty
    simp [flag, nonzero]
  · cases ran

/-- After any events the count of a CPU is that of its acquires that were not followed by a release, interrupts are off while
it is not zero, and whether they are on when it is zero is as before unless the thread on the CPU changed that or another one
was resumed; a process takes this along through sched to the CPU on which it is resumed; pop_off does not panic. -/
theorem interrupts_balanced (init : Init s) {events : List (Event C L P)} (played : events.foldlM (taking plock) s = some s') :
    (∀ c, events.countP (acquires c) = (s'.cpu c).noff + events.countP (releases c) ∧
      (0 < (s'.cpu c).noff → (s'.cpu c).on = false)) ∧
    (∀ e message, step plock s' e = some (.error message) → message ≠ "pop_off" ∧ message ≠ "pop_off - interruptible") ∧
    (∀ c (later : List (Event C L P)) s'', later.foldlM (taking plock) s' = some s'' → (∀ e ∈ later, redirects c e = false) →
      flag (s''.cpu c) = flag (s'.cpu c)) ∧
    ∀ c p s₁ (later : List (Event C L P)) s₂ d s₃, s'.proc c = some p → taking plock s' (.sched c) = some s₁ →
      later.foldlM (taking plock) s₁ = some s₂ → (∀ d, .resume d p ∉ later) → taking plock s₂ (.resume d p) = some s₃ →
      s₃.proc d = some p ∧ flag (s₃.cpu d) = flag (s'.cpu c) := by
  have first := Inv.init init
  have inv := first.run played
  refine ⟨fun c => ⟨?_, (inv.nested c).off⟩, fun e message taken => inv.step taken, fun c later s'' runs quiet => inv.flags runs quiet, ?_⟩
  · have counts := first.counts played c
    rw [init.noff c] at counts
    omega
  · intro c p s₁ later s₂ d s₃ here parks runs away resumed
    have inv₁ := (inv.taking parks).1
    exact (inv₁.run runs).resumes (inv₁.waits runs away (sched_saves here parks)) resumed

def begun : State Bool Bool Unit where
  cpu _ := ⟨0, false, true⟩
  lock _ := none
  proc c := if c then none else some ()
  saved _ := none

/-- The locks are released in the order in which they were taken; the second one is that of the process. -/
def nested : List (Event Bool Bool Unit) :=
  [.acquire false false, .myproc false, .acquire false true, .release false false]

def handover : List (Event Bool Bool Unit) := [.release false true, .intr false false, .acquire true true]

theorem interrupts_balanced_migrated : ∃ s s₁ s₂ s₃ s₄, nested.foldlM (taking fun _ => true) begun = some s ∧
    taking (fun _ => true) s (.sched false) = some s₁ ∧ handover.foldlM (taking fun _ => true) s₁ = some s₂ ∧
    taking (fun _ => true) s₂ (.resume true ()) = some s₃ ∧ taking (fun _ => true) s₃ (.release true true) = some s₄ ∧
    nested.countP (acquires false) = (s.cpu false).noff + nested.countP (releases false) ∧ (s.cpu false).on = false ∧
    flag (s₃.cpu true) = flag (s.cpu false) ∧ (s₄.cpu true).on = true := by
  have played : ((nested.foldlM (taking fun _ => true) begun).bind fun s => (taking (fun _ => true) s (.sched false)).bind fun s₁ =>
      (handover.foldlM (taking fun _ => true) s₁).bind fun s₂ => (taking (fun _ => true) s₂ (.resume true ())).bind fun s₃ =>
        (taking (fun _ => true) s₃ (.release true true)).map fun s₄ =>
          ((s.cpu false).noff, s.proc false, (s₄.cpu true).on)) = some (1, some (), true) := by
    decide
  obtain ⟨s, found, played⟩ := Option.bind_eq_some_iff.mp played
  obtain ⟨s₁, parks, played⟩ := Option.bind_eq_some_iff.mp played
  obtain ⟨s₂, runs, played⟩ := Option.bind_eq_some_iff.mp played
  obtain ⟨s₃, resumed, played⟩ := Option.bind_eq_some_iff.mp played
  obtain ⟨s₄, released, facts⟩ := Option.map_eq_some_iff.mp played
  simp only [Prod.mk.injEq] at facts
  obtain ⟨noff, here, on⟩ := facts
  have init : Init begun := ⟨fun _ => rfl, fun _ => rfl, by decide, fun _ => rfl⟩
  obtain ⟨counts, -, -, swtch⟩ := interrupts_balanced init found
  exact ⟨s, s₁, s₂, s₃, s₄, found, parks, runs, resumed, released, (counts false).1, (counts false).2 (by omega),
    (swtch false () s₁ handover s₂ true s₃ here parks runs (by simp [handover]) resumed).2, on⟩

end Runs

end Xv6.Sync.Interrupts
