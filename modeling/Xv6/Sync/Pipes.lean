import Xv6.Lib.Bytes
import Xv6.Lib.Queue
import Xv6.Lib.Transition

/-! Pipes: pipewrite and piperead by any number of processes, one iteration of a loop at a time. The lock of the
pipe is held from acquire to sleep or return; a process that sleeps may wake up at any time. -/

namespace Xv6.Sync.Pipes
open Lib.Queue Lib.Transition
open Lib.Bytes (Byte)
open Function (update update_of_ne update_self)

def PIPESIZE : Nat := 512

structure Pipe where
  data : Nat → Byte
  nread : BitVec 32
  nwrite : BitVec 32
  readopen : Bool
  writeopen : Bool

/-- Where a process is in a call: it waits for the lock (also while it sleeps), or it holds the lock, at the top of
a loop. What copyin gets for every byte and whether copyout succeeds is fixed by the caller's memory. -/
inductive Pc where
  | returned (result : Int)
  | writeWait (n : Int) (source : Nat → Option Byte) (i : Nat)
  | writing (n : Int) (source : Nat → Option Byte) (i : Nat)
  | readWait (n : Int) (writable : Nat → Bool)
  | testing (n : Int) (writable : Nat → Bool)
  | reading (n : Int) (writable : Nat → Bool) (i : Nat)

variable {P : Type}

/-- A pipe and its users. The last two fields only watch: the bytes accepted from writers and delivered to readers,
each with the process whose call moved it. -/
structure State (P : Type) where
  pi : Pipe
  lock : Option P
  killed : P → Bool
  pc : P → Pc
  accepted : List (P × Byte)
  delivered : List (P × Byte)

inductive Event (P : Type) where
  | write (p : P) (n : Int) (source : Nat → Option Byte)
  | read (p : P) (n : Int) (writable : Nat → Bool)
  | acquire (p : P)
  | run (p : P)
  | kill (p : P)
  | close (writable : Bool)

def bytes (log : List (P × Byte)) : List Byte := log.map Prod.snd

variable [DecidableEq P]

def State.move (s : State P) (p : P) (pc : Pc) : State P := { s with pc := update s.pc p pc }

def State.release (s : State P) (p : P) (pc : Pc) : State P := { s.move p pc with lock := none }

def pipewrite (s : State P) (p : P) (n : Int) (source : Nat → Option Byte) (i : Nat) : State P :=
  if (i : Int) < n then
    if s.pi.readopen = false ∨ s.killed p then s.release p (.returned (-1))
    else if s.pi.nwrite = s.pi.nread + BitVec.ofNat 32 PIPESIZE then s.release p (.writeWait n source i)
    else match source i with
      | none => s.release p (.returned i)
      | some ch => { s.move p (.writing n source (i + 1)) with
          pi := { s.pi with
            data := update s.pi.data (s.pi.nwrite.toNat % PIPESIZE) ch, nwrite := s.pi.nwrite + 1 }
          accepted := s.accepted ++ [(p, ch)] }
  else s.release p (.returned i)

def pipetest (s : State P) (p : P) (n : Int) (writable : Nat → Bool) : State P :=
  if s.pi.nread = s.pi.nwrite ∧ s.pi.writeopen then
    if s.killed p then s.release p (.returned (-1)) else s.release p (.readWait n writable)
  else s.move p (.reading n writable 0)

def piperead (s : State P) (p : P) (n : Int) (writable : Nat → Bool) (i : Nat) : State P :=
  if (i : Int) < n then
    if s.pi.nread = s.pi.nwrite then s.release p (.returned i)
    else
      let ch := s.pi.data (s.pi.nread.toNat % PIPESIZE)
      let s := { s with pi := { s.pi with nread := s.pi.nread + 1 } }
      -- a byte that copyout cannot store is lost
      if writable i then { s.move p (.reading n writable (i + 1)) with delivered := s.delivered ++ [(p, ch)] }
      else s.release p (.returned i)
  else s.release p (.returned i)

def pipeclose (pi : Pipe) (writable : Bool) : Pipe :=
  if writable then { pi with writeopen := false } else { pi with readopen := false }

def step (s : State P) : Event P → Option (State P)
  | .write p n source => match s.pc p with
      | .returned _ => some (s.move p (.writeWait n source 0))
      | _ => none
  | .read p n writable => match s.pc p with
      | .returned _ => some (s.move p (.readWait n writable))
      | _ => none
  | .acquire p =>
      if s.lock = none then match s.pc p with
        | .writeWait n source i => some { s.move p (.writing n source i) with lock := some p }
        | .readWait n writable => some { s.move p (.testing n writable) with lock := some p }
        | _ => none
      else none
  | .run p => match s.pc p with
      | .writing n source i => some (pipewrite s p n source i)
      | .testing n writable => some (pipetest s p n writable)
      | .reading n writable i => some (piperead s p n writable i)
      | _ => none
  | .kill p => some { s with killed := update s.killed p true }
  | .close writable => if s.lock = none then some { s with pi := pipeclose s.pi writable } else none

/-- Readers pass buffers that copyout can write. -/
def Writable : Event P → Prop
  | .read _ _ writable => ∀ i, writable i = true
  | _ => True

def Steps (s s' : State P) : Prop := ∃ e, Writable e ∧ step s e = some s'

structure Init (s : State P) : Prop where
  counters : s.pi.nread = 0 ∧ s.pi.nwrite = 0
  free : s.lock = none
  outside : ∀ p, ∃ result, s.pc p = .returned result
  nothing : s.accepted = [] ∧ s.delivered = []

section Invariant

def holds : Pc → Bool
  | .writing .. | .testing .. | .reading .. => true
  | _ => false

/-- A reader in its second loop that has no byte yet will get one, or the write end is closed; and copyout can
write its buffer. -/
def Ready (pi : Pipe) : Pc → Prop
  | .readWait _ writable | .testing _ writable => ∀ i, writable i = true
  | .reading _ writable i => (∀ i, writable i = true) ∧ (i = 0 → pi.nread ≠ pi.nwrite ∨ pi.writeopen = false)
  | _ => True

structure Inv (s : State P) : Prop where
  fifo : Fifo PIPESIZE s.pi.nread s.pi.nwrite s.pi.data (bytes s.accepted) (bytes s.delivered)
  owner : ∀ p, holds (s.pc p) = true → s.lock = some p
  ready : ∀ p, Ready s.pi (s.pc p)

omit [DecidableEq P] in
theorem bytes_concat (log : List (P × Byte)) (p : P) (ch : Byte) : bytes (log ++ [(p, ch)]) = bytes log ++ [ch] :=
  List.map_append

theorem size_divides : PIPESIZE ∣ 2 ^ 32 := ⟨8388608, by decide⟩

theorem size_small : PIPESIZE < 2 ^ 32 := by decide

variable {pc : Pc}

theorem ready_outside (outside : holds pc = false) {pi : Pipe} (pi' : Pipe) (ready : Ready pi pc) : Ready pi' pc := by
  cases pc with
  | reading => cases outside
  | _ => exact ready

variable {s : State P} {p : P}

section
variable (inv : Inv s)
include inv

omit [DecidableEq P] in
theorem Inv.others (mine : s.lock = some p) (q : P) (other : q ≠ p) : holds (s.pc q) = false := by
  by_contra here
  have owner := inv.owner q (by simpa using here)
  exact other (Option.some.inj (owner.symm.trans mine))

omit [DecidableEq P] in
theorem Inv.outside (free : s.lock = none) (q : P) : holds (s.pc q) = false := by
  by_contra here
  cases (inv.owner q (by simpa using here)).symm.trans free

theorem Inv.moved {pi : Pipe} {lock : Option P} {accepted delivered : List (P × Byte)}
    (fifo : Fifo PIPESIZE pi.nread pi.nwrite pi.data (bytes accepted) (bytes delivered)) (owner : holds pc = true → lock = some p)
    (ready : Ready pi pc)
    (rest : ∀ q, q ≠ p → (holds (s.pc q) = true → lock = some q) ∧ (holds (s.pc q) = true → pi = s.pi)) :
    Inv { s.move p pc with pi := pi, lock := lock, accepted := accepted, delivered := delivered } := by
  refine ⟨fifo, fun q here => ?_, fun q => ?_⟩
  · by_cases same : q = p
    · subst same
      simp only [State.move, update_self] at here
      exact owner here
    · simp only [State.move, update_of_ne same] at here
      exact (rest q same).1 here
  · by_cases same : q = p
    · subst same
      simpa only [State.move, update_self] using ready
    · simp only [State.move, update_of_ne same]
      cases here : holds (s.pc q) with
      | false => exact ready_outside here pi (inv.ready q)
      | true =>
        rw [(rest q same).2 here]
        exact inv.ready q

theorem Inv.section (mine : s.lock = some p) {pi : Pipe} {lock : Option P}
    {accepted delivered : List (P × Byte)}
    (fifo : Fifo PIPESIZE pi.nread pi.nwrite pi.data (bytes accepted) (bytes delivered))
    (owner : holds pc = true → lock = some p) (ready : Ready pi pc) :
    Inv { s.move p pc with pi := pi, lock := lock, accepted := accepted, delivered := delivered } := by
  have outside : ∀ q, q ≠ p → holds (s.pc q) ≠ true := fun q other here => by
    rw [inv.others mine q other] at here
    cases here
  exact inv.moved fifo owner ready fun q other => ⟨fun here => (outside q other here).elim, fun here => (outside q other here).elim⟩

theorem Inv.called (outside : holds pc = false) (ready : Ready s.pi pc) : Inv (s.move p pc) :=
  inv.moved inv.fifo (fun here => absurd (outside.symm.trans here) (by decide)) ready
    fun q _ => ⟨inv.owner q, fun _ => rfl⟩

theorem Inv.acquired (free : s.lock = none) (ready : Ready s.pi pc) : Inv { s.move p pc with lock := some p } := by
  refine inv.moved inv.fifo (fun _ => rfl) ready fun q _ => ⟨fun here => ?_, fun _ => rfl⟩
  rw [inv.outside free q] at here
  cases here

theorem Inv.pipewrite (mine : s.lock = some p) (n : Int) (source : Nat → Option Byte) (i : Nat) :
    Inv (pipewrite s p n source i) := by
  unfold Pipes.pipewrite
  split_ifs with more stop full
  · exact inv.section mine inv.fifo nofun trivial
  · exact inv.section mine inv.fifo nofun trivial
  · cases source i with
    | none => exact inv.section mine inv.fifo nofun trivial
    | some ch =>
      have room := inv.fifo.room
      have notFull := mt (inv.fifo.full_iff size_small).mpr full
      have pushed := inv.fifo.push size_divides (by omega) ch
      rw [← bytes_concat _ p] at pushed
      exact inv.section mine pushed (fun _ => mine) trivial
  · exact inv.section mine inv.fifo nofun trivial

theorem Inv.pipetest (mine : s.lock = some p) (n : Int) (writable : Nat → Bool)
    (ready : ∀ i, writable i = true) : Inv (pipetest s p n writable) := by
  unfold Pipes.pipetest
  split_ifs with empty stop
  · exact inv.section mine inv.fifo nofun trivial
  · exact inv.section mine inv.fifo nofun ready
  · refine inv.section mine inv.fifo (fun _ => mine) ⟨ready, fun _ => ?_⟩
    by_cases same : s.pi.nread = s.pi.nwrite
    · exact .inr (by simpa using not_and.mp empty same)
    · exact .inl same

theorem Inv.piperead (mine : s.lock = some p) (n : Int) (writable : Nat → Bool) (i : Nat)
    (ready : ∀ i, writable i = true) : Inv (piperead s p n writable i) := by
  unfold Pipes.piperead
  split_ifs with more empty there
  · exact inv.section mine inv.fifo nofun trivial
  · have popped := inv.fifo.pop size_divides (mt (inv.fifo.empty_iff size_small).mpr empty)
    rw [← bytes_concat _ p] at popped
    exact inv.section mine popped (fun _ => mine) ⟨ready, fun impossible => absurd impossible (Nat.succ_ne_zero i)⟩
  · exact absurd (ready i) there
  · exact inv.section mine inv.fifo nofun trivial

theorem Inv.next {s' : State P} {e : Event P} (fits : Writable e) (taken : step s e = some s') : Inv s' := by
  cases e with
  | write p n source =>
    simp only [step] at taken
    split at taken
    · cases taken
      exact inv.called rfl trivial
    · cases taken
  | read p n writable =>
    simp only [step] at taken
    split at taken
    · cases taken
      exact inv.called rfl fits
    · cases taken
  | acquire p =>
    simp only [step] at taken
    split_ifs at taken with free
    split at taken
    next n source i here =>
      cases taken
      exact inv.acquired free trivial
    next n writable here =>
      cases taken
      have ready := inv.ready p
      rw [here] at ready
      exact inv.acquired free ready
    next => cases taken
  | run p =>
    simp only [step] at taken
    split at taken
    next n source i here =>
      cases taken
      exact inv.pipewrite (inv.owner p (by rw [here]; rfl)) n source i
    next n writable here =>
      cases taken
      have ready := inv.ready p
      rw [here] at ready
      exact inv.pipetest (inv.owner p (by rw [here]; rfl)) n writable ready
    next n writable i here =>
      cases taken
      have ready := inv.ready p
      rw [here] at ready
      exact inv.piperead (inv.owner p (by rw [here]; rfl)) n writable i ready.1
    next => cases taken
  | kill p =>
    cases taken
    exact ⟨inv.fifo, inv.owner, inv.ready⟩
  | close writable =>
    simp only [step] at taken
    split_ifs at taken with free
    cases taken
    refine ⟨?_, inv.owner, fun q => ready_outside (inv.outside free q) _ (inv.ready q)⟩
    have fifo := inv.fifo
    cases writable <;> exact fifo

end

omit [DecidableEq P] in
theorem Inv.init (start : Init s) : Inv s := by
  obtain ⟨nread, nwrite⟩ := start.counters
  obtain ⟨accepted, delivered⟩ := start.nothing
  refine ⟨?_, fun q here => ?_, fun q => ?_⟩
  · rw [nread, nwrite, accepted, delivered]
    exact ⟨⟨[], rfl⟩, Nat.zero_le _, rfl, rfl, fun _ _ impossible => nomatch impossible⟩
  · obtain ⟨result, outside⟩ := start.outside q
    rw [outside] at here
    cases here
  · obtain ⟨result, outside⟩ := start.outside q
    rw [outside]
    trivial

theorem Inv.of_reachable (reachable : Reachable Init Steps s) : Inv s :=
  reachable.invariant Inv (fun _ => Inv.init) (fun _ _ inv ⟨_, fits, taken⟩ => inv.next fits taken)

end Invariant

section Results
variable {s s' : State P}

/-- How many bytes the caller of piperead wants. -/
def wanted : Pc → Option Int
  | .readWait n _ | .testing n _ | .reading n _ _ => some n
  | _ => none

theorem move_self (s : State P) (p : P) (pc : Pc) : (s.move p pc).pc p = pc := update_self _ _ _

theorem piperead_zero (inv : Inv s) {p : P} {n : Int} {writable : Nat → Bool} {i : Nat} (here : s.pc p = .reading n writable i)
    (zero : (piperead s p n writable i).pc p = .returned 0) : n ≤ 0 ∨ (s.pi.writeopen = false ∧ bytes s.delivered = bytes s.accepted) := by
  have ready := inv.ready p
  rw [here] at ready
  unfold piperead at zero
  split_ifs at zero with more empty there
  · simp only [State.release, move_self, Pc.returned.injEq] at zero
    have closed := (ready.2 (by omega)).resolve_left fun other => other empty
    exact .inr ⟨closed, (inv.fifo.empty_iff size_small).mp empty⟩
  · simp only [move_self] at zero
    cases zero
  · exact absurd (ready.1 i) there
  · simp only [State.release, move_self, Pc.returned.injEq] at zero
    exact .inl (by omega)

theorem pipetest_nonzero (s : State P) (p : P) (n : Int) (writable : Nat → Bool) :
    (pipetest s p n writable).pc p ≠ .returned 0 := by
  unfold pipetest
  split_ifs <;> simp [State.release, move_self]

def actor : Event P → Option P
  | .write p _ _ | .read p _ _ | .acquire p | .run p => some p
  | .kill _ | .close _ => none

/-- The bytes that the calls of a process moved. -/
def bytesOf (p : P) (log : List (P × Byte)) : List Byte := bytes (log.filter fun entry => entry.1 = p)

theorem bytesOf_self (log : List (P × Byte)) (p : P) (ch : Byte) :
    bytesOf p (log ++ [(p, ch)]) = bytesOf p log ++ [ch] := by
  simp [bytesOf, bytes]

theorem bytesOf_other {p q : P} (other : q ≠ p) (log : List (P × Byte)) (ch : Byte) :
    bytesOf q (log ++ [(p, ch)]) = bytesOf q log := by
  simp [bytesOf, other.symm]

/-- Nothing of the process has changed. -/
structure Kept (q : P) (s s' : State P) : Prop where
  pc : s'.pc q = s.pc q
  sent : bytesOf q s'.accepted = bytesOf q s.accepted
  got : bytesOf q s'.delivered = bytesOf q s.delivered

section Frames
variable {p q : P} (s) (pc : Pc) (other : q ≠ p)
include other

theorem kept_move : Kept q s (s.move p pc) := ⟨update_of_ne other _ _, rfl, rfl⟩

theorem kept_release : Kept q s (s.release p pc) := ⟨update_of_ne other _ _, rfl, rfl⟩

theorem kept_pipewrite (n : Int) (source : Nat → Option Byte) (i : Nat) : Kept q s (pipewrite s p n source i) := by
  unfold pipewrite
  split_ifs
  · exact kept_release s _ other
  · exact kept_release s _ other
  · cases source i with
    | none => exact kept_release s _ other
    | some ch => exact ⟨update_of_ne other _ _, bytesOf_other other _ _, rfl⟩
  · exact kept_release s _ other

theorem kept_pipetest (n : Int) (writable : Nat → Bool) : Kept q s (pipetest s p n writable) := by
  unfold pipetest
  split_ifs
  · exact kept_release s _ other
  · exact kept_release s _ other
  · exact kept_move s _ other

theorem kept_piperead (n : Int) (writable : Nat → Bool) (i : Nat) : Kept q s (piperead s p n writable i) := by
  unfold piperead
  split_ifs
  · exact kept_release s _ other
  · exact ⟨update_of_ne other _ _, rfl, bytesOf_other other _ _⟩
  · exact ⟨update_of_ne other _ _, rfl, rfl⟩
  · exact kept_release s _ other

end Frames

theorem kept_step {e : Event P} (taken : step s e = some s') {q : P} (other : actor e ≠ some q) : Kept q s s' := by
  have apart : ∀ p, actor e = some p → q ≠ p := fun p mine same => other (same ▸ mine)
  cases e with
  | write p n source | read p n writable =>
    simp only [step] at taken
    split at taken
    · cases taken
      exact kept_move s _ (apart p rfl)
    · cases taken
  | acquire p =>
    simp only [step] at taken
    split_ifs at taken
    split at taken
    · cases taken
      exact ⟨update_of_ne (apart p rfl) _ _, rfl, rfl⟩
    · cases taken
      exact ⟨update_of_ne (apart p rfl) _ _, rfl, rfl⟩
    · cases taken
  | run p =>
    simp only [step] at taken
    split at taken
    · cases taken
      exact kept_pipewrite s (apart p rfl) _ _ _
    · cases taken
      exact kept_pipetest s (apart p rfl) _ _
    · cases taken
      exact kept_piperead s (apart p rfl) _ _ _
    · cases taken
  | kill p =>
    cases taken
    exact ⟨rfl, rfl, rfl⟩
  | close writable =>
    simp only [step] at taken
    split_ifs at taken
    cases taken
    exact ⟨rfl, rfl, rfl⟩

/-- What a step can be for a process in a call: one of another process, or its own next one. -/
inductive Turn (p : P) (s : State P) : State P → Prop
  | other {s' : State P} (kept : Kept p s s') : Turn p s s'
  | lockWrite (n : Int) (source : Nat → Option Byte) (i : Nat) (here : s.pc p = .writeWait n source i) :
      Turn p s { s.move p (.writing n source i) with lock := some p }
  | lockRead (n : Int) (writable : Nat → Bool) (here : s.pc p = .readWait n writable) :
      Turn p s { s.move p (.testing n writable) with lock := some p }
  | write (n : Int) (source : Nat → Option Byte) (i : Nat) (here : s.pc p = .writing n source i) :
      Turn p s (pipewrite s p n source i)
  | test (n : Int) (writable : Nat → Bool) (here : s.pc p = .testing n writable) : Turn p s (pipetest s p n writable)
  | read (n : Int) (writable : Nat → Bool) (i : Nat) (here : s.pc p = .reading n writable i) :
      Turn p s (piperead s p n writable i)

theorem turn_of_step {e : Event P} (taken : step s e = some s') {p : P} (inside : ∀ result, s.pc p ≠ .returned result) :
    Turn p s s' := by
  by_cases mine : actor e = some p
  · cases e with
    | write q n source | read q n writable =>
      obtain rfl := Option.some.inj mine
      simp only [step] at taken
      cases taken
    | acquire q =>
      obtain rfl := Option.some.inj mine
      simp only [step] at taken
      split_ifs at taken
      split at taken
      next n source i here =>
        cases taken
        exact .lockWrite n source i here
      next n writable here =>
        cases taken
        exact .lockRead n writable here
      next => cases taken
    | run q =>
      obtain rfl := Option.some.inj mine
      simp only [step] at taken
      split at taken
      next n source i here =>
        cases taken
        exact .write n source i here
      next n writable here =>
        cases taken
        exact .test n writable here
      next n writable i here =>
        cases taken
        exact .read n writable i here
      next => cases taken
    | kill q | close writable => cases mine
  · exact .other (kept_step taken mine)

/-- How far a call of pipewrite is that has put these bytes into the pipe. -/
def Sending (n : Int) (source : Nat → Option Byte) (sent : List Byte) : Pc → Prop
  | .writeWait m bytes i | .writing m bytes i => (m = n ∧ bytes = source) ∧ i = sent.length
  | .returned result => result = sent.length ∨ result = -1
  | _ => False

/-- How far a call of piperead is that has taken these bytes out of the pipe. -/
def Getting (n : Int) (got : List Byte) : Pc → Prop
  | .readWait m _ | .testing m _ => m = n ∧ got = []
  | .reading m _ i => m = n ∧ i = got.length
  | .returned result => result = got.length ∨ (result = -1 ∧ got = [])
  | _ => False

/-- The bytes are those that the caller passed, from the first on. -/
def Passed (n : Int) (source : Nat → Option Byte) (sent : List Byte) : Prop :=
  sent.length ≤ n.toNat ∧ sent.map some = (List.range sent.length).map source

theorem Passed.snoc {n : Int} {source : Nat → Option Byte} {sent : List Byte} (passed : Passed n source sent)
    (more : (sent.length : Int) < n) {ch : Byte} (here : source sent.length = some ch) :
    Passed n source (sent ++ [ch]) := by
  refine ⟨by rw [List.length_append, List.length_singleton]; omega, ?_⟩
  rw [List.map_append, passed.2, List.length_append, List.length_singleton, List.range_succ, List.map_append]
  simp [here]

section Calls
variable {p : P} {n : Int} {base : List Byte}

/-- What the process has put into the pipe since its call of pipewrite began. -/
def Sent (p : P) (n : Int) (source : Nat → Option Byte) (base : List Byte) (s : State P) : Prop :=
  ∃ sent, bytesOf p s.accepted = base ++ sent ∧ Passed n source sent ∧ Sending n source sent (s.pc p)

def Got (p : P) (n : Int) (base : List Byte) (s : State P) : Prop :=
  ∃ got, bytesOf p s.delivered = base ++ got ∧ got.length ≤ n.toNat ∧ Getting n got (s.pc p)

theorem Sent.pipewrite {source : Nat → Option Byte} {sent : List Byte}
    (log : bytesOf p s.accepted = base ++ sent) (passed : Passed n source sent) :
    Sent p n source base (pipewrite s p n source sent.length) := by
  have released : ∀ pc, Sending n source sent pc → Sent p n source base (s.release p pc) := by
    intro pc sending
    exact ⟨sent, log, passed, (move_self s p pc).symm ▸ sending⟩
  unfold Pipes.pipewrite
  split_ifs with more stop full
  · exact released _ (.inr rfl)
  · exact released _ ⟨⟨rfl, rfl⟩, rfl⟩
  · cases here : source sent.length with
    | none => exact released _ (.inl rfl)
    | some ch =>
      refine ⟨sent ++ [ch], ?_, passed.snoc more here, ?_⟩
      · exact (bytesOf_self _ _ _).trans (by rw [log, List.append_assoc])
      · simp only [move_self]
        exact ⟨⟨rfl, rfl⟩, (@List.length_append _ _ [ch]).symm⟩
  · exact released _ (.inl rfl)

theorem Got.pipetest {got : List Byte} (log : bytesOf p s.delivered = base ++ got) (none : got = [])
    (writable : Nat → Bool) : Got p n base (pipetest s p n writable) := by
  subst none
  have moved : ∀ pc, Getting n [] pc → Got p n base (s.move p pc) := by
    intro pc getting
    exact ⟨[], log, Nat.zero_le _, (move_self s p pc).symm ▸ getting⟩
  unfold Pipes.pipetest
  split_ifs
  · exact moved _ (.inr ⟨rfl, rfl⟩)
  · exact moved _ ⟨rfl, rfl⟩
  · exact moved _ ⟨rfl, rfl⟩

theorem Got.piperead {got : List Byte} (log : bytesOf p s.delivered = base ++ got) (few : got.length ≤ n.toNat)
    (writable : Nat → Bool) : Got p n base (piperead s p n writable got.length) := by
  have stopped : ∀ s' : State P, s'.pc p = .returned got.length → s'.delivered = s.delivered → Got p n base s' := by
    intro s' returned same
    exact ⟨got, by rw [same, log], few, by rw [returned]; exact .inl rfl⟩
  unfold Pipes.piperead
  split_ifs with more empty there
  · exact stopped _ (move_self s p _) rfl
  · refine ⟨got ++ [s.pi.data (s.pi.nread.toNat % PIPESIZE)], ?_, ?_, ?_⟩
    · exact (bytesOf_self _ _ _).trans (by rw [log, List.append_assoc])
    · rw [List.length_append, List.length_singleton]
      omega
    · simp only [move_self]
      exact ⟨rfl, (@List.length_append _ _ [_]).symm⟩
  · exact stopped _ (move_self _ p _) rfl
  · exact stopped _ (move_self s p _) rfl

/-- A step while the process is in its call. -/
def InCall (p : P) (s s' : State P) : Prop := (∃ e, step s e = some s') ∧ ∀ result, s.pc p ≠ .returned result

theorem Sent.next {source : Nat → Option Byte} (call : Sent p n source base s) (next : InCall p s s') :
    Sent p n source base s' := by
  obtain ⟨⟨e, taken⟩, inside⟩ := next
  obtain ⟨sent, log, passed, sending⟩ := call
  cases turn_of_step taken inside with
  | other kept => exact ⟨sent, kept.sent.trans log, passed, kept.pc ▸ sending⟩
  | lockWrite m bytes i here =>
    rw [here] at sending
    exact ⟨sent, log, passed, by simp only [move_self]; exact sending⟩
  | write m bytes i here =>
    rw [here] at sending
    obtain ⟨⟨rfl, rfl⟩, rfl⟩ := sending
    exact Sent.pipewrite log passed
  | lockRead m writable here | test m writable here | read m writable i here =>
    rw [here] at sending
    exact sending.elim

theorem Got.next (call : Got p n base s) (next : InCall p s s') : Got p n base s' := by
  obtain ⟨⟨e, taken⟩, inside⟩ := next
  obtain ⟨got, log, few, getting⟩ := call
  cases turn_of_step taken inside with
  | other kept => exact ⟨got, kept.got.trans log, few, kept.pc ▸ getting⟩
  | lockRead m writable here =>
    rw [here] at getting
    exact ⟨got, log, few, by simp only [move_self]; exact getting⟩
  | test m writable here =>
    rw [here] at getting
    obtain ⟨rfl, none⟩ := getting
    exact Got.pipetest log none writable
  | read m writable i here =>
    rw [here] at getting
    obtain ⟨rfl, rfl⟩ := getting
    exact Got.piperead log few writable
  | lockWrite m bytes i here | write m bytes i here =>
    rw [here] at getting
    exact getting.elim

/-- A call of pipewrite that returns a number has put so many bytes into the pipe, the first ones of its source. -/
theorem pipewrite_returns {source : Nat → Option Byte} {s₁ : State P} {result : Int}
    (called : step s (.write p n source) = some s₁) (run : Reachable (· = s₁) (InCall p) s')
    (returned : s'.pc p = .returned result) :
    ∃ sent, bytesOf p s'.accepted = bytesOf p s.accepted ++ sent ∧ Passed n source sent ∧
      (result = sent.length ∨ result = -1) := by
  have start : Sent p n source (bytesOf p s.accepted) s₁ := by
    simp only [step] at called
    split at called
    · cases called
      exact ⟨[], (List.append_nil _).symm, ⟨Nat.zero_le _, rfl⟩, by rw [move_self]; exact ⟨⟨rfl, rfl⟩, rfl⟩⟩
    · cases called
  have call : Sent p n source (bytesOf p s.accepted) s' :=
    run.invariant _ (fun _ same => same ▸ start) fun _ _ call next => call.next next
  obtain ⟨sent, log, passed, sending⟩ := call
  rw [returned] at sending
  exact ⟨sent, log, passed, sending⟩

theorem piperead_returns {writable : Nat → Bool} {s₁ : State P} {result : Int}
    (called : step s (.read p n writable) = some s₁) (run : Reachable (· = s₁) (InCall p) s')
    (returned : s'.pc p = .returned result) :
    ∃ got, bytesOf p s'.delivered = bytesOf p s.delivered ++ got ∧ got.length ≤ n.toNat ∧
      (result = got.length ∨ (result = -1 ∧ got = [])) := by
  have start : Got p n (bytesOf p s.delivered) s₁ := by
    simp only [step] at called
    split at called
    · cases called
      exact ⟨[], (List.append_nil _).symm, Nat.zero_le _, by rw [move_self]; exact ⟨rfl, rfl⟩⟩
    · cases called
  have call : Got p n (bytesOf p s.delivered) s' :=
    run.invariant _ (fun _ same => same ▸ start) fun _ _ call next => call.next next
  obtain ⟨got, log, few, getting⟩ := call
  rw [returned] at getting
  exact ⟨got, log, few, getting⟩

end Calls

theorem Inv.end_of_file (inv : Inv s) {e : Event P} (taken : step s e = some s') (p : P) (n : Int) (reads : wanted (s.pc p) = some n)
    (zero : s'.pc p = .returned 0) : n ≤ 0 ∨ (s.pi.writeopen = false ∧ bytes s.delivered = bytes s.accepted) := by
  have inside : ∀ result, s.pc p ≠ .returned result := by
    intro result here
    rw [here] at reads
    cases reads
  cases turn_of_step taken inside with
  | other kept => exact absurd (kept.pc.symm.trans zero) (inside 0)
  | lockWrite m source i here | write m source i here =>
    rw [here] at reads
    cases reads
  | lockRead m writable here => cases (move_self s p _).symm.trans zero
  | test m writable here => exact absurd zero (pipetest_nonzero s p m writable)
  | read m writable i here =>
    rw [here] at reads
    obtain rfl := Option.some.inj reads
    exact piperead_zero inv here zero

/-- A pipe is a lossless FIFO: in order, at most PIPESIZE bytes behind, and a call that returns a number has moved so
many bytes, at the next places of its buffer. -/
theorem pipe_fifo (reachable : Reachable Init Steps s) :
    bytes s.delivered <+: bytes s.accepted ∧ s.accepted.length ≤ s.delivered.length + PIPESIZE ∧
      (∀ e s', step s e = some s' → ∀ p n, wanted (s.pc p) = some n → s'.pc p = .returned 0 →
        n ≤ 0 ∨ (s.pi.writeopen = false ∧ bytes s.delivered = bytes s.accepted)) ∧
      (∀ p n source s₁ s' result, step s (.write p n source) = some s₁ → Reachable (· = s₁) (InCall p) s' →
        s'.pc p = .returned result → ∃ sent, bytesOf p s'.accepted = bytesOf p s.accepted ++ sent ∧
          Passed n source sent ∧ (result = sent.length ∨ result = -1)) ∧
      ∀ p n writable s₁ s' result, step s (.read p n writable) = some s₁ → Reachable (· = s₁) (InCall p) s' →
        s'.pc p = .returned result → ∃ got, bytesOf p s'.delivered = bytesOf p s.delivered ++ got ∧
          got.length ≤ n.toNat ∧ (result = got.length ∨ (result = -1 ∧ got = [])) := by
  have inv := Inv.of_reachable reachable
  have room := inv.fifo.room
  rw [bytes, bytes, List.length_map, List.length_map] at room
  exact ⟨inv.fifo.order, room, fun _ _ taken p n reads zero => inv.end_of_file taken p n reads zero,
    fun _ _ _ _ _ _ called run returned => pipewrite_returns called run returned,
    fun _ _ _ _ _ _ called run returned => piperead_returns called run returned⟩

section Crowd

inductive Party where
  | first | second | reader
  deriving DecidableEq

def fresh : State Party where
  pi := ⟨fun _ => 0, 0, 0, true, true⟩
  lock := none
  killed _ := false
  pc _ := .returned 0
  accepted := []
  delivered := []

theorem fresh_init : Init fresh where
  counters := ⟨rfl, rfl⟩
  free := rfl
  outside _ := ⟨0, rfl⟩
  nothing := ⟨rfl, rfl⟩

abbrev Move := { e : Event Party // Writable e }

def write (p : Party) (n : Int) : Move := ⟨.write p n fun i => some (BitVec.ofNat 8 i), trivial⟩

def read (p : Party) (n : Int) : Move := ⟨.read p n fun _ => true, fun _ => rfl⟩

/-- The process gets the lock and goes so often through a loop. -/
def turns (p : Party) (count : Nat) : List Move := ⟨.acquire p, trivial⟩ :: List.replicate count ⟨.run p, trivial⟩

def moves (s : State Party) (e : Move) : Option (State Party) := step s e.val

/-- A step while the process is in its call. -/
def calling (p : Party) (s : State Party) (e : Move) : Option (State Party) :=
  match s.pc p with
  | .returned _ => none
  | _ => step s e.val

theorem inCall_of_calling {p : Party} {events : List Move} {s s' : State Party}
    (played : events.foldlM (calling p) s = some s') : Reachable (· = s) (InCall p) s' := by
  have start : Reachable (· = s) (InCall p) s := .init s rfl
  refine start.foldlM (fun s e s' taken => ?_) played
  unfold calling at taken
  split at taken
  next => cases taken
  next inside => exact ⟨⟨e.val, taken⟩, fun result here => inside result here⟩

/-- The first writer fills the pipe and sleeps, and after a read another writer comes before it is awake again. -/
def crowd : List Move := turns .first 513 ++ [read .reader 3] ++ turns .reader 5 ++ [write .second 1] ++ turns .second 2 ++ turns .first 3

def closing : List Move := [write .first 4] ++ turns .first 5 ++ [⟨.close true, trivial⟩]

/-- The read before takes all that the closed pipe holds. -/
def drained : List Move := closing ++ [read .reader 5] ++ turns .reader 6 ++ [read .reader 1] ++ turns .reader 1

def result : Pc → Option Int
  | .returned result => some result
  | _ => none

theorem returned_of_result {pc : Pc} {r : Int} (same : result pc = some r) : pc = .returned r := by
  cases pc with
  | returned => exact congrArg Pc.returned (Option.some.inj same)
  | _ => cases same

theorem reachable_of_moves {events : List Move} {s : State Party} (played : events.foldlM moves fresh = some s) :
    Reachable Init Steps s :=
  (Reachable.init fresh fresh_init).foldlM (fun _ e _ taken => ⟨e.val, e.property, taken⟩) played

theorem pipe_fifo_crowd :
    (∃ s₁ s', step fresh (write .first 514).val = some s₁ ∧ crowd.foldlM (calling .first) s₁ = some s' ∧
      s'.accepted.length = 515 ∧ ∃ sent, bytesOf .first s'.accepted = sent ∧ sent.length = 514) ∧
    (∃ s s₁ s', closing.foldlM moves fresh = some s ∧ step s (read .reader 3).val = some s₁ ∧
      (turns .reader 5).foldlM (calling .reader) s₁ = some s' ∧ ∃ got, bytesOf .reader s'.delivered = got ∧ got.length = 3) ∧
    ∃ s s', drained.foldlM moves fresh = some s ∧ step s (.run .reader) = some s' ∧ s'.pc .reader = .returned 0 ∧
      s.pi.writeopen = false ∧ bytes s.delivered = bytes s.accepted ∧ bytes s.delivered = [0, 1, 2, 3] := by
  refine ⟨?_, ?_, ?_⟩
  · obtain ⟨s₁, called⟩ : ∃ s₁, step fresh (write .first 514).val = some s₁ := ⟨_, rfl⟩
    have played : ((step fresh (write .first 514).val).bind fun s₁ => (crowd.foldlM (calling .first) s₁).map fun s' =>
        (result (s'.pc .first), s'.accepted.length)) = some (some 514, 515) := by
      decide +kernel
    rw [called, Option.bind_some] at played
    obtain ⟨s', found, facts⟩ := Option.map_eq_some_iff.mp played
    obtain ⟨returned, length⟩ := Prod.mk.inj facts
    obtain ⟨sent, log, _, counted⟩ := (pipe_fifo (.init fresh fresh_init)).2.2.2.1 .first 514 _ s₁ s' 514 called
      (inCall_of_calling found) (returned_of_result returned)
    exact ⟨s₁, s', called, found, length, sent, log, by omega⟩
  · have played : ((closing.foldlM moves fresh).bind fun s => (step s (read .reader 3).val).bind fun s₁ =>
        ((turns .reader 5).foldlM (calling .reader) s₁).map fun s' => (result (s'.pc .reader), s.delivered.length)) = some (some 3, 0) := by
      decide +kernel
    obtain ⟨s, closed, played⟩ := Option.bind_eq_some_iff.mp played
    obtain ⟨s₁, called, played⟩ := Option.bind_eq_some_iff.mp played
    obtain ⟨s', found, facts⟩ := Option.map_eq_some_iff.mp played
    obtain ⟨returned, nothing⟩ := Prod.mk.inj facts
    obtain ⟨got, log, _, counted⟩ := (pipe_fifo (reachable_of_moves closed)).2.2.2.2 .reader 3 _ s₁ s' 3 called
      (inCall_of_calling found) (returned_of_result returned)
    rw [List.length_eq_zero_iff.mp nothing] at log
    exact ⟨s, s₁, s', closed, called, found, got, log, by omega⟩
  · have played : ((drained.foldlM moves fresh).bind fun s => (step s (.run .reader)).map fun s' =>
        (result (s'.pc .reader), wanted (s.pc .reader), bytes s.delivered)) = some (some 0, some 1, [0, 1, 2, 3]) := by
      decide +kernel
    obtain ⟨s, found, played⟩ := Option.bind_eq_some_iff.mp played
    obtain ⟨s', taken, facts⟩ := Option.map_eq_some_iff.mp played
    simp only [Prod.mk.injEq] at facts
    obtain ⟨returned, reads, delivered⟩ := facts
    have zero := returned_of_result returned
    obtain ⟨closed, all⟩ := ((pipe_fifo (reachable_of_moves found)).2.2.1 _ s' taken .reader 1 reads zero).resolve_left (by decide)
    exact ⟨s, s', found, taken, zero, closed, all, delivered⟩

end Crowd

end Results

end Xv6.Sync.Pipes
