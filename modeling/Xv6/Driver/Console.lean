import Xv6.Lib.Bytes
import Xv6.Lib.Queue
import Xv6.Lib.Transition

/-! The input of console.c. consoleintr puts what is typed into a ring of bytes, where the line that is typed can still be
edited until it is committed, and consoleread takes from what is committed. The echo is left out. -/

namespace Xv6.Driver.Console

open Lib.Bytes Lib.Queue List
open Lib.Transition (Reachable)

section Ring

def INPUT_BUF_SIZE : Nat := 128

structure Cons where
  buf : Nat → Byte
  /-- Read index. -/
  r : BitVec 32
  /-- Write index. -/
  w : BitVec 32
  /-- Edit index. -/
  e : BitVec 32

/-- Control-x. -/
def C (x : Char) : Byte := BitVec.ofNat 8 (x.toNat - '@'.toNat)

def newline : Byte := 10
def carriageReturn : Byte := 13
def delete : Byte := 0x7f

/-- The loop of control-U, which ends when e is back at w. -/
def killLine : Nat → Cons → Cons
  | 0, s => s
  | turns + 1, s =>
      if s.e ≠ s.w ∧ s.buf ((s.e - 1).toNat % INPUT_BUF_SIZE) ≠ newline then
        killLine turns { s with e := s.e - 1 }
      else s

/-- The console takes a character that was typed. Control-P prints the processes. -/
def consoleintr (s : Cons) (c : Byte) : Cons :=
  if c = C 'P' then s
  else if c = C 'U' then killLine (s.e - s.w).toNat s
  else if c = C 'H' ∨ c = delete then if s.e ≠ s.w then { s with e := s.e - 1 } else s
  else if c ≠ 0 ∧ (s.e - s.r).toNat < INPUT_BUF_SIZE then
    let c := if c = carriageReturn then newline else c
    let s := { s with
      buf := Function.update s.buf (s.e.toNat % INPUT_BUF_SIZE) c
      e := s.e + 1 }
    if c = newline ∨ c = C 'D' ∨ (s.e - s.r).toNat = INPUT_BUF_SIZE then { s with w := s.e } else s
  else s

/-- The loop of consoleread, with n of target bytes still to come and a buffer that can be written, until it returns (true)
or has to wait. The lock is held throughout. -/
def readLoop (target : Nat) : Nat → Cons → List Byte → Cons × List Byte × Bool
  | 0, s, stored => (s, stored, true)
  | n + 1, s, stored =>
      if s.r = s.w then (s, stored, false)
      else
        let c := s.buf (s.r.toNat % INPUT_BUF_SIZE)
        let next := { s with r := s.r + 1 }
        if c = C 'D' then (if n + 1 < target then { next with r := next.r - 1 } else next, stored, true)
        else if c = newline then (next, stored ++ [c], true)
        else readLoop target n next (stored ++ [c])

/-- What consoleread does from a time at which it has the lock, with these bytes stored before. -/
def consoleread (s : Cons) (target : Nat) (stored : List Byte) : Cons × List Byte × Bool :=
  readLoop target (target - stored.length) s stored

end Ring

section Editor

/-- What the console is for: a queue of committed bytes, and a line that is being edited. -/
structure Editor where
  queue : List Byte
  line : List Byte
deriving DecidableEq

def Editor.commit (s : Editor) : Editor := ⟨s.queue ++ s.line, []⟩

def Editor.type (s : Editor) (c : Byte) : Editor :=
  if c = C 'P' then s
  else if c = C 'U' then { s with line := [] }
  else if c = C 'H' ∨ c = delete then { s with line := s.line.dropLast }
  else if c ≠ 0 ∧ s.queue.length + s.line.length < INPUT_BUF_SIZE then
    let c := if c = carriageReturn then newline else c
    let s := { s with line := s.line ++ [c] }
    if c = newline ∨ c = C 'D' ∨ s.queue.length + s.line.length = INPUT_BUF_SIZE then s.commit else s
  else s

/-- A read takes bytes up to a newline, with it, or up to an end of file, or until it has n. It consumes an end of file only
if it has nothing, and waits for more at the end of the queue. -/
def Editor.read (s : Editor) (n : Nat) (stored : List Byte) : Editor × List Byte × Bool :=
  let text := (s.queue.take (n - stored.length)).takeWhile fun c => c ≠ newline ∧ c ≠ C 'D'
  let stored := stored ++ text
  if n ≤ stored.length then ({ s with queue := s.queue.drop text.length }, stored, true)
  else
    match s.queue.drop text.length with
    | [] => ({ s with queue := [] }, stored, false)
    | c :: rest =>
        if c = newline then ({ s with queue := rest }, stored ++ [c], true)
        else ({ s with queue := if stored = [] then rest else c :: rest }, stored, true)

/-- Both fit into the ring, and what is edited has not been ended. -/
structure Editor.Sound (s : Editor) : Prop where
  fits : s.queue.length + s.line.length ≤ INPUT_BUF_SIZE
  unended : newline ∉ s.line

theorem Editor.Sound.type {s : Editor} (sound : s.Sound) (c : Byte) : (s.type c).Sound := by
  unfold Editor.type
  dsimp only
  generalize (if c = carriageReturn then newline else c) = typed
  split_ifs with print kill erase room ends
  · exact sound
  · exact ⟨(Nat.add_le_add_left (Nat.zero_le _) _).trans sound.fits, not_mem_nil⟩
  · refine ⟨?_, fun member => sound.unended (dropLast_subset _ member)⟩
    have shorter : s.line.dropLast.length ≤ s.line.length := (dropLast_sublist s.line).length_le
    exact (Nat.add_le_add_left shorter _).trans sound.fits
  · refine ⟨?_, not_mem_nil⟩
    rw [Editor.commit, length_append, length_append]
    exact room.2
  · refine ⟨by rw [length_append]; exact room.2, fun member => ?_⟩
    rcases mem_append.mp member with old | new
    · exact sound.unended old
    · exact ends (.inl (mem_singleton.mp new).symm)
  · exact sound

theorem Editor.queue_prefix_type (s : Editor) (c : Byte) : s.queue <+: (s.type c).queue := by
  unfold Editor.type
  dsimp only
  split_ifs
  all_goals first | exact prefix_rfl | exact prefix_append _ _

variable {s : Editor} {n : Nat} {stored : List Byte}

theorem Editor.Sound.read (sound : s.Sound) : (s.read n stored).1.Sound := by
  have rest : (s.read n stored).1.queue <:+ s.queue ∧ (s.read n stored).1.line = s.line := by
    unfold Editor.read
    dsimp only
    by_cases enough : n ≤ (stored ++ (s.queue.take (n - stored.length)).takeWhile fun c => c ≠ newline ∧ c ≠ C 'D').length
    · rw [if_pos enough]
      exact ⟨drop_suffix _ _, rfl⟩
    · rw [if_neg enough]
      split
      · exact ⟨nil_suffix, rfl⟩
      · rename_i c rest left
        have suffix : c :: rest <:+ s.queue := left ▸ drop_suffix _ _
        split_ifs
        · exact ⟨(suffix_cons c rest).trans suffix, rfl⟩
        · exact ⟨(suffix_cons c rest).trans suffix, rfl⟩
        · exact ⟨suffix, rfl⟩
  exact ⟨(Nat.add_le_add rest.1.length_le (congrArg length rest.2).le).trans sound.fits, rest.2 ▸ sound.unended⟩

theorem Editor.read_full (enough : n ≤ stored.length) : s.read n stored = (s, stored, true) := by
  simp [Editor.read, Nat.sub_eq_zero_of_le enough, enough]

theorem Editor.read_nil (few : stored.length < n) (empty : s.queue = []) : s.read n stored = (s, stored, false) := by
  obtain ⟨queue, line⟩ := s
  cases empty
  simp [Editor.read, few]

theorem Editor.read_eof (few : stored.length < n) {rest : List Byte} (front : s.queue = C 'D' :: rest) :
    s.read n stored = ({ s with queue := if stored = [] then rest else C 'D' :: rest }, stored, true) := by
  obtain ⟨more, rfl⟩ : ∃ more, n = stored.length + (more + 1) := ⟨n - stored.length - 1, by omega⟩
  have other : C 'D' ≠ newline := by decide
  simp [Editor.read, front, other]

theorem Editor.read_newline (few : stored.length < n) {rest : List Byte} (front : s.queue = newline :: rest) :
    s.read n stored = ({ s with queue := rest }, stored ++ [newline], true) := by
  obtain ⟨more, rfl⟩ : ∃ more, n = stored.length + (more + 1) := ⟨n - stored.length - 1, by omega⟩
  simp [Editor.read, front]

theorem Editor.read_cons (few : stored.length < n) {c : Byte} {rest : List Byte} (front : s.queue = c :: rest)
    (text : c ≠ newline) (text' : c ≠ C 'D') :
    s.read n stored = ({ s with queue := rest } : Editor).read n (stored ++ [c]) := by
  obtain ⟨more, rfl⟩ : ∃ more, n = stored.length + (more + 1) := ⟨n - stored.length - 1, by omega⟩
  have left : stored.length + (more + 1) - (stored.length + 1) = more := by omega
  simp [Editor.read, front, text, text', left]

end Editor

section Refinement

/-- What the ring shows of a queue and a line. -/
def edit (s : Cons) : Editor :=
  ⟨window INPUT_BUF_SIZE s.buf s.r (s.w - s.r).toNat,
    window INPUT_BUF_SIZE s.buf s.w (s.e - s.w).toNat⟩

theorem edit_queue_cons {s : Cons} (some : s.r ≠ s.w) :
    (edit s).queue = s.buf (s.r.toNat % INPUT_BUF_SIZE) :: (edit { s with r := s.r + 1 }).queue := by
  have count : (s.w - s.r).toNat = 1 + (s.w - (s.r + 1)).toNat := by bv_omega
  rw [edit, count, window_add, window_one]
  rfl

theorem edit_queue_nil {s : Cons} (empty : s.r = s.w) : (edit s).queue = [] := by
  rw [edit, empty, BitVec.sub_self]
  rfl

theorem edit_line_snoc {s : Cons} (some : s.e ≠ s.w) :
    (edit s).line =
      (edit { s with e := s.e - 1 }).line ++ [s.buf ((s.e - 1).toNat % INPUT_BUF_SIZE)] := by
  have count : (s.e - s.w).toNat = (s.e - 1 - s.w).toNat + 1 := by bv_omega
  have last : s.w + BitVec.ofNat 32 (s.e - 1 - s.w).toNat = s.e - 1 := by bv_omega
  rw [edit, count, window_add, last, window_one]
  rfl

theorem edit_readLoop (target : Nat) (n : Nat) (s : Cons) (stored : List Byte) (left : stored.length + n = target) :
    Prod.map edit id (readLoop target n s stored) = (edit s).read target stored := by
  induction n generalizing s stored with
  | zero => exact (Editor.read_full left.ge).symm
  | succ n ih =>
    have few : stored.length < target := by omega
    by_cases empty : s.r = s.w
    · rw [readLoop, if_pos empty, Editor.read_nil few (edit_queue_nil empty)]
      rfl
    · have front := edit_queue_cons empty
      rw [readLoop, if_neg empty]
      dsimp only
      split_ifs with eof again ends
      · -- the end of file is put back
        have back : s.r + 1 - 1 = s.r := by bv_omega
        have some : stored ≠ [] := fun nil => by simp [nil] at left; omega
        rw [eof] at front
        rw [Editor.read_eof few front, if_neg some, ← front, back]
        rfl
      · have none : stored = [] := eq_nil_of_length_eq_zero (by omega)
        rw [eof] at front
        rw [Editor.read_eof few front, if_pos none]
        rfl
      · rw [ends] at front ⊢
        rw [Editor.read_newline few front]
        rfl
      · rw [Editor.read_cons few front ends eof]
        exact ih _ _ (by rw [length_append, length_singleton]; omega)

theorem edit_consoleread (s : Cons) (target : Nat) (stored : List Byte) :
    Prod.map edit id (consoleread s target stored) = (edit s).read target stored := by
  rcases Nat.le_total stored.length target with few | enough
  · exact edit_readLoop target _ s stored (Nat.add_sub_cancel' few)
  · rw [consoleread, Nat.sub_eq_zero_of_le enough, Editor.read_full enough]
    rfl

theorem killLine_eq (turns : Nat) (s : Cons) (count : (s.e - s.w).toNat = turns)
    (unended : newline ∉ (edit s).line) : killLine turns s = { s with e := s.w } := by
  induction turns generalizing s with
  | zero =>
    have same : s.e = s.w := by bv_omega
    rw [killLine]
    exact congrArg (fun e => { s with e := e }) same
  | succ turns ih =>
    have some : s.e ≠ s.w := by bv_omega
    rw [edit_line_snoc some, mem_append, not_or] at unended
    rw [killLine, if_pos ⟨some, fun ends => unended.2 (mem_singleton.mpr ends.symm)⟩]
    exact ih { s with e := s.e - 1 } (by simp only; bv_omega) unended.1

theorem edit_commit {s : Cons} (span : (s.e - s.r).toNat = (s.w - s.r).toNat + (s.e - s.w).toNat) :
    edit { s with w := s.e } = (edit s).commit := by
  have start : s.r + BitVec.ofNat 32 (s.w - s.r).toNat = s.w := by bv_omega
  rw [edit, BitVec.sub_self, span, window_add, start]
  rfl

theorem edit_put {s : Cons} (span : (s.e - s.r).toNat = (s.w - s.r).toNat + (s.e - s.w).toNat)
    (room : (s.e - s.r).toNat < INPUT_BUF_SIZE) (c : Byte) :
    edit { s with buf := Function.update s.buf (s.e.toNat % INPUT_BUF_SIZE) c, e := s.e + 1 } =
      { edit s with line := (edit s).line ++ [c] } := by
  have divides : INPUT_BUF_SIZE ∣ 2 ^ 32 := by decide
  have size : INPUT_BUF_SIZE = 128 := rfl
  have count : (s.e + 1 - s.w).toNat = (s.e - s.w).toNat + 1 := by bv_omega
  have fromRead : s.r + BitVec.ofNat 32 (s.e - s.r).toNat = s.e := by bv_omega
  have fromWrite : s.w + BitVec.ofNat 32 (s.e - s.w).toNat = s.e := by bv_omega
  unfold edit
  dsimp only
  rw [count, window_add, fromWrite, window_one, window_update divides fromRead c (by omega) room,
    window_update divides fromWrite c le_rfl (by omega), Function.update_self]

theorem edit_consoleintr {s : Cons} (sound : (edit s).Sound) (c : Byte) : edit (consoleintr s c) = (edit s).type c := by
  have fits := sound.fits
  have size : INPUT_BUF_SIZE = 128 := rfl
  have queued : (edit s).queue.length = (s.w - s.r).toNat := length_window _ _
  have edited : (edit s).line.length = (s.e - s.w).toNat := length_window _ _
  have span : (s.e - s.r).toNat = (s.w - s.r).toNat + (s.e - s.w).toNat := by bv_omega
  have longer : (s.e + 1 - s.r).toNat = (s.w - s.r).toNat + ((s.e - s.w).toNat + 1) := by bv_omega
  unfold consoleintr Editor.type
  dsimp only
  generalize (if c = carriageReturn then newline else c) = typed
  rw [length_append, length_singleton, queued, edited, ← span, longer]
  split_ifs with print kill erase some room ends
  · rfl
  · rw [killLine_eq _ s rfl sound.unended, edit, BitVec.sub_self]
    rfl
  · rw [edit_line_snoc some, dropLast_concat]
    rfl
  · have none : (edit s).line = [] := eq_nil_of_length_eq_zero (by bv_omega)
    rw [none, dropLast_nil, ← none]
  · rw [← edit_put span room.2 typed]
    exact edit_commit (s := ⟨_, s.r, s.w, s.e + 1⟩) (by simp only; bv_omega)
  · exact edit_put span room.2 typed
  · rfl

end Refinement

section Sessions
variable {K P : Type*} [DecidableEq P]

inductive Place where
  | out (result : Int) (stored : List Byte)
  | reading (n : Nat) (stored : List Byte)
deriving DecidableEq

/-- A console, and the processes that read from it. -/
structure Session (K P : Type*) where
  cons : K
  killed : P → Bool
  place : P → Place

inductive Event (P : Type*) where
  | intr (c : Byte)
  | read (p : P) (n : Int)
  | run (p : P)
  | kill (p : P)

/-- A process in consoleread runs with the lock until it returns or sleeps. One that is killed does not wait. -/
def step (intr : K → Byte → K) (read : K → Nat → List Byte → K × List Byte × Bool) (s : Session K P) :
    Event P → Option (Session K P)
  | .intr c => some { s with cons := intr s.cons c }
  | .read p n =>
      match s.place p with
      | .out .. => some { s with place := Function.update s.place p (.reading n.toNat []) }
      | .reading .. => none
  | .run p =>
      match s.place p with
      | .out .. => none
      | .reading n stored =>
          let (next, stored, returns) := read s.cons n stored
          let place := if returns then .out stored.length stored else if s.killed p then .out (-1) stored else .reading n stored
          some { s with cons := next, place := Function.update s.place p place }
  | .kill p => some { s with killed := Function.update s.killed p true }

/-- Nothing is typed yet; the indices may be anywhere. -/
def Quiet (s : Session Cons P) : Prop := s.cons.r = s.cons.w ∧ s.cons.w = s.cons.e

def Steps (s s' : Session Cons P) : Prop := ∃ e, step consoleintr consoleread s e = some s'

def shown (s : Session Cons P) : Session Editor P := ⟨edit s.cons, s.killed, s.place⟩

theorem step_shown {s : Session Cons P} (sound : (edit s.cons).Sound) (e : Event P) :
    (step consoleintr consoleread s e).map shown = step Editor.type Editor.read (shown s) e := by
  cases e with
  | intr c =>
    show some (shown { s with cons := consoleintr s.cons c }) = _
    rw [shown, edit_consoleintr sound]
    rfl
  | read p n =>
    simp only [step, shown]
    cases s.place p <;> rfl
  | run p =>
    simp only [step, shown]
    cases s.place p with
    | out result stored => rfl
    | reading n stored =>
      simp only [← edit_consoleread]
      rfl
  | kill p => rfl

theorem Editor.Sound.step {s s' : Session Editor P} (sound : s.cons.Sound) {e : Event P}
    (next : Console.step Editor.type Editor.read s e = some s') : s'.cons.Sound := by
  cases e with
  | intr c =>
    cases next
    exact sound.type c
  | read p n =>
    simp only [Console.step] at next
    cases at_ : s.place p <;> rw [at_] at next <;> cases next
    exact sound
  | run p =>
    simp only [Console.step] at next
    cases at_ : s.place p <;> rw [at_] at next <;> cases next
    exact sound.read
  | kill p =>
    cases next
    exact sound

theorem sound_of_reachable {s : Session Cons P} (reached : Reachable Quiet Steps s) : (edit s.cons).Sound := by
  refine reached.invariant (fun s => (edit s.cons).Sound) ?_ ?_
  · rintro s ⟨read, write⟩
    rw [edit, ← write, ← read, BitVec.sub_self]
    exact ⟨Nat.zero_le _, not_mem_nil⟩
  · rintro s s' sound ⟨e, next⟩
    have same := step_shown sound e
    rw [next] at same
    exact Editor.Sound.step (s := shown s) sound same.symm

/-- The console is its editor in every session: both fit into the ring, every step is the editor's, and what is typed leaves
what is committed as it is. -/
theorem console_edits {s : Session Cons P} (reached : Reachable Quiet Steps s) :
    (edit s.cons).queue.length + (edit s.cons).line.length ≤ INPUT_BUF_SIZE ∧
    (∀ e, (step consoleintr consoleread s e).map shown = step Editor.type Editor.read (shown s) e) ∧
    ∀ c, (edit s.cons).queue <+: (edit (consoleintr s.cons c)).queue := by
  have sound := sound_of_reachable reached
  refine ⟨sound.fits, step_shown sound, fun c => ?_⟩
  rw [edit_consoleintr sound]
  exact Editor.queue_prefix_type _ c

def typing : List (Event Nat) :=
  [97, 120, 8, 98, 13, 99, 4].map .intr ++ [.read 0 9, .run 0, .read 1 9, .run 1, .read 2 9, .run 2]

/-- The indices wrap while "ax", a backspace, "b", a return, "c" and an end of file are typed. The end of file ends the
second read, which puts it back, and the third. -/
theorem console_edits_wrapped : ∃ s : Session Cons Nat,
    (s.place 0, s.place 1, s.place 2) = (.out 3 [97, 98, 10], .out 1 [99], .out 0 []) ∧ edit s.cons = ⟨[], []⟩ ∧
    ∀ e, (step consoleintr consoleread s e).map shown = step Editor.type Editor.read (shown s) e := by
  have played : (typing.foldlM (step consoleintr consoleread)
      ⟨⟨fun _ => 0, -3, -3, -3⟩, fun _ => false, fun _ => .out 0 []⟩).map
        (fun s => ((s.place 0, s.place 1, s.place 2), edit s.cons)) =
      some ((.out 3 [97, 98, 10], .out 1 [99], .out 0 []), ⟨[], []⟩) := by decide +kernel
  obtain ⟨s, ran, facts⟩ := Option.map_eq_some_iff.mp played
  have reached : Reachable Quiet Steps s := .foldlM (fun _ e _ next => ⟨e, next⟩) (.init _ ⟨rfl, rfl⟩) ran
  exact ⟨s, congrArg Prod.fst facts, congrArg Prod.snd facts, (console_edits reached).2.1⟩

end Sessions

end Xv6.Driver.Console
