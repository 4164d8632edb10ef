import Xv6.Disklog.Group

/-! What holds while any number of operations share the log: how many are running, what the header lists, and
which operations every commit was made of. -/

namespace Xv6.Disklog.Operations
open Lib.Bytes Lib.Crash Lib.Transition Commit Buffers Recovery Disklog.Group Function List

variable {P : Type}

section Control

def inCommit : Pc → Bool
  | .committing | .installing | .finishing => true
  | _ => false

def running (op : Operation) : Bool := !op.ended

theorem countP_modify_log (group : List Operation) (i : Nat) (b : Blockno) :
    (group.modify i (·.log b)).countP running = group.countP running := by
  induction group generalizing i with
  | nil => simp
  | cons op rest ih =>
    cases i with
    | zero => rfl
    | succ i => simp only [modify_succ_cons, countP_cons, ih]

theorem countP_modify_finish (group : List Operation) (i : Nat) (op : Operation) (here : group[i]? = some op)
    (live : op.ended = false) : (group.modify i Operation.finish).countP running + 1 = group.countP running := by
  induction group generalizing i with
  | nil => simp at here
  | cons first rest ih =>
    cases i with
    | zero =>
      simp only [List.getElem?_cons_zero, Option.some.injEq] at here
      subst here
      simp [running, Operation.finish, live]
    | succ i =>
      have less := ih i (by simpa using here)
      simp only [modify_succ_cons, countP_cons]
      omega

/-- The operations that are running are those of the processes inside, one each; in commit there is one process,
and no operation. -/
structure Control (s : State P) : Prop where
  count : s.outstanding = s.group.countP running
  inside : ∀ p i, s.pc p = .inside i → ∃ op, s.group[i]? = some op ∧ op.ended = false
  alone : ∀ p q i, s.pc p = .inside i → s.pc q = .inside i → p = q
  calm : s.committing = true → s.outstanding = 0
  quiet : ∀ p, inCommit (s.pc p) = true → s.committing = true
  one : ∀ p q, inCommit (s.pc p) = true → inCommit (s.pc q) = true → p = q

variable {s : State P}

section
variable (control : Control s)
include control

theorem Control.positive (p : P) (i : Nat) (here : s.pc p = .inside i) : 1 ≤ s.outstanding := by
  obtain ⟨op, found, live⟩ := control.inside p i here
  have some : 0 < s.group.countP running :=
    countP_pos_iff.mpr ⟨op, mem_of_getElem? found, by simp [running, live]⟩
  have count := control.count
  omega

theorem Control.nobody (committing : s.committing = true) (p : P) (i : Nat) : s.pc p ≠ .inside i := by
  intro here
  have some := control.positive p i here
  have none := control.calm committing
  omega

theorem Control.free {p : P} {i : Nat} (inside : s.pc p = .inside i) : s.committing = false := by
  by_contra busy
  exact control.nobody (by simpa using busy) p i inside

theorem Control.ended {p : P} (here : inCommit (s.pc p) = true) : ∀ op ∈ s.group, op.ended = true := by
  intro op member
  have none := control.calm (control.quiet p here)
  have count := control.count
  have ended := countP_eq_zero.mp (by omega : s.group.countP running = 0) op member
  simpa [running] using ended

theorem Control.calm_of_free (free : s.committing = false) (q : P) : s.pc q ≠ .installing := by
  intro here
  have busy := control.quiet q (by rw [here]; rfl)
  exact absurd (free.symm.trans busy) (by decide)

theorem Control.calm_but {p : P} (here : inCommit (s.pc p) = true) (other : s.pc p ≠ .installing) (q : P) :
    s.pc q ≠ .installing := by
  intro there
  obtain rfl := control.one q p (by rw [there]; rfl) here
  exact other there

end

theorem modify_other {group : List Operation} {i j : Nat} {op : Operation} (change : Operation → Operation)
    (there : group[j]? = some op) (other : i ≠ j) : (group.modify i change)[j]? = some op := by
  rw [List.getElem?_modify, there]
  simp [other]

theorem move_cases [DecidableEq P] (s : State P) (p q : P) (pc : Pc) :
    (q = p ∧ (s.move p pc).pc q = pc) ∨ (q ≠ p ∧ (s.move p pc).pc q = s.pc q) := by
  by_cases same : q = p
  · subst same
    exact .inl ⟨rfl, update_self _ _ _⟩
  · exact .inr ⟨same, update_of_ne same _ _⟩

theorem Control.begin [DecidableEq P] (control : Control s) (p : P) (calm : s.committing = false) :
    Control (s.enter p (s.outstanding + 1)) := by
  have short : ∀ q i, s.pc q = .inside i → i < s.group.length := by
    intro q i here
    obtain ⟨op, found, _⟩ := control.inside q i here
    exact (List.getElem?_eq_some_iff.mp found).1
  have outside : ∀ q, inCommit ((s.move p (.inside s.group.length)).pc q) = true → False := by
    intro q here
    rcases move_cases s p q (.inside s.group.length) with ⟨_, now⟩ | ⟨_, now⟩
    · rw [now] at here
      cases here
    · rw [now] at here
      have busy := control.quiet q here
      rw [calm] at busy
      cases busy
  refine ⟨?_, fun q i here => ?_, fun q r i first second => ?_, fun busy => ?_, fun q here => (outside q here).elim,
    fun q _ here _ => (outside q here).elim⟩
  · have count := control.count
    simp only [State.enter, countP_append, countP_singleton, running, Bool.not_false, if_true]
    omega
  · rcases move_cases s p q (.inside s.group.length) with ⟨_, now⟩ | ⟨_, now⟩
    · obtain rfl := Pc.inside.inj (now.symm.trans here)
      exact ⟨_, List.getElem?_concat_length, rfl⟩
    · obtain ⟨op, found, live⟩ := control.inside q i (now.symm.trans here)
      exact ⟨op, (List.getElem?_append_left (List.getElem?_eq_some_iff.mp found).1).trans found, live⟩
  · rcases move_cases s p q (.inside s.group.length) with ⟨isP, now⟩ | ⟨_, now⟩ <;>
      rcases move_cases s p r (.inside s.group.length) with ⟨isP', now'⟩ | ⟨_, now'⟩
    · rw [isP, isP']
    · obtain rfl := Pc.inside.inj (now.symm.trans first)
      exact absurd (short r _ (now'.symm.trans second)) (lt_irrefl _)
    · obtain rfl := Pc.inside.inj (now'.symm.trans second)
      exact absurd (short q _ (now.symm.trans first)) (lt_irrefl _)
    · exact control.alone q r i (now.symm.trans first) (now'.symm.trans second)
  · exact absurd (calm.symm.trans busy) (by decide)

theorem Control.write (control : Control s) (k : Kernel) (i : Nat) (b : Blockno) :
    Control { s with k := k, group := s.group.modify i (·.log b) } := by
  refine ⟨?_, fun q j here => ?_, control.alone, control.calm, control.quiet, control.one⟩
  · change s.outstanding = (s.group.modify i (·.log b)).countP running
    rw [countP_modify_log]
    exact control.count
  · obtain ⟨op, found, live⟩ := control.inside q j here
    by_cases same : i = j
    · subst same
      refine ⟨op.log b, ?_, live⟩
      change (s.group.modify i (·.log b))[i]? = _
      rw [List.getElem?_modify, found]
      simp
    · exact ⟨op, modify_other _ found same, live⟩

theorem Control.finish [DecidableEq P] (control : Control s) (p : P) (i : Nat) (inside : s.pc p = .inside i)
    (calm : s.committing = false) :
    Control { s.move p (if s.outstanding - 1 = 0 then .committing else .idle) with
      outstanding := s.outstanding - 1, committing := decide (s.outstanding - 1 = 0),
      group := s.group.modify i Operation.finish } := by
  generalize after : (if s.outstanding - 1 = 0 then Pc.committing else Pc.idle) = pc
  have left : ∀ j, pc ≠ .inside j := by
    intro j
    rw [← after]
    split_ifs <;> exact fun impossible => nomatch impossible
  have entered : ∀ q, inCommit ((s.move p pc).pc q) = true → q = p ∧ s.outstanding - 1 = 0 := by
    intro q here
    rcases move_cases s p q pc with ⟨isP, now⟩ | ⟨_, now⟩
    · rw [now, ← after] at here
      refine ⟨isP, ?_⟩
      by_contra more
      rw [if_neg more] at here
      cases here
    · rw [now] at here
      exact absurd (calm.symm.trans (control.quiet q here)) (by decide)
  have others : ∀ q j, (s.move p pc).pc q = .inside j → q ≠ p ∧ s.pc q = .inside j := by
    intro q j here
    rcases move_cases s p q pc with ⟨_, now⟩ | ⟨other, now⟩
    · exact absurd (now.symm.trans here) (left j)
    · exact ⟨other, now.symm.trans here⟩
  refine ⟨?_, fun q j here => ?_, fun q r j first second => ?_, fun last => of_decide_eq_true last, fun q here => ?_,
    fun q r first second => ?_⟩
  · obtain ⟨op, found, live⟩ := control.inside p i inside
    have less := countP_modify_finish s.group i op found live
    have count := control.count
    change s.outstanding - 1 = ((s.group.modify i Operation.finish).countP running : Nat)
    omega
  · obtain ⟨other, before⟩ := others q j here
    obtain ⟨op, found, live⟩ := control.inside q j before
    refine ⟨op, modify_other _ found ?_, live⟩
    rintro rfl
    exact other (control.alone q p i before inside)
  · exact control.alone q r j (others q j first).2 (others r j second).2
  · exact decide_eq_true (entered q here).2
  · rw [(entered q first).1, (entered r second).1]

theorem Control.advance [DecidableEq P] (control : Control s) (p : P) (pc : Pc) (k : Kernel) (disk : Disk)
    (group : List Operation) (commits : List (List Operation × List Blockno)) (here : inCommit (s.pc p) = true)
    (still : inCommit pc = true) (same : group.countP running = 0) :
    Control { s.move p pc with k := k, disk := disk, group := group, commits := commits } := by
  have busy := control.quiet p here
  have nobody : ∀ q i, (s.move p pc).pc q ≠ .inside i := by
    intro q i inside
    rcases move_cases s p q pc with ⟨_, now⟩ | ⟨_, now⟩
    · rw [← now, inside] at still
      cases still
    · exact control.nobody busy q i (now.symm.trans inside)
  have alone : ∀ q, inCommit ((s.move p pc).pc q) = true → q = p := by
    intro q there
    rcases move_cases s p q pc with ⟨isP, _⟩ | ⟨_, now⟩
    · exact isP
    · exact control.one q p (by rwa [now] at there) here
  refine ⟨?_, fun q i inside => (nobody q i inside).elim, fun q _ i inside _ => (nobody q i inside).elim, control.calm,
    fun _ _ => busy, fun q r first second => by rw [alone q first, alone r second]⟩
  change s.outstanding = (group.countP running : Nat)
  rw [same, control.calm busy]
  rfl

theorem Control.done [DecidableEq P] (control : Control s) (p : P) (here : s.pc p = .finishing) :
    Control { s.move p .idle with committing := false } := by
  have busy := control.quiet p (by rw [here]; rfl)
  have nobody : ∀ q i, (s.move p .idle).pc q ≠ .inside i := by
    intro q i inside
    rcases move_cases s p q .idle with ⟨_, now⟩ | ⟨_, now⟩
    · exact nomatch now.symm.trans inside
    · exact control.nobody busy q i (now.symm.trans inside)
  have gone : ∀ q, inCommit ((s.move p .idle).pc q) = true → False := by
    intro q there
    rcases move_cases s p q .idle with ⟨_, now⟩ | ⟨other, now⟩
    · rw [now] at there
      cases there
    · exact other (control.one q p (by rwa [now] at there) (by rw [here]; rfl))
  exact ⟨control.count, fun q i inside => (nobody q i inside).elim, fun q _ i inside _ => (nobody q i inside).elim,
    nofun, fun q there => (gone q there).elim, fun q _ there _ => (gone q there).elim⟩

theorem Control.step [DecidableEq P] {s s' : State P} {e : Event P} (control : Control s) (effect : Effect s e s') :
    Control s' := by
  cases effect with
  | begin p idle calm room => exact control.begin p calm
  | write p b contents i k inside logged => exact control.write k i b
  | finish p i inside calm => exact control.finish p i inside calm
  | commit p k disk here some ran => exact control.advance p _ k disk [] _ (by rw [here]; rfl) rfl rfl
  | idle p here none => exact control.advance p _ s.k s.disk [] s.commits (by rw [here]; rfl) rfl rfl
  | install p k disk here ran =>
    have none := control.calm (control.quiet p (by rw [here]; rfl))
    have count := control.count
    exact control.advance p _ k disk s.group s.commits (by rw [here]; rfl) rfl (by omega)
  | done p here => exact control.done p here

end Control

section Journal

def logged (group : List Operation) : List Blockno := group.flatMap Operation.blocks

theorem mem_logged_log {group : List Operation} {i : Nat} {op : Operation} (here : group[i]? = some op) (b x : Blockno) :
    x ∈ logged (group.modify i (·.log b)) ↔ x = b ∨ x ∈ logged group := by
  induction group generalizing i with
  | nil => simp at here
  | cons first rest ih =>
    cases i with
    | zero => simp [logged, Operation.log]
    | succ i =>
      have later := ih (by simpa using here)
      simp only [logged, modify_succ_cons, flatMap_cons, mem_append] at later ⊢
      rw [later]
      tauto

theorem logged_finish (group : List Operation) (i : Nat) : logged (group.modify i Operation.finish) = logged group := by
  induction group generalizing i with
  | nil => simp
  | cons first rest ih =>
    cases i with
    | zero => rfl
    | succ i =>
      have later := ih i
      simp only [logged, modify_succ_cons, flatMap_cons] at later ⊢
      rw [later]

theorem ids_modify (group : List Operation) (i : Nat) (change : Operation → Operation) (same : ∀ op, (change op).id = op.id) :
    (group.modify i change).map Operation.id = group.map Operation.id := by
  induction group generalizing i with
  | nil => simp
  | cons first rest ih =>
    cases i with
    | zero => simp [same]
    | succ i => simp [ih]

def ids (s : State P) : List Nat :=
  s.commits.flatMap (fun commit => commit.1.map Operation.id) ++ s.group.map Operation.id

/-- The header in memory lists the blocks of the group, the header on the disk is empty except between the halves
of a commit, and every commit was one of ended operations. -/
structure Journal (s : State P) : Prop where
  size : s.k.log.size = LOGSIZE
  positive : 0 ≤ s.k.log.lh.n
  small : s.k.log.lh.n < LOGSIZE
  nodup : (headerList s.k.log.lh).Nodup
  listed : (∀ p, s.pc p ≠ .installing) → ∀ b, b ∈ headerList s.k.log.lh ↔ b ∈ logged s.group
  cleared : (∀ p, s.pc p ≠ .installing) → getWord (s.disk s.k.log.start) 0 = 0
  named : ∀ p, s.pc p = .installing → s.group = [] ∧ Names (s.disk s.k.log.start) (headerList s.k.log.lh) ∧
    ∃ ops rest, s.commits = (ops, headerList s.k.log.lh) :: rest
  committed : ∀ commit ∈ s.commits,
    (∀ op ∈ commit.1, op.ended = true) ∧ ∀ b, b ∈ commit.2 ↔ b ∈ logged commit.1
  below : ∀ id ∈ ids s, id < s.begun
  unique : (ids s).Nodup

theorem Journal.count {s : State P} (journal : Journal s) (calm : ∀ p, s.pc p ≠ .installing) :
    s.k.log.lh.n.toNat = (logged s.group).toFinset.card := by
  have same : (headerList s.k.log.lh).toFinset = (logged s.group).toFinset := by
    ext b
    rw [mem_toFinset, mem_toFinset]
    exact journal.listed calm b
  rw [← same, toFinset_card_of_nodup journal.nodup, length_headerList]

variable [DecidableEq P] {s : State P} {p : P} {pc : Pc}

theorem installing_of_move (other : pc ≠ .installing) {q : P} (here : (s.move p pc).pc q = .installing) :
    s.pc q = .installing := by
  rcases move_cases s p q pc with ⟨_, now⟩ | ⟨_, now⟩
  · exact absurd (now.symm.trans here) other
  · exact now.symm.trans here

theorem calm_of_move (before : s.pc p ≠ .installing) (calm : ∀ q, (s.move p pc).pc q ≠ .installing) (q : P) :
    s.pc q ≠ .installing := by
  rcases move_cases s p q pc with ⟨rfl, _⟩ | ⟨_, now⟩
  · exact before
  · rw [← now]
    exact calm q

theorem installed {k k' : Kernel} {disk disk' : Disk} (ran : run commitInstall k disk = .ok (k', disk')) :
    k'.log = { k.log with lh := { k.log.lh with n := 0 } } ∧ getWord (disk' k.log.start) 0 = 0 := by
  obtain ⟨_, _, ran', facts⟩ := commitInstall_run k disk
  cases ran'.symm.trans ran
  exact facts

section
variable (journal : Journal s)
include journal

omit [DecidableEq P] in
theorem Journal.commitLog_ran : ∃ k disk, run commitLog s.k s.disk = .ok (k, disk) ∧ k.log = s.k.log ∧
    Names (disk s.k.log.start) (headerList s.k.log.lh) := by
  have small := journal.small
  exact commitLog_run s.k s.disk journal.positive (by omega)

omit [DecidableEq P] in
theorem Journal.wrote {k : Kernel} {disk : Disk} (ran : run commitLog s.k s.disk = .ok (k, disk)) :
    k.log = s.k.log ∧ Names (disk s.k.log.start) (headerList s.k.log.lh) := by
  obtain ⟨_, _, ran', facts⟩ := journal.commitLog_ran
  cases ran'.symm.trans ran
  exact facts

theorem Journal.begin (control : Control s) (free : s.committing = false) (outstanding : Int) :
    Journal (s.enter p outstanding) where
  size := journal.size
  positive := journal.positive
  small := journal.small
  nodup := journal.nodup
  listed _ b := by
    have same : logged (s.group ++ [⟨s.begun, [], false⟩]) = logged s.group := by simp [logged]
    change _ ↔ b ∈ logged (s.group ++ [⟨s.begun, [], false⟩])
    rw [same]
    exact journal.listed (control.calm_of_free free) b
  cleared _ := journal.cleared (control.calm_of_free free)
  named q here := absurd (installing_of_move (by simp) here) (control.calm_of_free free q)
  committed := journal.committed
  below id member := by
    simp only [ids, State.enter, map_append, ← append_assoc, mem_append, map_singleton, mem_singleton] at member
    rcases member with old | rfl
    · exact Nat.lt_succ_of_lt (journal.below id (mem_append.mpr old))
    · exact Nat.lt_succ_self _
  unique := by
    have fresh : s.begun ∉ ids s := fun old => absurd (journal.below _ old) (lt_irrefl _)
    have more : ids (s.enter p outstanding) = ids s ++ [s.begun] := by simp [ids, State.enter, State.move]
    rw [more]
    exact nodup_append_comm.mp (nodup_cons.mpr ⟨fresh, journal.unique⟩)

omit journal in
theorem mem_header_write {hl : List Blockno} (b x : Blockno) :
    x ∈ (if b ∈ hl then hl else hl ++ [b]) ↔ x = b ∨ x ∈ hl := by
  split_ifs with present
  · constructor
    · exact .inr
    · rintro (rfl | old)
      · exact present
      · exact old
  · rw [mem_append, mem_singleton]
    exact or_comm

omit [DecidableEq P] in
theorem Journal.write (control : Control s) {i : Nat} (inside : s.pc p = .inside i) {b : Blockno}
    {contents : Block} {k : Kernel} (ran : logWrite (s.k.fill b contents) s.outstanding b = .ok k) :
    Journal { s with k := k, group := s.group.modify i (·.log b) } := by
  have free := control.free inside
  have room := logWrite_room ran
  obtain ⟨_, start, size, positive, header, _⟩ := @logWrite_spec b (s.k.fill b contents) k s.outstanding journal.positive ran
  obtain ⟨op, found, _⟩ := control.inside p i inside
  have length := length_headerList k.log.lh
  have numbers : ids { s with k := k, group := s.group.modify i (·.log b) } = ids s := by
    simp only [ids]
    rw [ids_modify]
    exact fun _ => rfl
  replace header : headerList k.log.lh =
    if b ∈ headerList s.k.log.lh then headerList s.k.log.lh else headerList s.k.log.lh ++ [b] := header
  change s.k.log.lh.n < LOGSIZE ∧ s.k.log.lh.n < s.k.log.size - 1 at room
  have total : s.k.log.size = LOGSIZE := journal.size
  refine ⟨size.trans total, positive, ?_, ?_, fun _ x => ?_, fun _ => ?_, fun q here => ?_, journal.committed, ?_, ?_⟩
  · have old := length_headerList s.k.log.lh
    have more : (headerList k.log.lh).length ≤ (headerList s.k.log.lh).length + 1 := by
      rw [header]
      split_ifs <;> simp
    have before := journal.positive
    change k.log.lh.n < LOGSIZE
    omega
  · change (headerList k.log.lh).Nodup
    rw [header]
    split_ifs with present
    · exact journal.nodup
    · exact nodup_append_comm.mp (nodup_cons.mpr ⟨present, journal.nodup⟩)
  · change x ∈ headerList k.log.lh ↔ x ∈ logged (s.group.modify i (·.log b))
    rw [header, mem_header_write, mem_logged_log found, journal.listed (control.calm_of_free free)]
  · change getWord (s.disk k.log.start) 0 = 0
    rw [start]
    exact journal.cleared (control.calm_of_free free)
  · exact absurd here (control.calm_of_free free q)
  · rw [numbers]
    exact journal.below
  · rw [numbers]
    exact journal.unique

theorem Journal.finish (control : Control s) (i : Nat) (free : s.committing = false) (other : pc ≠ .installing)
    (outstanding : Int) (committing : Bool) : Journal { s.move p pc with
      outstanding := outstanding, committing := committing, group := s.group.modify i Operation.finish } := by
  have numbers : ids { s.move p pc with
      outstanding := outstanding, committing := committing, group := s.group.modify i Operation.finish } = ids s := by
    simp only [ids, State.move]
    rw [ids_modify]
    exact fun _ => rfl
  refine ⟨journal.size, journal.positive, journal.small, journal.nodup, fun _ b => ?_,
    fun _ => journal.cleared (control.calm_of_free free),
    fun q here => absurd (installing_of_move other here) (control.calm_of_free free q), journal.committed, ?_, ?_⟩
  · change _ ↔ b ∈ logged (s.group.modify i Operation.finish)
    rw [logged_finish]
    exact journal.listed (control.calm_of_free free) b
  · rw [numbers]
    exact journal.below
  · rw [numbers]
    exact journal.unique

theorem Journal.commit (control : Control s) (here : s.pc p = .committing) {k : Kernel} {disk : Disk}
    (ran : run commitLog s.k s.disk = .ok (k, disk)) :
    Journal { s.move p .installing with
      k := k, disk := disk, group := [], commits := (s.group, headerList s.k.log.lh) :: s.commits } := by
  have inCommit : inCommit (s.pc p) = true := by rw [here]; rfl
  have calm := control.calm_but inCommit (by rw [here]; simp)
  obtain ⟨log, names⟩ := journal.wrote ran
  have moved : (s.move p .installing).pc p = .installing := update_self _ _ _
  have order : (ids { s.move p .installing with
      k := k, disk := disk, group := [], commits := (s.group, headerList s.k.log.lh) :: s.commits }).Perm (ids s) := by
    simp only [ids, flatMap_cons, map_nil, append_nil]
    exact perm_append_comm
  refine ⟨?_, ?_, ?_, ?_, fun none => (none p moved).elim, fun none => (none p moved).elim, fun _ _ => ⟨rfl, ?_, ?_⟩,
    fun commit member => ?_, fun id member => ?_, ?_⟩
  · exact (congrArg Log.size log).trans journal.size
  · change 0 ≤ k.log.lh.n
    rw [log]
    exact journal.positive
  · change k.log.lh.n < LOGSIZE
    rw [log]
    exact journal.small
  · change (headerList k.log.lh).Nodup
    rw [log]
    exact journal.nodup
  · change Names (disk k.log.start) (headerList k.log.lh)
    rw [log]
    exact names
  · change ∃ ops rest, (s.group, headerList s.k.log.lh) :: s.commits = (ops, headerList k.log.lh) :: rest
    rw [log]
    exact ⟨_, _, rfl⟩
  · rcases mem_cons.mp member with rfl | old
    · exact ⟨control.ended inCommit, journal.listed calm⟩
    · exact journal.committed commit old
  · exact journal.below id (order.mem_iff.mp member)
  · exact order.nodup_iff.mpr journal.unique

theorem Journal.idle (control : Control s) (here : s.pc p = .committing) (none : s.k.log.lh.n ≤ 0) :
    Journal { s.move p .finishing with group := [] } := by
  have calm := control.calm_but (by rw [here]; rfl : inCommit (s.pc p) = true) (by rw [here]; simp)
  have fewer : (ids { s.move p .finishing with group := [] }).Sublist (ids s) := by
    simp [ids, State.move]
  refine ⟨journal.size, journal.positive, journal.small, journal.nodup, fun _ b => ?_, fun _ => journal.cleared calm,
    fun q there => absurd (installing_of_move (by simp) there) (calm q), journal.committed,
    fun id member => journal.below id (fewer.subset member), fewer.nodup journal.unique⟩
  have empty : headerList s.k.log.lh = [] := by
    rw [← length_eq_zero_iff, length_headerList]
    omega
  change b ∈ headerList s.k.log.lh ↔ b ∈ logged []
  rw [empty]
  simp [logged]

theorem Journal.install (control : Control s) (here : s.pc p = .installing) {k : Kernel} {disk : Disk}
    (ran : run commitInstall s.k s.disk = .ok (k, disk)) :
    Journal { s.move p .finishing with k := k, disk := disk } := by
  obtain ⟨log, cleared⟩ := installed ran
  obtain ⟨none, _⟩ := journal.named p here
  have alone : ∀ q, (s.move p .finishing).pc q ≠ .installing := by
    intro q there
    rcases move_cases s p q .finishing with ⟨_, now⟩ | ⟨other, now⟩
    · exact nomatch now.symm.trans there
    · exact other (control.one q p (by rw [now.symm.trans there]; rfl) (by rw [here]; rfl))
  refine ⟨?_, ?_, ?_, ?_, fun _ b => ?_, fun _ => ?_, fun q there => (alone q there).elim, journal.committed, journal.below,
    journal.unique⟩
  · exact (congrArg Log.size log).trans journal.size
  · change 0 ≤ k.log.lh.n
    rw [log]
  · change k.log.lh.n < LOGSIZE
    rw [log]
    change (0 : Int) < LOGSIZE
    decide
  · change (headerList k.log.lh).Nodup
    rw [log]
    exact nodup_nil
  · change b ∈ headerList k.log.lh ↔ b ∈ logged s.group
    rw [log, none]
    exact Iff.rfl
  · change getWord (disk k.log.start) 0 = 0
    rw [log]
    exact cleared

theorem Journal.done (here : s.pc p = .finishing) : Journal { s.move p .idle with committing := false } where
  size := journal.size
  positive := journal.positive
  small := journal.small
  nodup := journal.nodup
  listed calm := journal.listed (calm_of_move (by rw [here]; simp) calm)
  cleared calm := journal.cleared (calm_of_move (by rw [here]; simp) calm)
  named q there := journal.named q (installing_of_move (by simp) there)
  committed := journal.committed
  below := journal.below
  unique := journal.unique

end

structure Inv (s : State P) : Prop where
  control : Control s
  journal : Journal s

omit [DecidableEq P] in
theorem Inv.init (start : Init s) : Inv s := by
  have nobody : ∀ q i, s.pc q ≠ .inside i := fun q i here => nomatch (start.idle q).symm.trans here
  have outside : ∀ q, inCommit (s.pc q) ≠ true := by
    intro q here
    rw [start.idle q] at here
    cases here
  have empty : headerList s.k.log.lh = [] := by
    rw [← length_eq_zero_iff, length_headerList, start.empty]
    rfl
  have positive : 0 ≤ s.k.log.lh.n := start.empty.ge
  obtain ⟨noGroup, noCommits⟩ := start.nothing
  have none : ids s = [] := by simp [ids, noGroup, noCommits]
  refine ⟨⟨?_, fun q i here => (nobody q i here).elim, fun q _ i here _ => (nobody q i here).elim, fun _ => start.calm.1,
    fun q here => (outside q here).elim, fun q _ here _ => (outside q here).elim⟩,
    ⟨start.size, positive, ?_, ?_, fun _ b => ?_, fun _ => start.header,
    (fun q here => nomatch (start.idle q).symm.trans here), ?_, ?_, ?_⟩⟩
  · rw [start.calm.1, noGroup]
    rfl
  · rw [start.empty]
    decide
  · rw [empty]
    exact nodup_nil
  · rw [empty, noGroup]
    exact Iff.rfl
  · simp [noCommits]
  · simp [none]
  · simp [none]

theorem Inv.next {s' : State P} {e : Event P} (inv : Inv s) (taken : step s e = some (.ok s')) : Inv s' := by
  have effect := step_effect taken
  refine ⟨inv.control.step effect, ?_⟩
  cases effect with
  | begin p idle calm room => exact inv.journal.begin inv.control calm _
  | write p b contents i k inside logged => exact inv.journal.write inv.control inside logged
  | finish p i inside calm =>
    refine inv.journal.finish inv.control i calm ?_ _ _
    split_ifs <;> simp
  | commit p k disk here some ran => exact inv.journal.commit inv.control here ran
  | idle p here none => exact inv.journal.idle inv.control here none
  | install p k disk here ran => exact inv.journal.install inv.control here ran
  | done p here => exact inv.journal.done here

theorem Inv.of_reachable {fits : State P → Event P → Prop} (reachable : Reachable Init (Steps fits) s) : Inv s :=
  reachable.invariant Inv (fun _ => Inv.init) (fun _ _ inv ⟨_, _, taken⟩ => inv.next taken)

end Journal

section Room
variable [DecidableEq P] {s : State P}

/-- Every logged block has its copy, start + tail + 1, inside the log area. -/
def InArea (log : Log) : Prop := ∀ tail, tail < log.lh.n.toNat → (tail + 1 : Int) < log.size

omit [DecidableEq P] in
theorem Inv.inArea (inv : Inv s) : InArea s.k.log := by
  intro tail bound
  have size := inv.journal.size
  have small := inv.journal.small
  omega

/-- log_write panics unless fewer than LOGSIZE - 1 different blocks were logged since the last commit. -/
theorem logWrite_fits_iff (reachable : Reachable Init (Steps Bounded) s) {p : P} {i : Nat} (inside : s.pc p = .inside i)
    (b : Blockno) (contents : Block) :
    (∃ s', step s (.write p b contents) = some (.ok s') ∧ InArea s'.k.log) ↔
      (logged s.group).toFinset.card < LOGSIZE - 1 := by
  have inv := Inv.of_reachable reachable
  have free := inv.control.free inside
  have count := inv.journal.count (inv.control.calm_of_free free)
  have positive := inv.journal.positive
  have size : (s.k.fill b contents).log.size = LOGSIZE := inv.journal.size
  have limit : LOGSIZE = 30 := rfl
  constructor
  · rintro ⟨s', taken, _⟩
    cases step_effect taken with
    | write _ _ _ _ k _ ran =>
      obtain ⟨_, room⟩ := logWrite_room ran
      change s.k.log.lh.n < _ at room
      omega
  · intro few
    obtain ⟨k, ran⟩ := logWrite_ok (s.k.fill b contents) s.outstanding b
      (by change s.k.log.lh.n < _ ∧ s.k.log.lh.n < _; omega) (inv.control.positive p i inside)
    have taken : step s (.write p b contents) = some (.ok { s with k := k, group := s.group.modify i (·.log b) }) := by
      simp only [step, inside, ran]
      rfl
    exact ⟨_, taken, (inv.next taken).inArea⟩

def fresh : State (Fin 3) where
  k := { data := fun _ => none, refcnt := fun _ => 0, log := { start := 2#32, size := LOGSIZE, lh := { n := 0, block := fun _ => 0 } } }
  disk _ _ := 0
  outstanding := 0
  committing := false
  pc _ := .idle
  begun := 0
  group := []
  commits := []

theorem fresh_init : Init fresh where
  size := rfl
  empty := rfl
  clean _ := rfl
  header := by decide
  idle _ := rfl
  calm := ⟨rfl, rfl⟩
  nothing := ⟨rfl, rfl⟩

def begun : State (Fin 3) :=
  { fresh.move 0 (.inside 0) with outstanding := 1, begun := 1, group := [⟨0, [], false⟩] }

theorem begun_reachable : Reachable Init (Steps Bounded) begun :=
  .step fresh begun (.init fresh fresh_init) ⟨.begin 0, trivial, rfl⟩

theorem logWrite_fits_begun :
    (∃ s', step begun (.write 0 46#32 fun _ => 0) = some (.ok s') ∧ InArea s'.k.log) ↔
      (logged begun.group).toFinset.card < LOGSIZE - 1 :=
  logWrite_fits_iff begun_reachable (i := 0) rfl 46#32 fun _ => 0

def tenEach : List (Event (Fin 3)) :=
  [.begin 0, .begin 1, .begin 2] ++
    (List.range 29).map fun j => .write (Fin.ofNat 3 (j / 10)) (BitVec.ofNat 32 (46 + j)) fun _ => 0

def panicOf : Option (Except String (State P)) → Option String
  | some (.error message) => some message
  | _ => none

/-- The tenth block of the third operation. -/
theorem thirtieth_block_panics : ∃ s : State (Fin 3), Reachable Init (Steps Bounded) s ∧
    Bounded s (.write 2 75#32 fun _ => 0) ∧ step s (.write 2 75#32 fun _ => 0) = some (.error "too big a transaction") := by
  have played : ((tenEach.foldlM (allowed Bounded step) fresh).map fun s => (decide (Bounded s (.write 2 75#32 fun _ => 0)),
      panicOf (step s (.write 2 75#32 fun _ => 0)))) = some (true, some "too big a transaction") := by
    decide +kernel
  obtain ⟨s, found, facts⟩ := Option.map_eq_some_iff.mp played
  obtain ⟨bounded, panics⟩ := Prod.mk.inj facts
  refine ⟨s, .allowed fresh_init found, of_decide_eq_true bounded, ?_⟩
  unfold panicOf at panics
  split at panics
  next message failed => rw [failed, Option.some.inj panics]
  next => cases panics

end Room

section Commits
variable [DecidableEq P] {s : State P}

theorem disk_of_effect {s' : State P} {e : Event P} (effect : Effect s e s') (changed : s'.disk ≠ s.disk) :
    ∃ p, e = .commit p ∨ e = .install p := by
  cases effect with
  | commit p k disk here some ran => exact ⟨p, .inl rfl⟩
  | install p k disk here ran => exact ⟨p, .inr rfl⟩
  | _ => exact absurd rfl changed

theorem Inv.frozen (inv : Inv s) (busy : s.committing = true) {s' : State P} {e : Event P} (effect : Effect s e s') :
    (∀ p, e ≠ .begin p) ∧ ∀ b ∈ headerList s'.k.log.lh, b ∈ headerList s.k.log.lh := by
  cases effect with
  | begin p idle calm room | finish p i inside calm => exact absurd (calm.symm.trans busy) (by decide)
  | write p b contents i k inside logged => exact (inv.control.nobody busy p i inside).elim
  | commit p k disk here some ran =>
    obtain ⟨log, _⟩ := inv.journal.wrote ran
    refine ⟨fun _ => by simp, fun b member => ?_⟩
    change b ∈ headerList k.log.lh at member
    rwa [log] at member
  | idle p here none | done p here => exact ⟨fun _ => by simp, fun _ member => member⟩
  | install p k disk here ran =>
    obtain ⟨log, _⟩ := installed ran
    refine ⟨fun _ => by simp, fun b member => ?_⟩
    change b ∈ headerList k.log.lh at member
    rw [log] at member
    cases member

theorem Inv.panics (inv : Inv s) (e : Event P) (message : String) (failed : step s e = some (.error message)) :
    message = "too big a transaction" := by
  cases e with
  | begin p =>
    simp only [step] at failed
    split_ifs at failed
    obtain ⟨_, _, impossible⟩ := Option.map_eq_some_iff.mp failed
    cases impossible
  | write p b contents =>
    simp only [step] at failed
    split at failed
    next i inside =>
      cases logged : logWrite (s.k.fill b contents) s.outstanding b with
      | error text =>
        rw [logged] at failed
        cases failed
        exact (logWrite_error _ _ _ _ (inv.control.positive p i inside) logged).1
      | ok k =>
        rw [logged] at failed
        cases failed
    next => cases failed
  | finish p =>
    simp only [step] at failed
    split at failed
    next i inside =>
      unfold endOp at failed
      split_ifs at failed with busy
      · exact (inv.control.nobody busy p i inside).elim
      · cases failed
    next => cases failed
  | commit p =>
    simp only [step] at failed
    split_ifs at failed with here some
    · obtain ⟨k, disk, ran, _⟩ := inv.journal.commitLog_ran
      rw [ran] at failed
      cases failed
    · cases failed
  | install p =>
    simp only [step] at failed
    split_ifs at failed with here
    obtain ⟨k, disk, ran, _⟩ := commitInstall_run s.k s.disk
    rw [ran] at failed
    cases failed
  | done p =>
    simp only [step] at failed
    split_ifs at failed
    cases failed

omit [DecidableEq P] in
theorem Inv.header (inv : Inv s) :
    getWord (s.disk s.k.log.start) 0 = 0 ∨ ∃ commit ∈ s.commits, Names (s.disk s.k.log.start) commit.2 := by
  by_cases calm : ∀ p, s.pc p ≠ .installing
  · exact .inl (inv.journal.cleared calm)
  · push Not at calm
    obtain ⟨p, here⟩ := calm
    obtain ⟨_, names, ops, rest, commits⟩ := inv.journal.named p here
    refine .inr ⟨(ops, _), ?_, names⟩
    rw [commits]
    exact mem_cons_self

/-- Outside the logged blocks, which are home blocks, buffers and disk agree. -/
structure Clean (s : State P) : Prop where
  home : ∀ b ∈ headerList s.k.log.lh, Home s.k.log b
  cached : (∀ p, s.pc p ≠ .installing) → ∀ b ∈ headerList s.k.log.lh, (s.k.data b).isSome = true
  clean : ∀ b, b ∉ headerList s.k.log.lh → view s.k s.disk b = s.disk b

omit [DecidableEq P] in
theorem Clean.init (start : Init s) : Clean s := by
  have empty : headerList s.k.log.lh = [] := by
    rw [← length_eq_zero_iff, length_headerList, start.empty]
    rfl
  refine ⟨?_, fun _ => ?_, fun b _ => start.clean b⟩
  · simp [empty]
  · simp [empty]

omit [DecidableEq P] in
theorem Clean.apart (clean : Clean s) (inv : Inv s) : Apart s.k.log := by
  have small := inv.journal.small
  have limit : LOGSIZE = 30 := rfl
  exact ⟨clean.home, by omega⟩

omit [DecidableEq P] in
theorem Clean.write (clean : Clean s) (inv : Inv s) {p : P} {i : Nat} (inside : s.pc p = .inside i) {b : Blockno}
    {contents : Block} {k : Kernel} (fits : Home s.k.log b)
    (ran : logWrite (s.k.fill b contents) s.outstanding b = .ok k) :
    Clean { s with k := k, group := s.group.modify i (·.log b) } := by
  obtain ⟨data, start, _, _, header, _⟩ :=
    @logWrite_spec b (s.k.fill b contents) k s.outstanding inv.journal.positive ran
  replace header : headerList k.log.lh =
    if b ∈ headerList s.k.log.lh then headerList s.k.log.lh else headerList s.k.log.lh ++ [b] := header
  have members : ∀ x, x ∈ headerList k.log.lh ↔ x = b ∨ x ∈ headerList s.k.log.lh := by
    intro x
    rw [header]
    exact mem_header_write b x
  have free := inv.control.free inside
  have filled : k.data = update s.k.data b (some contents) := data
  refine ⟨fun x member j bound => ?_, fun _ x member => ?_, fun x absent => ?_⟩
  · change x ≠ k.log.start + _
    rw [start]
    rcases (members x).mp member with rfl | old
    · exact fits j bound
    · exact clean.home x old j bound
  · change (k.data x).isSome = true
    rw [filled]
    by_cases same : x = b
    · rw [same, update_self]
      rfl
    · rw [update_of_ne same]
      exact clean.cached (inv.control.calm_of_free free) x (((members x).mp member).resolve_left same)
  · have other := not_or.mp (mt (members x).mpr absent)
    change (k.data x).getD (s.disk x) = s.disk x
    rw [filled, update_of_ne other.1]
    exact clean.clean x other.2

theorem Clean.next {s' : State P} {e : Event P} (clean : Clean s) (inv : Inv s) (fits : HomeOnly s e)
    (effect : Effect s e s') : Clean s' := by
  cases effect with
  | begin p idle calm room | finish p i inside calm =>
    exact ⟨clean.home, fun _ => clean.cached (inv.control.calm_of_free calm), clean.clean⟩
  | write p b contents i k inside logged => exact clean.write inv inside fits logged
  | commit p k disk here some ran =>
    obtain ⟨log, _⟩ := inv.journal.wrote ran
    have agree := commitLog_clean (clean.apart inv) clean.clean ran
    refine ⟨?_, fun calm => (calm p (update_self _ _ _)).elim, ?_⟩
    · change ∀ b ∈ headerList k.log.lh, Home k.log b
      rw [log]
      exact clean.home
    · change ∀ b, b ∉ headerList k.log.lh → view k disk b = disk b
      rw [log]
      exact agree
  | idle p here none | done p here =>
    exact ⟨clean.home, fun calm => clean.cached (calm_of_move (by rw [here]; simp) calm), clean.clean⟩
  | install p k disk here ran =>
    obtain ⟨log, _⟩ := installed ran
    have agree := commitInstall_clean (clean.apart inv) clean.clean ran
    have empty : headerList k.log.lh = [] := by
      rw [log]
      rfl
    refine ⟨fun b member => ?_, fun _ b member => ?_, fun b _ => agree b⟩
    · change b ∈ headerList k.log.lh at member
      rw [empty] at member
      cases member
    · change b ∈ headerList k.log.lh at member
      rw [empty] at member
      cases member

theorem Clean.of_reachable (reachable : Reachable Init (Steps HomeOnly) s) : Clean s := by
  have both : Inv s ∧ Clean s := by
    refine reachable.invariant (fun s => Inv s ∧ Clean s) (fun s start => ⟨Inv.init start, Clean.init start⟩) ?_
    rintro s s' ⟨inv, clean⟩ ⟨e, fits, taken⟩
    exact ⟨inv.next taken, clean.next inv fits (step_effect taken)⟩
  exact both.2

omit [DecidableEq P] in
theorem Clean.pending (clean : Clean s) (inv : Inv s) (calm : ∀ p, s.pc p ≠ .installing) :
    ∃ t : Transaction, t.blocks.map Prod.fst = headerList s.k.log.lh ∧ t.start = s.k.log.start ∧ t.Pending s.k s.disk := by
  have length := length_headerList s.k.log.lh
  have positive := inv.journal.positive
  have small := inv.journal.small
  have nodup := inv.journal.nodup
  obtain ⟨t, start, size, blocks, staged⟩ :=
    @exists_staged s.k s.disk LOGSIZE positive small.le (by omega) nodup clean.home (clean.cached calm)
  have names : t.blocks.map Prod.fst = headerList s.k.log.lh := by
    rw [blocks, map_map]
    exact map_id _
  refine ⟨t, names, start, ⟨staged.start, ?_, staged.count, staged.listed, staged.dirty, fun b absent => ?_⟩⟩
  · rw [size]
    exact inv.journal.size
  · have same := clean.clean b (by rwa [← names])
    unfold view at same
    cases there : s.k.data b with
    | none => exact .inl rfl
    | some contents =>
      rw [there, Option.getD_some] at same
      exact .inr (congrArg some same)

/-- Group commit. In commit no operation is running, and none begins or logs until it is over; the header on the
disk is empty or lists exactly the blocks of operations that have all ended, each of which is in one commit only; a
commit finds the blocks of its group as one transaction; and of the panics only that of a full log can be reached. -/
theorem commits_whole_operations (reachable : Reachable Init (Steps fun _ _ => True) s) :
    (∀ p, inCommit (s.pc p) = true → s.outstanding = 0 ∧ (∀ q i, s.pc q ≠ .inside i) ∧ ∀ op ∈ s.group, op.ended = true) ∧
      (s.committing = true → ∀ e s', step s e = some (.ok s') →
        (∀ p, e ≠ .begin p) ∧ ∀ b ∈ headerList s'.k.log.lh, b ∈ headerList s.k.log.lh) ∧
      (getWord (s.disk s.k.log.start) 0 = 0 ∨ ∃ commit ∈ s.commits, Names (s.disk s.k.log.start) commit.2) ∧
      (∀ commit ∈ s.commits, (∀ op ∈ commit.1, op.ended = true) ∧ ∀ b, b ∈ commit.2 ↔ b ∈ logged commit.1) ∧
      (ids s).Nodup ∧
      (∀ e s', step s e = some (.ok s') → s'.disk ≠ s.disk → ∃ p, e = .commit p ∨ e = .install p) ∧
      (Reachable Init (Steps HomeOnly) s → ∀ p, s.pc p = .committing → ∃ t : Transaction,
        t.blocks.map Prod.fst = headerList s.k.log.lh ∧ t.start = s.k.log.start ∧ t.Pending s.k s.disk) ∧
      ∀ e message, step s e = some (.error message) → message = "too big a transaction" := by
  have inv := Inv.of_reachable reachable
  refine ⟨fun p here => ?_, fun busy e s' taken => inv.frozen busy (step_effect taken), inv.header, inv.journal.committed,
    inv.journal.unique, fun e s' taken changed => disk_of_effect (step_effect taken) changed, fun homes p here => ?_,
    inv.panics⟩
  · have busy := inv.control.quiet p here
    exact ⟨inv.control.calm busy, inv.control.nobody busy, inv.control.ended here⟩
  · exact (Clean.of_reachable homes).pending inv (inv.control.calm_but (by rw [here]; rfl) (by rw [here]; simp))

/-- The second operation goes on after the first has ended, and logs a block of the first again. -/
def overlapping : List (Event (Fin 3)) :=
  [.begin 0, .begin 1, .write 0 46#32 fun _ => 1, .write 1 47#32 fun _ => 2, .finish 0, .write 1 46#32 fun _ => 3,
    .finish 1]

theorem commits_whole_operations_overlapping : ∃ s s' : State (Fin 3),
    overlapping.foldlM (allowed HomeOnly step) fresh = some s ∧ step s (.commit 1) = some (.ok s') ∧
      (s.outstanding = 0 ∧ (∀ q i, s.pc q ≠ .inside i) ∧ ∀ op ∈ s.group, op.ended = true) ∧
      (∃ t : Transaction, t.blocks.map Prod.fst = [46#32, 47#32] ∧ t.start = 2#32 ∧ t.Pending s.k s.disk) ∧
      (∃ commit ∈ s'.commits, Names (s'.disk 2#32) commit.2 ∧ (∀ op ∈ commit.1, op.ended = true) ∧
        ∀ b, b ∈ commit.2 ↔ b ∈ logged commit.1) ∧
      (ids s').Nodup := by
  have played : ((overlapping.foldlM (allowed HomeOnly step) fresh).bind fun s =>
      (allowed HomeOnly step s (.commit 1)).map fun s' => (s.pc 1, headerList s.k.log.lh, s.k.log.start, s'.k.log.start,
        getWord (s'.disk 2#32) 0)) = some (.committing, [46#32, 47#32], 2#32, 2#32, 2#32) := by
    decide +kernel
  obtain ⟨s, found, played⟩ := Option.bind_eq_some_iff.mp played
  obtain ⟨s', committed, facts⟩ := Option.map_eq_some_iff.mp played
  simp only [Prod.mk.injEq] at facts
  obtain ⟨here, listed, start, start', count⟩ := facts
  obtain ⟨fits, taken⟩ := allowed_eq_some committed
  have homes : Reachable Init (Steps HomeOnly) s := .allowed fresh_init found
  have any : ∀ s s' : State (Fin 3), Steps HomeOnly s s' → Steps (fun _ _ => True) s s' :=
    fun _ _ ⟨e, _, taken⟩ => ⟨e, trivial, taken⟩
  have before := commits_whole_operations (homes.mono any)
  have after := commits_whole_operations ((homes.step s s' ⟨_, fits, taken⟩).mono any)
  refine ⟨s, s', found, taken, before.1 1 (by rw [here]; rfl), ?_, ?_, after.2.2.2.2.1⟩
  · obtain ⟨t, blocks, begins, pending⟩ := before.2.2.2.2.2.2.1 homes 1 here
    exact ⟨t, blocks.trans listed, begins.trans start, pending⟩
  · have header := after.2.2.1
    rw [start', count] at header
    obtain ⟨commit, member, names⟩ := header.resolve_left (by decide)
    exact ⟨commit, member, names, after.2.2.2.1 commit member⟩

end Commits

end Xv6.Disklog.Operations
