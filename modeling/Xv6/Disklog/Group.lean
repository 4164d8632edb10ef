import Xv6.Disklog.Recovery
import Xv6.Lib.Transition

/-! Operations that share the log: begin_op, log_write and end_op by any number of processes, each section
under log.lock one step, and commit, which runs without the lock, in its two halves. -/

namespace Xv6.Disklog.Group
open Lib.Bytes Lib.Crash Lib.Transition Commit Buffers Recovery Function List Option

/-- The test of begin_op: the new value of outstanding, none if the caller sleeps. -/
def beginOp (log : Log) (outstanding : Int) (committing : Bool) : Option Int :=
  if committing then none
  else if log.lh.n + (outstanding + 1) * MAXOPBLOCKS > LOGSIZE then none
  else some (outstanding + 1)

/-- The loop of log_write: the first entry that holds the block, n if there is none. -/
def slotOf (lh : Logheader) (b : Blockno) : Nat :=
  ((List.range lh.n.toNat).find? fun i => decide (lh.block i = b)).getD lh.n.toNat

def bpin (k : Kernel) (b : Blockno) : Kernel := k.setRef b (k.refcnt b + 1)

def logWrite (k : Kernel) (outstanding : Int) (b : Blockno) : Except String Kernel :=
  let lh := k.log.lh
  if lh.n ≥ LOGSIZE ∨ lh.n ≥ k.log.size - 1 then .error "too big a transaction"
  else if outstanding < 1 then .error "log_write outside of trans"
  else
    let i := slotOf lh b
    let block := update lh.block i b
    if i = lh.n.toNat then .ok ((bpin k b).setHeader { n := lh.n + 1, block := block })
    else .ok (k.setHeader { lh with block := block })

/-- The first section of end_op: the new value of outstanding, and whether to commit. -/
def endOp (outstanding : Int) (committing : Bool) : Except String (Int × Bool) :=
  if committing then .error "log.committing" else .ok (outstanding - 1, decide (outstanding - 1 = 0))

/-- The first half of commit: up to the header that makes the transaction durable. -/
def commitLog : LogM Unit := do
  writeLog
  writeHead

def commitInstall : LogM Unit := do
  installTrans false
  modifyMemory clearHeader
  writeHead

/-- A part of commit that is not cut off by a power loss. -/
def run (prog : LogM Unit) (k : Kernel) (disk : Disk) : Except String (Kernel × Disk) :=
  match prog ⟨disk, k, [], none⟩ with
  | .ok _ m => .ok (m.memory, m.disk)
  | .error (.panic message) _ => .error message
  | .error .powerLoss _ => .error "power"

/-- An operation: its number, the blocks it has logged, and whether it has called end_op. -/
structure Operation where
  id : Nat
  blocks : List Blockno
  ended : Bool
  deriving DecidableEq

/-- Where a process is: in no operation, in one (its place in the group), or in commit. -/
inductive Pc where
  | idle
  | inside (i : Nat)
  | committing
  | installing
  | finishing
  deriving DecidableEq

variable {P : Type}

/-- The log with the processes that use it. The last three fields only watch: the operations begun so far,
those not yet committed, and for every header that reached the disk its operations and its blocks. -/
structure State (P : Type) where
  k : Kernel
  disk : Disk
  outstanding : Int
  committing : Bool
  pc : P → Pc
  begun : Nat
  group : List Operation
  commits : List (List Operation × List Blockno)

inductive Event (P : Type) where
  | begin (p : P)
  | write (p : P) (b : Blockno) (contents : Block)
  | finish (p : P)
  | commit (p : P)
  | install (p : P)
  | done (p : P)

def headerList (lh : Logheader) : List Blockno := (List.range lh.n.toNat).map lh.block

def Operation.log (op : Operation) (b : Blockno) : Operation := { op with blocks := b :: op.blocks }

def Operation.finish (op : Operation) : Operation := { op with ended := true }

def State.move [DecidableEq P] (s : State P) (p : P) (pc : Pc) : State P := { s with pc := update s.pc p pc }

/-- The process has begun an operation. -/
def State.enter [DecidableEq P] (s : State P) (p : P) (outstanding : Int) : State P :=
  { s.move p (.inside s.group.length) with
    outstanding := outstanding, begun := s.begun + 1, group := s.group ++ [⟨s.begun, [], false⟩] }

/-- One step; none if the process is not there or sleeps. A write fills the buffer of the block and logs it. -/
def step [DecidableEq P] (s : State P) : Event P → Option (Except String (State P))
  | .begin p =>
      if s.pc p = .idle then
        (beginOp s.k.log s.outstanding s.committing).map fun outstanding => .ok (s.enter p outstanding)
      else none
  | .write p b contents =>
      match s.pc p with
      | .inside i => some do
          let k ← logWrite (s.k.fill b contents) s.outstanding b
          pure { s with k := k, group := s.group.modify i (·.log b) }
      | _ => none
  | .finish p =>
      match s.pc p with
      | .inside i => some do
          let (outstanding, commits) ← endOp s.outstanding s.committing
          pure { s.move p (if commits then .committing else .idle) with
            outstanding := outstanding, committing := commits, group := s.group.modify i Operation.finish }
      | _ => none
  | .commit p =>
      if s.pc p = .committing then some (
        if s.k.log.lh.n > 0 then do
          let (k, disk) ← run commitLog s.k s.disk
          pure { s.move p .installing with
            k := k, disk := disk, group := [], commits := (s.group, headerList s.k.log.lh) :: s.commits }
        else pure { s.move p .finishing with group := [] })
      else none
  | .install p =>
      if s.pc p = .installing then some do
        let (k, disk) ← run commitInstall s.k s.disk
        pure { s.move p .finishing with k := k, disk := disk }
      else none
  | .done p => if s.pc p = .finishing then some (.ok { s.move p .idle with committing := false }) else none

def Home (log : Log) (b : Blockno) : Prop := ∀ j, j < LOGSIZE → b ≠ log.start + BitVec.ofNat 32 j

def HomeOnly (s : State P) : Event P → Prop
  | .write _ b _ => Home s.k.log b
  | _ => True

instance (s : State P) : (e : Event P) → Decidable (HomeOnly s e)
  | .write _ b _ => inferInstanceAs (Decidable (∀ j, j < LOGSIZE → b ≠ s.k.log.start + BitVec.ofNat 32 j))
  | .begin _ | .finish _ | .commit _ | .install _ | .done _ => .isTrue trivial

def blocksOf (s : State P) (p : P) : List Blockno :=
  match s.pc p with
  | .inside i => (s.group[i]?.map Operation.blocks).getD []
  | _ => []

/-- Every operation logs at most MAXOPBLOCKS different blocks. -/
def Bounded (s : State P) : Event P → Prop
  | .write p b _ => (insert b (blocksOf s p).toFinset).card ≤ MAXOPBLOCKS
  | _ => True

instance (s : State P) : (e : Event P) → Decidable (Bounded s e)
  | .write p b _ => inferInstanceAs (Decidable ((insert b (blocksOf s p).toFinset).card ≤ MAXOPBLOCKS))
  | .begin _ | .finish _ | .commit _ | .install _ | .done _ => .isTrue trivial

def Steps [DecidableEq P] (fits : State P → Event P → Prop) (s s' : State P) : Prop := ∃ e, fits s e ∧ step s e = some (.ok s')

/-- The log after the recovery at boot: the size is the one that mkfs writes. -/
structure Init (s : State P) : Prop where
  size : s.k.log.size = LOGSIZE
  empty : s.k.log.lh.n = 0
  clean : ∀ b, view s.k s.disk b = s.disk b
  header : getWord (s.disk s.k.log.start) 0 = 0
  idle : ∀ p, s.pc p = .idle
  calm : s.outstanding = 0 ∧ s.committing = false
  nothing : s.group = [] ∧ s.commits = []

section Header
variable {lh : Logheader} {b : Blockno}

theorem length_headerList (lh : Logheader) : (headerList lh).length = lh.n.toNat := by simp [headerList]

theorem slotOf_none (absent : b ∉ headerList lh) : slotOf lh b = lh.n.toNat := by
  unfold slotOf
  rw [List.find?_eq_none.mpr, getD_none]
  intro i member
  rw [decide_eq_true_eq]
  rintro rfl
  exact absent (mem_map.mpr ⟨i, member, rfl⟩)

theorem slotOf_some (present : b ∈ headerList lh) : slotOf lh b < lh.n.toNat ∧ lh.block (slotOf lh b) = b := by
  obtain ⟨i, member, here⟩ := mem_map.mp present
  obtain ⟨j, found⟩ := isSome_iff_exists.mp
    (List.find?_isSome.mpr ⟨i, member, decide_eq_true here⟩ : ((List.range lh.n.toNat).find? fun i =>
      decide (lh.block i = b)).isSome)
  have slot : slotOf lh b = j := by
    unfold slotOf
    rw [found, getD_some]
  have holds := List.find?_some found
  rw [slot]
  exact ⟨mem_range.mp (mem_of_find?_eq_some found), by simpa using holds⟩

theorem headerList_append (positive : 0 ≤ lh.n) (b : Blockno) :
    headerList { n := lh.n + 1, block := update lh.block lh.n.toNat b } = headerList lh ++ [b] := by
  have count : (lh.n + 1).toNat = lh.n.toNat + 1 := by omega
  unfold headerList
  simp only [count, range_succ, map_append, map_singleton, update_self]
  congr 1
  refine map_congr_left fun i member => update_of_ne ?_ _ _
  exact Nat.ne_of_lt (mem_range.mp member)

theorem logWrite_ok (k : Kernel) (outstanding : Int) (b : Blockno)
    (room : k.log.lh.n < LOGSIZE ∧ k.log.lh.n < k.log.size - 1) (some : 1 ≤ outstanding) :
    ∃ k', logWrite k outstanding b = .ok k' := by
  have fits : ¬(k.log.lh.n ≥ LOGSIZE ∨ k.log.lh.n ≥ k.log.size - 1) := by omega
  unfold logWrite
  simp only [if_neg fits, if_neg (Int.not_lt.mpr some)]
  split_ifs <;> exact ⟨_, rfl⟩

theorem logWrite_spec {k k' : Kernel} {outstanding : Int} (positive : 0 ≤ k.log.lh.n)
    (ran : logWrite k outstanding b = .ok k') :
    k'.data = k.data ∧ k'.log.start = k.log.start ∧ k'.log.size = k.log.size ∧ 0 ≤ k'.log.lh.n ∧
      headerList k'.log.lh = (if b ∈ headerList k.log.lh then headerList k.log.lh else headerList k.log.lh ++ [b]) ∧
      k'.refcnt = if b ∈ headerList k.log.lh then k.refcnt else update k.refcnt b (k.refcnt b + 1) := by
  unfold logWrite at ran
  simp only at ran
  split_ifs at ran with full outside new
  all_goals cases ran
  · have absent : b ∉ headerList k.log.lh := fun present => (slotOf_some present).1.ne new
    rw [if_neg absent, if_neg absent, new]
    exact ⟨rfl, rfl, rfl, Int.le_add_one positive, headerList_append positive b, rfl⟩
  · have present : b ∈ headerList k.log.lh := by
      by_contra absent
      exact new (slotOf_none absent)
    have same : update k.log.lh.block (slotOf k.log.lh b) b = k.log.lh.block :=
      update_eq_self_iff.mpr (slotOf_some present).2.symm
    rw [if_pos present, if_pos present, same]
    exact ⟨rfl, rfl, rfl, positive, rfl, rfl⟩

theorem logWrite_room {k k' : Kernel} {outstanding : Int} (ran : logWrite k outstanding b = .ok k') :
    k.log.lh.n < LOGSIZE ∧ k.log.lh.n < k.log.size - 1 := by
  unfold logWrite at ran
  simp only at ran
  split_ifs at ran with full
  all_goals omega

theorem logWrite_error (k : Kernel) (outstanding : Int) (b : Blockno) (message : String) (some : 1 ≤ outstanding)
    (failed : logWrite k outstanding b = .error message) :
    message = "too big a transaction" ∧ (k.log.lh.n ≥ LOGSIZE ∨ k.log.lh.n ≥ k.log.size - 1) := by
  unfold logWrite at failed
  simp only [if_neg (Int.not_lt.mpr some)] at failed
  split_ifs at failed with full
  exact ⟨(Except.error.inj failed).symm, full⟩

end Header

section Halves
variable (k : Kernel) (disk : Disk)

theorem run_emits {prog : LogM Unit} {writes : List (Blockno × Block)} {k' : Kernel}
    (emits : Emits prog k disk writes () k') : run prog k disk = .ok (k', replay writes disk) := by
  have ran := (emits [] none).1 nofun
  unfold run
  rw [ran]

theorem replay_agree (writes : List (Blockno × Block)) (first second : Disk)
    (same : ∀ b, b ∉ writes.map Prod.fst → first b = second b) : replay writes first = replay writes second := by
  induction writes generalizing first second with
  | nil => exact funext fun b => same b (by simp)
  | cons entry rest ih =>
    refine ih _ _ fun b absent => ?_
    by_cases here : b = entry.1
    · rw [here, update_self, update_self]
    · rw [update_of_ne here, update_of_ne here]
      exact same b (by simpa [here] using absent)

theorem replay_same (writes : List (Blockno × Block)) (first second : Disk) (b : Blockno) (same : first b = second b) :
    replay writes first b = replay writes second b := by
  induction writes generalizing first second with
  | nil => exact same
  | cons entry rest ih =>
    refine ih _ _ ?_
    by_cases here : b = entry.1
    · rw [here, update_self, update_self]
    · rw [update_of_ne here, update_of_ne here, same]

/-- The block holds a header that lists these blocks. -/
def Names (header : Block) (blocks : List Blockno) : Prop :=
  getWord header 0 = BitVec.ofInt 32 blocks.length ∧ ∀ i, i < blocks.length → getWord header (4 + 4 * i) = blocks.getD i 0

theorem names_putHeader (buf : Block) (lh : Logheader) (positive : 0 ≤ lh.n) (small : lh.n.toNat ≤ LOGSIZE) :
    Names (putHeader buf lh) (headerList lh) := by
  have length := length_headerList lh
  refine ⟨?_, fun i bound => ?_⟩
  · rw [putHeader_word_zero, length]
    congr 1
    omega
  · rw [putHeader_entry buf lh i (by omega) small, getD_eq_getElem _ _ bound]
    simp [headerList]

theorem loop_emits (body : Nat → LogM Unit) (holds : Nat → Kernel → Prop) (start : holds 0 k)
    (one : ∀ k disk i, holds i k → ∃ writes k', Emits (body i) k disk writes () k' ∧ holds (i + 1) k') (count : Nat) :
    ∃ writes k', Emits (forM (List.range count) body) k disk writes () k' ∧ holds count k' := by
  induction count with
  | zero => exact ⟨_, _, Emits.pure () k disk, start⟩
  | succ count ih =>
    obtain ⟨writes, k₁, emits, held⟩ := ih
    obtain ⟨more, k₂, last, held₂⟩ := one k₁ (replay writes disk) count held
    refine ⟨writes ++ more, k₂, ?_, held₂⟩
    rw [range_succ, forM_append]
    refine Emits.bind emits ?_
    simpa using Emits.bind last (Emits.pure () _ _)

theorem commitLog_run (positive : 0 ≤ k.log.lh.n) (small : k.log.lh.n.toNat ≤ LOGSIZE) :
    ∃ k' disk', run commitLog k disk = .ok (k', disk') ∧ k'.log = k.log ∧
      Names (disk' k.log.start) (headerList k.log.lh) := by
  obtain ⟨writes, k₁, emits₁, log₁⟩ := loop_emits k disk writeBlock (fun _ k' => k'.log = k.log) rfl
    (fun k disk i log => ⟨_, _, writeBlock_emits k disk i, log⟩) k.log.lh.n.toNat
  have emits₂ := writeHead_emits k₁ (replay writes disk)
  refine ⟨_, _, run_emits k disk (Emits.bind (Emits.quiet (Emits.getMemory k disk) emits₁) emits₂), log₁, ?_⟩
  rw [replay_append, log₁]
  change Names (update (replay writes disk) k.log.start _ k.log.start) _
  rw [update_self]
  exact names_putHeader _ _ positive small

theorem commitInstall_run :
    ∃ k' disk', run commitInstall k disk = .ok (k', disk') ∧ k'.log = { k.log with lh := { k.log.lh with n := 0 } } ∧
      getWord (disk' k.log.start) 0 = 0 := by
  obtain ⟨writes, k₁, emits₁, log₁⟩ := loop_emits k disk (installBlock false) (fun _ k' => k'.log = k.log) rfl
    (fun k disk i log => ⟨_, _, installBlock_emits false k disk i, log⟩) k.log.lh.n.toNat
  have emits₂ := writeHead_emits (clearHeader k₁) (replay writes disk)
  refine ⟨_, _, run_emits k disk (Emits.bind (Emits.quiet (Emits.getMemory k disk) emits₁)
    (Emits.quiet (Emits.modifyMemory clearHeader k₁ _) emits₂)), ?_, ?_⟩
  · change ({ k₁.log with lh := { k₁.log.lh with n := 0 } } : Log) = _
    rw [log₁]
  · have start : (clearHeader k₁).log.start = k.log.start := by
      change k₁.log.start = k.log.start
      rw [log₁]
    rw [replay_append, start]
    change getWord (update (replay writes disk) k.log.start _ k.log.start) 0 = 0
    rw [update_self, putHeader_word_zero]
    rfl

def Apart (log : Log) : Prop := (∀ b ∈ headerList log.lh, Home log b) ∧ log.lh.n.toNat < LOGSIZE

variable {k disk}

theorem Apart.logBlock (apart : Apart k.log) (i j : Nat) (iBound : i < k.log.lh.n.toNat) (jBound : j < k.log.lh.n.toNat) :
    k.log.lh.block i ≠ logBlock k.log.start j := by
  have home := apart.1 (k.log.lh.block i) (mem_map.mpr ⟨i, mem_range.mpr iBound, rfl⟩) (j + 1)
    (by have small := apart.2; omega)
  unfold Buffers.logBlock
  rw [BitVec.add_assoc]
  rwa [BitVec.ofNat_add] at home

theorem commitLog_clean (apart : Apart k.log) (clean : ∀ b, b ∉ headerList k.log.lh → view k disk b = disk b)
    {k' : Kernel} {disk' : Disk} (ran : run commitLog k disk = .ok (k', disk')) :
    ∀ b, b ∉ headerList k.log.lh → view k' disk' b = disk' b := by
  obtain ⟨k₁, emits₁, log₁, view₁⟩ := writeLog_emits k disk fun i j iBound jBound =>
    (Apart.logBlock apart j i jBound iBound).symm
  generalize copies (logBlock k.log.start) k.log.lh.block (view k disk) k.log.lh.n.toNat = writes at emits₁ view₁
  have emits₂ := writeHead_emits k₁ (replay writes disk)
  have view₂ := view_afterWriteHead k₁ (replay writes disk)
  obtain ⟨rfl, rfl⟩ := Prod.mk.inj (Except.ok.inj (ran.symm.trans (run_emits k disk (Emits.bind emits₁ emits₂))))
  intro b absent
  rw [replay_append]
  change view _ (update (replay writes disk) k₁.log.start _) b = update (replay writes disk) k₁.log.start _ b
  rw [view₂, view₁]
  by_cases here : b = k₁.log.start
  · rw [here, update_self, update_self]
  · rw [update_of_ne here, update_of_ne here]
    exact replay_same writes _ _ b (clean b absent)

theorem commitInstall_clean (apart : Apart k.log) (clean : ∀ b, b ∉ headerList k.log.lh → view k disk b = disk b)
    {k' : Kernel} {disk' : Disk} (ran : run commitInstall k disk = .ok (k', disk')) : ∀ b, view k' disk' b = disk' b := by
  obtain ⟨k₁, emits₁, log₁, view₁⟩ := installTrans_emits false k disk (Apart.logBlock apart)
  have targets : (copies k.log.lh.block (logBlock k.log.start) (view k disk) k.log.lh.n.toNat).map Prod.fst =
      headerList k.log.lh := by
    simp [copies, headerList]
  generalize copies k.log.lh.block (logBlock k.log.start) (view k disk) k.log.lh.n.toNat = writes at emits₁ view₁ targets
  have installed : view k₁ (replay writes disk) = replay writes disk := by
    rw [view₁]
    exact replay_agree writes _ _ fun b absent => clean b (by rwa [targets] at absent)
  have emits₂ := writeHead_emits (clearHeader k₁) (replay writes disk)
  have view₂ := view_afterWriteHead (clearHeader k₁) (replay writes disk)
  obtain ⟨rfl, rfl⟩ := Prod.mk.inj (Except.ok.inj (ran.symm.trans (run_emits k disk (Emits.bind emits₁
    (Emits.quiet (Emits.modifyMemory clearHeader k₁ _) emits₂)))))
  intro b
  rw [replay_append]
  change view _ (update (replay writes disk) (clearHeader k₁).log.start _) b =
    update (replay writes disk) (clearHeader k₁).log.start _ b
  rw [view₂]
  change update (view k₁ (replay writes disk)) _ _ b = _
  rw [installed]

theorem exists_staged {size : Nat} (positive : 0 ≤ k.log.lh.n) (bounded : k.log.lh.n ≤ LOGSIZE)
    (fits : k.log.lh.n.toNat < size) (nodup : (headerList k.log.lh).Nodup)
    (outside : ∀ b ∈ headerList k.log.lh, ∀ j, j < size → b ≠ k.log.start + BitVec.ofNat 32 j)
    (cached : ∀ b ∈ headerList k.log.lh, (k.data b).isSome) : ∃ t : Transaction, t.start = k.log.start ∧ t.size = size ∧
      t.blocks = (headerList k.log.lh).map (fun b => (b, view k disk b)) ∧ t.Staged k := by
  have length := length_headerList k.log.lh
  have names : ((headerList k.log.lh).map fun b => (b, view k disk b)).map Prod.fst = headerList k.log.lh := by
    rw [List.map_map]
    exact List.map_id _
  let t : Transaction :=
    { start := k.log.start
      size := size
      blocks := (headerList k.log.lh).map fun b => (b, view k disk b)
      distinct := by
        rw [names]
        exact nodup
      fits := by
        rw [length_map]
        omega
      bounded := by
        rw [length_map]
        omega
      outside := by
        intro entry member
        obtain ⟨b, listed, rfl⟩ := mem_map.mp member
        exact outside b listed }
  have total : t.blocks.length = k.log.lh.n.toNat := (length_map _).trans length
  refine ⟨t, rfl, rfl, rfl, ⟨rfl, ?_, fun i bound => ?_, fun entry member => ?_⟩⟩
  · omega
  · have target : t.target i = (headerList k.log.lh).getD i 0 := congrArg (fun blocks : List Blockno => blocks.getD i 0) names
    rw [target, getD_eq_getElem _ _ (by omega)]
    simp [headerList]
  · obtain ⟨b, listed, rfl⟩ := mem_map.mp member
    obtain ⟨contents, there⟩ := Option.isSome_iff_exists.mp (cached b listed)
    simp only [view, there, Option.getD_some]

end Halves

section Steps
variable [DecidableEq P] {s s' : State P} {e : Event P}

inductive Effect (s : State P) : Event P → State P → Prop where
  | begin (p : P) (idle : s.pc p = .idle) (calm : s.committing = false)
      (room : s.k.log.lh.n + (s.outstanding + 1) * MAXOPBLOCKS ≤ LOGSIZE) :
      Effect s (.begin p) (s.enter p (s.outstanding + 1))
  | write (p : P) (b : Blockno) (contents : Block) (i : Nat) (k : Kernel) (inside : s.pc p = .inside i)
      (logged : logWrite (s.k.fill b contents) s.outstanding b = .ok k) :
      Effect s (.write p b contents) { s with k := k, group := s.group.modify i (·.log b) }
  | finish (p : P) (i : Nat) (inside : s.pc p = .inside i) (calm : s.committing = false) :
      Effect s (.finish p) { s.move p (if s.outstanding - 1 = 0 then .committing else .idle) with
        outstanding := s.outstanding - 1, committing := decide (s.outstanding - 1 = 0),
        group := s.group.modify i Operation.finish }
  | commit (p : P) (k : Kernel) (disk : Disk) (here : s.pc p = .committing) (some : 0 < s.k.log.lh.n)
      (ran : run commitLog s.k s.disk = .ok (k, disk)) :
      Effect s (.commit p) { s.move p .installing with
        k := k, disk := disk, group := [], commits := (s.group, headerList s.k.log.lh) :: s.commits }
  | idle (p : P) (here : s.pc p = .committing) (none : s.k.log.lh.n ≤ 0) :
      Effect s (.commit p) { s.move p .finishing with group := [] }
  | install (p : P) (k : Kernel) (disk : Disk) (here : s.pc p = .installing)
      (ran : run commitInstall s.k s.disk = .ok (k, disk)) :
      Effect s (.install p) { s.move p .finishing with k := k, disk := disk }
  | done (p : P) (here : s.pc p = .finishing) : Effect s (.done p) { s.move p .idle with committing := false }

theorem beginOp_some {log : Log} {outstanding outstanding' : Int} {committing : Bool}
    (admitted : beginOp log outstanding committing = some outstanding') :
    committing = false ∧ log.lh.n + (outstanding + 1) * MAXOPBLOCKS ≤ LOGSIZE ∧ outstanding' = outstanding + 1 := by
  unfold beginOp at admitted
  split_ifs at admitted with busy full
  exact ⟨by simpa using busy, Int.not_lt.mp full, (Option.some.inj admitted).symm⟩

theorem step_effect (taken : step s e = some (.ok s')) : Effect s e s' := by
  cases e with
  | begin p =>
    simp only [step] at taken
    split at taken
    next idle =>
      obtain ⟨outstanding, admitted, same⟩ := map_eq_some_iff.mp taken
      obtain ⟨calm, room, rfl⟩ := beginOp_some admitted
      obtain rfl := Except.ok.inj same
      exact .begin p idle calm room
    next => cases taken
  | write p b contents =>
    simp only [step] at taken
    split at taken
    next i inside =>
      cases logged : logWrite (s.k.fill b contents) s.outstanding b with
      | error message =>
        rw [logged] at taken
        cases taken
      | ok k =>
        rw [logged] at taken
        cases taken
        exact .write p b contents i k inside logged
    next => cases taken
  | finish p =>
    simp only [step] at taken
    split at taken
    next i inside =>
      unfold endOp at taken
      split_ifs at taken with busy
      · cases taken
      · have shape := Except.ok.inj (Option.some.inj taken)
        have effect := Effect.finish (s := s) p i inside (by simpa using busy)
        rw [← shape]
        simpa using effect
    next => cases taken
  | commit p =>
    simp only [step] at taken
    split_ifs at taken with here some
    · cases ran : run commitLog s.k s.disk with
      | error message =>
        rw [ran] at taken
        cases taken
      | ok result =>
        rw [ran] at taken
        cases taken
        exact .commit p _ _ here some ran
    · cases taken
      exact .idle p here (Int.not_lt.mp some)
  | install p =>
    simp only [step] at taken
    split_ifs at taken with here
    cases ran : run commitInstall s.k s.disk with
    | error message =>
      rw [ran] at taken
      cases taken
    | ok result =>
      rw [ran] at taken
      cases taken
      exact .install p _ _ here ran
  | done p =>
    simp only [step] at taken
    split_ifs at taken with here
    cases taken
    exact .done p here

end Steps

end Xv6.Disklog.Group
