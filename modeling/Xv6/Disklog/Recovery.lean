import Xv6.Disklog.Buffers

/-! Crash atomicity of the redo log: commit and any number of interrupted
recoveries leave a disk from which the next complete recovery restores either
the old or the new contents of all home blocks. -/

namespace Xv6.Disklog.Recovery
open Lib.Bytes Lib.Crash Commit Buffers Function List BitVec

theorem putHeader_word_zero (buf : Block) (lh : Logheader) : getWord (putHeader buf lh) 0 = BitVec.ofInt 32 lh.n := by
  unfold putHeader
  generalize lh.n.toNat = count
  induction count with
  | zero => exact getWord_setWord_same buf 0 _ (by decide)
  | succ count ih =>
    rw [range_succ, foldl_append]
    simp only [foldl_cons, foldl_nil]
    rw [getWord_setWord_other _ _ _ _ (by omega)]
    exact ih

theorem putHeader_entry (buf : Block) (lh : Logheader) (i : Nat) (bound : i < lh.n.toNat)
    (small : lh.n.toNat ≤ LOGSIZE) : getWord (putHeader buf lh) (4 + 4 * i) = lh.block i := by
  unfold putHeader
  generalize lh.n.toNat = count at bound small
  have limit : LOGSIZE = 30 := rfl
  have room : BSIZE = 1024 := rfl
  induction count with
  | zero => omega
  | succ count ih =>
    rw [range_succ, foldl_append]
    simp only [foldl_cons, foldl_nil]
    by_cases last : i = count
    · subst last
      exact getWord_setWord_same _ _ _ (by omega)
    · rw [getWord_setWord_other _ _ _ _ (by omega)]
      exact ih (by omega) (by omega)

/-- A set of logged home blocks with their new contents, as log_write accepts it. -/
structure Transaction where
  start : Blockno
  size : Nat
  blocks : List (Blockno × Block)
  distinct : (blocks.map Prod.fst).Nodup
  fits : blocks.length < size
  bounded : blocks.length ≤ LOGSIZE
  outside : ∀ entry ∈ blocks, ∀ k, k < size → entry.1 ≠ start + BitVec.ofNat 32 k

namespace Transaction

variable (t : Transaction)

def Home (b : Blockno) : Prop := ∀ k, k < t.size → b ≠ t.start + BitVec.ofNat 32 k

def target (i : Nat) : Blockno := (t.blocks.map Prod.fst).getD i 0

def contents (i : Nat) : Block := (t.blocks.map Prod.snd).getD i (fun _ => 0)

/-- The disk once the whole transaction is installed. -/
def after (disk : Disk) : Disk := replay t.blocks disk

/-- The memory of a kernel that is about to commit the transaction: the header
lists the blocks, their new contents are cached, every other buffer is clean. -/
structure Pending (k : Kernel) (disk : Disk) : Prop where
  start : k.log.start = t.start
  size : k.log.size = t.size
  count : k.log.lh.n = t.blocks.length
  listed : ∀ i, i < t.blocks.length → k.log.lh.block i = t.target i
  dirty : ∀ entry ∈ t.blocks, k.data entry.1 = some entry.2
  clean : ∀ b, b ∉ t.blocks.map Prod.fst → k.data b = none ∨ k.data b = some (disk b)

/-- The part of this that concerns the blocks of the transaction. -/
structure Staged (k : Kernel) : Prop where
  start : k.log.start = t.start
  count : k.log.lh.n = t.blocks.length
  listed : ∀ i, i < t.blocks.length → k.log.lh.block i = t.target i
  dirty : ∀ entry ∈ t.blocks, k.data entry.1 = some entry.2

variable {t} in
theorem Pending.staged {k : Kernel} {disk : Disk} (pending : t.Pending k disk) : t.Staged k :=
  ⟨pending.start, pending.count, pending.listed, pending.dirty⟩

theorem target_mem (i : Nat) (bound : i < t.blocks.length) : (t.target i, t.contents i) ∈ t.blocks := by
  have entry : (t.target i, t.contents i) = t.blocks[i] := by
    simp [target, contents, getD_eq_getElem?_getD, List.getElem?_eq_getElem bound]
  rw [entry]
  exact getElem_mem bound

theorem home_target (i : Nat) (bound : i < t.blocks.length) : t.Home (t.target i) :=
  t.outside _ (t.target_mem i bound)

theorem blocks_eq : t.blocks = (List.range t.blocks.length).map fun i => (t.target i, t.contents i) := by
  apply ext_getElem
  · simp
  · intro i left right
    simp [target, contents, getD_eq_getElem?_getD, List.getElem?_eq_getElem left]

theorem logBlock_offset (i : Nat) : logBlock t.start i = t.start + BitVec.ofNat 32 (i + 1) := by
  unfold logBlock
  rw [add_assoc]
  congr 1
  apply eq_of_toNat_eq
  simp

theorem home_ne_logBlock (b : Blockno) (home : t.Home b) (i : Nat) (bound : i < t.blocks.length) :
    b ≠ logBlock t.start i := by
  rw [logBlock_offset]
  exact home (i + 1) (by have room := t.fits; omega)

theorem home_ne_start (b : Blockno) (home : t.Home b) : b ≠ t.start := by
  have first := home 0 (by have room := t.fits; omega)
  simpa using first

theorem logBlock_ne_start (i : Nat) (bound : i < t.blocks.length) : logBlock t.start i ≠ t.start := by
  have limit := t.bounded
  have small : LOGSIZE = 30 := rfl
  rw [logBlock_offset]
  intro same
  have value := congrArg BitVec.toNat same
  simp only [toNat_add, toNat_ofNat] at value
  have startBound := t.start.isLt
  omega

theorem logBlock_injective (i j : Nat) (iBound : i < t.blocks.length) (jBound : j < t.blocks.length)
    (same : logBlock t.start i = logBlock t.start j) : i = j := by
  have limit := t.bounded
  have small : LOGSIZE = 30 := rfl
  rw [logBlock_offset, logBlock_offset] at same
  have value := congrArg BitVec.toNat same
  simp only [toNat_add, toNat_ofNat] at value
  have startBound := t.start.isLt
  omega

def Lists (header : Block) : Prop :=
  getWord header 0 = BitVec.ofInt 32 t.blocks.length ∧
    ∀ i, i < t.blocks.length → getWord header (4 + 4 * i) = t.target i

theorem lists_putHeader (buf : Block) (lh : Logheader) (count : lh.n = t.blocks.length)
    (listed : ∀ i, i < t.blocks.length → lh.block i = t.target i) : t.Lists (putHeader buf lh) := by
  have length : lh.n.toNat = t.blocks.length := by omega
  constructor
  · rw [putHeader_word_zero, count]
  · intro i bound
    rw [putHeader_entry buf lh i (by omega) (by rw [length]; exact t.bounded)]
    exact listed i bound

theorem count_toInt : (BitVec.ofInt 32 (t.blocks.length : Int)).toInt = t.blocks.length := by
  have limit := t.bounded
  have small : LOGSIZE = 30 := rfl
  rw [toInt_ofInt]
  apply Int.bmod_eq_of_le <;> omega

end Transaction

def afterWriteHead (k : Kernel) (disk : Disk) : Kernel :=
  let held := (touch k disk k.log.start).fill k.log.start (putHeader (view k disk k.log.start) k.log.lh)
  held.setRef k.log.start (held.refcnt k.log.start - 1)

theorem writeHead_emits (k : Kernel) (disk : Disk) :
    Emits writeHead k disk [(k.log.start, putHeader (view k disk k.log.start) k.log.lh)] ()
      (afterWriteHead k disk) := by
  unfold writeHead
  refine Emits.quiet (Emits.getMemory k disk) ?_
  refine Emits.quiet (bread_emits k disk k.log.start) ?_
  refine Emits.quiet (Emits.modifyMemory _ _ disk) ?_
  exact Emits.bind (bwrite_emits _ disk k.log.start _ (update_self _ _ _)) (Emits.modifyMemory _ _ _)

theorem view_afterWriteHead (k : Kernel) (disk : Disk) :
    view (afterWriteHead k disk) (update disk k.log.start (putHeader (view k disk k.log.start) k.log.lh)) =
      update (view k disk) k.log.start (putHeader (view k disk k.log.start) k.log.lh) := by
  rw [view_update_cached _ disk _ _ _ (update_self _ _ _)]
  simp only [afterWriteHead, view_setRef, view_fill, view_touch]

theorem clearing_emits (k : Kernel) (disk : Disk) :
    ∃ k' cleared, getWord cleared 0 = 0 ∧
      Emits (do modifyMemory clearHeader; writeHead) k disk [(k.log.start, cleared)] () k' := by
  have run := writeHead_emits (clearHeader k) disk
  refine ⟨_, _, ?_, Emits.quiet (Emits.modifyMemory clearHeader k disk) run⟩
  rw [putHeader_word_zero]
  rfl

theorem writeLog_emits (k : Kernel) (disk : Disk) (apart : ∀ i j, i < k.log.lh.n.toNat → j < k.log.lh.n.toNat →
    logBlock k.log.start i ≠ k.log.lh.block j) :
    ∃ k', Emits writeLog k disk
        (copies (logBlock k.log.start) k.log.lh.block (view k disk) k.log.lh.n.toNat) () k' ∧
      k'.log = k.log ∧
      view k' (replay (copies (logBlock k.log.start) k.log.lh.block (view k disk) k.log.lh.n.toNat) disk) =
        replay (copies (logBlock k.log.start) k.log.lh.block (view k disk) k.log.lh.n.toNat) (view k disk) := by
  obtain ⟨k', run, log, views⟩ := copyLoop_emits writeBlock afterWriteBlock k.log (logBlock k.log.start)
    k.log.lh.block (fun m d i same => by rw [← same]; exact writeBlock_emits m d i)
    (fun m d i same => by rw [← same]; exact log_afterWriteBlock m d i)
    (fun m d i same => by rw [← same]; exact view_afterWriteBlock m d i) k disk rfl k.log.lh.n.toNat apart
  exact ⟨k', Emits.quiet (Emits.getMemory k disk) run, log, views⟩

theorem installTrans_emits (recovering : Bool) (k : Kernel) (disk : Disk)
    (apart : ∀ i j, i < k.log.lh.n.toNat → j < k.log.lh.n.toNat → k.log.lh.block i ≠ logBlock k.log.start j) :
    ∃ k', Emits (installTrans recovering) k disk
        (copies k.log.lh.block (logBlock k.log.start) (view k disk) k.log.lh.n.toNat) () k' ∧
      k'.log = k.log ∧
      view k' (replay (copies k.log.lh.block (logBlock k.log.start) (view k disk) k.log.lh.n.toNat) disk) =
        replay (copies k.log.lh.block (logBlock k.log.start) (view k disk) k.log.lh.n.toNat) (view k disk) := by
  obtain ⟨k', run, log, views⟩ := copyLoop_emits (installBlock recovering) (afterInstallBlock recovering) k.log
    k.log.lh.block (logBlock k.log.start) (fun m d i same => by rw [← same]; exact installBlock_emits recovering m d i)
    (fun m d i same => by rw [← same]; exact log_afterInstallBlock recovering m d i)
    (fun m d i same => by rw [← same]; exact view_afterInstallBlock recovering m d i) k disk rfl k.log.lh.n.toNat apart
  exact ⟨k', Emits.quiet (Emits.getMemory k disk) run, log, views⟩

def logWrites (t : Transaction) : List (Blockno × Block) :=
  (List.range t.blocks.length).map fun i => (logBlock t.start i, t.contents i)

variable (t : Transaction)

theorem logWrites_distinct : ((logWrites t).map Prod.fst).Nodup := by
  unfold logWrites
  rw [map_map]
  apply List.Nodup.map_on
  · intro i iMember j jMember same
    exact t.logBlock_injective i j (mem_range.mp iMember) (mem_range.mp jMember) same
  · exact nodup_range

theorem logWrites_home (disk : Disk) (count : Nat) (b : Blockno) (home : t.Home b) :
    replay ((logWrites t).take count) disk b = disk b := by
  apply replay_untouched
  intro entry member same
  obtain ⟨i, bound, rfl⟩ := mem_map.mp (mem_of_mem_take member)
  exact t.home_ne_logBlock b home i (mem_range.mp bound) same.symm

theorem logWrites_start (disk : Disk) (count : Nat) :
    replay ((logWrites t).take count) disk t.start = disk t.start := by
  apply replay_untouched
  intro entry member same
  obtain ⟨i, bound, rfl⟩ := mem_map.mp (mem_of_mem_take member)
  exact t.logBlock_ne_start i (mem_range.mp bound) same

theorem logWrites_slot (disk : Disk) (i : Nat) (bound : i < t.blocks.length) :
    replay (logWrites t) disk (logBlock t.start i) = t.contents i :=
  replay_listed (logWrites t) disk (logWrites_distinct t) (logBlock t.start i, t.contents i)
    (mem_map.mpr ⟨i, mem_range.mpr bound, rfl⟩)

theorem copies_eq_blocks (dst src : Nat → Blockno) (seen : Disk)
    (targets : ∀ i, i < t.blocks.length → dst i = t.target i)
    (values : ∀ i, i < t.blocks.length → seen (src i) = t.contents i) :
    copies dst src seen t.blocks.length = t.blocks := by
  rw [t.blocks_eq]
  unfold copies
  simp only [length_map, length_range]
  apply map_congr_left
  intro i member
  rw [targets i (mem_range.mp member), values i (mem_range.mp member)]

theorem copies_eq_logWrites (k : Kernel) (disk : Disk) (pending : t.Staged k) :
    copies (logBlock k.log.start) k.log.lh.block (view k disk) t.blocks.length = logWrites t := by
  unfold copies logWrites
  apply map_congr_left
  intro i member
  have bound := mem_range.mp member
  have cached := pending.dirty _ (t.target_mem i bound)
  rw [pending.start, pending.listed i bound]
  simp only [view, cached, Option.getD_some]

theorem commit_emits (k : Kernel) (disk : Disk) (pending : t.Staged k)
    (nonempty : 0 < t.blocks.length) :
    ∃ k' header cleared, t.Lists header ∧ getWord cleared 0 = 0 ∧
      Emits commit k disk (logWrites t ++ ((t.start, header) :: (t.blocks ++ [(t.start, cleared)]))) () k' := by
  have count : k.log.lh.n.toNat = t.blocks.length := by have h := pending.count; omega
  obtain ⟨k1, run1, log1, view1⟩ := writeLog_emits k disk (by
    intro i j iBound jBound same
    rw [count] at iBound jBound
    rw [pending.start, pending.listed j jBound] at same
    exact t.home_ne_logBlock _ (t.home_target j jBound) i iBound same.symm)
  rw [count, copies_eq_logWrites t k disk pending] at run1 view1
  have run2 := writeHead_emits k1 (replay (logWrites t) disk)
  have view2 := view_afterWriteHead k1 (replay (logWrites t) disk)
  have lists : t.Lists (putHeader (view k1 (replay (logWrites t) disk) k1.log.start) k1.log.lh) :=
    t.lists_putHeader _ _ (by rw [log1]; exact pending.count) (by rw [log1]; exact pending.listed)
  generalize headerEq : putHeader (view k1 (replay (logWrites t) disk) k1.log.start) k1.log.lh = header
    at run2 view2 lists
  have start1 : k1.log.start = t.start := by rw [log1, pending.start]
  have log2 : (afterWriteHead k1 (replay (logWrites t) disk)).log = k.log := log1
  rw [start1] at run2 view2
  obtain ⟨k3, run3, log3, _⟩ := installTrans_emits false (afterWriteHead k1 (replay (logWrites t) disk))
    (update (replay (logWrites t) disk) t.start header) (by
      intro i j iBound jBound same
      rw [log2] at iBound jBound same
      rw [count] at iBound jBound
      rw [pending.start, pending.listed i iBound] at same
      exact t.home_ne_logBlock _ (t.home_target i iBound) j jBound same)
  have installs : copies k.log.lh.block (logBlock k.log.start)
      (view (afterWriteHead k1 (replay (logWrites t) disk))
        (update (replay (logWrites t) disk) t.start header)) t.blocks.length = t.blocks := by
    apply copies_eq_blocks t _ _ _ pending.listed
    intro i bound
    rw [pending.start, view2, update_of_ne (t.logBlock_ne_start i bound), view1]
    exact logWrites_slot t _ i bound
  rw [log2, count, installs] at run3
  obtain ⟨k4, cleared, empty, run4⟩ := clearing_emits k3
    (replay t.blocks (update (replay (logWrites t) disk) t.start header))
  rw [log3, log2, pending.start] at run4
  have positive : k.log.lh.n > 0 := by have h := pending.count; omega
  have run : Emits commit k disk (logWrites t ++ ((t.start, header) :: (t.blocks ++ [(t.start, cleared)]))) () k4 := by
    unfold commit
    refine Emits.quiet (Emits.getMemory k disk) ?_
    simp only [positive, ↓reduceIte]
    exact Emits.bind run1 (Emits.bind run2 (Emits.bind run3 run4))
  exact ⟨k4, header, cleared, lists, empty, run⟩

theorem commit_empty (k : Kernel) (disk : Disk) (pending : t.Pending k disk)
    (empty : t.blocks.length = 0) : Emits commit k disk [] () k := by
  have zero : ¬k.log.lh.n > 0 := by have h := pending.count; omega
  unfold commit
  refine Emits.quiet (Emits.getMemory k disk) ?_
  simp only [zero, ↓reduceIte]
  exact Emits.pure () k disk

def bootKernel (start : Blockno) (size : Int) : Kernel where
  data _ := none
  refcnt _ := 0
  log := { start := start, size := size, lh := { n := 0, block := fun _ => 0 } }

theorem view_boot (start : Blockno) (size : Int) (disk : Disk) : view (bootKernel start size) disk = disk := rfl

def afterReadHead (k : Kernel) (disk : Disk) : Kernel :=
  let held := (touch k disk k.log.start).setHeader (getHeader (view k disk k.log.start) k.log.lh)
  held.setRef k.log.start (held.refcnt k.log.start - 1)

theorem readHead_emits (k : Kernel) (disk : Disk) : Emits readHead k disk [] () (afterReadHead k disk) := by
  unfold readHead
  refine Emits.quiet (Emits.getMemory k disk) ?_
  refine Emits.quiet (bread_emits k disk k.log.start) ?_
  exact Emits.quiet (Emits.modifyMemory _ _ disk) (Emits.modifyMemory _ _ disk)

theorem view_afterReadHead (k : Kernel) (disk : Disk) : view (afterReadHead k disk) disk = view k disk := by
  simp only [afterReadHead, view_setRef, view_setHeader, view_touch]

def Committed (t : Transaction) (disk : Disk) : Prop :=
  t.Lists (disk t.start) ∧ ∀ i, i < t.blocks.length → disk (logBlock t.start i) = t.contents i

theorem recover_committed (size : Int) (disk : Disk) (committed : Committed t disk) :
    ∃ k' cleared, getWord cleared 0 = 0 ∧
      Emits recoverFromLog (bootKernel t.start size) disk (t.blocks ++ [(t.start, cleared)]) () k' := by
  obtain ⟨⟨count, entries⟩, slots⟩ := committed
  have run1 := readHead_emits (bootKernel t.start size) disk
  have header : (afterReadHead (bootKernel t.start size) disk).log.lh =
      getHeader (disk t.start) { n := 0, block := fun _ => 0 } := rfl
  have start1 : (afterReadHead (bootKernel t.start size) disk).log.start = t.start := rfl
  have number : (afterReadHead (bootKernel t.start size) disk).log.lh.n.toNat = t.blocks.length := by
    rw [header]
    simp only [getHeader, count, t.count_toInt, Int.toNat_natCast]
  have listed : ∀ i, i < t.blocks.length →
      (afterReadHead (bootKernel t.start size) disk).log.lh.block i = t.target i := by
    intro i bound
    rw [header]
    simp only [getHeader, count, t.count_toInt, Int.toNat_natCast, if_pos bound]
    exact entries i bound
  have shown := view_afterReadHead (bootKernel t.start size) disk
  generalize afterReadHead (bootKernel t.start size) disk = k1 at run1 start1 number listed shown
  obtain ⟨k2, run2, log2, _⟩ := installTrans_emits true k1 disk (by
    intro i j iBound jBound same
    rw [number] at iBound jBound
    rw [start1, listed i iBound] at same
    exact t.home_ne_logBlock _ (t.home_target i iBound) j jBound same)
  have installs : copies k1.log.lh.block (logBlock k1.log.start) (view k1 disk) t.blocks.length = t.blocks := by
    apply copies_eq_blocks t _ _ _ listed
    intro i bound
    rw [shown, start1, view_boot]
    exact slots i bound
  rw [number, installs] at run2
  obtain ⟨k3, cleared, empty, run3⟩ := clearing_emits k2 (replay t.blocks disk)
  rw [log2, start1] at run3
  exact ⟨k3, cleared, empty, Emits.quiet run1 (Emits.bind run2 run3)⟩

theorem recover_clear (start : Blockno) (size : Int) (disk : Disk) (clear : getWord (disk start) 0 = 0) :
    ∃ k' cleared, getWord cleared 0 = 0 ∧
      Emits recoverFromLog (bootKernel start size) disk [(start, cleared)] () k' := by
  have run1 := readHead_emits (bootKernel start size) disk
  have start1 : (afterReadHead (bootKernel start size) disk).log.start = start := rfl
  have number : (afterReadHead (bootKernel start size) disk).log.lh.n.toNat = 0 := by
    change (getWord (disk start) 0).toInt.toNat = 0
    rw [clear]
    rfl
  generalize afterReadHead (bootKernel start size) disk = k1 at run1 start1 number
  obtain ⟨k2, run2, log2, _⟩ := installTrans_emits true k1 disk (by
    intro i j iBound
    rw [number] at iBound
    omega)
  rw [number] at run2
  obtain ⟨k3, cleared, empty, run3⟩ := clearing_emits k2 disk
  rw [log2, start1] at run3
  exact ⟨k3, cleared, empty, Emits.quiet run1 (Emits.quiet run2 run3)⟩

/-- No transaction is pending on the disk and the home blocks hold the given contents. -/
def Clean (t : Transaction) (goal disk : Disk) : Prop :=
  getWord (disk t.start) 0 = 0 ∧ ∀ b, t.Home b → disk b = goal b

/-- The transaction is committed and no home block outside it has changed. -/
def Redo (t : Transaction) (before disk : Disk) : Prop :=
  Committed t disk ∧ ∀ b, t.Home b → b ∉ t.blocks.map Prod.fst → disk b = before b

variable (before disk : Disk)

theorem installs_redo (redo : Redo t before disk) (count : Nat) :
    Redo t before (replay (t.blocks.take count) disk) := by
  have untouched : ∀ b, b ∉ t.blocks.map Prod.fst → replay (t.blocks.take count) disk b = disk b := by
    intro b absent
    apply replay_untouched
    intro entry member same
    exact absent (same ▸ mem_map_of_mem (mem_of_mem_take member))
  have start : replay (t.blocks.take count) disk t.start = disk t.start := by
    apply untouched
    intro member
    obtain ⟨entry, present, same⟩ := mem_map.mp member
    exact t.home_ne_start _ (t.outside entry present) same
  refine ⟨⟨?_, ?_⟩, ?_⟩
  · rw [start]
    exact redo.1.1
  · intro i bound
    rw [untouched]
    · exact redo.1.2 i bound
    · intro member
      obtain ⟨entry, present, same⟩ := mem_map.mp member
      exact t.home_ne_logBlock _ (t.outside entry present) i bound same
  · intro b home absent
    rw [untouched b absent]
    exact redo.2 b home absent

theorem installs_after
    (kept : ∀ b, t.Home b → b ∉ t.blocks.map Prod.fst → disk b = before b) (b : Blockno) (home : t.Home b) :
    replay t.blocks disk b = t.after before b := by
  unfold Transaction.after
  by_cases member : b ∈ t.blocks.map Prod.fst
  · obtain ⟨entry, present, rfl⟩ := mem_map.mp member
    rw [replay_listed t.blocks disk t.distinct entry present, replay_listed t.blocks before t.distinct entry present]
  · have apart : ∀ entry ∈ t.blocks, entry.1 ≠ b :=
      fun entry present same => member (same ▸ mem_map_of_mem present)
    rw [replay_untouched t.blocks disk b apart, replay_untouched t.blocks before b apart]
    exact kept b home member

variable (goal disk : Disk)

theorem cleared_clean (header : Block) (empty : getWord header 0 = 0)
    (home : ∀ b, t.Home b → disk b = goal b) : Clean t goal (replay [(t.start, header)] disk) := by
  have written : replay [(t.start, header)] disk t.start = header := update_self _ _ _
  have others : ∀ b, t.Home b → replay [(t.start, header)] disk b = disk b :=
    fun b member => update_of_ne (t.home_ne_start b member) _ _
  refine ⟨?_, fun b member => ?_⟩
  · rw [written, empty]
  · rw [others b member, home b member]

theorem installed_clean (header : Block) (empty : getWord header 0 = 0)
    (kept : ∀ b, t.Home b → b ∉ t.blocks.map Prod.fst → disk b = before b) :
    Clean t (t.after before) (replay (t.blocks ++ [(t.start, header)]) disk) := by
  rw [replay_append]
  exact cleared_clean t _ _ header empty (installs_after t before disk kept)

def reboot (t : Transaction) (disk : Disk) (power : Option Nat) :
    EStateM.Result Halt (Machine Blockno Block Kernel) Unit :=
  recoverFromLog ⟨disk, bootKernel t.start t.size, [], power⟩

/-- The disk after a series of boots, each of which loses power after that many writes. -/
def afterReboots (t : Transaction) (disk : Disk) (crashes : List Nat) : Disk :=
  crashes.foldl (fun disk k => (final (reboot t disk (some k))).disk) disk

theorem reboot_clean (clean : Clean t goal disk) (k : Nat) : Clean t goal (final (reboot t disk (some k))).disk := by
  obtain ⟨_, header, empty, run⟩ := recover_clear t.start t.size disk clean.1
  have cut := (run.final_cut [] k).1
  unfold reboot
  rw [cut]
  cases k with
  | zero => exact clean
  | succ k =>
    simp only [take_succ_cons, take_nil]
    exact cleared_clean t goal disk header empty clean.2

theorem reboot_redo (redo : Redo t before disk) (k : Nat) :
    Redo t before (final (reboot t disk (some k))).disk ∨
      Clean t (t.after before) (final (reboot t disk (some k))).disk := by
  obtain ⟨_, header, empty, run⟩ := recover_committed t t.size disk redo.1
  have cut := (run.final_cut [] k).1
  unfold reboot
  rw [cut]
  by_cases early : k ≤ t.blocks.length
  · left
    rw [take_append_of_le_length early]
    exact installs_redo t before disk redo k
  · right
    rw [take_of_length_le (by simp; omega)]
    exact installed_clean t before disk header empty redo.2

theorem afterReboots_committed (crashes : List Nat)
    (state : Redo t before disk ∨ Clean t (t.after before) disk) :
    Redo t before (afterReboots t disk crashes) ∨ Clean t (t.after before) (afterReboots t disk crashes) := by
  induction crashes generalizing disk with
  | nil => exact state
  | cons k rest ih =>
    apply ih
    rcases state with redo | clean
    · exact reboot_redo t before disk redo k
    · exact Or.inr (reboot_clean t _ disk clean k)

theorem afterReboots_clean (crashes : List Nat) (clean : Clean t goal disk) :
    Clean t goal (afterReboots t disk crashes) := by
  induction crashes generalizing disk with
  | nil => exact clean
  | cons k rest ih => exact ih _ (reboot_clean t goal disk clean k)

theorem recovery_clean (clean : Clean t goal disk) : ∃ m, reboot t disk none = .ok () m ∧ Clean t goal m.disk := by
  obtain ⟨_, header, empty, run⟩ := recover_clear t.start t.size disk clean.1
  obtain ⟨m, done, result⟩ := run.completes []
  refine ⟨m, done, ?_⟩
  rw [result]
  exact cleared_clean t goal disk header empty clean.2

theorem recovery_redo (redo : Redo t before disk) :
    ∃ m, reboot t disk none = .ok () m ∧ Clean t (t.after before) m.disk := by
  obtain ⟨_, header, empty, run⟩ := recover_committed t t.size disk redo.1
  obtain ⟨m, done, result⟩ := run.completes []
  refine ⟨m, done, ?_⟩
  rw [result]
  exact installed_clean t before disk header empty redo.2

theorem logWrites_length : (logWrites t).length = t.blocks.length := by
  simp [logWrites]

theorem committed_disk (before : Disk) (header : Block) (lists : t.Lists header) :
    Redo t before (update (replay (logWrites t) before) t.start header) := by
  refine ⟨⟨?_, ?_⟩, ?_⟩
  · rw [update_self]
    exact lists
  · intro i bound
    rw [update_of_ne (t.logBlock_ne_start i bound)]
    exact logWrites_slot t before i bound
  · intro b home _
    rw [update_of_ne (t.home_ne_start b home)]
    simpa only [take_length] using logWrites_home t before (logWrites t).length b home

theorem commit_cut (k : Kernel) (before : Disk) (pending : t.Pending k before)
    (clear : getWord (before t.start) 0 = 0) (crash : Nat) :
    (t.start ∉ (final (commit ⟨before, k, [], some crash⟩)).issued.map Prod.fst ∧
      Clean t before (final (commit ⟨before, k, [], some crash⟩)).disk) ∨
    (t.start ∈ (final (commit ⟨before, k, [], some crash⟩)).issued.map Prod.fst ∧
      (Redo t before (final (commit ⟨before, k, [], some crash⟩)).disk ∨
        Clean t (t.after before) (final (commit ⟨before, k, [], some crash⟩)).disk)) := by
  by_cases nonempty : 0 < t.blocks.length
  · obtain ⟨_, header, cleared, lists, empty, run⟩ := commit_emits t k before pending.staged nonempty
    obtain ⟨diskCut, issuedCut⟩ := run.final_cut [] crash
    rw [diskCut, issuedCut]
    by_cases early : crash ≤ t.blocks.length
    · left
      rw [take_append_of_le_length (by rw [logWrites_length]; exact early)]
      refine ⟨?_, ?_, fun b home => logWrites_home t before crash b home⟩
      · intro member
        obtain ⟨entry, present, same⟩ := mem_map.mp member
        obtain ⟨i, bound, rfl⟩ := mem_map.mp (mem_of_mem_take present)
        exact t.logBlock_ne_start i (mem_range.mp bound) same
      · rw [logWrites_start t before crash]
        exact clear
    · right
      obtain ⟨rest, split⟩ : ∃ rest, crash = (logWrites t).length + (rest + 1) :=
        ⟨crash - t.blocks.length - 1, by rw [logWrites_length]; omega⟩
      rw [split, take_length_add_append, take_succ_cons, replay_append]
      refine ⟨by simp, ?_⟩
      have redo := committed_disk t before header lists
      change Redo t before (replay _ (update _ t.start header)) ∨
        Clean t (t.after before) (replay _ (update _ t.start header))
      by_cases installing : rest ≤ t.blocks.length
      · left
        rw [take_append_of_le_length installing]
        exact installs_redo t before _ redo rest
      · right
        rw [take_of_length_le (by simp; omega)]
        exact installed_clean t before _ cleared empty redo.2
  · left
    have run := commit_empty t k before pending (by omega)
    obtain ⟨diskCut, issuedCut⟩ := run.final_cut [] crash
    rw [diskCut, issuedCut]
    simp only [take_nil, append_nil, map_nil, not_mem_nil, not_false_eq_true, true_and]
    exact ⟨clear, fun b _ => rfl⟩

/-- Crash atomicity. The commit point is the first write of the header block: once it
is among the writes that took effect every later complete recovery installs the whole
transaction, and before it none of the transaction is visible. -/
theorem commit_crash_atomic (t : Transaction) (k : Kernel) (before : Disk) (pending : t.Pending k before)
    (clear : getWord (before t.start) 0 = 0) (crash : Nat) (reboots : List Nat) :
    ∃ m, reboot t (afterReboots t (final (commit ⟨before, k, [], some crash⟩)).disk reboots) none = .ok () m ∧
      getWord (m.disk t.start) 0 = 0 ∧
      (t.start ∈ (final (commit ⟨before, k, [], some crash⟩)).issued.map Prod.fst →
        ∀ b, t.Home b → m.disk b = t.after before b) ∧
      (t.start ∉ (final (commit ⟨before, k, [], some crash⟩)).issued.map Prod.fst →
        ∀ b, t.Home b → m.disk b = before b) := by
  rcases commit_cut t k before pending clear crash with ⟨unreached, clean⟩ | ⟨reached, state⟩
  · obtain ⟨m, done, result⟩ := recovery_clean t before _ (afterReboots_clean t before _ reboots clean)
    exact ⟨m, done, result.1, fun reached => absurd reached unreached, fun _ => result.2⟩
  · have later := afterReboots_committed t before _ reboots state
    have recovered : ∃ m, reboot t (afterReboots t (final (commit ⟨before, k, [], some crash⟩)).disk reboots) none =
        .ok () m ∧ Clean t (t.after before) m.disk := by
      rcases later with redo | clean
      · exact recovery_redo t before _ redo
      · exact recovery_clean t _ _ clean
    obtain ⟨m, done, result⟩ := recovered
    exact ⟨m, done, result.1, fun _ => result.2, fun unreached => absurd reached unreached⟩

def oneBlock : Transaction where
  start := 2#32
  size := LOGSIZE
  blocks := [(46#32, fun _ => 1)]
  distinct := by simp
  fits := by decide
  bounded := by decide
  outside := by
    intro entry member k bound
    obtain rfl := mem_singleton.mp member
    have limit : LOGSIZE = 30 := rfl
    intro same
    have value := congrArg BitVec.toNat same
    simp only [toNat_add, toNat_ofNat] at value
    omega

def oneBlockKernel : Kernel where
  data b := if b = 46#32 then some (fun _ => 1) else none
  refcnt b := if b = 46#32 then 1 else 0
  log := { start := 2#32, size := LOGSIZE, lh := { n := 1, block := fun _ => 46#32 } }

theorem oneBlock_pending : oneBlock.Pending oneBlockKernel (fun _ _ => 0) where
  start := rfl
  size := rfl
  count := rfl
  listed i bound := by
    have zero : i = 0 := by simpa [oneBlock] using bound
    subst zero
    rfl
  dirty entry member := by
    obtain rfl := mem_singleton.mp member
    rfl
  clean b absent := by
    left
    have other : b ≠ 46#32 := by simpa [oneBlock] using absent
    simp [oneBlockKernel, other]

theorem blank_header : getWord ((fun _ _ => 0 : Disk) 2#32) 0 = 0 := by decide

/-- Power lost in the middle of the commit and of two recoveries. -/
theorem oneBlock_crash_atomic :
    ∃ m, reboot oneBlock (afterReboots oneBlock
        (final (commit ⟨fun _ _ => 0, oneBlockKernel, [], some 2⟩)).disk [0, 1]) none = .ok () m ∧
      getWord (m.disk 2#32) 0 = 0 ∧
      (2#32 ∈ (final (commit ⟨fun _ _ => 0, oneBlockKernel, [], some 2⟩)).issued.map Prod.fst →
        ∀ b, oneBlock.Home b → m.disk b = oneBlock.after (fun _ _ => 0) b) ∧
      (2#32 ∉ (final (commit ⟨fun _ _ => 0, oneBlockKernel, [], some 2⟩)).issued.map Prod.fst →
        ∀ b, oneBlock.Home b → m.disk b = fun _ => 0) :=
  commit_crash_atomic oneBlock oneBlockKernel (fun _ _ => 0) oneBlock_pending blank_header 2 [0, 1]

end Xv6.Disklog.Recovery
