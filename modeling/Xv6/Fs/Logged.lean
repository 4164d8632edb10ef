import Xv6.Fs.Overlay

/-! writei with the blocks that it passes to log_write, in order. One chunk of filewrite fits in a transaction. -/

namespace Xv6.Fs.Logged

open Lib.Bytes Format Inode Blocks Transfer Offsets Function List
open Disklog.Commit (Blockno Block Disk)

section Model

def ballocLogged (sb : Layout) (d : Disk) : (Disk × Blockno) × List Blockno :=
  match (List.range ((sb.size + BPB - 1) / BPB)).findSome? fun i => scan sb d (i * BPB) with
  | some (b, bi) =>
      let d := update d (BBLOCK sb b) (setBit (d (BBLOCK sb b)) bi)
      ((bzero d (BitVec.ofNat 32 (b + bi)), BitVec.ofNat 32 (b + bi)), [BBLOCK sb b, BitVec.ofNat 32 (b + bi)])
  | none => ((d, 0), [])

/-- A number that goes into the indirect block changes that block. -/
def slotLog (s : File) : Slot → List Blockno
  | .direct _ => []
  | .indirect => []
  | .entry _ => [s.ip.addrs (Fin.last NDIRECT)]

def fillLogged (sb : Layout) (s : File) (slot : Slot) : (File × Blockno) × List Blockno :=
  if ref s slot = 0 then
    let ((d, addr), log) := ballocLogged sb s.disk
    if addr = 0 then (({ s with disk := d }, 0), log)
    else ((setRef { s with disk := d } addr slot, addr), log ++ slotLog s slot)
  else ((s, ref s slot), [])

def bmapLogged (sb : Layout) (s : File) (bn : Nat) : Except String ((File × Blockno) × List Blockno) :=
  if direct : bn < NDIRECT then .ok (fillLogged sb s (.direct ⟨bn, direct⟩))
  else if inside : bn - NDIRECT < NINDIRECT then
    let ((s, addr), log) := fillLogged sb s .indirect
    if addr = 0 then .ok ((s, 0), log)
    else
      let (result, more) := fillLogged sb s (.entry ⟨bn - NDIRECT, inside⟩)
      .ok (result, log ++ more)
  else .error "bmap: out of range"

def writeLoopLogged (sb : Layout) (src : Source) (n : Nat) :
    Nat → File → Nat → Nat → Except String ((File × Nat) × List Blockno)
  | 0, s, _, tot => .ok ((s, tot), [])
  | fuel + 1, s, off, tot =>
    if tot < n then do
      let ((s, addr), log) ← bmapLogged sb s (off / BSIZE)
      if addr = 0 then .ok ((s, tot), log)
      else
        let m := min (n - tot) (BSIZE - off % BSIZE)
        let data := splice (s.disk addr) (off % BSIZE) (src.reach tot m) fun i => src.byte (tot + i)
        let s := { s with disk := update s.disk addr data }
        if src.reach tot m = m then do
          let (result, more) ← writeLoopLogged sb src n fuel s (off + m) (tot + m)
          .ok (result, log ++ addr :: more)
        else .ok ((s, tot), log)
    else .ok ((s, tot), [])

def writeiLogged (sb : Layout) (inum : Nat) (s : File) (src : Source) (off n : BitVec 32) :
    Except String ((File × Int) × List Blockno) :=
  if off > s.ip.size ∨ off + n < off then .ok ((s, -1), [])
  else if (off + n).toNat > MAXFILE * BSIZE then .ok ((s, -1), [])
  else do
    let ((s, tot), log) ← writeLoopLogged sb src n.toNat n.toNat s off.toNat 0
    let off := off + BitVec.ofNat 32 tot
    let s := if off > s.ip.size then { s with ip := { s.ip with size := off } } else s
    .ok ((iupdate sb inum s, tot), log ++ [IBLOCK sb inum])

end Model

variable {sb : Layout}

section Blocks

/-- Without the log this is balloc; the log has the block of the bit map and the block that was zeroed, and these are the
only ones that change. -/
theorem ballocLogged_spec (sb : Layout) (d : Disk) : (ballocLogged sb d).1 = balloc sb d ∧
    ((ballocLogged sb d).2 = [] ∨ ∃ b, (ballocLogged sb d).2 = [b, (balloc sb d).2]) ∧
    ∀ b, b ∉ (ballocLogged sb d).2 → (balloc sb d).1 b = d b := by
  unfold ballocLogged balloc
  cases (List.range ((sb.size + BPB - 1) / BPB)).findSome? fun i => scan sb d (i * BPB) with
  | none => exact ⟨rfl, .inl rfl, fun _ _ => rfl⟩
  | some pair =>
    refine ⟨rfl, .inr ⟨_, rfl⟩, fun b outside => ?_⟩
    simp only [mem_cons, not_mem_nil, or_false, not_or] at outside
    refine (update_of_ne outside.2 _ _).trans (update_of_ne outside.1 _ _)

/-- What filling a slot logs and changes. -/
structure Filled (sb : Layout) (s : File) (slot : Slot) : Prop where
  same : (fillLogged sb s slot).1 = fill sb s slot
  present : ref s slot ≠ 0 → fillLogged sb s slot = ((s, ref s slot), [])
  cover : ref s slot = 0 → ∃ b, (fillLogged sb s slot).2 ⊆ [b, (fill sb s slot).2] ++ slotLog s slot
  quiet : ∀ b, b ∉ (fillLogged sb s slot).2 → (fill sb s slot).1.disk b = s.disk b

variable {slot : Slot}

theorem fillLogged_empty {s : File} (empty : ref s slot = 0) : fillLogged sb s slot =
    if (balloc sb s.disk).2 = 0 then (({ s with disk := (balloc sb s.disk).1 }, 0), (ballocLogged sb s.disk).2)
    else ((setRef { s with disk := (balloc sb s.disk).1 } (balloc sb s.disk).2 slot, (balloc sb s.disk).2),
      (ballocLogged sb s.disk).2 ++ slotLog s slot) := by
  rw [← (ballocLogged_spec sb s.disk).1]
  exact if_pos empty

theorem fillLogged_spec (sb : Layout) (s : File) (slot : Slot) : Filled sb s slot := by
  obtain ⟨_, log, quiet⟩ := ballocLogged_spec sb s.disk
  by_cases empty : ref s slot = 0
  · by_cases zero : (balloc sb s.disk).2 = 0
    · have logged : fillLogged sb s slot = (({ s with disk := (balloc sb s.disk).1 }, 0), (ballocLogged sb s.disk).2) :=
        (fillLogged_empty empty).trans (if_pos zero)
      have plain : fill sb s slot = ({ s with disk := (balloc sb s.disk).1 }, 0) := (if_pos empty).trans (if_pos zero)
      refine ⟨by rw [logged, plain], fun some => absurd empty some, fun _ => ?_, fun b outside => ?_⟩
      · rw [logged, plain]
        rcases log with none | ⟨b, pair⟩
        · exact ⟨0, by rw [none]; exact nil_subset _⟩
        · exact ⟨b, by rw [pair, zero]; exact subset_append_left _ _⟩
      · rw [logged] at outside
        rw [plain]
        exact quiet b outside
    · have logged : fillLogged sb s slot = ((setRef { s with disk := (balloc sb s.disk).1 } (balloc sb s.disk).2 slot,
          (balloc sb s.disk).2), (ballocLogged sb s.disk).2 ++ slotLog s slot) :=
        (fillLogged_empty empty).trans (if_neg zero)
      have plain : fill sb s slot = (setRef { s with disk := (balloc sb s.disk).1 } (balloc sb s.disk).2 slot,
          (balloc sb s.disk).2) := (if_pos empty).trans (if_neg zero)
      refine ⟨by rw [logged, plain], fun some => absurd empty some, fun _ => ?_, fun b outside => ?_⟩
      · rw [logged, plain]
        rcases log with none | ⟨b, pair⟩
        · exact ⟨0, by rw [none]; exact subset_append_right _ _⟩
        · exact ⟨b, by rw [pair]; exact List.Subset.refl _⟩
      · rw [logged, mem_append, not_or] at outside
        rw [plain]
        cases slot with
        | direct k | indirect => exact quiet b outside.1
        | entry k =>
          refine (update_of_ne (fun equal => outside.2 ?_) _ _).trans (quiet b outside.1)
          rw [equal]
          exact mem_singleton_self _
  · have logged : fillLogged sb s slot = ((s, ref s slot), []) := if_neg empty
    have plain : fill sb s slot = (s, ref s slot) := if_neg empty
    refine ⟨by rw [logged, plain], fun _ => logged, fun none => absurd none empty, fun b _ => ?_⟩
    rw [plain]

theorem fill_empty {s : File} (empty : ref s slot = 0) : fill sb s slot =
    if (balloc sb s.disk).2 = 0 then ({ s with disk := (balloc sb s.disk).1 }, 0)
    else (setRef { s with disk := (balloc sb s.disk).1 } (balloc sb s.disk).2 slot, (balloc sb s.disk).2) := if_pos empty

theorem fill_present {s : File} (some : ref s slot ≠ 0) : fill sb s slot = (s, ref s slot) := if_neg some

theorem fill_indirect (s : File) : ref (fill sb s .indirect).1 .indirect = (fill sb s .indirect).2 := by
  by_cases empty : ref s .indirect = 0
  · rw [fill_empty empty]
    split_ifs
    · exact empty
    · show update s.ip.addrs (Fin.last NDIRECT) (balloc sb s.disk).2 (Fin.last NDIRECT) = _
      exact update_self _ _ _
  · rw [fill_present empty]

theorem fill_other (s : File) (other : slot ≠ .indirect) : ref (fill sb s slot).1 .indirect = ref s .indirect := by
  by_cases empty : ref s slot = 0
  · rw [fill_empty empty]
    split_ifs
    · rfl
    · cases slot with
      | direct k => exact update_of_ne (Fin.castSucc_lt_last k).ne' _ _
      | indirect => exact absurd rfl other
      | entry k => rfl
  · rw [fill_present empty]

end Blocks

section Mapping

/-- The blocks that the indirect block of a file costs: itself, and where it is new its part of the bit map. -/
structure Overhead (s : File) (ind : List Blockno) : Prop where
  two : ind.length ≤ 2
  one : ref s .indirect ≠ 0 → ind = [ref s .indirect]

/-- What bmap does and logs. The blocks that it logs are covered by two of its own and by the overhead that it leaves to the
rounds that follow. -/
structure Mapped (sb : Layout) (s : File) (bn : Fin MAXFILE) (s' : File) (addr : Blockno) (log : List Blockno) : Prop where
  run : bmap sb s bn.val = .ok (s', addr)
  present : ref s (dataSlot bn) ≠ 0 → s' = s ∧ addr = ref s (dataSlot bn) ∧ log = []
  quiet : ∀ b, b ∉ log → s'.disk b = s.disk b
  cover : ∀ later, Overhead s' later → ∃ own ind, Overhead s ind ∧ later ⊆ ind ∧ own.length ≤ 2 ∧ addr ∈ own ∧ log ⊆ own ++ ind

theorem bmapLogged_direct (s : File) (bn : Fin MAXFILE) (direct : bn.val < NDIRECT) :
    Mapped sb s bn (fill sb s (.direct ⟨bn.val, direct⟩)).1 (fill sb s (.direct ⟨bn.val, direct⟩)).2
      (fillLogged sb s (.direct ⟨bn.val, direct⟩)).2 := by
  have filled := fillLogged_spec sb s (.direct ⟨bn.val, direct⟩)
  have slot : dataSlot bn = .direct ⟨bn.val, direct⟩ := by rw [dataSlot, dif_pos direct]
  refine ⟨by rw [bmap, dif_pos direct], fun some => ?_, filled.quiet, fun later cost => ?_⟩
  · rw [slot] at some ⊢
    rw [filled.present some, fill_present some]
    exact ⟨rfl, rfl, rfl⟩
  · have cost' : Overhead s later := by
      have pointer : ref (fill sb s (.direct ⟨bn.val, direct⟩)).1 .indirect = ref s .indirect := fill_other s (by rintro ⟨⟩)
      exact ⟨cost.two, pointer ▸ cost.one⟩
    by_cases empty : ref s (.direct ⟨bn.val, direct⟩) = 0
    · obtain ⟨b, cover⟩ := filled.cover empty
      rw [slotLog, append_nil] at cover
      exact ⟨[b, _], later, cost', List.Subset.refl _, le_rfl, mem_cons_of_mem _ mem_cons_self,
        List.Subset.trans cover (subset_append_left _ _)⟩
    · rw [filled.present empty]
      exact ⟨[_], later, cost', List.Subset.refl _, Nat.le_succ 1, mem_cons_self, nil_subset _⟩

theorem bmapLogged_stuck (s : File) (bn : Fin MAXFILE) (indirect : ¬bn.val < NDIRECT) (none : (fill sb s .indirect).2 = 0) :
    Mapped sb s bn (fill sb s .indirect).1 0 (fillLogged sb s .indirect).2 := by
  have filled := fillLogged_spec sb s .indirect
  have inside : bn.val - NDIRECT < NINDIRECT := by
    have small := bn.isLt
    unfold MAXFILE at small
    omega
  have empty : ref s .indirect = 0 := by
    by_contra some
    rw [fill_present some] at none
    exact some none
  have slot : dataSlot bn = .entry ⟨bn.val - NDIRECT, inside⟩ := by rw [dataSlot, dif_neg indirect]
  refine ⟨?_, fun some => absurd (if_pos empty) (slot ▸ some), filled.quiet, fun later cost => ?_⟩
  · rw [bmap, dif_neg indirect, dif_pos inside]
    exact if_pos none
  · obtain ⟨b, cover⟩ := filled.cover empty
    rw [none, slotLog, append_nil] at cover
    exact ⟨[b, 0], later, ⟨cost.two, fun some => absurd empty some⟩, List.Subset.refl _, le_rfl,
      mem_cons_of_mem _ mem_cons_self, List.Subset.trans cover (subset_append_left _ _)⟩

theorem bmapLogged_entry (s : File) (bn : Fin MAXFILE) (indirect : ¬bn.val < NDIRECT) (inside : bn.val - NDIRECT < NINDIRECT)
    (found : (fill sb s .indirect).2 ≠ 0) :
    Mapped sb s bn (fill sb (fill sb s .indirect).1 (.entry ⟨bn.val - NDIRECT, inside⟩)).1
      (fill sb (fill sb s .indirect).1 (.entry ⟨bn.val - NDIRECT, inside⟩)).2
      ((fillLogged sb s .indirect).2 ++ (fillLogged sb (fill sb s .indirect).1 (.entry ⟨bn.val - NDIRECT, inside⟩)).2) := by
  have first := fillLogged_spec sb s .indirect
  have pointer := @fill_indirect sb s
  have second := fillLogged_spec sb (fill sb s .indirect).1 (.entry ⟨bn.val - NDIRECT, inside⟩)
  have other : Slot.entry ⟨bn.val - NDIRECT, inside⟩ ≠ .indirect := nofun
  have last : ref (fill sb (fill sb s .indirect).1 (.entry ⟨bn.val - NDIRECT, inside⟩)).1 .indirect = (fill sb s .indirect).2 :=
    (fill_other _ other).trans pointer
  have slot : dataSlot bn = .entry ⟨bn.val - NDIRECT, inside⟩ := by rw [dataSlot, dif_neg indirect]
  refine ⟨?_, fun some => ?_, fun b outside => ?_, fun later cost => ?_⟩
  · rw [bmap, dif_neg indirect, dif_pos inside]
    exact if_neg found
  · rw [slot] at some ⊢
    have there : ref s .indirect ≠ 0 := fun zero => some (if_pos zero)
    rw [fill_present there] at second ⊢
    rw [first.present there, second.present some, fill_present some]
    exact ⟨rfl, rfl, rfl⟩
  · rw [mem_append, not_or] at outside
    rw [second.quiet b outside.2, first.quiet b outside.1]
  · obtain rfl : later = [(fill sb s .indirect).2] := by
      rw [← last]
      exact cost.one (by rw [last]; exact found)
    -- the part of the first step
    have head : ∃ ind, Overhead s ind ∧ [(fill sb s .indirect).2] ⊆ ind ∧ (fillLogged sb s .indirect).2 ⊆ ind := by
      by_cases there : ref s .indirect = 0
      · obtain ⟨b, cover⟩ := first.cover there
        rw [slotLog, append_nil] at cover
        exact ⟨[b, _], ⟨le_rfl, fun some => absurd there some⟩, subset_cons_self _ _, cover⟩
      · rw [first.present there, fill_present there]
        exact ⟨[_], ⟨Nat.le_succ 1, fun _ => rfl⟩, List.Subset.refl _, nil_subset _⟩
    obtain ⟨ind, cost', later, log⟩ := head
    -- and of the second
    have tail : ∃ own, own.length ≤ 2 ∧ (fill sb (fill sb s .indirect).1 (.entry ⟨bn.val - NDIRECT, inside⟩)).2 ∈ own ∧
        (fillLogged sb (fill sb s .indirect).1 (.entry ⟨bn.val - NDIRECT, inside⟩)).2 ⊆ own ++ [(fill sb s .indirect).2] := by
      by_cases empty : ref (fill sb s .indirect).1 (.entry ⟨bn.val - NDIRECT, inside⟩) = 0
      · obtain ⟨b, cover⟩ := second.cover empty
        have entry : slotLog (fill sb s .indirect).1 (.entry ⟨bn.val - NDIRECT, inside⟩) = [(fill sb s .indirect).2] :=
          congrArg (fun p => [p]) pointer
        rw [entry] at cover
        exact ⟨[b, _], le_rfl, mem_cons_of_mem _ mem_cons_self, cover⟩
      · rw [second.present empty]
        exact ⟨[_], Nat.le_succ 1, mem_cons_self, nil_subset _⟩
    obtain ⟨own, two, mem, more⟩ := tail
    refine ⟨own, ind, cost', later, two, mem, append_subset.mpr ⟨List.Subset.trans log (subset_append_right _ _), List.Subset.trans more ?_⟩⟩
    exact append_subset.mpr ⟨subset_append_left _ _, List.Subset.trans later (subset_append_right _ _)⟩

theorem bmapLogged_spec (sb : Layout) (s : File) (bn : Fin MAXFILE) :
    ∃ s' addr log, bmapLogged sb s bn.val = .ok ((s', addr), log) ∧ Mapped sb s bn s' addr log := by
  by_cases direct : bn.val < NDIRECT
  · refine ⟨_, _, _, ?_, bmapLogged_direct s bn direct⟩
    rw [bmapLogged, dif_pos direct, ← (fillLogged_spec sb s (.direct ⟨bn.val, direct⟩)).same]
  · have inside : bn.val - NDIRECT < NINDIRECT := by
      have small := bn.isLt
      unfold MAXFILE at small
      omega
    have same := (fillLogged_spec sb s .indirect).same
    by_cases none : (fill sb s .indirect).2 = 0
    · refine ⟨_, _, _, ?_, bmapLogged_stuck s bn direct none⟩
      rw [← same] at none ⊢
      rw [bmapLogged, dif_neg direct, dif_pos inside]
      exact if_pos none
    · refine ⟨_, _, _, ?_, bmapLogged_entry s bn direct inside none⟩
      rw [← (fillLogged_spec sb (fill sb s .indirect).1 (.entry ⟨bn.val - NDIRECT, inside⟩)).same]
      rw [← same] at none ⊢
      rw [bmapLogged, dif_neg direct, dif_pos inside]
      exact if_neg none

end Mapping

section Loop
variable {src : Source} {n : Nat}

def spans (off count : Nat) : Nat := if count = 0 then 0 else (off % BSIZE + count - 1) / BSIZE + 1

theorem spans_step {off count m : Nat} (more : 0 < count) (size : m = min count (BSIZE - off % BSIZE)) :
    spans off count = spans (off + m) (count - m) + 1 := by
  have small : off % BSIZE < BSIZE := Nat.mod_lt _ (by decide)
  unfold spans
  rw [if_neg more.ne']
  split_ifs with last
  · rw [Nat.div_eq_of_lt (by omega)]
  · simp only [BSIZE] at *
    omega

theorem Overhead.self (s : File) : Overhead s [ref s .indirect] := ⟨Nat.le_succ 1, fun _ => rfl⟩

variable {addr : Blockno} {bn : Fin MAXFILE}

theorem Mapped.saves {s s' : File} {log later : List Blockno} {saved : Nat}
    (mapped : Mapped sb s bn s' addr log) (save : saved = 0 ∨ saved = 1 ∧ ref s (dataSlot bn) ≠ 0) (cost : Overhead s' later) :
    ∃ own ind, Overhead s ind ∧ later ⊆ ind ∧ own.length + saved ≤ 2 ∧ addr ∈ own ∧ log ⊆ own ++ ind := by
  rcases save with rfl | ⟨rfl, some⟩
  · exact mapped.cover later cost
  · obtain ⟨rfl, -, rfl⟩ := mapped.present some
    exact ⟨[addr], later, cost, List.Subset.refl _, le_rfl, mem_cons_self, nil_subset _⟩

/-- What is logged goes into so many blocks besides those of the indirect block. -/
def Covered (s : File) (log : List Blockno) (count : Nat) : Prop :=
  ∃ own ind, own.length ≤ count ∧ Overhead s ind ∧ log ⊆ own ++ ind

variable {log : List Blockno}

theorem Covered.of_patch {s : File} {off r count : Nat} {bytes : Nat → Byte}
    (covered : Covered (patch s addr off r bytes) log count) : Covered s log count := by
  obtain ⟨own, ind, few, cost, cover⟩ := covered
  exact ⟨own, ind, few, ⟨cost.two, cost.one⟩, cover⟩

theorem Mapped.last {s s' : File} {saved count : Nat}
    (mapped : Mapped sb s bn s' addr log) (save : saved = 0 ∨ saved = 1 ∧ ref s (dataSlot bn) ≠ 0) (enough : 2 ≤ count + saved) :
    Covered s log count := by
  obtain ⟨own, ind, cost, -, two, -, cover⟩ := mapped.saves save (.self s')
  exact ⟨own, ind, by omega, cost, cover⟩

theorem Mapped.next {s s' : File} {log more : List Blockno} {saved count : Nat}
    (mapped : Mapped sb s bn s' addr log) (save : saved = 0 ∨ saved = 1 ∧ ref s (dataSlot bn) ≠ 0)
    (rest : Covered s' more count) : Covered s (log ++ addr :: more) (count + 2 - saved) := by
  obtain ⟨own', later, few, cost', cover'⟩ := rest
  obtain ⟨own, ind, cost, kept, two, mem, cover⟩ := mapped.saves save cost'
  refine ⟨own ++ own', ind, by rw [length_append]; omega, cost, fun b logged => ?_⟩
  rw [append_assoc]
  rcases mem_append.mp logged with first | rest
  · exact (mem_append.mp (cover first)).elim (mem_append_left _)
      fun late => mem_append_right _ (mem_append_right _ late)
  · rcases mem_cons.mp rest with rfl | rest
    · exact mem_append_left _ mem
    · refine mem_append_right _ ?_
      exact (mem_append.mp (cover' rest)).elim (mem_append_left _) fun late => mem_append_right _ (kept late)

theorem writeLoopLogged_round {s s₁ : File} {fuel off tot m : Nat} (more : tot < n)
    (mapped : bmapLogged sb s (off / BSIZE) = .ok ((s₁, addr), log)) (some : addr ≠ 0)
    (size : m = min (n - tot) (BSIZE - off % BSIZE)) : writeLoopLogged sb src n (fuel + 1) s off tot =
      let s₂ := patch s₁ addr off (src.reach tot m) fun x => src.byte (tot + x)
      if src.reach tot m = m then do
        let (result, rest) ← writeLoopLogged sb src n fuel s₂ (off + m) (tot + m)
        .ok (result, log ++ addr :: rest)
      else .ok ((s₂, tot), log) := by
  rw [writeLoopLogged, if_pos more, mapped, size]
  exact if_neg some

/-- The loop of writei logs two blocks for each block of the file it touches, one fewer where the first one is there. -/
theorem writeLoopLogged_covered (fuel : Nat) {s : File} {off tot saved : Nat} (start : tot ≤ n) (enough : n - tot ≤ fuel)
    (room : off + (n - tot) ≤ MAXFILE * BSIZE)
    (save : saved = 0 ∨ saved = 1 ∧ ∀ inside, ref s (dataSlot ⟨off / BSIZE, inside⟩) ≠ 0) :
    ∃ s' tot' log, writeLoopLogged sb src n fuel s off tot = .ok ((s', tot'), log) ∧
      writeLoop sb src n fuel s off tot = .ok (s', tot') ∧ Covered s log (2 * spans off (n - tot) - saved) := by
  induction fuel generalizing s off tot saved with
  | zero => exact ⟨s, tot, [], rfl, rfl, [], _, Nat.zero_le _, .self s, nil_subset _⟩
  | succ fuel ih =>
    by_cases more : tot < n
    · have bound : off / BSIZE < MAXFILE := Nat.div_lt_of_lt_mul (by rw [Nat.mul_comm]; omega)
      have positive : 0 < BSIZE - off % BSIZE := Nat.sub_pos_of_lt (Nat.mod_lt _ (by decide))
      obtain ⟨m, size⟩ : ∃ m, m = min (n - tot) (BSIZE - off % BSIZE) := ⟨_, rfl⟩
      have blocks := spans_step (show 0 < n - tot by omega) size
      obtain ⟨s₁, addr, log, ran, mapped⟩ := bmapLogged_spec sb s ⟨off / BSIZE, bound⟩
      have save' : saved = 0 ∨ saved = 1 ∧ ref s (dataSlot ⟨off / BSIZE, bound⟩) ≠ 0 :=
        save.imp id (And.imp id fun there => there bound)
      have last : Covered s log (2 * spans off (n - tot) - saved) := mapped.last save' (by omega)
      by_cases none : addr = 0
      · refine ⟨s₁, tot, log, ?_, ?_, last⟩
        · rw [writeLoopLogged, if_pos more, ran]
          exact if_pos none
        · rw [writeLoop, if_pos more, mapped.run]
          exact if_pos none
      · rw [writeLoop_round more mapped.run none size, writeLoopLogged_round more ran none size]
        by_cases whole : src.reach tot m = m
        · obtain ⟨s', tot', rest, ran', plain, covered⟩ := @ih (patch s₁ addr off (src.reach tot m) fun x => src.byte (tot + x))
            (off + m) (tot + m) 0 (by omega) (by omega) (by omega) (.inl rfl)
          refine ⟨s', tot', log ++ addr :: rest, ?_, (if_pos whole).trans plain, ?_⟩
          · refine (if_pos whole).trans ?_
            rw [ran']
            rfl
          · have next := mapped.next save' covered.of_patch
            rwa [Nat.sub_zero, ← Nat.mul_add_one, ← Nat.sub_sub, ← blocks] at next
        · exact ⟨_, tot, log, if_neg whole, if_neg whole, last⟩
    · refine ⟨s, tot, [], ?_, ?_, [], _, Nat.zero_le _, .self s, nil_subset _⟩
      · rw [writeLoopLogged, if_neg more]
      · rw [writeLoop, if_neg more]

end Loop

section Chunk

theorem Covered.card {s : File} {log : List Blockno} {count : Nat} (covered : Covered s log count) (b : Blockno) :
    (log ++ [b]).toFinset.card ≤ count + 3 := by
  obtain ⟨own, ind, few, cost, cover⟩ := covered
  have two := cost.two
  have sub : (log ++ [b]).toFinset ⊆ (own ++ ind ++ [b]).toFinset := by
    intro x logged
    rw [mem_toFinset, mem_append] at logged ⊢
    exact logged.imp (fun mem => cover mem) id
  refine (Finset.card_le_card sub).trans ((toFinset_card_le _).trans ?_)
  rw [length_append, length_append, length_singleton]
  omega

def finish (sb : Layout) (inum : Nat) (off : BitVec 32) (s : File) (tot : Nat) : File :=
  let off := off + BitVec.ofNat 32 tot
  iupdate sb inum (if off > s.ip.size then { s with ip := { s.ip with size := off } } else s)

theorem writei_finish {inum : Nat} {s s₁ : File} {src : Source} {off n : BitVec 32} {tot : Nat} {log : List Blockno}
    (inside : ¬(off > s.ip.size ∨ off + n < off)) (room : ¬(off + n).toNat > MAXFILE * BSIZE)
    (ran : writeLoopLogged sb src n.toNat n.toNat s off.toNat 0 = .ok ((s₁, tot), log))
    (plain : writeLoop sb src n.toNat n.toNat s off.toNat 0 = .ok (s₁, tot)) :
    writeiLogged sb inum s src off n = .ok ((finish sb inum off s₁ tot, tot), log ++ [IBLOCK sb inum]) ∧
      writei sb inum s src off n = .ok (finish sb inum off s₁ tot, tot) := by
  constructor
  · refine (if_neg inside).trans ((if_neg room).trans ?_)
    rw [ran]
    rfl
  · refine (if_neg inside).trans ((if_neg room).trans ?_)
    rw [plain]
    rfl

/-- A chunk of filewrite fits in one transaction. -/
theorem chunk_fits (sb : Layout) (inum : Nat) (s : File)
    (present : ∀ bn : Fin MAXFILE, bn.val * BSIZE < s.ip.size.toNat → ref s (dataSlot bn) ≠ 0) (src : Source)
    (off n : BitVec 32) (low : off.toNat ≤ s.ip.size.toNat) (few : n.toNat ≤ maxChunk) :
    ∃ s' r log, writeiLogged sb inum s src off n = .ok ((s', r), log) ∧ writei sb inum s src off n = .ok (s', r) ∧
      log.toFinset.card ≤ MAXOPBLOCKS := by
  by_cases wraps : off > s.ip.size ∨ off + n < off
  · exact ⟨s, -1, [], if_pos wraps, if_pos wraps, Nat.zero_le _⟩
  · by_cases beyond : (off + n).toNat > MAXFILE * BSIZE
    · exact ⟨s, -1, [], (if_neg wraps).trans (if_pos beyond), (if_neg wraps).trans (if_pos beyond), Nat.zero_le _⟩
    · have total := toNat_add_of_not_lt (not_or.mp wraps).2
      have chunk : n.toNat ≤ 3072 := few
      -- an offset inside a block is in front of the end of the file, so this block is there
      obtain ⟨saved, save, bound⟩ : ∃ saved, (saved = 0 ∨ saved = 1 ∧
          ∀ inside, ref s (dataSlot ⟨off.toNat / BSIZE, inside⟩) ≠ 0) ∧ 2 * spans off.toNat (n.toNat - 0) - saved ≤ 7 := by
        by_cases aligned : off.toNat % BSIZE = 0
        · refine ⟨0, .inl rfl, ?_⟩
          unfold spans
          split_ifs <;> simp only [BSIZE] at * <;> omega
        · refine ⟨1, .inr ⟨rfl, fun inside => present _ ?_⟩, ?_⟩
          · show off.toNat / BSIZE * BSIZE < _
            have split := Nat.div_add_mod' off.toNat BSIZE
            omega
          · unfold spans
            split_ifs <;> simp only [BSIZE] at * <;> omega
      obtain ⟨s₁, tot, log, ran, plain, covered⟩ := @writeLoopLogged_covered sb src n.toNat n.toNat s off.toNat 0 saved
        (Nat.zero_le _) le_rfl (by omega) save
      obtain ⟨logged, written⟩ := @writei_finish sb inum _ _ _ _ _ _ _ wraps beyond ran plain
      refine ⟨_, tot, _, logged, written, (covered.card (IBLOCK sb inum)).trans ?_⟩
      show _ ≤ 10
      omega

/-- Six bytes from the middle of a file of four. -/
theorem chunk_fits_sample : ∃ s' r log,
    writeiLogged sampleLayout 2 (sample.world.file ()) Overlay.sampleSource 2 6 = .ok ((s', r), log) ∧
      writei sampleLayout 2 (sample.world.file ()) Overlay.sampleSource 2 6 = .ok (s', r) ∧ log.toFinset.card ≤ MAXOPBLOCKS :=
  chunk_fits sampleLayout 2 (sample.world.file ()) (Overlay.sample_wellFormed.dense ()).there Overlay.sampleSource 2 6
    (by decide) (by decide)

end Chunk

end Xv6.Fs.Logged
