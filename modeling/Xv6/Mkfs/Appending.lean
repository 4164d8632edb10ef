import Xv6.Fs.Transfer
import Xv6.Mkfs.Program

/-! What iappend of mkfs does, seen as an operation of the file system: with the bit map that mkfs writes at the end already
in place, it takes blocks from the counter as the kernel takes free ones. -/

namespace Xv6.Mkfs.Appending

open Lib.Bytes Fs.Format Fs.Inode Fs.Blocks Fs.Transfer Program Function List
open Disklog.Commit (Blockno Block Disk)

theorem bind_eq_ok {α β : Type} {x : Except String α} {f : α → Except String β} {b : β} :
    (x >>= f) = .ok b ↔ ∃ a, x = .ok a ∧ f a = .ok b := by
  cases x with
  | error e => exact ⟨nofun, nofun⟩
  | ok a => exact ⟨fun done => ⟨a, rfl, done⟩, fun ⟨_, same, done⟩ => Except.ok.inj same ▸ done⟩

section Bitmap

theorem bit_firstBits {used : Nat} (small : used ≤ BPB) (j : Nat) : bit (firstBits used) j = decide (j < used) := by
  induction used with
  | zero =>
    show (byteAt (fun _ => 0 : Block) (j / 8)).getLsbD (j % 8) = _
    rw [byteAt_zero]
    simp
  | succ used ih =>
    have before : bit ((List.range used).foldl setBit zeroes) j = decide (j < used) := ih (by omega)
    rw [firstBits, range_succ, foldl_append, foldl_cons, foldl_nil, bit_setBit _ _ (by omega), before,
      ← Bool.decide_or]
    exact decide_eq_decide.mpr (by omega)

theorem BBLOCK_eq {b : Nat} (inside : b < FSSIZE) : BBLOCK sb b = BitVec.ofNat 32 sb.bmapstart := by
  have small : b / BPB = 0 := Nat.div_eq_of_lt (inside.trans (by decide))
  rw [BBLOCK, small, Nat.zero_add]

/-- The image as it would be if mkfs stopped here and wrote its bit map. -/
def shadow (m : Image) : Disk := update m.disk (BitVec.ofNat 32 sb.bmapstart) (firstBits m.freeblock)

theorem shadow_of_ne (m : Image) {b : Blockno} (other : b.toNat ≠ sb.bmapstart) : shadow m b = m.disk b := by
  refine update_of_ne ?_ _ _
  rintro rfl
  exact other rfl

theorem used_shadow {m : Image} (high : m.freeblock ≤ FSSIZE) {b : Nat} (inside : b < FSSIZE) :
    used sb (shadow m) b = decide (b < m.freeblock) := by
  have whole : FSSIZE ≤ BPB := by decide
  rw [used, BBLOCK_eq inside, shadow, update_self, bit_firstBits (high.trans whole), Nat.mod_eq_of_lt (by omega)]

theorem shadow_wsect (m : Image) {x : Blockno} (buf : Block) (other : x.toNat ≠ sb.bmapstart) :
    shadow (wsect m x buf) = update (shadow m) x buf := by
  refine update_comm ?_ _ _ _
  rintro rfl
  exact other rfl

end Bitmap

section Growth
variable {ι : Type} {m m' : Image} {w : World ι} {i : ι}

/-- The image between two steps: all blocks up to the counter belong to somebody, and those behind it are clear. -/
structure Laid (m : Image) (w : World ι) : Prop where
  disk : w.disk = shadow m
  owned : Owned sb w
  length : m.length = FSSIZE
  low : nmeta ≤ m.freeblock
  high : m.freeblock ≤ FSSIZE
  clear : ∀ b : Blockno, m.freeblock ≤ b.toNat → m.disk b = zeroes
  taken : ∀ b, nmeta ≤ b → b < m.freeblock → ∃ j slot, ref (w.file j) slot ≠ 0 ∧ (ref (w.file j) slot).toNat = b

variable {slot : Slot}

theorem Laid.inside (laid : Laid m w) (some : ref (w.file i) slot ≠ 0) :
    nmeta ≤ (ref (w.file i) slot).toNat ∧ (ref (w.file i) slot).toNat < m.freeblock := by
  obtain ⟨low, high, marked⟩ := laid.owned.inside i slot some
  rw [laid.disk, used_shadow laid.high high] at marked
  exact ⟨low, of_decide_eq_true marked⟩

theorem Laid.block (laid : Laid m w) (some : ref (w.file i) slot ≠ 0) :
    w.disk (ref (w.file i) slot) = m.disk (ref (w.file i) slot) ∧
      rsect m (ref (w.file i) slot) = .ok (m.disk (ref (w.file i) slot)) := by
  obtain ⟨low, high⟩ := laid.inside some
  have before : sb.bmapstart < nmeta := by decide
  refine ⟨?_, if_pos (laid.length ▸ high.trans_le laid.high)⟩
  rw [laid.disk, shadow_of_ne m (by omega)]

def next (m : Image) : Blockno := BitVec.ofNat 32 m.freeblock

def counted (m : Image) : Image := { m with freeblock := m.freeblock + 1 }

theorem toNat_next (high : m.freeblock ≤ FSSIZE) : (next m).toNat = m.freeblock := by
  have small : FSSIZE < 2 ^ 32 := by decide
  rw [next, BitVec.toNat_ofNat, Nat.mod_eq_of_lt (by omega)]

theorem Laid.fresh (laid : Laid m w) (room : m.freeblock < FSSIZE) : Fresh sb w.disk (shadow (counted m)) (next m) := by
  have number := toNat_next laid.high
  have low := laid.low
  have before : sb.bmapstart < nmeta := by decide
  have positive : 0 < nmeta := by decide
  have data : sb.dataStart = nmeta := by decide
  have size : sb.size = FSSIZE := rfl
  rw [laid.disk]
  refine ⟨?_, ⟨by omega, by omega⟩, ?_, fun b inside => ?_, ?_, fun b above other => ?_, fun b below => ?_⟩
  · intro zero
    rw [zero] at number
    have none : (0 : Blockno).toNat = 0 := rfl
    omega
  · rw [number, used_shadow laid.high room]
    exact decide_eq_false (Nat.lt_irrefl _)
  · rw [used_shadow (m := counted m) room inside, used_shadow laid.high inside, number, ← Bool.decide_or]
    exact decide_eq_decide.mpr (by show b < m.freeblock + 1 ↔ _; omega)
  · rw [shadow_of_ne _ (by omega)]
    exact laid.clear _ number.ge
  · rw [shadow_of_ne _ (by omega), shadow_of_ne _ (by omega)]
    rfl
  · rw [shadow_of_ne _ (by omega), shadow_of_ne _ (by omega)]
    rfl

variable [DecidableEq ι]

def grown (m : Image) (w : World ι) (i : ι) (slot : Slot) : File := setRef ⟨shadow (counted m), w.inodes i⟩ (next m) slot

structure Grows (m m' : Image) : Prop where
  length : m'.length = FSSIZE
  freeblock : m'.freeblock = m.freeblock + 1
  clear : ∀ b : Blockno, m'.freeblock ≤ b.toNat → m'.disk b = zeroes

theorem Laid.grow (laid : Laid m w) (room : m.freeblock < FSSIZE) (empty : ref (w.file i) slot = 0)
    (ready : ∀ j, slot = .entry j → ref (w.file i) .indirect ≠ 0) (grows : Grows m m')
    (disk : (grown m w i slot).disk = shadow m') : Laid m' (w.put i (grown m w i slot)) := by
  have fresh := laid.fresh room
  have kept := kept_grown fresh laid.owned empty ready
  have counter := grows.freeblock
  have low := laid.low
  refine ⟨disk, kept.owned, grows.length, by omega, by omega, grows.clear, fun b above below => ?_⟩
  by_cases old : b < m.freeblock
  · obtain ⟨j, slot', some, number⟩ := laid.taken b above old
    have same := kept.refs j slot' some
    exact ⟨j, slot', same ▸ some, same ▸ number⟩
  · have here := ref_grown fresh laid.owned empty ready i slot
    rw [if_pos (And.intro rfl rfl)] at here
    refine ⟨i, slot, ?_, ?_⟩
    · exact here ▸ fresh.nonzero
    · rw [show ref ((w.put i (grown m w i slot)).file i) slot = next m from here, toNat_next laid.high]
      omega

theorem Laid.ref_grown_iff (laid : Laid m w) (room : m.freeblock < FSSIZE) (empty : ref (w.file i) slot = 0)
    (ready : ∀ j, slot = .entry j → ref (w.file i) .indirect ≠ 0) (slot' : Slot) :
    ref (grown m w i slot) slot' ≠ 0 ↔ ref (w.file i) slot' ≠ 0 ∨ slot' = slot := by
  have fresh := laid.fresh room
  have here := ref_grown fresh laid.owned empty ready i slot'
  rw [World.file_put_same] at here
  rw [grown, here]
  by_cases new : slot' = slot
  · rw [if_pos ⟨rfl, new⟩]
    exact iff_of_true fresh.nonzero (.inr new)
  · rw [if_neg fun both => new both.2]
    exact (or_iff_left new).symm

omit [DecidableEq ι] in
theorem Laid.store (laid : Laid m w) {bn : Fin MAXFILE} (some : ref (w.file i) (dataSlot bn) ≠ 0) (buf : Block) :
    Laid (wsect m (ref (w.file i) (dataSlot bn)) buf) (w.store i bn buf) := by
  obtain ⟨low, high⟩ := laid.inside some
  have before : sb.bmapstart < nmeta := by decide
  have short := laid.high
  have length := laid.length
  refine ⟨?_, (kept_store laid.owned some).owned, ?_, laid.low, laid.high, fun b above => ?_, fun b above below => ?_⟩
  · rw [shadow_wsect _ _ (by omega), ← laid.disk]
    rfl
  · show max m.length _ = FSSIZE
    omega
  · have behind : m.freeblock ≤ b.toNat := above
    refine (update_of_ne ?_ _ _).trans (laid.clear b behind)
    rintro rfl
    omega
  · obtain ⟨j, slot, some', number⟩ := laid.taken b above below
    have same := ref_store laid.owned some buf j slot
    exact ⟨j, slot, same ▸ some', same ▸ number⟩

end Growth

section Sizes

/-- The slots that have a block are those that a file of this size needs. -/
structure Filled (s : File) (size : Nat) : Prop where
  data : ∀ bn : Fin MAXFILE, ref s (dataSlot bn) ≠ 0 ↔ bn.val * BSIZE < size
  indirect : ref s .indirect ≠ 0 ↔ NDIRECT * BSIZE < size

def need (size : Nat) : Nat := (size + BSIZE - 1) / BSIZE + if NDIRECT * BSIZE < size then 1 else 0

theorem need_inside {off : Nat} (inside : off % BSIZE ≠ 0) : need (off + 1) = need off := by
  unfold need NDIRECT BSIZE at *
  split_ifs <;> omega

theorem need_data {off : Nat} (boundary : off % BSIZE = 0) (other : off / BSIZE ≠ NDIRECT) : need (off + 1) = need off + 1 := by
  unfold need NDIRECT BSIZE at *
  split_ifs <;> omega

theorem need_first {off : Nat} (boundary : off % BSIZE = 0) (first : off / BSIZE = NDIRECT) :
    need (off + 1) = need off + 2 := by
  unfold need NDIRECT BSIZE at *
  split_ifs <;> omega

theorem need_round {off n : Nat} (some : 0 < n) (room : n ≤ (off / BSIZE + 1) * BSIZE - off) : need (off + n) = need (off + 1) := by
  unfold need NDIRECT BSIZE at *
  split_ifs <;> omega

theorem need_mono {a b : Nat} (le : a ≤ b) : need a ≤ need b := by
  unfold need NDIRECT BSIZE
  split_ifs <;> omega

variable {s s' : File} {off : Nat}

theorem Filled.grow (filled : Filled s off) (inside : off / BSIZE < MAXFILE)
    (refs : ∀ slot, ref s' slot ≠ 0 ↔ ref s slot ≠ 0 ∨ slot = dataSlot ⟨off / BSIZE, inside⟩ ∨
      slot = .indirect ∧ NDIRECT ≤ off / BSIZE) : Filled s' (off + 1) := by
  refine ⟨fun bn => ?_, ?_⟩
  · rw [refs, filled.data]
    have slots : dataSlot bn = dataSlot ⟨off / BSIZE, inside⟩ ↔ bn.val = off / BSIZE :=
      ⟨fun same => congrArg Fin.val (dataSlot_inj same), fun same => congrArg dataSlot (Fin.ext same)⟩
    simp only [slots, dataSlot_ne, false_and, or_false]
    unfold BSIZE
    omega
  · rw [refs, filled.indirect]
    simp only [(dataSlot_ne _).symm, true_and, false_or]
    unfold BSIZE NDIRECT
    omega

theorem Filled.round {n : Nat} (filled : Filled s (off + 1)) (some : 0 < n) (room : n ≤ (off / BSIZE + 1) * BSIZE - off) :
    Filled s (off + n) := by
  refine ⟨fun bn => (filled.data bn).trans ?_, filled.indirect.trans ?_⟩
  · unfold BSIZE at *
    omega
  · unfold BSIZE NDIRECT at *
    omega

end Sizes

section Locate
variable {ι : Type} [DecidableEq ι] {m m' : Image} {w : World ι} {i : ι} {off : Nat}

/-- A slot of the file has got the next block. -/
structure Took (m : Image) (w : World ι) (i : ι) (slot : Slot) (m' : Image) : Prop where
  disk : (grown m w i slot).disk = shadow m'
  laid : Laid m' (w.put i (grown m w i slot))
  kept : Kept sb w (w.put i (grown m w i slot))
  same : SameContents w (w.put i (grown m w i slot))
  here : ref (grown m w i slot) slot = next m
  some : next m ≠ 0
  refs : ∀ slot', ref (grown m w i slot) slot' ≠ 0 ↔ ref (w.file i) slot' ≠ 0 ∨ slot' = slot
  others : ∀ j, j ≠ i → ∀ slot', ref ((w.put i (grown m w i slot)).file j) slot' = ref (w.file j) slot'

theorem Laid.take (laid : Laid m w) (room : m.freeblock < FSSIZE) {slot : Slot} (empty : ref (w.file i) slot = 0)
    (ready : ∀ j, slot = .entry j → ref (w.file i) .indirect ≠ 0) (grows : Grows m m')
    (disk : (grown m w i slot).disk = shadow m') : Took m w i slot m' := by
  have fresh := laid.fresh room
  refine ⟨disk, laid.grow room empty ready grows disk, kept_grown fresh laid.owned empty ready,
    same_grown fresh laid.owned empty ready, ?_, fresh.nonzero, laid.ref_grown_iff room empty ready,
    fun j other slot' => ?_⟩
  · have here := ref_grown fresh laid.owned empty ready i slot
    rwa [World.file_put_same, if_pos (And.intro rfl rfl)] at here
  · exact (ref_grown fresh laid.owned empty ready j slot').trans (if_neg fun both => other both.1)

omit [DecidableEq ι] in
theorem Laid.counted (laid : Laid m w) : Grows m (counted m) :=
  ⟨laid.length, rfl, fun b above => laid.clear b (Nat.le_of_succ_le above)⟩

theorem Laid.take_direct (laid : Laid m w) (room : m.freeblock < FSSIZE) {k : Fin NDIRECT}
    (empty : ref (w.file i) (.direct k) = 0) : Took m w i (.direct k) (Appending.counted m) :=
  laid.take room empty nofun laid.counted rfl

theorem Laid.take_indirect (laid : Laid m w) (room : m.freeblock < FSSIZE) (empty : ref (w.file i) .indirect = 0) :
    Took m w i .indirect (Appending.counted m) :=
  laid.take room empty nofun laid.counted rfl

omit [DecidableEq ι] in
theorem Laid.getWord_entry (laid : Laid m w) (pointer : ref (w.file i) .indirect ≠ 0) (j : Fin NINDIRECT) :
    getWord (m.disk (ref (w.file i) .indirect)) (4 * j.val) = ref (w.file i) (.entry j) := by
  rw [← (laid.block pointer).1]
  exact (if_neg pointer).symm

def linked (m : Image) (p : Blockno) (j : Nat) : Image := wsect (counted m) p (setWord (m.disk p) (4 * j) (next m))

theorem Laid.take_entry (laid : Laid m w) (room : m.freeblock < FSSIZE) (pointer : ref (w.file i) .indirect ≠ 0)
    {j : Fin NINDIRECT} (empty : ref (w.file i) (.entry j) = 0) :
    Took m w i (.entry j) (linked m (ref (w.file i) .indirect) j.val) := by
  obtain ⟨low, high⟩ := laid.inside pointer
  have before : sb.bmapstart < nmeta := by decide
  have length := laid.length
  have other : (ref (w.file i) .indirect).toNat ≠ sb.bmapstart := by omega
  refine laid.take room empty (fun _ _ => pointer) ⟨?_, rfl, fun b above => ?_⟩ ?_
  · show max m.length _ = FSSIZE
    omega
  · have behind : m.freeblock + 1 ≤ b.toNat := above
    refine (update_of_ne ?_ _ _).trans (laid.clear b (by omega))
    rintro rfl
    omega
  · have block : shadow (Appending.counted m) (ref (w.file i) .indirect) = m.disk (ref (w.file i) .indirect) :=
      shadow_of_ne _ other
    rw [linked, shadow_wsect _ _ other, ← block]
    rfl

/-- What locate has done when it returns the block x. -/
structure Located (m : Image) (w : World ι) (i : ι) (off : Nat) (inside : off / BSIZE < MAXFILE) (m' : Image) (s' : File)
    (x : Blockno) : Prop where
  disk : s'.disk = shadow m'
  laid : Laid m' (w.put i s')
  kept : Kept sb w (w.put i s')
  same : SameContents w (w.put i s')
  here : ref s' (dataSlot ⟨off / BSIZE, inside⟩) = x
  some : x ≠ 0
  filled : Filled s' (off + 1)
  others : ∀ j, j ≠ i → ∀ slot, ref ((w.put i s').file j) slot = ref (w.file j) slot
  count : m'.freeblock + need off = m.freeblock + need (off + 1)
  inodes : m'.freeinode = m.freeinode

section Equations
variable {din : Dinode} {fbn j : Nat} {k : Fin (NDIRECT + 1)} {p : Blockno}

theorem point_present (some : din.addrs k ≠ 0) : point m din k = (m, din) := if_neg some

theorem point_empty (empty : din.addrs k = 0) :
    point m din k = (counted m, { din with addrs := update din.addrs k (next m) }) := if_pos empty

theorem locate_direct (direct : fbn < NDIRECT) {k : Fin (NDIRECT + 1)} (number : k.val = fbn) :
    locate m din fbn = .ok ((point m din k).1, (point m din k).2, (point m din k).2.addrs k) := by
  subst number
  exact dif_pos direct

theorem locate_indirect (indirect : ¬fbn < NDIRECT) :
    locate m din fbn = (entry (point m din (Fin.last NDIRECT)).1 ((point m din (Fin.last NDIRECT)).2.addrs (Fin.last NDIRECT))
      (fbn - NDIRECT)).map fun found => (found.1, (point m din (Fin.last NDIRECT)).2, found.2) := by
  rw [locate, dif_neg indirect]
  rfl

theorem entry_outside (outside : m.length ≤ p.toNat) : entry m p j = .error "read" := by
  rw [entry, rsect, if_neg (Nat.not_lt.mpr outside)]
  rfl

theorem entry_inside (inside : p.toNat < m.length) :
    entry m p j = .ok (if getWord (m.disk p) (4 * j) = 0 then (linked m p j, next m) else (m, getWord (m.disk p) (4 * j))) := by
  rw [entry, rsect, if_pos inside]
  exact (apply_ite _ _ _ _).symm

end Equations

theorem dataSlot_direct (bn : Fin MAXFILE) (direct : bn.val < NDIRECT) : dataSlot bn = .direct ⟨bn.val, direct⟩ := dif_pos direct

theorem dataSlot_entry (bn : Fin MAXFILE) (indirect : ¬bn.val < NDIRECT) (inside : bn.val - NDIRECT < NINDIRECT) :
    dataSlot bn = .entry ⟨bn.val - NDIRECT, inside⟩ := dif_neg indirect

omit [DecidableEq ι] in
theorem Laid.locate_present (laid : Laid m w) {bn : Fin MAXFILE} (some : ref (w.file i) (dataSlot bn) ≠ 0) :
    locate m (w.inodes i) bn.val = .ok (m, w.inodes i, ref (w.file i) (dataSlot bn)) := by
  by_cases direct : bn.val < NDIRECT
  · rw [dataSlot_direct bn direct] at some ⊢
    have here : (w.inodes i).addrs (Fin.castSucc ⟨bn.val, direct⟩) ≠ 0 := some
    rw [locate_direct direct (k := Fin.castSucc ⟨bn.val, direct⟩) rfl, point_present here]
    rfl
  · have inside : bn.val - NDIRECT < NINDIRECT := by
      have small := bn.isLt
      unfold MAXFILE at small
      omega
    rw [dataSlot_entry bn direct inside] at some ⊢
    have pointer : ref (w.file i) .indirect ≠ 0 := fun zero => some (if_pos zero)
    have word := laid.getWord_entry pointer ⟨bn.val - NDIRECT, inside⟩
    have short : (ref (w.file i) .indirect).toNat < m.length :=
      laid.length ▸ (laid.inside pointer).2.trans_le laid.high
    rw [locate_indirect direct, point_present (show (w.inodes i).addrs (Fin.last NDIRECT) ≠ 0 from pointer)]
    show (entry m (ref (w.file i) .indirect) _).map _ = _
    rw [entry_inside short, word, if_neg some]
    rfl

theorem Took.located {inside : off / BSIZE < MAXFILE} (took : Took m w i (dataSlot ⟨off / BSIZE, inside⟩) m')
    (filled : Filled (w.file i) off) (pointer : NDIRECT ≤ off / BSIZE → ref (w.file i) .indirect ≠ 0)
    (count : m'.freeblock + need off = m.freeblock + need (off + 1)) (inodes : m'.freeinode = m.freeinode) :
    Located m w i off inside m' (grown m w i (dataSlot ⟨off / BSIZE, inside⟩)) (next m) := by
  refine ⟨took.disk, took.laid, took.kept, took.same, took.here, took.some, ?_, took.others, count, inodes⟩
  refine filled.grow inside fun slot' => ?_
  rw [took.refs]
  constructor
  · exact Or.imp_right .inl
  · rintro (old | new | ⟨rfl, large⟩)
    · exact .inl old
    · exact .inr new
    · exact .inl (pointer large)

theorem Took.located_second {inside : off / BSIZE < MAXFILE} {m₁ : Image} (first : Took m w i .indirect m₁)
    (took : Took m₁ (w.put i (grown m w i .indirect)) i (dataSlot ⟨off / BSIZE, inside⟩) m')
    (filled : Filled (w.file i) off) (large : NDIRECT ≤ off / BSIZE)
    (count : m'.freeblock + need off = m.freeblock + need (off + 1)) (inodes : m'.freeinode = m.freeinode) :
    Located m w i off inside m' (grown m₁ (w.put i (grown m w i .indirect)) i (dataSlot ⟨off / BSIZE, inside⟩)) (next m₁) := by
  have laid := took.laid
  have kept := took.kept
  have same := took.same
  have others := took.others
  rw [World.put_put] at laid kept same others
  refine ⟨took.disk, laid, first.kept.trans kept, fun j k => (same j k).trans (first.same j k), took.here, took.some, ?_,
    fun j other slot => (others j other slot).trans (first.others j other slot), count, inodes⟩
  refine filled.grow inside fun slot' => ?_
  rw [took.refs, World.file_put_same, first.refs]
  constructor
  · rintro ((old | rfl) | new)
    · exact .inl old
    · exact .inr (.inr ⟨rfl, large⟩)
    · exact .inr (.inl new)
  · rintro (old | new | ⟨rfl, -⟩)
    · exact .inl (.inl old)
    · exact .inr new
    · exact .inl (.inr rfl)

theorem entry_new {p : Blockno} {j : Nat} (inside : p.toNat < m.length) (empty : getWord (m.disk p) (4 * j) = 0) :
    entry m p j = .ok (linked m p j, next m) := by
  rw [entry_inside inside, if_pos empty]

/-- Whether there are blocks enough for the byte at the offset, and what locate does in both cases: if there are not, it dies,
or the block that it returns is behind the end of the image. -/
def Finds (m : Image) (w : World ι) (i : ι) (off : Nat) (inside : off / BSIZE < MAXFILE) : Prop :=
  m.freeblock + need (off + 1) ≤ FSSIZE + need off ∧
      (∃ m' s' x, locate m (w.inodes i) (off / BSIZE) = .ok (m', s'.ip, x) ∧ Located m w i off inside m' s' x) ∨
    FSSIZE + need off < m.freeblock + need (off + 1) ∧
      ∀ m' din x, locate m (w.inodes i) (off / BSIZE) = .ok (m', din, x) → m'.length ≤ x.toNat

omit [DecidableEq ι] in
theorem Filled.boundary (filled : Filled (w.file i) off) (inside : off / BSIZE < MAXFILE) (boundary : off % BSIZE = 0) :
    ref (w.file i) (dataSlot ⟨off / BSIZE, inside⟩) = 0 := by
  by_contra some
  have below := (filled.data ⟨off / BSIZE, inside⟩).mp some
  have whole := Nat.div_add_mod off BSIZE
  have here : off / BSIZE * BSIZE < off := below
  rw [Nat.mul_comm] at here
  omega

theorem finds_direct (laid : Laid m w) (filled : Filled (w.file i) off) (inside : off / BSIZE < MAXFILE)
    (boundary : off % BSIZE = 0) (direct : off / BSIZE < NDIRECT) : Finds m w i off inside := by
  have slot : dataSlot ⟨off / BSIZE, inside⟩ = .direct ⟨off / BSIZE, direct⟩ := dataSlot_direct _ direct
  have empty := filled.boundary inside boundary
  have more := need_data boundary direct.ne
  have result : locate m (w.inodes i) (off / BSIZE) =
      .ok (counted m, (grown m w i (.direct ⟨off / BSIZE, direct⟩)).ip, next m) := by
    have none : (w.inodes i).addrs (Fin.castSucc ⟨off / BSIZE, direct⟩) = 0 := by rwa [slot] at empty
    rw [locate_direct direct (k := Fin.castSucc ⟨off / BSIZE, direct⟩) rfl, point_empty none]
    exact congrArg (fun x => Except.ok (counted m, _, x)) (update_self _ _ _)
  by_cases room : m.freeblock < FSSIZE
  · refine .inl ⟨by omega, _, _, _, result, ?_⟩
    rw [slot] at empty
    have took := laid.take_direct room empty
    rw [← slot] at took ⊢
    refine took.located filled (fun large => absurd direct (Nat.not_lt.mpr large)) ?_ rfl
    show m.freeblock + 1 + need off = _
    omega
  · refine .inr ⟨by omega, fun m' din x found => ?_⟩
    rw [result] at found
    obtain ⟨rfl, -, rfl⟩ := Prod.mk.inj (Except.ok.inj found) |>.imp_right Prod.mk.inj
    rw [toNat_next laid.high]
    show m.length ≤ _
    rw [laid.length]
    omega

theorem length_linked {p : Blockno} {j : Nat} (inside : p.toNat < m.length) : (linked m p j).length = m.length :=
  max_eq_left inside

theorem finds_entry (laid : Laid m w) (filled : Filled (w.file i) off) (inside : off / BSIZE < MAXFILE)
    (boundary : off % BSIZE = 0) (large : NDIRECT < off / BSIZE) : Finds m w i off inside := by
  have indirect : ¬off / BSIZE < NDIRECT := by omega
  have small : off / BSIZE - NDIRECT < NINDIRECT := by
    unfold MAXFILE at inside
    omega
  have slot : dataSlot ⟨off / BSIZE, inside⟩ = .entry ⟨off / BSIZE - NDIRECT, small⟩ :=
    dataSlot_entry ⟨off / BSIZE, inside⟩ indirect small
  have empty := filled.boundary inside boundary
  have more := need_data boundary large.ne'
  have pointer : ref (w.file i) .indirect ≠ 0 := by
    rw [filled.indirect]
    exact (Nat.mul_lt_mul_of_pos_right large (by decide)).trans_le (Nat.div_mul_le_self off BSIZE)
  have short : (ref (w.file i) .indirect).toNat < m.length := laid.length ▸ (laid.inside pointer).2.trans_le laid.high
  rw [slot] at empty
  have result : locate m (w.inodes i) (off / BSIZE) =
      .ok (linked m (ref (w.file i) .indirect) (off / BSIZE - NDIRECT), w.inodes i, next m) := by
    have word := laid.getWord_entry pointer ⟨off / BSIZE - NDIRECT, small⟩
    rw [locate_indirect indirect, point_present (show (w.inodes i).addrs (Fin.last NDIRECT) ≠ 0 from pointer)]
    show (entry m (ref (w.file i) .indirect) _).map _ = _
    rw [entry_new short (word.trans empty)]
    rfl
  by_cases room : m.freeblock < FSSIZE
  · refine .inl ⟨by omega, _, grown m w i (.entry ⟨off / BSIZE - NDIRECT, small⟩), _, result, ?_⟩
    have took := laid.take_entry room pointer empty
    rw [← slot] at took ⊢
    refine took.located filled (fun _ => pointer) ?_ rfl
    show m.freeblock + 1 + need off = _
    omega
  · refine .inr ⟨by omega, fun m' din x found => ?_⟩
    rw [result] at found
    obtain ⟨rfl, -, rfl⟩ := Prod.mk.inj (Except.ok.inj found) |>.imp_right Prod.mk.inj
    rw [toNat_next laid.high, length_linked short, laid.length]
    omega

theorem finds_both (laid : Laid m w) (filled : Filled (w.file i) off) (inside : off / BSIZE < MAXFILE)
    (boundary : off % BSIZE = 0) (first : off / BSIZE = NDIRECT) : Finds m w i off inside := by
  have indirect : ¬off / BSIZE < NDIRECT := by omega
  have small : off / BSIZE - NDIRECT < NINDIRECT := by
    unfold MAXFILE at inside
    omega
  have slot : dataSlot ⟨off / BSIZE, inside⟩ = .entry ⟨off / BSIZE - NDIRECT, small⟩ :=
    dataSlot_entry ⟨off / BSIZE, inside⟩ indirect small
  have empty := filled.boundary inside boundary
  have more := need_first boundary first
  have number := toNat_next laid.high
  have none : ref (w.file i) .indirect = 0 := by
    by_contra some
    have below := filled.indirect.mp some
    have whole := Nat.div_add_mod off BSIZE
    rw [first, Nat.mul_comm] at whole
    omega
  have start : locate m (w.inodes i) (off / BSIZE) = (entry (counted m) (next m) (off / BSIZE - NDIRECT)).map
      fun found => (found.1, (grown m w i .indirect).ip, found.2) := by
    rw [locate_indirect indirect, point_empty (show (w.inodes i).addrs (Fin.last NDIRECT) = 0 from none)]
    have number : update (w.inodes i).addrs (Fin.last NDIRECT) (next m) (Fin.last NDIRECT) = next m :=
      update_self _ _ _
    simp only [number]
    rfl
  by_cases room : m.freeblock < FSSIZE
  · have took := laid.take_indirect room none
    have laid₁ := took.laid
    have pointer : ref ((w.put i (grown m w i .indirect)).file i) .indirect = next m := by
      rw [World.file_put_same]
      exact took.here
    have empty₁ : ref ((w.put i (grown m w i .indirect)).file i) (.entry ⟨off / BSIZE - NDIRECT, small⟩) = 0 := by
      rw [World.file_put_same]
      by_contra some
      have before := (took.refs _).mp some
      rw [← slot] at before
      rcases before with old | same
      · exact old empty
      · exact dataSlot_ne _ same
    have short : (next m).toNat < (counted m).length := by
      rw [number]
      exact room.trans_le laid.length.ge
    have word := laid₁.getWord_entry (pointer ▸ took.some) ⟨off / BSIZE - NDIRECT, small⟩
    rw [pointer] at word
    rw [entry_new short (word.trans empty₁)] at start
    by_cases room₁ : (counted m).freeblock < FSSIZE
    · have next := laid₁.take_entry room₁ (pointer ▸ took.some) empty₁
      have more' : m.freeblock + 1 < FSSIZE := room₁
      rw [← slot, pointer] at next
      refine .inl ⟨by omega, _, _, _, start.trans ?_, took.located_second next filled first.ge ?_ rfl⟩
      · rw [slot]
        exact congrArg (fun ip => Except.ok (_, ip, _)) (congrArg File.ip (World.file_put_same w i _)).symm
      · show m.freeblock + 1 + 1 + need off = _
        omega
    · have full : ¬m.freeblock + 1 < FSSIZE := room₁
      refine .inr ⟨by omega, fun m' din x found => ?_⟩
      rw [start] at found
      obtain ⟨rfl, -, rfl⟩ := Prod.mk.inj (Except.ok.inj found) |>.imp_right Prod.mk.inj
      rw [toNat_next laid₁.high, length_linked short]
      show m.length ≤ m.freeblock + 1
      rw [laid.length]
      omega
  · refine .inr ⟨by omega, fun m' din x found => ?_⟩
    have outside : (counted m).length ≤ (next m).toNat := by
      rw [number]
      exact laid.length.le.trans (Nat.not_lt.mp room)
    rw [start, entry_outside outside] at found
    cases found

theorem locate_spec (laid : Laid m w) (filled : Filled (w.file i) off) (inside : off / BSIZE < MAXFILE) :
    Finds m w i off inside := by
  by_cases boundary : off % BSIZE = 0
  · rcases Nat.lt_trichotomy (off / BSIZE) NDIRECT with direct | first | large
    · exact finds_direct laid filled inside boundary direct
    · exact finds_both laid filled inside boundary first
    · exact finds_entry laid filled inside boundary large
  · -- the block has been begun
    have begun : off / BSIZE * BSIZE < off := by
      have whole := Nat.div_add_mod off BSIZE
      rw [Nat.mul_comm] at whole
      omega
    have some := (filled.data ⟨off / BSIZE, inside⟩).mpr begun
    have more := need_inside boundary
    have high := laid.high
    refine .inl ⟨by omega, m, w.file i, _, laid.locate_present some, ?_⟩
    obtain ⟨kept, same⟩ := kept_self (i := i) laid.owned
    refine ⟨laid.disk, ?_, kept, same, rfl, some, ?_, fun j _ slot => by rw [World.put_file], by omega, rfl⟩
    · rwa [World.put_file]
    · refine filled.grow inside fun slot => (or_iff_left_of_imp ?_).symm
      rintro (rfl | ⟨rfl, large⟩)
      · exact some
      · exact filled.indirect.mpr ((Nat.mul_le_mul_right BSIZE large).trans_lt begun)

end Locate

section Loop
variable {ι : Type} [DecidableEq ι] {m m₁ m' : Image} {w : World ι} {i : ι} {off n : Nat} {bytes : Nat → Byte}

/-- So many bytes went to the end of a file. -/
structure Appended (m : Image) (w : World ι) (i : ι) (off n : Nat) (bytes : Nat → Byte) (m' : Image) (s' : File) : Prop where
  laid : Laid m' (w.put i s')
  kept : Kept sb w (w.put i s')
  filled : Filled s' (off + n)
  others : ∀ j, j ≠ i → ∀ slot, ref ((w.put i s').file j) slot = ref (w.file j) slot
  content : ∀ j k, content ((w.put i s').file j) k =
    if j = i ∧ off ≤ k ∧ k < off + n then bytes (k - off) else content (w.file j) k
  count : m'.freeblock + need off = m.freeblock + need (off + n)
  inodes : m'.freeinode = m.freeinode

theorem Appended.nothing (laid : Laid m w) (filled : Filled (w.file i) off) : Appended m w i off 0 bytes m (w.file i) := by
  obtain ⟨kept, same⟩ := kept_self (i := i) laid.owned
  refine ⟨?_, kept, filled, fun j _ slot => by rw [World.put_file], fun j k => ?_, rfl, rfl⟩
  · rwa [World.put_file]
  · rw [same j k, if_neg (by omega)]

theorem Appended.after {s₁ s' : File} {n' : Nat} {bytes' : Nat → Byte} (first : Appended m w i off n bytes m₁ s₁)
    (rest : Appended m₁ (w.put i s₁) i (off + n) n' bytes' m' s') (later : ∀ x, bytes' x = bytes (n + x)) :
    Appended m w i off (n + n') bytes m' s' := by
  have laid := rest.laid
  have kept := rest.kept
  have content' := rest.content
  have others := rest.others
  have count := first.count
  have count' := rest.count
  rw [World.put_put] at laid kept content' others
  rw [Nat.add_assoc] at count'
  refine ⟨laid, first.kept.trans kept, ?_, fun j other slot => (others j other slot).trans (first.others j other slot),
    fun j k => ?_, by omega, rest.inodes.trans first.inodes⟩
  · rw [← Nat.add_assoc]
    exact rest.filled
  · rw [content' j k, first.content j k, later]
    by_cases mine : j = i
    · simp only [mine, true_and]
      by_cases late : off + n ≤ k
      · have place : n + (k - (off + n)) = k - off := by omega
        rw [place, if_neg (show ¬(off ≤ k ∧ k < off + n) by omega)]
        exact if_congr (by omega) rfl rfl
      · rw [if_neg (show ¬(off + n ≤ k ∧ k < off + n + n') by omega)]
        exact if_congr (by omega) rfl rfl
    · simp only [mine, false_and, if_false]

omit [DecidableEq ι] in
theorem Filled.congr {s s' : File} (filled : Filled s off) (refs : ∀ slot, ref s' slot = ref s slot) : Filled s' off :=
  ⟨fun bn => by rw [refs]; exact filled.data bn, by rw [refs]; exact filled.indirect⟩

theorem Located.write {inside : off / BSIZE < MAXFILE} {s₁ : File} {x : Blockno} (located : Located m w i off inside m₁ s₁ x)
    (some : 0 < n) (room : n ≤ (off / BSIZE + 1) * BSIZE - off) (bytes : Nat → Byte) :
    rsect m₁ x = .ok (m₁.disk x) ∧ Appended m w i off n bytes
      (wsect m₁ x (splice (m₁.disk x) (off - off / BSIZE * BSIZE) n bytes)) (patch s₁ x off n bytes) := by
  have whole := Nat.div_add_mod off BSIZE
  rw [Nat.mul_comm] at whole
  have place : off - off / BSIZE * BSIZE = off % BSIZE := by omega
  have within : n ≤ BSIZE - off % BSIZE := by
    rw [Nat.add_mul] at room
    omega
  have slot : ref ((w.put i s₁).file i) (dataSlot ⟨off / BSIZE, inside⟩) = x := by
    rw [World.file_put_same, located.here]
  have found : ref ((w.put i s₁).file i) (dataSlot ⟨off / BSIZE, inside⟩) ≠ 0 := slot ▸ located.some
  obtain ⟨block, read⟩ := located.laid.block found
  have stored : w.put i (patch s₁ x off n bytes) = (w.put i s₁).store i ⟨off / BSIZE, inside⟩
      (splice (m₁.disk x) (off % BSIZE) n bytes) := by
    rw [slot] at block
    rw [← block, patch, store_put located.here]
    rfl
  obtain ⟨kept, -, content'⟩ := patch_spec bytes located.kept located.same located.some located.here rfl within
  have laid := located.laid.store found (splice (m₁.disk x) (off % BSIZE) n bytes)
  have refs := ref_store located.laid.owned found (splice (m₁.disk x) (off % BSIZE) n bytes)
  rw [← stored] at laid refs
  have own := refs i
  simp only [World.file_put_same] at own
  rw [slot] at read laid
  have count := located.count
  refine ⟨read, ?_, kept, (located.filled.congr own).round some room,
    fun j other slot => (refs j slot).trans (located.others j other slot), content', ?_, located.inodes⟩
  · rw [place]
    exact laid
  · rw [need_round some room]
    exact count

def Fits (m : Image) (off n : Nat) : Prop := m.freeblock + need (off + n) ≤ FSSIZE + need off ∧ off + n ≤ MAXFILE * BSIZE

variable {p : List Byte}

theorem appendLoop_round (fuel : Nat) {din din' : Dinode} {x : Blockno} (more : 0 < p.length)
    (inside : off / BSIZE < MAXFILE) (found : locate m din (off / BSIZE) = .ok (m₁, din', x))
    (read : rsect m₁ x = .ok (m₁.disk x)) (size : n = min p.length ((off / BSIZE + 1) * BSIZE - off)) :
    appendLoop (fuel + 1) m din off p =
      appendLoop fuel (wsect m₁ x (splice (m₁.disk x) (off - off / BSIZE * BSIZE) n fun i => p.getD i 0)) din' (off + n)
        (p.drop n) := by
  rw [appendLoop, if_pos more, size]
  refine (if_pos inside).trans ?_
  rw [found]
  show (rsect m₁ x >>= _) = _
  rw [read]
  rfl

theorem appendLoop_dies (fuel : Nat) {din : Dinode} (more : 0 < p.length)
    (inside : off / BSIZE < MAXFILE)
    (outside : ∀ m' din' x, locate m din (off / BSIZE) = .ok (m', din', x) → m'.length ≤ x.toNat) :
    ∃ e, appendLoop (fuel + 1) m din off p = .error e := by
  cases result : locate m din (off / BSIZE) with
  | error e =>
    refine ⟨e, ?_⟩
    rw [appendLoop, if_pos more]
    refine (if_pos inside).trans ?_
    rw [result]
    rfl
  | ok found =>
    have behind := outside _ _ _ result
    refine ⟨"read", ?_⟩
    rw [appendLoop, if_pos more]
    refine (if_pos inside).trans ?_
    rw [result]
    show (rsect found.1 found.2.2 >>= _) = _
    rw [rsect, if_neg (Nat.not_lt.mpr behind)]
    rfl

theorem appendLoop_spec (fuel : Nat) (laid : Laid m w) (filled : Filled (w.file i) off)
    (enough : p.length ≤ fuel) (small : off ≤ MAXFILE * BSIZE) :
    Fits m off p.length ∧ (∃ m' s', appendLoop fuel m (w.inodes i) off p = .ok (m', s'.ip, off + p.length) ∧
        Appended m w i off p.length (fun x => p.getD x 0) m' s') ∨
      ¬Fits m off p.length ∧ ∃ e, appendLoop fuel m (w.inodes i) off p = .error e := by
  have high := laid.high
  induction fuel generalizing m w off p with
  | zero =>
    obtain rfl : p = [] := eq_nil_of_length_eq_zero (by omega)
    exact .inl ⟨⟨Nat.add_le_add_right high _, small⟩, m, w.file i, rfl, .nothing laid filled⟩
  | succ fuel ih =>
    by_cases more : 0 < p.length
    · by_cases inside : off / BSIZE < MAXFILE
      · obtain ⟨n, size⟩ : ∃ n, n = min p.length ((off / BSIZE + 1) * BSIZE - off) := ⟨_, rfl⟩
        have below : off < (off / BSIZE + 1) * BSIZE := Nat.lt_mul_of_div_lt (Nat.lt_succ_self _) (by decide)
        have end_ : (off / BSIZE + 1) * BSIZE ≤ MAXFILE * BSIZE := Nat.mul_le_mul_right BSIZE inside
        rcases locate_spec laid filled inside with ⟨-, m₁, s₁, x, found, located⟩ | ⟨none, outside⟩
        · obtain ⟨read, first⟩ := located.write (n := n) (by omega) (by omega) fun i => p.getD i 0
          have count := first.count
          have ran := appendLoop_round fuel more inside found read size
          have length : (p.drop n).length = p.length - n := length_drop
          have total : off + n + (p.length - n) = off + p.length := by omega
          have filled' := first.filled
          rw [← World.file_put_same w i (patch s₁ x off n _)] at filled'
          have rest := ih (p := p.drop n) first.laid filled' (by omega) (by omega) first.laid.high
          have inode : (w.put i (patch s₁ x off n fun i => p.getD i 0)).inodes i = s₁.ip :=
            congrArg File.ip (World.file_put_same w i _)
          rw [inode, ← ran, length, total] at rest
          have fits_iff : Fits (wsect m₁ x (splice (m₁.disk x) (off - off / BSIZE * BSIZE) n fun i => p.getD i 0)) (off + n)
              (p.length - n) ↔ Fits m off p.length := by
            rw [Fits, Fits, total]
            omega
          rw [fits_iff] at rest
          refine rest.imp_left ?_
          rintro ⟨fits, m', s', ok, done⟩
          have whole := first.after done fun y => ?_
          · rw [show n + (p.length - n) = p.length by omega] at whole
            exact ⟨fits, m', s', ok, whole⟩
          · rw [getD_eq_getElem?_getD, List.getElem?_drop, ← getD_eq_getElem?_getD]
        · refine .inr ⟨fun fits => ?_, appendLoop_dies fuel more inside outside⟩
          have mono := need_mono (show off + 1 ≤ off + p.length by omega)
          have room := fits.1
          omega
      · refine .inr ⟨fun fits => inside ?_, "fbn < MAXFILE", ?_⟩
        · have room := fits.2
          exact Nat.div_lt_of_lt_mul (by rw [Nat.mul_comm]; omega)
        · rw [appendLoop, if_pos more]
          exact if_neg inside
    · obtain rfl : p = [] := eq_nil_of_length_eq_zero (by omega)
      exact .inl ⟨⟨Nat.add_le_add_right high _, small⟩, m, w.file i, rfl, .nothing laid filled⟩

end Loop

section Inodes
variable {m : Image} {j : Nat}

theorem rinode_eq (length : m.length = FSSIZE) (small : j < NINODES) : rinode m j = .ok (dinode sb m.disk j) := by
  have before := (toNat_IBLOCK sb small).2
  have whole : sb.bmapstart < FSSIZE := by decide
  rw [rinode, rsect, if_pos (by omega)]
  rfl

theorem winode_eq (length : m.length = FSSIZE) (small : j < NINODES) (ip : Dinode) :
    winode m j ip = .ok { m with disk := setDinode sb m.disk j ip } := by
  have before := (toNat_IBLOCK sb small).2
  have whole : sb.bmapstart < FSSIZE := by decide
  have same : max m.length ((IBLOCK sb j).toNat + 1) = m.length := by omega
  rw [winode, rsect, if_pos (by omega)]
  show Except.ok (Image.mk _ _ _ _) = _
  rw [same]
  rfl

/-- The inodes as they are in the image, and the blocks with the bit map that mkfs will write. -/
def world (m : Image) : World (Fin NINODES) := ⟨shadow m, fun j => dinode sb m.disk j⟩

theorem shadow_setDinode (m : Image) (small : j < NINODES) (ip : Dinode) :
    shadow { m with disk := setDinode sb m.disk j ip } = setDinode sb (shadow m) j ip := by
  have other : IBLOCK sb j ≠ BitVec.ofNat 32 sb.bmapstart := by
    intro same
    have before := (toNat_IBLOCK sb small).2
    rw [same] at before
    exact absurd before (by decide)
  rw [shadow, setDinode, setDinode, update_comm other, shadow, update_of_ne other]

theorem world_setDinode (m : Image) (j : Fin NINODES) (ip : Dinode) :
    world { m with disk := setDinode sb m.disk j ip } = (world m).put j ⟨setDinode sb (shadow m) j ip, ip⟩ := by
  rw [world, shadow_setDinode m j.isLt]
  refine congrArg (World.mk _) (funext fun k => ?_)
  by_cases mine : k = j
  · subst mine
    rw [update_self, dinode_setDinode_same]
  · rw [update_of_ne mine]
    exact dinode_setDinode_other sb m.disk ip (fun same => mine (Fin.ext same)) j.isLt k.isLt

theorem dinode_congr {d d' : Disk} (same : ∀ b : Blockno, b.toNat < sb.bmapstart → d' b = d b) (small : j < NINODES) :
    dinode sb d' j = dinode sb d j := by
  rw [dinode, dinode, same _ (toNat_IBLOCK sb small).2]

end Inodes

end Xv6.Mkfs.Appending
