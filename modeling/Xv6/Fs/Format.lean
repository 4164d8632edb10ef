import Xv6.Disklog.Commit

/-! The file system on the disk, as fs.h lays it out: the superblock, inodes, directory entries and the free bit map. -/

namespace Xv6.Fs.Format

open Lib.Bytes BitVec
open Disklog.Commit (Blockno Block Disk)

def NDIRECT : Nat := 12
def NINDIRECT : Nat := BSIZE / 4
def MAXFILE : Nat := NDIRECT + NINDIRECT
def IPB : Nat := BSIZE / 64
def BPB : Nat := BSIZE * 8

def T_DIR : BitVec 16 := 1
def T_FILE : BitVec 16 := 2

/-- The numbers of the superblock that say where things are. The inode blocks come before the bit map, and the bit map
before the data. -/
structure Layout where
  size : Nat
  ninodes : Nat
  inodestart : Nat
  bmapstart : Nat
  inodes : inodestart + ninodes / IPB + 1 ≤ bmapstart
  bitmap : bmapstart + size / BPB + 1 ≤ size
  small : size < 2 ^ 31

def Layout.dataStart (sb : Layout) : Nat := sb.bmapstart + sb.size / BPB + 1

theorem Layout.bmapstart_le (sb : Layout) : sb.bmapstart ≤ sb.dataStart :=
  (Nat.le_add_right _ _).trans (Nat.le_succ _)

def IBLOCK (sb : Layout) (inum : Nat) : Blockno := BitVec.ofNat 32 (inum / IPB + sb.inodestart)

def BBLOCK (sb : Layout) (b : Nat) : Blockno := BitVec.ofNat 32 (b / BPB + sb.bmapstart)

theorem toNat_IBLOCK (sb : Layout) {inum : Nat} (small : inum < sb.ninodes) :
    (IBLOCK sb inum).toNat = inum / IPB + sb.inodestart ∧ (IBLOCK sb inum).toNat < sb.bmapstart := by
  have below : inum / IPB ≤ sb.ninodes / IPB := Nat.div_le_div_right small.le
  have inodes := sb.inodes
  have before : sb.bmapstart ≤ sb.size := sb.bmapstart_le.trans sb.bitmap
  have size := sb.small
  rw [IBLOCK, toNat_ofNat, Nat.mod_eq_of_lt (by omega)]
  omega

theorem toNat_BBLOCK (sb : Layout) {b : Nat} (inside : b < sb.size) :
    (BBLOCK sb b).toNat = b / BPB + sb.bmapstart ∧ (BBLOCK sb b).toNat < sb.dataStart := by
  have below : b / BPB ≤ sb.size / BPB := Nat.div_le_div_right inside.le
  have bitmap := sb.bitmap
  have size := sb.small
  rw [BBLOCK, toNat_ofNat, Nat.mod_eq_of_lt (by omega), Layout.dataStart]
  omega

section Inodes

instance (priority := 2000) neZero_addrs : NeZero (NDIRECT + 1) := inferInstance

/-- struct dinode, and the copy of it in struct inode. -/
@[ext] structure Dinode where
  type : BitVec 16
  major : BitVec 16
  minor : BitVec 16
  nlink : BitVec 16
  size : BitVec 32
  addrs : Fin (NDIRECT + 1) → Blockno

def getHalf {size : Nat} (buffer : Buffer size) (offset : Nat) : BitVec 16 := BitVec.ofNat 16 (getLE buffer offset 2)

def Dinode.half (d : Dinode) : Nat → BitVec 16
  | 0 => d.type
  | 1 => d.major
  | 2 => d.minor
  | _ => d.nlink

def Dinode.word (d : Dinode) : Nat → BitVec 32
  | 0 => d.size
  | k + 1 => d.addrs (Fin.ofNat (NDIRECT + 1) k)

/-- The 64 bytes of an inode: four short and fourteen long numbers, lowest byte first. -/
def Dinode.encode (d : Dinode) : Buffer 64 := fun i =>
  if i.val < 8 then BitVec.ofNat 8 ((d.half (i.val / 2)).toNat / 256 ^ (i.val % 2))
  else BitVec.ofNat 8 ((d.word ((i.val - 8) / 4)).toNat / 256 ^ ((i.val - 8) % 4))

def Dinode.decode (b : Buffer 64) : Dinode where
  type := getHalf b 0
  major := getHalf b 2
  minor := getHalf b 4
  nlink := getHalf b 6
  size := getWord b 8
  addrs i := getWord b (12 + 4 * i.val)

theorem Dinode.getHalf_encode (d : Dinode) {k : Nat} (low : k < 4) : getHalf d.encode (2 * k) = d.half k := by
  have bytes : getLE d.encode (2 * k) 2 = (d.half k).toNat % 256 ^ 2 := by
    apply getLE_of_bytes
    intro i small
    have place : (2 * k + i) / 2 = k ∧ (2 * k + i) % 2 = i := by omega
    rw [byteAt, dif_pos (by omega), encode, if_pos (show 2 * k + i < 8 by omega), place.1, place.2]
  rw [getHalf, bytes]
  apply eq_of_toNat_eq
  have bound := (d.half k).isLt
  rw [toNat_ofNat]
  omega

theorem Dinode.getWord_encode (d : Dinode) {k : Nat} (low : k < 14) : getWord d.encode (8 + 4 * k) = d.word k := by
  have bytes : getLE d.encode (8 + 4 * k) 4 = (d.word k).toNat % 256 ^ 4 := by
    apply getLE_of_bytes
    intro i small
    have place : (8 + 4 * k + i - 8) / 4 = k ∧ (8 + 4 * k + i - 8) % 4 = i := by omega
    rw [byteAt, dif_pos (by omega), encode, if_neg (show ¬8 + 4 * k + i < 8 by omega), place.1, place.2]
  rw [getWord, bytes]
  apply eq_of_toNat_eq
  have bound := (d.word k).isLt
  rw [toNat_ofNat]
  omega

theorem Dinode.decode_encode (d : Dinode) : decode d.encode = d := by
  ext1
  · exact d.getHalf_encode (k := 0) (by decide)
  · exact d.getHalf_encode (k := 1) (by decide)
  · exact d.getHalf_encode (k := 2) (by decide)
  · exact d.getHalf_encode (k := 3) (by decide)
  · exact d.getWord_encode (k := 0) (by decide)
  · funext i
    have small : i.val < 13 := i.isLt
    have word := d.getWord_encode (k := i.val + 1) (by omega)
    rw [show 8 + 4 * (i.val + 1) = 12 + 4 * i.val by omega] at word
    refine word.trans ?_
    rw [Dinode.word]
    exact congrArg d.addrs (Fin.ext (Nat.mod_eq_of_lt i.isLt))

def dinode (sb : Layout) (d : Disk) (inum : Nat) : Dinode :=
  .decode (slice (d (IBLOCK sb inum)) (64 * (inum % IPB)) 64)

def setDinode (sb : Layout) (d : Disk) (inum : Nat) (ip : Dinode) : Disk :=
  Function.update d (IBLOCK sb inum) (splice (d (IBLOCK sb inum)) (64 * (inum % IPB)) 64 (byteAt ip.encode))

theorem inode_room (inum : Nat) : 64 * (inum % IPB) + 64 ≤ BSIZE := by
  have small : inum % IPB < IPB := Nat.mod_lt _ (by decide)
  simp only [IPB, BSIZE] at *
  omega

theorem dinode_setDinode_same (sb : Layout) (d : Disk) (inum : Nat) (ip : Dinode) :
    dinode sb (setDinode sb d inum ip) inum = ip := by
  rw [dinode, setDinode, Function.update_self, slice_splice_same _ _ _ _ (inode_room inum), Dinode.decode_encode]

theorem dinode_setDinode_other (sb : Layout) (d : Disk) {inum other : Nat} (ip : Dinode) (apart : other ≠ inum)
    (small : inum < sb.ninodes) (small' : other < sb.ninodes) :
    dinode sb (setDinode sb d inum ip) other = dinode sb d other := by
  rw [dinode, setDinode]
  by_cases same : IBLOCK sb other = IBLOCK sb inum
  · -- the same block, so another place in it
    have blocks := congrArg BitVec.toNat same
    rw [(toNat_IBLOCK sb small).1, (toNat_IBLOCK sb small').1] at blocks
    have places : other % IPB ≠ inum % IPB := by
      intro equal
      have first := Nat.div_add_mod other IPB
      have second := Nat.div_add_mod inum IPB
      have quotient : other / IPB = inum / IPB := by omega
      rw [quotient, equal] at first
      exact apart (first.symm.trans second)
    rw [same, Function.update_self, slice_splice_other _ _ _ _ _ _ (by omega), ← same, dinode]
  · rw [Function.update_of_ne same, dinode]

end Inodes

section Bits

def bit (b : Block) (k : Nat) : Bool := (byteAt b (k / 8)).getLsbD (k % 8)

def setBit (b : Block) (k : Nat) : Block := splice b (k / 8) 1 fun _ => byteAt b (k / 8) ||| 1#8 <<< (k % 8)

theorem getLsbD_or_mask (x : Byte) {k : Nat} (j : Nat) (low : k < 8) :
    (x ||| 1#8 <<< k).getLsbD j = (x.getLsbD j || decide (j = k)) := by
  simp only [getLsbD_or, getLsbD_shiftLeft, getLsbD_one]
  have same : (decide (j < 8) && !decide (j < k) && (decide (0 < 8) && decide (j - k = 0))) = decide (j = k) := by
    by_cases equal : j = k
    · simp [equal, low]
    · by_cases below : j < k
      · simp [equal, below]
      · have apart : j - k ≠ 0 := by omega
        simp [equal, apart]
  rw [same]

theorem bit_splice (b : Block) (x : Byte) {k : Nat} (j : Nat) (inside : k < BPB) :
    bit (splice b (k / 8) 1 fun _ => x) j = if j / 8 = k / 8 then x.getLsbD (j % 8) else bit b j := by
  have room : k / 8 < BSIZE := by
    simp only [BPB, BSIZE] at *
    omega
  rw [bit]
  by_cases same : j / 8 = k / 8
  · rw [if_pos same, same, byteAt_splice _ _ _ _ _ room, if_pos (by omega)]
  · rw [if_neg same, byteAt_splice_outside _ _ _ _ _ (by omega), bit]

theorem split_eight {j k : Nat} : j = k ↔ j / 8 = k / 8 ∧ j % 8 = k % 8 := by omega

theorem bit_setBit (b : Block) {k : Nat} (j : Nat) (inside : k < BPB) : bit (setBit b k) j = (bit b j || decide (j = k)) := by
  rw [setBit, bit_splice b _ j inside]
  by_cases same : j / 8 = k / 8
  · rw [if_pos same, getLsbD_or_mask _ _ (Nat.mod_lt _ (by decide)), ← same, bit]
    simp only [split_eight (j := j), same, true_and]
  · rw [if_neg same, decide_eq_false (fun equal => same (split_eight.mp equal).1), Bool.or_false]

end Bits

end Xv6.Fs.Format
