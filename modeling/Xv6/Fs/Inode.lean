import Xv6.Fs.Format

/-! Blocks and the contents of inodes in fs.c: balloc, bmap, readi and writei. The disk is the one that the
buffer cache shows; the inode is the copy in memory, which its sleep lock protects. -/

namespace Xv6.Fs.Inode

open Lib.Bytes Format Function
open Disklog.Commit (Blockno Block Disk)

/-- The disk and the inode that ip points to. -/
structure File where
  disk : Disk
  ip : Dinode

section Blocks

def bzero (d : Disk) (b : Blockno) : Disk := update d b fun _ => 0

def scan (sb : Layout) (d : Disk) (b : Nat) : Option (Nat × Nat) :=
  ((List.range (min BPB (sb.size - b))).find? fun bi => !bit (d (BBLOCK sb b)) bi).map fun bi => (b, bi)

def balloc (sb : Layout) (d : Disk) : Disk × Blockno :=
  match (List.range ((sb.size + BPB - 1) / BPB)).findSome? fun i => scan sb d (i * BPB) with
  | some (b, bi) =>
      let d := update d (BBLOCK sb b) (setBit (d (BBLOCK sb b)) bi)
      (bzero d (BitVec.ofNat 32 (b + bi)), BitVec.ofNat 32 (b + bi))
  | none => (d, 0)

end Blocks

section Addresses

/-- The places where an inode has the number of a block. -/
inductive Slot
  | direct (i : Fin NDIRECT)
  | indirect
  | entry (j : Fin NINDIRECT)
deriving DecidableEq

/-- The number in a slot; zero stands for no block. -/
def ref (s : File) : Slot → Blockno
  | .direct i => s.ip.addrs i.castSucc
  | .indirect => s.ip.addrs (Fin.last NDIRECT)
  | .entry j =>
      if s.ip.addrs (Fin.last NDIRECT) = 0 then 0 else getWord (s.disk (s.ip.addrs (Fin.last NDIRECT))) (4 * j.val)

def setRef (s : File) (b : Blockno) : Slot → File
  | .direct i => { s with ip := { s.ip with addrs := update s.ip.addrs i.castSucc b } }
  | .indirect => { s with ip := { s.ip with addrs := update s.ip.addrs (Fin.last NDIRECT) b } }
  | .entry j =>
      let p := s.ip.addrs (Fin.last NDIRECT)
      { s with disk := update s.disk p (setWord (s.disk p) (4 * j.val) b) }

/-- What bmap does at each of the three places where it looks up a number: it allocates a block if there is none. -/
def fill (sb : Layout) (s : File) (slot : Slot) : File × Blockno :=
  if ref s slot = 0 then
    let (d, addr) := balloc sb s.disk
    if addr = 0 then ({ s with disk := d }, 0) else (setRef { s with disk := d } addr slot, addr)
  else (s, ref s slot)

def bmap (sb : Layout) (s : File) (bn : Nat) : Except String (File × Blockno) :=
  if direct : bn < NDIRECT then .ok (fill sb s (.direct ⟨bn, direct⟩))
  else if inside : bn - NDIRECT < NINDIRECT then
    let (s, addr) := fill sb s .indirect
    if addr = 0 then .ok (s, 0) else .ok (fill sb s (.entry ⟨bn - NDIRECT, inside⟩))
  else .error "bmap: out of range"

end Addresses

section Contents

/-- Where writei copies from: the bytes, and of the bytes asked for at some place the number that either_copyin copies
before it meets a page that it cannot read. -/
structure Source where
  byte : Nat → Byte
  reach : Nat → Nat → Nat
  le : ∀ start count, reach start count ≤ count

/-- Where readi copies to: whether either_copyout can store that many bytes at a place. -/
structure Dest where
  accepts : Nat → Nat → Bool

def iupdate (sb : Layout) (inum : Nat) (s : File) : File := { s with disk := setDinode sb s.disk inum s.ip }

def bytesOf (b : Block) (off m : Nat) : List Byte := (List.range m).map fun i => byteAt b (off + i)

/-- The loop of readi. Every round copies at least one byte, so there are at most n of them. The number it returns fits in an
int: past MAXFILE blocks bmap panics. -/
def readLoop (sb : Layout) (dst : Dest) (n : Nat) :
    Nat → File → Nat → Nat → List Byte → Except String (File × Int × List Byte)
  | 0, s, _, tot, got => .ok (s, tot, got)
  | fuel + 1, s, off, tot, got =>
    if tot < n then do
      let (s, addr) ← bmap sb s (off / BSIZE)
      if addr = 0 then .ok (s, tot, got)
      else
        let m := min (n - tot) (BSIZE - off % BSIZE)
        if dst.accepts tot m then
          readLoop sb dst n fuel s (off + m) (tot + m) (got ++ bytesOf (s.disk addr) (off % BSIZE) m)
        else .ok (s, -1, got)
    else .ok (s, tot, got)

/-- The inode, what readi returns and the bytes it copied. -/
def readi (sb : Layout) (s : File) (dst : Dest) (off n : BitVec 32) : Except String (File × Int × List Byte) :=
  if off > s.ip.size ∨ off + n < off then .ok (s, 0, [])
  else
    let n := if off + n > s.ip.size then s.ip.size - off else n
    readLoop sb dst n.toNat n.toNat s off.toNat 0 []

/-- The loop of writei: the inode, and how many bytes were written. A failed copy leaves what it copied in the buffer. -/
def writeLoop (sb : Layout) (src : Source) (n : Nat) : Nat → File → Nat → Nat → Except String (File × Nat)
  | 0, s, _, tot => .ok (s, tot)
  | fuel + 1, s, off, tot =>
    if tot < n then do
      let (s, addr) ← bmap sb s (off / BSIZE)
      if addr = 0 then .ok (s, tot)
      else
        let m := min (n - tot) (BSIZE - off % BSIZE)
        let data := splice (s.disk addr) (off % BSIZE) (src.reach tot m) fun i => src.byte (tot + i)
        let s := { s with disk := update s.disk addr data }
        if src.reach tot m = m then writeLoop sb src n fuel s (off + m) (tot + m) else .ok (s, tot)
    else .ok (s, tot)

def writei (sb : Layout) (inum : Nat) (s : File) (src : Source) (off n : BitVec 32) : Except String (File × Int) :=
  if off > s.ip.size ∨ off + n < off then .ok (s, -1)
  else if (off + n).toNat > MAXFILE * BSIZE then .ok (s, -1)
  else do
    let (s, tot) ← writeLoop sb src n.toNat n.toNat s off.toNat 0
    let off := off + BitVec.ofNat 32 tot
    let s := if off > s.ip.size then { s with ip := { s.ip with size := off } } else s
    .ok (iupdate sb inum s, tot)

end Contents

end Xv6.Fs.Inode
