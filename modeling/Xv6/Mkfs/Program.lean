import Xv6.Fs.Format

/-! mkfs.c: the file system image that the build makes out of a list of files. The image is a file of the host; reading
behind its end fails, and mkfs dies. -/

namespace Xv6.Mkfs.Program

open Lib.Bytes Fs.Format
open Disklog.Commit (Blockno Block Disk)

section Layout

def NINODES : Nat := 200
def nbitmap : Nat := FSSIZE / (BSIZE * 8) + 1
def ninodeblocks : Nat := NINODES / IPB + 1
def nlog : Nat := LOGSIZE
def nmeta : Nat := 2 + nlog + ninodeblocks + nbitmap
def nblocks : Nat := FSSIZE - nmeta
def FSMAGIC : BitVec 32 := 0x10203040

def sb : Layout where
  size := FSSIZE
  ninodes := NINODES
  inodestart := 2 + nlog
  bmapstart := 2 + nlog + ninodeblocks
  inodes := by decide
  bitmap := by decide
  small := by decide

def superblock : List (BitVec 32) :=
  [FSMAGIC, BitVec.ofNat 32 FSSIZE, BitVec.ofNat 32 nblocks, BitVec.ofNat 32 NINODES, BitVec.ofNat 32 nlog, 2,
    BitVec.ofNat 32 (2 + nlog), BitVec.ofNat 32 (2 + nlog + ninodeblocks)]

end Layout

section Sectors

/-- The image file, so many blocks long, and the two counters. -/
structure Image where
  disk : Disk
  length : Nat
  freeinode : Nat
  freeblock : Nat

def zeroes : Block := fun _ => 0

def wsect (m : Image) (sec : Blockno) (buf : Block) : Image :=
  { m with disk := Function.update m.disk sec buf, length := max m.length (sec.toNat + 1) }

def rsect (m : Image) (sec : Blockno) : Except String Block :=
  if sec.toNat < m.length then .ok (m.disk sec) else .error "read"

def winode (m : Image) (inum : Nat) (ip : Dinode) : Except String Image := do
  let buf ← rsect m (IBLOCK sb inum)
  .ok (wsect m (IBLOCK sb inum) (splice buf (64 * (inum % IPB)) 64 (byteAt ip.encode)))

def rinode (m : Image) (inum : Nat) : Except String Dinode := do
  let buf ← rsect m (IBLOCK sb inum)
  .ok (.decode (slice buf (64 * (inum % IPB)) 64))

def ialloc (m : Image) (type : BitVec 16) : Except String (Image × Nat) := do
  let inum := m.freeinode
  let m ← winode { m with freeinode := inum + 1 } inum ⟨type, 0, 0, 1, 0, fun _ => 0⟩
  .ok (m, inum)

def firstBits (used : Nat) : Block := (List.range used).foldl setBit zeroes

def balloc (m : Image) (used : Nat) : Except String Image :=
  if used < BSIZE * 8 then .ok (wsect m (BitVec.ofNat 32 sb.bmapstart) (firstBits used)) else .error "used < BSIZE*8"

end Sectors

section Contents

/-- A number in the inode; a missing one is taken from the counter. -/
def point (m : Image) (din : Dinode) (k : Fin (NDIRECT + 1)) : Image × Dinode :=
  if din.addrs k = 0 then
    ({ m with freeblock := m.freeblock + 1 },
      { din with addrs := Function.update din.addrs k (BitVec.ofNat 32 m.freeblock) })
  else (m, din)

/-- A number in the indirect block; a missing one is taken from the counter. -/
def entry (m : Image) (p : Blockno) (j : Nat) : Except String (Image × Blockno) := do
  let indirect ← rsect m p
  let x := getWord indirect (4 * j)
  if x = 0 then
    let x := BitVec.ofNat 32 m.freeblock
    .ok (wsect { m with freeblock := m.freeblock + 1 } p (setWord indirect (4 * j) x), x)
  else .ok (m, x)

def locate (m : Image) (din : Dinode) (fbn : Nat) : Except String (Image × Dinode × Blockno) :=
  if direct : fbn < NDIRECT then
    let k : Fin (NDIRECT + 1) := ⟨fbn, direct.trans (Nat.lt_succ_self _)⟩
    let (m, din) := point m din k
    .ok (m, din, din.addrs k)
  else do
    let (m, din) := point m din (Fin.last NDIRECT)
    let (m, x) ← entry m (din.addrs (Fin.last NDIRECT)) (fbn - NDIRECT)
    .ok (m, din, x)

/-- The loop of iappend: the image, the inode and the offset. Every round writes at least one byte. -/
def appendLoop : Nat → Image → Dinode → Nat → List Byte → Except String (Image × Dinode × Nat)
  | 0, m, din, off, _ => .ok (m, din, off)
  | fuel + 1, m, din, off, p =>
    if 0 < p.length then do
      let fbn := off / BSIZE
      if fbn < MAXFILE then
        let (m, din, x) ← locate m din fbn
        let n1 := min p.length ((fbn + 1) * BSIZE - off)
        let buf ← rsect m x
        let m := wsect m x (splice buf (off - fbn * BSIZE) n1 fun i => p.getD i 0)
        appendLoop fuel m din (off + n1) (p.drop n1)
      else .error "fbn < MAXFILE"
    else .ok (m, din, off)

def iappend (m : Image) (inum : Nat) (p : List Byte) : Except String Image := do
  let din ← rinode m inum
  let (m, din, off) ← appendLoop p.length m din din.size.toNat p
  winode m inum { din with size := BitVec.ofNat 32 off }

end Contents

section Main

/-- One of the files: its path on the host, without the terminator, and what the calls of read return for it, or nothing
where it cannot be opened. -/
structure Input where
  path : List Byte
  content : Option (List (List Byte))
  nonzero : 0 ∉ path
  sizes : ∀ chunks ∈ content, ∀ chunk ∈ chunks, chunk ≠ [] ∧ chunk.length ≤ BSIZE

def slash : Byte := 0x2f
def underscore : Byte := 0x5f
def dot : Byte := 0x2e

def userDir : List Byte := [0x75, 0x73, 0x65, 0x72, slash]

def shortname (path : List Byte) : List Byte := if path.take 5 = userDir then path.drop 5 else path

def stripped (name : List Byte) : List Byte := if name.head? = some underscore then name.drop 1 else name

def strncpy (t : List Byte) (n : Nat) : List Byte := t.take n ++ List.replicate (n - t.length) 0

def dirent (inum : Nat) (name : List Byte) : List Byte :=
  BitVec.ofNat 8 inum :: BitVec.ofNat 8 (inum / 256) :: strncpy name DIRSIZ

def Input.data (input : Input) : List Byte := (input.content.getD []).flatten

/-- The name that the file gets, before it is cut to its first DIRSIZ bytes. -/
def Input.name (input : Input) : List Byte := stripped (shortname input.path)

def Input.shown (input : Input) : List Byte := input.name.take DIRSIZ

def add (m : Image) (input : Input) : Except String Image :=
  if slash ∈ shortname input.path then .error "index(shortname, '/') == 0"
  else match input.content with
  | none => .error "open"
  | some chunks => do
      let (m, inum) ← ialloc m T_FILE
      let m ← iappend m ROOTINO (dirent inum input.name)
      chunks.foldlM (fun m chunk => iappend m inum chunk) m

def start : Image :=
  let m := (List.range FSSIZE).foldl (fun m i => wsect m (BitVec.ofNat 32 i) zeroes) ⟨fun _ => zeroes, 0, 1, nmeta⟩
  wsect m 1 (superblock.zipIdx.foldl (fun buf word => setWord buf (4 * word.2) word.1) zeroes)

def makeRoot : Except String Image := do
  let (m, rootino) ← ialloc start T_DIR
  if rootino = ROOTINO then
    let m ← iappend m rootino (dirent rootino [dot])
    iappend m rootino (dirent rootino [dot, dot])
  else .error "rootino == ROOTINO"

/-- The size of the root directory is made a multiple of the block size, and the bit map is written. -/
def finish (m : Image) : Except String Image := do
  let din ← rinode m ROOTINO
  let off := (din.size.toNat / BSIZE + 1) * BSIZE
  let m ← winode m ROOTINO { din with size := BitVec.ofNat 32 off }
  balloc m m.freeblock

/-- The image where mkfs exits with status 0. -/
def main (files : List Input) : Except String Image := do
  let m ← makeRoot
  let m ← files.foldlM add m
  finish m

end Main

end Xv6.Mkfs.Program
