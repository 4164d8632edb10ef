import Xv6.Param
import Xv6.Lib.Bytes
import Xv6.Lib.Crash

/-! The physical redo log of log.c over the buffer cache. A buffer is named by
its block number; the data it holds shadows the block on the disk until the
buffer is written back. -/

namespace Xv6.Disklog.Commit
open Lib.Bytes Lib.Crash

abbrev Blockno := BitVec 32

instance : LawfulBEq Blockno := inferInstance
abbrev Block := Buffer BSIZE
abbrev Disk := Blockno → Block

structure Logheader where
  n : Int
  block : Nat → Blockno

structure Log where
  start : Blockno
  size : Int
  lh : Logheader

/-- What log.c keeps in memory: the cached buffers, their reference counts and the log itself. -/
structure Kernel where
  data : Blockno → Option Block
  refcnt : Blockno → Nat
  log : Log

abbrev LogM := Prog Blockno Block Kernel

def Kernel.setRef (k : Kernel) (b : Blockno) (count : Nat) : Kernel :=
  { k with refcnt := Function.update k.refcnt b count }

def Kernel.fill (k : Kernel) (b : Blockno) (contents : Block) : Kernel :=
  { k with data := Function.update k.data b (some contents) }

def Kernel.setHeader (k : Kernel) (lh : Logheader) : Kernel :=
  { k with log := { k.log with lh := lh } }

def bread (b : Blockno) : LogM Block := do
  let k ← getMemory
  match k.data b with
  | some contents =>
      modifyMemory fun k => k.setRef b (k.refcnt b + 1)
      pure contents
  | none =>
      let contents ← diskRead b
      modifyMemory fun k => (k.fill b contents).setRef b (k.refcnt b + 1)
      pure contents

def memmove (b : Blockno) (contents : Block) : LogM Unit :=
  modifyMemory fun k => k.fill b contents

def bwrite (b : Blockno) : LogM Unit := do
  let k ← getMemory
  match k.data b with
  | some contents => diskWrite b contents
  | none => throw (.panic "bwrite")

def brelse (b : Blockno) : LogM Unit :=
  modifyMemory fun k => k.setRef b (k.refcnt b - 1)

def bunpin (b : Blockno) : LogM Unit :=
  modifyMemory fun k => k.setRef b (k.refcnt b - 1)

def installBlock (recovering : Bool) (tail : Nat) : LogM Unit := do
  let log := (← getMemory).log
  let lbuf ← bread (log.start + BitVec.ofNat 32 tail + 1)
  let _dbuf ← bread (log.lh.block tail)
  memmove (log.lh.block tail) lbuf
  bwrite (log.lh.block tail)
  if recovering then pure () else bunpin (log.lh.block tail)
  brelse (log.start + BitVec.ofNat 32 tail + 1)
  brelse (log.lh.block tail)

def installTrans (recovering : Bool) : LogM Unit := do
  let log := (← getMemory).log
  forM (List.range log.lh.n.toNat) (installBlock recovering)

/-- The header read from a block: the entries past n keep their old values. -/
def getHeader (buf : Block) (old : Logheader) : Logheader where
  n := (getWord buf 0).toInt
  block i := if i < (getWord buf 0).toInt.toNat then getWord buf (4 + 4 * i) else old.block i

def readHead : LogM Unit := do
  let log := (← getMemory).log
  let buf ← bread log.start
  modifyMemory fun k => k.setHeader (getHeader buf log.lh)
  brelse log.start

/-- The header stored over a block: the bytes past the last entry keep their old values. -/
def putHeader (hb : Block) (lh : Logheader) : Block :=
  (List.range lh.n.toNat).foldl (fun hb i => setWord hb (4 + 4 * i) (lh.block i))
    (setWord hb 0 (BitVec.ofInt 32 lh.n))

def writeHead : LogM Unit := do
  let log := (← getMemory).log
  let buf ← bread log.start
  memmove log.start (putHeader buf log.lh)
  bwrite log.start
  brelse log.start

def clearHeader (k : Kernel) : Kernel := k.setHeader { k.log.lh with n := 0 }

def recoverFromLog : LogM Unit := do
  readHead
  installTrans true
  modifyMemory clearHeader
  writeHead

def writeBlock (tail : Nat) : LogM Unit := do
  let log := (← getMemory).log
  let _to ← bread (log.start + BitVec.ofNat 32 tail + 1)
  let src ← bread (log.lh.block tail)
  memmove (log.start + BitVec.ofNat 32 tail + 1) src
  bwrite (log.start + BitVec.ofNat 32 tail + 1)
  brelse (log.lh.block tail)
  brelse (log.start + BitVec.ofNat 32 tail + 1)

def writeLog : LogM Unit := do
  let log := (← getMemory).log
  forM (List.range log.lh.n.toNat) writeBlock

def commit : LogM Unit := do
  let log := (← getMemory).log
  if log.lh.n > 0 then
    writeLog
    writeHead
    installTrans false
    modifyMemory clearHeader
    writeHead
  else pure ()

end Xv6.Disklog.Commit
