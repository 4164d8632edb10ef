import Xv6.Vm.Pages

/-! exec.c up to the point where the new image is committed. -/

namespace Xv6.Vm.Exec
open Lib.Ownership Lib.Exec Lib.Bytes Memory Pagetable Entry Space Moves Walk Unmap Alloc Shape Copy UserMem List

/-- An inode as readi shows it: the bytes read from an offset, fewer than asked for at the end of the
file or when a block cannot be had. -/
structure Inode where
  readi : Nat → Nat → List Byte
  short : ∀ off n, (readi off n).length ≤ n

/-- A file of the given bytes: readi returns nothing beyond its end, nor when the end of the range wraps. -/
def fileInode (file : List Byte) : Inode where
  readi off n := if file.length < off ∨ 2 ^ 32 ≤ off + n then [] else (file.drop off).take n
  short off n := by
    split
    · exact Nat.zero_le n
    · exact length_take_le n _

def field (bytes : List Byte) (offset count : Nat) : Nat :=
  ((bytes.drop offset).take count).foldr (fun b rest => b.toNat + 256 * rest) 0

theorem field_lt (bytes : List Byte) (offset count : Nat) : field bytes offset count < 256 ^ count := by
  have fits : ∀ list : List Byte, list.foldr (fun b rest => b.toNat + 256 * rest) 0 < 256 ^ list.length := by
    intro list
    induction list with
    | nil => decide
    | cons b rest ih =>
      simp only [foldr_cons, length_cons, pow_succ]
      have := b.isLt
      omega
  exact lt_of_lt_of_le (fits _) (Nat.pow_le_pow_right (by decide) (length_take_le _ _))

def ELF_MAGIC : Nat := 0x464C457F
def ELF_PROG_LOAD : Nat := 1

structure Elfhdr where
  magic : Nat
  entry : Nat
  phoff : Nat
  phnum : Nat

def Elfhdr.decode (bytes : List Byte) : Elfhdr where
  magic := field bytes 0 4
  entry := field bytes 24 8
  phoff := field bytes 32 8
  phnum := field bytes 56 2

structure Proghdr where
  type : Nat
  flags : Nat
  off : Nat
  vaddr : Nat
  filesz : Nat
  memsz : Nat

def Proghdr.decode (bytes : List Byte) : Proghdr where
  type := field bytes 0 4
  flags := field bytes 4 4
  off := field bytes 8 8
  vaddr := field bytes 16 8
  filesz := field bytes 32 8
  memsz := field bytes 40 8

def flags2perm (flags : Nat) : Nat :=
  (if flags &&& 1 ≠ 0 then PTE_X else 0) ||| (if flags &&& 2 ≠ 0 then PTE_W else 0)

theorem flags2perm_entry (flags : Nat) :
    PTE_R ||| PTE_U ||| flags2perm flags < 2 ^ 10 ∧ Leaf (PTE_R ||| PTE_U ||| flags2perm flags) ∧
      User (PTE_R ||| PTE_U ||| flags2perm flags) := by
  unfold flags2perm
  split_ifs <;> decide

/-- The loop of loadseg with npages to go; false is -1. -/
def loadsegLoop (pagetable va : Nat) (ip : Inode) (offset sz : Nat) : Nat → Nat → VM Bool
  | 0, _ => pure true
  | npages + 1, i => do
      match ← walkaddr pagetable ((va + i) % 2 ^ 64) with
      | none => throw "loadseg: address should exist"
      | some x => do
          let n := min (sz - i) PGSIZE
          let bytes := ip.readi ((offset + i) % 2 ^ 32) n
          modify fun s => s.setPage x (Page.write (s.page x) 0 bytes)
          if bytes.length = n then loadsegLoop pagetable va ip offset sz npages (i + PGSIZE) else pure false

/-- loadseg; offset and sz are of type uint. -/
def loadseg (pagetable va : Nat) (ip : Inode) (offset sz : Nat) : VM Bool :=
  loadsegLoop pagetable va ip (offset % 2 ^ 32) (sz % 2 ^ 32) ((sz % 2 ^ 32 + PGSIZE - 1) / PGSIZE) 0

section
variable [Layout]

/-- The loop over the program headers with phnum to go: the size reached, and false for goto bad. -/
def loadSegments (pagetable : Nat) (ip : Inode) : Nat → Nat → Nat → VM (Nat × Bool)
  | 0, _, sz => pure (sz, true)
  | phnum + 1, off, sz =>
      let bytes := ip.readi (off % 2 ^ 32) 56
      let ph := Proghdr.decode bytes
      if bytes.length ≠ 56 then pure (sz, false)
      else if ph.type ≠ ELF_PROG_LOAD then loadSegments pagetable ip phnum (off + 56) sz
      else if ph.memsz < ph.filesz then pure (sz, false)
      else if (ph.vaddr + ph.memsz) % 2 ^ 64 < ph.vaddr then pure (sz, false)
      else if ph.vaddr % PGSIZE ≠ 0 then pure (sz, false)
      else do
        let sz1 ← uvmalloc pagetable sz ((ph.vaddr + ph.memsz) % 2 ^ 64) (flags2perm ph.flags)
        if sz1 = 0 then pure (sz, false)
        else if ← loadseg pagetable ph.vaddr ip ph.off ph.filesz then loadSegments pagetable ip phnum (off + 56) sz1
        else pure (sz1, false)

end

def cstring (page : Page) : List Byte :=
  (List.ofFn page).takeWhile (fun b => decide (b ≠ 0)) ++ [0]

def push (sp n : Nat) : Nat :=
  let sp := (sp + 2 ^ 64 - n) % 2 ^ 64
  sp - sp % 16

/-- The same with a check, if there is to be one, that the subtraction does not wrap around. -/
def pushed (checked : Bool) (sp n : Nat) : VM Nat :=
  if checked ∧ sp < n then throw "sp wraps" else pure (push sp n)

theorem pushed_run (checked : Bool) (sp n : Nat) (s : Mem) (within : checked → n ≤ sp) :
    pushed checked sp n s = .ok (push sp n) s := by
  have passes : ¬(checked ∧ sp < n) := fun ⟨strict, wraps⟩ => Nat.not_le.mpr wraps (within strict)
  unfold pushed
  rw [if_neg passes]
  rfl

/-- The loop that pushes the argument strings: the new sp and ustack, none for goto bad. -/
def pushStrings (checked : Bool) (pagetable stackbase : Nat) : List Nat → Nat → List Nat → VM (Option (Nat × List Nat))
  | [], sp, ustack => pure (some (sp, ustack))
  | arg :: argv, sp, ustack =>
      if MAXARG ≤ ustack.length then pure none
      else do
        let s ← get
        let sp ← pushed checked sp (cstring (s.page arg)).length
        if sp < stackbase then pure none
        else if ← copyout pagetable sp (cstring (s.page arg)) then
          pushStrings checked pagetable stackbase argv sp (ustack ++ [sp])
        else pure none

def words (values : List Nat) : List Byte :=
  values.flatMap fun value => (List.range 8).map fun i => BitVec.ofNat 8 (value / 256 ^ i)

/-- The array of pointers to the strings: the final sp, none for goto bad. -/
def pushPointers (checked : Bool) (pagetable stackbase sp : Nat) (ustack : List Nat) : VM (Option Nat) := do
  let sp ← pushed checked sp ((ustack.length + 1) * 8)
  if sp < stackbase then pure none
  else if ← copyout pagetable sp (words (ustack ++ [0])) then pure (some sp)
  else pure none

structure Image where
  pagetable : Nat
  sz : Nat
  sp : Nat
  entry : Nat
  argc : Nat

section
variable [Layout]

/-- The loop of sys_exec that fetches the arguments, i of them so far, with n places left: the pages of
argv, and false for goto bad. The tests of fetchaddr come first. -/
def fetchArgs (pagetable sz uargv : Nat) : Nat → Nat → List Nat → VM (List Nat × Bool)
  | 0, _, argv => pure (argv, false)
  | n + 1, i, argv =>
      let addr := (uargv + 8 * i) % 2 ^ 64
      if sz ≤ addr ∨ sz < (addr + 8) % 2 ^ 64 then pure (argv, false)
      else do
        match ← copyin pagetable addr 8 with
        | none => pure (argv, false)
        | some bytes =>
            if field bytes 0 8 = 0 then pure (argv, true)
            else do
              match ← kalloc with
              | none => pure (argv, false)
              | some x => do
                  let (string, ok) ← copyinstr pagetable (field bytes 0 8) PGSIZE
                  modify fun s => s.setPage x (Page.write (s.page x) 0 string)
                  if ok then fetchArgs pagetable sz uargv n (i + 1) (argv ++ [x]) else pure (argv ++ [x], false)

def discard (pagetable sz : Nat) : VM (Option Image) := do
  procFreepagetable pagetable sz
  pure none

def buildStack (checked : Bool) (pagetable sz entry : Nat) (argv : List Nat) : VM (Option Image) := do
  let sz := PGROUNDUP sz
  let sz1 ← uvmalloc pagetable sz ((sz + 2 * PGSIZE) % 2 ^ 64) PTE_W
  if sz1 = 0 then discard pagetable sz
  else do
    uvmclear pagetable (sz1 - 2 * PGSIZE)
    match ← pushStrings checked pagetable (sz1 - PGSIZE) argv sz1 [] with
    | none => discard pagetable sz1
    | some (sp, ustack) => do
        match ← pushPointers checked pagetable (sz1 - PGSIZE) sp ustack with
        | none => discard pagetable sz1
        | some sp => pure (some ⟨pagetable, sz1, sp, entry, ustack.length⟩)

/-- exec of an inode for a process with the given trapframe, up to the commit; argv are the pages of the argument
strings. What works on memory goes through lift, and letGo is iunlockput and end_op. -/
def buildImage {m : Type → Type} [Monad m] (lift : {A : Type} → VM A → m A) (letGo : m Unit) (checked : Bool)
    (trapframe : Nat) (ip : Inode) (argv : List Nat) : m (Option Image) := do
  let bytes := ip.readi 0 64
  let elf := Elfhdr.decode bytes
  if bytes.length ≠ 64 then do
    letGo
    pure none
  else if elf.magic ≠ ELF_MAGIC then do
    letGo
    pure none
  else do
    match ← lift (procPagetable trapframe) with
    | none => do
        letGo
        pure none
    | some pagetable => do
        let (sz, loaded) ← lift (loadSegments pagetable ip elf.phnum elf.phoff 0)
        if loaded then do
          letGo
          lift (buildStack checked pagetable sz elf.entry argv)
        else do
          let image ← lift (discard pagetable sz)
          letGo
          pure image

end

end Xv6.Vm.Exec
