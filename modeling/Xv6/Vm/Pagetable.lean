import Xv6.Vm.Memory

/-! The page-table functions of vm.c and the page-table half of proc.c, statement by statement. -/

namespace Xv6.Vm.Pagetable
open Lib.Bytes Memory

section
variable [Layout]

/-- One turn of the loop of walk: the table that the entry points to, allocated if it may be. -/
def walkLevel (table : Nat) (i : Fin 512) (alloc : Bool) : VM (Option Nat) := do
  let pte ← getPte table i
  if Valid pte then pure (some (PTE2PA pte))
  else if alloc then
    match ← kalloc with
    | none => pure none
    | some x => do
        zeroPage x
        setPte table i (PA2PTE x ||| PTE_V)
        pure (some x)
  else pure none

def walkLoop (va : Nat) (alloc : Bool) : Nat → Nat → VM (Option Nat)
  | 0, table => pure (some table)
  | level + 1, table => do
      match ← walkLevel table (PX (level + 1) va) alloc with
      | none => pure none
      | some next => walkLoop va alloc level next

def walk (pagetable va : Nat) (alloc : Bool) : VM (Option (Nat × Fin 512)) :=
  if MAXVA ≤ va then throw "walk"
  else do
    match ← walkLoop va alloc 2 pagetable with
    | none => pure none
    | some table => pure (some (table, PX 0 va))

/-- The physical page of a user address; a page at address 0 reads as unmapped. -/
def walkaddr (pagetable va : Nat) : VM (Option Nat) :=
  if MAXVA ≤ va then pure none
  else do
    match ← walk pagetable va false with
    | none => pure none
    | some (table, i) => do
        let pte ← getPte table i
        if Valid pte ∧ User pte ∧ PTE2PA pte ≠ 0 then pure (some (PTE2PA pte)) else pure none

/-- The loop of mappages with more pages to go after this one; false is -1. -/
def mappagesLoop (pagetable perm : Nat) : Nat → Nat → Nat → VM Bool
  | more, a, x => do
      match ← walk pagetable a true with
      | none => pure false
      | some (table, i) => do
          let pte ← getPte table i
          if Valid pte then throw "mappages: remap"
          setPte table i (PA2PTE x ||| perm ||| PTE_V)
          match more with
          | 0 => pure true
          | more + 1 => mappagesLoop pagetable perm more (a + PGSIZE) (x + 1)

def mappages (pagetable va size x perm : Nat) : VM Bool :=
  if size = 0 then throw "mappages: size"
  else mappagesLoop pagetable perm ((PGROUNDDOWN (va + size - 1) - PGROUNDDOWN va) / PGSIZE) (PGROUNDDOWN va) x

def uvmunmapLoop (pagetable : Nat) (doFree : Bool) : Nat → Nat → VM Unit
  | 0, _ => pure ()
  | npages + 1, a => do
      match ← walk pagetable a false with
      | none => throw "uvmunmap: walk"
      | some (table, i) => do
          let pte ← getPte table i
          if ¬Valid pte then throw "uvmunmap: not mapped"
          if PTE_FLAGS pte = PTE_V then throw "uvmunmap: not a leaf"
          if doFree then kfree (PTE2PA pte)
          setPte table i 0
          uvmunmapLoop pagetable doFree npages (a + PGSIZE)

def uvmunmap (pagetable va npages : Nat) (doFree : Bool) : VM Unit :=
  if va % PGSIZE ≠ 0 then throw "uvmunmap: not aligned" else uvmunmapLoop pagetable doFree npages va

def uvmcreate : VM (Option Nat) := do
  match ← kalloc with
  | none => pure none
  | some x => do
      zeroPage x
      pure (some x)

def uvmdealloc (pagetable oldsz newsz : Nat) : VM Nat :=
  if oldsz ≤ newsz then pure oldsz
  else do
    if PGROUNDUP newsz < PGROUNDUP oldsz then
      uvmunmap pagetable (PGROUNDUP newsz) ((PGROUNDUP oldsz - PGROUNDUP newsz) / PGSIZE) true
    pure newsz

/-- The loop of uvmalloc with npages to go; false once it has given everything back. -/
def uvmallocLoop (pagetable oldsz xperm : Nat) : Nat → Nat → VM Bool
  | 0, _ => pure true
  | npages + 1, a => do
      match ← kalloc with
      | none => do
          let _ ← uvmdealloc pagetable a oldsz
          pure false
      | some mem => do
          zeroPage mem
          if ← mappages pagetable a PGSIZE mem (PTE_R ||| PTE_U ||| xperm) then
            uvmallocLoop pagetable oldsz xperm npages (a + PGSIZE)
          else do
            kfree mem
            let _ ← uvmdealloc pagetable a oldsz
            pure false

def uvmalloc (pagetable oldsz newsz xperm : Nat) : VM Nat :=
  if newsz < oldsz then pure oldsz
  else do
    let start := PGROUNDUP oldsz
    if ← uvmallocLoop pagetable start xperm ((newsz - start + PGSIZE - 1) / PGSIZE) start then pure newsz else pure 0

/-- One turn of the loop of freewalk, given what it does to the tables below. -/
def freewalkEntry (recurse : Nat → VM Unit) (table : Nat) (i : Fin 512) : VM Unit := do
  let pte ← getPte table i
  if Valid pte ∧ ¬Leaf pte then do
    recurse (PTE2PA pte)
    setPte table i 0
  else if Valid pte then throw "freewalk: leaf"

def freewalk : Nat → Nat → VM Unit
  | 0, _ => throw "freewalk: too deep"
  | levels + 1, table => do
      forM (List.finRange 512) (freewalkEntry (freewalk levels) table)
      kfree table

def uvmfree (pagetable sz : Nat) : VM Unit := do
  if 0 < sz then uvmunmap pagetable 0 (PGROUNDUP sz / PGSIZE) true
  freewalk 3 pagetable

/-- The loop of uvmcopy with npages to go, the error path included; false is -1. -/
def uvmcopyLoop (old new : Nat) : Nat → Nat → VM Bool
  | 0, _ => pure true
  | npages + 1, i => do
      match ← walk old i false with
      | none => throw "uvmcopy: pte should exist"
      | some (table, k) => do
          let pte ← getPte table k
          if ¬Valid pte then throw "uvmcopy: page not present"
          match ← kalloc with
          | none => do
              uvmunmap new 0 (i / PGSIZE) true
              pure false
          | some mem => do
              modify fun s => s.setPage mem (s.page (PTE2PA pte))
              if ← mappages new i PGSIZE mem (PTE_FLAGS pte) then uvmcopyLoop old new npages (i + PGSIZE)
              else do
                kfree mem
                uvmunmap new 0 (i / PGSIZE) true
                pure false

def uvmcopy (old new sz : Nat) : VM Bool := uvmcopyLoop old new ((sz + PGSIZE - 1) / PGSIZE) 0

def uvmclear (pagetable va : Nat) : VM Unit := do
  match ← walk pagetable va false with
  | none => throw "uvmclear"
  | some (table, i) => do
      let pte ← getPte table i
      setPte table i (pte &&& (2 ^ 64 - 1 - PTE_U))

def procPagetable (trapframe : Nat) : VM (Option Nat) := do
  match ← uvmcreate with
  | none => pure none
  | some pagetable => do
      if ← mappages pagetable TRAMPOLINE PGSIZE Layout.trampoline (PTE_R ||| PTE_X) then
        if ← mappages pagetable TRAPFRAME PGSIZE trapframe (PTE_R ||| PTE_W) then pure (some pagetable)
        else do
          uvmunmap pagetable TRAMPOLINE 1 false
          uvmfree pagetable 0
          pure none
      else do
        uvmfree pagetable 0
        pure none

def procFreepagetable (pagetable sz : Nat) : VM Unit := do
  uvmunmap pagetable TRAMPOLINE 1 false
  uvmunmap pagetable TRAPFRAME 1 false
  uvmfree pagetable sz

/-- uvmfirst; memory cannot run out this early, and the code does not look. -/
def uvmfirst (pagetable : Nat) (src : List Byte) : VM Unit :=
  if PGSIZE ≤ src.length then throw "uvmfirst: more than a page"
  else do
    match ← kalloc with
    | none => throw "kerneltrap"
    | some mem => do
        zeroPage mem
        let _ ← mappages pagetable 0 PGSIZE mem (PTE_W ||| PTE_R ||| PTE_X ||| PTE_U)
        modify fun s => s.setPage mem (fun i => src.getD i.val (s.page mem i))

end

def Page.write (page : Page) (offset : Nat) (bytes : List Byte) : Page :=
  fun i => if offset ≤ i.val ∧ i.val < offset + bytes.length then bytes.getD (i.val - offset) 0 else page i

def Page.read (page : Page) (offset count : Nat) : List Byte :=
  (List.range count).map fun i => byteAt page (offset + i)

section
variable [Layout]

def copyoutLoop (pagetable : Nat) : Nat → Nat → List Byte → VM Bool
  | 0, _, _ => pure true
  | fuel + 1, dstva, src =>
      if src.isEmpty then pure true
      else do
        let va0 := PGROUNDDOWN dstva
        match ← walkaddr pagetable va0 with
        | none => pure false
        | some x => do
            let n := min (PGSIZE - (dstva - va0)) src.length
            modify fun s => s.setPage x (Page.write (s.page x) (dstva - va0) (src.take n))
            copyoutLoop pagetable fuel ((va0 + PGSIZE) % 2 ^ 64) (src.drop n)

def copyout (pagetable dstva : Nat) (src : List Byte) : VM Bool := copyoutLoop pagetable src.length dstva src

/-- The loop of copyin: the bytes stored at dst, also when it returns -1, and whether it returned 0. -/
def copyinStoringLoop (pagetable : Nat) : Nat → Nat → Nat → List Byte → VM (List Byte × Bool)
  | 0, _, _, copied => pure (copied, true)
  | fuel + 1, srcva, len, copied =>
      if len = 0 then pure (copied, true)
      else do
        let va0 := PGROUNDDOWN srcva
        match ← walkaddr pagetable va0 with
        | none => pure (copied, false)
        | some x => do
            let n := min (PGSIZE - (srcva - va0)) len
            let s ← get
            copyinStoringLoop pagetable fuel ((va0 + PGSIZE) % 2 ^ 64) (len - n)
              (copied ++ Page.read (s.page x) (srcva - va0) n)

def copyinStoring (pagetable srcva len : Nat) : VM (List Byte × Bool) := copyinStoringLoop pagetable len srcva len []

/-- What copyin gives its caller: the bytes, none for -1. -/
def copyin (pagetable srcva len : Nat) : VM (Option (List Byte)) := do
  let (copied, ok) ← copyinStoring pagetable srcva len
  pure (if ok then some copied else none)

/-- The inner loop of copyinstr over n bytes of one page: what it copied, and whether it met a NUL. -/
def copyinstrBytes (page : Page) : Nat → Nat → List Byte → List Byte × Bool
  | 0, _, copied => (copied, false)
  | n + 1, offset, copied =>
      if byteAt page offset = 0 then (copied ++ [0], true)
      else copyinstrBytes page n (offset + 1) (copied ++ [byteAt page offset])

/-- The outer loop of copyinstr: the bytes stored at dst, whether it returned 0, and the user pages it has read. -/
def copyinstrPagesLoop (pagetable : Nat) : Nat → Nat → Nat → List Byte → VM ((List Byte × Bool) × List Nat)
  | 0, _, _, copied => pure ((copied, false), [])
  | fuel + 1, srcva, max, copied =>
      if max = 0 then pure ((copied, false), [])
      else do
        let va0 := PGROUNDDOWN srcva
        match ← walkaddr pagetable va0 with
        | none => pure ((copied, false), [])
        | some x => do
            let n := min (PGSIZE - (srcva - va0)) max
            let s ← get
            match copyinstrBytes (s.page x) n (srcva - va0) copied with
            | (copied, true) => pure ((copied, true), [va0])
            | (copied, false) => do
                let (out, pages) ← copyinstrPagesLoop pagetable fuel ((va0 + PGSIZE) % 2 ^ 64) (max - n) copied
                pure (out, va0 :: pages)

def copyinstrPages (pagetable srcva max : Nat) : VM ((List Byte × Bool) × List Nat) :=
  copyinstrPagesLoop pagetable max srcva max []

def copyinstr (pagetable srcva max : Nat) : VM (List Byte × Bool) := do
  let (out, _) ← copyinstrPages pagetable srcva max
  pure out

end

end Xv6.Vm.Pagetable
