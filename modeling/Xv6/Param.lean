import Mathlib

/-! Constants of param.h, fs.h and memlayout.h that the models share. -/

namespace Xv6

def NPROC : Nat := 64

theorem NPROC_pos : 0 < NPROC := by decide

def NOFILE : Nat := 16
def NFILE : Nat := 100
def NINODE : Nat := 50
def NDEV : Nat := 10
def MAXARG : Nat := 32
def MAXOPBLOCKS : Nat := 10
def LOGSIZE : Nat := MAXOPBLOCKS * 3
def NBUF : Nat := MAXOPBLOCKS * 3
def FSSIZE : Nat := 2000

def PGSIZE : Nat := 4096
def MAXVA : Nat := 2 ^ 38
def KERNBASE : Nat := 0x80000000
def PHYSTOP : Nat := KERNBASE + 128 * 1024 * 1024
def TRAMPOLINE : Nat := MAXVA - PGSIZE
def TRAPFRAME : Nat := TRAMPOLINE - PGSIZE

def BSIZE : Nat := 1024
def DIRSIZ : Nat := 14
def ROOTINO : Nat := 1

end Xv6
