import Xv6.Param
import Xv6.Lib.Bytes
import Xv6.Lib.Exec

/-! Physical memory, the page allocator of kalloc.c and the page-table entries of riscv.h. -/

namespace Xv6.Vm.Memory
open Lib.Bytes Lib.Exec

/-- Addresses that the linker script fixes; the kernel image leaves at least 4 MiB of memory. -/
class Layout where
  etext : Nat
  kend : Nat
  trampoline : Nat
  text : KERNBASE < etext
  aligned : etext % PGSIZE = 0
  data : etext ≤ kend
  room : kend + 2 ^ 22 ≤ PHYSTOP
  code : KERNBASE ≤ trampoline * PGSIZE ∧ trampoline * PGSIZE < etext

@[reducible] def linked : Layout where
  etext := 0x80008000
  kend := 0x80022000
  trampoline := 0x80007
  text := by decide
  aligned := by decide
  data := by decide
  room := by decide
  code := by decide

/-- A page is named by its physical page number. -/
abbrev Page := Buffer PGSIZE

structure Mem where
  page : Nat → Page
  freelist : List Nat

abbrev VM := EStateM String Mem

def Mem.setPage (s : Mem) (x : Nat) (content : Page) : Mem := { s with page := Function.update s.page x content }

@[simp] theorem page_setPage_same (s : Mem) (x : Nat) (content : Page) : (s.setPage x content).page x = content :=
  Function.update_self _ _ _

theorem page_setPage_other {s : Mem} {x y : Nat} {content : Page} (different : y ≠ x) :
    (s.setPage x content).page y = s.page y :=
  Function.update_of_ne different _ _

section
variable [Layout]

def InRam (x : Nat) : Prop := Layout.kend ≤ x * PGSIZE ∧ x * PGSIZE < PHYSTOP

instance (x : Nat) : Decidable (InRam x) := inferInstanceAs (Decidable (_ ∧ _))

theorem inRam_ne_zero {x : Nat} (ram : InRam x) : x ≠ 0 := by
  rintro rfl
  have first := ram.1
  have text := Layout.text
  have data := Layout.data
  omega

theorem inRam_bound (x : Nat) (ram : InRam x) : x < 2 ^ 20 := by
  obtain ⟨_, top⟩ := ram
  unfold PHYSTOP KERNBASE PGSIZE at top
  omega

def Mem.freed (s : Mem) (x : Nat) : Mem := { s.setPage x (fun _ => 1) with freelist := x :: s.freelist }

def kfree (x : Nat) : VM Unit :=
  if InRam x then modify (·.freed x) else throw "kfree"

def kalloc : VM (Option Nat) := do
  let s ← get
  match s.freelist with
  | [] => pure none
  | x :: rest => do
      set { s.setPage x (fun _ => 5) with freelist := rest }
      pure (some x)

def freerange : Nat → Nat → VM Unit
  | 0, _ => pure ()
  | count + 1, x => do
      kfree x
      freerange count (x + 1)

def kinit : VM Unit :=
  let first := (Layout.kend + PGSIZE - 1) / PGSIZE
  freerange (PHYSTOP / PGSIZE - first) first

end

def PGROUNDUP (sz : Nat) : Nat := (sz + PGSIZE - 1) % 2 ^ 64 / PGSIZE * PGSIZE
def PGROUNDDOWN (a : Nat) : Nat := a / PGSIZE * PGSIZE

instance neZero_entries : NeZero 512 := inferInstance

def PTE_V : Nat := 1
def PTE_R : Nat := 2
def PTE_W : Nat := 4
def PTE_X : Nat := 8
def PTE_U : Nat := 16

def PA2PTE (x : Nat) : Nat := x <<< 10
def PTE2PA (pte : Nat) : Nat := (pte >>> 10) % 2 ^ 52
def PTE_FLAGS (pte : Nat) : Nat := pte &&& 0x3FF

def PX (level va : Nat) : Fin 512 := ⟨va >>> (12 + 9 * level) % 512, Nat.mod_lt _ (by decide)⟩

def Valid (pte : Nat) : Prop := pte &&& PTE_V ≠ 0
/-- The entry allows some access, so it is not a pointer to the next level. -/
def Leaf (pte : Nat) : Prop := pte &&& (PTE_R ||| PTE_W ||| PTE_X) ≠ 0
def User (pte : Nat) : Prop := pte &&& PTE_U ≠ 0

instance (pte : Nat) : Decidable (Valid pte) := inferInstanceAs (Decidable (_ ≠ _))
instance (pte : Nat) : Decidable (Leaf pte) := inferInstanceAs (Decidable (_ ≠ _))
instance (pte : Nat) : Decidable (User pte) := inferInstanceAs (Decidable (_ ≠ _))

def Mem.pte (s : Mem) (table : Nat) (i : Fin 512) : Nat := getLE (s.page table) (8 * i.val) 8

def Mem.setPte (s : Mem) (table : Nat) (i : Fin 512) (pte : Nat) : Mem :=
  s.setPage table (setLE (s.page table) (8 * i.val) 8 pte)

@[simp] theorem freelist_setPte (s : Mem) (table : Nat) (i : Fin 512) (pte : Nat) :
    (s.setPte table i pte).freelist = s.freelist := rfl

def getPte (table : Nat) (i : Fin 512) : VM Nat := do
  let s ← get
  pure (s.pte table i)

def setPte (table : Nat) (i : Fin 512) (pte : Nat) : VM Unit := modify (·.setPte table i pte)

def zeroPage (x : Nat) : VM Unit := modify (·.setPage x (fun _ => 0))

end Xv6.Vm.Memory
