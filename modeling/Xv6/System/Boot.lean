import Xv6.System.Spaces
import Xv6.Vm.Kvm

/-! The boot: main() up to the first process, and the states that the kernel reaches from there. -/

namespace Xv6.System.Boot
open Lib.Ownership Lib.Exec Lib.Budget Lib.Bytes Sched.Table Function List
open Vm Vm.Memory Vm.Pagetable Vm.Entry Vm.Space Vm.Moves Vm.Walk Vm.Alloc Vm.Shape Vm.UserMem Vm.Pages Vm.Cost Vm.Kvm
open Ftable Calls Safe Descriptors Processes Spaces

def UART0 : Nat := 0x10000000
def VIRTIO0 : Nat := 0x10001000
def PLIC : Nat := 0x0c000000
def KSTACK (p : Slot) : Nat := TRAMPOLINE - (p.val + 1) * 2 * PGSIZE

def initcode : List Byte :=
  [0x17, 0x05, 0x00, 0x00, 0x13, 0x05, 0x45, 0x02,
   0x97, 0x05, 0x00, 0x00, 0x93, 0x85, 0x35, 0x02,
   0x93, 0x08, 0x70, 0x00, 0x73, 0x00, 0x00, 0x00,
   0x93, 0x08, 0x20, 0x00, 0x73, 0x00, 0x00, 0x00,
   0xef, 0xf0, 0x9f, 0xff, 0x2f, 0x69, 0x6e, 0x69,
   0x74, 0x00, 0x00, 0x24, 0x00, 0x00, 0x00, 0x00,
   0x00, 0x00, 0x00, 0x00]

/-- The string "initcode" with its NUL, as safestrcpy reads it. -/
def initname : Buffer 9 := fun i => [0x69, 0x6e, 0x69, 0x74, 0x63, 0x6f, 0x64, 0x65, 0x00].getD i.val 0

section
variable [Layout]

def mapStack (kpgtbl : Nat) (p : Slot) : Sys Unit := do
  match ← onMem kalloc with
  | none => throw "kalloc"
  | some pa => do
      onMem (kvmmap kpgtbl (KSTACK p) pa PGSIZE (PTE_R ||| PTE_W))
      modify fun w => { w with kstack := update w.kstack p (some pa) }

/-- kvmmake; memset of a null page table would fault. -/
def kvmmake : Sys Nat := do
  match ← onMem kalloc with
  | none => throw "kerneltrap"
  | some kpgtbl => do
      onMem (zeroPage kpgtbl)
      onMem (kvmmap kpgtbl UART0 (UART0 / PGSIZE) PGSIZE (PTE_R ||| PTE_W))
      onMem (kvmmap kpgtbl VIRTIO0 (VIRTIO0 / PGSIZE) PGSIZE (PTE_R ||| PTE_W))
      onMem (kvmmap kpgtbl PLIC (PLIC / PGSIZE) 0x400000 (PTE_R ||| PTE_W))
      onMem (kvmmap kpgtbl KERNBASE (KERNBASE / PGSIZE) (Layout.etext - KERNBASE) (PTE_R ||| PTE_X))
      onMem (kvmmap kpgtbl Layout.etext (Layout.etext / PGSIZE) (PHYSTOP - Layout.etext) (PTE_R ||| PTE_W))
      onMem (kvmmap kpgtbl TRAMPOLINE Layout.trampoline PGSIZE (PTE_R ||| PTE_X))
      forM slots (mapStack kpgtbl)
      pure kpgtbl

def kvminit : Sys Unit := do
  let kpgtbl ← kvmmake
  modify fun w => { w with kernelPagetable := some kpgtbl }

/-- The memory of virtio_disk_init: the pages of desc, avail and used. -/
def virtioDiskInit : Sys Unit := do
  let desc ← onMem kalloc
  let avail ← onMem kalloc
  let used ← onMem kalloc
  match desc, avail, used with
  | some desc, some avail, some used => do
      onMem (zeroPage desc)
      onMem (zeroPage avail)
      onMem (zeroPage used)
      modify fun w => { w with queue := ![some desc, some avail, some used] }
  | _, _, _ => throw "virtio disk kalloc"

def userinit : Sys Unit := do
  match ← allocproc with
  | none => throw "kerneltrap"
  | some p => do
      setTable fun k => { k with initproc := p }
      let w ← get
      let pagetable ← follow (w.task p).pagetable
      onMem (uvmfirst pagetable initcode)
      setTask p fun t => { t with sz := PGSIZE }
      let trapframe ← follow (w.task p).trapframe
      onMem (modify fun s => s.setPage trapframe (setLE (setLE (s.page trapframe) 24 8 0) 48 8 PGSIZE))
      setTask p fun t => { t with name := Str.safestrcpy t.name initname }
      setTable (·.modify p (·.setState .runnable))

/-- main() as far as memory, the process table and files are concerned. -/
def main : Sys Unit := do
  onMem kinit
  kvminit
  virtioDiskInit
  userinit

end

/-- The machine before main(), its memory holding anything; procinit has set up the process table. -/
def reset (page : Nat → Page) : World where
  table := { proc := fun _ => procinit, nextpid := 1, schedPolicy := 0, minAccumulator := INT_MAX, initproc := 0 }
  task _ := ⟨none, 0, none, fun _ => 0⟩
  files := Files.empty
  mem := ⟨page, []⟩
  kernelPagetable := none
  kstack _ := none
  queue _ := none

/-- The page of a kernel stack; the page above it and below it is a guard page. -/
def stackPage (p : Slot) : Nat := 2 ^ 26 - 1 - 2 * (p.val + 1)

theorem kstack_page (p : Slot) : KSTACK p = stackPage p * PGSIZE := by
  have small := p.isLt
  unfold NPROC at small
  unfold KSTACK stackPage TRAMPOLINE MAXVA PGSIZE
  omega

theorem boot_table (page : Nat → Page) :
    { claim (reset page).table 0 with initproc := 0 }.modify 0 (·.setState .runnable) = Sched.Lifecycle.boot := rfl

theorem boot_proc (i : Slot) :
    Sched.Lifecycle.boot.proc i = if i = 0 then { procinit with pid := 1, state := .runnable } else procinit := by
  rw [← boot_table fun _ _ => 0]
  by_cases first : i = 0
  · subst first
    rfl
  · rw [if_neg first, Kernel.proc_modify_other first]
    exact @Kernel.proc_modify_other _ 0 i (fun q => { q with pid := 1, state := .used }) first

theorem userByte_first (s : Mem) (r pte x : Nat) (src : List Byte) (leaf : leafAt s r (vpn (0 * PGSIZE)) = some pte)
    (reads : Reads pte x (PTE_W ||| PTE_R ||| PTE_X ||| PTE_U)) (some : x ≠ 0)
    (content : s.page x = fun i => src.getD i.val 0) (va : Nat) (low : va < PGSIZE) :
    userByte s r va = .some (src.getD va 0) := by
  have here : UserMem.translate s r 0 = .some x := by
    unfold UserMem.translate
    rw [if_neg (by decide), show vpn 0 = vpn (0 * PGSIZE) by rw [Nat.zero_mul], leaf]
    have user : User pte := reads.user.mpr (by decide)
    simp [reads.page, some, user]
  have byte := userByte_of_translate s r 0 x va here (by simpa using low)
  rw [Nat.zero_add] at byte
  rw [byte, content]
  simp [byteAt, low]

section
variable [Layout]

inductive Reachable : World → Prop where
  | boot (page : Nat → Page) (w : World) (booted : main (reset page) = .ok () w) : Reachable w
  | step (w w' : World) (op : Op) (before : Reachable w) (steps : Steps w op w') : Reachable w'

theorem freerange_ends (count x : Nat) (s : Mem) (ram : ∀ y, x ≤ y → y < x + count → InRam y) :
    Ends (freerange count x) s (fun _ s' => s'.freelist = (List.range' x count).reverse ++ s.freelist) := by
  induction count generalizing x s with
  | zero => exact Ends.pure rfl
  | succ count ih =>
    have freed : kfree x s = .ok () (s.freed x) := by
      unfold kfree
      rw [if_pos (ram x le_rfl (by omega))]
      rfl
    apply Ends.after freed
    apply Ends.weaken (ih (x + 1) (s.freed x) (fun y low high => ram y (by omega) (by omega)))
    intro _ s' list
    rw [list, range'_succ, reverse_cons, append_assoc]
    rfl

theorem inRam_iff (x : Nat) : InRam x ↔ (Layout.kend + PGSIZE - 1) / PGSIZE ≤ x ∧ x < PHYSTOP / PGSIZE := by
  unfold InRam PHYSTOP KERNBASE PGSIZE
  omega

theorem kinit_ends (page : Nat → Page) :
    Ends kinit ⟨page, []⟩ (fun _ s => s.freelist.Nodup ∧ (∀ x, x ∈ s.freelist ↔ InRam x) ∧ 1024 ≤ free s) := by
  have room := Layout.room
  have order : (Layout.kend + PGSIZE - 1) / PGSIZE ≤ PHYSTOP / PGSIZE := by
    unfold PHYSTOP KERNBASE PGSIZE at *
    omega
  unfold kinit
  apply Ends.weaken (freerange_ends _ _ _ fun y low high => (inRam_iff y).mpr (by omega))
  intro _ s list
  rw [append_nil] at list
  refine ⟨?_, fun x => ?_, ?_⟩
  · rw [list, nodup_reverse]
    exact nodup_range'
  · rw [list, mem_reverse, mem_range'_1, inRam_iff]
    omega
  · rw [free, list, length_reverse, length_range']
    unfold PHYSTOP KERNBASE PGSIZE
    unfold PHYSTOP KERNBASE at room
    omega

def nobody (hand : List Nat) : Holders := ⟨fun _ => none, hand, fun _ => none, fun _ => none, fun _ => none, fun _ => False⟩

theorem nobody_sound (sz : Slot → Nat) (s : Mem) (nodup : s.freelist.Nodup) (all : ∀ x, x ∈ s.freelist ↔ InRam x) :
    Sound (nobody []) sz s := by
  have only : ∀ use x, Uses (nobody []) s use x ↔ use = .free ∧ x ∈ s.freelist := by
    intro use x
    cases use <;> simp [Uses, nobody]
  refine ⟨⟨by rintro _ _ ⟨⟩, fun first second x usesFirst usesSecond => ?_, ⟨nodup, nodup_nil⟩,
    fun x => ?_⟩, by rintro _ _ ⟨⟩⟩
  · rw [((only first x).mp usesFirst).1, ((only second x).mp usesSecond).1]
  · rw [← all x]
    constructor
    · rintro ⟨use, uses⟩
      exact ((only use x).mp uses).2
    · intro member
      exact ⟨.free, member⟩

/-- The mapped pages of the kernel page table are among those given. -/
def Within (among : Nat → Prop) (s : Mem) (r : Nat) : Prop := ∀ v : Vpn, leafAt s r v ≠ none → among v.page

variable {g : Holders} {sz : Slot → Nat} {s : Mem} {r : Nat} {among : Nat → Prop}

theorem kvmmap_ends (sound : Sound g sz s) (root : g.root .kernel = some r) (within : Within among s r) (spent : Nat)
    (rich : 1024 ≤ free s + spent) (perm : Nat) (small : perm < 2 ^ 10) (leaf : Leaf perm) (lo more x : Nat)
    (bound : lo + more < 2 ^ 26) (page : x + more < 2 ^ 52) (fresh : ∀ n, among n → ¬(lo ≤ n ∧ n ≤ lo + more))
    (room : spent + tables lo more ≤ 1024) :
    Ends (kvmmap r (lo * PGSIZE) x ((more + 1) * PGSIZE) perm) s (fun _ s' => Sound g sz s' ∧
      Within (fun n => among n ∨ (lo ≤ n ∧ n ≤ lo + more)) s' r ∧ 1024 ≤ free s' + (spent + tables lo more)) := by
  have absent : ∀ v : Vpn, lo ≤ v.page → v.page ≤ lo + more → leafAt s r v = none := by
    intro v low high
    by_contra mapped
    exact fresh _ (within v mapped) ⟨low, high⟩
  have runs := kvmmap_sound sound root perm small leaf lo more x bound page absent
  apply Ends.weaken (Runs.ends runs fun _ poor => by omega)
  rintro _ s' ⟨sound', leaves, left⟩
  refine ⟨sound', fun v mapped => ?_, by omega⟩
  by_cases inside : lo ≤ v.page ∧ v.page ≤ lo + more
  · exact Or.inr inside
  · rw [leaves v inside] at mapped
    exact Or.inl (within v mapped)

def kernelOnly (r : Nat) (kstack : Slot → Option Nat) (hand : List Nat) : Holders where
  root
    | .kernel => some r
    | _ => none
  hand := hand
  trapframe _ := none
  kstack := kstack
  queue _ := none
  pipe _ := False

theorem kernelRoot_ends (nodup : s.freelist.Nodup) (all : ∀ x, x ∈ s.freelist ↔ InRam x) (rich : 1024 ≤ free s) :
    ∃ r s₁, kalloc s = .ok (some r) s₁ ∧ Sound (kernelOnly r (fun _ => none) []) sz (s₁.setPage r (fun _ => 0)) ∧
      Within (fun n => n < 0) (s₁.setPage r (fun _ => 0)) r ∧ 1024 ≤ free (s₁.setPage r (fun _ => 0)) + 1 := by
  have sound := nobody_sound sz s nodup all
  obtain ⟨result, s₁, ran, outcome, got, spent⟩ :=
    kalloc_costs.ends s (by omega) _ (kalloc_ends (sound.good.bare .kernel rfl))
  rcases outcome with ⟨rfl, _, _⟩ | ⟨r, rfl, alloc⟩
  · exact absurd rfl got
  · have zeroed := alloc.fill (fun _ => 0)
    have empty : ∀ k, ¬Valid ((s₁.setPage r (fun _ => 0)).pte r k) := by
      intro k
      rw [pte_zeroPage]
      exact not_valid_zero
    obtain ⟨safe, step⟩ := root_of_hand zeroed.safe empty
    have replaced : Sound ((nobody []).replace .kernel (some r) []) sz (s₁.setPage r (fun _ => 0)) :=
      sound.replace .kernel safe (zeroed.step.trans step) (fun _ _ => rfl) nofun
    refine ⟨r, s₁, ran, ?_, fun v mapped => absurd (leafAt_empty _ r empty v) mapped, ?_⟩
    · have same : (nobody []).replace .kernel (some r) [] = kernelOnly r (fun _ => none) [] := by
        unfold Holders.replace nobody kernelOnly
        simp only [Holders.mk.injEq, and_true]
        funext o
        cases o <;> rfl
      rw [← same]
      exact replaced
    · change 1024 ≤ free s₁ + 1
      omega

variable {w : World}

theorem onMem_kvmmap_ends (sound : Sound g sz w.mem) (root : g.root .kernel = some r) (within : Within among w.mem r)
    (spent : Nat) (rich : 1024 ≤ free w.mem + spent) (va size perm : Nat) (small : perm < 2 ^ 10) (leaf : Leaf perm)
    (lo more x : Nat) (start : va = lo * PGSIZE) (length : size = (more + 1) * PGSIZE) (bound : lo + more < 2 ^ 26)
    (page : x + more < 2 ^ 52) (fresh : ∀ n, among n → ¬(lo ≤ n ∧ n ≤ lo + more)) (room : spent + tables lo more ≤ 1024) :
    Ends (onMem (kvmmap r va x size perm)) w (fun _ w' => ∃ s', w' = { w with mem := s' } ∧ Sound g sz s' ∧
      Within (fun n => among n ∨ (lo ≤ n ∧ n ≤ lo + more)) s' r ∧ 1024 ≤ free s' + (spent + tables lo more)) := by
  rw [start, length]
  exact onMem_ends (kvmmap_ends sound root within spent rich perm small leaf lo more x bound page fresh room)

theorem directMaps_ends (sound : Sound g sz w.mem) (root : g.root .kernel = some r)
    (within : Within (fun n => n < 0) w.mem r) (rich : 1024 ≤ free w.mem + 1) {A : Type} (next : Sys A)
    (post : A → World → Prop)
    (rest : ∀ s, Sound g sz s → Within (fun n => n < 557056 ∨ n = 2 ^ 26 - 1) s r → 1024 ≤ free s + 300 →
      Ends next { w with mem := s } post) :
    Ends (do
      onMem (kvmmap r UART0 (UART0 / PGSIZE) PGSIZE (PTE_R ||| PTE_W))
      onMem (kvmmap r VIRTIO0 (VIRTIO0 / PGSIZE) PGSIZE (PTE_R ||| PTE_W))
      onMem (kvmmap r PLIC (PLIC / PGSIZE) 0x400000 (PTE_R ||| PTE_W))
      onMem (kvmmap r KERNBASE (KERNBASE / PGSIZE) (Layout.etext - KERNBASE) (PTE_R ||| PTE_X))
      onMem (kvmmap r Layout.etext (Layout.etext / PGSIZE) (PHYSTOP - Layout.etext) (PTE_R ||| PTE_W))
      onMem (kvmmap r TRAMPOLINE Layout.trampoline PGSIZE (PTE_R ||| PTE_X))
      next) w post := by
  have text := Layout.text
  have data := Layout.data
  have room := Layout.room
  have code := Layout.code
  obtain ⟨e, etext⟩ := Nat.dvd_of_mod_eq_zero Layout.aligned
  rw [Nat.mul_comm] at etext
  rw [etext] at text data code ⊢
  have low : 524288 < e := by
    unfold KERNBASE PGSIZE at text
    omega
  have high : e + 1024 ≤ 557056 := by
    unfold PHYSTOP KERNBASE at room
    unfold PGSIZE at data
    omega
  have page : PGSIZE = (0 + 1) * PGSIZE := by decide
  refine Ends.bind (onMem_kvmmap_ends sound root within 1 rich UART0 PGSIZE (PTE_R ||| PTE_W) (by decide)
    (by decide) 65536 0 (UART0 / PGSIZE) (by decide) page (by decide) (by decide) (fun n inside => by omega) (by decide)) ?_
  rintro _ _ ⟨s₁, rfl, sound₁, within₁, rich₁⟩
  refine Ends.bind (onMem_kvmmap_ends (w := { w with mem := s₁ }) sound₁ root within₁ (1 + tables 65536 0) rich₁
    VIRTIO0 PGSIZE (PTE_R ||| PTE_W) (by decide) (by decide) 65537 0 (VIRTIO0 / PGSIZE) (by decide) page (by decide)
    (by decide) (fun n inside => by omega) (by decide)) ?_
  rintro _ _ ⟨s₂, rfl, sound₂, within₂, rich₂⟩
  refine Ends.bind (onMem_kvmmap_ends (w := { w with mem := s₂ }) sound₂ root within₂
    (1 + tables 65536 0 + tables 65537 0) rich₂ PLIC 0x400000 (PTE_R ||| PTE_W) (by decide) (by decide) 49152 1023
    (PLIC / PGSIZE) (by decide) (by decide) (by decide) (by decide) (fun n inside => by omega) (by decide)) ?_
  rintro _ _ ⟨s₃, rfl, sound₃, within₃, rich₃⟩
  have spent₃ : 1 + tables 65536 0 + tables 65537 0 + tables 49152 1023 = 9 := by decide
  rw [spent₃] at rich₃
  have cost₄ : tables 524288 (e - 524289) = 2 + 2 * ((e - 1) / 512 - 1024) := by
    unfold tables
    omega
  have cost₅ : tables e (557055 - e) = 2 + 2 * (1087 - e / 512) := by
    unfold tables
    omega
  refine Ends.bind (onMem_kvmmap_ends (w := { w with mem := s₃ }) sound₃ root within₃ 9 rich₃ KERNBASE
    (e * PGSIZE - KERNBASE) (PTE_R ||| PTE_X) (by decide) (by decide) 524288 (e - 524289) (KERNBASE / PGSIZE) (by decide)
    (by unfold KERNBASE PGSIZE; omega) (by omega) (by unfold KERNBASE PGSIZE; omega) (fun n inside => by omega)
    (by omega)) ?_
  rintro _ _ ⟨s₄, rfl, sound₄, within₄, rich₄⟩
  refine Ends.bind (onMem_kvmmap_ends (w := { w with mem := s₄ }) sound₄ root within₄
    (9 + tables 524288 (e - 524289)) rich₄ (e * PGSIZE) (PHYSTOP - e * PGSIZE) (PTE_R ||| PTE_W) (by decide) (by decide)
    e (557055 - e) (e * PGSIZE / PGSIZE) rfl (by unfold PHYSTOP KERNBASE PGSIZE; omega) (by omega)
    (by unfold PGSIZE; omega) (fun n inside => by omega) (by omega)) ?_
  rintro _ _ ⟨s₅, rfl, sound₅, within₅, rich₅⟩
  have top : Layout.trampoline + 0 < 2 ^ 52 := trampoline_bound
  have cost₆ : tables (2 ^ 26 - 1) 0 = 2 := by decide
  refine Ends.bind (onMem_kvmmap_ends (w := { w with mem := s₅ }) sound₅ root within₅ (9 + tables 524288 (e - 524289) +
    tables e (557055 - e)) rich₅ TRAMPOLINE PGSIZE (PTE_R ||| PTE_X) (by decide) (by decide) (2 ^ 26 - 1) 0
    Layout.trampoline (by decide) page (by decide) top (fun n inside => by omega) (by omega)) ?_
  rintro _ _ ⟨s₆, rfl, sound₆, within₆, rich₆⟩
  refine rest s₆ sound₆ (fun v mapped => ?_) (by omega)
  have inside := within₆ v mapped
  omega

/-- The kernel page table while the stacks are being mapped, those of rest still to come. -/
structure Stacks (w : World) (r : Nat) (rest : List Slot) (w' : World) : Prop where
  world : ∃ s ks, w' = { w with mem := s, kstack := ks }
  sound : Sound (kernelOnly r w'.kstack []) (sizes w) w'.mem
  within : Within (fun n => n < 557056 ∨ n = 2 ^ 26 - 1 ∨ ∃ q : Slot, q ∉ rest ∧ n = stackPage q) w'.mem r
  coming : ∀ q ∈ rest, w'.kstack q = none
  nodup : rest.Nodup
  length : rest.length ≤ 64
  rich : 1024 ≤ free w'.mem + (300 + 3 * (64 - rest.length))

theorem mapStack_ends (p : Slot) (rest : List Slot) (w' : World) (before : Stacks w r (p :: rest) w') :
    Ends (mapStack r p) w' (fun _ w'' => Stacks w r rest w'') := by
  obtain ⟨⟨s₀, ks, rfl⟩, sound, within, coming, nodup, length, rich⟩ := before
  obtain ⟨absent, nodup'⟩ := nodup_cons.mp nodup
  simp only [length_cons] at length rich
  have low := p.isLt
  unfold NPROC at low
  unfold mapStack
  refine Ends.bind (onMem_ends (kalloc_costs.ends s₀ (by omega) _ (kalloc_sound sound))) ?_
  rintro _ _ ⟨s₁, rfl, ⟨rfl, _⟩ | ⟨x, rfl, sound₁, untouched, _⟩, got, spent⟩
  · exact absurd rfl got
  · have ram := (sound₁.good.covers x).mp ⟨Use.hand, by simp [Uses]⟩
    have within₁ : Within (fun n => n < 557056 ∨ n = 2 ^ 26 - 1 ∨ ∃ q : Slot, q ∉ p :: rest ∧ n = stackPage q) s₁ r := by
      intro v mapped
      rw [leafAt_congr (untouched .kernel r rfl).tables] at mapped
      exact within v mapped
    have rich₁ : 1024 ≤ free s₁ + (301 + 3 * (64 - (rest.length + 1))) := by omega
    have cost : tables (stackPage p) 0 = 2 := by simp [tables]
    have step := onMem_kvmmap_ends (w := { w with mem := s₁, kstack := ks }) sound₁ rfl within₁ _ rich₁ (KSTACK p) PGSIZE
      (PTE_R ||| PTE_W) (by decide) (by decide) (stackPage p) 0 x (kstack_page p) (by decide)
      (by unfold stackPage; omega) (lt_trans (inRam_bound x ram) (by decide)) ?_ (by omega)
    · refine Ends.bind step ?_
      rintro _ _ ⟨s₂, rfl, sound₂, within₂, rich₂⟩
      refine ⟨(), { w with mem := s₂, kstack := update ks p (some x) }, rfl, ⟨s₂, _, rfl⟩, ?_, fun v mapped => ?_,
        fun q member => ?_, nodup', by omega, by simp only; omega⟩
      · exact sound₂.giveKstack p rfl (coming p mem_cons_self)
      · rcases within₂ v mapped with (small | top | ⟨q, outside, here⟩) | here
        · exact Or.inl small
        · exact Or.inr (Or.inl top)
        · exact Or.inr (Or.inr ⟨q, fun member => outside (mem_cons_of_mem p member), here⟩)
        · exact Or.inr (Or.inr ⟨p, absent, by omega⟩)
      · have other : q ≠ p := by
          rintro rfl
          exact absent member
        exact (update_of_ne other _ _).trans (coming q (mem_cons_of_mem p member))
    · rintro n (small | top | ⟨q, outside, here⟩) inside
      · unfold stackPage at inside
        omega
      · unfold stackPage at inside
        omega
      · refine outside (mem_cons.mpr (Or.inl (Fin.ext ?_)))
        have small := q.isLt
        unfold NPROC at small
        unfold stackPage at inside here
        omega

theorem kvminit_ends (nodup : w.mem.freelist.Nodup) (all : ∀ x, x ∈ w.mem.freelist ↔ InRam x) (rich : 1024 ≤ free w.mem)
    (bare : w.kstack = fun _ => none) :
    Ends kvminit w (fun _ w' => ∃ s ks r, w' = { w with mem := s, kstack := ks, kernelPagetable := some r } ∧
      Sound (kernelOnly r ks []) (sizes w) s ∧ 1024 ≤ free s + 492) := by
  obtain ⟨r, s₁, ran, sound, within, left⟩ := kernelRoot_ends nodup all rich
  have made : Ends kvmmake w (fun r w' => Stacks w r [] w') := by
    unfold kvmmake
    apply Ends.after (onMem_run ran)
    apply Ends.after (@onMem_run _ (zeroPage r) { w with mem := s₁ } () (s₁.setPage r fun _ => 0) rfl)
    refine directMaps_ends (w := { w with mem := s₁.setPage r fun _ => 0 }) sound rfl within left _ _ fun s sound' within' left' => ?_
    refine Ends.bind (Ends.forM _ slots (Stacks w r) _ ?_ fun p rest w' before => mapStack_ends p rest w' before) ?_
    · have length : slots.length = 64 := length_finRange
      refine ⟨⟨s, w.kstack, rfl⟩, ?_, fun v mapped => ?_, fun q _ => congrFun bare q, nodup_finRange _, by omega, ?_⟩
      · rw [bare]
        exact sound'
      · rcases within' v mapped with small | top
        · exact Or.inl small
        · exact Or.inr (Or.inl top)
      · rw [length]
        exact left'
    · intro _ w' done
      exact Ends.pure done
  unfold kvminit
  refine Ends.bind made ?_
  rintro r _ ⟨⟨s, ks, rfl⟩, sound, _, _, _, _, left⟩
  exact ⟨(), _, rfl, s, ks, r, rfl, sound, left⟩

theorem queuePage_ends (sound : Sound g sz w.mem) (rich : 1 ≤ free w.mem) :
    Ends (onMem kalloc) w (fun result w' => ∃ x s, result = some x ∧ w' = { w with mem := s } ∧
      Sound { g with hand := x :: g.hand } sz s ∧ free w.mem ≤ free s + 1) := by
  apply Ends.weaken (onMem_ends (kalloc_costs.ends _ rich _ (kalloc_sound sound)))
  rintro _ _ ⟨s, rfl, ⟨rfl, _⟩ | ⟨x, rfl, sound', _⟩, got, spent⟩
  · exact absurd rfl got
  · exact ⟨x, s, rfl, rfl, sound', spent⟩

theorem virtioDiskInit_ends (sound : Sound g sz w.mem) (empty : g.hand = []) (bare : g.queue = fun _ => none)
    (rich : 3 ≤ free w.mem) :
    Ends virtioDiskInit w (fun _ w' => ∃ s queue, w' = { w with mem := s, queue := queue } ∧
      Sound { g with queue := queue } sz s ∧ free w.mem ≤ free s + 3) := by
  unfold virtioDiskInit
  refine Ends.bind (queuePage_ends sound (by omega)) ?_
  rintro _ _ ⟨desc, s₁, rfl, rfl, sound₁, spent₁⟩
  refine Ends.bind (queuePage_ends (w := { w with mem := s₁ }) sound₁ (by simp only; omega)) ?_
  rintro _ _ ⟨avail, s₂, rfl, rfl, sound₂, spent₂⟩
  refine Ends.bind (queuePage_ends (w := { w with mem := s₂ }) sound₂ (by simp only at spent₂ ⊢; omega)) ?_
  rintro _ _ ⟨used, s₃, rfl, rfl, sound₃, spent₃⟩
  simp only at spent₂ spent₃
  have zeroed := ((sound₃.setPage .hand desc (fun _ => 0) (by simp [Uses]) nofun).setPage .hand avail
    (fun _ => 0) (by simp [Uses]) nofun).setPage .hand used (fun _ => 0) (by simp [Uses])
    nofun
  have given := ((zeroed.giveQueue 2 rfl (congrFun bare 2)).giveQueue 1 rfl ?_).giveQueue 0 rfl ?_
  · refine ⟨(), _, rfl, _, ![some desc, some avail, some used], rfl, ?_, ?_⟩
    · have same : update (update (update g.queue 2 (some used)) 1 (some avail)) 0 (some desc) =
          ![some desc, some avail, some used] := by
        rw [bare]
        funext k
        fin_cases k <;> rfl
      rw [← same]
      simpa only [empty] using given
    · change free w.mem ≤ free s₃ + 3
      omega
  · simp [bare]
  · simp [bare]

structure Booted (w : World) : Prop where
  inv : Safe.Inv w
  table : w.table = Sched.Lifecycle.boot
  files : w.files = Files.empty
  rich : 512 ≤ free w.mem
  size : (w.task 0).sz = PGSIZE
  program : ∃ r, (w.task 0).pagetable = some r ∧ ∀ va < PGSIZE, userByte w.mem r va = some (initcode.getD va 0)

structure Blank (w : World) : Prop where
  table : w.table = (reset w.mem.page).table
  task : ∀ i, w.task i = ⟨none, 0, none, fun _ => 0⟩
  files : w.files = Files.empty

theorem firstProcess_ends (blank : Blank w) (r target : Nat) (w₁ : World) (kept : Kept w₁ [] none)
    (task : w₁.task = update w.task 0 ⟨some r, 0, some target, fun _ => 0⟩)
    (table : w₁.table = claim w.table 0) (files : w₁.files = w.files) (rich : 520 ≤ free w₁.mem) :
    Ends (do
      setTable fun k => { k with initproc := 0 }
      let w ← get
      let pagetable ← follow (w.task 0).pagetable
      onMem (uvmfirst pagetable initcode)
      setTask 0 fun t => { t with sz := PGSIZE }
      let trapframe ← follow (w.task 0).trapframe
      onMem (modify fun s => s.setPage trapframe (setLE (setLE (s.page trapframe) 24 8 0) 48 8 PGSIZE))
      setTask 0 fun t => { t with name := Str.safestrcpy t.name initname }
      setTable (·.modify 0 (·.setState .runnable))) w₁ (fun _ w' => Booted w') := by
  have own : w₁.task 0 = ⟨some r, 0, some target, fun _ => 0⟩ := by rw [task, update_self]
  have space : (w₁.task 0).pagetable = some r := by rw [own]
  have frame : (w₁.task 0).trapframe = some target := by rw [own]
  have others : ∀ i, i ≠ 0 → w₁.task i = ⟨none, 0, none, fun _ => 0⟩ := by
    intro i other
    rw [task, update_of_ne other, blank.task]
  obtain ⟨target', frame', shaped⟩ := kept.spaces 0 r space
  obtain rfl : target = target' := Option.some.inj (frame.symm.trans frame')
  have nothing : sizes w₁ 0 = 0 := by rw [sizes, own]
  rw [nothing] at shaped
  have root : (holders w₁ [] none).root (.proc 0) = some r := space
  have part := kept.good.part (.proc 0)
  rw [root] at part
  apply Ends.after (modify_ok _ _)
  apply Ends.after (get_ok _)
  apply Ends.after (follow_run space)
  refine Ends.bind (onMem_ends (uvmfirst_ends part shaped.filled initcode (by decide) (by omega))) ?_
  rintro _ _ ⟨s₁, rfl, extended, spent⟩
  have filled := kept_space 0 r PGSIZE target s₁ space frame kept extended.safe extended.step
    (shaped.extended extended (Nat.zero_le _))
  have frame₁ : Uses (holders ({ w₁ with mem := s₁ }.setTask 0 fun t => { t with sz := PGSIZE }) [] none) s₁ (.trapframe 0)
      target := by
    simp [Uses, holders, frame, World.setTask]
  have written := filled.setPage (.trapframe 0) target (setLE (setLE (s₁.page target) 24 8 0) 48 8 PGSIZE) frame₁
    (by rintro _ _ ⟨⟩)
  have untouched := filled.good.untouched_page (.trapframe 0) target frame₁ (by rintro _ _ ⟨⟩)
    (by rintro _ _ ⟨⟩)
    (fun y apart => @page_setPage_other s₁ _ _ (setLE (setLE (s₁.page target) 24 8 0) 48 8 PGSIZE) apart) (.proc 0) r
    (by simp [holders, space, World.setTask])
  apply Ends.after (modify_ok _ _)
  apply Ends.after (follow_run frame)
  apply Ends.after (onMem_run (modify_ok _ _))
  have booted : { w₁.table with initproc := 0 }.modify 0 (·.setState .runnable) = Sched.Lifecycle.boot := by
    rw [table, blank.table, boot_table]
  refine ⟨(), _, rfl, ⟨?_, ?_, fun i => ?_, fun i gone => ?_, fun i _ fd => ?_⟩, booted, files.trans blank.files, ?_, ?_, r, ?_, fun va low => ?_⟩
  · refine kept_of_sound written ⟨rfl, rfl⟩ rfl (fun i => ?_) ⟨rfl, rfl⟩ (fun _ => Iff.rfl)
    by_cases first : i = 0
    · subst first
      simp [World.setTask, holders, sizes]
    · simp [World.setTask, holders, sizes, first]
  · change w₁.files.Ok 0
    rw [files, blank.files]
    exact Files.ok_empty
  · change (({ w₁.table with initproc := 0 }.modify 0 (·.setState .runnable)).proc i).state = .unused ↔ _
    rw [booted, boot_proc]
    by_cases first : i = 0
    · subst first
      simp [World.setTask, space]
    · simp [World.setTask, first, others i first, procinit]
  · have other : i ≠ 0 := by
      rintro rfl
      simp [World.setTask, space] at gone
    simp [World.setTask, other, others i other]
  · change w₁.files.ofile (i, fd) = none
    rw [files, blank.files]
    rfl
  · change 512 ≤ free s₁
    omega
  · simp [World.setTask]
  · simp [World.setTask, space]
  · obtain ⟨pte, x, perm, leaf, reads, rfl, content⟩ := extended.fresh (vpn (0 * PGSIZE)) (Nat.zero_le _) (by decide)
    have inside : userVpn (vpn (0 * PGSIZE)) := by
      rw [userVpn_iff, Unmap.page_of_vpn 0 (by decide)]
      decide
    have ram := inRam_mem x (extended.safe.ram x ⟨_, by rw [← reads.page]; exact Owns.leaf r pte _ rfl inside leaf⟩)
    have some : x ≠ 0 := by
      rw [Finset.mem_Ico] at ram
      omega
    refine userByte_first _ r pte x initcode ?_ reads some ?_ va low
    · exact (leafAt_congr untouched.tables _).trans leaf
    · have same := untouched.data _ pte inside leaf
      rw [reads.page] at same
      exact same.trans content

theorem userinit_ends (kept : Kept w [] none) (blank : Blank w) (rich : 1024 ≤ free w.mem + 495) :
    Ends userinit w (fun _ w' => Booted w') := by
  have unused : w.table.findUnused = some 0 := by
    rw [blank.table]
    rfl
  unfold userinit
  refine Ends.bind (allocproc_ends kept fun i _ => by simp [blank.task]) ?_
  rintro _ _ (⟨_, full, _⟩ | ⟨p, s, found, kept', _, ⟨_, _, little⟩ | ⟨target, r, rfl, rfl, spent⟩⟩)
  · rw [unused] at full
    cases full
  · omega
  · obtain rfl : 0 = p := Option.some.inj (unused.symm.trans found)
    refine firstProcess_ends blank r target _ kept' ?_ rfl rfl (by simp only; omega)
    simp [occupy, World.setTask, blank.task]

theorem main_ends (page : Nat → Page) : Ends main (reset page) (fun _ w => Booted w) := by
  unfold main
  refine Ends.bind (onMem_ends (kinit_ends page)) ?_
  rintro _ _ ⟨s, rfl, nodup, all, rich⟩
  refine Ends.bind (kvminit_ends (w := { reset page with mem := s }) nodup all rich rfl) ?_
  rintro _ _ ⟨s₁, ks, r, rfl, sound₁, rich₁⟩
  refine Ends.bind (virtioDiskInit_ends (w := { reset page with mem := s₁, kstack := ks, kernelPagetable := some r })
    sound₁ rfl rfl (by simp only; omega)) ?_
  rintro _ _ ⟨s₂, queue, rfl, sound₂, spent₂⟩
  refine userinit_ends ?_ ⟨rfl, fun _ => rfl, rfl⟩ (by simp only at spent₂ ⊢; omega)
  refine kept_of_sound sound₂ ⟨rfl, rfl⟩ rfl (fun i => ⟨rfl, rfl, fun impossible => absurd rfl impossible⟩) ⟨rfl, rfl⟩
    (fun x => ?_)
  simp [reset, Files.empty, Files.Piped, kernelOnly]

/-- Whatever processes do, what holds after the boot holds between operations. -/
theorem reachable_inv (w : World) (reachable : Reachable w) : Safe.Inv w ∧ Sched.Lifecycle.Reachable w.table := by
  induction reachable with
  | boot page w booted =>
    obtain ⟨_, w', ran, holds⟩ := main_ends page
    obtain ⟨_, rfl⟩ := EStateM.Result.ok.inj (ran.symm.trans booted)
    refine ⟨holds.inv, ?_⟩
    rw [holds.table]
    exact .boot
  | step w w' op _ steps ih =>
    rcases perform_runs ih.1 op steps.running with ⟨_, _, failed, _⟩ | ⟨_, w'', ran, next⟩
    · cases failed.symm.trans steps.performed
    · obtain ⟨_, rfl⟩ := EStateM.Result.ok.inj (ran.symm.trans steps.performed)
      exact ⟨next.inv, next.table ih.2⟩

theorem booted_reachable (page : Nat → Page) : ∃ w, Reachable w ∧ Booted w := by
  obtain ⟨_, w, ran, booted⟩ := main_ends page
  exact ⟨w, .boot page w ran, booted⟩

theorem schedule_run (w : World) (i : Slot) (runnable : (w.table.proc i).state = .runnable) :
    perform (.sched (.scheduleRr i) rfl) w = .ok () { w with table := w.table.modify i (·.setState .running) } := by
  refine (bind_ok (get_ok w)).trans ?_
  simp only [Sched.Lifecycle.perform, if_pos runnable]
  rfl

def initTable : Kernel := Sched.Lifecycle.boot.modify 0 (·.setState .running)

/-- The first process runs and has done nothing yet. -/
structure Started (w : World) : Prop where
  reachable : Reachable w
  table : w.table = initTable
  files : w.files = Files.empty
  rich : 512 ≤ free w.mem
  size : (w.task 0).sz = PGSIZE
  program : ∃ r, (w.task 0).pagetable = some r ∧ ∀ va < PGSIZE, userByte w.mem r va = some (initcode.getD va 0)

theorem Started.running (started : Started w) : (w.table.proc 0).state = .running := by
  rw [started.table]
  rfl

theorem init_starts : ∃ w, Started w := by
  obtain ⟨w, reachable, booted⟩ := booted_reachable fun _ _ => 0
  have first := schedule_run w 0 (by rw [booted.table]; rfl)
  rw [booted.table] at first
  exact ⟨_, .step w _ (.sched (.scheduleRr 0) rfl) reachable ⟨nofun, first⟩, rfl, booted.files, booted.rich, booted.size,
    booted.program⟩

theorem init_forks : ∃ w w', Started w ∧ fork 0 w = .ok (some 1) w' ∧ Forked w 0 (some 1) w' := by
  obtain ⟨w, started⟩ := init_starts
  obtain ⟨inv, _⟩ := reachable_inv w started.reachable
  obtain ⟨result, w', ran, _, forked⟩ := fork_ends inv 0 started.running
  have unused : w.table.findUnused = some 1 := by
    rw [started.table]
    decide +kernel
  cases result with
  | none =>
    rcases forked.failed rfl with full | little
    · cases unused.symm.trans full
    · have rich := started.rich
      have one : pages (w.task 0).sz = 1 := by rw [started.size]; rfl
      omega
  | some np =>
    obtain rfl := Option.some.inj (unused.symm.trans (forked.born np rfl).1)
    exact ⟨w, w', started, ran, forked⟩

def forkedTable : Kernel := (Sched.Lifecycle.fork initTable 0 ⟨true, true⟩).2.modify 1 (·.setState .running)

/-- The first process has forked, and its child runs. -/
theorem forked_reachable : ∃ w, Reachable w ∧ w.table = forkedTable ∧ w.files = Files.empty ∧
    memoryOf w 1 = memoryOf w 0 ∧ ∃ r, (w.task 0).pagetable = some r ∧ ∀ va < PGSIZE, userByte w.mem r va = some (initcode.getD va 0) := by
  obtain ⟨w, w', started, ran, forked⟩ := init_forks
  obtain ⟨r, here, program⟩ := started.program
  obtain ⟨inv, _⟩ := reachable_inv w started.reachable
  obtain ⟨trapframe, _, shaped⟩ := inv.sound.spaces 0 r here
  obtain ⟨_, table⟩ := forked.born 1 rfl
  rw [started.table] at table
  have forks := Reachable.step w w' (.fork 0) started.reachable
    ⟨fun p same => Option.some.inj same ▸ started.running, (bind_ok ran).trans rfl⟩
  have scheduled := schedule_run w' 1 (by rw [table]; decide +kernel)
  rw [table] at scheduled
  obtain ⟨task, untouched⟩ := forked.others 0 r here
  have here' : (w'.task 0).pagetable = some r := (congrArg Task.pagetable task).trans here
  have same := userByte_untouched shaped.reserved untouched
  refine ⟨_, .step _ _ (.sched (.scheduleRr 1) rfl) forks ⟨nofun, scheduled⟩, rfl, ?_, funext fun va => ?_, r, here',
    fun va low => (same va).trans (program va low)⟩
  · exact (forked.files fun fd => by rw [started.files]; rfl).trans started.files
  · calc memoryOf w' 1 va = memoryOf w 0 va := (forked.copied 1 rfl).memory va
      _ = userByte w.mem r va := congrFun (memoryOf_some here) va
      _ = userByte w'.mem r va := (same va).symm
      _ = memoryOf w' 0 va := (congrFun (memoryOf_some here') va).symm

end

end Xv6.System.Boot
