import Xv6.System.Calls
import Xv6.Vm.Cost

/-! What holds between operations: every page has one use, every process that is there has a whole
address space, and the counts of open files are exact. -/

namespace Xv6.System.Safe
open Lib.Ownership Lib.Exec Lib.Bytes Sched.Table Function
open Vm Vm.Memory Vm.Pagetable Vm.Space Vm.Moves Vm.Walk Vm.Unmap Vm.Alloc Vm.Shape Vm.Copy Vm.UserMem Vm.Pages Vm.Exec
open Vm.Cost (free kalloc_costs procPagetable_costs)
open Ftable Calls

def holders (w : World) (hand : List Nat) (image : Option Nat) : Holders where
  root
    | .kernel => w.kernelPagetable
    | .proc i => (w.task i).pagetable
    | .image => image
  hand := hand
  trapframe i := (w.task i).trapframe
  kstack := w.kstack
  queue := w.queue
  pipe := w.files.Piped

def sizes (w : World) (i : Slot) : Nat := (w.task i).sz

theorem onMem_run {A : Type} {prog : VM A} {w : World} {a : A} {s : Mem} (ran : prog w.mem = .ok a s) :
    onMem prog w = .ok a { w with mem := s } := by
  unfold onMem
  rw [ran]

theorem onMem_ends {A : Type} {prog : VM A} {w : World} {post : A → Mem → Prop} (ends : Ends prog w.mem post) :
    Ends (onMem prog) w (fun a w' => ∃ s, w' = { w with mem := s } ∧ post a s) := by
  obtain ⟨a, s, ran, holds⟩ := ends
  exact ⟨a, _, onMem_run ran, s, rfl, holds⟩

theorem follow_run {pointer : Option Nat} {x : Nat} {w : World} (here : pointer = some x) :
    follow pointer w = .ok x w := by
  rw [here]
  rfl

variable (w : World) (p : Slot)

theorem holders_setTask (change : Task → Task) (hand : List Nat) (image : Option Nat) :
    holders (w.setTask p change) hand image =
      { holders w hand image with
        root := update (holders w hand image).root (.proc p) (change (w.task p)).pagetable
        trapframe := update (holders w hand image).trapframe p (change (w.task p)).trapframe } := by
  unfold holders World.setTask
  simp only [Holders.mk.injEq, and_true, true_and]
  constructor
  · funext o
    cases o with
    | kernel | image => rfl
    | proc i =>
      by_cases same : i = p
      · subst same
        simp
      · have apart : Owner.proc i ≠ .proc p := fun equal => same (Owner.proc.inj equal)
        simp [same, apart]
  · funext i
    by_cases same : i = p
    · subst same
      simp
    · simp [same]

theorem spares_world {w w' : World} {p : Slot} {hand hand' : List Nat} {image image' : Option Nat} (s : Mem)
    (others : ∀ i, i ≠ p → w'.task i = w.task i) (files : w'.files = w.files)
    (kernel : w'.kernelPagetable = w.kernelPagetable ∧ w'.kstack = w.kstack ∧ w'.queue = w.queue) :
    Spares p (holders w hand image) s (holders w' hand' image') s := by
  refine Spares.pointers p _ _ s (fun o own notImage => ?_) (fun i other => ?_) kernel.2 ?_
  · cases o with
    | kernel => exact kernel.1
    | proc i => exact congrArg Task.pagetable (others i fun same => own (by rw [same]))
    | image => exact absurd rfl notImage
  · exact congrArg Task.trapframe (others i other)
  · exact congrArg Files.Piped files

theorem setTask_eq_self (change : Task → Task) (same : change (w.task p) = w.task p) : w.setTask p change = w := by
  unfold World.setTask
  rw [same, update_eq_self]

def vacate (w : World) (p : Slot) : World :=
  { (w.setTask p fun t => { t with pagetable := none, sz := 0, trapframe := none, name := Str.setByte t.name 0 0 }) with
    table := w.table.modify p Proc.freeproc }

theorem vacate_run (s s' : Mem) :
    { ({ ({ w with mem := s }.setTask p fun t => { t with trapframe := none }) with mem := s' }.setTask p
        fun t => { t with pagetable := none, sz := 0, name := Str.setByte t.name 0 0 }) with
      table := w.table.modify p Proc.freeproc } = { vacate w p with mem := s' } := by
  simp [vacate, World.setTask]

theorem holders_vacate (hand : List Nat) :
    holders (vacate w p) hand none =
      { ((holders w hand none).swap p).replace .image none hand with
        trapframe := update (holders w hand none).trapframe p none } := by
  unfold vacate Holders.replace Holders.swap
  have changed := holders_setTask w p
    (fun t => { t with pagetable := none, sz := 0, trapframe := none, name := Str.setByte t.name 0 0 }) hand none
  refine changed.trans ?_
  simp only [Holders.mk.injEq, and_true]
  refine ⟨?_, rfl⟩
  funext o
  by_cases own : o = .proc p
  · subst own
    simp [holders]
  · by_cases image : o = .image
    · subst image
      simp [holders]
    · simp [own, image, Equiv.swap_apply_of_ne_of_ne image own]

def occupy (w : World) (p : Slot) (trapframe pagetable : Nat) : World :=
  { w with table := claim w.table p }.setTask p fun t =>
    { t with trapframe := some trapframe, pagetable := some pagetable }

theorem occupy_eq (x r : Nat) (s s' : Mem) :
    { ({ w with table := claim w.table p, mem := s }.setTask p fun t => { t with trapframe := some x }) with
      mem := s' }.setTask p (fun t => { t with pagetable := some r }) = { occupy w p x r with mem := s' } := by
  simp [occupy, World.setTask]

variable [Layout]

structure Inv (w : World) : Prop where
  sound : Sound (holders w [] none) (sizes w) w.mem
  files : w.files.Ok 0
  idle : ∀ i, (w.table.proc i).state = .unused ↔ (w.task i).pagetable = none
  bare : ∀ i, (w.task i).pagetable = none → (w.task i).trapframe = none ∧ (w.task i).sz = 0
  closed : ∀ i, (w.table.proc i).state = .unused ∨ (w.table.proc i).state = .zombie → ∀ fd, w.files.ofile (i, fd) = none

variable {w : World} {hand : List Nat} {sz : Slot → Nat} {g : Holders}

theorem freePage_ends (sound : Sound g sz w.mem) (x : Nat) (rest : List Nat)
    (held : g.hand = x :: rest) :
    Ends (freePage (some x)) w (fun _ w' => ∃ s, w' = { w with mem := s } ∧ Sound { g with hand := rest } sz s ∧
      ∀ o r, g.root o = some r → Untouched w.mem s o r) := by
  apply Ends.weaken (onMem_ends (kfree_sound sound x rest held))
  rintro _ w' ⟨s, rfl, freed, untouched, _⟩
  exact ⟨s, rfl, freed, untouched⟩

theorem freeTrapframe_ends (sound : Sound g sz w.mem) (p : Slot)
    (gone : g.root (.proc p) = none) :
    Ends (freePage (g.trapframe p)) w (fun _ w' => ∃ s, w' = { w with mem := s } ∧
      Sound { g with trapframe := update g.trapframe p none } sz s ∧
      (∀ o r, g.root o = some r → Untouched w.mem s o r) ∧
      Spares p g w.mem { g with trapframe := update g.trapframe p none } s) := by
  cases frame : g.trapframe p with
  | none =>
    have same : ({ g with trapframe := update g.trapframe p none } : Holders) = g := by
      rw [← frame, update_eq_self]
    rw [same]
    exact Ends.pure ⟨w.mem, rfl, sound, fun o r _ => Untouched.refl w.mem o r, Spares.refl p g w.mem⟩
  | some x =>
    have taken := sound.takeTrapframe p frame gone
    apply Ends.weaken (onMem_ends (kfree_sound taken x g.hand rfl))
    rintro _ w' ⟨s, rfl, freed, untouched, others⟩
    refine ⟨s, rfl, freed, untouched, ?_⟩
    have freeing := taken.good.spares_page (p := p) .hand x List.mem_cons_self id others
    refine Spares.trans ?_ (freeing.trans (Spares.pointers p _ _ s (fun _ _ _ => rfl) (fun _ _ => rfl) ⟨rfl, rfl⟩ rfl))
    exact Spares.pointers p g _ w.mem (fun _ _ _ => rfl) (fun i other => update_of_ne other _ _) ⟨rfl, rfl⟩ rfl

theorem freeproc_ends (sound : Sound (holders w hand none) (sizes w) w.mem) :
    Ends (freeproc p) w (fun _ w' => ∃ s, w' = { vacate w p with mem := s } ∧
      Sound (holders (vacate w p) hand none) (sizes (vacate w p)) s ∧
      Spares p (holders w hand none) w.mem (holders (vacate w p) hand none) s) := by
  have swapped := sound.swap p rfl
  have gone : ((holders w hand none).swap p).root (.proc p) = none := by simp [Holders.swap, holders]
  have mine : ((holders w hand none).swap p).root .image = (w.task p).pagetable := by simp [Holders.swap, holders]
  have smaller : ∀ i, (holders (vacate w p) hand none).root (.proc i) ≠ none → sizes (vacate w p) i = sizes w i := by
    intro i some
    have other : i ≠ p := by
      rintro rfl
      simp [holders, vacate, World.setTask] at some
    simp [sizes, vacate, World.setTask, other]
  have renamed : Spares p (holders w hand none) w.mem ((holders w hand none).swap p) w.mem :=
    Spares.pointers p _ _ w.mem (fun o own image => by simp [Holders.swap, Equiv.swap_apply_of_ne_of_ne image own])
      (fun _ _ => rfl) ⟨rfl, rfl⟩ rfl
  unfold freeproc
  apply Ends.after (get_ok w)
  refine Ends.bind (freeTrapframe_ends swapped p gone) ?_
  rintro _ _ ⟨s₁, rfl, sound₁, untouched, spares₁⟩
  apply Ends.after (modify_ok _ _)
  cases space : (w.task p).pagetable with
  | none =>
    have unchanged : update ((holders w hand none).swap p).root .image none = ((holders w hand none).swap p).root := by
      exact update_eq_self_iff.mpr (mine.trans space).symm
    have same : holders (vacate w p) hand none = { (holders w hand none).swap p with
        trapframe := update ((holders w hand none).swap p).trapframe p none } := by
      rw [holders_vacate, Holders.replace, unchanged]
      rfl
    refine ⟨(), _, rfl, s₁, vacate_run w p s₁ s₁, Sound.sizes ?_ smaller, ?_⟩
    · rw [same]
      exact sound₁
    · rw [same]
      exact renamed.trans spares₁
  | some r =>
    obtain ⟨trapframe, frame, shaped⟩ := sound.spaces p r space
    have here := mine.trans space
    have part := sound₁.good.part .image
    have root : ({ (holders w hand none).swap p with
      trapframe := update ((holders w hand none).swap p).trapframe p none } : Holders).root .image = some r := here
    rw [root] at part
    have shaped₁ := shaped.congr (untouched .image r here).tables
    refine Ends.bind (onMem_ends (procFreepagetable_ends part _ trapframe shaped₁.filled
      shaped₁.reserved)) ?_
    rintro _ _ ⟨s₂, rfl, closed⟩
    have step := closed.step
    rw [← root] at step
    refine ⟨(), _, rfl, s₂, vacate_run w p s₁ s₂, Sound.sizes ?_ smaller, ?_⟩
    · rw [holders_vacate]
      exact sound₁.replace .image closed.safe step (fun _ _ => rfl) (by rintro _ _ ⟨⟩)
    · rw [holders_vacate]
      exact (renamed.trans spares₁).trans (sound₁.good.spares_step .image (Or.inr rfl) step)

omit [Layout] in
theorem spared {p : Slot} {image : Option Nat} {s : Mem} (spares : Spares p (holders w hand image) w.mem g s)
    (i : Slot) (other : i ≠ p) (r : Nat) (here : (w.task i).pagetable = some r) : Untouched w.mem s (.proc i) r :=
  spares.untouched (.proc i) ⟨fun same => other (Owner.proc.inj same), fun same => nomatch same⟩ r here

/-- A world whose pages are all accounted for, with some of them in local variables. -/
abbrev Kept (w : World) (hand : List Nat) (image : Option Nat) : Prop :=
  Sound (holders w hand image) (sizes w) w.mem

theorem kept_of_sound {image : Option Nat} (sound : Sound g sz w.mem)
    (lists : g.hand = hand ∧ g.root .image = image) (kernel : w.kernelPagetable = g.root .kernel)
    (tasks : ∀ i, (w.task i).pagetable = g.root (.proc i) ∧ (w.task i).trapframe = g.trapframe i ∧
      ((w.task i).pagetable ≠ none → (w.task i).sz = sz i))
    (kernelPages : w.kstack = g.kstack ∧ w.queue = g.queue) (pipes : ∀ x, w.files.Piped x ↔ g.pipe x) :
    Kept w hand image := by
  have same : holders w hand image = g := by
    obtain ⟨root, hand', trapframe, kstack, queue, pipe⟩ := g
    simp only [holders, Holders.mk.injEq]
    refine ⟨?_, lists.1.symm, funext fun i => (tasks i).2.1, kernelPages.1, kernelPages.2, funext fun x => propext (pipes x)⟩
    funext o
    cases o with
    | kernel => exact kernel
    | proc i => exact (tasks i).1
    | image => exact lists.2.symm
  unfold Kept
  rw [same]
  exact sound.sizes fun i some => (tasks i).2.2 (by rw [(tasks i).1]; exact some)

theorem copyout_sound {s : Mem} {r : Nat} (sound : Sound g sz s) (i : Slot)
    (here : g.root (.proc i) = some r) (dst : Nat) (src : List Byte) :
    Ends (copyout r dst src) s (fun ok s' => Stored s r g.hand dst src ok s' ∧ Sound g sz s') := by
  obtain ⟨trapframe, frame, shaped⟩ := sound.spaces i r here
  have part := sound.good.part (.proc i)
  rw [here] at part
  apply Ends.weaken (copyout_ends part shaped.reserved dst src)
  intro ok s' stored
  have step := stored.step
  rw [← here] at step
  have replaced : Sound (g.replace (.proc i) (g.root (.proc i)) g.hand) sz s' := by
    refine sound.replace (.proc i) (by rw [here]; exact stored.safe) step (fun _ _ => rfl) (fun j r' same mine => ?_)
    obtain rfl := Owner.proc.inj same
    rw [here] at mine
    obtain rfl := Option.some.inj mine
    exact ⟨trapframe, frame, shaped.congr stored.tables⟩
  rw [Holders.replace, update_eq_self] at replaced
  exact ⟨stored, replaced⟩

variable {hand' : List Nat}

theorem kept_space (r sz trapframe : Nat) (s : Mem) (here : (w.task p).pagetable = some r)
    (frame : (w.task p).trapframe = some trapframe) (kept : Kept w hand none) (safe : Local userVpn s (some r) hand')
    (step : Step userVpn w.mem (some r) hand s (some r) hand') (shaped : Shaped s r sz trapframe) :
    Kept ({ w with mem := s }.setTask p fun t => { t with sz := sz }) hand' none := by
  have root : (holders w hand none).root (.proc p) = some r := here
  have replaced : Sound ((holders w hand none).replace (.proc p) (some r) hand') (update (sizes w) p sz) s := by
    refine kept.replace (.proc p) safe ?_ (fun i other => ?_) (fun i r' same mine => ?_)
    · rw [root]
      exact step
    · exact update_of_ne (fun same => other (by rw [same])) _ _
    · obtain rfl := Owner.proc.inj same
      obtain rfl := Option.some.inj mine
      rw [update_self]
      exact ⟨trapframe, frame, shaped⟩
  refine kept_of_sound replaced ⟨rfl, rfl⟩ rfl (fun i => ?_) ⟨rfl, rfl⟩ (fun _ => Iff.rfl)
  by_cases same : i = p
  · subst same
    simp [World.setTask, holders, Holders.replace, here]
  · have apart : Owner.proc i ≠ .proc p := fun equal => same (Owner.proc.inj equal)
    simp [World.setTask, holders, sizes, Holders.replace, same, apart]

theorem spares_space (w' : World) {p : Slot} {root : Option Nat} {s : Mem}
    (good : Good (holders w hand none) w.mem) (step : Step userVpn w.mem (w.task p).pagetable hand s root hand')
    (others : ∀ i, i ≠ p → w'.task i = w.task i) (files : w'.files = w.files)
    (kernel : w'.kernelPagetable = w.kernelPagetable ∧ w'.kstack = w.kstack ∧ w'.queue = w.queue) :
    Spares p (holders w hand none) w.mem (holders w' hand' none) s := by
  have pointers : Spares p ((holders w hand none).replace (.proc p) root hand') s (holders w hand' none) s :=
    Spares.pointers p _ _ s (fun o own _ => (update_of_ne own _ _).symm) (fun _ _ => rfl) ⟨rfl, rfl⟩ rfl
  exact (good.spares_step (.proc p) (Or.inl rfl) step).trans (pointers.trans (spares_world s others files kernel))

theorem kept_same (r trapframe : Nat) (s : Mem) (here : (w.task p).pagetable = some r)
    (frame : (w.task p).trapframe = some trapframe) (kept : Kept w hand none) (safe : Local userVpn s (some r) hand')
    (step : Step userVpn w.mem (some r) hand s (some r) hand') (shaped : Shaped s r (w.task p).sz trapframe) :
    Kept { w with mem := s } hand' none := by
  have changed := kept_space p r (w.task p).sz trapframe s here frame kept safe step shaped
  rwa [setTask_eq_self { w with mem := s } p (fun t => { t with sz := (w.task p).sz }) rfl] at changed

theorem allocFrame_kept (x : Nat) (s : Mem) (noFrame : (w.task p).trapframe = none)
    (sound : Sound (holders w (x :: hand) none) (sizes w) s) :
    Kept { (w.setTask p fun t => { t with trapframe := some x }) with mem := s } hand none := by
  refine kept_of_sound (sound.giveTrapframe p rfl noFrame) ⟨rfl, rfl⟩ rfl (fun i => ?_) ⟨rfl, rfl⟩ (fun _ => Iff.rfl)
  by_cases same : i = p
  · subst same
    simp [World.setTask, holders, sizes]
  · simp [World.setTask, holders, sizes, same]

theorem allocTable_kept (x r : Nat) (s : Mem) (noTable : (w.task p).pagetable = none)
    (frame : (w.task p).trapframe = some x) (empty : (w.task p).sz = 0) (kept : Kept w hand none)
    (opened : Opened w.mem r hand s) (filled : Filled s r 0) (reserved : Reserved s r x) :
    Kept ({ w with mem := s }.setTask p fun t => { t with pagetable := some r }) hand none := by
  have root : (holders w hand none).root (.proc p) = none := noTable
  have step := opened.step
  rw [← root] at step
  have replaced : Sound ((holders w hand none).replace (.proc p) (some r) hand) (sizes w) s := by
    refine kept.replace (.proc p) opened.safe step (fun _ _ => rfl) (fun i r' same here => ?_)
    obtain rfl := Owner.proc.inj same
    obtain rfl := Option.some.inj here
    refine ⟨x, frame, ?_, reserved⟩
    rw [sizes, empty]
    exact filled
  refine kept_of_sound replaced ⟨rfl, rfl⟩ rfl (fun i => ?_) ⟨rfl, rfl⟩ (fun _ => Iff.rfl)
  by_cases same : i = p
  · subst same
    simp [World.setTask, holders, sizes, Holders.replace]
  · have apart : Owner.proc i ≠ .proc p := fun equal => same (Owner.proc.inj equal)
    simp [World.setTask, holders, sizes, Holders.replace, same, apart]

/-- allocproc gives a slot with an empty address space, or for want of a slot or of six pages nothing; it touches
no other address space. -/
theorem allocproc_ends (kept : Kept w hand none)
    (bare : ∀ i, (w.table.proc i).state = .unused →
      (w.task i).pagetable = none ∧ (w.task i).trapframe = none ∧ (w.task i).sz = 0) :
    Ends allocproc w (fun result w' =>
      (result = none ∧ w.table.findUnused = none ∧ w' = w) ∨
      ∃ p s, w.table.findUnused = some p ∧ Kept w' hand none ∧
        Spares p (holders w hand none) w.mem (holders w' hand none) s ∧
        ((result = none ∧ w' = { vacate { w with table := claim w.table p } p with mem := s } ∧ free w.mem < 6) ∨
          ∃ trapframe r, result = some p ∧ w' = { occupy w p trapframe r with mem := s } ∧
            free w.mem ≤ free s + 6)) := by
  unfold allocproc
  apply Ends.after (get_ok w)
  cases unused : w.table.findUnused with
  | none => exact Ends.pure (Or.inl ⟨rfl, rfl, rfl⟩)
  | some p =>
    obtain ⟨noTable, noFrame, empty⟩ := bare p (w.table.findUnused_state p unused)
    have claimed : Kept { w with table := claim w.table p } hand none := kept
    apply Ends.after (modify_ok _ w)
    refine Ends.bind (onMem_ends (kalloc_costs.outcome w.mem _ (kalloc_sound claimed))) ?_
    rintro result _ ⟨s₁, rfl, ⟨rfl, rfl, none⟩ | ⟨x, rfl, sound₁, _, others₁, taken₁⟩, spent₁⟩
    · refine Ends.bind (freeproc_ends p claimed) ?_
      rintro _ _ ⟨s₂, rfl, sound₂, spares₂⟩
      refine Ends.pure (Or.inr ⟨p, s₂, rfl, sound₂, spares₂, Or.inl ⟨rfl, rfl, ?_⟩⟩)
      simp only [free] at none ⊢
      rw [none]
      decide
    · have framed := allocFrame_kept (w := { w with table := claim w.table p }) p x s₁ noFrame sound₁
      have ram := (sound₁.good.covers x).mp ⟨.hand, by simp [Uses]⟩
      have root : (holders { ({ w with table := claim w.table p }.setTask p fun t => { t with trapframe := some x }) with
          mem := s₁ } hand none).root (.proc p) = none := by simpa [holders, World.setTask] using noTable
      -- The page for the trapframe was free and is the process's own now.
      have spares₁ : Spares p (holders w hand none) w.mem (holders { ({ w with table := claim w.table p }.setTask p
          fun t => { t with trapframe := some x }) with mem := s₁ } hand none) s₁ := by
        have listed : Uses (holders w hand none) w.mem .free x := by
          change x ∈ w.mem.freelist
          rw [taken₁]
          exact List.mem_cons_self
        refine (kept.good.spares_page .free x listed id others₁).trans (spares_world s₁ (fun i other => ?_) rfl ⟨rfl, rfl, rfl⟩)
        simp [World.setTask, other]
      apply Ends.after (modify_ok _ _)
      refine Ends.bind (onMem_ends ((procPagetable_costs x).outcome s₁ _ (procPagetable_ends
        (framed.good.bare (.proc p) root) x (lt_trans (inRam_bound x ram) (by decide))))) ?_
      rintro result _ ⟨s₂, rfl, ⟨rfl, closed⟩ | ⟨r, rfl, opened, filled, reserved⟩, spent₂⟩
      · have back := framed.lists closed.safe closed.step
        refine Ends.bind (freeproc_ends p back) ?_
        rintro _ _ ⟨s₃, rfl, sound₃, spares₃⟩
        refine Ends.pure (Or.inr ⟨p, s₃, rfl, sound₃, ?_, Or.inl ⟨rfl, ?_, ?_⟩⟩)
        · exact (spares₁.trans (framed.good.spares_lists closed.step)).trans spares₃
        · simp [vacate, World.setTask]
        · rcases spent₂ with little | ⟨impossible, _⟩
          · rcases spent₁ with less | ⟨_, spent⟩ <;> omega
          · exact absurd rfl impossible
      · refine ⟨some p, _, rfl, Or.inr ⟨p, s₂, rfl, ?_, ?_, Or.inr ⟨x, r, rfl, occupy_eq w p x r s₁ s₂, ?_⟩⟩⟩
        · exact allocTable_kept p x r s₂ (by simpa [World.setTask] using noTable) (by simp [World.setTask])
            (by simpa [World.setTask] using empty) framed opened filled reserved
        · have step := opened.step
          rw [← root] at step
          refine spares₁.trans (spares_space _ framed.good step (fun i other => ?_) rfl ⟨rfl, rfl, rfl⟩)
          simp [World.setTask, other]
        · rcases spent₁ with less | ⟨_, spent⟩ <;> rcases spent₂ with less' | ⟨_, spent'⟩ <;> omega

end Xv6.System.Safe
