import Xv6.System.Processes
import Xv6.Vm.Arguments

/-! sbrk, exec and the copies to user memory on the whole machine; every operation keeps what holds
between operations. -/

namespace Xv6.System.Spaces
open Lib.Ownership Lib.Exec Lib.Bytes Sched.Table Sched.Passes
open Vm Vm.Memory Vm.Pagetable Vm.Space Vm.Walk Vm.Unmap Vm.Alloc Vm.Shape Vm.Copy Vm.UserMem Vm.Pages Vm.Exec
open Vm.Building Vm.Arguments
open Ftable Calls Safe Descriptors Processes
open Sched.Lifecycle (Reachable)

theorem ends_unit {A : Type} {w : World} {prog : Sys A} {post : World → Prop} (ends : Ends prog w (fun _ w' => post w')) :
    Ends (do let _ ← prog) w (fun _ w' => post w') :=
  Ends.bind ends fun _ _ holds => Ends.pure holds

variable [Layout] {w : World} {hand : List Nat}

theorem next_space (inv : Inv w) (p : Slot) (running : (w.table.proc p).state = .running) (sz : Nat) (s : Mem)
    (kept : Kept ({ w with mem := s }.setTask p fun t => { t with sz := sz }) [] none) :
    Next w ({ w with mem := s }.setTask p fun t => { t with sz := sz }) := by
  obtain ⟨r, trapframe, here, _, _⟩ := Inv.running inv p running
  refine next_slot inv p kept inv.files (fun i other => ⟨refl_of Alive _, ?_, fun _ => rfl⟩) ?_ ?_ (inv.closed p)
    (settled_of_alive (refl_of Alive (w.table.proc p))) id
  · simp [World.setTask, other]
  · change (w.table.proc p).state = .unused ↔ _
    simp [World.setTask, here, running]
  · simp [World.setTask, here]

/-- What growproc does to the memory of its caller, whose page table is at r: it adds pages, it stops for
want of one, it takes pages away, or it has nothing to do. -/
inductive Resized (w : World) (p : Slot) (r : Nat) (n : Int) : Bool → World → Prop where
  | grown (s : Mem) (more : 0 < n)
      (extended : Extended (ZeroPage (PTE_R ||| PTE_U ||| PTE_W)) w.mem r [] (pages (w.task p).sz)
        (pages ((w.task p).sz + n.toNat)) s) :
      Resized w p r n true ({ w with mem := s }.setTask p fun t => { t with sz := (w.task p).sz + n.toNat })
  | full (s : Mem) (more : 0 < n) (grown : Walk.Grown userVpn w.mem r [] s) : Resized w p r n false { w with mem := s }
  | shrunk (s : Mem) (newsz : Nat) (less : n < 0) (size : newsz = (((w.task p).sz + n) % 2 ^ 64).toNat)
      (done : Unmapped userVpn w.mem r [] (pages newsz) (pages (w.task p).sz) s) :
      Resized w p r n true ({ w with mem := s }.setTask p fun t => { t with sz := min (w.task p).sz newsz })
  | same (none : n = 0) : Resized w p r n true w

theorem size_bound (inv : Inv w) (p : Slot) (r : Nat) (here : (w.task p).pagetable = some r) : (w.task p).sz ≤ 2 ^ 27 := by
  obtain ⟨trapframe, _, shaped⟩ := inv.sound.spaces p r here
  have part := inv.sound.good.part (.proc p)
  rw [show (holders w [] none).root (.proc p) = some r from here] at part
  have bound : pages (w.task p).sz ≤ 2 ^ 15 := shaped.filled.small part
  unfold pages PGSIZE at bound
  omega

theorem growproc_resizes (inv : Inv w) (p : Slot) (r : Nat) (here : (w.task p).pagetable = some r) (n : Int) (small : n < 2 ^ 31) :
    Ends (growproc p n) w (Resized w p r n) := by
  obtain ⟨trapframe, _, shaped⟩ := inv.sound.spaces p r here
  have size := size_bound inv p r here
  have part := inv.sound.good.part (.proc p)
  rw [show (holders w [] none).root (.proc p) = some r from here] at part
  unfold growproc
  apply Ends.after (get_ok w)
  simp only
  split_ifs with grows shrinks
  · have larger : ((((w.task p).sz : Int) + n) % 2 ^ 64).toNat = (w.task p).sz + n.toNat := by omega
    have most : max (w.task p).sz ((w.task p).sz + n.toNat) = (w.task p).sz + n.toNat := by omega
    rw [larger]
    apply Ends.after (follow_run here)
    refine Ends.bind (onMem_ends (uvmalloc_ends part _ _ PTE_W shaped.filled (by decide) (by decide))) ?_
    rw [most]
    rintro result _ ⟨s, rfl, ⟨rfl, extended⟩ | ⟨rfl, grown⟩⟩
    · rw [if_neg (by omega)]
      exact ⟨true, _, rfl, .grown s grows extended⟩
    · rw [if_pos rfl]
      exact Ends.pure (.full s grows grown)
  · apply Ends.after (follow_run here)
    refine Ends.bind (onMem_ends (uvmdealloc_ends part _ _ shaped.filled.bound
      (fun v _ high => shaped.filled.below v high))) ?_
    rintro result _ ⟨s, rfl, rfl, done⟩
    exact ⟨true, _, rfl, .shrunk s _ shrinks rfl done⟩
  · refine ⟨true, w, ?_, .same (by omega)⟩
    change EStateM.Result.ok true (w.setTask p fun t => { t with sz := (w.task p).sz }) = _
    rw [setTask_eq_self w p (fun t => { t with sz := (w.task p).sz }) rfl]

theorem Resized.next {n : Int} {result : Bool} {w' : World} {r : Nat} {p : Slot} (resized : Resized w p r n result w')
    (inv : Inv w) (running : (w.table.proc p).state = .running) (here : (w.task p).pagetable = some r) : Next w w' := by
  obtain ⟨trapframe, frame, shaped⟩ := inv.sound.spaces p r here
  cases resized with
  | grown s more extended =>
    have order : pages (w.task p).sz ≤ pages ((w.task p).sz + n.toNat) := Nat.div_le_div_right (by omega)
    exact next_space inv p running _ s (kept_space p r _ trapframe s here frame inv.sound extended.safe extended.step
      (shaped.extended extended order))
  | full s more grown =>
    exact next_mem inv s (kept_same p r trapframe s here frame inv.sound grown.safe grown.step (shaped.grown grown))
  | shrunk s newsz less size done =>
    exact next_space inv p running _ s (kept_space p r _ trapframe s here frame inv.sound done.safe done.step
      (shaped.unmapped done))
  | same none => exact Next.refl inv

theorem growproc_ends (inv : Inv w) (p : Slot) (running : (w.table.proc p).state = .running) (n : BitVec 32) :
    Ends (growproc p n.toInt) w (fun _ w' => Next w w') := by
  obtain ⟨r, _, here, _, _⟩ := Inv.running inv p running
  refine Ends.weaken (growproc_resizes inv p r here n.toInt (by have := BitVec.toInt_lt (x := n); omega)) ?_
  exact fun _ _ resized => resized.next inv running here

/-- Everything but memory and the address space of one process is as it was. -/
structure Remade (w : World) (p : Slot) (hand : List Nat) (w' : World) : Prop where
  kept : Kept w' hand none
  table : w'.table = w.table
  files : w'.files = w.files
  others : ∀ i, i ≠ p → w'.task i = w.task i
  space : (w'.task p).pagetable ≠ none

/-- The image that was in memory s is the address space of the process, and the registers say where it starts. -/
structure Committed (p : Slot) (image : Image) (trapframe : Nat) (s : Mem) (w : World) : Prop where
  root : (w.task p).pagetable = some image.pagetable
  size : (w.task p).sz = image.sz
  frame : (w.task p).trapframe = some trapframe
  space : Untouched s w.mem (.proc p) image.pagetable
  registers : w.mem.page trapframe = execRegs (s.page trapframe) image

theorem commit_ends (p : Slot) (path : List Byte) (image : Image) (old trapframe : Nat) (s : Mem)
    (kept : Kept w hand none) (here : (w.task p).pagetable = some old) (frame : (w.task p).trapframe = some trapframe)
    (live : Live w.mem image.pagetable hand (pages image.sz) trapframe s) :
    Ends (commit p path (w.task p) trapframe image) { w with mem := s } (fun result w' =>
      Remade w p hand w' ∧ result = image.argc ∧ Committed p image trapframe s w') := by
  have built : Sound ((holders w hand none).replace .image (some image.pagetable) hand) (sizes w) s :=
    kept.replace .image live.safe live.opened.step (fun _ _ => rfl) (by rintro _ _ ⟨⟩)
  obtain ⟨trapframe', frame', shaped⟩ := kept.spaces p old here
  obtain rfl : trapframe = trapframe' := Option.some.inj (frame.symm.trans frame')
  have shaped₁ := shaped.congr (kept.good.tables .image (.proc p) (by rintro ⟨⟩) live.opened.step old here)
  -- The registers go to the trapframe, which no page table reads.
  obtain ⟨_, tables⟩ := built.good.setPage (.trapframe p) trapframe (execRegs (s.page trapframe) image) frame
    (by rintro _ _ ⟨⟩)
  have written := built.setPage (.trapframe p) trapframe (execRegs (s.page trapframe) image) frame
    (by rintro _ _ ⟨⟩)
  have oldRoot : ((holders w hand none).replace .image (some image.pagetable) hand).root (.proc p) = some old := by
    simpa [Holders.replace, holders] using here
  have newRoot : ((holders w hand none).replace .image (some image.pagetable) hand).root .image =
      some image.pagetable := by simp [Holders.replace]
  have shaped₂ := shaped₁.congr (tables (.proc p) old oldRoot)
  have image₂ : Shaped _ image.pagetable image.sz trapframe :=
    Shaped.congr ⟨live.filled, live.reserved⟩ (tables .image image.pagetable newRoot)
  have committed := written.commit p image.pagetable image.sz trapframe newRoot frame image₂
  have swapped : (((holders w hand none).replace .image (some image.pagetable) hand).swap p).root .image = some old := by
    simpa [Holders.swap] using oldRoot
  have part := committed.good.part .image
  rw [swapped] at part
  apply Ends.after (follow_run here)
  apply Ends.after (onMem_run (modify_ok _ _))
  apply Ends.after (modify_ok _ _)
  refine Ends.bind (onMem_ends (procFreepagetable_ends part _ trapframe shaped₂.filled
    shaped₂.reserved)) ?_
  rintro _ _ ⟨s', rfl, closed⟩
  have step := closed.step
  rw [← swapped] at step
  have final := committed.replace .image closed.safe step (fun _ _ => rfl) (by rintro _ _ ⟨⟩)
  -- The image is neither the trapframe nor a part of the space that was freed.
  have space₁ := built.good.untouched_page (.trapframe p) trapframe frame (by rintro _ _ ⟨⟩)
    (by rintro _ _ ⟨⟩) (fun y other => @page_setPage_other s trapframe y (execRegs (s.page trapframe) image) other)
    .image image.pagetable newRoot
  have space₂ := committed.good.untouched .image (.proc p) (by rintro ⟨⟩) step image.pagetable
    (by simpa [Holders.swap] using newRoot)
  have registers := step.frame trapframe (committed.good.outside .image (.trapframe p) trapframe frame fun role => by
    cases role <;> simp [embed])
  have space : Untouched s s' (.proc p) image.pagetable := Untouched.trans ⟨space₁.tables, space₁.data⟩ space₂
  refine Ends.pure ⟨⟨?_, rfl, rfl, fun i other => ?_, ?_⟩, rfl, ⟨by simp [World.setTask], by simp [World.setTask],
    by simp [World.setTask, frame], space, registers.trans (page_setPage_same s trapframe _)⟩⟩
  · refine kept_of_sound final ⟨rfl, by simp [Holders.replace]⟩ ?_ (fun i => ?_) ⟨rfl, rfl⟩ (fun _ => Iff.rfl)
    · simp [Holders.replace, Holders.swap, World.setTask, holders, Equiv.swap_apply_of_ne_of_ne]
    · by_cases same : i = p
      · subst same
        simp [Holders.replace, Holders.swap, World.setTask, holders, frame]
      · have apart : Owner.proc i ≠ .proc p := fun equal => same (Owner.proc.inj equal)
        simp [Holders.replace, Holders.swap, World.setTask, holders, sizes, same,
          Equiv.swap_apply_of_ne_of_ne (by simp : Owner.proc i ≠ .image) apart]
  · simp [World.setTask, other]
  · simp [World.setTask]

/-- What exec returns: -1 with nothing left of what it did, or the number of arguments with the image committed. -/
inductive Executed (w : World) (p : Slot) (hand : List Nat) (trapframe : Nat) (ip : Option Inode) (argv : List Nat) :
    Int → World → Prop where
  | failed (s : Mem) (closed : Closed w.mem none hand s) : Executed w p hand trapframe ip argv (-1) { w with mem := s }
  | done (file : Inode) (image : Image) (s : Mem) (w' : World) (found : ip = some file)
      (live : Live w.mem image.pagetable hand (pages image.sz) trapframe s) (made : ImageOf w.mem file hand argv image s)
      (committed : Committed p image trapframe s w') : Executed w p hand trapframe ip argv image.argc w'

theorem exec_ends (p : Slot) (path : List Byte) (ip : Option Inode) (argv : List Nat) (old trapframe : Nat)
    (kept : Kept w hand none) (here : (w.task p).pagetable = some old) (frame : (w.task p).trapframe = some trapframe) :
    Ends (exec p path ip argv) w (fun result w' =>
      Remade w p hand w' ∧ Executed w p hand trapframe ip argv result w') := by
  have untouched : ∀ s, Kept { w with mem := s } hand none → Remade w p hand { w with mem := s } := by
    intro s kept'
    refine ⟨kept', rfl, rfl, fun _ _ => rfl, ?_⟩
    change (w.task p).pagetable ≠ none
    rw [here]
    exact Option.some_ne_none _
  unfold exec execIn
  apply Ends.after rfl
  apply Ends.after rfl
  cases ip with
  | none => exact Ends.pure ⟨untouched w.mem kept, .failed w.mem ⟨kept.good.bare .image rfl, Step.refl _ _ _, fun _ _ => rfl⟩⟩
  | some ip =>
    have ram := (kept.good.covers trapframe).mp ⟨.trapframe p, frame⟩
    have bound : trapframe < 2 ^ 52 := lt_trans (inRam_bound trapframe ram) (by decide)
    apply Ends.after rfl
    apply Ends.after (get_ok w)
    apply Ends.after (follow_run frame)
    have built := onMem_ends (buildImage_ends (kept.good.bare .image rfl) trapframe bound ip argv)
    rw [← buildImage_onMem] at built
    refine Ends.bind built ?_
    rintro _ _ ⟨s, rfl, ⟨rfl, closed⟩ | ⟨image, rfl, live⟩, made⟩
    · exact Ends.pure ⟨untouched s (kept.lists closed.safe closed.step), .failed s closed⟩
    · apply Ends.weaken (commit_ends p path image old trapframe s kept here frame live)
      rintro _ w' ⟨remade, rfl, committed⟩
      exact ⟨remade, .done ip image s w' rfl live (made image rfl) committed⟩

theorem kfrees_ends (argv : List Nat) (kept : Kept w argv none) :
    Ends (forM argv fun x => onMem (kfree x)) w (fun _ w' => ∃ s, w' = { w with mem := s } ∧ Kept w' [] none) := by
  refine Ends.forM _ argv (fun rest w' => ∃ s, w' = { w with mem := s } ∧ Kept w' rest none) w ⟨w.mem, rfl, kept⟩ ?_
  rintro x rest _ ⟨s, rfl, kept'⟩
  apply Ends.weaken (freePage_ends kept' x rest rfl)
  rintro _ _ ⟨s', rfl, freed, _⟩
  exact ⟨s', rfl, freed⟩

theorem Remade.next {w' : World} (inv : Inv w) (p : Slot) (running : (w.table.proc p).state = .running)
    (remade : Remade w p [] w') : Next w w' := by
  refine next_slot inv p remade.kept ?_ (fun i other => ⟨?_, remade.others i other, fun fd => ?_⟩) ?_ ?_ ?_ ?_ ?_
  · rw [remade.files]
    exact inv.files
  · rw [remade.table]
    exact refl_of Alive _
  · rw [remade.files]
  · rw [remade.table, running]
    simp [remade.space]
  · exact fun impossible => absurd impossible remade.space
  · rw [remade.table, running]
    rintro (impossible | impossible) <;> cases impossible
  · rw [remade.table]
    exact settled_of_alive (refl_of Alive _)
  · rw [remade.table]
    exact id

theorem sysExec_ends (inv : Inv w) (p : Slot) (running : (w.table.proc p).state = .running) (upath uargv : Nat)
    (namei : List Byte → Option Inode) : Ends (sysExec p upath uargv namei) w (fun _ w' => Next w w') := by
  obtain ⟨r, trapframe, here, frame, shaped⟩ := Inv.running inv p running
  have part := inv.sound.good.part (.proc p)
  rw [show (holders w [] none).root (.proc p) = some r from here] at part
  unfold sysExec
  apply Ends.after (get_ok w)
  apply Ends.after (follow_run here)
  apply Ends.after (onMem_run (copyinstr_run w.mem r upath MAXPATH))
  generalize readString (userByte w.mem r) MAXPATH upath = outcome
  obtain ⟨path, ok⟩ := outcome
  cases ok with
  | false => exact Ends.pure (Next.refl inv)
  | true =>
    refine Ends.bind (onMem_ends (fetchArgs_ends (w.task p).sz uargv MAXARG 0 [] part)) ?_
    rintro ⟨argv, complete⟩ _ ⟨s, rfl, safe, step, tables, _, _⟩
    simp only [List.append_nil] at safe step
    have kept : Kept { w with mem := s } argv none :=
      kept_same p r trapframe s here frame inv.sound safe step (shaped.congr tables)
    -- Whether exec runs or not, the pages of the arguments are freed.
    have finish : ∀ w₁ (result : Int), Remade w p argv w₁ →
        Ends (do forM argv fun x => onMem (kfree x); pure result) w₁ (fun _ w' => Next w w') := by
      intro w₁ result remade
      refine Ends.bind (kfrees_ends argv remade.kept) ?_
      rintro _ _ ⟨s', rfl, kept'⟩
      exact Ends.pure (Remade.next inv p running ⟨kept', remade.table, remade.files, remade.others, remade.space⟩)
    cases complete with
    | false =>
      refine finish { w with mem := s } (-1) ⟨kept, rfl, rfl, fun _ _ => rfl, ?_⟩
      change (w.task p).pagetable ≠ none
      rw [here]
      exact Option.some_ne_none _
    | true =>
      refine Ends.bind (exec_ends p path (namei path) argv r trapframe kept here frame) ?_
      rintro result w₁ ⟨remade, _⟩
      exact finish w₁ result ⟨remade.kept, remade.table, remade.files, remade.others, remade.space⟩

theorem store_ends (inv : Inv w) (p : Slot) (running : (w.table.proc p).state = .running) (va : Nat)
    (bytes : List Byte) : Ends (store p va bytes) w (fun _ w' => Next w w') := by
  obtain ⟨r, _, here, _, _⟩ := Inv.running inv p running
  unfold store
  apply Ends.after (get_ok w)
  apply Ends.after (follow_run here)
  refine Ends.bind (onMem_ends (copyout_sound inv.sound p here va bytes)) ?_
  rintro _ _ ⟨s, rfl, _, sound⟩
  exact Ends.pure (next_mem inv s sound)

theorem saveRegs_ends (inv : Inv w) (p : Slot) (running : (w.table.proc p).state = .running) (regs : Page) :
    Ends (saveRegs p regs) w (fun _ w' => Next w w') := by
  obtain ⟨_, trapframe, _, frame, _⟩ := Inv.running inv p running
  unfold saveRegs
  apply Ends.after (get_ok w)
  apply Ends.after (follow_run frame)
  refine ⟨(), _, onMem_run (modify_ok _ _), next_mem inv _ ?_⟩
  exact inv.sound.setPage (.trapframe p) trapframe regs frame nofun

theorem getCfsStats_runs (inv : Inv w) (add : Nat) (pid : Int) :
    Runs Fault (getCfsStats add pid) w (fun _ w' => Next w w') := by
  unfold getCfsStats
  apply Runs.after (get_ok w)
  cases w.table.findPid pid with
  | none => exact Ends.runs (Ends.pure (Next.refl inv))
  | some i =>
    simp only
    split_ifs with far
    · exact Ends.runs (Ends.pure (Next.refl inv))
    · cases here : (w.task i).pagetable with
      | none => exact Or.inl ⟨_, w, rfl, Or.inr rfl⟩
      | some r =>
        apply Runs.after (follow_run rfl)
        apply Ends.runs
        apply Ends.weaken (onMem_ends (copyout_sound inv.sound i here add _))
        rintro _ _ ⟨s, rfl, _, sound⟩
        exact next_mem inv s sound

/-- Every operation by a running process keeps what holds between operations, or it is one of the two panics
that user programs can bring about. -/
theorem perform_runs (inv : Inv w) (op : Op) (running : ∀ p, op.caller = some p → (w.table.proc p).state = .running) :
    Runs Fault (perform op) w (fun _ w' => Next w w') := by
  cases op with
  | sched op plain =>
    obtain ⟨k, performed, alive⟩ := alive_perform w.table op plain running
    refine Ends.runs (Ends.after (get_ok w) ?_)
    rw [performed]
    exact ⟨(), _, rfl, next_table inv k alive fun before => .step _ _ op before running performed⟩
  | timer p => exact Runs.weaken (timer_runs inv p (running p rfl)) fun _ _ both => both.1
  | killed p =>
    apply Runs.after (get_ok w)
    split_ifs with killed
    · exact Runs.weaken (exitKilled_runs inv p (running p rfl)) fun _ _ both => both.1
    · exact Ends.runs (Ends.pure (Next.refl inv))
  | fork p => exact Ends.runs (ends_unit (Ends.weaken (fork_ends inv p (running p rfl)) fun _ _ both => both.1))
  | exec p upath uargv namei =>
    exact Ends.runs (ends_unit (sysExec_ends inv p (running p rfl) upath uargv namei))
  | sbrk p n => exact Ends.runs (ends_unit (growproc_ends inv p (running p rfl) n))
  | exit p status msg stack =>
    exact Runs.weaken (sysExit_runs inv p (running p rfl) status msg stack) fun _ _ both => both.1
  | wait p addr dst =>
    exact Ends.runs (ends_unit (Ends.weaken (wait_ends inv p (running p rfl) addr dst) fun _ _ both => both.1))
  | pipe p fdarray => exact Ends.runs (ends_unit (sysPipe_ends inv p fdarray (running p rfl)))
  | close p fd => exact Ends.runs (ends_unit (sysClose_ends inv p fd (running p rfl)))
  | dup p fd => exact Ends.runs (ends_unit (sysDup_ends inv p fd (running p rfl)))
  | openFile p device readable writable =>
    exact Ends.runs (ends_unit (openFile_ends inv p device readable writable (running p rfl)))
  | cfsStats p add pid =>
    refine Runs.bind (getCfsStats_runs inv add pid) fun _ _ next => ?_
    exact Ends.runs (Ends.pure next)
  | store p va bytes => exact Ends.runs (store_ends inv p (running p rfl) va bytes)
  | trap p regs => exact Ends.runs (saveRegs_ends inv p (running p rfl) regs)

end Xv6.System.Spaces
