import Xv6.System.Descriptors

/-! fork, exit and wait on the whole machine. -/

namespace Xv6.System.Processes
open Lib.Ownership Lib.Exec Lib.Bytes Sched.Table Sched.Passes Option
open Vm Vm.Memory Vm.Pagetable Vm.Space Vm.Walk Vm.Alloc Vm.Shape Vm.Copy Vm.UserMem Vm.Pages
open Vm.Cost (free uvmcopy_costs)
open Ftable Calls Safe Descriptors
open Sched.Lifecycle (Reachable)

theorem proc_claim_other {k : Kernel} {np i : Slot} (other : i ≠ np) : (claim k np).proc i = k.proc i :=
  Kernel.proc_modify_other other

theorem reachable_failedFork (p np : Slot) (k : Kernel) (running : (k.proc p).state = .running)
    (free : k.findUnused = some np) (before : Reachable k) : Reachable ((claim k np).modify np Proc.freeproc) := by
  refine .step k _ (.fork p ⟨false, false⟩) before (fun i same => Option.some.inj same ▸ running) ?_
  simp only [Sched.Lifecycle.perform, Sched.Lifecycle.fork, Sched.Lifecycle.allocproc, free, claim, Bool.false_eq_true,
    if_false]

theorem reparent_alive (k : Kernel) (p : Slot) : Kernel.Each Alive k (Sched.Lifecycle.reparent k p) := by
  refine Kernel.Each.foldl _ (fun k pp => ?_) slots k
  unfold Sched.Lifecycle.reparentVisit
  split
  · exact (Kernel.Each.modify (alive_of_state rfl rfl)).trans (wakeup_alive _ _ _)
  · exact Kernel.Each.refl k

theorem exit_alive (k k' : Kernel) (p : Slot) (status : Int) (msg : Buffer 32)
    (exited : Sched.Lifecycle.exit k p status msg = .ok k') :
    (∀ i, i ≠ p → Alive (k.proc i) (k'.proc i)) ∧ (k'.proc p).state = .zombie ∧
      left (k'.proc p) = (Str.safestrcpy (k.proc p).exitMsg msg, status) := by
  unfold Sched.Lifecycle.exit at exited
  split at exited
  · cases exited
  · obtain rfl := Except.ok.inj exited
    have others := (reparent_alive k p).trans (wakeup_alive (Sched.Lifecycle.reparent k p) (some p)
      (((Sched.Lifecycle.reparent k p).proc p).parent.map .proc))
    refine ⟨fun i other => ?_, by rw [Kernel.proc_modify_same], ?_⟩
    · rw [Kernel.proc_modify_other other]
      exact others i
    · rw [Kernel.proc_modify_same, left, (others p).message]

section Alive
variable (k : Kernel) (i : Slot)

theorem alive_dispatched (runnable : (k.proc i).state = .runnable) :
    Kernel.Each Alive k (k.modify i (·.setState .running)) := by
  refine Kernel.Each.modify (alive_of_live ?_ (by simp [Proc.setState]) rfl)
  rw [runnable]
  decide

theorem alive_switchTo : Kernel.Each Alive k (switchTo k i).2 := by
  unfold switchTo
  split
  · rename_i runnable
    exact alive_dispatched k i runnable
  · exact Kernel.Each.refl k

theorem alive_resetLone (procCounter : Int) (i : Slot) : Kernel.Each Alive k (resetLone procCounter k i) := by
  unfold resetLone
  split
  · exact @Kernel.Each.modify Alive _ k i (fun p => { p with accumulator := 0 }) (alive_of_state rfl rfl)
  · exact Kernel.Each.refl k

theorem alive_psChoose : Kernel.Each Alive k (psChoose k).2 := by
  cases chosen : (psScan k slots).minProc with
  | none =>
    rw [psChoose_none k chosen]
    exact fun i => refl_of Alive (k.proc i)
  | some i =>
    rw [psChoose_some k i chosen]
    exact Kernel.Each.trans (k := { k with minAccumulator := (psScan k slots).minAccumulator })
      (alive_resetLone _ _ i) (alive_switchTo _ i)

theorem alive_cfsChoose (decay : Int) : Kernel.Each Alive k (cfsChoose k decay).2 := by
  unfold cfsChoose
  cases (cfsScan k decay slots).minProc with
  | none => exact Kernel.Each.refl k
  | some i => exact alive_switchTo k i

theorem left_cfsUpdate (p : Proc) : left p.cfsUpdate = left p := by
  unfold Proc.cfsUpdate
  split_ifs <;> rfl

theorem left_charge (p : Proc) : left p.charge = left p := by
  unfold Proc.charge
  split_ifs <;> rfl

theorem alive_cfsUpdate : Kernel.Each Alive k k.cfsUpdate :=
  fun i => alive_of_state (k.proc i).cfsUpdate_fields.1 (left_cfsUpdate _)

theorem alive_charge : Kernel.Each Alive k (k.modify i Proc.charge) :=
  Kernel.Each.modify (alive_of_state (Proc.charge_state _) (left_charge _))

theorem alive_yield (running : (k.proc i).state = .running) : Kernel.Each Alive k (yield k i) := by
  refine Kernel.Each.modify (alive_of_live ?_ (by simp [Proc.setState]) rfl)
  rw [running]
  decide

theorem alive_usertrapTimer (running : (k.proc i).state = .running) : Kernel.Each Alive k (usertrapTimer k i) := by
  have charged := ((wakeup_alive k (some i) (some .ticks)).trans (alive_charge _ i)).trans (alive_cfsUpdate _)
  refine charged.trans (alive_yield _ i ?_)
  rw [Kernel.cfsUpdate, Kernel.proc_mapProcs, (Proc.cfsUpdate_fields _).1, Kernel.proc_modify_same, Proc.charge_state]
  exact wakeup_running k _ _ i running

theorem alive_kerneltrapTimer : Kernel.Each Alive k (kerneltrapTimer k i) := by
  have counted := (wakeup_alive k (some i) (some .ticks)).trans (alive_cfsUpdate _)
  unfold kerneltrapTimer kerneltrapTick
  simp only
  split
  · rename_i running
    refine (counted.trans (alive_charge _ i)).trans (alive_yield _ i ?_)
    rw [Kernel.proc_modify_same, Proc.charge_state]
    exact running
  · exact counted

theorem alive_perform (op : Sched.Lifecycle.Op) (plain : onTable op = true)
    (running : ∀ i, op.caller = some i → (k.proc i).state = .running) :
    ∃ k', Sched.Lifecycle.perform k op = some k' ∧ Kernel.Each Alive k k' := by
  cases op with
  | scheduleRr i =>
    refine ⟨_, rfl, ?_⟩
    split
    · rename_i runnable
      exact alive_dispatched k i runnable
    · exact Kernel.Each.refl k
  | schedulePs => exact ⟨_, rfl, alive_psChoose k⟩
  | scheduleCfs decay => exact ⟨_, rfl, alive_cfsChoose k decay⟩
  | timer trap i =>
    cases trap with
    | user => cases plain
    | kernel => exact ⟨_, rfl, alive_kerneltrapTimer k i⟩
  | cfsUpdate => exact ⟨_, rfl, alive_cfsUpdate k⟩
  | charge i => exact ⟨_, rfl, alive_charge k i⟩
  | yield i => exact ⟨_, rfl, alive_yield k i (running i rfl)⟩
  | fork i memory | exit i status msg | wait i copied => cases plain
  | kill pid =>
    refine ⟨_, rfl, ?_⟩
    unfold Kernel.kill
    split
    · exact Kernel.Each.refl k
    · refine Kernel.Each.modify ?_
      unfold Proc.kill
      split
      · rename_i asleep
        refine alive_of_live ?_ (by simp) rfl
        rw [asleep]
        decide
      · exact alive_of_state rfl rfl
  | setkilled i | awake i => exact ⟨_, rfl, Kernel.Each.modify (alive_of_state rfl rfl)⟩
  | sleep i chan =>
    refine ⟨_, rfl, Kernel.Each.modify (alive_of_live ?_ (by simp) rfl)⟩
    rw [running i rfl]
    decide
  | wakeup self chan => exact ⟨_, rfl, wakeup_alive k self (some chan)⟩
  | setPsPriority i priority | setCfsPriority i priority =>
    refine ⟨_, rfl, ?_⟩
    split
    · exact Kernel.Each.refl k
    · exact Kernel.Each.modify (alive_of_state rfl rfl)
  | setPolicy policy =>
    refine ⟨_, rfl, ?_⟩
    split <;> exact fun i => refl_of Alive (k.proc i)

end Alive

def memoryOf (w : World) (p : Slot) (va : Nat) : Option Byte :=
  (w.task p).pagetable.bind fun r => userByte w.mem r va

theorem memoryOf_some {w : World} {p : Slot} {r : Nat} (here : (w.task p).pagetable = some r) : memoryOf w p = userByte w.mem r := by
  funext va
  simp only [memoryOf, here, bind_some]

/-- What a wait that reaps p leaves in its caller, and when it does. -/
structure Waited (w : World) (q : Slot) (addr dst : Nat) (result : Option Int) (w' : World) : Prop where
  delivers : ∀ p r, (w.table.proc p).state = .zombie → (w'.table.proc p).state = .unused → dst ≠ 0 →
    (w.task q).pagetable = some r → readBytes (userByte w'.mem r) 32 dst = some (List.ofFn (w.table.proc p).exitMsg)
  status : ∀ p r, (w.table.proc p).state = .zombie → (w'.table.proc p).state = .unused → addr ≠ 0 →
    (dst = 0 ∨ addr + 4 ≤ dst ∨ dst + 32 ≤ addr) → (w.task q).pagetable = some r →
      readBytes (userByte w'.mem r) 4 addr = some (intBytes (w.table.proc p).xstate)
  reaps : ∀ p r, slots.find? (fun pp => decide ((w.table.proc pp).parent = some q ∧ (w.table.proc pp).state = .zombie)) = some p →
    (w.task q).pagetable = some r → (addr ≠ 0 → ∀ va, addr ≤ va → va < addr + 4 → UserMem.translate w.mem r va ≠ none) →
    (∀ va, dst ≤ va → va < dst + 32 → UserMem.translate w.mem r va ≠ none) →
    result = some (w.table.proc p).pid ∧ (w'.table.proc p).state = .unused

theorem waited_of_alive {w w' : World} {q : Slot} {addr dst : Nat} {result : Option Int} (alive : Kernel.Each Alive w.table w'.table)
    (reaps : ∀ p r, slots.find? (fun pp => decide ((w.table.proc pp).parent = some q ∧ (w.table.proc pp).state = .zombie)) =
      some p → (w.task q).pagetable = some r →
      (addr ≠ 0 → ∀ va, addr ≤ va → va < addr + 4 → UserMem.translate w.mem r va ≠ none) →
      ¬∀ va, dst ≤ va → va < dst + 32 → UserMem.translate w.mem r va ≠ none) : Waited w q addr dst result w' where
  delivers p r zombie unused _ _ := by
    rw [(alive p).unused, zombie] at unused
    cases unused
  status p r zombie unused _ _ _ := by
    rw [(alive p).unused, zombie] at unused
    cases unused
  reaps p r found here status mapped := absurd mapped (reaps p r found here status)

/-- The panics that user programs can bring about: init exits, or the kernel follows a null pagetable. -/
def Fault (message : String) : Prop := message = "init exiting" ∨ message = "kerneltrap"

variable [Layout] {w : World} {hand : List Nat}

theorem apart_of_good {g : Holders} {s : Mem} (good : Good g s) (p np : Slot) (different : p ≠ np) (old new : Nat)
    (source : g.root (.proc p) = some old) (target : g.root (.proc np) = some new) :
    Apart userVpn s (some new) g.hand old := by
  intro role x tree own owned
  have mine : Owns (userOf (.proc p)) s (g.root (.proc p)) g.hand role x := by
    rw [source]
    exact (owns_tree_congr (fun _ _ _ _ _ => rfl) role tree x).mp own
  have outside := good.outside (.proc np) (embed (.proc p) role) x ((uses_embed g s (.proc p) role x).mpr mine) ?_
  · rw [target] at outside
    exact outside owned
  · intro role' same
    have owners : Owner.proc p ≠ .proc np := fun equal => different (Owner.proc.inj equal)
    cases role with
    | table q | leaf v => cases role' <;> simp [embed, owners] at same
    | free | hand => exact tree.elim

theorem vacate_next (inv : Inv w) (np : Slot) (s : Mem) (w₁ : World)
    (gone : (w.table.proc np).state = .unused ∨ (w.table.proc np).state = .zombie)
    (files : w₁.files = w.files) (tasks : ∀ i, i ≠ np → w₁.task i = w.task i)
    (procs : ∀ i, i ≠ np → w₁.table.proc i = w.table.proc i) (kept : Kept { vacate w₁ np with mem := s } [] none)
    (table : Reachable w.table → Reachable (w₁.table.modify np Proc.freeproc)) :
    Next w { vacate w₁ np with mem := s } := by
  have unused : ((w₁.table.modify np Proc.freeproc).proc np).state = .unused := by simp [Proc.freeproc]
  refine next_slot inv np kept ?_ (fun i other => ⟨?_, ?_, fun fd => ?_⟩) ?_ (fun _ => ?_) (fun _ fd => ?_)
    (fun _ => Or.inl unused) table
  · change w₁.files.Ok 0
    rw [files]
    exact inv.files
  · change Alive _ ((w₁.table.modify np Proc.freeproc).proc i)
    rw [Kernel.proc_modify_other other, procs i other]
    exact refl_of Alive _
  · simp [vacate, World.setTask, other, tasks i other]
  · exact congrFun (congrArg Files.ofile files) (i, fd)
  · simp [vacate, World.setTask, Proc.freeproc]
  · simp [vacate, World.setTask]
  · exact (congrFun (congrArg Files.ofile files) (np, fd)).trans (inv.closed np gone fd)

theorem Inv.running (inv : Inv w) (p : Slot) (running : (w.table.proc p).state = .running) :
    ∃ r trapframe, (w.task p).pagetable = some r ∧ (w.task p).trapframe = some trapframe ∧
      Shaped w.mem r (w.task p).sz trapframe := by
  have some : (w.task p).pagetable ≠ none := by
    rw [Ne, ← inv.idle p, running]
    decide
  obtain ⟨r, here⟩ := ne_none_iff_exists'.mp some
  obtain ⟨trapframe, frame, shaped⟩ := inv.sound.spaces p r here
  exact ⟨r, trapframe, here, frame, shaped⟩

/-- The address space of np is a copy of the one that p had. -/
structure Copied (w : World) (p np : Slot) (w' : World) : Prop where
  size : (w'.task np).sz = (w.task p).sz
  leaves : ∀ old new v, (w.task p).pagetable = some old → (w'.task np).pagetable = some new → v.page < pages (w.task p).sz →
    ∃ pte pte', leafAt w.mem old v = some pte ∧ leafAt w'.mem new v = some pte' ∧ PTE_FLAGS pte' = PTE_FLAGS pte ∧
      w'.mem.page (PTE2PA pte') = w.mem.page (PTE2PA pte)
  memory : ∀ va, memoryOf w' np va = memoryOf w p va

/-- Every process is as it was, with its files, and so is every page that was in use. -/
structure Undone (w w' : World) : Prop where
  files : w'.files = w.files
  others : ∀ i, (w.table.proc i).state ≠ .unused → w'.table.proc i = w.table.proc i ∧ w'.task i = w.task i
  unused : ∀ i, (w.table.proc i).state = .unused → (w'.table.proc i).state = .unused
  uses : ∀ use x, use ≠ .free → (Uses (holders w' [] none) w'.mem use x ↔ Uses (holders w [] none) w.mem use x)
  content : ∀ use x, use ≠ .free → Uses (holders w [] none) w.mem use x → w'.mem.page x = w.mem.page x

/-- What fork does to the others and to the child, and when it returns -1. -/
structure Forked (w : World) (p : Slot) (result : Option Slot) (w' : World) : Prop where
  others : ∀ i r, (w.task i).pagetable = some r → w'.task i = w.task i ∧ Untouched w.mem w'.mem (.proc i) r
  failed : result = none → w.table.findUnused = none ∨ free w.mem < 6 + 3 * pages (w.task p).sz
  undone : result = none → Undone w w'
  born : ∀ np, result = some np → w.table.findUnused = some np ∧
    w'.table = (Sched.Lifecycle.fork w.table p ⟨true, true⟩).2
  files : (∀ fd, w.files.ofile (p, fd) = none) → w'.files = w.files
  copied : ∀ np, result = some np → Copied w p np w'
  registers : ∀ np source, result = some np → (w.task p).trapframe = some source →
    ∃ target, (w'.task np).trapframe = some target ∧
      ∀ i < sizeofTrapframe, byteAt (w'.mem.page target) i = byteAt (setLE (w.mem.page source) a0 8 0) i

/-- A world between allocproc and the end of fork: the child has a slot and an address space. -/
structure Forking (w : World) (np : Slot) (target : Nat) (w₁ : World) : Prop where
  unused : w.table.findUnused = some np
  kept : Kept w₁ [] none
  files : w₁.files = w.files
  kernel : w₁.kernelPagetable = w.kernelPagetable ∧ w₁.kstack = w.kstack ∧ w₁.queue = w.queue
  tasks : ∀ i, i ≠ np → w₁.task i = w.task i
  table : w₁.table = claim w.table np
  space : (w₁.task np).pagetable ≠ none
  frame : (w₁.task np).trapframe = some target
  spares : Spares np (holders w [] none) w.mem (holders w₁ [] none) w₁.mem

theorem unused_ne (inv : Inv w) (np i : Slot) (unused : w.table.findUnused = some np)
    (live : (w.table.proc i).state = .running ∨ (w.task i).pagetable ≠ none) : i ≠ np := by
  have state := w.table.findUnused_state np unused
  rintro rfl
  rcases live with running | some
  · rw [running] at state
    cases state
  · exact some ((inv.idle i).mp state)

theorem userByte_untouched {s s' : Mem} {r trapframe : Nat} {i : Slot} (reserved : Reserved s r trapframe)
    (untouched : Untouched s s' (.proc i) r) (va : Nat) : userByte s' r va = userByte s r va := by
  unfold userByte
  rw [translate_congr untouched.tables]
  cases found : UserMem.translate s r va with
  | none => rfl
  | some x =>
    obtain ⟨pte, inside, leaf, page⟩ : ∃ pte, userVpn (vpn va) ∧ leafAt s r (vpn va) = some pte ∧ PTE2PA pte = x := by
      cases translate_owns [] reserved va x found with
      | leaf r' pte v root inside leaf =>
        obtain rfl := Option.some.inj root
        exact ⟨pte, inside, leaf, rfl⟩
    have same := untouched.data (vpn va) pte inside leaf
    rw [page] at same
    simp only [map_some, same]

theorem Copied.untouched {w₁ w₂ : World} {p np : Slot} {new trapframe : Nat} (copied : Copied w p np w₁)
    (here : (w₁.task np).pagetable = some new) (reserved : Reserved w₁.mem new trapframe)
    (same : (w₂.task np).pagetable = some new ∧ (w₂.task np).sz = (w₁.task np).sz)
    (untouched : Untouched w₁.mem w₂.mem (.proc np) new) (small : pages (w₁.task np).sz ≤ 2 ^ 26 - 2) : Copied w p np w₂ where
  size := same.2.trans copied.size
  leaves old new' v source target low := by
    obtain rfl := Option.some.inj (same.1.symm.trans target)
    obtain ⟨pte, pte', leaf, leaf', flags, content⟩ := copied.leaves old new v source here low
    rw [copied.size] at small
    have inside : userOf (.proc np) v := (userVpn_iff v).mpr (lt_of_lt_of_le low small)
    refine ⟨pte, pte', leaf, ?_, flags, ?_⟩
    · rw [leafAt_congr untouched.tables]
      exact leaf'
    · rw [untouched.data v pte' inside leaf']
      exact content
  memory va := by
    rw [← copied.memory va, memoryOf_some same.1, memoryOf_some here]
    exact userByte_untouched reserved untouched va

section
variable (inv : Inv w)
include inv

theorem forkRest_ends (p np : Slot) (running : (w.table.proc p).state = .running) (target : Nat) (w₁ : World)
    (forking : Forking w np target w₁) (source : Nat) (sourceHere : (w.task p).trapframe = some source)
    (copied : Copied w p np w₁) :
    Ends (forkRest (fun prog => prog) (fun _ => pure ()) p np (w.task p) source target) w₁
      (fun result w' => Next w w' ∧ Forked w p result w') := by
  obtain ⟨unused, kept, files, _, tasks, table, space, frame, spares⟩ := forking
  have state := w.table.findUnused_state np unused
  have different := unused_ne inv np p unused (Or.inl running)
  have written := Sound.setPage kept (.trapframe np) target (forkRegs (w₁.mem.page target) (w₁.mem.page source)) frame
    nofun
  apply Ends.after (onMem_run (modify_ok _ _))
  obtain ⟨_, w₂, ran, filed, same, _, ofiles⟩ :=
    dupFds_ends (w := { w₁ with mem := w₁.mem.setPage target (forkRegs (w₁.mem.page target) (w₁.mem.page source)) }) p np different written
      (by rw [files]; exact inv.files) (fun fd => by rw [files]; exact inv.closed np (Or.inl state) fd)
  apply Ends.after ran
  have task : ∀ i, w₂.task i = w₁.task i := fun i => congrFun filed.task i
  have table₂ : w₂.table = w₁.table := by rw [same]
  have mem₂ : w₂.mem = w₁.mem.setPage target (forkRegs (w₁.mem.page target) (w₁.mem.page source)) := by rw [same]
  have born : w₂.table.modify np (fun q => { q with parent := some p, state := .runnable }) =
      (Sched.Lifecycle.fork w.table p ⟨true, true⟩).2 := by
    rw [table₂, table, Sched.Lifecycle.fork_some _ _ np _ unused]
    exact Kernel.modify_modify _ _ _ _
  -- The registers are written to a page that belongs to no address space.
  have untouched : ∀ i r, (w₁.task i).pagetable = some r → Untouched w₁.mem w₂.mem (.proc i) r := by
    intro i r here
    rw [mem₂]
    exact kept.good.untouched_page (.trapframe np) target frame nofun nofun
      (fun y apart => page_setPage_other apart) (.proc i) r here
  refine ⟨some np, { (w₂.setTask np fun t => { t with name := Str.safestrcpy t.name (w.task p).name }) with
    table := w₂.table.modify np (fun q => { q with parent := some p, state := .runnable }) }, rfl,
    next_slot inv np ?_ filed.files (fun i other => ⟨?_, ?_, fun fd => ?_⟩) ?_ ?_ ?_ (fun gone => ?_) (fun before => ?_),
    fun i r here => ⟨?_, ?_⟩, nofun, nofun,
    fun np' result => ?_, fun closed => ?_, fun np' result => ?_, fun np' source' result sourceHere' => ?_⟩
  · refine kept_of_sound filed.kept ⟨rfl, rfl⟩ rfl (fun i => ?_) ⟨rfl, rfl⟩ (fun _ => Iff.rfl)
    by_cases here : i = np
    · subst here
      simp [World.setTask, holders, sizes]
    · simp [World.setTask, holders, sizes, here]
  · simp only [Kernel.proc_modify_other other, table₂, table, claim]
    exact refl_of Alive _
  · simp [World.setTask, other, task, tasks i other]
  · exact (ofiles i fd other).trans (congrFun (congrArg Files.ofile files) (i, fd))
  · simp [World.setTask, task, space]
  · simp [World.setTask, task, space]
  · simp
  · cases state.symm.trans gone
  · exact .step _ _ (.fork p ⟨true, true⟩) before (fun i same => Option.some.inj same ▸ running) (congrArg some born.symm)
  · have other := unused_ne inv np i unused (Or.inr (by rw [here]; exact some_ne_none r))
    simp [World.setTask, other, task, tasks i other]
  · have other := unused_ne inv np i unused (Or.inr (by rw [here]; exact some_ne_none r))
    exact (spared spares i other r here).trans (untouched i r (by rw [tasks i other]; exact here))
  · obtain rfl := Option.some.inj result
    exact ⟨unused, born⟩
  · have idle := dupFds_idle { w₁ with mem := w₁.mem.setPage target (forkRegs (w₁.mem.page target) (w₁.mem.page source)) } p np
      (fun fd => by rw [files]; exact closed fd)
    obtain ⟨_, rfl⟩ := EStateM.Result.ok.inj (idle.symm.trans ran)
    exact files
  · obtain rfl := Option.some.inj result
    obtain ⟨new, here⟩ := ne_none_iff_exists'.mp space
    obtain ⟨_, _, shaped⟩ := kept.spaces np new here
    refine copied.untouched here shaped.reserved ⟨?_, ?_⟩ (untouched np new here) shaped.filled.bound
    · simp [World.setTask, task, here]
    · simp [World.setTask, task]
  · obtain rfl := Option.some.inj result
    obtain rfl := Option.some.inj (sourceHere.symm.trans sourceHere')
    refine ⟨target, by simp [World.setTask, task, frame], fun i low => ?_⟩
    change byteAt (w₂.mem.page target) i = _
    rw [mem₂, page_setPage_same, (spares (.trapframe p) source different).2 sourceHere]
    exact byteAt_forkRegs _ _ i low

theorem undone_of_spares {w' : World} (np : Slot) (unused : w.table.findUnused = some np)
    (files : w'.files = w.files) (procs : ∀ i, i ≠ np → w'.table.proc i = w.table.proc i)
    (tasks : ∀ i, i ≠ np → w'.task i = w.task i) (gone : (w'.table.proc np).state = .unused)
    (empty : (w'.task np).pagetable = none ∧ (w'.task np).trapframe = none)
    (spares : Spares np (holders w [] none) w.mem (holders w' [] none) w'.mem) : Undone w w' := by
  have state := w.table.findUnused_state np unused
  have noTable := (inv.idle np).mp state
  have noFrame := (inv.bare np noTable).1
  -- A use that concerns the slot is one of no page at all.
  have near : ∀ use x, use ≠ .free → ¬Elsewhere np use →
      ¬Uses (holders w [] none) w.mem use x ∧ ¬Uses (holders w' [] none) w'.mem use x := by
    intro use x used near
    cases use with
    | free => exact absurd rfl used
    | hand => simp [Uses, holders]
    | table o q | leaf o v =>
      obtain rfl | rfl : o = .proc np ∨ o = .image := by simpa [Elsewhere, or_iff_not_imp_left] using near
      · simp [Uses, holders, noTable, empty.1]
      · simp [Uses, holders]
    | trapframe i =>
      obtain rfl : i = np := by simpa [Elsewhere] using near
      simp [Uses, holders, noFrame, empty.2]
    | kstack i | queue k | pipe => exact absurd trivial near
  refine ⟨files, fun i live => ?_, fun i idle => ?_, fun use x used => ?_, fun use x used uses => ?_⟩
  · have other : i ≠ np := fun same => live (same ▸ state)
    exact ⟨procs i other, tasks i other⟩
  · by_cases same : i = np
    · rw [same]
      exact gone
    · rw [procs i same]
      exact idle
  · by_cases away : Elsewhere np use
    · exact (spares use x away).1
    · exact iff_of_false (near use x used away).2 (near use x used away).1
  · by_cases away : Elsewhere np use
    · exact (spares use x away).2 uses
    · exact absurd uses (near use x used away).1

theorem forkCopy_ends (p np : Slot) (running : (w.table.proc p).state = .running) (target : Nat) (w₁ : World)
    (forking : Forking w np target w₁) (empty : (w₁.task np).sz = 0) (spent : free w.mem ≤ free w₁.mem + 6) :
    Ends (forkCopy (fun prog => prog) (fun _ => pure ()) p np) w₁ (fun result w' => Next w w' ∧ Forked w p result w') := by
  obtain ⟨unused, kept, files, kernel, tasks, table, some, frame, spares⟩ := forking
  obtain ⟨new, space⟩ := ne_none_iff_exists'.mp some
  obtain ⟨old, source, oldThere, sourceThere, original⟩ := Inv.running inv p running
  have different := unused_ne inv np p unused (Or.inl running)
  have oldHere := oldThere
  have sourceHere := sourceThere
  rw [← tasks p different] at oldHere sourceHere
  obtain ⟨trapframe, _, shaped⟩ := kept.spaces p old oldHere
  obtain ⟨target', frame', bare⟩ := kept.spaces np new space
  obtain rfl : target = target' := Option.some.inj (frame.symm.trans frame')
  have nothing : sizes w₁ np = 0 := empty
  rw [nothing] at bare
  have part := kept.good.part (.proc np)
  rw [show (holders w₁ [] none).root (.proc np) = .some new from space] at part
  apply Ends.after (get_ok w₁)
  apply Ends.after (follow_run oldHere)
  apply Ends.after (follow_run space)
  refine Ends.bind (onMem_ends ((uvmcopy_costs old new (w₁.task p).sz).outcome w₁.mem _ (uvmcopy_ends part
    (apart_of_good kept.good p np different old new oldHere space) (kept.good.wf (.proc p) old oldHere) (w₁.task p).sz
    shaped.filled bare.filled))) ?_
  rintro _ _ ⟨s, rfl, ⟨rfl, extended⟩ | ⟨rfl, grown⟩, cost⟩
  · have grownSpace := kept_space np new (w₁.task p).sz target s space frame kept extended.safe extended.step
      (bare.extended extended (Nat.zero_le _))
    have step := extended.step
    rw [← space] at step
    have untouched := spared spares p different old oldThere
    have copied : Copied w p np ({ w₁ with mem := s }.setTask np fun t => { t with sz := (w₁.task p).sz }) := by
      refine ⟨by simp [World.setTask, tasks p different], fun old' new' v oldHere' newHere' low => ?_, fun va => ?_⟩
      · obtain rfl := Option.some.inj (oldThere.symm.trans oldHere')
        obtain rfl : new = new' := Option.some.inj (space.symm.trans (by simpa [World.setTask] using newHere'))
        rw [← tasks p different] at low
        obtain ⟨pte', x, perm, leaf', reads, pte, leaf, flags, content⟩ := extended.fresh v (Nat.zero_le _) low
        have inside : userVpn v := (userVpn_iff v).mpr (lt_of_lt_of_le low shaped.filled.bound)
        have there : leafAt w.mem old v = .some pte := by rw [← leafAt_congr untouched.tables]; exact leaf
        refine ⟨pte, pte', there, leaf', ?_, ?_⟩
        · rw [reads.flags, flags, Entry.flags_valid pte (Unmap.leafAt_valid _ _ _ _ leaf)]
        · change s.page (PTE2PA pte') = _
          rw [reads.page, content, untouched.data v pte inside there]
      · have owned := kept.good.part (.proc p)
        rw [show (holders w₁ [] none).root (.proc p) = .some old from oldHere] at owned
        rw [memoryOf_some oldThere, @memoryOf_some _ np new (by simp [World.setTask, space])]
        change userByte s new va = _
        rw [userByte_copied shaped bare extended va fun v pte inside leaf => owned.ram _ ⟨_, Owns.leaf old pte v rfl inside leaf⟩]
        exact userByte_untouched original.reserved untouched va
    apply Ends.after (modify_ok _ _)
    apply Ends.after (follow_run sourceHere)
    apply Ends.after (follow_run frame)
    rw [tasks p different]
    rw [tasks p different] at grownSpace copied
    refine forkRest_ends inv p np running target _ ⟨unused, grownSpace, files, kernel, fun i other => ?_, table, ?_, ?_, ?_⟩
      source sourceThere copied
    · simp [World.setTask, other, tasks i other]
    · simp [World.setTask, space]
    · simp [World.setTask, frame]
    · exact spares.trans (spares_space _ kept.good step (fun i other => by simp [World.setTask, other]) rfl ⟨rfl, rfl, rfl⟩)
  · have step := grown.step
    rw [← space] at step
    have back : Kept { w₁ with mem := s } [] none := by
      refine kept_same np new target s space frame kept grown.safe grown.step ?_
      rw [empty]
      exact bare.grown grown
    refine Ends.bind (freeproc_ends np back) ?_
    rintro _ _ ⟨s', rfl, freed, spares'⟩
    have returned := (spares.trans (spares_space { w₁ with mem := s } kept.good step (fun _ _ => rfl) rfl
      ⟨rfl, rfl, rfl⟩)).trans spares'
    have procs : ∀ i, i ≠ np → (w₁.table.modify np Proc.freeproc).proc i = w.table.proc i := by
      intro i other
      rw [Kernel.proc_modify_other other, table]
      exact proc_claim_other other
    refine Ends.pure ⟨vacate_next inv np s' { w₁ with mem := s } (Or.inl (w.table.findUnused_state np unused)) files tasks
      (fun i other => ?_) freed ?_, fun i r here => ⟨?_, ?_⟩, fun _ => Or.inr ?_, fun _ => ?_,
      by rintro _ ⟨⟩, fun _ => files, by rintro _ ⟨⟩,
      by rintro _ _ ⟨⟩⟩
    · rw [table]
      exact proc_claim_other other
    · change Reachable w.table → Reachable (w₁.table.modify np Proc.freeproc)
      rw [table]
      exact reachable_failedFork p np w.table running unused
    · have other := unused_ne inv np i unused (Or.inr (by rw [here]; exact some_ne_none r))
      simp [vacate, World.setTask, other, tasks i other]
    · have other := unused_ne inv np i unused (Or.inr (by rw [here]; exact some_ne_none r))
      exact spared returned i other r here
    · rcases cost with little | ⟨impossible, _⟩
      · rw [tasks p different] at little
        unfold pages
        omega
      · cases impossible
    · refine undone_of_spares inv np unused files procs (fun i other => ?_) ?_ ?_ returned
      · simp [vacate, World.setTask, other, tasks i other]
      · simp [vacate, World.setTask, Proc.freeproc]
      · simp [vacate, World.setTask]

theorem fork_ends (p : Slot) (running : (w.table.proc p).state = .running) :
    Ends (fork p) w (fun result w' => Next w w' ∧ Forked w p result w') := by
  unfold fork
  refine Ends.bind (allocproc_ends inv.sound fun i unused => ?_) ?_
  · exact ⟨(inv.idle i).mp unused, inv.bare i ((inv.idle i).mp unused)⟩
  rintro _ w₁ (⟨rfl, full, rfl⟩ | ⟨np, s, unused, kept, spares, ⟨rfl, rfl, little⟩ | ⟨target, new, rfl, rfl, spent⟩⟩)
  · refine Ends.pure ⟨Next.refl inv, fun i r _ => ⟨rfl, Untouched.refl _ _ _⟩, fun _ => Or.inl full, fun _ => ?_,
      nofun, fun _ => rfl, nofun,
      nofun⟩
    exact ⟨rfl, fun _ _ => ⟨rfl, rfl⟩, fun _ => id, fun _ _ _ => Iff.rfl, fun _ _ _ _ => rfl⟩
  · have procs : ∀ i, i ≠ np → ((claim w.table np).modify np Proc.freeproc).proc i = w.table.proc i := by
      intro i other
      rw [Kernel.proc_modify_other other]
      exact proc_claim_other other
    refine Ends.pure ⟨vacate_next inv np s { w with table := claim w.table np }
      (Or.inl (w.table.findUnused_state np unused)) rfl (fun _ _ => rfl) (fun i other => proc_claim_other other) kept
      (reachable_failedFork p np w.table running unused), fun i r here => ?_, fun _ => Or.inr (by omega), fun _ => ?_,
      nofun, fun _ => rfl, nofun,
      nofun⟩
    · have other := unused_ne inv np i unused (Or.inr (by rw [here]; exact some_ne_none r))
      refine ⟨?_, spared spares i other r here⟩
      simp [vacate, World.setTask, other]
    · refine undone_of_spares inv np unused rfl procs (fun i other => ?_) ?_ ?_ spares
      · simp [vacate, World.setTask, other]
      · simp [vacate, World.setTask, Proc.freeproc]
      · simp [vacate, World.setTask]
  · obtain ⟨_, empty⟩ := inv.bare np ((inv.idle np).mp (w.table.findUnused_state np unused))
    refine forkCopy_ends inv p np running target _ ⟨unused, kept, rfl, ⟨rfl, rfl, rfl⟩, fun i other => ?_, rfl, ?_, ?_, spares⟩
      ?_ spent
    · simp [occupy, World.setTask, other]
    · simp [occupy, World.setTask]
    · simp [occupy, World.setTask]
    · simp [occupy, World.setTask, empty]

theorem exit_runs (p : Slot) (running : (w.table.proc p).state = .running) (status : Int)
    (msg : Buffer 32) : Runs Fault (exit p status msg) w (fun _ w' => Next w w' ∧
      left (w'.table.proc p) = (Str.safestrcpy (w.table.proc p).exitMsg msg, status)) := by
  unfold exit
  apply Runs.after (get_ok w)
  by_cases init : p = w.table.initproc
  · rw [if_pos init]
    exact Or.inl ⟨_, w, rfl, Or.inl rfl⟩
  · rw [if_neg init]
    apply Ends.runs
    refine Ends.bind (closeFds_ends p inv.sound inv.files) ?_
    rintro _ w₁ ⟨filed, closed, others⟩
    apply Ends.after (get_ok w₁)
    cases exited : Sched.Lifecycle.exit w₁.table p status msg with
    | error message =>
      unfold Sched.Lifecycle.exit at exited
      rw [filed.quiet.init, if_neg init] at exited
      cases exited
    | ok k =>
      obtain ⟨alive, zombie, message⟩ := exit_alive w₁.table k p status msg exited
      rw [(filed.quiet.alive p).message] at message
      refine ⟨(), { w₁ with table := k }, rfl, next_slot inv p filed.kept filed.files (fun i other => ?_) ?_ ?_ ?_
        (fun gone => ?_) (fun before => ?_), message⟩
      · exact ⟨trans_of Alive (filed.quiet.alive i) (alive i other), congrFun filed.task i, fun fd => others i fd other⟩
      · rw [zombie, filed.task, ← inv.idle p, running]
        decide
      · rw [filed.task]
        exact inv.bare p
      · exact fun _ => closed
      · cases running.symm.trans gone
      · refine .step _ _ (.exit p status msg) (filed.quiet.reachable before) (fun i same => ?_) ?_
        · obtain rfl := Option.some.inj same
          exact filed.quiet.running p running
        · simp only [Sched.Lifecycle.perform, exited, Except.toOption]

theorem sysExit_runs (p : Slot) (running : (w.table.proc p).state = .running) (status : Int) (msg : Nat)
    (stack : Buffer 32) : Runs Fault (sysExit p status msg stack) w (fun _ w' => Next w w' ∧
      left (w'.table.proc p) =
        (Str.safestrcpy (w.table.proc p).exitMsg (overlay stack (readString (memoryOf w p) 32 msg).1), status)) := by
  obtain ⟨r, _, here, _, _⟩ := Inv.running inv p running
  unfold sysExit
  apply Runs.after (get_ok w)
  apply Runs.after (follow_run here)
  apply Runs.after (onMem_run (copyinstr_run w.mem r msg 32))
  rw [memoryOf_some here]
  exact exit_runs inv p running status _

theorem exitKilled_runs (p : Slot) (running : (w.table.proc p).state = .running) :
    Runs Fault (exitKilled p) w (fun _ w' => Next w w' ∧
      left (w'.table.proc p) = (Str.safestrcpy (w.table.proc p).exitMsg (w.table.proc p).exitMsg, -1)) := by
  unfold exitKilled
  apply Runs.after (get_ok w)
  exact exit_runs inv p running _ _

theorem next_table (k : Kernel) (alive : Kernel.Each Alive w.table k)
    (table : Reachable w.table → Reachable k) : Next w { w with table := k } := by
  refine ⟨⟨inv.sound, inv.files, fun i => ?_, inv.bare, fun i gone => ?_⟩, fun i => settled_of_alive (alive i), table⟩
  · rw [(alive i).unused]
    exact inv.idle i
  · rw [(alive i).unused, (alive i).zombie] at gone
    exact inv.closed i gone

theorem copyoutIf_ends (p : Slot) (r : Nat) (here : (w.task p).pagetable = some r) (addr : Nat)
    (bytes : List Byte) :
    Ends (copyoutIf r addr bytes) w (fun ok w' => ∃ s, w' = { w with mem := s } ∧ Next w w' ∧ SameTables w.mem s r ∧
      ((addr = 0 ∧ ok = true ∧ s = w.mem) ∨ (addr ≠ 0 ∧ Stored w.mem r [] addr bytes ok s))) := by
  unfold copyoutIf
  split_ifs with zero
  · exact Ends.pure ⟨w.mem, rfl, Next.refl inv, fun _ _ _ => rfl, Or.inl ⟨zero, rfl, rfl⟩⟩
  · apply Ends.weaken (onMem_ends (copyout_sound inv.sound p here addr bytes))
    rintro ok w' ⟨s, rfl, stored, sound⟩
    exact ⟨s, rfl, next_mem inv s sound, stored.tables, Or.inr ⟨zero, stored⟩⟩

theorem reap_ends (q pp : Slot) (running : (w.table.proc q).state = .running) (r addr dst : Nat)
    (here : (w.task q).pagetable = some r)
    (found : slots.find? (fun pp => decide ((w.table.proc pp).parent = some q ∧ (w.table.proc pp).state = .zombie)) = some pp) :
    Ends (do
      if ← copyoutIf r addr (intBytes (w.table.proc pp).xstate) then
        if ← copyoutIf r dst (List.ofFn (w.table.proc pp).exitMsg) then
          freeproc pp
          pure (some (w.table.proc pp).pid)
        else pure (some (-1))
      else pure (some (-1))) w (fun result w' => Next w w' ∧ Waited w q addr dst result w') := by
  have zombie : (w.table.proc pp).state = .zombie := by
    have holds := List.find?_some found
    simp only [decide_eq_true_eq] at holds
    exact holds.2
  have other : q ≠ pp := by
    rintro rfl
    cases running.symm.trans zombie
  have only : ∀ p r', slots.find? (fun pp => decide ((w.table.proc pp).parent = some q ∧ (w.table.proc pp).state = .zombie)) =
      some p → (w.task q).pagetable = some r' → p = pp ∧ r' = r := fun p r' found' here' =>
    ⟨Option.some.inj (found'.symm.trans found), Option.some.inj (here'.symm.trans here)⟩
  refine Ends.bind (copyoutIf_ends inv q r here addr _) ?_
  rintro copied _ ⟨s₁, rfl, next₁, tables₁, first⟩
  cases copied with
  | false =>
    refine Ends.pure ⟨next₁, waited_of_alive (Kernel.Each.refl _) fun p r' found' here' status mapped => ?_⟩
    obtain ⟨rfl, rfl⟩ := only p r' found' here'
    rcases first with ⟨_, impossible, _⟩ | ⟨nonzero, stored⟩
    · cases impossible
    · exact absurd (stored.complete.mpr fun va low high => status nonzero va low high) Bool.false_ne_true
  | true =>
    refine Ends.bind (copyoutIf_ends (w := { w with mem := s₁ }) next₁.inv q r here dst _) ?_
    rintro copied _ ⟨s₂, rfl, next₂, tables₂, second⟩
    cases copied with
    | false =>
      refine Ends.pure ⟨next_mem inv s₂ next₂.inv.sound,
        waited_of_alive (Kernel.Each.refl _) fun p r' found' here' _ mapped => ?_⟩
      obtain ⟨rfl, rfl⟩ := only p r' found' here'
      rcases second with ⟨_, impossible, _⟩ | ⟨_, stored⟩
      · cases impossible
      · refine absurd (stored.complete.mpr fun va low high => ?_) Bool.false_ne_true
        rw [translate_congr tables₁]
        exact mapped va low (by simpa using high)
    | true =>
      refine Ends.bind (freeproc_ends (w := { w with mem := s₂ }) pp next₂.inv.sound) ?_
      rintro _ _ ⟨s₃, rfl, freed, spares⟩
      obtain ⟨trapframe, _, shaped⟩ := next₂.inv.sound.spaces q r here
      have user := userByte_untouched shaped.reserved (spared spares q other r here)
      have gone : ∀ p, (w.table.proc p).state = .zombie → ((w.table.modify pp Proc.freeproc).proc p).state = .unused → p = pp := by
        intro p zombie' unused
        by_contra apart
        have same : (w.table.modify pp Proc.freeproc).proc p = w.table.proc p := Kernel.proc_modify_other apart
        cases zombie'.symm.trans ((congrArg Proc.state same).symm.trans unused)
      refine Ends.pure ⟨vacate_next inv pp s₃ { w with mem := s₂ } (Or.inr zombie) rfl (fun _ _ => rfl) (fun _ _ => rfl)
        freed (fun before => .step _ _ (.wait q true) before (fun i same => Option.some.inj same ▸ running) ?_),
        fun p r' zombie' unused asked here' => ?_, fun p r' zombie' unused asked apart here' => ?_, fun p r' found' _ _ _ => ?_⟩
      · simp only [Sched.Lifecycle.perform, Sched.Lifecycle.wait, found, if_true]
      · obtain rfl := Option.some.inj (here.symm.trans here')
        obtain rfl := gone p zombie' unused
        rcases second with ⟨zero, _⟩ | ⟨_, stored⟩
        · exact absurd zero asked
        · have bytes := stored.read
          rw [List.length_ofFn] at bytes
          rw [← bytes]
          exact congrArg (readBytes · 32 dst) (funext user)
      · obtain rfl := Option.some.inj (here.symm.trans here')
        obtain rfl := gone p zombie' unused
        rcases first with ⟨zero, _⟩ | ⟨_, stored⟩
        · exact absurd zero asked
        · rw [← stored.read]
          refine readBytes_congr 4 addr fun i inside => (user _).trans ?_
          rcases second with ⟨_, _, same⟩ | ⟨nonzero, second⟩
          · rw [same]
          · refine second.kept _ ?_
            rw [List.length_ofFn]
            omega
      · obtain ⟨rfl, _⟩ := only p r found' here
        refine ⟨rfl, ?_⟩
        change ((w.table.modify p Proc.freeproc).proc p).state = .unused
        simp [Proc.freeproc]

theorem wait_ends (p : Slot) (running : (w.table.proc p).state = .running) (addr dst : Nat) :
    Ends (wait p addr dst) w (fun result w' => Next w w' ∧ Waited w p addr dst result w') := by
  obtain ⟨r, _, here, _, _⟩ := Inv.running inv p running
  unfold wait
  apply Ends.after (get_ok w)
  cases found : slots.find? fun pp =>
      decide ((w.table.proc pp).parent = some p ∧ (w.table.proc pp).state = .zombie) with
  | some pp =>
    apply Ends.after (follow_run here)
    exact reap_ends inv p pp running r addr dst here found
  | none =>
    have nobody : ∀ {w' : World} {result : Option Int}, Kernel.Each Alive w.table w'.table → Waited w p addr dst result w' :=
      fun alive => waited_of_alive alive fun _ _ found' _ _ => by cases found.symm.trans found'
    simp only
    by_cases back : (∀ pp ∈ slots, (w.table.proc pp).parent ≠ some p) ∨ (w.table.proc p).killed
    · rw [if_pos back]
      exact Ends.pure ⟨Next.refl inv, nobody (Kernel.Each.refl _)⟩
    · rw [if_neg back]
      have asleep : Kernel.Each Alive w.table
          (w.table.modify p fun q => { q with chan := some (.proc p), state := .sleeping }) := by
        refine Kernel.Each.modify (alive_of_live ?_ ?_ rfl)
        · rw [running]
          decide
        · simp
      refine ⟨none, _, rfl, next_table inv _ asleep fun before => .step _ _ (.wait p false) before
        (fun i same => Option.some.inj same ▸ running) ?_, nobody asleep⟩
      simp only [Sched.Lifecycle.perform, Sched.Lifecycle.wait, found]
      rw [if_neg back]

theorem timer_runs (p : Slot) (running : (w.table.proc p).state = .running) :
    Runs Fault (Calls.timer p) w (fun _ w' => Next w w' ∧ ((w'.table.proc p).state = .zombie →
      left (w'.table.proc p) = (Str.safestrcpy (w.table.proc p).exitMsg (w.table.proc p).exitMsg, -1))) := by
  unfold Calls.timer
  apply Runs.after (get_ok w)
  by_cases killed : (w.table.proc p).killed
  · rw [if_pos killed]
    have ticked : Quiet w.table (clockintr w.table (some p)) := quiet_wakeup w.table (some p) .ticks
    have first := next_table inv _ ticked.alive ticked.reachable
    apply Runs.after (modify_ok _ w)
    apply Runs.weaken (exitKilled_runs first.inv p (ticked.running p running))
    rintro _ w' ⟨next, message⟩
    rw [(ticked.alive p).message] at message
    refine ⟨⟨next.inv, fun i gone => ?_, fun before => next.table (ticked.reachable before)⟩, fun _ => message⟩
    rw [← (ticked.alive i).left]
    exact next.settled i ((ticked.alive i).zombie.mpr gone)
  · rw [if_neg killed]
    refine Ends.runs ⟨(), _, rfl, next_table inv _ (alive_usertrapTimer _ p running) fun before => ?_, fun gone => ?_⟩
    · refine .step _ _ (.timer .user p) before (fun i same => Option.some.inj same ▸ running) ?_
      simp only [Sched.Lifecycle.perform, Sched.Lifecycle.quantum, killed]
      rfl
    · cases running.symm.trans ((alive_usertrapTimer w.table p running p).zombie.mp gone)

end

end Xv6.System.Processes
