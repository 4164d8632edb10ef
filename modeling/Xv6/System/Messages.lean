import Xv6.System.Stats

/-! The message that wait hands to a parent: what exit stored of it, and what was there before. -/

namespace Xv6.System.Messages
open Lib.Exec Lib.Bytes Sched.Table List
open Vm Vm.Memory Vm.UserMem Vm.Pages
open Ftable Calls Safe Descriptors Processes Spaces Boot Memory Stats

/-- How a process ends: by its own call, or killed. -/
inductive Ending where
  | exit (status : Int) (msg : Nat)
  | killed

/-- The operation that ends p; stack is what the array in sys_exit held. -/
inductive EndsBy (p : Slot) (stack : Buffer 32) : Ending → Op → Prop where
  | exit (status : Int) (msg : Nat) : EndsBy p stack (.exit status msg) (.exit p status msg stack)
  | trap : EndsBy p stack .killed (.killed p)
  | timer : EndsBy p stack .killed (.timer p)

def sent (w : World) (p : Slot) (stack : Buffer 32) : Ending → Buffer 32
  | .exit _ msg => overlay stack (readString (memoryOf w p) 32 msg).1
  | .killed => (w.table.proc p).exitMsg

theorem overlay_byte (stack : Buffer 32) (bytes : List Byte) (i : Fin 32) :
    byteAt (overlay stack bytes) i.val = if i.val < bytes.length then bytes.getD i.val 0 else stack i := by
  rw [byteAt_fin, overlay]
  split_ifs with inside
  · rw [getD_eq_getElem _ _ inside, getD_eq_getElem _ _ inside]
  · rw [getD_eq_default _ _ (by omega)]

theorem sent_eq_iff (stack₁ stack₂ : Buffer 32) (bytes : List Byte) (n : Nat) (bound : n ≤ 32) :
    (∀ j < n, byteAt (overlay stack₁ bytes) j = byteAt (overlay stack₂ bytes) j) ↔
      ∀ i : Fin 32, bytes.length ≤ i.val → i.val < n → stack₁ i = stack₂ i := by
  constructor
  · intro same i beyond inside
    have byte := same i.val inside
    rwa [overlay_byte, overlay_byte, if_neg (by omega), if_neg (by omega)] at byte
  · intro same j inside
    have byte := same ⟨j, by omega⟩
    rw [overlay_byte stack₁ bytes ⟨j, by omega⟩, overlay_byte stack₂ bytes ⟨j, by omega⟩]
    split_ifs with read
    · rfl
    · exact byte (by omega) inside

theorem of_runs {w w' : World} {fault : String → Prop} {prog : Sys Unit} {post : Unit → World → Prop} (runs : Runs fault prog w post)
    (ran : prog w = .ok () w') : post () w' := by
  rcases runs with ⟨_, _, failed, _⟩ | ⟨_, w'', ran', holds⟩
  · cases failed.symm.trans ran
  · obtain ⟨_, rfl⟩ := EStateM.Result.ok.inj (ran'.symm.trans ran)
    exact holds

section
variable [Layout] {w w' : World} {p : Slot}

/-- Steps that leave the zombie unreaped. -/
inductive Later (p : Slot) : World → World → Prop where
  | refl (w : World) : Later p w w
  | step (w w' w'' : World) (op : Op) (before : Later p w w') (steps : Steps w' op w'')
      (zombie : (w''.table.proc p).state = .zombie) : Later p w w''

/-- A run in which p ends, and a wait of its parent q later reaps it and fills the buffer at dst with the bytes. -/
inductive Delivers (p : Slot) (ending : Ending) (stack : Buffer 32) (w : World) : List Byte → Prop where
  | run (op : Op) (w₁ w₂ w₃ : World) (q : Slot) (addr dst r : Nat) (pid : Int) (bytes : List Byte)
      (reachable : Reachable w) (how : EndsBy p stack ending op) (ended : Steps w op w₁)
      (zombie : (w₁.table.proc p).state = .zombie) (later : Later p w₁ w₂) (running : (w₂.table.proc q).state = .running)
      (waited : wait q addr dst w₂ = .ok (some pid) w₃) (reaped : (w₃.table.proc p).state = .unused) (asked : dst ≠ 0)
      (space : (w₂.task q).pagetable = some r) (received : readBytes (userByte w₃.mem r) 32 dst = some bytes) :
      Delivers p ending stack w bytes

theorem steps_next (inv : Safe.Inv w) (op : Op) (steps : Steps w op w') : Next w w' :=
  of_runs (perform_runs inv op steps.running) steps.performed

theorem later_left (inv : Safe.Inv w) (zombie : (w.table.proc p).state = .zombie) (later : Later p w w') :
    Safe.Inv w' ∧ (w'.table.proc p).state = .zombie ∧ left (w'.table.proc p) = left (w.table.proc p) := by
  induction later with
  | refl => exact ⟨inv, zombie, rfl⟩
  | step w' w'' op _ steps still ih =>
    obtain ⟨inv', zombie', message⟩ := ih
    have next := steps_next inv' op steps
    refine ⟨next.inv, still, ?_⟩
    rcases next.settled p zombie' with gone | ⟨_, same⟩
    · cases gone.symm.trans still
    · exact same.trans message

def Ending.status : Ending → Int
  | .exit status _ => status
  | .killed => -1

theorem ended_left (inv : Safe.Inv w) (ending : Ending) (stack : Buffer 32) (op : Op) (how : EndsBy p stack ending op)
    (ended : Steps w op w') (zombie : (w'.table.proc p).state = .zombie) :
    left (w'.table.proc p) = (Str.safestrcpy (w.table.proc p).exitMsg (sent w p stack ending), ending.status) := by
  have running := ended.running
  have performed := ended.performed
  cases how with
  | exit status msg => exact (of_runs (sysExit_runs inv p (running p rfl) status msg stack) performed).2
  | timer => exact (of_runs (timer_runs inv p (running p rfl)) performed).2 zombie
  | trap =>
    have alive := running p rfl
    replace performed : (if (w.table.proc p).killed then exitKilled p else pure ()) w = .ok () w' :=
      (bind_ok (get_ok w)).symm.trans performed
    split_ifs at performed with killed
    · exact (of_runs (exitKilled_runs inv p alive) performed).2
    · obtain ⟨_, rfl⟩ := EStateM.Result.ok.inj performed
      cases alive.symm.trans zombie

theorem delivered (ending : Ending) (stack : Buffer 32) (bytes : List Byte) (delivers : Delivers p ending stack w bytes) :
    bytes = List.ofFn (Str.safestrcpy (w.table.proc p).exitMsg (sent w p stack ending)) := by
  cases delivers with
  | run op w₁ w₂ w₃ q addr dst r pid _ reachable how ended zombie later running waited reaped asked space received =>
    obtain ⟨inv, _⟩ := reachable_inv w reachable
    have stored := ended_left inv ending stack op how ended zombie
    obtain ⟨inv₂, zombie₂, same⟩ := later_left (steps_next inv op ended).inv zombie later
    obtain ⟨_, w', ran, _, waits⟩ := wait_ends inv₂ q running addr dst
    obtain ⟨_, rfl⟩ := EStateM.Result.ok.inj (ran.symm.trans waited)
    have read := waits.delivers p r zombie₂ reaped asked space
    rw [show (w₂.table.proc p).exitMsg = _ from congrArg Prod.fst (same.trans stored)] at read
    exact Option.some.inj (received.symm.trans read)

/-- The memory that the ending reads is the same in both states. -/
def Agree (w₁ : World) (p₁ : Slot) (w₂ : World) (p₂ : Slot) : Ending → Prop
  | .exit _ msg => ∀ i < 32, memoryOf w₁ p₁ (msg + i) = memoryOf w₂ p₂ (msg + i)
  | .killed => True

/-- The bytes of the kernel stack that exit copies are the same in both states, and so are the bytes of the
earlier message that it leaves. -/
def SameLeftovers (w₁ : World) (p₁ : Slot) (stack₁ : Buffer 32) (w₂ : World) (p₂ : Slot) (stack₂ : Buffer 32) : Ending → Prop
  | .exit status msg =>
      (∀ i : Fin 32, (readString (memoryOf w₁ p₁) 32 msg).1.length ≤ i.val →
        i.val < Str.taken 32 (sent w₁ p₁ stack₁ (.exit status msg)) → stack₁ i = stack₂ i) ∧
      ∀ i : Fin 32, Str.taken 32 (sent w₁ p₁ stack₁ (.exit status msg)) < i.val →
        (w₁.table.proc p₁).exitMsg i = (w₂.table.proc p₂).exitMsg i
  | .killed => ∀ i : Fin 32, i.val ≠ Str.taken 32 (w₁.table.proc p₁).exitMsg →
      (w₁.table.proc p₁).exitMsg i = (w₂.table.proc p₂).exitMsg i

/-- Two parents receive the same message exactly if the leftovers are the same. -/
theorem delivered_eq_iff (w₁ w₂ : World) (p₁ p₂ : Slot) (ending : Ending) (stack₁ stack₂ : Buffer 32)
    (bytes₁ bytes₂ : List Byte) (run₁ : Delivers p₁ ending stack₁ w₁ bytes₁) (run₂ : Delivers p₂ ending stack₂ w₂ bytes₂)
    (agree : Agree w₁ p₁ w₂ p₂ ending) : bytes₁ = bytes₂ ↔ SameLeftovers w₁ p₁ stack₁ w₂ p₂ stack₂ ending := by
  rw [delivered ending stack₁ bytes₁ run₁, delivered ending stack₂ bytes₂ run₂, ofFn_inj, Str.safestrcpy_eq_iff]
  cases ending with
  | exit status msg =>
    have bound := Str.taken_lt 32 (by decide) (sent w₁ p₁ stack₁ (.exit status msg))
    refine and_congr_left fun _ => ?_
    simp only [sent]
    rw [← readString_congr _ _ 32 msg agree]
    exact sent_eq_iff stack₁ stack₂ _ _ bound.le
  | killed =>
    have bound := Str.taken_lt 32 (by decide) (w₁.table.proc p₁).exitMsg
    simp only [sent, SameLeftovers]
    constructor
    · rintro ⟨before, after⟩ i other
      rcases Nat.lt_or_gt_of_ne other with low | high
      · have byte := before i.val low
        rwa [byteAt_fin, byteAt_fin] at byte
      · exact after i high
    · intro same
      refine ⟨fun j inside => ?_, fun i outside => same i (by omega)⟩
      have byte := same ⟨j, by omega⟩ (Nat.ne_of_lt inside)
      exact (byteAt_fin _ ⟨j, _⟩).trans (byte.trans (byteAt_fin _ ⟨j, _⟩).symm)

theorem exit_run (status : Int) (msg : Buffer 32) (closed : ∀ fd, w.files.ofile (p, fd) = none) (k : Kernel)
    (exited : Sched.Lifecycle.exit w.table p status msg = .ok k) : Calls.exit p status msg w = .ok () { w with table := k } := by
  have other : p ≠ w.table.initproc := by
    intro init
    rw [Sched.Lifecycle.exit, if_pos init] at exited
    cases exited
  unfold Calls.exit
  rw [bind_ok (get_ok w), if_neg other, bind_ok (closeFds_idle p closed), bind_ok (get_ok w), exited]
  rfl

def someStack (b : Bool) : Buffer 32 := fun _ => if b then 1 else 2

def exitedTable (b : Bool) : Kernel :=
  match Sched.Lifecycle.exit forkedTable 1 0 (someStack b) with
  | .ok k => k
  | .error _ => forkedTable

theorem exited_run (table : w.table = forkedTable) (files : w.files = Files.empty) (inv : Safe.Inv w) (b : Bool) :
    Steps w (.exit 1 0 MAXVA (someStack b)) { w with table := exitedTable b } := by
  have running : (w.table.proc 1).state = .running := by
    rw [table]
    decide +kernel
  obtain ⟨r, _, here, _, _⟩ := Inv.running inv 1 running
  have unread : readString (userByte w.mem r) 32 MAXVA = ([], false) := by
    refine readString_unreached _ 32 MAXVA (userByte_none ?_)
    unfold UserMem.translate
    rw [if_pos le_rfl]
  refine ⟨fun q same => Option.some.inj same ▸ running, ?_⟩
  change sysExit 1 0 MAXVA (someStack b) w = _
  unfold sysExit
  rw [bind_ok (get_ok w), bind_ok (follow_run here),
    bind_ok (onMem_run (copyinstr_run w.mem r MAXVA 32)), unread]
  refine exit_run 0 _ (fun fd => by rw [files]; rfl) _ ?_
  rw [table]
  cases b <;> rfl

theorem child_delivers (reachable : Reachable w) (table : w.table = forkedTable) (files : w.files = Files.empty) (r : Nat)
    (here : (w.task 0).pagetable = some r) (program : ∀ va < PGSIZE, userByte w.mem r va = some (initcode.getD va 0))
    (b : Bool) : Delivers 1 (.exit 0 MAXVA) (someStack b) w (List.ofFn ((exitedTable b).proc 1).exitMsg) := by
  obtain ⟨inv, _⟩ := reachable_inv w reachable
  have ended := exited_run table files inv b
  have next := steps_next inv _ ended
  have zombie : ((exitedTable b).proc 1).state = .zombie := by
    cases b <;> decide +kernel
  have found : slots.find? (fun pp => decide (((exitedTable b).proc pp).parent = some 0 ∧
      ((exitedTable b).proc pp).state = .zombie)) = some 1 := by
    cases b <;> decide +kernel
  have running : ((exitedTable b).proc 0).state = .running := by
    cases b <;> decide +kernel
  obtain ⟨result, w₃, waited, _, waits⟩ := wait_ends (w := { w with table := exitedTable b }) next.inv 0 running 0 64
  obtain ⟨rfl, reaped⟩ := waits.reaps 1 r found here (absurd rfl) fun va _ high =>
    translate_of_byte (program va (lt_trans high (by decide)))
  exact .run _ _ _ w₃ 0 0 64 r _ _ reachable (.exit 0 MAXVA) ended zombie (.refl _) running waited reaped (by decide) here
    (waits.delivers 1 r zombie reaped (by decide) here)

end

/-- Two runs with one exit call in one state: init receives the kernel stack of its child. -/
theorem message_leaks_stack : ∃ w bytes₁ bytes₂, @Delivers linked 1 (.exit 0 MAXVA) (someStack true) w bytes₁ ∧
    @Delivers linked 1 (.exit 0 MAXVA) (someStack false) w bytes₂ ∧ Agree w 1 w 1 (.exit 0 MAXVA) ∧ bytes₁ ≠ bytes₂ := by
  let _ := linked
  obtain ⟨w, reachable, table, files, _, r, here, program⟩ := forked_reachable
  refine ⟨w, _, _, child_delivers reachable table files r here program true,
    child_delivers reachable table files r here program false, fun _ _ => rfl, ?_⟩
  decide +kernel

theorem delivered_eq_iff_forked : ∃ w bytes₁ bytes₂, @Delivers linked 1 (.exit 0 MAXVA) (someStack true) w bytes₁ ∧
    (bytes₁ = bytes₂ ↔ SameLeftovers w 1 (someStack true) w 1 (someStack false) (.exit 0 MAXVA)) := by
  let _ := linked
  obtain ⟨w, reachable, table, files, _, r, here, program⟩ := forked_reachable
  have run₁ := child_delivers reachable table files r here program true
  have run₂ := child_delivers reachable table files r here program false
  exact ⟨w, _, _, run₁, delivered_eq_iff w w 1 1 _ _ _ _ _ run₁ run₂ fun _ _ => rfl⟩

end Xv6.System.Messages
