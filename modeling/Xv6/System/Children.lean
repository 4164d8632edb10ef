import Xv6.Lib.Extend
import Xv6.System.Growth
import Xv6.Vm.Permissions

/-! fork: what is left of one that failed, and what a child shares with its parent. -/

namespace Xv6.System.Children
open Lib.Ownership Lib.Exec Lib.Extend Lib.Bytes Sched.Table Option
open Vm Vm.Memory Vm.Pagetable Vm.Space Vm.Walk Vm.Alloc Vm.UserMem Vm.Pages
open Ftable Calls Safe Descriptors Processes Spaces Boot Stats

/-- The working directories and the reference counts of the inode table. -/
structure Inodes where
  cwd : Slot → Option (Fin NINODE)
  ref : Fin NINODE → Nat

def Inodes.idup (t : Inodes) (np : Slot) (ip : Fin NINODE) : Inodes where
  cwd := Function.update t.cwd np (some ip)
  ref := Function.update t.ref ip (t.ref ip + 1)

abbrev Full := EStateM String (World × Inodes)

/-- The line of fork that follows the loop over the descriptors. -/
def dupCwd (p np : Slot) : Full Unit := do
  let (w, t) ← get
  match t.cwd p with
  | none => throw "kerneltrap"
  | some ip => set (w, t.idup np ip)

section
variable [Layout]

def forkFull (p : Slot) : Full (Option Slot) := forkIn (fun prog => onFirst prog) (dupCwd p) p

end

theorem dupCwd_run (p np : Slot) (w : World) (t : Inodes) : dupCwd p np (w, t) =
    match t.cwd p with
    | none => .error "kerneltrap" (w, t)
    | some ip => .ok () (w, t.idup np ip) := by
  change (match t.cwd p with | none => throw "kerneltrap" | some ip => set (w, t.idup np ip) : Full Unit) (w, t) = _
  cases t.cwd p <;> rfl

def Housed (p : Slot) (t : Inodes) : Prop := t.cwd p ≠ none

theorem dupCwd_simulates {B : Type} {w : World} {t : Inodes} {p : Slot} (np : Slot) {next : Unit → Full B}
    {next' : Unit → Sys B} {after : B → Inodes → Prop}
    (rest : ∀ ip, t.cwd p = some ip → Simulates (Housed p) (next ()) (next' ()) w (t.idup np ip) after) :
    Simulates (Housed p) (dupCwd p np >>= next) (pure () >>= next') w t after := by
  have ran := dupCwd_run p np w t
  cases here : t.cwd p with
  | none =>
    rw [here] at ran
    exact .failed ran (not_not_intro here)
  | some ip =>
    rw [here] at ran
    refine .second ran (fun _ => ?_) (rest ip here)
    simp only [Housed, Inodes.idup, Function.update_apply, here]
    split <;> exact some_ne_none ip

section
variable [Layout] {w : World} {t : Inodes}

/-- The inode table is as it was, unless fork gave the child a working directory. -/
theorem forkFull_simulates (p : Slot) : Simulates (Housed p) (forkFull p) (fork p) w t fun result t' =>
    match result with
    | none => t' = t
    | some np => ∃ ip, t.cwd p = some ip ∧ t' = t.idup np ip := by
  refine .first fun result w₁ => ?_
  cases result with
  | none => exact .pure rfl
  | some np =>
    unfold forkCopy
    refine .first fun w' w₂ => .first fun old w₃ => .first fun new w₄ => .first fun copied w₅ => ?_
    cases copied with
    | true =>
      refine .first fun _ w₆ => .first fun source w₇ => .first fun target w₈ => ?_
      refine .first fun _ w₉ => .first fun _ w₁₀ => dupCwd_simulates np fun ip here => ?_
      exact .first fun _ _ => .first fun _ _ => .pure ⟨ip, here, rfl⟩
    | false => exact .first fun _ _ => .pure rfl

/-- Every process has the size, the translations and the memory that it had. -/
structure Intact (w w' : World) : Prop where
  tasks : w'.task = w.task
  leaves : ∀ i r v, (w.task i).pagetable = some r → userVpn v → leafAt w'.mem r v = leafAt w.mem r v
  data : ∀ i r v pte, (w.task i).pagetable = some r → userVpn v → leafAt w.mem r v = some pte →
    w'.mem.page (PTE2PA pte) = w.mem.page (PTE2PA pte)

theorem intact_of_grown {w : World} {p : Slot} {r : Nat} {s : Mem} (inv : Inv w) (here : (w.task p).pagetable = some r)
    (grown : Grown userVpn w.mem r [] s) : Intact w { w with mem := s } := by
  have others : ∀ i r', i ≠ p → (w.task i).pagetable = some r' → Untouched w.mem s (.proc i) r' := by
    intro i r' other here'
    have step := grown.step
    rw [← here] at step
    exact spared (spares_space w inv.sound.good step (fun _ _ => rfl) rfl ⟨rfl, rfl, rfl⟩) i other r' here'
  refine ⟨rfl, fun i r' v here' user => ?_, fun i r' v pte here' user leaf => ?_⟩
  · by_cases own : i = p
    · subst own
      obtain rfl := Option.some.inj (here.symm.trans here')
      exact grown.leaves v
    · exact leafAt_congr (others i r' own here').tables v
  · by_cases own : i = p
    · subst own
      obtain rfl := Option.some.inj (here.symm.trans here')
      exact grown.data (.leaf v) _ (Owns.leaf r pte v rfl user leaf) nofun nofun
    · exact (others i r' own here').data v pte user leaf

/-- Wherever memory runs out, a growth that returns -1 leaves all user memory as it was, and a fork that returns -1
leaves every process, every count and every page as it was. -/
theorem failures_undone (w : World) (reachable : Reachable w) (p : Slot) (running : (w.table.proc p).state = .running) :
    (∀ n : BitVec 32, ∃ result w', growproc p n.toInt w = .ok result w' ∧ (result = false → Intact w w')) ∧
      ∀ t w' t', forkFull p (w, t) = .ok none (w', t') →
        Undone w w' ∧ w'.mem.freelist.Perm w.mem.freelist ∧ t' = t := by
  obtain ⟨inv, _⟩ := reachable_inv w reachable
  obtain ⟨r, _, here, _, _⟩ := Inv.running inv p running
  constructor
  · intro n
    have most := BitVec.toInt_lt (x := n)
    obtain ⟨result, w', ran, resized⟩ := growproc_resizes inv p r here n.toInt (by omega)
    refine ⟨result, w', ran, fun failed => ?_⟩
    subst failed
    cases resized with
    | full s more grown => exact intact_of_grown inv here grown
  · intro t w' t' ran
    obtain ⟨plain, same⟩ := (forkFull_simulates p).run none w' t' ran
    obtain ⟨result, w'', ran', next, forked⟩ := fork_ends inv p running
    obtain ⟨rfl, rfl⟩ := EStateM.Result.ok.inj (ran'.symm.trans plain)
    have undone := forked.undone rfl
    exact ⟨undone, inv.sound.good.freelist_perm next.inv.sound.good undone.uses, same⟩

end

theorem failures_undone_init : ∃ w, @Reachable linked w ∧
    (∀ n : BitVec 32, ∃ result w', @growproc linked 0 n.toInt w = .ok result w' ∧ (result = false → Intact w w')) ∧
      ∀ t w' t', @forkFull linked 0 (w, t) = .ok none (w', t') →
        Undone w w' ∧ w'.mem.freelist.Perm w.mem.freelist ∧ t' = t := by
  let _ := linked
  obtain ⟨w, started⟩ := init_starts
  exact ⟨w, started.reachable, failures_undone w started.reachable 0 started.running⟩

/-- A write to the memory of a process: a store by its program, or a copy by the kernel. -/
inductive Write where
  | user (va : Nat) (bytes : List Byte)
  | kernel (va : Nat) (bytes : List Byte)

section
variable [Layout]

/-- A store goes through if the program may write every byte of it; a fault stores nothing. -/
def write (q : Slot) : Write → Sys Unit
  | .kernel va bytes => store q va bytes
  | .user va bytes => do
      let w ← get
      let r ← follow (w.task q).pagetable
      if ∀ k < bytes.length, (leafAt w.mem r (vpn (va + k))).any (decide <| Permissions.Writable ·) then store q va bytes
      else pure ()

def writes (history : List (Slot × Write)) : Sys Unit := forM history fun (q, access) => write q access

variable {w : World}

/-- A write changes no pointer, and no memory but that of its process. -/
structure Wrote (w : World) (q : Slot) (w' : World) : Prop where
  inv : Inv w'
  tasks : w'.task = w.task
  others : ∀ j, j ≠ q → memoryOf w' j = memoryOf w j

theorem store_wrote (inv : Inv w) (q : Slot) (r : Nat) (here : (w.task q).pagetable = some r) (va : Nat)
    (bytes : List Byte) : Ends (store q va bytes) w (fun _ w' => Wrote w q w') := by
  unfold store
  apply Ends.after (get_ok w)
  apply Ends.after (follow_run here)
  refine Ends.bind (onMem_ends (copyout_sound inv.sound q here va bytes)) ?_
  rintro _ _ ⟨s, rfl, stored, sound⟩
  have step := stored.step
  rw [← show (holders w [] none).root (.proc q) = some r from here] at step
  refine Ends.pure ⟨(next_mem inv s sound).inv, rfl, fun j other => ?_⟩
  cases there : (w.task j).pagetable with
  | none =>
    funext va
    simp only [memoryOf, there, bind_none]
  | some r' =>
    obtain ⟨trapframe, _, shaped⟩ := inv.sound.spaces j r' there
    have untouched := inv.sound.good.untouched (.proc q) (.proc j) (fun same => other (Owner.proc.inj same)) step r' there
    rw [memoryOf_some there, @memoryOf_some { w with mem := s } j r' there]
    exact funext (userByte_untouched shaped.reserved untouched)

theorem write_wrote (inv : Inv w) (q : Slot) (r : Nat) (here : (w.task q).pagetable = some r) (access : Write) :
    Ends (write q access) w (fun _ w' => Wrote w q w') := by
  cases access with
  | kernel va bytes => exact store_wrote inv q r here va bytes
  | user va bytes =>
    unfold write
    apply Ends.after (get_ok w)
    apply Ends.after (follow_run here)
    split_ifs
    · exact store_wrote inv q r here va bytes
    · exact Ends.pure ⟨inv, rfl, fun _ _ => rfl⟩

theorem writes_kept (inv : Inv w) (history : List (Slot × Write))
    (spaces : ∀ entry ∈ history, (w.task entry.1).pagetable ≠ none) :
    Ends (writes history) w (fun _ w' => Inv w' ∧ w'.task = w.task) := by
  refine Ends.weaken (Ends.forM _ history (fun rest w' => Inv w' ∧ w'.task = w.task ∧ ∀ entry ∈ rest,
    (w.task entry.1).pagetable ≠ none) w ⟨inv, rfl, spaces⟩ ?_) fun _ _ holds => ⟨holds.1, holds.2.1⟩
  rintro ⟨q, access⟩ rest w' ⟨inv', same, left⟩
  obtain ⟨r, here⟩ := ne_none_iff_exists'.mp (left _ List.mem_cons_self)
  apply Ends.weaken (write_wrote inv' q r (by rw [same]; exact here) access)
  intro _ w'' wrote
  exact ⟨wrote.inv, wrote.tasks.trans same, fun entry later => left entry (List.mem_cons_of_mem _ later)⟩

/-- The child has the size, the pages with their flags and the registers of its parent, but for the result of fork; and
after any writes to the memory of either, a write to that of one changes nothing that the other reads. -/
theorem fork_duplicates (w : World) (reachable : Reachable w) (p : Slot) (running : (w.table.proc p).state = .running)
    (t : Inodes) (np : Slot) (w' : World) (t' : Inodes) (ran : forkFull p (w, t) = .ok (some np) (w', t')) :
    Copied w p np w' ∧
      (∀ source, (w.task p).trapframe = some source → ∃ target, (w'.task np).trapframe = some target ∧
        ∀ i < sizeofTrapframe, byteAt (w'.mem.page target) i = byteAt (setLE (w.mem.page source) a0 8 0) i) ∧
      ∀ history : List (Slot × Write), (∀ entry ∈ history, entry.1 = p ∨ entry.1 = np) →
        ∃ w₁, writes history w' = .ok () w₁ ∧ ∀ q other access, (q = p ∧ other = np) ∨ (q = np ∧ other = p) →
          ∃ w₂, write q access w₁ = .ok () w₂ ∧ memoryOf w₂ other = memoryOf w₁ other := by
  obtain ⟨inv, _⟩ := reachable_inv w reachable
  obtain ⟨plain, _⟩ := (forkFull_simulates p).run (some np) w' t' ran
  obtain ⟨result, w'', ran', next, forked⟩ := fork_ends inv p running
  obtain ⟨rfl, rfl⟩ := EStateM.Result.ok.inj (ran'.symm.trans plain)
  obtain ⟨unused, _⟩ := forked.born np rfl
  have different := unused_ne inv np p unused (Or.inl running)
  obtain ⟨old, source, oldHere, sourceHere, _⟩ := Inv.running inv p running
  have spaces : ∀ q, q = p ∨ q = np → (w''.task q).pagetable ≠ none := by
    rintro q (rfl | rfl)
    · rw [(forked.others q old oldHere).1, oldHere]
      exact some_ne_none _
    · intro none
      obtain ⟨target, there, _⟩ := forked.registers q source rfl sourceHere
      cases there.symm.trans (next.inv.bare q none).1
  refine ⟨forked.copied np rfl, fun source here => forked.registers np source rfl here, fun history sides => ?_⟩
  obtain ⟨_, w₁, ran₁, inv₁, same₁⟩ := writes_kept next.inv history fun entry member => spaces _ (sides entry member)
  refine ⟨w₁, ran₁, fun q other access pair => ?_⟩
  obtain ⟨r, here⟩ := ne_none_iff_exists'.mp (spaces q (pair.imp And.left And.left))
  obtain ⟨_, w₂, ran₂, wrote⟩ := write_wrote inv₁ q r (by rw [same₁]; exact here) access
  refine ⟨w₂, ran₂, wrote.others other ?_⟩
  rcases pair with ⟨rfl, rfl⟩ | ⟨rfl, rfl⟩
  · exact different.symm
  · exact different

end

theorem fork_duplicates_init : ∃ w np w', @Reachable linked w ∧
    (∃ t t', @forkFull linked 0 (w, t) = .ok (some np) (w', t')) ∧ Copied w 0 np w' ∧
      (∀ source, (w.task 0).trapframe = some source → ∃ target, (w'.task np).trapframe = some target ∧
        ∀ i < sizeofTrapframe, byteAt (w'.mem.page target) i = byteAt (setLE (w.mem.page source) a0 8 0) i) ∧
      ∀ history : List (Slot × Write), (∀ entry ∈ history, entry.1 = 0 ∨ entry.1 = np) →
        ∃ w₁, writes history w' = .ok () w₁ ∧ ∀ q other access, (q = 0 ∧ other = np) ∨ (q = np ∧ other = 0) →
          ∃ w₂, write q access w₁ = .ok () w₂ ∧ memoryOf w₂ other = memoryOf w₁ other := by
  let _ := linked
  obtain ⟨w, w', started, ran, _⟩ := init_forks
  obtain ⟨t', full⟩ := (forkFull_simulates (w := w) (t := ⟨fun _ => some ⟨0, by decide⟩, fun _ => 1⟩) 0).back (some_ne_none _) _ _ ran
  exact ⟨w, 1, w', started.reachable, ⟨_, t', full⟩,
    fork_duplicates w started.reachable 0 started.running _ 1 w' t' full⟩

end Xv6.System.Children
