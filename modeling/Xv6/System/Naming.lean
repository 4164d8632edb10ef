import Xv6.System.Stats

/-! The calls that take a pid search the whole process table, whose unused slots have a pid too: 0. -/

namespace Xv6.System.Naming
open Lib.Exec Sched.Table Sched.Lifecycle List
open Vm Vm.Memory Vm.UserMem
open Calls Safe Boot Memory Stats

inductive Call where
  | kill (pid : Int)
  | cfsStats (add : Nat) (pid : Int)
  | psPriority (pid : Int)

def Call.pid : Call → Int
  | .kill pid | .cfsStats _ pid | .psPriority pid => pid

/-- The slot whose fields the call reads and writes: the first with the pid, or the last. -/
def Call.slot (k : Kernel) : Call → Option Slot
  | .kill pid | .cfsStats _ pid => k.findPid pid
  | .psPriority pid => k.getPsPriority pid

def Names (k : Kernel) (pid : Int) (i : Slot) : Prop := (k.proc i).state ≠ .unused ∧ (k.proc i).pid = pid

instance (k : Kernel) (pid : Int) (i : Slot) : Decidable (Names k pid i) := inferInstanceAs (Decidable (_ ∧ _))

section Search
variable {k : Kernel} {pid : Int} {i : Slot}

theorem findPid_some (found : k.findPid pid = some i) : (k.proc i).pid = pid := by
  simpa using List.find?_some found

theorem slot_some {call : Call} (found : call.slot k = some i) : (k.proc i).pid = call.pid := by
  cases call with
  | kill pid | cfsStats add pid => exact findPid_some found
  | psPriority pid => exact Kernel.getPsPriority_some found

end Search

def Call.run : Call → Sys Int
  | .kill pid => fun w => .ok (w.table.kill pid).2 { w with table := (w.table.kill pid).1 }
  | .cfsStats add pid => do
      let ok ← getCfsStats add pid
      pure (if ok then 0 else -1)
  | .psPriority pid => do
      let w ← get
      pure (w.table.sysGetPsPriority pid)

/-- What a call should do: succeed only for a process that is there, touch only that one, and otherwise leave the table.
The child of a later fork is as if the call had not been made. -/
structure Named (w : World) (call : Call) (r : Int) (w' : World) : Prop where
  success : r ≠ -1 → ∃ i, Names w.table call.pid i
  settles : ∀ i, call.slot w.table = some i → Names w.table call.pid i
  others : ∀ i, ¬Names w.table call.pid i → w'.table.proc i = w.table.proc i
  absent : (∀ i, ¬Names w.table call.pid i) → r = -1 ∧ w'.table = w.table
  later : ∀ p memory c, (fork w.table p memory).1 = some c →
    (fork w'.table p memory).1 = some c ∧ (fork w'.table p memory).2.proc c = (fork w.table p memory).2.proc c

theorem fork_later {k k' : Kernel} (next : k'.nextpid = k.nextpid)
    (states : ∀ i, (k'.proc i).state = .unused ↔ (k.proc i).state = .unused)
    (free : ∀ i, (k.proc i).state = .unused → k'.proc i = k.proc i) (p : Slot) (memory : ForkMemory) (c : Slot)
    (child : (fork k p memory).1 = some c) :
    (fork k' p memory).1 = some c ∧ (fork k' p memory).2.proc c = (fork k p memory).2.proc c := by
  have same : k'.findUnused = k.findUnused := by simp only [Kernel.findUnused, states]
  cases found : k.findUnused with
  | none =>
    rw [fork_none k p memory found] at child
    cases child
  | some i =>
    rw [fork_some k p i memory found] at child ⊢
    rw [fork_some k' p i memory (same.trans found)]
    split_ifs at child ⊢
    obtain rfl := Option.some.inj child
    rw [Kernel.proc_modify_same, Kernel.proc_modify_same, next]
    exact ⟨rfl, congrArg _ (free i (k.findUnused_state i found))⟩

theorem getCfsStats_table {w w' : World} {add : Nat} {pid : Int} {ok : Bool} (ran : getCfsStats add pid w = .ok ok w') :
    w'.table = w.table := by
  unfold getCfsStats at ran
  rw [bind_ok (get_ok w)] at ran
  cases found : w.table.findPid pid with
  | none =>
    simp only [found] at ran
    obtain ⟨rfl, rfl⟩ := EStateM.Result.ok.inj ran
    rfl
  | some i =>
    simp only [found] at ran
    by_cases far : MAXVA ≤ add
    · rw [if_pos far] at ran
      obtain ⟨rfl, rfl⟩ := EStateM.Result.ok.inj ran
      rfl
    · rw [if_neg far] at ran
      cases here : (w.task i).pagetable with
      | none =>
        rw [here] at ran
        cases ran
      | some r =>
        rw [bind_ok (by rw [here]; rfl)] at ran
        simp only [onMem] at ran
        split at ran
        · obtain ⟨rfl, rfl⟩ := EStateM.Result.ok.inj ran
          rfl
        · cases ran

theorem kill_named (w : World) (pid : Int)
    (live : ∀ i, w.table.findPid pid = some i → (w.table.proc i).state ≠ .unused) :
    Named w (.kill pid) (w.table.kill pid).2 { w with table := (w.table.kill pid).1 } := by
  cases found : w.table.findPid pid with
  | none =>
    have unchanged : w.table.kill pid = (w.table, -1) := by simp only [Kernel.kill, found]
    rw [unchanged]
    exact ⟨absurd rfl, fun i here => (nomatch here.symm.trans found), fun i _ => rfl, fun _ => ⟨rfl, rfl⟩,
      fun _ _ _ child => ⟨child, rfl⟩⟩
  | some i =>
    have names : Names w.table pid i := ⟨live i found, findPid_some found⟩
    have killed : w.table.kill pid = (w.table.modify i Proc.kill, 0) := by simp only [Kernel.kill, found]
    rw [killed]
    have others : ∀ j, ¬Names w.table pid j → (w.table.modify i Proc.kill).proc j = w.table.proc j :=
      fun j other => Kernel.proc_modify_other fun same => other (same ▸ names)
    refine ⟨fun _ => ⟨i, names⟩, fun j here => ?_, others, fun nobody => absurd names (nobody i),
      fork_later rfl (fun j => ?_) fun j unused => others j fun other => other.1 unused⟩
    · obtain rfl := Option.some.inj (found.symm.trans here)
      exact names
    · by_cases same : j = i
      · subst same
        rw [Kernel.proc_modify_same]
        exact iff_of_false (by unfold Proc.kill; split_ifs <;> simp [names.1]) names.1
      · rw [Kernel.proc_modify_other same]

theorem reading_named {w w' : World} {call : Call} {r : Int} (table : w'.table = w.table)
    (fails : call.slot w.table = none → r = -1)
    (live : ∀ i, call.slot w.table = some i → (w.table.proc i).state ≠ .unused) : Named w call r w' := by
  have settles : ∀ i, call.slot w.table = some i → Names w.table call.pid i := fun i found => ⟨live i found, slot_some found⟩
  have success : r ≠ -1 → ∃ i, Names w.table call.pid i := by
    intro succeeded
    cases found : call.slot w.table with
    | none => exact absurd (fails found) succeeded
    | some i => exact ⟨i, settles i found⟩
  refine ⟨success, settles, fun i _ => by rw [table], fun nobody => ⟨?_, table⟩, fun _ _ _ child => by rw [table]; exact ⟨child, rfl⟩⟩
  by_contra succeeded
  obtain ⟨i, names⟩ := success succeeded
  exact nobody i names

section
variable [Layout] {w : World}

theorem getCfsStats_returns (inv : Safe.Inv w) (add : Nat) (pid : Int)
    (live : ∀ i, w.table.findPid pid = some i → (w.table.proc i).state ≠ .unused) :
    ∃ ok w', getCfsStats add pid w = .ok ok w' := by
  cases found : w.table.findPid pid with
  | none =>
    refine ⟨false, w, ?_⟩
    unfold getCfsStats
    rw [bind_ok (get_ok w)]
    simp only [found]
    rfl
  | some i =>
    rcases Nat.lt_or_ge add MAXVA with low | far
    · obtain ⟨r, here⟩ := Option.ne_none_iff_exists'.mp fun none => live i found ((inv.idle i).mpr none)
      obtain ⟨ok, w', ran, _⟩ := getCfsStats_ends inv add pid i r found low here
      exact ⟨ok, w', ran⟩
    · refine ⟨false, w, ?_⟩
      unfold getCfsStats
      rw [bind_ok (get_ok w)]
      simp only [found, if_pos far]
      rfl

theorem slot_live (reachable : Reachable w) (call : Call) (nonzero : call.pid ≠ 0) (i : Slot)
    (found : call.slot w.table = some i) : (w.table.proc i).state ≠ .unused := by
  obtain ⟨_, table⟩ := reachable_inv w reachable
  intro unused
  exact nonzero ((slot_some found).symm.trans ((table.sound w.table i).unused unused))

theorem named_of_live (inv : Safe.Inv w) (call : Call)
    (live : ∀ i, call.slot w.table = some i → (w.table.proc i).state ≠ .unused) : Ends call.run w (Named w call) := by
  cases call with
  | kill pid => exact ⟨_, _, rfl, kill_named w pid live⟩
  | psPriority pid =>
    refine ⟨_, _, rfl, reading_named rfl (fun none => ?_) live⟩
    simp only [Kernel.sysGetPsPriority]
    rw [show w.table.getPsPriority pid = Option.none from none]
  | cfsStats add pid =>
    obtain ⟨ok, w', ran⟩ := getCfsStats_returns inv add pid live
    refine ⟨_, w', bind_ok ran, reading_named (getCfsStats_table ran) (fun none => ?_) live⟩
    rcases getCfsStats_cases inv add pid ok w' ran with ⟨rfl, _⟩ | ⟨i, _, found, _⟩
    · rfl
    · cases none.symm.trans found

/-- A call does what it should exactly if the slot it settles on is in use, and always if the pid is not 0. -/
theorem named_iff (reachable : Reachable w) (call : Call) :
    (Ends call.run w (Named w call) ↔ ∀ i, call.slot w.table = some i → (w.table.proc i).state ≠ .unused) ∧
      (call.pid ≠ 0 → Ends call.run w (Named w call)) := by
  obtain ⟨inv, _⟩ := reachable_inv w reachable
  refine ⟨⟨?_, named_of_live inv call⟩, fun nonzero => named_of_live inv call (slot_live reachable call nonzero)⟩
  rintro ⟨r, w', _, named⟩ i found
  exact (named.settles i found).1

end

theorem named_booted : ∃ w, @Reachable linked w ∧ Ends (Call.run (.kill 1)) w (Named w (.kill 1)) := by
  let _ := linked
  obtain ⟨w, reachable, _⟩ := booted_reachable fun _ _ => 0
  exact ⟨w, reachable, (named_iff reachable (.kill 1)).2 (by decide)⟩

def killThenFork : List Sched.Lifecycle.Op := [.scheduleRr 0, .kill 0, .fork 0 ⟨true, true⟩]

/-- The kill succeeds, and the child is born killed. -/
theorem kill_zero_reaches_next_child :
    (∃ w, @Reachable linked w ∧ (∀ i, ¬Names w.table 0 i) ∧ (w.table.kill 0).2 = 0 ∧
      ¬Ends (Call.run (.kill 0)) w (Named w (.kill 0))) ∧
    ∃ k, Sched.Lifecycle.history killThenFork Sched.Lifecycle.boot = some k ∧ (k.proc 1).state = .runnable ∧
      (k.proc 1).killed = true := by
  let _ := linked
  constructor
  · obtain ⟨w, reachable, booted⟩ := booted_reachable fun _ _ => 0
    have nobody : ∀ i, ¬Names w.table 0 i := by
      rw [booted.table]
      decide +kernel
    have killed : (w.table.kill 0).2 = 0 := by
      rw [booted.table]
      decide +kernel
    refine ⟨w, reachable, nobody, killed, ?_⟩
    rintro ⟨r, w', ran, named⟩
    obtain ⟨rfl, rfl⟩ := EStateM.Result.ok.inj ran
    obtain ⟨i, names⟩ := named.success (by rw [killed]; decide)
    exact nobody i names
  · have child : ((Sched.Lifecycle.history killThenFork Sched.Lifecycle.boot).map fun k =>
        ((k.proc 1).state, (k.proc 1).killed)) = some (.runnable, true) := by decide +kernel
    obtain ⟨k, played, fields⟩ := Option.map_eq_some_iff.mp child
    obtain ⟨state, killed⟩ := Prod.mk.inj fields
    exact ⟨k, played, state, killed⟩

end Xv6.System.Naming
