import Xv6.System.Memory

/-! get_cfs_stats copies into the address space of the process it asks about, not into its caller's. -/

namespace Xv6.System.Stats
open Lib.Exec Lib.Ownership Sched.Table
open Vm Vm.Memory Vm.Space Vm.Alloc Vm.Shape Vm.UserMem Vm.Pages
open Ftable Calls Safe Descriptors Processes Spaces Boot Memory

def statBytes (k : Kernel) (i : Slot) : List (BitVec 8) :=
  [(k.proc i).cfsPriority, (k.proc i).rtime, (k.proc i).stime, (k.proc i).retime].flatMap intBytes

theorem length_statBytes (k : Kernel) (i : Slot) : (statBytes k i).length = 16 := rfl

section
variable [Layout] {w : World}

theorem getCfsStats_ends (inv : Safe.Inv w) (add : Nat) (pid : Int) (i : Slot) (r : Nat)
    (found : w.table.findPid pid = some i) (low : add < MAXVA) (here : (w.task i).pagetable = some r) :
    Ends (getCfsStats add pid) w (fun ok w' => Stored w.mem r [] add (statBytes w.table i) ok w'.mem ∧
      ∀ j r', j ≠ i → (w.task j).pagetable = some r' → ∀ va, userByte w'.mem r' va = userByte w.mem r' va) := by
  unfold getCfsStats
  apply Ends.after (get_ok w)
  simp only [found, if_neg (Nat.not_le.mpr low)]
  apply Ends.after (follow_run here)
  apply Ends.weaken (onMem_ends (copyout_sound inv.sound i here add (statBytes w.table i)))
  rintro ok _ ⟨s, rfl, stored, _⟩
  refine ⟨stored, fun j r' other here' va => ?_⟩
  obtain ⟨trapframe, _, shaped⟩ := inv.sound.spaces j r' here'
  have root : (holders w [] none).root (.proc i) = some r := here
  have step := stored.step
  rw [← root] at step
  exact userByte_untouched shaped.reserved (inv.sound.good.untouched (.proc i) (.proc j)
    (fun same => other (Owner.proc.inj same)) step r' here') va

/-- The call touches no user memory but the 16 bytes at add of its caller, and on success these hold the
counters of the process with the pid. -/
def WritesOnlyToCaller (w : World) (c : Slot) (add : Nat) (pid : Int) : Prop :=
  ∀ ok w', getCfsStats add pid w = .ok ok w' →
    (∀ i r va, (w.task i).pagetable = some r → ¬(i = c ∧ add ≤ va ∧ va < add + 16) →
      userByte w'.mem r va = userByte w.mem r va) ∧
    (ok = true → ∃ i r, w.table.findPid pid = some i ∧ (w.task c).pagetable = some r ∧
      ∀ n < 16, userByte w'.mem r (add + n) = (statBytes w.table i)[n]?)

/-- What the call stores in a process other than its caller is there already, and where it succeeds the
caller has it too. -/
def AlreadyThere (w : World) (c : Slot) (add : Nat) (pid : Int) : Prop :=
  ∀ i r, w.table.findPid pid = some i → i ≠ c → add < MAXVA → (w.task i).pagetable = some r →
    (∀ n < 16, Reached w.mem r add (add + n) → userByte w.mem r (add + n) = (statBytes w.table i)[n]?) ∧
    ((∀ n < 16, UserMem.translate w.mem r (add + n) ≠ none) → ∃ r', (w.task c).pagetable = some r' ∧
      ∀ n < 16, userByte w.mem r' (add + n) = (statBytes w.table i)[n]?)

theorem getCfsStats_cases (inv : Safe.Inv w) (add : Nat) (pid : Int) (ok : Bool) (w' : World)
    (ran : getCfsStats add pid w = .ok ok w') : (ok = false ∧ w' = w) ∨
      ∃ i r, w.table.findPid pid = some i ∧ add < MAXVA ∧ (w.task i).pagetable = some r ∧
        Stored w.mem r [] add (statBytes w.table i) ok w'.mem ∧
        ∀ j r', j ≠ i → (w.task j).pagetable = some r' → ∀ va, userByte w'.mem r' va = userByte w.mem r' va := by
  cases found : w.table.findPid pid with
  | none =>
    unfold getCfsStats at ran
    rw [bind_ok (get_ok w), found] at ran
    obtain ⟨rfl, rfl⟩ := EStateM.Result.ok.inj ran
    exact Or.inl ⟨rfl, rfl⟩
  | some i =>
    rcases Nat.lt_or_ge add MAXVA with low | far
    · cases here : (w.task i).pagetable with
      | none =>
        unfold getCfsStats at ran
        rw [bind_ok (get_ok w)] at ran
        simp only [found, if_neg (Nat.not_le.mpr low), here] at ran
        cases ran
      | some r =>
        obtain ⟨ok', w'', ran', stored, others⟩ := getCfsStats_ends inv add pid i r found low here
        obtain ⟨rfl, rfl⟩ := EStateM.Result.ok.inj (ran'.symm.trans ran)
        exact Or.inr ⟨i, r, rfl, low, here, stored, others⟩
    · unfold getCfsStats at ran
      rw [bind_ok (get_ok w)] at ran
      simp only [found, if_pos far] at ran
      obtain ⟨rfl, rfl⟩ := EStateM.Result.ok.inj ran
      exact Or.inl ⟨rfl, rfl⟩

theorem Stored.byte {s s' : Mem} {r add : Nat} {ok : Bool} {k : Kernel} {i : Slot}
    (stored : Stored s r [] add (statBytes k i) ok s') (n : Nat) (bound : n < 16) (reached : Reached s r add (add + n)) :
    userByte s' r (add + n) = (statBytes k i)[n]? := by
  have length := length_statBytes k i
  rw [stored.written (add + n) (by omega) (by omega) reached, Nat.add_sub_cancel_left,
    List.getElem?_eq_getElem (by omega), List.getD_eq_getElem _ _ (by omega)]

/-- The call works as it should only for its caller, or where it makes no difference. -/
theorem cfsStats_writes_only_to_caller_iff (w : World) (reachable : Reachable w) (c : Slot) (add : Nat) (pid : Int) :
    WritesOnlyToCaller w c add pid ↔ AlreadyThere w c add pid := by
  obtain ⟨inv, _⟩ := reachable_inv w reachable
  constructor
  · intro only i r found other low here
    obtain ⟨ok, w', ran, stored, others⟩ := getCfsStats_ends inv add pid i r found low here
    obtain ⟨frame, success⟩ := only ok w' ran
    refine ⟨fun n bound reached => ?_, fun all => ?_⟩
    · rw [← frame i r (add + n) here (fun same => other same.1)]
      exact Stored.byte stored n bound reached
    · have length := length_statBytes w.table i
      have done : ok = true := stored.complete.mpr fun va above below => by
        have reached := all (va - add) (by omega)
        rwa [Nat.add_sub_cancel' above] at reached
      obtain ⟨i', r', found', mine, bytes⟩ := success done
      obtain rfl := Option.some.inj (found.symm.trans found')
      refine ⟨r', mine, fun n bound => ?_⟩
      rw [← others c r' (Ne.symm other) mine]
      exact bytes n bound
  · intro there ok w' ran
    rcases getCfsStats_cases inv add pid ok w' ran with ⟨rfl, rfl⟩ | ⟨i, r, found, low, here, stored, others⟩
    · exact ⟨fun _ _ _ _ _ => rfl, fun impossible => nomatch impossible⟩
    · have length := length_statBytes w.table i
      have all : ok = true → ∀ n < 16, UserMem.translate w.mem r (add + n) ≠ none := fun done n bound =>
        stored.complete.mp done (add + n) (by omega) (by omega)
      by_cases own : i = c
      · subst own
        refine ⟨fun j r' va here' outside => ?_, fun done => ⟨i, r, found, here, fun n bound => ?_⟩⟩
        · by_cases same : j = i
          · subst same
            obtain rfl := Option.some.inj (here.symm.trans here')
            exact stored.kept va fun inside => outside ⟨rfl, inside.1, by omega⟩
          · exact others j r' same here' va
        · refine Stored.byte stored n bound fun a above below => ?_
          have reached := all done (a - add) (by omega)
          rwa [Nat.add_sub_cancel' above] at reached
      · obtain ⟨same, mine⟩ := there i r found own low here
        refine ⟨fun j r' va here' _ => ?_, fun done => ?_⟩
        · by_cases target : j = i
          · subst target
            obtain rfl := Option.some.inj (here.symm.trans here')
            by_cases inside : add ≤ va ∧ va < add + 16 ∧ Reached w.mem r add va
            · obtain ⟨n, rfl⟩ := Nat.exists_eq_add_of_le inside.1
              rw [Stored.byte stored n (by omega) inside.2.2, same n (by omega) inside.2.2]
            · exact stored.kept va (by rwa [length])
          · exact others j r' target here' va
        · obtain ⟨r', mine, bytes⟩ := mine (all done)
          refine ⟨i, r', found, mine, fun n bound => ?_⟩
          rw [others c r' (Ne.symm own) mine]
          exact bytes n bound

end

theorem cfsStats_writes_only_to_caller_own : ∃ w, @Reachable linked w ∧ (w.table.proc 1).state = .running ∧
    w.table.findPid 2 = some 1 ∧ (∃ w', getCfsStats 0 2 w = .ok true w') ∧ WritesOnlyToCaller w 1 0 2 := by
  let _ := linked
  obtain ⟨w, reachable, table, _, memory, r, here, program⟩ := forked_reachable
  obtain ⟨inv, _⟩ := reachable_inv w reachable
  have running : (w.table.proc 1).state = .running := by
    rw [table]
    decide +kernel
  have found : w.table.findPid 2 = some 1 := by
    rw [table]
    decide +kernel
  obtain ⟨r₁, _, here₁, _, _⟩ := Inv.running inv 1 running
  have same : userByte w.mem r₁ = userByte w.mem r := by rw [← memoryOf_some here₁, memory, memoryOf_some here]
  obtain ⟨ok, w', ran, stored, _⟩ := getCfsStats_ends inv 0 2 1 r₁ found (by decide) here₁
  have length := length_statBytes w.table 1
  have done : ok = true := stored.complete.mpr fun va _ below => by
    have byte := program va (by simp only [PGSIZE]; omega)
    rw [← same] at byte
    exact translate_of_byte byte
  refine ⟨w, reachable, running, found, ⟨w', done ▸ ran⟩, ?_⟩
  refine (cfsStats_writes_only_to_caller_iff w reachable 1 0 2).mpr fun i _ found' other => ?_
  exact absurd (Option.some.inj (found'.symm.trans found)) other

/-- The child of init asks for the counters of init, and changes the program of init. -/
theorem child_writes_to_init : ∃ w, @Reachable linked w ∧ (w.table.proc 1).state = .running ∧
    ¬WritesOnlyToCaller w 1 0 1 := by
  let _ := linked
  obtain ⟨w, reachable, table, _, _, r, here, program⟩ := forked_reachable
  obtain ⟨inv, _⟩ := reachable_inv w reachable
  have found : w.table.findPid 1 = some 0 := by
    rw [table]
    decide +kernel
  refine ⟨w, reachable, by rw [table]; decide +kernel, fun only => ?_⟩
  obtain ⟨ok, w', ran, stored, _⟩ := getCfsStats_ends inv 0 1 0 r found (by decide) here
  have same := (only ok w' ran).1 0 r 0 here (by decide)
  have byte := program 0 (by decide)
  have stored := Stored.byte stored 0 (by decide) fun a _ below => by
    obtain rfl : a = 0 := by omega
    exact translate_of_byte byte
  rw [Nat.add_zero, same, byte, table] at stored
  exact absurd stored (by decide +kernel)

end Xv6.System.Stats
