import Xv6.System.Messages

/-! The way of an exit message: from the string of the child through copyinstr, safestrcpy and copyout to its parent. -/

namespace Xv6.System.Delivery
open Lib.Exec Lib.Bytes Sched.Table List
open Vm Vm.Memory Vm.UserMem
open Ftable Calls Safe Descriptors Processes Spaces Boot Memory Stats Messages

/-- The string s, without its terminator, is readable at va. -/
structure CString (mem : Nat → Option Byte) (va : Nat) (s : List Byte) : Prop where
  bytes : ∀ i < s.length, mem (va + i) = s[i]?
  nul : mem (va + s.length) = some 0
  inner : 0 ∉ s

theorem readString_cstring {mem : Nat → Option Byte} {va : Nat} {s : List Byte} (string : CString mem va s) (max : Nat) :
    (readString mem max va).1 = (s ++ [0]).take max := by
  induction max generalizing va s with
  | zero => rfl
  | succ max ih =>
    cases s with
    | nil =>
      rw [readString_nul mem max va string.nul, nil_append, take_succ_cons, take_nil]
    | cons b s =>
      have byte : mem va = some b := string.bytes 0 (by simp)
      obtain ⟨other, inner⟩ := not_or.mp (mem_cons.not.mp string.inner)
      rw [readString_byte mem max va b byte (Ne.symm other), cons_append, take_succ_cons]
      refine congrArg (b :: ·) (ih ⟨fun i inside => ?_, ?_, inner⟩)
      · rw [show va + 1 + i = va + (i + 1) by omega, string.bytes (i + 1) (by simpa using inside), List.getElem?_cons_succ]
      · rw [show va + 1 + s.length = va + (b :: s).length by rw [length_cons]; omega]
        exact string.nul

section Buffer
variable {s : List Byte} (stack : Buffer 32)

theorem overlay_string (j : Nat) (inside : j < 32) (upto : j ≤ s.length) :
    byteAt (overlay stack ((s ++ [0]).take 32)) j = s.getD j 0 := by
  rw [overlay_byte stack _ ⟨j, inside⟩, if_pos (by simp; omega), getD_eq_getElem?_getD, getD_eq_getElem?_getD,
    List.getElem?_take_of_lt inside]
  rcases Nat.lt_or_eq_of_le upto with within | rfl
  · rw [List.getElem?_append_left within]
  · simp

theorem getD_ne_zero (inner : 0 ∉ s) {j : Nat} (within : j < s.length) : s.getD j 0 ≠ 0 := by
  rw [getD_eq_getElem _ _ within]
  exact fun zero => inner (zero ▸ getElem_mem within)

theorem taken_string (inner : 0 ∉ s) : Str.taken 32 (overlay stack ((s ++ [0]).take 32)) = min (s.length + 1) 31 := by
  have bound := Str.copied_le (overlay stack ((s ++ [0]).take 32)) 31 0
  have nonzero : ∀ j < s.length, j < 32 → byteAt (overlay stack ((s ++ [0]).take 32)) j ≠ 0 := fun j within inside => by
    rw [overlay_string stack j inside within.le]
    exact getD_ne_zero inner within
  have size : Str.taken 32 (overlay stack ((s ++ [0]).take 32)) = Str.copied (overlay stack ((s ++ [0]).take 32)) 31 0 := rfl
  have upper : Str.copied (overlay stack ((s ++ [0]).take 32)) 31 0 ≤ s.length + 1 := by
    by_contra longer
    refine Str.copied_nonzero (overlay stack ((s ++ [0]).take 32)) 31 0 s.length (Nat.zero_le _) (by omega) ?_
    rw [overlay_string stack s.length (by omega) le_rfl, getD_eq_default _ _ le_rfl]
  have lower : Str.copied (overlay stack ((s ++ [0]).take 32)) 31 0 < 31 →
      s.length + 1 ≤ Str.copied (overlay stack ((s ++ [0]).take 32)) 31 0 := by
    intro short
    obtain ⟨j, here, _, nul⟩ := Str.copied_last _ 31 0 short
    by_contra shorter
    exact nonzero j (by omega) (by omega) nul
  omega

theorem stored_string (old : Buffer 32) (inner : 0 ∉ s) :
    ∃ rest, List.ofFn (Str.safestrcpy old (overlay stack ((s ++ [0]).take 32))) = s.take 31 ++ 0 :: rest := by
  have taken := taken_string stack inner
  refine ⟨(List.ofFn (Str.safestrcpy old (overlay stack ((s ++ [0]).take 32)))).drop (min s.length 31 + 1), ?_⟩
  refine ext_getElem? fun j => ?_
  have length : (s.take 31).length = min s.length 31 := by rw [length_take, min_comm]
  rcases Nat.lt_trichotomy j (min s.length 31) with before | rfl | after
  · have inside : j < 32 := by omega
    rw [List.getElem?_append_left (by omega), List.getElem?_take_of_lt (by omega), List.getElem?_ofFn, dif_pos inside,
      Str.safestrcpy_byte, taken, if_pos (by simp only; omega), overlay_string stack j inside (by omega),
      getD_eq_getElem _ _ (by omega), List.getElem?_eq_getElem]
  · have inside : min s.length 31 < 32 := by omega
    rw [List.getElem?_append_right (by omega), length, Nat.sub_self, List.getElem?_cons_zero, List.getElem?_ofFn,
      dif_pos inside, Str.safestrcpy_byte, taken]
    refine congrArg some ?_
    rcases Nat.lt_or_ge s.length 31 with short | long
    · rw [if_pos (by simp only; omega), overlay_string stack (min s.length 31) inside (by omega), getD_eq_default _ _ (by omega)]
    · rw [if_neg (by simp only; omega), if_pos (by simp only; omega)]
  · rw [List.getElem?_append_right (by omega), length, List.getElem?_cons, if_neg (by omega), List.getElem?_drop]
    congr 1
    omega

end Buffer

section
variable [Layout] {w w' : World} {p q : Slot} {n : Int} {msg addr dst r : Nat} {s : List Byte}

/-- A run in which p calls exit and a wait of its parent q, whose page table is at r, later reaps it. -/
inductive RoundTrip (w : World) (p : Slot) (n : Int) (msg : Nat) (q : Slot) (addr dst r : Nat) : World → Prop where
  | run (stack : Buffer 32) (w₁ w₂ w₃ : World) (result : Option Int) (reachable : Reachable w)
      (exited : Steps w (.exit p n msg stack) w₁) (zombie : (w₁.table.proc p).state = .zombie) (later : Later p w₁ w₂)
      (running : (w₂.table.proc q).state = .running) (space : (w₂.task q).pagetable = some r)
      (waited : wait q addr dst w₂ = .ok result w₃) (reaped : (w₃.table.proc p).state = .unused) :
      RoundTrip w p n msg q addr dst r w₃

theorem RoundTrip.waited (trip : RoundTrip w p n msg q addr dst r w') :
    ∃ w₂ stack result, Waited w₂ q addr dst result w' ∧ (w₂.table.proc p).state = .zombie ∧ (w'.table.proc p).state = .unused ∧
      (w₂.task q).pagetable = some r ∧
      left (w₂.table.proc p) = (Str.safestrcpy (w.table.proc p).exitMsg (sent w p stack (.exit n msg)), n) := by
  cases trip with
  | run stack w₁ w₂ _ result reachable exited zombie later running space waited reaped =>
    obtain ⟨inv, _⟩ := reachable_inv w reachable
    have stored := ended_left inv (.exit n msg) stack _ (.exit n msg) exited zombie
    obtain ⟨inv₂, zombie₂, same⟩ := later_left (steps_next inv _ exited).inv zombie later
    obtain ⟨_, _, ran, _, waits⟩ := wait_ends inv₂ q running addr dst
    obtain ⟨rfl, rfl⟩ := EStateM.Result.ok.inj (ran.symm.trans waited)
    exact ⟨w₂, stack, _, waits, zombie₂, reaped, space, same.trans stored⟩

theorem RoundTrip.message (trip : RoundTrip w p n msg q addr dst r w') (string : CString (memoryOf w p) msg s) (wanted : dst ≠ 0) :
    ∃ rest, readBytes (userByte w'.mem r) 32 dst = some (s.take 31 ++ 0 :: rest) := by
  obtain ⟨w₂, stack, result, waits, zombie, reaped, space, stored⟩ := trip.waited
  obtain ⟨message, -⟩ := Prod.mk.inj stored
  obtain ⟨rest, bytes⟩ := stored_string stack (w.table.proc p).exitMsg string.inner
  refine ⟨rest, ?_⟩
  rw [waits.delivers p r zombie reaped wanted space, message, ← bytes, sent, readString_cstring string]

/-- The parent finds the status at addr, and at dst the string up to its 31st byte. -/
theorem exit_message_arrives (trip : RoundTrip w p n msg q addr dst r w') (string : CString (memoryOf w p) msg s)
    (wanted : addr ≠ 0 ∧ dst ≠ 0) (apart : addr + 4 ≤ dst ∨ dst + 32 ≤ addr) :
    readBytes (userByte w'.mem r) 4 addr = some (intBytes n) ∧
      ∃ rest, readBytes (userByte w'.mem r) 32 dst = some (s.take 31 ++ 0 :: rest) := by
  refine ⟨?_, trip.message string wanted.2⟩
  obtain ⟨w₂, stack, result, waits, zombie, reaped, space, stored⟩ := trip.waited
  obtain ⟨-, status⟩ := Prod.mk.inj stored
  rw [waits.status p r zombie reaped wanted.1 (.inr apart) space, status]

theorem exit_step (running : (w.table.proc p).state = .running) (closed : ∀ fd, w.files.ofile (p, fd) = none)
    (here : (w.task p).pagetable = some r) (stack : Buffer 32) (k : Kernel)
    (exited : Sched.Lifecycle.exit w.table p n (overlay stack (readString (userByte w.mem r) 32 msg).1) = .ok k) :
    Steps w (.exit p n msg stack) { w with table := k } := by
  refine ⟨fun q same => Option.some.inj same ▸ running, ?_⟩
  change sysExit p n msg stack w = _
  unfold sysExit
  rw [bind_ok (get_ok w), bind_ok (follow_run here),
    bind_ok (onMem_run (copyinstr_run w.mem r msg 32))]
  exact exit_run n _ closed k exited

def initString : List Byte := [0x2f, 0x69, 0x6e, 0x69, 0x74]

def calm : Buffer 32 := fun _ => 0

def endedTable : Kernel :=
  match Sched.Lifecycle.exit forkedTable 1 1 (overlay calm (initString ++ [0])) with
  | .ok k => k
  | .error _ => forkedTable

omit [Layout] in
theorem init_cstring {mem : Nat → Option Byte} (program : ∀ va < PGSIZE, mem va = some (initcode.getD va 0)) :
    CString mem 0x24 initString := by
  refine ⟨fun i inside => ?_, ?_, by decide⟩
  · rw [program _ (by simp only [initString, length_cons, length_nil, PGSIZE] at *; omega)]
    revert i
    decide
  · rw [program _ (by decide)]
    decide

theorem round_trip (addr dst : Nat) (low : addr + 4 ≤ PGSIZE ∧ dst + 32 ≤ PGSIZE) :
    ∃ w r w', RoundTrip w 1 1 0x24 0 addr dst r w' ∧ CString (memoryOf w 1) 0x24 initString := by
  obtain ⟨w, reachable, table, files, memory, r, here, program⟩ := forked_reachable
  obtain ⟨inv, _⟩ := reachable_inv w reachable
  have running : (w.table.proc 1).state = .running := by
    rw [table]
    decide +kernel
  obtain ⟨r₁, _, here₁, _, _⟩ := Inv.running inv 1 running
  have string : CString (memoryOf w 1) 0x24 initString := by
    rw [memory, memoryOf_some here]
    exact init_cstring program
  have read : (readString (userByte w.mem r₁) 32 0x24).1 = initString ++ [0] := by
    rw [← memoryOf_some here₁, readString_cstring string]
    rfl
  have exited : Steps w (.exit 1 1 0x24 calm) { w with table := endedTable } := by
    refine exit_step running (fun fd => by rw [files]; rfl) here₁ calm _ ?_
    rw [read, table]
    rfl
  have next := steps_next inv _ exited
  have zombie : (endedTable.proc 1).state = .zombie := by decide +kernel
  have waiting : (endedTable.proc 0).state = .running := by decide +kernel
  have found : slots.find? (fun pp => decide ((endedTable.proc pp).parent = some 0 ∧ (endedTable.proc pp).state = .zombie)) =
      some 1 := by decide +kernel
  have mapped : ∀ va < PGSIZE, UserMem.translate w.mem r va ≠ none := fun va inside => translate_of_byte (program va inside)
  obtain ⟨result, w₃, waited, _, waits⟩ := wait_ends (w := { w with table := endedTable }) next.inv 0 waiting addr dst
  obtain ⟨_, reaped⟩ := waits.reaps 1 r found here (fun _ va _ high => mapped va (by omega)) fun va _ high => mapped va (by omega)
  exact ⟨w, r, w₃, .run calm _ _ w₃ result reachable exited zombie (.refl _) waiting here waited reaped, string⟩

end

theorem exit_message_arrives_init : ∃ (w : World) (r : Nat) (w' : World), @RoundTrip linked w 1 1 0x24 0 128 64 r w' ∧
    readBytes (userByte w'.mem r) 4 128 = some (intBytes 1) ∧
      ∃ rest, readBytes (userByte w'.mem r) 32 64 = some (initString.take 31 ++ 0 :: rest) := by
  let _ := linked
  obtain ⟨w, r, w', trip, string⟩ := round_trip 128 64 (by decide)
  exact ⟨w, r, w', trip, exit_message_arrives trip string (by decide) (by decide)⟩

theorem readBytes_head {mem : Nat → Option Byte} {count va : Nat} {b : Byte} {rest : List Byte}
    (read : readBytes mem (count + 1) va = some (b :: rest)) : mem va = some b := by
  obtain ⟨b', byte, later⟩ := Option.bind_eq_some_iff.mp read
  obtain ⟨tail, _, same⟩ := Option.map_eq_some_iff.mp later
  rw [byte, (List.cons.inj same).1]

/-- With one address for both, the message lies over the status. -/
theorem status_overwritten : ∃ (w : World) (r : Nat) (w' : World), @RoundTrip linked w 1 1 0x24 0 64 64 r w' ∧
    CString (memoryOf w 1) 0x24 initString ∧ readBytes (userByte w'.mem r) 4 64 ≠ some (intBytes 1) := by
  let _ := linked
  obtain ⟨w, r, w', trip, string⟩ := round_trip 64 64 (by decide)
  refine ⟨w, r, w', trip, string, fun status => ?_⟩
  obtain ⟨rest, message⟩ := trip.message string (by decide)
  have first : userByte w'.mem r 64 = some 0x2f := readBytes_head message
  have second : userByte w'.mem r 64 = some 1 := readBytes_head status
  cases first.symm.trans second

end Xv6.System.Delivery
