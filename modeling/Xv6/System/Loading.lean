import Xv6.Lib.Extend
import Xv6.System.Growth

/-! exec: what is left of one that failed, the image that one loads, and the arguments it passes on. -/

namespace Xv6.System.Loading
open Lib.Ownership Lib.Exec Lib.Extend Lib.Bytes Sched.Table List
open Vm Vm.Memory Vm.Pagetable Vm.Entry Vm.Space Vm.Walk Vm.Alloc Vm.Shape Vm.UserMem Vm.Pages Vm.Exec Vm.Building
open Vm.Arguments Ftable Calls Safe Descriptors Processes Spaces Boot Stats

/-- The kernel with a record of the calls to the log and the inode layer. -/
abbrev Traced := EStateM String (World × List Event)

def record (event : Event) : Traced Unit := modify fun (w, trace) => (w, trace ++ [event])

/-- The calls of every exec: one transaction, with the inode locked and let go of in it if there is one. -/
def transaction : Bool → List Event
  | true => [.beginOp, .namei true, .ilock, .iunlockput, .endOp]
  | false => [.beginOp, .namei false, .endOp]

section
variable {w : World} {trace : List Event} {B : Type} {next : Unit → Traced B} {next' : Unit → Sys B}
  {after : B → List Event → Prop}

theorem record_simulates {event : Event} (rest : Simulates (fun _ => True) (next ()) (next' ()) w (trace ++ [event]) after) :
    Simulates (fun _ => True) (record event >>= next) (pure () >>= next') w trace after :=
  .second rfl (fun _ => trivial) rest

/-- The calls that let go of the inode and end the transaction. -/
def letGo : Traced Unit := do
  record .iunlockput
  record .endOp

theorem letGo_simulates (rest : Simulates (fun _ => True) (next ()) (next' ()) w (trace ++ [.iunlockput, .endOp]) after) :
    Simulates (fun _ => True) (letGo >>= next) (pure () >>= next') w trace after := by
  refine .second  ?_ (fun _ => trivial) rest
  change EStateM.Result.ok () (w, trace ++ [.iunlockput] ++ [.endOp]) = _
  rw [append_assoc]
  rfl

end

section
variable [Layout] {w : World}

theorem buildImage_simulates (trace : List Event) (trapframe : Nat) (ip : Inode) (argv : List Nat) :
    Simulates (fun _ => True) (buildImage (fun prog => onFirst (onMem prog)) letGo false trapframe ip argv)
      (buildImage (fun prog => onMem prog) (pure ()) false trapframe ip argv) w trace
      fun _ trace' => trace' = trace ++ [.iunlockput, .endOp] := by
  unfold buildImage
  simp only
  split_ifs with truncated magic
  · exact letGo_simulates (.pure rfl)
  · exact letGo_simulates (.pure rfl)
  · refine .first fun result w₁ => ?_
    cases result with
    | none => exact letGo_simulates (.pure rfl)
    | some pagetable =>
      refine .first fun (sz, loaded) w₂ => ?_
      cases loaded with
      | true => exact letGo_simulates (.onFirst fun _ => rfl)
      | false => exact .first fun image w₃ => letGo_simulates (.pure rfl)

def execTraced : Slot → List Byte → Option Inode → List Nat → Traced Int :=
  execIn (fun prog => onFirst prog) record false

theorem execTraced_simulates (w : World) (trace : List Event) (p : Slot) (path : List Byte) (ip : Option Inode) (argv : List Nat) :
    Simulates (fun _ => True) (execTraced p path ip argv) (exec p path ip argv) w trace fun _ trace' =>
      trace' = trace ++ transaction ip.isSome := by
  unfold execTraced exec execIn
  refine record_simulates (record_simulates ?_)
  cases ip with
  | none => exact record_simulates (.pure (by simp [transaction]))
  | some ip =>
    refine record_simulates (.first fun w' w₁ => .first fun trapframe w₂ => ?_)
    refine .bind (buildImage_simulates _ trapframe ip argv) (fun _ _ _ _ => trivial) fun result w₃ trace' ended => ?_
    cases result with
    | none => exact .pure (by simp [ended, transaction])
    | some image => exact .onFirst fun _ => by simp [ended, transaction]

/-- A process that is about to call exec, with its arguments in pages of their own. -/
structure Poised (w : World) (p : Slot) (argv : List Nat) : Prop where
  kept : Kept w argv none
  space : (w.task p).pagetable ≠ none

theorem Poised.exec_ends {p : Slot} {argv : List Nat} (poised : Poised w p argv) (path : List Byte) (ip : Option Inode) :
    ∃ trapframe, (w.task p).trapframe = some trapframe ∧
      Ends (exec p path ip argv) w (fun result w' => Kept w' argv none ∧ Executed w p argv trapframe ip argv result w') := by
  obtain ⟨old, here⟩ := Option.ne_none_iff_exists'.mp poised.space
  obtain ⟨trapframe, frame, _⟩ := poised.kept.spaces p old here
  refine ⟨trapframe, frame, Ends.weaken (Spaces.exec_ends p path ip argv old trapframe poised.kept here frame) ?_⟩
  exact fun result w' both => ⟨both.1.kept, both.2⟩

/-- What sys_exec passes to exec: pages of its own with strings and their NUL, fewer than MAXARG. -/
theorem fetched_poised (reachable : Reachable w) (p : Slot) (running : (w.table.proc p).state = .running) (uargv : Nat) :
    ∃ r argv ok s, (w.task p).pagetable = some r ∧ fetchArgs r (w.task p).sz uargv MAXARG 0 [] w.mem = .ok (argv, ok) s ∧
      (ok = true → Poised { w with mem := s } p argv ∧ Argv s argv argv) := by
  obtain ⟨inv, -⟩ := reachable_inv w reachable
  obtain ⟨r, trapframe, here, frame, shaped⟩ := Inv.running inv p running
  have part := inv.sound.good.part (.proc p)
  rw [show (holders w [] none).root (.proc p) = some r from here] at part
  obtain ⟨⟨argv, ok⟩, s, ran, safe, step, tables, few, ended⟩ := fetchArgs_ends (w.task p).sz uargv MAXARG 0 [] part
  simp only [append_nil] at safe step
  refine ⟨r, argv, ok, s, here, ran, fun fetched => ⟨⟨?_, ?_⟩, fun _ held => held, ?_, ?_⟩⟩
  · exact kept_same p r trapframe s here frame inv.sound safe step (shaped.congr tables)
  · change (w.task p).pagetable ≠ none
    rw [here]
    exact Option.some_ne_none r
  · exact ended fetched fun _ none => absurd none not_mem_nil
  · simpa using few fetched

/-- Everything is as it was but for the order of the free list and what the pages on it hold. -/
structure Restored (w : World) (argv : List Nat) (w' : World) : Prop where
  pointers : w' = { w with mem := w'.mem }
  uses : ∀ use x, use ≠ .free → (Uses (holders w' argv none) w'.mem use x ↔ Uses (holders w argv none) w.mem use x)
  content : ∀ use x, use ≠ .free → Uses (holders w argv none) w.mem use x → w'.mem.page x = w.mem.page x
  memory : ∀ i r, (w.task i).pagetable = some r → ∀ va, userByte w'.mem r va = userByte w.mem r va
  free : w'.mem.freelist.Perm w.mem.freelist

theorem restored_of_closed {argv : List Nat} {s : Mem} (kept : Kept w argv none) (closed : Closed w.mem none argv s) :
    Restored w argv { w with mem := s } := by
  have same := kept.good.uses_closed rfl closed
  have kept' : Kept { w with mem := s } argv none := kept.lists closed.safe closed.step
  refine ⟨rfl, fun use x used => (same use x used).1, fun use x used => (same use x used).2, fun i r here va => ?_, ?_⟩
  · obtain ⟨trapframe, _, shaped⟩ := kept.spaces i r here
    have untouched := kept.good.untouched .image (.proc i) (fun equal => nomatch equal) closed.step r here
    exact userByte_untouched shaped.reserved untouched va
  · exact kept.good.freelist_perm kept'.good fun use x used => (same use x used).1

/-- exec is all or nothing: it returns, whatever the file and the memory, after one transaction, and if it returns -1
everything is as it was. -/
theorem exec_all_or_nothing (w : World) (p : Slot) (argv : List Nat) (poised : Poised w p argv) (path : List Byte)
    (ip : Option Inode) (trace : List Event) : ∃ result w',
      execTraced p path ip argv (w, trace) = .ok result (w', trace ++ transaction ip.isSome) ∧
        (result = -1 → Restored w argv w') := by
  obtain ⟨trapframe, frame, result, w', ran, kept, executed⟩ := poised.exec_ends path ip
  have simulates := execTraced_simulates w trace p path ip argv
  obtain ⟨trace', traced⟩ := simulates.back trivial result w' ran
  obtain ⟨_, rfl⟩ := simulates.run result w' trace' traced
  refine ⟨result, w', traced, fun failed => ?_⟩
  cases executed with
  | failed s closed => exact restored_of_closed poised.kept closed
  | done file image s w' found live made committed => cases failed

end

theorem fetched_poised_init : ∃ w, @Reachable linked w ∧ ∀ uargv, ∃ r argv ok s,
    fetchArgs r (w.task 0).sz uargv MAXARG 0 [] w.mem = .ok (argv, ok) s ∧ (ok = true → Argv s argv argv) := by
  let _ := linked
  obtain ⟨w, started⟩ := init_starts
  refine ⟨w, started.reachable, fun uargv => ?_⟩
  obtain ⟨r, argv, ok, s, -, ran, poised⟩ := fetched_poised started.reachable 0 started.running uargv
  exact ⟨r, argv, ok, s, ran, fun fetched => (poised fetched).2⟩

theorem init_poised : ∃ w, @Poised linked w 0 [] := by
  let _ := linked
  obtain ⟨w, started⟩ := init_starts
  obtain ⟨inv, _⟩ := reachable_inv w started.reachable
  obtain ⟨r, _, here, _, _⟩ := Inv.running inv 0 started.running
  exact ⟨w, inv.sound, by rw [here]; exact Option.some_ne_none r⟩

theorem init_poised_argument : ∃ w x, @Poised linked w 0 [x] ∧ Argv w.mem [x] [x] ∧
    strings w.mem [x] = [[0x61, 0]] := by
  let _ := linked
  obtain ⟨w, started⟩ := init_starts
  have rich := started.rich
  obtain ⟨inv, _⟩ := reachable_inv w started.reachable
  obtain ⟨r, _, here, _, _⟩ := Inv.running inv 0 started.running
  obtain ⟨result, s, ran, ⟨rfl, rfl, empty⟩ | ⟨x, rfl, sound, _⟩⟩ := kalloc_sound inv.sound
  · rw [Cost.free, empty] at rich
    exact absurd rich (by decide)
  · let page : Page := fun i => if i.val = 0 then 0x61 else 0
    have kept : Kept { w with mem := s.setPage x page } [x] none :=
      sound.setPage .hand x page mem_cons_self (by rintro _ _ ⟨⟩)
    have text : cstring page = [0x61, 0] := by decide +kernel
    refine ⟨_, x, ⟨kept, ?_⟩, ⟨fun _ member => member, fun y member => ?_, show 1 < MAXARG by decide⟩, ?_⟩
    · change (w.task 0).pagetable ≠ none
      rw [here]
      exact Option.some_ne_none r
    · rw [mem_singleton.mp member]
      change (cstring ((s.setPage x page).page x)).length ≤ PGSIZE
      rw [page_setPage_same, text]
      decide
    · change [cstring ((s.setPage x page).page x)] = _
      rw [page_setPage_same, text]

theorem exec_all_or_nothing_argument : ∃ w x, @Poised linked w 0 [x] ∧ strings w.mem [x] = [[0x61, 0]] ∧
    ∀ path ip trace, ∃ result w', @execTraced linked 0 path ip [x] (w, trace) =
      .ok result (w', trace ++ transaction ip.isSome) ∧ (result = -1 → Restored w [x] w') := by
  let _ := linked
  obtain ⟨w, x, poised, _, text⟩ := init_poised_argument
  exact ⟨w, x, poised, text, exec_all_or_nothing w 0 [x] poised⟩

section
variable [Layout] {w : World} {p : Slot} {argv : List Nat}

def header (file : List Byte) : Elfhdr := Elfhdr.decode (file.take 64)
def segments (file : List Byte) : List Proghdr := segmentsFrom file (header file).phnum (header file).phoff

omit [Layout] in
theorem readi_elfhdr (file : List Byte) : (fileInode file).readi 0 64 = file.take 64 := by
  change (if file.length < 0 ∨ 2 ^ 32 ≤ 0 + 64 then [] else (file.drop 0).take 64) = _
  rw [if_neg (by omega), drop_zero]

omit [Layout] in
theorem segmentsFrom_beyond (file : List Byte) (phnum off : Nat) (beyond : file.length ≤ off) :
    segmentsFrom file phnum off = [] := by
  induction phnum generalizing off with
  | zero => rfl
  | succ phnum ih =>
    have outside : ¬(off + 56 ≤ file.length ∧ (Proghdr.decode ((file.drop off).take 56)).type = ELF_PROG_LOAD) := by omega
    exact (if_neg outside).trans (ih (off + 56) (by omega))

omit [Layout] in
theorem ready_of_orderly (file : List Byte) (small : file.length < 2 ^ 32) (orderly : Orderly file (segments file)) :
    segments file = [] ∨ Ready (fileInode file) file (header file).phnum (header file).phoff 0 := by
  by_cases low : (header file).phoff < 2 ^ 32
  · exact Or.inr ⟨rfl, small, low, orderly, fun ph _ => by simp [pages, PGSIZE]⟩
  · exact Or.inl (segmentsFrom_beyond file _ _ (by omega))

omit [Layout] in
theorem execRegs_read (frame : Page) (image : Image) : getLE (execRegs frame image) 24 8 = image.entry % 256 ^ 8 ∧
    getLE (execRegs frame image) 120 8 = image.sp % 256 ^ 8 ∧ getLE (execRegs frame image) 48 8 = image.sp % 256 ^ 8 := by
  unfold execRegs
  refine ⟨?_, ?_, getLE_setLE_same _ _ _ _ (by decide)⟩
  · rw [getLE_setLE_other _ _ _ _ _ _ (by decide), getLE_setLE_same _ _ _ _ (by decide)]
  · rw [getLE_setLE_other _ _ _ _ _ _ (by decide), getLE_setLE_other _ _ _ _ _ _ (by decide),
      getLE_setLE_same _ _ _ _ (by decide)]

theorem committed_agrees {image : Image} {trapframe : Nat} {s : Mem} {w' : World} {hand : List Nat}
    (committed : Committed p image trapframe s w') (live : Live w.mem image.pagetable hand (pages image.sz) trapframe s)
    (n : Nat) : Agrees s w'.mem image.pagetable n where
  leaves v _ := leafAt_congr committed.space.tables v
  bytes va _ := userByte_untouched live.reserved committed.space va

/-- exec loads the image it was given. -/
theorem exec_loads (w : World) (p : Slot) (argv : List Nat) (poised : Poised w p argv) (path file : List Byte)
    (small : file.length < 2 ^ 32) (orderly : Orderly file (segments file)) : ∃ result w',
      exec p path (some (fileInode file)) argv w = .ok result w' ∧ (result ≠ -1 →
        ∃ r trapframe, (w'.task p).pagetable = some r ∧ (w'.task p).trapframe = some trapframe ∧
          (∀ ph ∈ segments file, Placed file w'.mem r ph) ∧
          (∃ pte, leafAt w'.mem r (vpn ((w'.task p).sz - 2 * PGSIZE)) = some pte ∧ ¬User pte) ∧
          getLE (w'.mem.page trapframe) 24 8 = (header file).entry) := by
  obtain ⟨trapframe, frame, result, w', ran, kept, executed⟩ := poised.exec_ends path (some (fileInode file))
  refine ⟨result, w', ran, fun succeeded => ?_⟩
  cases executed with
  | failed s closed => exact absurd rfl succeeded
  | done ip image s w' found live made committed =>
    obtain rfl := Option.some.inj found
    obtain ⟨entry, placed, ⟨n, size, pte, leaf, hidden⟩, _⟩ := made
    rw [readi_elfhdr] at entry placed
    refine ⟨image.pagetable, trapframe, committed.root, committed.frame, fun ph member => ?_, ⟨pte, ?_, hidden⟩, ?_⟩
    · rcases ready_of_orderly file small orderly with none | ready
      · rw [none] at member
        cases member
      · obtain ⟨here, fits⟩ := placed file ready ph member
        exact here.agrees (committed_agrees committed live _) fits le_rfl
    · have guard : (w'.task p).sz - 2 * PGSIZE = n * PGSIZE := by
        rw [committed.size, size, Nat.add_mul]
        omega
      rw [guard, leafAt_congr committed.space.tables]
      exact leaf
    · have word : image.entry < 256 ^ 8 := by
        rw [entry]
        exact field_lt _ _ _
      rw [committed.registers, (execRegs_read _ image).1, Nat.mod_eq_of_lt word, entry]
      rfl

/-- exec with a check that no subtraction from sp wraps around. -/
def execChecked : Slot → List Byte → Option Inode → List Nat → Sys Int :=
  execIn (fun prog => prog) (fun _ => pure ()) true

theorem execChecked_run (poised : Poised w p argv) (args : Argv w.mem argv argv) (path : List Byte)
    (ip : Option Inode) : execChecked p path ip argv w = exec p path ip argv w := by
  cases ip with
  | none => rfl
  | some ip =>
    obtain ⟨old, here⟩ := Option.ne_none_iff_exists'.mp poised.space
    obtain ⟨trapframe, frame, _⟩ := poised.kept.spaces p old here
    have ram := (poised.kept.good.covers trapframe).mp ⟨.trapframe p, frame⟩
    have bound : trapframe < 2 ^ 52 := lt_trans (inRam_bound trapframe ram) (by decide)
    have same := buildImage_checked (poised.kept.good.bare .image rfl) trapframe bound ip args
    change (follow (w.task p).trapframe >>= fun trapframe =>
        buildImage (fun prog => onMem prog) (pure ()) true trapframe ip argv >>= _) w =
      (follow (w.task p).trapframe >>= fun trapframe =>
        buildImage (fun prog => onMem prog) (pure ()) false trapframe ip argv >>= _) w
    have followed : follow (w.task p).trapframe w = .ok trapframe w := follow_run frame
    rw [bind_ok followed, bind_ok followed, buildImage_onMem, buildImage_onMem]
    simp only [Bind.bind, EStateM.bind, onMem, same]

/-- exec's argument block is faithful: the words at sp point to copies of the strings, and it returns -1 if they do not
fit in the page of the stack. No subtraction from sp wraps, since a check for that changes nothing. -/
theorem exec_arguments (w : World) (p : Slot) (argv : List Nat) (poised : Poised w p argv) (args : Argv w.mem argv argv)
    (path : List Byte) (ip : Option Inode) : ∃ result w', exec p path ip argv w = .ok result w' ∧
      (result ≠ -1 → ∃ r trapframe argc sp, (w'.task p).pagetable = some r ∧ (w'.task p).trapframe = some trapframe ∧
        result = (argc : Nat) ∧ getLE (w'.mem.page trapframe) 48 8 = sp ∧ getLE (w'.mem.page trapframe) 120 8 = sp ∧
        ArgumentBlock w'.mem r (w'.task p).sz sp argc (strings w.mem argv)) ∧
      (PGSIZE < blockSize ((strings w.mem argv).map List.length) → result = -1) ∧
      execChecked p path ip argv w = .ok result w' := by
  obtain ⟨trapframe, frame, result, w', ran, kept, executed⟩ := poised.exec_ends path ip
  refine ⟨result, w', ran, fun succeeded => ?_, fun big => ?_, (execChecked_run poised args path ip).trans ran⟩
  · cases executed with
    | failed s closed => exact absurd rfl succeeded
    | done file image s w' found live made committed =>
      obtain ⟨_, count, aligned, pointers, block⟩ := made.arguments args
      have same : userByte w'.mem image.pagetable = userByte s image.pagetable :=
        funext fun va => userByte_untouched live.reserved committed.space va
      have word : image.sp < 256 ^ 8 := by
        have below := (block.2.2.2 _ mem_cons_self).2
        have size := live.size
        unfold pages PGSIZE at size
        simp only at below
        omega
      obtain ⟨_, a1, sp⟩ := execRegs_read (s.page trapframe) image
      rw [Nat.mod_eq_of_lt word] at a1 sp
      refine ⟨image.pagetable, trapframe, image.argc, image.sp, committed.root, committed.frame, rfl, ?_, ?_, ?_⟩
      · rw [committed.registers, sp]
      · rw [committed.registers, a1]
      · rw [committed.size]
        exact ⟨count, aligned, pointers, by rw [same]; exact block⟩
  · cases executed with
    | failed s closed => rfl
    | done file image s w' found live made committed => exact absurd (made.arguments args).1 (Nat.not_le.mpr big)

end

def oneSegment : List Byte :=
  words [0x464C457F, 0, 0, 0x8, 64, 0, 0, 1, 0x500000001, 120, 0, 0, 8, 16, 4096, 0x7300200893]

theorem exec_loads_oneSegment : ∃ w, @Poised linked w 0 [] ∧ (segments oneSegment).length = 1 ∧ ∃ result w',
    @exec linked 0 [] (some (fileInode oneSegment)) [] w = .ok result w' ∧ (result ≠ -1 →
      ∃ r trapframe, (w'.task 0).pagetable = some r ∧ (w'.task 0).trapframe = some trapframe ∧
        (∀ ph ∈ segments oneSegment, Placed oneSegment w'.mem r ph) ∧
        (∃ pte, leafAt w'.mem r (vpn ((w'.task 0).sz - 2 * PGSIZE)) = some pte ∧ ¬User pte) ∧
        getLE (w'.mem.page trapframe) 24 8 = (header oneSegment).entry) := by
  let _ := linked
  obtain ⟨w, poised⟩ := init_poised
  have orderly : Orderly oneSegment (segments oneSegment) :=
    ⟨by decide +kernel, by decide +kernel, by decide +kernel⟩
  exact ⟨w, poised, by decide +kernel, exec_loads w 0 [] poised [] oneSegment (by decide +kernel) orderly⟩

theorem exec_arguments_init : ∃ w x, @Poised linked w 0 [x] ∧ strings w.mem [x] = [[0x61, 0]] ∧
    ∃ result w', @exec linked 0 [] (some (fileInode oneSegment)) [x] w = .ok result w' ∧
      (result ≠ -1 → ∃ r trapframe argc sp, (w'.task 0).pagetable = some r ∧ (w'.task 0).trapframe = some trapframe ∧
        result = (argc : Nat) ∧ getLE (w'.mem.page trapframe) 48 8 = sp ∧ getLE (w'.mem.page trapframe) 120 8 = sp ∧
        ArgumentBlock w'.mem r (w'.task 0).sz sp argc (strings w.mem [x])) ∧
      (PGSIZE < blockSize ((strings w.mem [x]).map List.length) → result = -1) ∧
      @execChecked linked 0 [] (some (fileInode oneSegment)) [x] w = .ok result w' := by
  let _ := linked
  obtain ⟨w, x, poised, args, text⟩ := init_poised_argument
  exact ⟨w, x, poised, text, exec_arguments w 0 [x] poised args [] (some (fileInode oneSegment))⟩

end Xv6.System.Loading
