import Xv6.Vm.Building

/-! The stack of a new image: the guard page, the argument strings and the pointers to them. -/

namespace Xv6.Vm.Arguments
open Lib.Ownership Lib.Exec Lib.Bytes Memory Pagetable Entry Space Moves Walk Unmap Alloc Shape Copy UserMem Pages Exec List
  Building

section Block

def align16 (n : Nat) : Nat := (n + 15) / 16 * 16

/-- How far below the top of the stack strings of the given lengths reach, when the first starts d below it. -/
def depth : Nat → List Nat → Nat
  | d, [] => d
  | d, n :: lens => depth (align16 (d + n)) lens

def places (top : Nat) : Nat → List Nat → List Nat
  | _, [] => []
  | d, n :: lens => (top - align16 (d + n)) :: places top (align16 (d + n)) lens

/-- The bytes of stack for strings of the given lengths, the pointers to them and the final 0. -/
def blockSize (lens : List Nat) : Nat := align16 (depth 0 lens + (lens.length + 1) * 8)

theorem le_align16 (n : Nat) : n ≤ align16 n := by
  unfold align16
  omega

theorem le_depth (d : Nat) (lens : List Nat) : d ≤ depth d lens := by
  induction lens generalizing d with
  | nil => exact le_rfl
  | cons n lens ih => exact le_trans (le_trans (Nat.le_add_right d n) (le_align16 _)) (ih _)

theorem length_places (top d : Nat) (lens : List Nat) : (places top d lens).length = lens.length := by
  induction lens generalizing d with
  | nil => rfl
  | cons n lens ih => exact congrArg (· + 1) (ih _)

theorem push_eq {top d n : Nat} (aligned : top % 16 = 0) (room : d + n ≤ top) (small : top < 2 ^ 64) :
    push (top - d) n = top - align16 (d + n) := by
  simp only [push, align16]
  omega

def Apart (x y : Nat × Nat) : Prop := x.1 + x.2 ≤ y.1 ∨ y.1 + y.2 ≤ x.1

theorem places_inside (top d : Nat) (lens : List Nat) (fits : depth d lens ≤ top) :
    ∀ x ∈ (places top d lens).zip lens, top - depth d lens ≤ x.1 ∧ x.1 + x.2 ≤ top - d := by
  induction lens generalizing d with
  | nil => exact fun x member => absurd member not_mem_nil
  | cons n lens ih =>
    intro x member
    have below : align16 (d + n) ≤ depth (align16 (d + n)) lens := le_depth _ _
    have up := le_align16 (d + n)
    change depth (align16 (d + n)) lens ≤ top at fits
    change top - depth (align16 (d + n)) lens ≤ x.1 ∧ _
    rcases mem_cons.mp member with rfl | later
    · exact ⟨by omega, by simp only; omega⟩
    · obtain ⟨low, high⟩ := ih (align16 (d + n)) fits x later
      exact ⟨low, by omega⟩

theorem places_apart (top d : Nat) (lens : List Nat) (fits : depth d lens ≤ top) :
    ((places top d lens).zip lens).Pairwise Apart := by
  induction lens generalizing d with
  | nil => exact List.Pairwise.nil
  | cons n lens ih =>
    refine pairwise_cons.mpr ⟨fun y member => Or.inr ?_, ih (align16 (d + n)) fits⟩
    exact (places_inside top (align16 (d + n)) lens fits y member).2

end Block

variable [Layout] {s₀ s s' : Mem} {r n m trapframe : Nat} {hand : List Nat}

/-- The address space is whole, with the tables it had and the pages below m. -/
structure Pushed (s₀ : Mem) (r : Nat) (hand : List Nat) (n trapframe m : Nat) (s s' : Mem) : Prop where
  live : Live s₀ r hand n trapframe s'
  tables : SameTables s s' r
  agrees : Agrees s s' r m

theorem Pushed.refl (live : Live s₀ r hand n trapframe s) : Pushed s₀ r hand n trapframe m s s :=
  ⟨live, fun _ _ _ => rfl, Agrees.refl s r m⟩

theorem Pushed.trans {s'' : Mem} (first : Pushed s₀ r hand n trapframe m s s')
    (second : Pushed s₀ r hand n trapframe m s' s'') : Pushed s₀ r hand n trapframe m s s'' where
  live := second.live
  tables p t found := by
    rw [second.tables p t (by rw [tableAt_congr first.tables]; exact found), first.tables p t found]
  agrees := first.agrees.trans second.agrees le_rfl

theorem pushed_stored {dst : Nat} {src : List Byte} {ok : Bool} (live : Live s₀ r hand n trapframe s)
    (stored : Stored s r hand dst src ok s') (above : m * PGSIZE ≤ dst) : Pushed s₀ r hand n trapframe m s s' :=
  ⟨live.stored stored, stored.tables, agrees_stored stored above⟩

def strings (s : Mem) (argv : List Nat) : List (List Byte) := argv.map fun x => cstring (s.page x)

/-- The strings to push are in pages that the operation holds, each with its NUL, and the stack page can be reached. -/
structure Room (s₀ s : Mem) (r : Nat) (hand : List Nat) (m sp d count : Nat) (argv : List Nat) : Prop where
  place : sp = (m + 1) * PGSIZE - d
  deep : d ≤ PGSIZE
  held : ∀ x ∈ argv, x ∈ hand
  ended : ∀ x ∈ argv, (cstring (s₀.page x)).length ≤ PGSIZE
  few : count + argv.length < MAXARG
  stack : ∀ a, m * PGSIZE ≤ a → a < (m + 1) * PGSIZE → UserMem.translate s r a ≠ none

/-- What pushStrings does where there is room for them. -/
structure Strung (s : Mem) (r top d : Nat) (strings : List (List Byte)) (ustack : List Nat)
    (result : Option (Nat × List Nat)) (s' : Mem) : Prop where
  full : PGSIZE < depth d (strings.map List.length) → result = none
  done : depth d (strings.map List.length) ≤ PGSIZE → result =
    some (top - depth d (strings.map List.length), ustack ++ places top d (strings.map List.length))
  copies : depth d (strings.map List.length) ≤ PGSIZE →
    List.Forall₂ (fun a string => readBytes (userByte s' r) string.length a = some string)
      (places top d (strings.map List.length)) strings
  kept : ∀ a, top - d ≤ a → userByte s' r a = userByte s r a

variable {argv : List Nat}

theorem Room.push {sp d count arg : Nat} (room : Room s₀ s r hand m sp d count (arg :: argv)) (low : 1 ≤ m)
    (live : Live s₀ r hand n trapframe s) (top : m < n) : cstring (s.page arg) = cstring (s₀.page arg) ∧
      push sp (cstring (s.page arg)).length = (m + 1) * PGSIZE - align16 (d + (cstring (s₀.page arg)).length) := by
  have same : s.page arg = s₀.page arg := live.opened.data arg (room.held arg mem_cons_self)
  have short := room.ended arg mem_cons_self
  have deep := room.deep
  have size := live.size
  rw [same, room.place]
  refine ⟨rfl, push_eq ?_ ?_ ?_⟩
  all_goals
    unfold PGSIZE at *
    omega

theorem Room.next {sp d count arg : Nat} {ok : Bool} {string : List Byte}
    (room : Room s₀ s r hand m sp d count (arg :: argv)) (fits : align16 (d + string.length) ≤ PGSIZE)
    (stored : Stored s r hand ((m + 1) * PGSIZE - align16 (d + string.length)) string ok s') : ok = true ∧
      Room s₀ s' r hand m ((m + 1) * PGSIZE - align16 (d + string.length)) (align16 (d + string.length)) (count + 1)
        argv := by
  have up := le_align16 (d + string.length)
  have few := room.few
  have top : (m + 1) * PGSIZE = m * PGSIZE + PGSIZE := Nat.succ_mul m PGSIZE
  rw [length_cons] at few
  refine ⟨stored.complete.mpr fun a low high => room.stack a (by omega) (by omega), rfl, fits, ?_, ?_, by omega, ?_⟩
  · exact fun x member => room.held x (mem_cons_of_mem _ member)
  · exact fun x member => room.ended x (mem_cons_of_mem _ member)
  · intro a low high
    rw [translate_congr stored.tables]
    exact room.stack a low high

theorem Strung.cons {s₁ : Mem} {d top : Nat} {string : List Byte} {rest : List (List Byte)} {ustack : List Nat}
    {result : Option (Nat × List Nat)} (fits : align16 (d + string.length) ≤ PGSIZE) (high : PGSIZE ≤ top)
    (stored : Stored s r hand (top - align16 (d + string.length)) string true s₁)
    (strung : Strung s₁ r top (align16 (d + string.length)) rest (ustack ++ [top - align16 (d + string.length)]) result s') :
    Strung s r top d (string :: rest) ustack result s' := by
  have up := le_align16 (d + string.length)
  refine ⟨strung.full, fun shallow => ?_, fun shallow => List.Forall₂.cons ?_ (strung.copies shallow), fun a above => ?_⟩
  · rw [strung.done shallow, append_assoc]
    rfl
  · rw [readBytes_congr _ _ fun i inside => strung.kept _ (by omega)]
    exact stored.read
  · rw [strung.kept a (by omega), stored.kept a (by omega)]

theorem pushStrings_ends (low : 1 ≤ m) (argv : List Nat) (sp : Nat) (ustack : List Nat)
    (live : Live s₀ r hand n trapframe s) (top : m < n) :
    Ends (pushStrings false r (m * PGSIZE) argv sp ustack) s (fun result s' => Pushed s₀ r hand n trapframe m s s' ∧
      ∀ d, Room s₀ s r hand m sp d ustack.length argv →
        Strung s r ((m + 1) * PGSIZE) d (strings s₀ argv) ustack result s') := by
  have above : (m + 1) * PGSIZE = m * PGSIZE + PGSIZE := Nat.succ_mul m PGSIZE
  have base : 0 < m * PGSIZE := Nat.mul_pos low (by decide)
  induction argv generalizing s sp ustack with
  | nil =>
    refine Ends.pure ⟨.refl live, fun d room => ?_⟩
    rw [room.place]
    exact ⟨fun deep => absurd room.deep (Nat.not_le.mpr deep), fun _ => by simp [strings, depth, places],
      fun _ => List.Forall₂.nil, fun _ _ => rfl⟩
  | cons arg argv ih =>
    unfold pushStrings
    split_ifs with full
    · refine Ends.pure ⟨.refl live, fun d room => ?_⟩
      have few := room.few
      omega
    · apply Ends.after (get_ok s)
      apply Ends.after (pushed_run false sp _ s nofun)
      split_ifs with below
      · -- sp has passed the base of the stack, so the strings reach further down than a page
        refine Ends.pure ⟨.refl live, fun d room => ?_⟩
        rw [(room.push low live top).2] at below
        have deep : PGSIZE < depth d ((strings s₀ (arg :: argv)).map List.length) :=
          lt_of_lt_of_le (by omega) (le_depth (align16 (d + (cstring (s₀.page arg)).length)) _)
        exact ⟨fun _ => rfl, fun shallow => absurd deep (Nat.not_lt.mpr shallow),
          fun shallow => absurd deep (Nat.not_lt.mpr shallow), fun _ _ => rfl⟩
      · refine Ends.bind (copyout_ends live.safe live.reserved _ _) ?_
        intro ok s₁ stored
        have pushed := pushed_stored live stored (Nat.not_lt.mp below)
        cases ok with
        | true =>
          apply Ends.weaken (ih _ _ pushed.live)
          rintro result s₂ ⟨rest, strung⟩
          refine ⟨pushed.trans rest, fun d room => ?_⟩
          obtain ⟨same, place⟩ := room.push low live top
          rw [place] at below stored strung
          rw [same] at stored
          have fits : align16 (d + (cstring (s₀.page arg)).length) ≤ PGSIZE := by omega
          refine Strung.cons fits (by omega) stored (strung _ ?_)
          rw [length_append]
          exact (room.next fits stored).2
        | false =>
          refine Ends.pure ⟨pushed, fun d room => ?_⟩
          obtain ⟨same, place⟩ := room.push low live top
          rw [place] at below stored
          rw [same] at stored
          cases (room.next (by omega) stored).1

omit [Layout] in
theorem length_words (values : List Nat) : (words values).length = values.length * 8 := by
  unfold words
  induction values with
  | nil => rfl
  | cons value values ih =>
    rw [flatMap_cons, length_append, ih, length_map, length_range, length_cons]
    omega

omit [Layout] in
theorem Strung.next {sp : Nat} {ustack : List Nat}
    (strung : Strung s r ((m + 1) * PGSIZE) 0 (strings s₀ argv) [] (some (sp, ustack)) s') (tables : SameTables s s' r)
    (room : Room s₀ s r hand m ((m + 1) * PGSIZE) 0 0 argv) :
    sp = (m + 1) * PGSIZE - depth 0 ((strings s₀ argv).map List.length) ∧
      ustack = places ((m + 1) * PGSIZE) 0 ((strings s₀ argv).map List.length) ∧
      Room s₀ s' r hand m sp (depth 0 ((strings s₀ argv).map List.length)) ustack.length [] := by
  have shallow : depth 0 ((strings s₀ argv).map List.length) ≤ PGSIZE :=
    Nat.le_of_not_lt fun full => nomatch strung.full full
  obtain ⟨rfl, rfl⟩ := Prod.mk.inj (Option.some.inj (strung.done shallow))
  refine ⟨rfl, nil_append _, rfl, shallow, ?_, ?_, ?_, fun a low high => ?_⟩
  · exact fun _ none => absurd none not_mem_nil
  · exact fun _ none => absurd none not_mem_nil
  · have few := room.few
    rw [nil_append, length_places, strings, length_map, length_map, length_nil]
    omega
  · rw [translate_congr tables]
    exact room.stack a low high

theorem pushPointers_ends (low : 1 ≤ m) (sp : Nat) (ustack : List Nat) (live : Live s₀ r hand n trapframe s) (top : m < n) :
    Ends (pushPointers false r (m * PGSIZE) sp ustack) s (fun result s' => Pushed s₀ r hand n trapframe m s s' ∧
      ∀ d sp', Room s₀ s r hand m sp d ustack.length [] → result = some sp' →
        sp' = (m + 1) * PGSIZE - align16 (d + (ustack.length + 1) * 8) ∧ align16 (d + (ustack.length + 1) * 8) ≤ PGSIZE ∧
          readBytes (userByte s' r) ((ustack.length + 1) * 8) sp' = some (words (ustack ++ [0])) ∧
          ∀ a, (m + 1) * PGSIZE - d ≤ a → userByte s' r a = userByte s r a) := by
  have above : (m + 1) * PGSIZE = m * PGSIZE + PGSIZE := Nat.succ_mul m PGSIZE
  have base : 0 < m * PGSIZE := Nat.mul_pos low (by decide)
  have size := live.size
  unfold pushPointers
  apply Ends.after (pushed_run false sp _ s nofun)
  split_ifs with below
  · exact Ends.pure ⟨.refl live, fun _ _ _ same => nomatch same⟩
  · refine Ends.bind (copyout_ends live.safe live.reserved _ _) ?_
    intro ok s₁ stored
    have pushed := pushed_stored live stored (Nat.not_lt.mp below)
    cases ok with
    | false => exact Ends.pure ⟨pushed, fun _ _ _ same => nomatch same⟩
    | true =>
      refine Ends.pure ⟨pushed, fun d sp' room same => ?_⟩
      have deep := room.deep
      have few := room.few
      have place : push sp ((ustack.length + 1) * 8) = (m + 1) * PGSIZE - align16 (d + (ustack.length + 1) * 8) := by
        rw [room.place]
        refine push_eq ?_ ?_ ?_
        all_goals
          simp only [length_nil, MAXARG, PGSIZE] at *
          omega
      have up := le_align16 (d + (ustack.length + 1) * 8)
      have read := stored.read
      have length : (words (ustack ++ [0])).length = (ustack.length + 1) * 8 := by
        rw [length_words, length_append]
        rfl
      obtain rfl := Option.some.inj same
      refine ⟨place, by omega, length ▸ read, fun a high => stored.kept a ?_⟩
      rw [length]
      omega

/-- The argument block below the top of the stack: argc pointers and a final 0 at sp, each pointer to its string with
the NUL, all apart from each other in one page. -/
structure ArgumentBlock (s : Mem) (r top sp argc : Nat) (strings : List (List Byte)) : Prop where
  count : argc = strings.length
  aligned : sp % 16 = 0
  block : ∃ pointers : List Nat, readBytes (userByte s r) ((argc + 1) * 8) sp = some (words (pointers ++ [0])) ∧
    List.Forall₂ (fun a string => readBytes (userByte s r) string.length a = some string) pointers strings ∧
    ((sp, (argc + 1) * 8) :: pointers.zip (strings.map List.length)).Pairwise Apart ∧
    ∀ x ∈ (sp, (argc + 1) * 8) :: pointers.zip (strings.map List.length), top - PGSIZE ≤ x.1 ∧ x.1 + x.2 ≤ top

omit [Layout] in
theorem Strung.arguments {s₁ s₂ : Mem} {top : Nat} {strings : List (List Byte)} {result : Option (Nat × List Nat)}
    (strung : Strung s r top 0 strings [] result s₁) (high : PGSIZE ≤ top) (whole : top % 16 = 0)
    (fits : blockSize (strings.map List.length) ≤ PGSIZE)
    (read : readBytes (userByte s₂ r) ((strings.length + 1) * 8) (top - blockSize (strings.map List.length)) =
      some (words (places top 0 (strings.map List.length) ++ [0])))
    (kept : ∀ a, top - depth 0 (strings.map List.length) ≤ a → userByte s₂ r a = userByte s₁ r a) :
    ArgumentBlock s₂ r top (top - blockSize (strings.map List.length)) strings.length strings := by
  have room := le_align16 (depth 0 (strings.map List.length) + ((strings.map List.length).length + 1) * 8)
  rw [show align16 _ = blockSize (strings.map List.length) from rfl, length_map] at room
  have inside := places_inside top 0 (strings.map List.length) (by omega)
  refine ⟨rfl, ?_, _, read, ?_, pairwise_cons.mpr ⟨fun y member => Or.inl ?_, places_apart top 0 _ (by omega)⟩, ?_⟩
  · unfold blockSize align16 at *
    omega
  · obtain ⟨length, copies⟩ := forall₂_iff_zip.mp (strung.copies (by omega))
    refine forall₂_iff_zip.mpr ⟨length, fun {a string} pair => ?_⟩
    have region : (a, string.length) ∈ (places top 0 (strings.map List.length)).zip (strings.map List.length) := by
      rw [zip_map_right]
      exact mem_map_of_mem pair
    have low := (inside _ region).1
    rw [readBytes_congr _ _ fun i _ => kept _ (by simp only at low; omega)]
    exact copies pair
  · have low := (inside y member).1
    simp only
    omega
  · intro x member
    rcases mem_cons.mp member with rfl | later
    · exact ⟨by simp only; omega, by simp only; omega⟩
    · obtain ⟨low, below⟩ := inside x later
      exact ⟨by omega, below⟩

/-- The arguments of exec: strings in pages that the operation holds, each with its NUL, and few enough. -/
structure Argv (s : Mem) (hand argv : List Nat) : Prop where
  held : ∀ x ∈ argv, x ∈ hand
  ended : ∀ x ∈ argv, (cstring (s.page x)).length ≤ PGSIZE
  few : argv.length < MAXARG

/-- The stack of an image: two pages above the rest, the lower one out of the user's reach and the upper one with the
arguments. -/
structure Stacked (s₀ s : Mem) (r sz entry : Nat) (hand argv : List Nat) (image : Image) (s' : Mem) : Prop where
  root : image.pagetable = r
  size : image.sz = (pages sz + 2) * PGSIZE
  entry : image.entry = entry
  agrees : Agrees s s' r (pages sz)
  guard : ∃ pte, leafAt s' r (vpn (pages sz * PGSIZE)) = some pte ∧ ¬User pte
  arguments : Argv s₀ hand argv → blockSize ((strings s₀ argv).map List.length) ≤ PGSIZE ∧
    ArgumentBlock s' r image.sz image.sp image.argc (strings s₀ argv)

/-- Either nothing is left of the image or it is a whole address space. -/
def Built (s₀ : Mem) (hand : List Nat) (trapframe : Nat) (result : Option Image) (s : Mem) : Prop :=
  (result = none ∧ Closed s₀ none hand s) ∨
    ∃ image, result = some image ∧ Live s₀ image.pagetable hand (pages image.sz) trapframe s

/-- The pages of the stack, before anything is on it. -/
structure Guarded (s₀ : Mem) (r : Nat) (hand : List Nat) (n trapframe : Nat) (s s' : Mem) : Prop where
  live : Live s₀ r hand (n + 2) trapframe s'
  agrees : Agrees s s' r n
  guard : ∃ pte, leafAt s' r (vpn (n * PGSIZE)) = some pte ∧ ¬User pte
  stack : ∀ a, (n + 1) * PGSIZE ≤ a → a < (n + 2) * PGSIZE → UserMem.translate s' r a ≠ none

theorem Guarded.room (guarded : Guarded s₀ r hand n trapframe s s') (args : Argv s₀ hand argv) :
    Room s₀ s' r hand (n + 1) ((n + 2) * PGSIZE) 0 0 argv :=
  ⟨rfl, Nat.zero_le _, args.held, args.ended, by have := args.few; omega, guarded.stack⟩

theorem uvmclear_guards {s₁ : Mem} (live : Live s₀ r hand n trapframe s)
    (extended : Extended (ZeroPage (PTE_R ||| PTE_U ||| PTE_W)) s r hand n (n + 2) s₁) :
    Ends (uvmclear r (n * PGSIZE)) s₁ (fun _ s' => Guarded s₀ r hand n trapframe s s') := by
  have live₁ := live.extended extended (by omega)
  have size := live₁.size
  have page : (vpn (n * PGSIZE)).page = n := page_of_vpn n (by omega)
  obtain ⟨pte, found⟩ := Option.ne_none_iff_exists'.mp (live₁.filled.below (vpn (n * PGSIZE)) (by omega))
  apply Ends.weaken (uvmclear_ends live₁.safe _ pte (by unfold PGSIZE MAXVA; omega) found)
  intro _ s' mapped
  have live' := live₁.mapped mapped (by omega)
  refine ⟨live', ?_, ⟨_, by rw [mapped.leaves, if_pos rfl], not_user_clear pte⟩, fun a low high => ?_⟩
  · exact (live.agrees_extended extended).trans (live₁.agrees_mapped mapped page.ge (by omega)) le_rfl
  · have above : (vpn a).page = n + 1 := by
      unfold PGSIZE at low high
      rw [page_vpn a (by omega)]
      unfold PGSIZE
      omega
    have other : vpn a ≠ vpn (n * PGSIZE) := by
      intro same
      rw [same] at above
      omega
    obtain ⟨pte', x, perm, leaf, reads, rfl, _⟩ := extended.fresh (vpn a) (by omega) (by omega)
    have user : User pte' := reads.user.mpr (by decide)
    have inside : userVpn (vpn a) := (userVpn_iff _).mpr (by omega)
    have leaf' : leafAt s' r (vpn a) = some pte' := by rw [mapped.leaves, if_neg other, leaf]
    rw [translate_of_leaf live'.safe (by unfold PGSIZE at high; unfold MAXVA; omega) inside leaf' user]
    exact Option.some_ne_none _

theorem stack_sizes {sz : Nat} (live : Live s₀ r hand (pages sz) trapframe s) : PGROUNDUP sz = pages sz * PGSIZE ∧
    (pages sz + 2) * PGSIZE - 2 * PGSIZE = pages sz * PGSIZE ∧
    (pages sz + 2) * PGSIZE - PGSIZE = (pages sz + 1) * PGSIZE := by
  have size := live.size
  have small : sz < 2 ^ 63 := by
    unfold pages PGSIZE at size
    omega
  refine ⟨pgroundup_eq sz small, ?_, ?_⟩
  · rw [← Nat.sub_mul]
    rfl
  · rw [Nat.add_mul, Nat.add_mul]
    omega

theorem stackPages_ends (live : Live s₀ r hand n trapframe s) :
    Ends (uvmalloc r (n * PGSIZE) ((n * PGSIZE + 2 * PGSIZE) % 2 ^ 64) PTE_W) s (fun result s' =>
      (result = (n + 2) * PGSIZE ∧ Extended (ZeroPage (PTE_R ||| PTE_U ||| PTE_W)) s r hand n (n + 2) s') ∨
        (result = 0 ∧ Grown userVpn s r hand s')) := by
  have size := live.size
  have top : (n * PGSIZE + 2 * PGSIZE) % 2 ^ 64 = (n + 2) * PGSIZE := by
    unfold PGSIZE
    omega
  have larger : max (n * PGSIZE) ((n + 2) * PGSIZE) = (n + 2) * PGSIZE :=
    max_eq_right (Nat.mul_le_mul_right _ (by omega))
  have filled := live.filled
  rw [← pages_mul n] at filled
  have ends := uvmalloc_ends live.safe (n * PGSIZE) ((n + 2) * PGSIZE) PTE_W filled (by decide) (by decide)
  rw [larger, pages_mul, pages_mul] at ends
  rw [top]
  exact ends

/-- The stack of an address space, with the arguments on it; if that fails nothing is left of the space. -/
theorem buildStack_ends (sz entry : Nat) (argv : List Nat) (live : Live s₀ r hand (pages sz) trapframe s) :
    Ends (buildStack false r sz entry argv) s (fun result s' => Built s₀ hand trapframe result s' ∧
      ∀ image, result = some image → Stacked s₀ s r sz entry hand argv image s') := by
  have drop : ∀ {size s₁}, Live s₀ r hand (pages size) trapframe s₁ → Ends (discard r size) s₁ (fun result s' =>
      Built s₀ hand trapframe result s' ∧
        ∀ image, result = some image → Stacked s₀ s r sz entry hand argv image s') := by
    intro size s₁ live
    apply Ends.weaken live.discard
    rintro _ s' ⟨rfl, closed⟩
    exact ⟨Or.inl ⟨rfl, closed⟩, fun _ same => nomatch same⟩
  obtain ⟨round, guard, base⟩ := stack_sizes live
  unfold buildStack
  simp only [round]
  refine Ends.bind (stackPages_ends live) ?_
  rintro sz1 s₁ (⟨rfl, extended⟩ | ⟨rfl, grown⟩)
  · rw [if_neg (by unfold PGSIZE; omega), guard, base]
    refine Ends.bind (uvmclear_guards live extended) ?_
    intro _ s₂ guarded
    obtain ⟨pte, found, hidden⟩ := guarded.guard
    refine Ends.bind (pushStrings_ends (by omega) argv _ _ guarded.live (by omega)) ?_
    rintro result s₃ ⟨first, strung⟩
    cases result with
    | none => exact drop (by rw [pages_mul]; exact first.live)
    | some pair =>
      obtain ⟨sp, ustack⟩ := pair
      refine Ends.bind (pushPointers_ends (by omega) sp ustack first.live (by omega)) ?_
      rintro result s₄ ⟨second, pointers⟩
      cases result with
      | none => exact drop (by rw [pages_mul]; exact second.live)
      | some sp' =>
        have both := first.trans second
        refine Ends.pure ⟨Or.inr ⟨_, rfl, by rw [pages_mul]; exact both.live⟩, fun image same => ?_⟩
        obtain rfl := Option.some.inj same
        refine ⟨rfl, rfl, rfl, guarded.agrees.trans both.agrees (by omega), ⟨pte, ?_, hidden⟩, fun args => ?_⟩
        · rw [leafAt_congr both.tables]
          exact found
        · have room := guarded.room args
          obtain ⟨rfl, rfl, room'⟩ := (strung 0 room).next first.tables room
          obtain ⟨rfl, fits, read, kept⟩ := pointers _ sp' room' rfl
          have count : (places ((pages sz + 1 + 1) * PGSIZE) 0 ((strings s₀ argv).map List.length)).length =
              (strings s₀ argv).length := by rw [length_places, length_map]
          rw [count] at fits read ⊢
          have size : blockSize ((strings s₀ argv).map List.length) =
              align16 (depth 0 ((strings s₀ argv).map List.length) + ((strings s₀ argv).length + 1) * 8) := by
            rw [blockSize, length_map]
          rw [← size] at fits read ⊢
          refine ⟨fits, (strung 0 room).arguments ?_ ?_ fits read kept⟩
          all_goals
            unfold PGSIZE
            omega
  · rw [if_pos rfl]
    exact drop (by rw [pages_mul]; exact live.grown grown)

/-! With strings that end in their pages no subtraction from sp wraps around: a check for it changes nothing. -/

section Checked

theorem pushStrings_checked (low : 1 ≤ m) (argv : List Nat) (sp d : Nat) (ustack : List Nat)
    (live : Live s₀ r hand n trapframe s) (top : m < n) (room : Room s₀ s r hand m sp d ustack.length argv) :
    pushStrings true r (m * PGSIZE) argv sp ustack s = pushStrings false r (m * PGSIZE) argv sp ustack s := by
  have above : (m + 1) * PGSIZE = m * PGSIZE + PGSIZE := Nat.succ_mul m PGSIZE
  have base : PGSIZE ≤ m * PGSIZE := Nat.le_mul_of_pos_left PGSIZE low
  have page : 0 < PGSIZE := by decide
  induction argv generalizing s sp d ustack with
  | nil => rfl
  | cons arg argv ih =>
    obtain ⟨same, place⟩ := room.push low live top
    have within : (cstring (s.page arg)).length ≤ sp := by
      have short := room.ended arg mem_cons_self
      have deep := room.deep
      rw [same, room.place]
      omega
    unfold pushStrings
    split_ifs with full
    · rfl
    · rw [bind_ok (get_ok s), bind_ok (get_ok s)]
      rw [bind_ok (pushed_run true sp _ s fun _ => within), bind_ok (pushed_run false sp _ s fun checked => by cases checked)]
      by_cases below : push sp (cstring (s.page arg)).length < m * PGSIZE
      · rw [if_pos below, if_pos below]
      · rw [if_neg below, if_neg below]
        refine Ends.bind_congr rfl (copyout_ends live.safe live.reserved _ _) fun ok s₁ stored => ?_
        cases ok with
        | false => rw [if_neg Bool.false_ne_true, if_neg Bool.false_ne_true]
        | true =>
          have pushed := pushed_stored live stored (Nat.not_lt.mp below)
          rw [place] at below stored ⊢
          rw [same] at stored
          rw [if_pos rfl, if_pos rfl]
          refine ih _ (align16 (d + (cstring (s₀.page arg)).length)) _ pushed.live ?_
          rw [length_append]
          exact (room.next (by omega) stored).2

omit [Layout] in
theorem pushPointers_checked (low : 1 ≤ m) (sp d : Nat) (ustack : List Nat)
    (room : Room s₀ s r hand m sp d ustack.length []) :
    pushPointers true r (m * PGSIZE) sp ustack s = pushPointers false r (m * PGSIZE) sp ustack s := by
  have within : (ustack.length + 1) * 8 ≤ sp := by
    have few := room.few
    have deep := room.deep
    rw [room.place]
    simp only [length_nil, MAXARG, PGSIZE] at *
    omega
  unfold pushPointers
  rw [bind_ok (pushed_run true sp _ s fun _ => within), bind_ok (pushed_run false sp _ s fun checked => by cases checked)]

theorem buildStack_checked (sz entry : Nat) (argv : List Nat) (live : Live s₀ r hand (pages sz) trapframe s)
    (args : Argv s₀ hand argv) : buildStack true r sz entry argv s = buildStack false r sz entry argv s := by
  obtain ⟨round, guard, base⟩ := stack_sizes live
  unfold buildStack
  simp only [round]
  refine Ends.bind_congr rfl (stackPages_ends live) ?_
  rintro sz1 s₁ (⟨rfl, extended⟩ | ⟨rfl, grown⟩)
  · rw [if_neg (by unfold PGSIZE; omega), if_neg (by unfold PGSIZE; omega), guard, base]
    refine Ends.bind_congr rfl (uvmclear_guards live extended) fun _ s₂ guarded => ?_
    have room := guarded.room args
    refine Ends.bind_congr (pushStrings_checked (by omega) argv _ 0 [] guarded.live (by omega) room)
      (pushStrings_ends (by omega) argv _ [] guarded.live (by omega)) ?_
    rintro result s₃ ⟨first, strung⟩
    cases result with
    | none => rfl
    | some pair =>
      obtain ⟨sp, ustack⟩ := pair
      obtain ⟨_, _, room'⟩ := (strung 0 room).next first.tables room
      refine Ends.bind_congr (pushPointers_checked (by omega) sp _ ustack room')
        (pushPointers_ends (by omega) sp ustack first.live (by omega)) fun result s₄ _ => ?_
      rfl
  · rw [if_pos rfl, if_pos rfl]

end Checked

/-- The image that exec builds: the segments of the file, the guard, the entry point and the arguments. -/
structure ImageOf (s₀ : Mem) (ip : Inode) (hand argv : List Nat) (image : Image) (s : Mem) : Prop where
  entry : image.entry = (Elfhdr.decode (ip.readi 0 64)).entry
  segments : ∀ file, Ready ip file (Elfhdr.decode (ip.readi 0 64)).phnum (Elfhdr.decode (ip.readi 0 64)).phoff 0 →
    ∀ ph ∈ segmentsFrom file (Elfhdr.decode (ip.readi 0 64)).phnum (Elfhdr.decode (ip.readi 0 64)).phoff,
      Placed file s image.pagetable ph ∧ ph.filesz ≤ ph.memsz
  guard : ∃ n, image.sz = (n + 2) * PGSIZE ∧ ∃ pte, leafAt s image.pagetable (vpn (n * PGSIZE)) = some pte ∧ ¬User pte
  arguments : Argv s₀ hand argv → blockSize ((strings s₀ argv).map List.length) ≤ PGSIZE ∧
    ArgumentBlock s image.pagetable image.sz image.sp image.argc (strings s₀ argv)

/-- exec builds a whole address space or leaves no trace of it, whatever the file. -/
theorem buildImage_ends (before : Local userVpn s none hand) (trapframe : Nat) (bound : trapframe < 2 ^ 52) (ip : Inode)
    (argv : List Nat) : Ends (buildImage (fun prog => prog) (pure ()) false trapframe ip argv) s (fun result s' => Built s hand trapframe result s' ∧
      ∀ image, result = some image → ImageOf s ip hand argv image s') := by
  have nothing : ∀ {s'}, Closed s none hand s' → Ends (pure none : VM (Option Image)) s' (fun result s' =>
      Built s hand trapframe result s' ∧ ∀ image, result = some image → ImageOf s ip hand argv image s') :=
    fun closed => Ends.pure ⟨Or.inl ⟨rfl, closed⟩, fun _ same => nomatch same⟩
  have untouched : Closed s none hand s := ⟨before, Step.refl _ _ _, fun _ _ => rfl⟩
  unfold buildImage
  simp only
  split_ifs with truncated magic
  · exact nothing untouched
  · exact nothing untouched
  · refine Ends.bind (procPagetable_ends before trapframe bound) ?_
    rintro result s₁ (⟨rfl, closed⟩ | ⟨r, rfl, opened, filled, reserved⟩)
    · exact nothing closed
    · have live : Live s r hand (pages 0) trapframe s₁ := ⟨opened, filled, reserved⟩
      refine Ends.bind (loadSegments_ends ip _ _ 0 live ?_) ?_
      · exact fun w pte low => absurd low (Nat.not_lt_zero _)
      · rintro ⟨sz, loaded⟩ s₂ ⟨live, segments⟩
        cases loaded with
        | true =>
          apply Ends.weaken (buildStack_ends sz _ argv live)
          rintro result s₃ ⟨built, stacked⟩
          refine ⟨built, fun image same => ?_⟩
          obtain ⟨rfl, size, entry, agrees, guard, arguments⟩ := stacked image same
          refine ⟨entry, fun file ready ph member => ?_, ⟨_, size, guard⟩, arguments⟩
          obtain ⟨placed, fits, below⟩ := (segments rfl file ready).placed ph member
          exact ⟨placed.agrees agrees fits below, fits⟩
        | false =>
          refine Ends.bind live.discard ?_
          rintro _ s' ⟨rfl, closed⟩
          exact nothing closed

theorem buildImage_checked (before : Local userVpn s none hand) (trapframe : Nat) (bound : trapframe < 2 ^ 52) (ip : Inode)
    (args : Argv s hand argv) : buildImage (fun prog => prog) (pure ()) true trapframe ip argv s =
      buildImage (fun prog => prog) (pure ()) false trapframe ip argv s := by
  unfold buildImage
  simp only
  split_ifs with truncated magic
  · rfl
  · rfl
  · refine Ends.bind_congr rfl (procPagetable_ends before trapframe bound) ?_
    rintro _ s₁ (⟨rfl, _⟩ | ⟨r, rfl, opened, filled, reserved⟩)
    · rfl
    · have live : Live s r hand (pages 0) trapframe s₁ := ⟨opened, filled, reserved⟩
      refine Ends.bind_congr rfl
        (loadSegments_ends ip _ _ 0 live fun w pte low => absurd low (Nat.not_lt_zero _)) ?_
      rintro ⟨sz, loaded⟩ s₂ ⟨live, _⟩
      cases loaded with
      | false => simp only [Bool.false_eq_true, if_false]
      | true => exact buildStack_checked sz (Elfhdr.decode (ip.readi 0 64)).entry argv live args

omit [Layout] in
theorem cstring_short (page : Page) (i : Nat) (inside : i < PGSIZE) (nul : byteAt page i = 0) :
    (cstring page).length ≤ PGSIZE := by
  have stops : ((List.ofFn page).takeWhile fun b => decide (b ≠ 0)).length ≤ i := by
    by_contra further
    have long : i < ((List.ofFn page).takeWhile fun b => decide (b ≠ 0)).length := Nat.lt_of_not_le further
    have kept := mem_takeWhile_imp (getElem_mem long)
    rw [( takeWhile_prefix _).getElem long, List.getElem_ofFn] at kept
    unfold byteAt at nul
    rw [dif_pos inside] at nul
    exact absurd nul (of_decide_eq_true kept)
  unfold cstring
  rw [length_append, length_singleton]
  omega

omit [Layout] in
theorem readString_nul_last (mem : Nat → Option Byte) (max va : Nat) (ended : (readString mem max va).2 = true) :
    ∃ i, i < max ∧ (readString mem max va).1[i]? = some 0 := by
  induction max generalizing va with
  | zero => cases ended
  | succ max ih =>
    cases byte : mem va with
    | none =>
      rw [readString_unreached mem _ va byte] at ended
      cases ended
    | some b =>
      by_cases zero : b = 0
      · subst zero
        rw [readString_nul mem max va byte]
        exact ⟨0, by omega, rfl⟩
      · rw [readString_byte mem max va b byte zero] at ended ⊢
        obtain ⟨i, inside, here⟩ := ih (va + 1) ended
        exact ⟨i + 1, by omega, by simpa using here⟩

omit [Layout] in
theorem cstring_write (page : Page) (mem : Nat → Option Byte) (va : Nat)
    (ended : (readString mem PGSIZE va).2 = true) :
    (cstring (Page.write page 0 (readString mem PGSIZE va).1)).length ≤ PGSIZE := by
  obtain ⟨i, inside, nul⟩ := readString_nul_last mem PGSIZE va ended
  obtain ⟨short, _⟩ := List.getElem?_eq_some_iff.mp nul
  refine cstring_short _ i inside ?_
  rw [byteAt_write _ _ _ _ inside, if_pos ⟨Nat.zero_le i, by omega⟩, getD_eq_getElem?_getD, Nat.sub_zero, nul]
  rfl

/-- Arguments have been fetched into pages that the operation holds from then on. -/
structure Fetched (s : Mem) (r : Nat) (hand argv : List Nat) (places : Nat) (result : List Nat × Bool) (s' : Mem) : Prop where
  safe : Local userVpn s' (some r) (result.1 ++ hand)
  step : Step userVpn s (some r) (argv ++ hand) s' (some r) (result.1 ++ hand)
  tables : SameTables s s' r
  few : result.2 = true → result.1.length < argv.length + places
  ended : result.2 = true → (∀ x ∈ argv, (cstring (s.page x)).length ≤ PGSIZE) →
    ∀ x ∈ result.1, (cstring (s'.page x)).length ≤ PGSIZE

theorem fetchArgs_ends (sz uargv places i : Nat) (argv : List Nat) (before : Local userVpn s (some r) (argv ++ hand)) :
    Ends (fetchArgs r sz uargv places i argv) s (Fetched s r hand argv places) := by
  have failed : ∀ {places argv s}, Local userVpn s (some r) (argv ++ hand) →
      Ends (pure (argv, false) : VM (List Nat × Bool)) s (Fetched s r hand argv places) :=
    fun before => Ends.pure ⟨before, Step.refl _ _ _, fun _ _ _ => rfl, (fun no => nomatch no), fun no => nomatch no⟩
  induction places generalizing i argv s with
  | zero => exact failed before
  | succ places ih =>
    unfold fetchArgs
    simp only
    split_ifs with outside
    · exact failed before
    · apply Ends.after (copyin_run s r _ 8)
      cases readBytes (userByte s r) 8 ((uargv + 8 * i) % 2 ^ 64) with
      | none => exact failed before
      | some bytes =>
        simp only
        split_ifs with last
        · exact Ends.pure ⟨before, Step.refl _ _ _, fun _ _ _ => rfl, fun _ => by simp only; omega, fun _ old => old⟩
        · refine Ends.bind (kalloc_ends before) ?_
          rintro result s₁ (⟨rfl, rfl, _⟩ | ⟨x, rfl, alloc⟩)
          · exact failed before
          · apply Ends.after (copyinstr_run s₁ r _ _)
            apply Ends.after (modify_ok _ s₁)
            have short := cstring_write (s₁.page x) (userByte s₁ r) (field bytes 0 8)
            generalize readString (userByte s₁ r) PGSIZE (field bytes 0 8) = outcome at short ⊢
            have fill := alloc.fill (Page.write (s₁.page x) 0 outcome.1)
            have order : (x :: (argv ++ hand)).Perm (argv ++ [x] ++ hand) := by
              rw [append_assoc, singleton_append]
              exact perm_middle.symm
            obtain ⟨safe, reorder⟩ := fill.safe.perm order
            have step := fill.step.trans reorder
            split_ifs with ok
            · apply Ends.weaken (ih (i + 1) (argv ++ [x]) safe)
              intro result' s₂ fetched
              refine ⟨fetched.safe, step.trans fetched.step, fun p t found => ?_, fun done => ?_, fun done old => ?_⟩
              · rw [fetched.tables p t (by rw [tableAt_congr (fill.tables r rfl)]; exact found),
                  fill.tables r rfl p t found]
              · have few := fetched.few done
                rw [length_append, length_singleton] at few
                omega
              · refine fetched.ended done fun y member => ?_
                rcases mem_append.mp member with earlier | new
                · have other : y ≠ x := by
                    rintro rfl
                    exact (nodup_cons.mp alloc.safe.nodup.2).1 (mem_append_left _ earlier)
                  rw [fill.others y other]
                  exact old y earlier
                · rw [mem_singleton.mp new, page_setPage_same]
                  exact short ok
            · exact Ends.pure ⟨safe, step, fill.tables r rfl, (fun no => nomatch no), fun no => nomatch no⟩

end Xv6.Vm.Arguments
