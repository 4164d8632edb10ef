import Xv6.Vm.Shape

/-! User memory as bytes at virtual addresses: walkaddr, copyout, copyin and copyinstr. -/

namespace Xv6.Vm.UserMem
open Lib.Ownership Lib.Exec Lib.Bytes Memory Pagetable Entry Space Writes Moves Walk Unmap Alloc Free Shape List

def translate (s : Mem) (r va : Nat) : Option Nat :=
  if MAXVA ≤ va then none
  else (leafAt s r (vpn va)).bind fun pte => if User pte ∧ PTE2PA pte ≠ 0 then some (PTE2PA pte) else none

variable (s : Mem)

theorem walkaddr_run (r va : Nat) : walkaddr r va s = .ok (translate s r va) s := by
  unfold walkaddr translate
  by_cases high : MAXVA ≤ va
  · rw [if_pos high, if_pos high]
    rfl
  · rw [if_neg high, if_neg high, bind_ok (walk_reads s r va (Nat.lt_of_not_le high))]
    unfold leafAt
    cases found : tableAt s r (.low (vpn va).top (vpn va).mid) with
    | none => rfl
    | some t =>
      simp only [Option.map_some, Option.bind_some]
      rw [bind_ok (getPte_run s t _)]
      by_cases valid : Valid (s.pte t (vpn va).low)
      · rw [if_pos valid, Option.bind_some]
        by_cases user : User (s.pte t (vpn va).low) ∧ PTE2PA (s.pte t (vpn va).low) ≠ 0
        · rw [if_pos user, if_pos ⟨valid, user⟩]
          rfl
        · rw [if_neg user, if_neg (fun all => user all.2)]
          rfl
      · rw [if_neg valid, if_neg (fun all => valid all.1)]
        rfl

theorem translate_low {s : Mem} {r va x : Nat} (found : translate s r va = some x) : va < MAXVA := by
  unfold translate at found
  by_contra high
  rw [if_pos (Nat.le_of_not_lt high)] at found
  cases found

theorem translate_page (r va va' : Nat) (same : va / PGSIZE = va' / PGSIZE) : translate s r va = translate s r va' := by
  unfold translate
  have high : MAXVA ≤ va ↔ MAXVA ≤ va' := by
    unfold MAXVA
    unfold PGSIZE at same
    omega
  by_cases top : MAXVA ≤ va
  · rw [if_pos top, if_pos (high.mp top)]
  · have low : va < 2 ^ 38 := Nat.lt_of_not_le top
    have low' : va' < 2 ^ 38 := Nat.lt_of_not_le (fun over' => top (high.mpr over'))
    have pageEq : vpn va = vpn va' := by
      rw [vpn_eq_iff va' (by omega), page_vpn va (by omega)]
      exact same
    rw [if_neg top, if_neg (fun over' => top (high.mpr over')), pageEq]

theorem translate_rounddown (r va : Nat) : translate s r (PGROUNDDOWN va) = translate s r va :=
  translate_page s r _ _ (Nat.mul_div_cancel _ (by decide))

theorem offset_eq (va : Nat) : va - PGROUNDDOWN va = va % PGSIZE := by
  unfold PGROUNDDOWN PGSIZE
  omega

theorem next_page {va : Nat} (low : va < MAXVA) : (PGROUNDDOWN va + PGSIZE) % 2 ^ 64 = va + (PGSIZE - va % PGSIZE) := by
  unfold PGROUNDDOWN PGSIZE
  unfold MAXVA at low
  omega

theorem translate_congr {s s' : Mem} {r va : Nat} (tables : SameTables s s' r) : translate s' r va = translate s r va := by
  unfold translate
  rw [leafAt_congr tables]

def userByte (s : Mem) (r va : Nat) : Option Byte :=
  (translate s r va).map fun x => byteAt (s.page x) (va % PGSIZE)

theorem userByte_same {s s' : Mem} {r va : Nat} (leaf : leafAt s' r (vpn va) = leafAt s r (vpn va))
    (data : ∀ pte, leafAt s r (vpn va) = some pte → s'.page (PTE2PA pte) = s.page (PTE2PA pte)) :
    userByte s' r va = userByte s r va := by
  unfold userByte translate
  rw [leaf]
  split_ifs with high
  · rfl
  · cases found : leafAt s r (vpn va) with
    | none => rfl
    | some pte =>
      rw [Option.bind_some]
      split_ifs
      · rw [Option.map_some, Option.map_some, data pte found]
      · rfl

theorem byteAt_write (page : Page) (offset : Nat) (bytes : List Byte) (i : Nat) (bound : i < PGSIZE) :
    byteAt (Page.write page offset bytes) i =
      if offset ≤ i ∧ i < offset + bytes.length then bytes.getD (i - offset) 0 else byteAt page i := by
  unfold byteAt Page.write
  rw [dif_pos bound, dif_pos bound]

def readBytes (mem : Nat → Option Byte) : Nat → Nat → Option (List Byte)
  | 0, _ => some []
  | count + 1, va => (mem va).bind fun b => (readBytes mem count (va + 1)).map (b :: ·)

theorem readBytes_congr {mem mem' : Nat → Option Byte} (count va : Nat)
    (same : ∀ i < count, mem (va + i) = mem' (va + i)) : readBytes mem count va = readBytes mem' count va := by
  induction count generalizing va with
  | zero => rfl
  | succ count ih =>
    have rest := ih (va + 1) fun i inside => by
      rw [show va + 1 + i = va + (i + 1) by omega]
      exact same (i + 1) (by omega)
    rw [readBytes, readBytes, rest, show mem va = mem' va from same 0 (by omega)]

variable (mem : Nat → Option Byte)

theorem readBytes_eq (bytes : List Byte) (va : Nat)
    (here : ∀ i < bytes.length, mem (va + i) = bytes[i]?) : readBytes mem bytes.length va = some bytes := by
  induction bytes generalizing va with
  | nil => rfl
  | cons b rest ih =>
    have first := here 0 (by simp)
    have others := ih (va + 1) fun i inside => by
      have next := here (i + 1) (by simpa using inside)
      rwa [show va + (i + 1) = va + 1 + i by omega, List.getElem?_cons_succ] at next
    simp only [Nat.add_zero, List.getElem?_cons_zero] at first
    simp only [length_cons, readBytes, first, others, Option.bind_some, Option.map_some]

def readUpto (mem : Nat → Option Byte) : Nat → Nat → List Byte
  | 0, _ => []
  | count + 1, va =>
      match mem va with
      | none => []
      | some b => b :: readUpto mem count (va + 1)

theorem readUpto_none {mem : Nat → Option Byte} {count va : Nat} (absent : mem va = none) : readUpto mem count va = [] := by
  cases count with
  | zero => rfl
  | succ count => rw [readUpto, absent]

theorem readUpto_some {mem : Nat → Option Byte} {count va : Nat} {b : Byte} (byte : mem va = some b) :
    readUpto mem (count + 1) va = b :: readUpto mem count (va + 1) := by
  rw [readUpto, byte]

theorem readBytes_eq_readUpto (mem : Nat → Option Byte) (count va : Nat) : readBytes mem count va =
    if (readUpto mem count va).length = count then some (readUpto mem count va) else none := by
  induction count generalizing va with
  | zero => rfl
  | succ count ih =>
    cases byte : mem va with
    | none => simp [readBytes, byte, readUpto_none byte]
    | some b =>
      rw [readBytes, byte, Option.bind_some, ih, readUpto_some byte]
      simp only [length_cons, Nat.add_right_cancel_iff]
      split_ifs <;> rfl

/-- Reading a string of at most max bytes with its NUL: the bytes read, and whether the NUL was among them. -/
def readString (mem : Nat → Option Byte) : Nat → Nat → List Byte × Bool
  | 0, _ => ([], false)
  | max + 1, va =>
      match mem va with
      | none => ([], false)
      | some b => if b = 0 then ([0], true) else ((b :: (readString mem max (va + 1)).1), (readString mem max (va + 1)).2)

theorem readString_unreached (max va : Nat) (absent : mem va = none) : readString mem max va = ([], false) := by
  cases max with
  | zero => rfl
  | succ max => rw [readString, absent]

theorem readString_nul (max va : Nat) (byte : mem va = some 0) : readString mem (max + 1) va = ([0], true) := by
  rw [readString, byte]
  rfl

theorem readString_byte (max va : Nat) (b : Byte) (byte : mem va = some b)
    (other : b ≠ 0) : readString mem (max + 1) va =
      (b :: (readString mem max (va + 1)).1, (readString mem max (va + 1)).2) := by
  rw [readString, byte]
  simp only [if_neg other]

theorem readString_congr (mem mem' : Nat → Option Byte) (max va : Nat)
    (same : ∀ i < max, mem (va + i) = mem' (va + i)) : readString mem max va = readString mem' max va := by
  induction max generalizing va with
  | zero => rfl
  | succ max ih =>
    have rest := ih (va + 1) fun i inside => by
      rw [show va + 1 + i = va + (i + 1) by omega]
      exact same (i + 1) (by omega)
    have first := same 0 (by omega)
    rw [Nat.add_zero] at first
    unfold readString
    rw [first, rest]

theorem userByte_of_translate (r dst x i : Nat) (found : translate s r dst = some x)
    (inside : dst % PGSIZE + i < PGSIZE) : userByte s r (dst + i) = some (byteAt (s.page x) (dst % PGSIZE + i)) := by
  unfold userByte
  rw [translate_page s r (dst + i) dst (by unfold PGSIZE at *; omega), found, Option.map_some]
  congr 2
  unfold PGSIZE at *
  omega

theorem userByte_none {s : Mem} {r va : Nat} (absent : translate s r va = none) : userByte s r va = none := by
  unfold userByte
  rw [absent, Option.map_none]

theorem translate_of_byte {s : Mem} {r va : Nat} {b : Byte} (byte : userByte s r va = some b) : translate s r va ≠ none := by
  intro absent
  rw [userByte_none absent] at byte
  cases byte

theorem userByte_ne_none {s : Mem} {r va : Nat} : userByte s r va ≠ none ↔ translate s r va ≠ none := by
  unfold userByte
  rw [ne_eq, Option.map_eq_none_iff]

theorem length_readString (mem : Nat → Option Byte) (max va : Nat) : (readString mem max va).1.length ≤ max := by
  induction max generalizing va with
  | zero => exact le_rfl
  | succ max ih =>
    have rest := ih (va + 1)
    unfold readString
    split
    · exact Nat.zero_le _
    · split_ifs
      · simp
      · rw [length_cons]
        omega

theorem readString_positive {mem : Nat → Option Byte} {max va : Nat} (some : 0 < max) (present : mem va ≠ none) :
    0 < (readString mem max va).1.length := by
  obtain ⟨max, rfl⟩ : ∃ k, max = k + 1 := ⟨max - 1, by omega⟩
  obtain ⟨b, byte⟩ := Option.ne_none_iff_exists'.mp present
  by_cases nul : b = 0
  · rw [readString_nul mem max va (nul ▸ byte)]
    exact Nat.one_pos
  · rw [readString_byte mem max va b byte nul]
    exact Nat.succ_pos _

theorem readString_page (r dst x n max : Nat) (copied : List Byte) (found : translate s r dst = some x)
    (order : n ≤ max) (i : Nat) (fits : dst % PGSIZE + i + n ≤ PGSIZE) :
    (copied ++ (readString (userByte s r) max (dst + i)).1, (readString (userByte s r) max (dst + i)).2) =
      match copyinstrBytes (s.page x) n (dst % PGSIZE + i) copied with
      | (copied, true) => (copied, true)
      | (copied, false) =>
          (copied ++ (readString (userByte s r) (max - n) (dst + i + n)).1,
            (readString (userByte s r) (max - n) (dst + i + n)).2) := by
  induction n generalizing i max copied with
  | zero => simp [copyinstrBytes]
  | succ n ih =>
    obtain ⟨max, rfl⟩ : ∃ k, max = k + 1 := ⟨max - 1, by omega⟩
    have byte := userByte_of_translate s r dst x i found (by omega)
    unfold copyinstrBytes
    by_cases zero : byteAt (s.page x) (dst % PGSIZE + i) = 0
    · rw [readString_nul _ _ _ (by rw [byte, zero]), if_pos zero]
    · have rest := ih max (copied ++ [byteAt (s.page x) (dst % PGSIZE + i)]) (by omega) (i + 1) (by omega)
      rw [← Nat.add_assoc, ← Nat.add_assoc] at rest
      rw [readString_byte _ _ _ _ byte zero, if_neg zero, show max + 1 - (n + 1) = max - n by omega,
        show dst + i + (n + 1) = dst + i + 1 + n by omega, ← rest]
      simp

theorem length_copyinstrBytes {page : Page} {n offset : Nat} {copied copied' : List Byte}
    (more : copyinstrBytes page n offset copied = (copied', false)) : copied'.length = copied.length + n := by
  induction n generalizing offset copied with
  | zero => cases more; rfl
  | succ n ih =>
    unfold copyinstrBytes at more
    split_ifs at more
    · cases more
    · rw [ih more, length_append, length_singleton]
      omega

/-- Each page that copyinstr reads from holds one of the bytes it stores. -/
theorem copyinstrPagesLoop_run (s : Mem) (r fuel va max : Nat) (copied : List Byte) (enough : max ≤ fuel) :
    ∃ pages, copyinstrPagesLoop r fuel va max copied s =
        .ok ((copied ++ (readString (userByte s r) max va).1, (readString (userByte s r) max va).2), pages) s ∧
      ∀ page ∈ pages, ∃ i < (readString (userByte s r) max va).1.length, page = PGROUNDDOWN (va + i) := by
  induction fuel generalizing va max copied with
  | zero =>
    obtain rfl : max = 0 := by omega
    refine ⟨[], ?_, by simp⟩
    simp [copyinstrPagesLoop, readString]
    rfl
  | succ fuel ih =>
    unfold copyinstrPagesLoop
    by_cases none : max = 0
    · subst none
      refine ⟨[], ?_, by simp⟩
      simp [readString]
      rfl
    · rw [if_neg none]
      simp only [offset_eq]
      rw [bind_ok (walkaddr_run s r (PGROUNDDOWN va)), translate_rounddown]
      cases found : translate s r va with
      | none =>
        rw [readString_unreached _ _ _ (userByte_none found), append_nil]
        exact ⟨[], rfl, by simp⟩
      | some x =>
        have room := Nat.mod_lt va (show 0 < PGSIZE by decide)
        have chunk := readString_page s r va x (min (PGSIZE - va % PGSIZE) max) max copied found (min_le_right _ _) 0
          (by omega)
        simp only [Nat.add_zero] at chunk
        simp only [next_page (translate_low found)]
        rw [bind_ok (get_ok s)]
        rcases outcome : copyinstrBytes (s.page x) (min (PGSIZE - va % PGSIZE) max) (va % PGSIZE) copied with
          ⟨copied', ended⟩
        rw [outcome] at chunk
        have first : 0 < (readString (userByte s r) max va).1.length :=
          readString_positive (by omega) (userByte_ne_none.mpr (by rw [found]; exact Option.some_ne_none _))
        cases ended with
        | true =>
          rw [chunk]
          refine ⟨[PGROUNDDOWN va], rfl, fun page member => ⟨0, first, ?_⟩⟩
          rw [mem_singleton.mp member, Nat.add_zero]
        | false =>
          obtain ⟨pages, ran, within⟩ := ih (va + (PGSIZE - va % PGSIZE)) (max - min (PGSIZE - va % PGSIZE) max) copied' (by omega)
          have onward : readString (userByte s r) (max - min (PGSIZE - va % PGSIZE) max) (va + min (PGSIZE - va % PGSIZE) max) =
              readString (userByte s r) (max - min (PGSIZE - va % PGSIZE) max) (va + (PGSIZE - va % PGSIZE)) := by
            by_cases last : max ≤ PGSIZE - va % PGSIZE
            · rw [min_eq_right last, Nat.sub_self]
              rfl
            · rw [min_eq_left (by omega)]
          rw [onward] at chunk
          have length := congrArg (fun out => out.1.length) chunk
          simp only [length_append, length_copyinstrBytes outcome] at length
          refine ⟨PGROUNDDOWN va :: pages, ?_, fun page member => ?_⟩
          · rw [chunk]
            exact bind_ok ran
          · rcases mem_cons.mp member with rfl | member
            · exact ⟨0, first, rfl⟩
            · obtain ⟨i, inside, rfl⟩ := within page member
              have short := length_readString (userByte s r) (max - min (PGSIZE - va % PGSIZE) max) (va + (PGSIZE - va % PGSIZE))
              refine ⟨PGSIZE - va % PGSIZE + i, ?_, by rw [Nat.add_assoc]⟩
              omega

theorem copyinstr_run (r va max : Nat) : copyinstr r va max s = .ok (readString (userByte s r) max va) s := by
  obtain ⟨pages, ran, _⟩ := copyinstrPagesLoop_run s r max va max [] le_rfl
  exact bind_ok ran

theorem read_succ (page : Page) (offset n : Nat) :
    Page.read page offset (n + 1) = byteAt page offset :: Page.read page (offset + 1) n := by
  simp [Page.read, range_succ_eq_map, Function.comp_def, Nat.add_assoc, Nat.add_comm 1]

theorem length_read (page : Page) (offset n : Nat) : (Page.read page offset n).length = n := by simp [Page.read]

theorem readUpto_page (s : Mem) (r va x n len i : Nat) (found : translate s r va = some x) (order : n ≤ len)
    (fits : va % PGSIZE + i + n ≤ PGSIZE) :
    readUpto (userByte s r) len (va + i) =
      Page.read (s.page x) (va % PGSIZE + i) n ++ readUpto (userByte s r) (len - n) (va + i + n) := by
  induction n generalizing i len with
  | zero => simp [Page.read]
  | succ n ih =>
    obtain ⟨len, rfl⟩ : ∃ k, len = k + 1 := ⟨len - 1, by omega⟩
    have rest := ih len (i + 1) (by omega) (by omega)
    rw [← Nat.add_assoc, ← Nat.add_assoc] at rest
    rw [readUpto_some (userByte_of_translate s r va x i found (by omega)), rest, read_succ, cons_append,
      show len + 1 - (n + 1) = len - n by omega, show va + i + (n + 1) = va + i + 1 + n by omega]

theorem copyinStoringLoop_run (s : Mem) (r fuel va len : Nat) (copied : List Byte) (enough : len ≤ fuel) :
    copyinStoringLoop r fuel va len copied s = .ok (copied ++ readUpto (userByte s r) len va,
      decide ((readUpto (userByte s r) len va).length = len)) s := by
  induction fuel generalizing va len copied with
  | zero =>
    obtain rfl : len = 0 := by omega
    simp [copyinStoringLoop, readUpto]
    rfl
  | succ fuel ih =>
    unfold copyinStoringLoop
    by_cases none : len = 0
    · subst none
      simp [readUpto]
      rfl
    · rw [if_neg none]
      simp only [offset_eq]
      rw [bind_ok (walkaddr_run s r (PGROUNDDOWN va)), translate_rounddown]
      cases found : translate s r va with
      | none =>
        rw [readUpto_none (userByte_none found), append_nil, length_nil, decide_eq_false (Ne.symm none)]
        rfl
      | some x =>
        have room := Nat.mod_lt va (show 0 < PGSIZE by decide)
        have chunk := readUpto_page s r va x (min (PGSIZE - va % PGSIZE) len) len 0 found (min_le_right _ _) (by omega)
        simp only [Nat.add_zero] at chunk
        rw [chunk]
        simp only [next_page (translate_low found)]
        rw [bind_ok (get_ok s), ih _ _ _ (by omega), length_append, length_read, append_assoc]
        by_cases last : len ≤ PGSIZE - va % PGSIZE
        · rw [min_eq_right last, Nat.sub_self]
          simp [readUpto]
        · rw [min_eq_left (by omega)]
          have complete : ∀ m, m = len - (PGSIZE - va % PGSIZE) ↔ PGSIZE - va % PGSIZE + m = len := by
            omega
          simp only [complete]

theorem copyinStoring_run (s : Mem) (r va len : Nat) :
    copyinStoring r va len s = .ok (readUpto (userByte s r) len va,
      decide ((readUpto (userByte s r) len va).length = len)) s := by
  rw [copyinStoring, copyinStoringLoop_run s r len va len [] le_rfl, nil_append]

theorem copyin_run (r va len : Nat) : copyin r va len s = .ok (readBytes (userByte s r) len va) s := by
  rw [copyin, bind_ok (copyinStoring_run s r va len), readBytes_eq_readUpto]
  simp only [decide_eq_true_eq]
  rfl

/-- Every address from dst up to va is in a page that the user can reach. -/
def Reached (s : Mem) (r dst va : Nat) : Prop := ∀ a, dst ≤ a → a ≤ va → translate s r a ≠ none

/-- The table maps each page for the user once, and none of its own. -/
structure UserPages (s : Mem) (r : Nat) : Prop where
  once : ∀ va va' x, translate s r va = some x → translate s r va' = some x → va / PGSIZE = va' / PGSIZE
  apart : ∀ va x p t, translate s r va = some x → tableAt s r p = some t → t ≠ x

section Copyout
variable {s s' : Mem} {r : Nat}

theorem UserPages.congr (user : UserPages s r) (tables : SameTables s s' r) : UserPages s' r where
  once va va' x := by
    rw [translate_congr tables, translate_congr tables]
    exact user.once va va' x
  apart va x p t := by
    rw [translate_congr tables, tableAt_congr tables]
    exact user.apart va x p t

/-- The bytes of src have been stored at dst, up to the first page that cannot be reached. -/
structure Wrote (s : Mem) (r dst : Nat) (src : List Byte) (ok : Bool) (s' : Mem) : Prop where
  tables : SameTables s s' r
  free : s'.freelist = s.freelist
  others : ∀ x, (∀ va, translate s r va ≠ some x) → s'.page x = s.page x
  written : ∀ va, dst ≤ va → va < dst + src.length → Reached s r dst va →
    userByte s' r va = some (src.getD (va - dst) 0)
  kept : ∀ va, ¬(dst ≤ va ∧ va < dst + src.length ∧ Reached s r dst va) → userByte s' r va = userByte s r va
  complete : ok = true ↔ ∀ va, dst ≤ va → va < dst + src.length → translate s r va ≠ none

theorem Wrote.nothing (s : Mem) (r dst : Nat) : Wrote s r dst [] true s where
  tables _ _ _ := rfl
  free := rfl
  others _ _ := rfl
  written va low high := absurd high (by simpa using low)
  kept _ _ := rfl
  complete := by simp; omega

theorem Wrote.read {dst : Nat} {src : List Byte} (wrote : Wrote s r dst src true s') :
    readBytes (userByte s' r) src.length dst = some src := by
  refine readBytes_eq _ src dst fun i inside => ?_
  have all := wrote.complete.mp rfl
  rw [wrote.written (dst + i) (by omega) (by omega) fun a low high => all a low (by omega), Nat.add_sub_cancel_left,
    List.getElem?_eq_getElem inside, getD_eq_getElem _ _ inside]

theorem Wrote.unreached (dst : Nat) (src : List Byte) (some : src ≠ []) (absent : translate s r dst = none) :
    Wrote s r dst src false s where
  tables _ _ _ := rfl
  free := rfl
  others _ _ := rfl
  written va low _ reached := absurd absent (reached dst le_rfl low)
  kept _ _ := rfl
  complete := by
    have room := length_pos_iff.mpr some
    simp only [Bool.false_eq_true, false_iff, not_forall]
    exact ⟨dst, le_rfl, by omega, not_not.mpr absent⟩

theorem write_page (user : UserPages s r) (dst x : Nat) (src : List Byte) (found : translate s r dst = some x)
    (fits : dst % PGSIZE + src.length ≤ PGSIZE) :
    Wrote s r dst src true (s.setPage x (Page.write (s.page x) (dst % PGSIZE) src)) := by
  have tables : SameTables s (s.setPage x (Page.write (s.page x) (dst % PGSIZE) src)) r :=
    fun p t table => page_setPage_other (user.apart dst x p t found table)
  have same : ∀ va, translate (s.setPage x (Page.write (s.page x) (dst % PGSIZE) src)) r va = translate s r va :=
    fun va => translate_congr tables
  have inside : ∀ va, dst ≤ va → va < dst + src.length → va / PGSIZE = dst / PGSIZE ∧
      va % PGSIZE = dst % PGSIZE + (va - dst) := by
    intro va low high
    unfold PGSIZE at *
    omega
  refine ⟨tables, rfl, fun y other => ?_, fun va low high _ => ?_, fun va outside => ?_, ?_⟩
  · exact page_setPage_other (fun same => other dst (same ▸ found))
  · obtain ⟨page, offset⟩ := inside va low high
    unfold userByte
    rw [same, translate_page s r va dst page, found, Option.map_some, page_setPage_same,
      byteAt_write _ _ _ _ (Nat.mod_lt _ (by decide)), if_pos (by omega), offset, Nat.add_sub_cancel_left]
  · unfold userByte
    rw [same]
    cases there : translate s r va with
    | none => rfl
    | some y =>
      simp only [Option.map_some]
      by_cases here : y = x
      · subst here
        have page := user.once va dst y there found
        rw [page_setPage_same, byteAt_write _ _ _ _ (Nat.mod_lt _ (by decide)), if_neg]
        intro range
        refine outside ⟨?_, ?_, fun a low high => ?_⟩
        · unfold PGSIZE at *
          omega
        · unfold PGSIZE at *
          omega
        · rw [translate_page s r a dst (by unfold PGSIZE at *; omega), found]
          exact Option.some_ne_none _
      · rw [page_setPage_other here]
  · simp only [true_iff]
    intro va low high
    rw [translate_page s r va dst (inside va low high).1, found]
    exact Option.some_ne_none _

theorem Wrote.trans {s₁ s₂ : Mem} {dst n : Nat} {src : List Byte} {ok : Bool} (short : n ≤ src.length)
    (first : Wrote s r dst (src.take n) true s₁) (rest : Wrote s₁ r (dst + n) (src.drop n) ok s₂) :
    Wrote s r dst src ok s₂ := by
  have same : ∀ va, translate s₁ r va = translate s r va := fun va => translate_congr first.tables
  have length : (src.take n).length = n := length_take_of_le short
  have length' : (src.drop n).length = src.length - n := length_drop
  have early := first.complete.mp rfl
  rw [length] at early
  -- Beyond the first part the same addresses are reached from either start.
  have reached : ∀ va, dst + n ≤ va → (Reached s₁ r (dst + n) va ↔ Reached s r dst va) := by
    intro va low
    constructor
    · intro later a lower upper
      by_cases before : a < dst + n
      · exact early a lower before
      · rw [← same]
        exact later a (by omega) upper
    · intro all a lower upper
      rw [same]
      exact all a (by omega) upper
  refine ⟨fun p t found => ?_, rest.free.trans first.free, fun x other => ?_,
    fun va low high reach => ?_, fun va outside => ?_, ?_⟩
  · rw [rest.tables p t (by rw [tableAt_congr first.tables]; exact found), first.tables p t found]
  · rw [rest.others x (fun va => by rw [same]; exact other va), first.others x other]
  · by_cases before : va < dst + n
    · rw [rest.kept va (by omega), first.written va low (by omega) reach]
      congr 1
      simp only [getD_eq_getElem?_getD, List.getElem?_take, if_pos (show va - dst < n by omega)]
    · rw [rest.written va (by omega) (by omega) ((reached va (by omega)).mpr reach)]
      congr 1
      simp only [getD_eq_getElem?_getD, List.getElem?_drop]
      congr 2
      omega
  · rw [rest.kept va (fun range => outside ⟨by omega, by omega, (reached va range.1).mp range.2.2⟩),
      first.kept va (fun range => outside ⟨range.1, by omega, range.2.2⟩)]
  · rw [rest.complete]
    constructor
    · intro later va low high
      by_cases before : va < dst + n
      · exact early va low before
      · rw [← same]
        exact later va (by omega) (by omega)
    · intro all va low high
      rw [same]
      exact all va (by omega) (by omega)

theorem copyoutLoop_wrote (user : UserPages s r) (fuel dst : Nat) (src : List Byte) (enough : src.length ≤ fuel) :
    Ends (copyoutLoop r fuel dst src) s (fun ok s' => Wrote s r dst src ok s') := by
  induction fuel generalizing s dst src with
  | zero =>
    have empty : src = [] := length_eq_zero_iff.mp (by omega)
    subst empty
    exact Ends.pure (Wrote.nothing s r dst)
  | succ fuel ih =>
    unfold copyoutLoop
    by_cases empty : src = []
    · subst empty
      exact Ends.pure (Wrote.nothing s r dst)
    · have some := length_pos_iff.mpr empty
      rw [if_neg (by simpa using empty)]
      apply Ends.after (walkaddr_run s r (PGROUNDDOWN dst))
      rw [translate_rounddown]
      cases found : translate s r dst with
      | none => exact Ends.pure (Wrote.unreached dst src empty found)
      | some x =>
        have room := Nat.mod_lt dst (show 0 < PGSIZE by decide)
        simp only [offset_eq, next_page (translate_low found)]
        apply Ends.after (modify_ok _ s)
        have first := write_page user dst x (src.take (min (PGSIZE - dst % PGSIZE) src.length)) found (by
          rw [length_take]
          omega)
        by_cases last : src.length ≤ PGSIZE - dst % PGSIZE
        · rw [min_eq_right last] at first ⊢
          rw [drop_length]
          have done : copyoutLoop r fuel (dst + (PGSIZE - dst % PGSIZE)) [] =
              (pure true : VM Bool) := by cases fuel <;> rfl
          rw [done]
          refine Ends.pure (first.trans le_rfl ?_)
          rw [drop_length]
          exact Wrote.nothing _ r _
        · rw [min_eq_left (by omega)] at first ⊢
          apply Ends.weaken (ih (user.congr first.tables) _ _ (by rw [length_drop]; omega))
          intro ok s' rest
          exact first.trans (by omega) rest

theorem copyout_wrote (user : UserPages s r) (dst : Nat) (src : List Byte) :
    Ends (copyout r dst src) s (fun ok s' => Wrote s r dst src ok s') :=
  copyoutLoop_wrote user src.length dst src le_rfl

end Copyout

variable [Layout] {s : Mem} {r trapframe : Nat} {hand : List Nat}

theorem translate_owns (hand : List Nat) (top : Reserved s r trapframe) (va x : Nat)
    (found : translate s r va = some x) : Owns userVpn s (some r) hand (.leaf (vpn va)) x := by
  have low := translate_low found
  unfold translate at found
  rw [if_neg (Nat.not_le.mpr low)] at found
  obtain ⟨pte, leaf, entry⟩ := Option.bind_eq_some_iff.mp found
  split at entry
  · rename_i user
    obtain rfl := Option.some.inj entry
    rcases vpn_cases (vpn va) with inside | frame | tramp | beyond
    · exact Owns.leaf r pte _ rfl inside leaf
    · obtain ⟨pte', found', _, kernel⟩ := top.trapframe
      rw [← frame, leaf] at found'
      exact absurd user.1 (Option.some.inj found' ▸ kernel)
    · obtain ⟨pte', found', _, kernel⟩ := top.trampoline
      rw [← tramp, leaf] at found'
      exact absurd user.1 (Option.some.inj found' ▸ kernel)
    · rw [top.above _ beyond] at leaf
      cases leaf
  · cases entry

theorem translate_injective (before : Local userVpn s (some r) hand) (top : Reserved s r trapframe) (va va' x : Nat)
    (found : translate s r va = some x) (found' : translate s r va' = some x) : va / PGSIZE = va' / PGSIZE := by
  have same := before.exclusive _ _ x (translate_owns hand top va x found) (translate_owns hand top va' x found')
  have pagesEq := congrArg Vpn.page (by simpa using same : vpn va = vpn va')
  have low := translate_low found
  have low' := translate_low found'
  unfold MAXVA at low low'
  rwa [page_vpn va (by omega), page_vpn va' (by omega)] at pagesEq

theorem userPages_of_local (before : Local userVpn s (some r) hand) (top : Reserved s r trapframe) : UserPages s r where
  once := translate_injective before top
  apart va x p t found table := by
    rintro rfl
    have same := before.exclusive _ _ t (translate_owns hand top va t found) (Owns.table r t p rfl table)
    cases same

/-- A copy into an address space of the kernel's, which stays as it is. -/
structure Stored (s : Mem) (r : Nat) (hand : List Nat) (dst : Nat) (src : List Byte) (ok : Bool) (s' : Mem) : Prop
    extends Wrote s r dst src ok s' where
  safe : Local userVpn s' (some r) hand
  step : Step userVpn s (some r) hand s' (some r) hand

theorem Wrote.stored {s' : Mem} {dst : Nat} {src : List Byte} {ok : Bool} (wrote : Wrote s r dst src ok s')
    (before : Local userVpn s (some r) hand) (top : Reserved s r trapframe) : Stored s r hand dst src ok s' := by
  have tables : ∀ r', some r = some r' → SameTables s s' r' := fun r' here => Option.some.inj here ▸ wrote.tables
  have kept := Local.of_same before (owns_congr wrote.free tables)
    (fun r' here => wellFormed_congr (tables r' here) (before.wf r' here)) (by rw [wrote.free]; exact before.nodup)
    fun x outside => wrote.others x fun va found => outside ⟨_, translate_owns hand top va x found⟩
  exact ⟨wrote, kept.1, kept.2⟩

theorem store_page (before : Local userVpn s (some r) hand) (top : Reserved s r trapframe) (dst x : Nat)
    (src : List Byte) (found : translate s r dst = some x) (fits : dst % PGSIZE + src.length ≤ PGSIZE) :
    Stored s r hand dst src true (s.setPage x (Page.write (s.page x) (dst % PGSIZE) src)) :=
  (write_page (userPages_of_local before top) dst x src found fits).stored before top

theorem copyout_ends (before : Local userVpn s (some r) hand) (top : Reserved s r trapframe) (dst : Nat)
    (src : List Byte) : Ends (copyout r dst src) s (fun ok s' => Stored s r hand dst src ok s') := by
  apply Ends.weaken (copyout_wrote (userPages_of_local before top) dst src)
  intro ok s' wrote
  exact wrote.stored before top

end Xv6.Vm.UserMem
