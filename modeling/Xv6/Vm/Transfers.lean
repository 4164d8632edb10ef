import Xv6.Vm.UserMem

/-! copyin and copyout against the translation of single addresses. -/

namespace Xv6.Vm.Transfers
open Lib.Exec Lib.Bytes Memory Pagetable Entry Space UserMem List Option

section Readable
variable {mem : Nat → Option Byte}

variable (mem : Nat → Option Byte) (count va : Nat)

theorem length_readUpto : (readUpto mem count va).length ≤ count := by
  induction count generalizing va with
  | zero => exact le_rfl
  | succ count ih =>
    have rest := ih (va + 1)
    unfold readUpto
    split
    · exact Nat.zero_le _
    · rw [length_cons]
      omega

theorem readUpto_byte (count va k : Nat) (inside : k < (readUpto mem count va).length) :
    mem (va + k) = (readUpto mem count va)[k]? := by
  induction count generalizing va k with
  | zero => exact absurd inside (Nat.not_lt_zero k)
  | succ count ih =>
    cases byte : mem va with
    | none =>
      rw [readUpto_none byte] at inside
      exact absurd inside (Nat.not_lt_zero k)
    | some b =>
      rw [readUpto_some byte] at inside ⊢
      cases k with
      | zero => exact byte
      | succ k =>
        rw [List.getElem?_cons_succ, ← ih (va + 1) k (by simpa using inside)]
        congr 1
        omega

theorem readUpto_stops (short : (readUpto mem count va).length < count) :
    mem (va + (readUpto mem count va).length) = none := by
  induction count generalizing va with
  | zero => omega
  | succ count ih =>
    cases byte : mem va with
    | none =>
      rw [readUpto_none byte]
      exact byte
    | some b =>
      rw [readUpto_some byte, length_cons] at short ⊢
      rw [← ih (va + 1) (by omega)]
      congr 1
      omega

theorem readUpto_complete : (readUpto mem count va).length = count ↔ ∀ k < count, mem (va + k) ≠ none := by
  constructor
  · intro all k inside
    rw [readUpto_byte mem count va k (by omega), List.getElem?_eq_getElem (by omega)]
    exact some_ne_none _
  · intro all
    by_contra short
    have bound := length_readUpto mem count va
    exact all _ (by omega) (readUpto_stops mem count va (by omega))

end Readable

/-- The user can reach the address: it is below MAXVA and its entry has PTE_V and PTE_U. -/
def Mapped (s : Mem) (r va : Nat) : Prop := va < MAXVA ∧ ∃ pte, leafAt s r (vpn va) = some pte ∧ User pte

section Reach
variable {s s' : Mem} {r : Nat}

theorem translate_leaf {va x : Nat} (found : translate s r va = some x) :
    va < MAXVA ∧ ∃ pte, leafAt s r (vpn va) = some pte ∧ User pte ∧ PTE2PA pte = x := by
  have low := translate_low found
  unfold UserMem.translate at found
  rw [if_neg (Nat.not_le.mpr low)] at found
  obtain ⟨pte, leaf, entry⟩ := bind_eq_some_iff.mp found
  split_ifs at entry with user
  exact ⟨low, pte, leaf, user.1, Option.some.inj entry⟩

/-- The first m bytes of src have gone to the addresses from va on, and nothing else has changed. -/
structure Moved (s : Mem) (r va : Nat) (src : List Byte) (m : Nat) (s' : Mem) : Prop where
  bytes : ∀ k < m, userByte s' r (va + k) = src[k]?
  elsewhere : ∀ a, ¬(va ≤ a ∧ a < va + m) → userByte s' r a = userByte s r a
  others : ∀ x, (∀ a, translate s r a ≠ some x) → s'.page x = s.page x
  free : s'.freelist = s.freelist

/-- How much of the range can be reached from its start. -/
def reach (s : Mem) (r va len : Nat) : Nat := (readUpto (userByte s r) len va).length

theorem reach_iff {va len k : Nat} (inside : k < len) : k < reach s r va len ↔ Reached s r va (va + k) := by
  constructor
  · intro short a low high
    have byte := readUpto_byte (userByte s r) len va (a - va) (by unfold reach at short; omega)
    rw [Nat.add_sub_cancel' low] at byte
    rw [← userByte_ne_none, byte, List.getElem?_eq_getElem (by unfold reach at short; omega)]
    exact some_ne_none _
  · intro reached
    by_contra beyond
    unfold reach at beyond
    exact userByte_ne_none.mpr (reached (va + _) (by omega) (by omega)) (readUpto_stops (userByte s r) len va (by omega))

theorem reach_boundary (s : Mem) (r va len : Nat) (short : reach s r va len < len) :
    reach s r va len = 0 ∨ (va + reach s r va len) % PGSIZE = 0 := by
  rcases Nat.eq_zero_or_pos (reach s r va len) with none | some
  · exact .inl none
  · right
    have stops : userByte s r (va + reach s r va len) = none := readUpto_stops (userByte s r) len va short
    have before : translate s r (va + (reach s r va len - 1)) ≠ none :=
      (reach_iff (by omega)).mp (Nat.sub_lt some Nat.one_pos) _ (by omega) le_rfl
    by_contra inner
    refine userByte_ne_none.mpr ?_ stops
    rw [translate_page s r _ (va + (reach s r va len - 1)) (by unfold PGSIZE at *; omega)]
    exact before

theorem moved_of_wrote {va : Nat} {src : List Byte} {ok : Bool} (wrote : Wrote s r va src ok s') :
    Moved s r va src (reach s r va src.length) s' where
  bytes k inside := by
    have bound : k < src.length := inside.trans_le (length_readUpto _ _ _)
    rw [wrote.written (va + k) (by omega) (by omega) ((reach_iff bound).mp inside), Nat.add_sub_cancel_left,
      getD_eq_getElem _ _ bound, List.getElem?_eq_getElem bound]
  elsewhere a outside := by
    refine wrote.kept a fun range => outside ⟨range.1, ?_⟩
    have bound : a - va < src.length := by omega
    have inside : a - va < reach s r va src.length := (reach_iff bound).mpr (by rw [Nat.add_sub_cancel' range.1]; exact range.2.2)
    omega
  others := wrote.others
  free := wrote.free

end Reach

section Pages
variable [Layout] {s s' : Mem} {r : Nat}

/-- The user pages of the table are distinct pages of RAM, and none is a page of the table itself. -/
structure RamPages (s : Mem) (r : Nat) : Prop where
  ram : ∀ va pte, va < MAXVA → leafAt s r (vpn va) = some pte → User pte → InRam (PTE2PA pte)
  once : ∀ va va' pte pte', va < MAXVA → va' < MAXVA → leafAt s r (vpn va) = some pte → leafAt s r (vpn va') = some pte' →
    User pte → User pte' → PTE2PA pte = PTE2PA pte' → va / PGSIZE = va' / PGSIZE
  apart : ∀ va pte p t, va < MAXVA → leafAt s r (vpn va) = some pte → User pte → tableAt s r p = some t → t ≠ PTE2PA pte

theorem RamPages.translate_iff (pages : RamPages s r) (va : Nat) : translate s r va ≠ none ↔ Mapped s r va := by
  unfold UserMem.translate Mapped
  by_cases high : MAXVA ≤ va
  · rw [if_pos high]
    exact iff_of_false (fun some => some rfl) fun mapped => Nat.not_le.mpr mapped.1 high
  · have low := Nat.lt_of_not_le high
    rw [if_neg high]
    cases leaf : leafAt s r (vpn va) with
    | none => simp
    | some pte =>
      by_cases user : User pte
      · simp [user, low, inRam_ne_zero (pages.ram va pte low leaf user)]
      · simp [user]

theorem RamPages.userPages (pages : RamPages s r) : UserPages s r where
  once va va' x found found' := by
    obtain ⟨low, pte, leaf, user, page⟩ := translate_leaf found
    obtain ⟨low', pte', leaf', user', page'⟩ := translate_leaf found'
    exact pages.once va va' pte pte' low low' leaf leaf' user user' (page.trans page'.symm)
  apart va x p t found table := by
    obtain ⟨low, pte, leaf, user, rfl⟩ := translate_leaf found
    exact pages.apart va pte p t low leaf user table

/-- Against any such table copyout and copyin return 0 exactly for the ranges that are mapped throughout; they move the
bytes of the range and no others, in a failure up to the start of a page; and what copyout wrote copyin reads. -/
theorem copies_agree (pages : RamPages s r) (va : Nat) :
    (∀ src : List Byte, Ends (copyout r va src) s fun ok s' =>
      (ok = true ↔ ∀ k < src.length, Mapped s r (va + k)) ∧
      (ok = true → Moved s r va src src.length s' ∧ copyinStoring r va src.length s' = .ok (src, true) s') ∧
      (ok = false → ∃ m < src.length, Moved s r va src m s' ∧ (m = 0 ∨ (va + m) % PGSIZE = 0))) ∧
    ∀ len, ∃ copied ok, copyinStoring r va len s = .ok (copied, ok) s ∧
      (ok = true ↔ ∀ k < len, Mapped s r (va + k)) ∧
      (∀ k < copied.length, userByte s r (va + k) = copied[k]?) ∧
      (ok = true → copied.length = len) ∧
      (ok = false → copied.length < len ∧ (copied.length = 0 ∨ (va + copied.length) % PGSIZE = 0)) := by
  have mapped : ∀ len, reach s r va len = len ↔ ∀ k < len, Mapped s r (va + k) := by
    intro len
    rw [reach, readUpto_complete]
    exact forall₂_congr fun k _ => userByte_ne_none.trans (pages.translate_iff (va + k))
  constructor
  · intro src
    apply Ends.weaken (copyout_wrote pages.userPages va src)
    intro ok s' wrote
    have bound : reach s r va src.length ≤ src.length := length_readUpto _ _ _
    have complete : ok = true ↔ reach s r va src.length = src.length := by
      rw [wrote.complete, mapped]
      constructor
      · intro all k inside
        exact (pages.translate_iff _).mp (all (va + k) (by omega) (by omega))
      · intro all a low high
        have here := (pages.translate_iff _).mpr (all (a - va) (by omega))
        rwa [Nat.add_sub_cancel' low] at here
    refine ⟨complete.trans (mapped src.length), fun done => ?_, fun failed => ?_⟩
    · have all := complete.mp done
      have moved := moved_of_wrote wrote
      rw [all] at moved
      refine ⟨moved, ?_⟩
      subst done
      have read := wrote.read
      rw [readBytes_eq_readUpto] at read
      rw [copyinStoring_run]
      split_ifs at read with whole
      rw [Option.some.inj read, decide_eq_true rfl]
    · have short : reach s r va src.length < src.length := by
        refine Nat.lt_of_le_of_ne bound fun all => ?_
        rw [complete.mpr all] at failed
        cases failed
      exact ⟨_, short, moved_of_wrote wrote, reach_boundary s r va src.length short⟩
  · intro len
    have bound : reach s r va len ≤ len := length_readUpto _ _ _
    refine ⟨_, _, copyinStoring_run s r va len, ?_, readUpto_byte (userByte s r) len va, fun done => ?_, fun failed => ?_⟩
    · rw [decide_eq_true_eq]
      exact mapped len
    · exact of_decide_eq_true done
    · have short : reach s r va len < len := Nat.lt_of_le_of_ne bound (of_decide_eq_false failed)
      exact ⟨short, reach_boundary s r va len short⟩

end Pages

def single (perm : Nat) : Mem :=
  ((Mem.setPte { page := fun _ _ => 0, freelist := [] } 0x87000 0 (PA2PTE 0x87001 ||| PTE_V)).setPte 0x87001 0
    (PA2PTE 0x87002 ||| PTE_V)).setPte 0x87002 0 (PA2PTE 0x87003 ||| perm ||| PTE_V)

theorem pte_blank (t : Nat) (i : Fin 512) : Mem.pte { page := fun _ _ => 0, freelist := [] } t i = 0 := by
  have zero := pte_zeroPage { page := fun _ _ => 0, freelist := [] } t i
  rwa [show Mem.setPage { page := fun _ _ => 0, freelist := [] } t (fun _ => 0) = { page := fun _ _ => 0, freelist := [] } by
    unfold Mem.setPage; rw [Function.update_eq_self]] at zero

theorem single_pte (perm : Nat) (small : PA2PTE 0x87003 ||| perm ||| PTE_V < 2 ^ 64) (t : Nat) (i : Fin 512) :
    (single perm).pte t i = if i ≠ 0 then 0 else if t = 0x87000 then PA2PTE 0x87001 ||| PTE_V else
      if t = 0x87001 then PA2PTE 0x87002 ||| PTE_V else if t = 0x87002 then PA2PTE 0x87003 ||| perm ||| PTE_V else 0 := by
  unfold single
  by_cases third : t = 0x87002
  · subst third
    by_cases first : i = 0
    · rw [first, pte_setPte_same small]
      simp
    · rw [pte_setPte_index first, pte_setPte_table (by decide), pte_setPte_table (by decide),
        pte_blank]
      simp [first]
  · rw [pte_setPte_table third]
    by_cases second : t = 0x87001
    · subst second
      by_cases first : i = 0
      · rw [first, pte_setPte_same (by decide)]
        simp
      · rw [pte_setPte_index first, pte_setPte_table (by decide), pte_blank]
        simp [first]
    · rw [pte_setPte_table second]
      by_cases root : t = 0x87000
      · subst root
        by_cases first : i = 0
        · rw [first, pte_setPte_same (by decide)]
          simp
        · rw [pte_setPte_index first, pte_blank]
          simp [first]
      · rw [pte_setPte_table root, pte_blank]
        simp [root, second, third]

section Single
variable {perm : Nat} (small : PA2PTE 0x87003 ||| perm ||| PTE_V < 2 ^ 64)

include small in
theorem single_child (t : Nat) (i : Fin 512) (y : Nat) (here : child (single perm) t i = some y) :
    i = 0 ∧ ((t = 0x87000 ∧ y = 0x87001) ∨ (t = 0x87001 ∧ y = 0x87002) ∨ t = 0x87002) := by
  unfold child at here
  rw [single_pte perm small] at here
  by_cases first : i = 0
  · refine ⟨first, ?_⟩
    rw [if_neg (not_not.mpr first)] at here
    by_cases root : t = 0x87000
    · rw [if_pos root, if_pos (by decide)] at here
      exact .inl ⟨root, (Option.some.inj here).symm⟩
    · rw [if_neg root] at here
      by_cases second : t = 0x87001
      · rw [if_pos second, if_pos (by decide)] at here
        exact .inr (.inl ⟨second, (Option.some.inj here).symm⟩)
      · rw [if_neg second] at here
        by_cases third : t = 0x87002
        · exact .inr (.inr third)
        · rw [if_neg third, if_neg (by decide)] at here
          cases here
  · rw [if_pos first, if_neg (by decide)] at here
    cases here

include small in
theorem single_table (p : Path) (t : Nat) (here : tableAt (single perm) 0x87000 p = some t) :
    t = 0x87000 ∨ t = 0x87001 ∨ t = 0x87002 := by
  cases p with
  | root => exact .inl (Option.some.inj here).symm
  | mid i =>
    obtain ⟨_, (⟨_, same⟩ | ⟨same, _⟩ | same)⟩ := single_child small _ i t here
    · exact .inr (.inl same)
    · cases same
    · cases same
  | low i j =>
    obtain ⟨mid, first, second⟩ := bind_eq_some_iff.mp here
    obtain ⟨_, (⟨_, rfl⟩ | ⟨same, _⟩ | same)⟩ := single_child small _ i mid first
    · obtain ⟨_, (⟨same, _⟩ | ⟨_, same⟩ | same)⟩ := single_child small _ j t second
      · cases same
      · exact .inr (.inr same)
      · cases same
    · cases same
    · cases same

include small in
theorem single_leaf (v : Vpn) (pte : Nat) (here : leafAt (single perm) 0x87000 v = some pte) :
    v = vpn 0 ∧ pte = PA2PTE 0x87003 ||| perm ||| PTE_V := by
  obtain ⟨t, table, entry⟩ := bind_eq_some_iff.mp here
  obtain ⟨mid, first, second⟩ := bind_eq_some_iff.mp table
  obtain ⟨top, (⟨_, rfl⟩ | ⟨same, _⟩ | same)⟩ := single_child small _ v.top mid first
  · obtain ⟨middle, (⟨same, _⟩ | ⟨_, rfl⟩ | same)⟩ := single_child small _ v.mid t second
    · cases same
    · rw [single_pte perm small] at entry
      by_cases low : v.low = 0
      · rw [if_neg (not_not.mpr low), if_neg (show ¬0x87002 = 0x87000 by decide), if_neg (show ¬0x87002 = 0x87001 by decide),
          if_pos rfl, if_pos (valid_or _)] at entry
        refine ⟨?_, (Option.some.inj entry).symm⟩
        obtain ⟨_, _, _⟩ := v
        simp only at top middle low
        subst top middle low
        rfl
      · rw [if_pos low, if_neg (by decide)] at entry
        cases entry
    · cases same
  · cases same
  · cases same

include small in
theorem single_pages [Layout] (page : PTE2PA (PA2PTE 0x87003 ||| perm ||| PTE_V) = 0x87003) (ram : InRam 0x87003) :
    RamPages (single perm) 0x87000 where
  ram va pte _ leaf _ := by
    obtain ⟨_, rfl⟩ := single_leaf small _ pte leaf
    rw [page]
    exact ram
  once va va' pte pte' low low' leaf leaf' _ _ _ := by
    obtain ⟨here, _⟩ := single_leaf small _ pte leaf
    obtain ⟨here', _⟩ := single_leaf small _ pte' leaf'
    rw [← page_vpn va (by unfold MAXVA at low; omega), ← page_vpn va' (by unfold MAXVA at low'; omega), here, here']
  apart va pte p t _ leaf _ table := by
    obtain ⟨_, rfl⟩ := single_leaf small _ pte leaf
    rw [page]
    rcases single_table small p t table with rfl | rfl | rfl <;> decide

end Single

@[reducible] def sample : Layout := linked

theorem copies_agree_single : ∃ copied ok, copyinStoring 0x87000 0 5 (single 22) = .ok (copied, ok) (single 22) ∧
    (ok = true ↔ ∀ k < 5, Mapped (single 22) 0x87000 (0 + k)) := by
  let _ := sample
  have pages : RamPages (single 22) 0x87000 := single_pages (by decide) (by decide) (by decide)
  obtain ⟨copied, ok, ran, mapped, _⟩ := (copies_agree pages 0).2 5
  exact ⟨copied, ok, ran, mapped⟩

end Xv6.Vm.Transfers
