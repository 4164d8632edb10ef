import Xv6.Vm.Pagetable

/-! Arithmetic of page-table entries and of virtual page numbers. -/

namespace Xv6.Vm.Entry
open Lib.Bytes Memory

theorem and_low (a mask : Nat) (small : mask < 2 ^ 10) : a &&& mask = (a % 2 ^ 10) &&& mask := by
  have kept : (a &&& mask) % 2 ^ 10 = a &&& mask := Nat.mod_eq_of_lt (lt_of_le_of_lt Nat.and_le_right small)
  rw [← kept, Nat.and_mod_two_pow, Nat.mod_eq_of_lt small]

theorem pa2pte_or (x flags : Nat) (small : flags < 2 ^ 10) : PA2PTE x ||| flags = x * 2 ^ 10 + flags := by
  unfold PA2PTE
  rw [← Nat.shiftLeft_add_eq_or_of_lt small, Nat.shiftLeft_eq]

theorem entry_eq (x perm : Nat) (small : perm < 2 ^ 10) :
    PA2PTE x ||| perm ||| PTE_V = x * 2 ^ 10 + (perm ||| PTE_V) ∧ perm ||| PTE_V < 2 ^ 10 := by
  have flags : perm ||| PTE_V < 2 ^ 10 := Nat.or_lt_two_pow small (by decide)
  refine ⟨?_, flags⟩
  rw [Nat.or_assoc, pa2pte_or x _ flags]

theorem entry_mod (x flags : Nat) (small : flags < 2 ^ 10) : (x * 2 ^ 10 + flags) % 2 ^ 10 = flags := by
  rw [Nat.mul_comm, Nat.mul_add_mod, Nat.mod_eq_of_lt small]

theorem pte2pa_entry (x flags : Nat) (page : x < 2 ^ 52) (small : flags < 2 ^ 10) :
    PTE2PA (x * 2 ^ 10 + flags) = x := by
  unfold PTE2PA
  rw [Nat.shiftRight_eq_div_pow, Nat.mul_comm, Nat.mul_add_div (by decide), Nat.div_eq_of_lt small, Nat.add_zero,
    Nat.mod_eq_of_lt page]

variable (pte : Nat)

theorem valid_low : Valid pte ↔ Valid (pte % 2 ^ 10) := by
  unfold Valid
  rw [and_low pte PTE_V (by decide)]

theorem leaf_low : Leaf pte ↔ Leaf (pte % 2 ^ 10) := by
  unfold Leaf
  rw [and_low pte _ (by decide)]

theorem user_low : User pte ↔ User (pte % 2 ^ 10) := by
  unfold User
  rw [and_low pte PTE_U (by decide)]

theorem valid_or (perm : Nat) : Valid (perm ||| PTE_V) := by
  unfold Valid
  rw [Nat.and_or_distrib_right]
  simp [PTE_V]

theorem leaf_or (perm : Nat) : Leaf (perm ||| PTE_V) ↔ Leaf perm := by
  unfold Leaf
  rw [Nat.and_or_distrib_right]
  simp [PTE_V, PTE_R, PTE_W, PTE_X]

theorem user_or (perm : Nat) : User (perm ||| PTE_V) ↔ User perm := by
  unfold User
  rw [Nat.and_or_distrib_right]
  simp [PTE_V, PTE_U]

theorem flags_eq : PTE_FLAGS pte = pte % 2 ^ 10 := Nat.and_two_pow_sub_one_eq_mod pte 10

theorem flags_valid (valid : Valid pte) : PTE_FLAGS pte ||| PTE_V = PTE_FLAGS pte := by
  have odd : pte.testBit 0 = true := by
    by_contra even
    refine valid ((Nat.and_one_is_mod pte).trans ?_)
    rw [Nat.testBit_zero, decide_eq_true_eq] at even
    omega
  refine Nat.eq_of_testBit_eq fun i => ?_
  rw [Nat.testBit_or, flags_eq, Nat.testBit_mod_two_pow]
  cases i with
  | zero => simp [odd]
  | succ i => simp [PTE_V, Nat.testBit_succ]

structure Reads (pte x perm : Nat) : Prop where
  bound : pte < 2 ^ 64
  page : PTE2PA pte = x
  valid : Valid pte
  leaf : Leaf pte ↔ Leaf perm
  user : User pte ↔ User perm
  flags : PTE_FLAGS pte = perm ||| PTE_V

theorem reads_entry (x perm : Nat) (page : x < 2 ^ 52) (small : perm < 2 ^ 10) :
    Reads (PA2PTE x ||| perm ||| PTE_V) x perm := by
  obtain ⟨value, flags⟩ := entry_eq x perm small
  have low := entry_mod x _ flags
  rw [value]
  refine ⟨by omega, pte2pa_entry x _ page flags, ?_, ?_, ?_, ?_⟩
  · rw [valid_low, low]
    exact valid_or perm
  · rw [leaf_low, low]
    exact leaf_or perm
  · rw [user_low, low]
    exact user_or perm
  · rw [flags_eq, low]

theorem reads_branch (x : Nat) (page : x < 2 ^ 52) : Reads (PA2PTE x ||| PTE_V) x 0 := by
  simpa using reads_entry x 0 page (by decide)

theorem clear_user :
    PTE2PA (pte &&& (2 ^ 64 - 1 - PTE_U)) = PTE2PA pte ∧ (Valid (pte &&& (2 ^ 64 - 1 - PTE_U)) ↔ Valid pte) ∧
      (Leaf (pte &&& (2 ^ 64 - 1 - PTE_U)) ↔ Leaf pte) ∧ pte &&& (2 ^ 64 - 1 - PTE_U) < 2 ^ 64 := by
  refine ⟨?_, ?_, ?_, lt_of_le_of_lt Nat.and_le_right (by decide)⟩
  · have high : (2 ^ 64 - 1 - PTE_U) >>> 10 = 2 ^ 54 - 1 := by decide
    unfold PTE2PA
    rw [Nat.shiftRight_and_distrib, high, Nat.and_two_pow_sub_one_eq_mod, Nat.mod_mod_of_dvd _ (by decide)]
  · unfold Valid
    rw [Nat.and_assoc, show (2 ^ 64 - 1 - PTE_U) &&& PTE_V = PTE_V by decide]
  · unfold Leaf
    rw [Nat.and_assoc, show (2 ^ 64 - 1 - PTE_U) &&& (PTE_R ||| PTE_W ||| PTE_X) = PTE_R ||| PTE_W ||| PTE_X by decide]

theorem not_user_clear : ¬User (pte &&& (2 ^ 64 - 1 - PTE_U)) := by
  unfold User
  rw [Nat.and_assoc, show (2 ^ 64 - 1 - PTE_U) &&& PTE_U = 0 by decide, Nat.and_zero]
  exact not_not.mpr rfl

theorem pte_setPte_same {s : Mem} {table : Nat} {i : Fin 512} {pte : Nat} (bound : pte < 2 ^ 64) :
    (s.setPte table i pte).pte table i = pte := by
  unfold Mem.setPte Mem.pte
  have room : 8 * i.val + 8 ≤ PGSIZE := by
    have := i.isLt
    simp only [PGSIZE]
    omega
  rw [page_setPage_same, getLE_setLE_same _ _ _ _ room]
  exact Nat.mod_eq_of_lt (by simpa using bound)

theorem pte_setPte_index {s : Mem} {table : Nat} {i j : Fin 512} {pte : Nat} (different : j ≠ i) :
    (s.setPte table i pte).pte table j = s.pte table j := by
  unfold Mem.setPte Mem.pte
  have apart : j.val ≠ i.val := fun same => different (Fin.ext same)
  rw [page_setPage_same, getLE_setLE_other _ _ _ _ _ _ (by omega)]

theorem pte_setPte_table {s : Mem} {table other : Nat} {i j : Fin 512} {pte : Nat} (different : other ≠ table) :
    (s.setPte table i pte).pte other j = s.pte other j := by
  unfold Mem.setPte Mem.pte
  rw [page_setPage_other different]

theorem pte_zeroPage (s : Mem) (x : Nat) (i : Fin 512) : (s.setPage x (fun _ => 0)).pte x i = 0 := by
  unfold Mem.pte
  rw [page_setPage_same]
  have zeros : ∀ offset count, getLE ((fun _ => 0) : Page) offset count = 0 := by
    intro offset count
    induction count generalizing offset with
    | zero => rfl
    | succ count ih =>
      simp only [getLE, ih, byteAt]
      split <;> rfl
  exact zeros _ _

theorem not_valid_zero : ¬Valid 0 := by decide

theorem Reads.and_mask {pte x perm : Nat} (reads : Reads pte x perm) (mask : Nat) (small : mask < 2 ^ 10)
    (apart : PTE_V &&& mask = 0) : pte &&& mask = perm &&& mask := by
  rw [and_low pte mask small, ← flags_eq, reads.flags, Nat.and_or_distrib_right, apart, Nat.or_zero]

end Xv6.Vm.Entry
