import Xv6.Lib.Bytes

/-! The bounded string copy of string.c on fixed-size arrays, and the two memmoves. -/

namespace Xv6.Str
open Lib.Bytes BitVec

variable {size length : Nat}

def setByte (s : Buffer size) (i : Nat) (value : Byte) : Buffer size :=
  fun j => if j.val = i then value else s j

def safestrcpyLoop (t : Buffer length) : Nat → Nat → Buffer size → Buffer size
  | 0, i, s => setByte s i 0
  | n + 1, i, s =>
      let s := setByte s i (byteAt t i)
      if byteAt t i = 0 then setByte s (i + 1) 0 else safestrcpyLoop t n (i + 1) s

/-- The size of s is the one passed as n; the byte after a copied terminator is cleared as well. -/
def safestrcpy (s : Buffer size) (t : Buffer length) : Buffer size :=
  if size = 0 then s else safestrcpyLoop t (size - 1) 0 s

def copied (t : Buffer length) : Nat → Nat → Nat
  | 0, _ => 0
  | n + 1, i => if byteAt t i = 0 then 1 else copied t n (i + 1) + 1

theorem copied_le (t : Buffer length) (n i : Nat) : copied t n i ≤ n := by
  induction n generalizing i with
  | zero => exact le_rfl
  | succ n ih =>
    have rest := ih (i + 1)
    unfold copied
    split <;> omega

theorem copied_nonzero (t : Buffer length) (n i j : Nat) (low : i ≤ j) (high : j + 1 < i + copied t n i) : byteAt t j ≠ 0 := by
  induction n generalizing i with
  | zero => simp only [copied] at high; omega
  | succ n ih =>
    unfold copied at high
    split at high
    · omega
    · rename_i other
      rcases Nat.eq_or_lt_of_le low with rfl | above
      · exact other
      · exact ih (i + 1) above (by omega)

theorem copied_last (t : Buffer length) (n i : Nat) (short : copied t n i < n) :
    ∃ j, i + copied t n i = j + 1 ∧ i ≤ j ∧ byteAt t j = 0 := by
  induction n generalizing i with
  | zero => omega
  | succ n ih =>
    unfold copied at short ⊢
    split at short
    · rename_i nul
      rw [if_pos nul]
      exact ⟨i, rfl, le_rfl, nul⟩
    · rename_i other
      rw [if_neg other]
      obtain ⟨j, here, above, nul⟩ := ih (i + 1) (by omega)
      exact ⟨j, by omega, by omega, nul⟩

theorem safestrcpyLoop_byte (t : Buffer length) (n i : Nat) (s : Buffer size) (j : Fin size) :
    safestrcpyLoop t n i s j = if j.val < i then s j else if j.val < i + copied t n i then byteAt t j.val
      else if j.val = i + copied t n i then 0 else s j := by
  induction n generalizing i s with
  | zero =>
    simp only [safestrcpyLoop, copied, setByte, Nat.add_zero]
    by_cases here : j.val = i
    · simp [here]
    · by_cases low : j.val < i <;> simp [here, low]
  | succ n ih =>
    unfold safestrcpyLoop copied
    by_cases nul : byteAt t i = 0
    · simp only [nul, if_true, setByte]
      by_cases here : j.val = i
      · simp [here, nul]
      · simp only [here, if_false]
        split_ifs <;> first | rfl | omega
    · simp only [nul, if_false]
      rw [ih]
      by_cases here : j.val = i
      · rw [if_pos (by omega), if_neg (by omega), if_pos (by omega), setByte, if_pos here, here]
      · simp only [setByte, if_neg here]
        split_ifs <;> first | rfl | omega

/-- The bytes that safestrcpy copies from t to a buffer of the given size, the terminator included. -/
def taken (size : Nat) (t : Buffer length) : Nat := copied t (size - 1) 0

theorem safestrcpy_byte (s : Buffer size) (t : Buffer length) (j : Fin size) :
    safestrcpy s t j = if j.val < taken size t then byteAt t j.val else if j.val = taken size t then 0 else s j := by
  have some := j.isLt
  rw [safestrcpy, if_neg (by omega), safestrcpyLoop_byte, if_neg (by omega), Nat.zero_add]
  rfl

theorem taken_lt (size : Nat) (some : 0 < size) (t : Buffer length) : taken size t < size := by
  have bound := copied_le t (size - 1) 0
  unfold taken
  omega

theorem copied_congr (t t' : Buffer length) (n i : Nat)
    (same : ∀ j, i ≤ j → j < i + copied t n i → byteAt t j = byteAt t' j) : copied t' n i = copied t n i := by
  induction n generalizing i with
  | zero => rfl
  | succ n ih =>
    unfold copied at same ⊢
    by_cases nul : byteAt t i = 0
    · rw [if_pos nul] at same ⊢
      rw [if_pos ((same i le_rfl (by omega)).symm.trans nul)]
    · rw [if_neg nul] at same ⊢
      rw [if_neg fun nul' => nul ((same i le_rfl (by omega)).trans nul'), ih (i + 1) fun j low high => same j (by omega) (by omega)]

theorem taken_le_of_eq (s s' : Buffer size) (t t' : Buffer length) (same : safestrcpy s t = safestrcpy s' t') :
    taken size t' ≤ taken size t := by
  by_contra longer
  have bound := copied_le t' (size - 1) 0
  have short : copied t (size - 1) 0 < size - 1 := by
    unfold taken at longer
    omega
  obtain ⟨j, here, _, nul⟩ := copied_last t (size - 1) 0 short
  rw [Nat.zero_add] at here
  have inside : j < taken size t := by
    unfold taken
    omega
  have byte := congrFun same ⟨j, by omega⟩
  rw [safestrcpy_byte, safestrcpy_byte, if_pos inside, if_pos (inside.trans (Nat.lt_of_not_le longer)), nul] at byte
  exact copied_nonzero t' (size - 1) 0 j (Nat.zero_le _) (by unfold taken at longer; omega) byte.symm

/-- Two copies are the same if what was copied and what was left are. -/
theorem safestrcpy_eq_iff (s s' : Buffer size) (t t' : Buffer length) :
    safestrcpy s t = safestrcpy s' t' ↔
      (∀ j, j < taken size t → byteAt t j = byteAt t' j) ∧ ∀ j : Fin size, taken size t < j.val → s j = s' j := by
  constructor
  · intro same
    have length : taken size t' = taken size t := le_antisymm (taken_le_of_eq s s' t t' same) (taken_le_of_eq s' s t' t same.symm)
    refine ⟨fun j inside => ?_, fun j outside => ?_⟩
    · have bound := copied_le t (size - 1) 0
      have byte := congrFun same ⟨j, by unfold taken at inside; omega⟩
      rwa [safestrcpy_byte, safestrcpy_byte, length, if_pos inside, if_pos inside] at byte
    · have byte := congrFun same j
      rwa [safestrcpy_byte, safestrcpy_byte, length, if_neg (by omega), if_neg (by omega), if_neg (by omega),
        if_neg (by omega)] at byte
  · rintro ⟨bytes, rest⟩
    have length : taken size t' = taken size t :=
      copied_congr t t' (size - 1) 0 fun j _ high => bytes j (by rwa [Nat.zero_add] at high)
    funext j
    rw [safestrcpy_byte, safestrcpy_byte, length]
    split_ifs with inside last
    · exact bytes j inside
    · rfl
    · exact rest j (by omega)

section Memmove

abbrev Memory := BitVec 64 → Byte

/-- while(n-- > 0) *d++ = *s++ -/
def copyUp : Nat → BitVec 64 → BitVec 64 → Memory → Memory
  | 0, _, _, m => m
  | n + 1, d, s, m => copyUp n (d + 1) (s + 1) (Function.update m d (m s))

/-- while(n-- > 0) *--d = *--s -/
def copyDown : Nat → BitVec 64 → BitVec 64 → Memory → Memory
  | 0, _, _, m => m
  | n + 1, d, s, m => copyDown n (d - 1) (s - 1) (Function.update m (d - 1) (m (s - 1)))

def Kernel.memmove (dst src : BitVec 64) (n : BitVec 32) (m : Memory) : Memory :=
  if n = 0 then m
  else if src < dst ∧ dst < src + n.setWidth 64 then
    copyDown n.toNat (dst + n.setWidth 64) (src + n.setWidth 64) m
  else copyUp n.toNat dst src m

def Ulib.memmove (dst src : BitVec 64) (n : BitVec 32) (m : Memory) : Memory :=
  if dst < src then copyUp n.toInt.toNat dst src m
  else copyDown n.toInt.toNat (dst + n.signExtend 64) (src + n.signExtend 64) m

/-- What a move of n bytes leaves, whatever the direction. -/
def moved (dst src : BitVec 64) (n : Nat) (m : Memory) : Memory :=
  fun a => if (a - dst).toNat < n then m (src + (a - dst)) else m a

/-- Upwards the next byte is still the original one unless the destination begins inside the source. -/
theorem copyUp_eq {n : Nat} {d s : BitVec 64} (small : n < 2 ^ 64) (clear : (d - s).toNat = 0 ∨ n ≤ (d - s).toNat)
    (m : Memory) : copyUp n d s m = moved d s n m := by
  induction n generalizing d s m with
  | zero => rfl
  | succ n ih =>
    have next : d + 1 - (s + 1) = d - s := by bv_omega
    rw [copyUp, ih (by omega) (by rw [next]; omega)]
    funext a
    unfold moved
    by_cases here : a = d
    · have last : ¬(d - (d + 1)).toNat < n := by bv_omega
      rw [here, if_neg last, if_pos (by simp), Function.update_self, sub_self, add_zero]
    · have count : (a - (d + 1)).toNat < n ↔ (a - d).toNat < n + 1 := by bv_omega
      simp only [count]
      split_ifs with inside
      · have read : s + 1 + (a - (d + 1)) = s + (a - d) := by bv_omega
        rw [read, Function.update_of_ne (by bv_omega)]
      · exact Function.update_of_ne here _ _

/-- Downwards it is unless the source begins inside the destination. -/
theorem copyDown_eq {n : Nat} {d s : BitVec 64} (small : n < 2 ^ 64) (clear : (s - d).toNat = 0 ∨ n ≤ (s - d).toNat)
    (m : Memory) :
    copyDown n (d + BitVec.ofNat 64 n) (s + BitVec.ofNat 64 n) m = moved d s n m := by
  induction n generalizing m with
  | zero => rfl
  | succ n ih =>
    have back : ∀ x : BitVec 64, x + BitVec.ofNat 64 (n + 1) - 1 = x + BitVec.ofNat 64 n := fun x => by bv_omega
    rw [copyDown, back, back, ih (by omega) (by omega)]
    funext a
    unfold moved
    by_cases here : a = d + BitVec.ofNat 64 n
    · have place : a - d = BitVec.ofNat 64 n := by bv_omega
      have last : (BitVec.ofNat 64 n).toNat = n := by bv_omega
      rw [place, last, if_neg (lt_irrefl n), if_pos (Nat.lt_succ_self n), here, Function.update_self]
    · have count : (a - d).toNat < n ↔ (a - d).toNat < n + 1 := by bv_omega
      simp only [count]
      split_ifs with inside
      · rw [Function.update_of_ne (by bv_omega)]
      · exact Function.update_of_ne here _ _

/-- The n bytes from dst on are what those from src on were, and every other byte is as it was. -/
structure Moves (m : Memory) (dst src : BitVec 64) (n : Nat) (out : Memory) : Prop where
  copied : ∀ i < n, out (dst + BitVec.ofNat 64 i) = m (src + BitVec.ofNat 64 i)
  kept : ∀ a, ¬(dst.toNat ≤ a.toNat ∧ a.toNat < dst.toNat + n) → out a = m a

theorem moves_moved {m : Memory} {dst src : BitVec 64} {n : Nat} (small : n < 2 ^ 64) (target : dst.toNat + n ≤ 2 ^ 64) :
    Moves m dst src n (moved dst src n m) where
  copied i inside := by
    have place : dst + BitVec.ofNat 64 i - dst = BitVec.ofNat 64 i := by bv_omega
    have count : (BitVec.ofNat 64 i).toNat = i := by bv_omega
    rw [moved, place, count, if_pos inside]
  kept a outside := if_neg (by bv_omega)

theorem kernel_memmove_eq (m : Memory) (dst src : BitVec 64) (n : BitVec 32) (source : src.toNat + n.toNat ≤ 2 ^ 64)
    (target : dst.toNat + n.toNat ≤ 2 ^ 64) : Kernel.memmove dst src n m = moved dst src n.toNat m := by
  have wide : n.setWidth 64 = BitVec.ofNat 64 n.toNat := by bv_omega
  unfold Kernel.memmove
  split_ifs with none overlaps
  · rw [none]
    rfl
  · rw [wide] at overlaps ⊢
    exact copyDown_eq (by omega) (by bv_omega) m
  · rw [wide] at overlaps
    exact copyUp_eq (by omega) (by bv_omega) m

theorem ulib_memmove_eq (m : Memory) (dst src : BitVec 64) (n : BitVec 32) (source : src.toNat + n.toNat ≤ 2 ^ 64)
    (target : dst.toNat + n.toNat ≤ 2 ^ 64) (positive : 0 ≤ n.toInt) : Ulib.memmove dst src n m = moved dst src n.toNat m := by
  have count : n.toInt.toNat = n.toNat := by
    rw [toInt_eq_toNat_cond] at positive ⊢
    split_ifs at positive ⊢ <;> omega
  have wide : n.signExtend 64 = BitVec.ofNat 64 n.toNat := by
    have sign : n.msb = false := by rw [msb_eq_toInt, decide_eq_false (by omega)]
    rw [signExtend_eq_setWidth_of_msb_false sign]
    bv_omega
  unfold Ulib.memmove
  rw [count]
  split_ifs with low
  · exact copyUp_eq (by omega) (by bv_omega) m
  · rw [wide]
    exact copyDown_eq (by omega) (by bv_omega) m

/-- Both memmoves move the bytes, however the ranges overlap, and so have the same effect. -/
theorem memmoves_agree (m : Memory) (dst src : BitVec 64) (n : BitVec 32) (source : src.toNat + n.toNat ≤ 2 ^ 64)
    (target : dst.toNat + n.toNat ≤ 2 ^ 64) :
    Moves m dst src n.toNat (Kernel.memmove dst src n m) ∧ (0 ≤ n.toInt →
      Moves m dst src n.toNat (Ulib.memmove dst src n m) ∧ Kernel.memmove dst src n m = Ulib.memmove dst src n m) := by
  rw [kernel_memmove_eq m dst src n source target]
  have moves : Moves m dst src n.toNat (moved dst src n.toNat m) := moves_moved (by omega) target
  refine ⟨moves, fun positive => ?_⟩
  rw [ulib_memmove_eq m dst src n source target positive]
  exact ⟨moves, rfl⟩

/-- Two bytes moved up by one, over one of them. -/
theorem memmoves_agree_overlapping :
    Moves (fun a => a.setWidth 8) 1 0 2 (Kernel.memmove 1 0 2 fun a => a.setWidth 8) ∧
      Moves (fun a => a.setWidth 8) 1 0 2 (Ulib.memmove 1 0 2 fun a => a.setWidth 8) := by
  have agree := memmoves_agree (fun a => a.setWidth 8) 1 0 2 (by decide) (by decide)
  exact ⟨agree.1, (agree.2 (by decide)).1⟩

end Memmove

end Xv6.Str
