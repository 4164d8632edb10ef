import Mathlib

/-! Little-endian words inside a fixed-size buffer of bytes. -/

namespace Xv6.Lib.Bytes

abbrev Byte := BitVec 8

abbrev Buffer (size : Nat) := Fin size → Byte

variable {size : Nat}

def byteAt (buffer : Buffer size) (offset : Nat) : Byte :=
  if bound : offset < size then buffer ⟨offset, bound⟩ else 0

theorem byteAt_fin {size : Nat} (buffer : Buffer size) (i : Fin size) : byteAt buffer i.val = buffer i := by
  simp [byteAt, i.isLt]

/-- The number stored in count bytes, lowest byte first. -/
def getLE (buffer : Buffer size) (offset : Nat) : Nat → Nat
  | 0 => 0
  | count + 1 => (byteAt buffer offset).toNat + 256 * getLE buffer (offset + 1) count

def setLE (buffer : Buffer size) (offset count value : Nat) : Buffer size :=
  fun i => if offset ≤ i.val ∧ i.val < offset + count then BitVec.ofNat 8 (value / 256 ^ (i.val - offset))
    else buffer i

theorem byteAt_setLE_inside (buffer : Buffer size) (offset count value i : Nat)
    (lower : offset ≤ i) (upper : i < offset + count) (room : offset + count ≤ size) :
    byteAt (setLE buffer offset count value) i = BitVec.ofNat 8 (value / 256 ^ (i - offset)) := by
  have bound : i < size := by omega
  simp only [byteAt, setLE, dif_pos bound, if_pos (And.intro lower upper)]

theorem byteAt_setLE_outside (buffer : Buffer size) (offset count value i : Nat)
    (outside : i < offset ∨ offset + count ≤ i) :
    byteAt (setLE buffer offset count value) i = byteAt buffer i := by
  have absent : ¬(offset ≤ i ∧ i < offset + count) := by omega
  simp only [byteAt, setLE, if_neg absent]

theorem getLE_congr (first second : Buffer size) (offset count : Nat)
    (same : ∀ i, offset ≤ i → i < offset + count → byteAt first i = byteAt second i) :
    getLE first offset count = getLE second offset count := by
  induction count generalizing offset with
  | zero => rfl
  | succ count ih =>
    simp only [getLE]
    rw [same offset (by omega) (by omega), ih (offset + 1) (fun i lower upper => same i (by omega) (by omega))]

theorem getLE_of_bytes (buffer : Buffer size) (offset count value : Nat)
    (bytes : ∀ i, i < count → byteAt buffer (offset + i) = BitVec.ofNat 8 (value / 256 ^ i)) :
    getLE buffer offset count = value % 256 ^ count := by
  induction count generalizing offset value with
  | zero => simp [getLE, Nat.mod_one]
  | succ count ih =>
    have head := bytes 0 (by omega)
    have tail := ih (offset + 1) (value / 256) (fun i bound => by
      rw [Nat.div_div_eq_div_mul, ← pow_succ', show offset + 1 + i = offset + (i + 1) by omega]
      exact bytes (i + 1) (by omega))
    simp only [Nat.add_zero, pow_zero, Nat.div_one] at head
    have split : value % 256 ^ (count + 1) = value % 256 + 256 * (value / 256 % 256 ^ count) := by
      rw [pow_succ', Nat.mod_mul]
    rw [split]
    simp only [getLE, head, tail, BitVec.toNat_ofNat]

theorem getLE_setLE_same (buffer : Buffer size) (offset count value : Nat) (room : offset + count ≤ size) :
    getLE (setLE buffer offset count value) offset count = value % 256 ^ count := by
  apply getLE_of_bytes
  intro i bound
  rw [byteAt_setLE_inside buffer offset count value (offset + i) (by omega) (by omega) room,
    Nat.add_sub_cancel_left]

theorem getLE_setLE_other (buffer : Buffer size) (offset count value other width : Nat)
    (apart : other + width ≤ offset ∨ offset + count ≤ other) :
    getLE (setLE buffer offset count value) other width = getLE buffer other width := by
  apply getLE_congr
  intro i lower upper
  exact byteAt_setLE_outside buffer offset count value i (by omega)

def getWord (buffer : Buffer size) (offset : Nat) : BitVec 32 := BitVec.ofNat 32 (getLE buffer offset 4)

def setWord (buffer : Buffer size) (offset : Nat) (word : BitVec 32) : Buffer size :=
  setLE buffer offset 4 word.toNat

theorem getWord_setWord_same (buffer : Buffer size) (offset : Nat) (word : BitVec 32)
    (room : offset + 4 ≤ size) : getWord (setWord buffer offset word) offset = word := by
  unfold getWord setWord
  rw [getLE_setLE_same buffer offset 4 word.toNat room]
  apply BitVec.eq_of_toNat_eq
  have bound := word.isLt
  simp only [BitVec.toNat_ofNat]
  omega

theorem getWord_setWord_other (buffer : Buffer size) (offset other : Nat) (word : BitVec 32)
    (apart : other + 4 ≤ offset ∨ offset + 4 ≤ other) :
    getWord (setWord buffer offset word) other = getWord buffer other := by
  unfold getWord setWord
  rw [getLE_setLE_other buffer offset 4 word.toNat other 4 apart]

theorem byteAt_zero (i : Nat) : byteAt (fun _ => 0 : Buffer size) i = 0 := by
  unfold byteAt
  split <;> rfl

theorem getWord_zero (offset : Nat) : getWord (fun _ => 0 : Buffer size) offset = 0 := by
  simp only [getWord, getLE, byteAt_zero]
  rfl

def splice (buffer : Buffer size) (offset count : Nat) (bytes : Nat → Byte) : Buffer size :=
  fun i => if offset ≤ i.val ∧ i.val < offset + count then bytes (i.val - offset) else buffer i

theorem byteAt_splice (buffer : Buffer size) (offset count : Nat) (bytes : Nat → Byte) (i : Nat) (inside : i < size) :
    byteAt (splice buffer offset count bytes) i =
      if offset ≤ i ∧ i < offset + count then bytes (i - offset) else byteAt buffer i := by
  simp only [byteAt, splice, dif_pos inside]

theorem byteAt_splice_outside (buffer : Buffer size) (offset count : Nat) (bytes : Nat → Byte) (i : Nat)
    (outside : i < offset ∨ offset + count ≤ i) : byteAt (splice buffer offset count bytes) i = byteAt buffer i := by
  have absent : ¬(offset ≤ i ∧ i < offset + count) := by omega
  simp only [byteAt, splice, if_neg absent]

def slice (buffer : Buffer size) (offset count : Nat) : Buffer count := fun i => byteAt buffer (offset + i.val)

theorem slice_congr (first second : Buffer size) (offset count : Nat)
    (same : ∀ i, offset ≤ i → i < offset + count → byteAt first i = byteAt second i) :
    slice first offset count = slice second offset count := by
  funext i
  exact same (offset + i.val) (by omega) (by omega)

theorem slice_splice_same (buffer : Buffer size) (offset count : Nat) (record : Buffer count) (room : offset + count ≤ size) :
    slice (splice buffer offset count (byteAt record)) offset count = record := by
  funext i
  have here : offset ≤ offset + i.val ∧ offset + i.val < offset + count := by omega
  rw [slice, byteAt_splice _ _ _ _ _ (by omega), if_pos here, Nat.add_sub_cancel_left, byteAt_fin]

theorem slice_splice_other (buffer : Buffer size) (offset count other width : Nat) (bytes : Nat → Byte)
    (apart : other + width ≤ offset ∨ offset + count ≤ other) :
    slice (splice buffer offset count bytes) other width = slice buffer other width := by
  apply slice_congr
  intro i lower upper
  exact byteAt_splice_outside buffer offset count bytes i (by omega)

end Xv6.Lib.Bytes
