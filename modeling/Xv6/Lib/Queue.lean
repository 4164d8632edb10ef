import Mathlib

/-! A circular buffer with free-running counters of a fixed width whose range the size of the buffer divides. -/

namespace Xv6.Lib.Queue

open List

variable {α : Type*} {w size : Nat} {nread nwrite : BitVec w} {data : Nat → α} {accepted delivered : List α}

/-- The counters and the buffer after these elements were put in and those taken out. -/
structure Fifo (size : Nat) (nread nwrite : BitVec w) (data : Nat → α) (accepted delivered : List α) : Prop where
  order : delivered <+: accepted
  room : accepted.length ≤ delivered.length + size
  taken : nread = BitVec.ofNat w delivered.length
  put : nwrite = BitVec.ofNat w accepted.length
  stored : ∀ k, delivered.length ≤ k → ∀ bound : k < accepted.length, data (k % size) = accepted[k]

theorem ofNat_add_eq_iff {a b : Nat} (low : a ≤ b) (small : b - a < 2 ^ w) :
    BitVec.ofNat w a = BitVec.ofNat w b ↔ a = b := by
  refine ⟨fun same => ?_, fun same => by rw [same]⟩
  have residues := congrArg BitVec.toNat same
  simp only [BitVec.toNat_ofNat] at residues
  have divides := (Nat.modEq_iff_dvd' low).mp residues
  have zero := Nat.eq_zero_of_dvd_of_lt divides small
  omega

theorem slot_eq (divides : size ∣ 2 ^ w) (count : Nat) : (BitVec.ofNat w count).toNat % size = count % size := by
  rw [BitVec.toNat_ofNat, Nat.mod_mod_of_dvd _ divides]

section
variable (fifo : Fifo size nread nwrite data accepted delivered)
include fifo

theorem Fifo.le : delivered.length ≤ accepted.length :=
  fifo.order.length_le

theorem Fifo.empty_iff (small : size < 2 ^ w) : nread = nwrite ↔ delivered = accepted := by
  have room := fifo.room
  rw [fifo.taken, fifo.put, ofNat_add_eq_iff fifo.le (by omega)]
  exact ⟨fun same => fifo.order.eq_of_length same, fun same => congrArg List.length same⟩

theorem Fifo.full_iff (small : size < 2 ^ w) :
    nwrite = nread + BitVec.ofNat w size ↔ accepted.length = delivered.length + size := by
  have low := fifo.le
  rw [fifo.taken, fifo.put, ← BitVec.ofNat_add, ofNat_add_eq_iff fifo.room (by omega)]

theorem Fifo.store (divides : size ∣ 2 ^ w) (free : accepted.length < delivered.length + size) (ch : α) :
    Fifo size nread nwrite (Function.update data (nwrite.toNat % size) ch) accepted delivered := by
  refine ⟨fifo.order, fifo.room, fifo.taken, fifo.put, fun k low before => ?_⟩
  -- two places less than size apart have different slots
  have other : k % size ≠ accepted.length % size := by
    intro same
    have multiple := (Nat.modEq_iff_dvd' before.le).mp same
    have zero := Nat.eq_zero_of_dvd_of_lt multiple (by omega)
    omega
  rw [fifo.put, slot_eq divides, Function.update_of_ne other]
  exact fifo.stored k low before

theorem Fifo.commit (divides : size ∣ 2 ^ w)
    (free : accepted.length < delivered.length + size) {ch : α} (here : data (nwrite.toNat % size) = ch) :
    Fifo size nread (nwrite + 1) data (accepted ++ [ch]) delivered where
  order := fifo.order.trans ⟨[ch], rfl⟩
  room := by
    rw [length_append, length_singleton]
    omega
  taken := fifo.taken
  put := by
    rw [fifo.put, length_append, length_singleton, BitVec.ofNat_add]
    rfl
  stored k low bound := by
    rw [length_append, length_singleton] at bound
    by_cases last : k = accepted.length
    · subst last
      rw [fifo.put, slot_eq divides] at here
      rw [here, getElem_append_right (le_refl _)]
      simp
    · have before : k < accepted.length := by omega
      rw [getElem_append_left before]
      exact fifo.stored k low before

theorem Fifo.push (divides : size ∣ 2 ^ w) (free : accepted.length < delivered.length + size) (ch : α) :
    Fifo size nread (nwrite + 1) (Function.update data (nwrite.toNat % size) ch) (accepted ++ [ch]) delivered :=
  (fifo.store divides free ch).commit divides free (Function.update_self _ _ _)

theorem Fifo.short (some : delivered ≠ accepted) : delivered.length < accepted.length :=
  lt_of_le_of_ne fifo.le fun same => some (fifo.order.eq_of_length same)

theorem Fifo.front (divides : size ∣ 2 ^ w) (some : delivered ≠ accepted) :
    accepted.drop delivered.length = data (nread.toNat % size) :: accepted.drop (delivered.length + 1) := by
  have short := fifo.short some
  rw [drop_eq_getElem_cons short, fifo.taken, slot_eq divides, fifo.stored _ (le_refl _) short]

theorem Fifo.pop (divides : size ∣ 2 ^ w) (some : delivered ≠ accepted) :
    Fifo size (nread + 1) nwrite data accepted (delivered ++ [data (nread.toNat % size)]) := by
  have short := fifo.short some
  have front := fifo.front divides some
  have room := fifo.room
  refine ⟨?_, ?_, ?_, fifo.put, fun k low bound => fifo.stored k ?_ bound⟩
  · have start := prefix_iff_eq_append.mp fifo.order
    rw [front] at start
    exact ⟨_, (append_assoc _ _ _).trans start⟩
  · rw [length_append, length_singleton]
    omega
  · rw [fifo.taken, length_append, length_singleton, BitVec.ofNat_add]
    rfl
  · rw [length_append, length_singleton] at low
    omega

end

section Window

/-- What the buffer has in the places from a counter on. -/
def window (size : Nat) (data : Nat → α) (start : BitVec w) (count : Nat) : List α :=
  (range count).map fun k => data ((start + BitVec.ofNat w k).toNat % size)

@[simp] theorem length_window (start : BitVec w) (count : Nat) : (window size data start count).length = count := by
  rw [window, length_map, length_range]

theorem window_one (start : BitVec w) : window size data start 1 = [data (start.toNat % size)] := by
  rw [window, range_one, map_singleton, BitVec.add_zero]

theorem window_add (start : BitVec w) (m n : Nat) :
    window size data start (m + n) = window size data start m ++ window size data (start + BitVec.ofNat w m) n := by
  rw [window, range_add, map_append, map_map]
  refine congrArg _ (map_congr_left fun k _ => ?_)
  rw [Function.comp_apply, BitVec.ofNat_add, BitVec.add_assoc]

/-- A place less than size ahead, and not before the end of a window, is not in it. -/
theorem window_update (divides : size ∣ 2 ^ w) {start place : BitVec w} {m n : Nat} (ahead : start + BitVec.ofNat w m = place)
    (x : α) (after : n ≤ m) (near : m < size) :
    window size (Function.update data (place.toNat % size) x) start n = window size data start n := by
  have slot : ∀ k, (start + BitVec.ofNat w k).toNat % size = (start.toNat + k) % size := fun k => by
    rw [← slot_eq divides (start.toNat + k), BitVec.ofNat_add, BitVec.ofNat_toNat, BitVec.setWidth_eq]
  refine map_congr_left fun k inside => Function.update_of_ne ?_ _ _
  have before := mem_range.mp inside
  rw [← ahead, slot, slot]
  intro same
  have multiple := (Nat.modEq_iff_dvd' (by omega)).mp same
  have zero := Nat.eq_zero_of_dvd_of_lt multiple (by omega)
  omega

end Window

end Xv6.Lib.Queue
