import Xv6.Vm.Transfers

/-! copyinstr as the reading of a C string, and the pages it reads. -/

namespace Xv6.Vm.Strings
open Lib.Exec Lib.Bytes Memory Pagetable Entry Space UserMem Transfers List Option

/-- Byte k from va on is the first NUL, and all bytes up to it can be read. -/
def EndsAt (mem : Nat → Option Byte) (va k : Nat) : Prop :=
  mem (va + k) = some 0 ∧ ∀ i < k, ∃ b, mem (va + i) = some b ∧ b ≠ 0

section Reading
variable {mem : Nat → Option Byte}

theorem endsAt_zero {va : Nat} : EndsAt mem va 0 ↔ mem va = some 0 := by simp [EndsAt]

theorem endsAt_succ {va k : Nat} : EndsAt mem va (k + 1) ↔ (∃ b, mem va = some b ∧ b ≠ 0) ∧ EndsAt mem (va + 1) k := by
  have shift : ∀ i, va + 1 + i = va + (i + 1) := fun i => by omega
  unfold EndsAt
  simp only [shift]
  constructor
  · rintro ⟨last, before⟩
    exact ⟨before 0 (by omega), last, fun i inside => before (i + 1) (by omega)⟩
  · rintro ⟨first, last, before⟩
    refine ⟨last, fun i inside => ?_⟩
    cases i with
    | zero => exact first
    | succ i => exact before i (by omega)

theorem readString_bytes (mem : Nat → Option Byte) (max va i : Nat) (inside : i < (readString mem max va).1.length) :
    mem (va + i) = (readString mem max va).1[i]? := by
  induction max generalizing va i with
  | zero => exact absurd inside (Nat.not_lt_zero i)
  | succ max ih =>
    cases byte : mem va with
    | none =>
      rw [readString_unreached mem _ va byte] at inside
      exact absurd inside (Nat.not_lt_zero i)
    | some b =>
      by_cases nul : b = 0
      · subst nul
        rw [readString_nul mem max va byte] at inside ⊢
        obtain rfl : i = 0 := by simpa using inside
        exact byte
      · rw [readString_byte mem max va b byte nul] at inside ⊢
        cases i with
        | zero => exact byte
        | succ i =>
          rw [List.getElem?_cons_succ, ← ih (va + 1) i (by simpa using inside)]
          congr 1
          omega

theorem readString_endsAt {max va k : Nat} (short : k < max) (ends : EndsAt mem va k) :
    (readString mem max va).2 = true ∧ (readString mem max va).1.length = k + 1 := by
  induction max generalizing va k with
  | zero => omega
  | succ max ih =>
    cases k with
    | zero =>
      rw [readString_nul mem max va (endsAt_zero.mp ends)]
      exact ⟨rfl, rfl⟩
    | succ k =>
      obtain ⟨⟨b, byte, other⟩, rest⟩ := endsAt_succ.mp ends
      obtain ⟨done, length⟩ := ih (by omega) rest
      rw [readString_byte mem max va b byte other]
      exact ⟨done, by rw [length_cons, length]⟩

theorem endsAt_of_readString {max va : Nat} (done : (readString mem max va).2 = true) : ∃ k < max, EndsAt mem va k := by
  induction max generalizing va with
  | zero => cases done
  | succ max ih =>
    cases byte : mem va with
    | none =>
      rw [readString_unreached mem _ va byte] at done
      cases done
    | some b =>
      by_cases nul : b = 0
      · exact ⟨0, by omega, endsAt_zero.mpr (nul ▸ byte)⟩
      · rw [readString_byte mem max va b byte nul] at done
        obtain ⟨k, short, ends⟩ := ih done
        exact ⟨k + 1, by omega, endsAt_succ.mpr ⟨⟨b, byte, nul⟩, ends⟩⟩

end Reading

theorem copyinstr_pages (s : Mem) (r va max : Nat) : ∃ pages,
    copyinstrPages r va max s = .ok (readString (userByte s r) max va, pages) s ∧
      copyinstr r va max s = .ok (readString (userByte s r) max va) s ∧
      ∀ page ∈ pages, ∃ i < (readString (userByte s r) max va).1.length, page = PGROUNDDOWN (va + i) := by
  obtain ⟨pages, ran, within⟩ := copyinstrPagesLoop_run s r max va max [] le_rfl
  exact ⟨pages, ran, copyinstr_run s r va max, within⟩

/-- The address is in a user page: below MAXVA, with PTE_V and PTE_U, and the page is not at physical address 0. -/
def Present (s : Mem) (r va : Nat) : Prop :=
  va < MAXVA ∧ ∃ pte, leafAt s r (vpn va) = some pte ∧ User pte ∧ PTE2PA pte ≠ 0

theorem present_iff (s : Mem) (r va : Nat) : Present s r va ↔ userByte s r va ≠ none := by
  rw [userByte_ne_none]
  unfold Present UserMem.translate
  by_cases high : MAXVA ≤ va
  · rw [if_pos high]
    exact iff_of_false (fun present => Nat.not_le.mpr present.1 high) (fun some => some rfl)
  · rw [if_neg high]
    cases leafAt s r (vpn va) with
    | none => simp
    | some pte => simp [Nat.lt_of_not_le high]

/-- The bytes from va on up to byte k are in user pages, and byte k is the first NUL. -/
def StringAt (s : Mem) (r va k : Nat) : Prop :=
  (∀ i ≤ k, Present s r (va + i)) ∧ userByte s r (va + k) = some 0 ∧ ∀ i < k, userByte s r (va + i) ≠ some 0

theorem stringAt_iff (s : Mem) (r va k : Nat) : StringAt s r va k ↔ EndsAt (userByte s r) va k := by
  constructor
  · rintro ⟨present, nul, before⟩
    refine ⟨nul, fun i inside => ?_⟩
    obtain ⟨b, byte⟩ := ne_none_iff_exists'.mp ((present_iff s r _).mp (present i (by omega)))
    exact ⟨b, byte, fun zero => before i inside (zero ▸ byte)⟩
  · rintro ⟨nul, before⟩
    refine ⟨fun i inside => (present_iff s r _).mpr ?_, nul, fun i inside zero => ?_⟩
    · rcases Nat.lt_or_eq_of_le inside with inside | rfl
      · obtain ⟨b, byte, _⟩ := before i inside
        rw [byte]
        exact some_ne_none _
      · rw [nul]
        exact some_ne_none _
    · obtain ⟨b, byte, other⟩ := before i inside
      rw [byte] at zero
      exact other (Option.some.inj zero)

/-- copyinstr returns 0 exactly if a string ends within max bytes, and then stores it with its NUL; it never stores more
than max bytes, and reads no page without a byte that it stores. -/
theorem copyinstr_exact (s : Mem) (r va max : Nat) : ∃ copied ok pages,
    copyinstrPages r va max s = .ok ((copied, ok), pages) s ∧ copyinstr r va max s = .ok (copied, ok) s ∧
      (ok = true ↔ ∃ k < max, StringAt s r va k) ∧
      (∀ k < max, StringAt s r va k → copied.length = k + 1) ∧
      (∀ i < copied.length, userByte s r (va + i) = copied[i]?) ∧
      copied.length ≤ max ∧
      ∀ page ∈ pages, ∃ i < copied.length, page = PGROUNDDOWN (va + i) := by
  obtain ⟨pages, traced, ran, within⟩ := copyinstr_pages s r va max
  simp only [stringAt_iff]
  refine ⟨_, _, pages, traced, ran, ⟨endsAt_of_readString, ?_⟩, fun k short ends => (readString_endsAt short ends).2,
    readString_bytes _ max va, length_readString _ max va, within⟩
  rintro ⟨k, short, ends⟩
  exact (readString_endsAt short ends).1

def grounded : Mem := (single 22).setPte 0x87002 0 (PA2PTE 0 ||| PTE_U ||| PTE_V)

/-- walkaddr takes physical address 0 for no page, so that the empty string there is not found. -/
theorem string_at_zero_unread : leafAt grounded 0x87000 (vpn 0) = some (PA2PTE 0 ||| PTE_U ||| PTE_V) ∧
    Mapped grounded 0x87000 0 ∧ byteAt (grounded.page 0) 0 = 0 ∧
    copyinstr 0x87000 0 1 grounded = .ok ([], false) grounded := by
  have leaf : leafAt grounded 0x87000 (vpn 0) = some (PA2PTE 0 ||| PTE_U ||| PTE_V) := by decide +kernel
  refine ⟨leaf, ⟨by decide, _, leaf, by decide⟩, by decide +kernel, ?_⟩
  rw [copyinstr_run, readString_unreached _ _ _ (userByte_none (by decide +kernel))]

end Xv6.Vm.Strings
