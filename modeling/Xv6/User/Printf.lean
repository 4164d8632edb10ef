import Mathlib

/-! The printf of the kernel, which looks one character ahead, and vprintf of the user library, which keeps a state. A string is
the list of its characters before the NUL. -/

namespace Xv6.User.Printf

open List

section Model

inductive Arg where
  | int (v : BitVec 32)
  | uint64 (v : BitVec 64)
  | chars (s : Option (List Char))

/-- The do loop of printint, with the places that are left in buf. -/
def digitLoop (digits : List Char) (base : Nat) : Nat → Nat → List Char
  | 0, _ => []
  | left + 1, x => digits.getD (x % base) '0' :: if x / base = 0 then [] else digitLoop digits base left (x / base)

/-- The characters that printint writes; x is unsigned, and buf is written from its end. -/
def printint (digits : List Char) (xx : BitVec 32) (base : Nat) (sign : Bool) : List Char :=
  let neg := sign && decide (xx.toInt < 0)
  let x := if neg then -xx else xx
  let buf := digitLoop digits base 16 x.toNat
  (if neg then buf ++ ['-'] else buf).reverse

def ptrLoop (digits : List Char) : Nat → BitVec 64 → List Char
  | 0, _ => []
  | n + 1, x => digits.getD (x >>> (64 - 4)).toNat '0' :: ptrLoop digits n (x <<< 4)

def printptr (digits : List Char) (x : BitVec 64) : List Char := '0' :: 'x' :: ptrLoop digits 16 x

def string (s : Option (List Char)) : List Char := s.getD "(null)".toList

namespace Kernel

def digits : List Char := "0123456789abcdef".toList

/-- The switch of printf: what it prints for a character after %, and the arguments that are left; none where the argument is
missing or of another type. -/
def switch : Char → List Arg → Option (List Char × List Arg)
  | 'd', .int v :: args => some (printint digits v 10 true, args)
  | 'x', .int v :: args => some (printint digits v 16 true, args)
  | 'p', .uint64 v :: args => some (printptr digits v, args)
  | 's', .chars s :: args => some (string s, args)
  | '%', args => some (['%'], args)
  | c, args => if c ∈ ['d', 'x', 'p', 's'] then none else some (['%', c], args)

def printf : List Char → List Arg → Option (List Char)
  | [], _ => some []
  | c :: fmt, args =>
    if c ≠ '%' then (printf fmt args).map (c :: ·)
    else match fmt with
      | [] => some []
      | c :: fmt => (switch c args).bind fun (out, args) => (printf fmt args).map (out ++ ·)

end Kernel

namespace Ulib

def digits : List Char := "0123456789ABCDEF".toList

/-- The same for the second part of the loop of vprintf. -/
def switch : Char → List Arg → Option (List Char × List Arg)
  | 'd', .int v :: args => some (printint digits v 10 true, args)
  | 'l', .uint64 v :: args => some (printint digits (v.setWidth 32) 10 false, args)
  | 'x', .int v :: args => some (printint digits v 16 false, args)
  | 'p', .uint64 v :: args => some (printptr digits v, args)
  | 's', .chars s :: args => some (string s, args)
  | 'c', .int v :: args => some ([Char.ofNat (v.toNat % 256)], args)
  | '%', args => some (['%'], args)
  | c, args => if c ∈ ['d', 'l', 'x', 'p', 's', 'c'] then none else some (['%', c], args)

/-- The loop of vprintf; the state is whether a % came before. -/
def vprintf : Bool → List Char → List Arg → Option (List Char)
  | _, [], _ => some []
  | false, c :: fmt, args => if c = '%' then vprintf true fmt args else (vprintf false fmt args).map (c :: ·)
  | true, c :: fmt, args => (switch c args).bind fun (out, args) => (vprintf false fmt args).map (out ++ ·)

end Ulib

end Model

section Forms

inductive Item where
  | plain (c : Char) (ordinary : c ≠ '%')
  | d (v : BitVec 32)
  | x (v : BitVec 32)
  | p (v : BitVec 64)
  | s (v : Option (List Char))
  | percent

def Item.text : Item → List Char
  | .plain c _ => [c]
  | .d _ => ['%', 'd']
  | .x _ => ['%', 'x']
  | .p _ => ['%', 'p']
  | .s _ => ['%', 's']
  | .percent => ['%', '%']

def Item.args : Item → List Arg
  | .d v | .x v => [.int v]
  | .p v => [.uint64 v]
  | .s v => [.chars v]
  | .plain _ _ | .percent => []

/-- A format of these parts, with a last % or without. -/
def format (items : List Item) (dangling : Bool) : List Char :=
  items.flatMap Item.text ++ if dangling then ['%'] else []

def arguments (items : List Item) : List Arg := items.flatMap Item.args

def sixteen (v : BitVec 64) : List Char := (List.range 16).map fun k => Nat.digitChar (v.toNat / 16 ^ (15 - k) % 16)

/-- What a part stands for, with the letters of hexadecimal digits in the given case. -/
def Item.form (letters : Char → Char) : Item → List Char
  | .plain c _ => [c]
  | .d v => (toString v.toInt).toList
  | .x v => (Nat.toDigits 16 v.toNat).map letters
  | .p v => '0' :: 'x' :: (sixteen v).map letters
  | .s v => v.getD "(null)".toList
  | .percent => ['%']

def expected (letters : Char → Char) (items : List Item) : List Char := items.flatMap (Item.form letters)

/-- The same character, or the same hexadecimal digit as a small and as a capital letter. -/
def Alike (c c' : Char) : Prop := c' = c ∨ c ∈ ['a', 'b', 'c', 'd', 'e', 'f'] ∧ c' = c.toUpper

end Forms

section Numbers

variable {digits : List Char} {letters : Char → Char} {base : Nat}

theorem digitLoop_eq (table : ∀ k < base, digits.getD k '0' = letters k.digitChar) (more : 1 < base) (left x : Nat)
    (fits : x < base ^ left) (some : 0 < left) :
    (digitLoop digits base left x).reverse = (Nat.toDigits base x).map letters := by
  induction left generalizing x with
  | zero => omega
  | succ left ih =>
    rw [digitLoop, table _ (Nat.mod_lt _ (by omega))]
    by_cases last : x < base
    · rw [if_pos (Nat.div_eq_of_lt last), Nat.mod_eq_of_lt last, Nat.toDigits_of_lt_base last]
      rfl
    · have smaller : x / base < base ^ left := Nat.div_lt_of_lt_mul (by rwa [← Nat.pow_succ'])
      have positive : 0 < x / base := Nat.div_pos (by omega) (by omega)
      have room : 0 < left := by
        by_contra none
        obtain rfl : left = 0 := Nat.eq_zero_of_not_pos none
        rw [pow_zero] at smaller
        omega
      rw [if_neg positive.ne', reverse_cons, ih _ smaller room, Nat.toDigits_of_base_le more (not_lt.mp last),
        map_append]
      rfl

theorem printint_eq (table : ∀ k < base, digits.getD k '0' = letters k.digitChar) (ten : 10 ≤ base) (xx : BitVec 32)
    (sign : Bool) : printint digits xx base sign =
      if sign = true ∧ xx.toInt < 0 then '-' :: (Nat.toDigits base (-xx).toNat).map letters
      else (Nat.toDigits base xx.toNat).map letters := by
  have loop : ∀ x : BitVec 32, (digitLoop digits base 16 x.toNat).reverse = (Nat.toDigits base x.toNat).map letters := by
    intro x
    refine digitLoop_eq table (by omega) 16 _ (lt_of_lt_of_le x.isLt ?_) (by decide)
    exact le_trans (by decide) (Nat.pow_le_pow_left ten 16)
  unfold printint
  by_cases minus : sign = true ∧ xx.toInt < 0
  · have some : (sign && decide (xx.toInt < 0)) = true := by simpa using minus
    rw [if_pos minus]
    simp only [some, ↓reduceIte, reverse_append, loop]
    rfl
  · rw [if_neg minus]
    have none : (sign && decide (xx.toInt < 0)) = false := by simpa using minus
    simp [none, loop]

theorem decimal_eq (v : BitVec 32) (table : ∀ k < 10, digits.getD k '0' = k.digitChar) :
    printint digits v 10 true = (toString v.toInt).toList := by
  rw [@printint_eq digits id 10 table (le_refl _), Int.toString_eq_repr, Int.repr_eq_if]
  have sign := BitVec.toInt_eq_toNat_cond v
  by_cases minus : v.toInt < 0
  · have value : (-v).toNat = (-v.toInt).toNat := by
      split_ifs at sign <;> bv_omega
    rw [if_pos ⟨rfl, minus⟩, if_neg (by omega), value, Nat.repr_eq_ofList_toDigits]
    simp
  · have value : v.toNat = v.toInt.toNat := by
      split_ifs at sign <;> omega
    rw [if_neg fun both => minus both.2, if_pos (by omega), value, Nat.repr_eq_ofList_toDigits]
    simp

theorem shifted_digit (x : BitVec 64) {k : Nat} (inside : k < 15) :
    (x <<< 4).toNat / 16 ^ (15 - k) % 16 = x.toNat / 16 ^ (15 - (k + 1)) % 16 := by
  have power : 16 ^ (15 - k) = 16 * 16 ^ (15 - (k + 1)) := by
    rw [← Nat.pow_succ']
    congr 1
    omega
  have whole : 2 ^ 64 = 16 ^ (15 - k) * 16 ^ (k + 1) := by
    rw [← Nat.pow_add, show 15 - k + (k + 1) = 16 by omega]
    rfl
  rw [BitVec.toNat_shiftLeft, Nat.shiftLeft_eq, whole, Nat.mod_mul_right_div_self,
    Nat.mod_mod_of_dvd _ (Dvd.intro_left _ (Nat.pow_succ ..).symm), power, show x.toNat * 2 ^ 4 = 16 * x.toNat by ring,
    Nat.mul_div_mul_left _ _ (by decide)]

theorem ptrLoop_eq (table : ∀ k < 16, digits.getD k '0' = letters k.digitChar) (n : Nat) (x : BitVec 64) (few : n ≤ 16) :
    ptrLoop digits n x = (List.range n).map fun k => letters (Nat.digitChar (x.toNat / 16 ^ (15 - k) % 16)) := by
  induction n generalizing x with
  | zero => rfl
  | succ n ih =>
    rw [ptrLoop, ih _ (by omega), table _ (by bv_omega), range_succ_eq_map, map_cons, map_map]
    congr 1
    · rw [BitVec.toNat_ushiftRight, Nat.shiftRight_eq_div_pow]
      congr 2
      omega
    · apply map_congr_left
      intro k inside
      rw [Function.comp_apply, shifted_digit x (by have := mem_range.mp inside; omega)]

theorem printptr_eq (table : ∀ k < 16, digits.getD k '0' = letters k.digitChar) (x : BitVec 64) :
    printptr digits x = '0' :: 'x' :: (sixteen x).map letters := by
  rw [printptr, ptrLoop_eq table 16 x (le_refl _), sixteen, map_map]
  rfl

theorem digits_of_number (n : Nat) : ∀ c ∈ Nat.toDigits 16 n, ∃ k < 16, c = k.digitChar := by
  induction n using Nat.strong_induction_on with
  | _ n ih =>
    intro c member
    rw [Nat.toDigits_eq_if (by decide)] at member
    split_ifs at member with last
    · exact ⟨n, last, mem_singleton.mp member⟩
    · rcases mem_append.mp member with front | back
      · exact ih (n / 16) (Nat.div_lt_self (by omega) (by decide)) c front
      · exact ⟨n % 16, Nat.mod_lt _ (by decide), mem_singleton.mp back⟩

theorem alike_digit : ∀ k < 16, Alike k.digitChar k.digitChar.toUpper := by
  unfold Alike
  decide

theorem lower_table : ∀ k < 16, Kernel.digits.getD k '0' = k.digitChar := by decide

theorem upper_table : ∀ k < 16, Ulib.digits.getD k '0' = k.digitChar.toUpper := by decide

end Numbers

section Runs

/-- What the kernel prints for a part: %x is printed as a signed number. -/
def Item.kernel : Item → List Char
  | .x v => printint Kernel.digits v 16 true
  | item => item.form id

theorem run_format {run : List Char → List Arg → Option (List Char)} {out : Item → List Char}
    (part : ∀ item fmt args, run (item.text ++ fmt) (item.args ++ args) = (run fmt args).map (out item ++ ·))
    (stop : ∀ dangling : Bool, run (if dangling then ['%'] else []) [] = some []) (items : List Item) (dangling : Bool) :
    run (format items dangling) (arguments items) = some (items.flatMap out) := by
  induction items with
  | nil => exact stop dangling
  | cons item items ih =>
    have rest := part item (format items dangling) (arguments items)
    rw [ih] at rest
    simpa only [format, arguments, flatMap_cons, append_assoc, Option.map_some] using rest

theorem kernel_part (item : Item) (fmt : List Char) (args : List Arg) :
    Kernel.printf (item.text ++ fmt) (item.args ++ args) = (Kernel.printf fmt args).map (item.kernel ++ ·) := by
  cases item with
  | plain c ordinary =>
    cases fmt <;> exact if_pos ordinary
  | d v =>
    show _ = (Kernel.printf fmt args).map ((toString v.toInt).toList ++ ·)
    rw [← decimal_eq v fun k low => lower_table k (by omega)]
    rfl
  | p v =>
    show _ = (Kernel.printf fmt args).map ('0' :: 'x' :: (sixteen v).map id ++ ·)
    rw [← printptr_eq lower_table v]
    rfl
  | x v => rfl
  | s v => rfl
  | percent => rfl

theorem ulib_part (item : Item) (fmt : List Char) (args : List Arg) :
    Ulib.vprintf false (item.text ++ fmt) (item.args ++ args) =
      (Ulib.vprintf false fmt args).map (item.form Char.toUpper ++ ·) := by
  cases item with
  | plain c ordinary => exact if_neg ordinary
  | d v =>
    rw [Item.form, ← decimal_eq v fun k low => (upper_table k (by omega)).trans (by revert k; decide)]
    rfl
  | x v =>
    have same := printint_eq upper_table (by decide) v false
    rw [if_neg fun both => Bool.false_ne_true both.1] at same
    rw [Item.form, ← same]
    rfl
  | p v =>
    rw [Item.form, ← printptr_eq upper_table v]
    rfl
  | s v => rfl
  | percent => rfl

/-- A negative number begins with a minus in the kernel and with a digit in its hexadecimal form. -/
theorem kernel_form_iff (items : List Item) :
    items.flatMap Item.kernel = expected id items ↔ ∀ v, .x v ∈ items → 0 ≤ v.toInt := by
  induction items with
  | nil => simp [expected]
  | cons item items ih =>
    have same : item.kernel = item.form id → ((item :: items).flatMap Item.kernel = expected id (item :: items) ↔
        items.flatMap Item.kernel = expected id items) := by
      intro here
      simp only [expected, flatMap_cons, here, append_cancel_left_eq]
    cases item with
    | x v =>
      have printed := @printint_eq Kernel.digits id 16 lower_table (by decide) v true
      by_cases minus : v.toInt < 0
      · refine iff_of_false (fun equal => ?_) fun all => absurd (all v mem_cons_self) (by omega)
        rw [if_pos ⟨rfl, minus⟩] at printed
        obtain ⟨c, rest, number⟩ := exists_cons_of_ne_nil (Nat.toDigits_ne_nil : Nat.toDigits 16 v.toNat ≠ [])
        have first : '-' = c := by
          simp only [expected, flatMap_cons, Item.kernel, printed, Item.form, number] at equal
          exact (List.cons.inj equal).1
        obtain ⟨k, low, digit⟩ := digits_of_number v.toNat c (by rw [number]; exact mem_cons_self)
        have never : ∀ k < 16, '-' ≠ k.digitChar := by decide
        exact never k low (first.trans digit)
      · rw [if_neg fun both => minus both.2] at printed
        rw [same printed, ih]
        refine ⟨fun all w member => ?_, fun all w member => all w (mem_cons_of_mem _ member)⟩
        rcases mem_cons.mp member with here | there
        · obtain rfl := Item.x.inj here
          exact not_lt.mp minus
        · exact all w there
    | _ =>
      rw [same rfl, ih]
      simp

theorem alike_expected (items : List Item) : List.Forall₂ Alike (expected id items) (expected Char.toUpper items) := by
  have digits : ∀ l : List Char, (∀ c ∈ l, ∃ k < 16, c = k.digitChar) →
      List.Forall₂ Alike (l.map id) (l.map Char.toUpper) := by
    intro l all
    rw [forall₂_map_left_iff, forall₂_map_right_iff, forall₂_same]
    intro c member
    obtain ⟨k, low, rfl⟩ := all c member
    exact alike_digit k low
  have same : ∀ l : List Char, List.Forall₂ Alike l l := fun l => forall₂_same.mpr fun c _ => .inl rfl
  induction items with
  | nil => exact .nil
  | cons item items ih =>
    refine rel_append ?_ ih
    cases item with
    | x v => exact digits _ (digits_of_number v.toNat)
    | p v =>
      refine .cons (.inl rfl) (.cons (.inl rfl) (digits _ fun c member => ?_))
      obtain ⟨k, -, rfl⟩ := mem_map.mp member
      exact ⟨_, Nat.mod_lt _ (by decide), rfl⟩
    | _ => exact same _

/-- The kernel's printf and the library's vprintf print the same forms up to the case of hexadecimal digits exactly where no %x
has a negative argument. -/
theorem printfs_agree_iff (items : List Item) (dangling : Bool) :
    (∃ out out', Kernel.printf (format items dangling) (arguments items) = some out ∧
      Ulib.vprintf false (format items dangling) (arguments items) = some out' ∧ List.Forall₂ Alike out out' ∧
      out = expected id items ∧ out' = expected Char.toUpper items) ↔ ∀ v, .x v ∈ items → 0 ≤ v.toInt := by
  have kernel := run_format kernel_part (by decide) items dangling
  have ulib := run_format ulib_part (by decide) items dangling
  rw [← kernel_form_iff]
  constructor
  · rintro ⟨out, _, printed, -, -, rfl, -⟩
    exact Option.some.inj (kernel.symm.trans printed)
  · intro equal
    exact ⟨_, _, kernel, ulib, equal ▸ alike_expected items, equal, rfl⟩

/-- The kernel prints the bits of -1 as -1. -/
theorem negative_hex_differs :
    Kernel.printf "%x".toList [.int (-1)] = some "-1".toList ∧
      Ulib.vprintf false "%x".toList [.int (-1)] = some "FFFFFFFF".toList ∧
      ¬List.Forall₂ Alike "-1".toList "FFFFFFFF".toList := by
  refine ⟨by decide, by decide, fun alike => ?_⟩
  exact absurd alike.length_eq (by decide)

end Runs

end Xv6.User.Printf
