import Mathlib

/-! A cursor that goes round a table of n places and may stop at each: how often it stops at one place while it comes
back to another. -/

namespace Xv6.Lib.Circuit

open Finset

variable {n : Nat}

/-- Where the cursor is, and whether it has stopped there. -/
structure Cursor (n : Nat) where
  place : Fin n
  stopped : Bool
  deriving DecidableEq

inductive Move where
  | enter | skip | leave | stay
  deriving DecidableEq

def following (x : Fin n) : Fin n :=
  ⟨if x.val + 1 < n then x.val + 1 else 0, by
    have bound := x.isLt
    split <;> omega⟩

def Cursor.takes (c : Cursor n) : Move → Option (Cursor n)
  | .enter => if c.stopped then none else some ⟨c.place, true⟩
  | .skip => if c.stopped then none else some ⟨following c.place, false⟩
  | .leave => if c.stopped then some ⟨following c.place, false⟩ else none
  | .stay => some c

def distance (p x : Fin n) : Nat := if p.val ≤ x.val then x.val - p.val else x.val + n - p.val

theorem distance_self (p : Fin n) : distance p p = 0 := by simp [distance]

theorem distance_following (p x : Fin n) :
    distance p (following x) = if following x = p then 0 else distance p x + 1 := by
  have px := p.isLt
  have xx := x.isLt
  unfold distance following
  simp only [Fin.ext_iff]
  split_ifs <;> omega

theorem distance_lt (p x : Fin n) : distance p x < n := by
  have px := p.isLt
  have xx := x.isLt
  unfold distance
  split <;> omega

theorem distance_injective {p x y : Fin n} (same : distance p x = distance p y) : x = y := by
  have px := p.isLt
  have xx := x.isLt
  have yx := y.isLt
  unfold distance at same
  rw [Fin.ext_iff]
  split_ifs at same <;> omega

theorem distance_last {p x : Fin n} (returns : following x = p) : distance p x + 1 = n := by
  have px := p.isLt
  have xx := x.isLt
  rw [Fin.ext_iff] at returns
  unfold following at returns
  simp only at returns
  unfold distance
  split_ifs at returns ⊢ <;> omega

structure Round (n : Nat) (length : Nat) where
  cursor : Nat → Cursor n
  move : Nat → Move
  takes : ∀ i < length, (cursor i).takes (move i) = some (cursor (i + 1))

section
variable {length : Nat} (run : Round n length)

def Round.enters (q : Fin n) (i : Nat) : Prop := run.move i = .enter ∧ (run.cursor i).place = q

def Round.reaches (p : Fin n) (i : Nat) : Prop :=
  (run.move i = .skip ∨ run.move i = .leave) ∧ following (run.cursor i).place = p

instance (q : Fin n) : DecidablePred (run.enters q) := fun i => by unfold Round.enters; infer_instance
instance (p : Fin n) : DecidablePred (run.reaches p) := fun i => by unfold Round.reaches; infer_instance

def passed (p q : Fin n) (c : Cursor n) : Prop := distance p q < distance p c.place ∨ (c.place = q ∧ c.stopped = true)

instance (p q : Fin n) (c : Cursor n) : Decidable (passed p q c) := by unfold passed; infer_instance

end

theorem takes_cases {c c' : Cursor n} {move : Move} (next : c.takes move = some c') :
    (move = .enter ∧ c.stopped = false ∧ c' = ⟨c.place, true⟩) ∨
    (move = .skip ∧ c.stopped = false ∧ c' = ⟨following c.place, false⟩) ∨
    (move = .leave ∧ c.stopped = true ∧ c' = ⟨following c.place, false⟩) ∨ (move = .stay ∧ c' = c) := by
  cases move <;> unfold Cursor.takes at next <;> simp only at next
  · split_ifs at next with stopped
    cases next
    exact .inl ⟨rfl, by simpa using stopped, rfl⟩
  · split_ifs at next with stopped
    cases next
    exact .inr (.inl ⟨rfl, by simpa using stopped, rfl⟩)
  · split_ifs at next with stopped
    cases next
    exact .inr (.inr (.inl ⟨rfl, stopped, rfl⟩))
  · cases next
    exact .inr (.inr (.inr ⟨rfl, rfl⟩))

section
variable {length : Nat} (run : Round n length) {p q : Fin n}

theorem passed_iff {c : Cursor n} : passed p q c ↔
    if c.stopped then distance p q ≤ distance p c.place else distance p q < distance p c.place := by
  unfold passed
  cases c.stopped with
  | false => simp
  | true =>
    simp only [and_true, if_true, le_iff_lt_or_eq]
    exact or_congr_right ⟨fun same => by rw [same], fun same => (distance_injective same).symm⟩

/-- If the cursor never skips q, it stops there once in every round from p to p. -/
theorem Round.count_enters (start : run.cursor 0 = ⟨p, true⟩) (other : q ≠ p)
    (never : ∀ i < length, (run.cursor i).place = q → run.move i ≠ .skip) (i : Nat) (inside : i ≤ length) :
    Nat.count (run.enters q) i = Nat.count (run.reaches p) i + if passed p q (run.cursor i) then 1 else 0 := by
  induction i with
  | zero =>
    have positive : 0 < distance p q := by
      rw [Nat.pos_iff_ne_zero, ← distance_self p]
      exact fun same => other (distance_injective same)
    simp [passed_iff, start, distance_self]
    omega
  | succ i ih =>
    have before := ih (by omega)
    have far := distance_lt p q
    have skipped := never i (by omega)
    have here : (run.cursor i).place = q ↔ distance p q = distance p (run.cursor i).place :=
      ⟨fun same => by rw [same], fun same => (distance_injective same).symm⟩
    rw [Nat.count_succ, Nat.count_succ, before]
    rcases takes_cases (run.takes i (by omega)) with
      ⟨move, free, next⟩ | ⟨move, free, next⟩ | ⟨move, held, next⟩ | ⟨move, next⟩
    · have entered : run.enters q i ↔ distance p q = distance p (run.cursor i).place := by simp [Round.enters, move, here]
      have away : ¬run.reaches p i := by simp [Round.reaches, move]
      rw [if_neg away]
      simp only [entered, passed_iff, free, next, Bool.false_eq_true, if_false, if_true]
      split_ifs <;> omega
    · have away : ¬run.enters q i := by simp [Round.enters, move]
      have reached : run.reaches p i ↔ following (run.cursor i).place = p := by simp [Round.reaches, move]
      have different : distance p q ≠ distance p (run.cursor i).place := fun same => skipped (here.mpr same) move
      rw [if_neg away]
      simp only [reached, passed_iff, free, next, distance_following, Bool.false_eq_true, if_false]
      by_cases returns : following (run.cursor i).place = p
      · have last := distance_last returns
        rw [if_pos returns, if_pos returns]
        split_ifs <;> omega
      · rw [if_neg returns, if_neg returns]
        split_ifs <;> omega
    · have away : ¬run.enters q i := by simp [Round.enters, move]
      have reached : run.reaches p i ↔ following (run.cursor i).place = p := by simp [Round.reaches, move]
      rw [if_neg away]
      simp only [reached, passed_iff, held, next, distance_following, Bool.false_eq_true, if_false, if_true]
      by_cases returns : following (run.cursor i).place = p
      · have last := distance_last returns
        rw [if_pos returns, if_pos returns]
        split_ifs <;> omega
      · rw [if_neg returns, if_neg returns]
        split_ifs <;> omega
    · have away : ¬run.enters q i := by simp [Round.enters, move]
      have away' : ¬run.reaches p i := by simp [Round.reaches, move]
      rw [if_neg away, if_neg away', next, Nat.add_zero, Nat.add_zero]

theorem Round.departed (start : run.cursor 0 = ⟨p, true⟩) (i : Nat) (inside : i ≤ length)
    (none : Nat.count (run.reaches p) i = 0) (here : (run.cursor i).place = p) : (run.cursor i).stopped = true := by
  induction i with
  | zero => rw [start]
  | succ i ih =>
    rw [Nat.count_succ] at none
    have away : ¬run.reaches p i := fun reached => by simp [reached] at none
    have before := ih (by omega) (by omega)
    rcases takes_cases (run.takes i (by omega)) with ⟨_, _, next⟩ | ⟨move, _, next⟩ | ⟨move, _, next⟩ | ⟨_, next⟩
    · rw [next]
    · rw [next] at here
      exact absurd ⟨.inl move, here⟩ away
    · rw [next] at here
      exact absurd ⟨.inr move, here⟩ away
    · rw [next] at here ⊢
      exact before here

theorem Round.returned
    (waits : ∀ i < length, (run.cursor i).place = p → run.move i ≠ .skip ∧ run.move i ≠ .enter) (i : Nat)
    (inside : i ≤ length) :
    Nat.count (run.reaches p) i = 0 ∨ Nat.count (run.reaches p) i = 1 ∧ run.cursor i = ⟨p, false⟩ := by
  induction i with
  | zero => exact .inl rfl
  | succ i ih =>
    rw [Nat.count_succ]
    rcases ih (by omega) with none | ⟨once, back⟩
    · rw [none]
      by_cases reached : run.reaches p i
      · rw [if_pos reached]
        obtain ⟨moved, there⟩ := reached
        refine .inr ⟨rfl, ?_⟩
        rcases takes_cases (run.takes i (by omega)) with ⟨move, _⟩ | ⟨_, _, next⟩ | ⟨_, _, next⟩ | ⟨move, _⟩
        · simp [move] at moved
        · rw [next, there]
        · rw [next, there]
        · simp [move] at moved
      · rw [if_neg reached]
        exact .inl rfl
    · have here : (run.cursor i).place = p := by rw [back]
      obtain ⟨unskipped, unentered⟩ := waits i (by omega) here
      right
      rcases takes_cases (run.takes i (by omega)) with ⟨move, _⟩ | ⟨move, _⟩ | ⟨_, held, _⟩ | ⟨move, next⟩
      · exact absurd move unentered
      · exact absurd move unskipped
      · rw [back] at held
        cases held
      · rw [if_neg (by simp [Round.reaches, move]), next]
        exact ⟨once, back⟩

/-- From p back to p, a place that is never skipped is stopped at; and just once if the cursor waits at p when it
comes there. -/
theorem Round.stops (start : run.cursor 0 = ⟨p, true⟩) (ends : run.cursor length = ⟨p, false⟩) (other : q ≠ p)
    (never : ∀ i < length, (run.cursor i).place = q → run.move i ≠ .skip) :
    (∃ i < length, run.enters q i) ∧
      ((∀ i < length, (run.cursor i).place = p → run.move i ≠ .skip ∧ run.move i ≠ .enter) →
        ∃! i, i < length ∧ run.enters q i) := by
  have equal := run.count_enters start other never length le_rfl
  rw [if_neg (by simp [passed_iff, ends, distance_self]), Nat.add_zero] at equal
  have positive : Nat.count (run.reaches p) length ≠ 0 := by
    intro none
    have held := run.departed start length le_rfl none (by rw [ends])
    rw [ends] at held
    cases held
  rw [Nat.count_eq_card_filter_range] at equal
  constructor
  · obtain ⟨i, member⟩ := card_pos.mp (equal.symm ▸ Nat.pos_of_ne_zero positive)
    exact ⟨i, by simpa using member⟩
  · intro waits
    rcases run.returned waits length le_rfl with none | ⟨once, _⟩
    · exact absurd none positive
    · obtain ⟨i, only⟩ := card_eq_one.mp (equal.trans once)
      have mem : ∀ j, j < length ∧ run.enters q j ↔ j = i := fun j => by
        rw [← mem_singleton, ← only, mem_filter, mem_range]
      exact ⟨i, (mem i).mpr rfl, fun j inside => (mem j).mp inside⟩

end

end Xv6.Lib.Circuit
