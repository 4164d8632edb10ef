import Mathlib

/-! Singly linked lists: the elements that a pointer leads through, a search along it, and lists in increasing order. -/

namespace Xv6.Lib.Chain

open List

section
variable {α : Type*} {next next' : α → α} {a b x : α} {l m : List α}

/-- The pointer leads from each element of the list to the next one, and from the last to b. -/
def Links (next : α → α) : List α → α → Prop
  | [], _ => True
  | a :: l, b => next a = l.headD b ∧ Links next l b

theorem headD_append : (l ++ m).headD b = l.headD (m.headD b) := by
  cases l <;> rfl

theorem links_append : Links next (l ++ m) b ↔ Links next l (m.headD b) ∧ Links next m b := by
  induction l with
  | nil => exact (iff_of_eq (true_and _)).symm
  | cons a l ih => simp only [cons_append, Links, headD_append, ih, and_assoc]

theorem Links.congr (links : Links next l b) (same : ∀ x ∈ l, next' x = next x) : Links next' l b := by
  induction l with
  | nil => trivial
  | cons a l ih =>
    refine ⟨(same a mem_cons_self).trans links.1, ih links.2 fun x member => ?_⟩
    exact same x (mem_cons_of_mem a member)

theorem Links.closed (links : Links next (a :: l) a) (member : x ∈ a :: l) : next x ∈ a :: l := by
  obtain ⟨before, after, split⟩ := append_of_mem member
  rw [split] at links
  have follows : next x = after.headD a := (links_append.mp links).2.1
  cases after with
  | nil => exact follows ▸ mem_cons_self
  | cons c after =>
    rw [follows, split]
    simp

theorem Links.forall_mem {holds : α → Prop} (closed : ∀ x, holds x → holds (next x)) (links : Links next (a :: l) b)
    (start : holds a) : ∀ x ∈ l, holds x := by
  induction l generalizing a with
  | nil => nofun
  | cons c l ih =>
    obtain rfl : next a = c := links.1
    exact forall_mem_cons.mpr ⟨closed a start, ih links.2 (closed a start)⟩

theorem Links.rotate (links : Links next (a :: l) a) (member : x ∈ a :: l) :
    ∃ r, Links next (x :: r) x ∧ (x :: r).Perm (a :: l) := by
  obtain ⟨before, after, split⟩ := append_of_mem member
  rw [split] at links ⊢
  cases before with
  | nil =>
    obtain ⟨rfl, rfl⟩ := List.cons.inj split
    exact ⟨l, links, List.Perm.refl _⟩
  | cons first before =>
    obtain rfl : a = first := (List.cons.inj split).1
    obtain ⟨there, back⟩ := links_append.mp links
    have perm : ((x :: after) ++ (a :: before)).Perm ((a :: before) ++ (x :: after)) := perm_append_comm
    exact ⟨after ++ a :: before, links_append (l := x :: after).mpr ⟨back, there⟩, perm⟩

/-- The first element from a on that passes the test; none while the search goes on. -/
def search (next : α → α) (test : α → Bool) : Nat → α → Option α
  | 0, _ => none
  | fuel + 1, a => if test a then some a else search next test fuel (next a)

theorem Links.search (links : Links next (a :: l) b) {test : α → Bool} (passes : ∃ x ∈ a :: l, test x = true) {fuel : Nat}
    (enough : l.length < fuel) : ∃ x ∈ a :: l, test x = true ∧ search next test fuel a = some x := by
  obtain ⟨fuel, rfl⟩ := Nat.exists_eq_add_of_lt enough
  induction l generalizing a with
  | nil =>
    obtain ⟨x, member, found⟩ := passes
    obtain rfl := mem_singleton.mp member
    exact ⟨x, member, found, if_pos found⟩
  | cons c l ih =>
    by_cases here : test a = true
    · exact ⟨a, mem_cons_self, here, if_pos here⟩
    · obtain ⟨x, member, found⟩ := passes
      have inside : x ∈ c :: l := by
        rcases mem_cons.mp member with rfl | inside
        · exact absurd found here
        · exact inside
      have follows : next a = c := links.1
      obtain ⟨y, member', found', ran⟩ := ih links.2 ⟨x, inside, found⟩ (by omega)
      refine ⟨y, mem_cons_of_mem a member', found', ?_⟩
      rw [length_cons, show l.length + 1 + fuel + 1 = l.length + fuel + 1 + 1 by omega, Chain.search, if_neg here,
        follows, ran]

end

section Order
variable {α : Type*} [LinearOrder α] {a y : α} {l : List α}

theorem exists_split (sorted : (a :: l).Pairwise (· < ·)) (above : a < y) (apart : y ∉ l) :
    ∃ before x after, a :: l = before ++ x :: after ∧ x < y ∧ ∀ z ∈ after, y < z := by
  induction l generalizing a with
  | nil => exact ⟨[], a, [], rfl, above, nofun⟩
  | cons c l ih =>
    obtain ⟨-, rest⟩ := pairwise_cons.mp sorted
    rcases lt_trichotomy y c with less | same | more
    · refine ⟨[], a, c :: l, rfl, above, fun z member => ?_⟩
      rcases mem_cons.mp member with rfl | later
      · exact less
      · exact less.trans (rel_of_pairwise_cons rest later)
    · exact absurd (same ▸ mem_cons_self) apart
    · obtain ⟨before, x, after, split, below, beyond⟩ := ih rest more fun inside => apart (mem_cons_of_mem c inside)
      exact ⟨a :: before, x, after, by rw [split]; rfl, below, beyond⟩

end Order

end Xv6.Lib.Chain
