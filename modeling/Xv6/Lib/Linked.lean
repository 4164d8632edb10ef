import Mathlib

/-! Doubly linked lists that close through a head: the pointer updates that take an element out and put
it behind the head, and the walk along one of the two pointers. -/

namespace Xv6.Lib.Linked

open Function List

variable {α : Type*} [DecidableEq α]

abbrev Node (α : Type*) := Option α

structure Links (α : Type*) where
  next : Node α → Node α
  prev : Node α → Node α

def Link (l : Links α) (x y : Node α) : Prop := l.next x = y ∧ l.prev y = x

def around (order : List α) : List (Node α) := none :: (order.map some ++ [none])

/-- The pointers make one loop of the head and these elements. -/
structure Loop (l : Links α) (order : List α) : Prop where
  nodup : order.Nodup
  chain : (around order).IsChain (Link l)

def empty : Links α where
  next _ := none
  prev _ := none

def unlink (l : Links α) (b : α) : Links α :=
  let l := { l with prev := update l.prev (l.next (some b)) (l.prev (some b)) }
  { l with next := update l.next (l.prev (some b)) (l.next (some b)) }

def insertHead (l : Links α) (b : α) : Links α :=
  let l := { l with next := update l.next (some b) (l.next none) }
  let l := { l with prev := update l.prev (some b) none }
  let l := { l with prev := update l.prev (l.next none) (some b) }
  { l with next := update l.next none (some b) }

/-- The first element from the node on that passes the test, some none if the head comes first. -/
def walk (ptr : Node α → Node α) (test : α → Bool) : Nat → Node α → Option (Option α)
  | 0, _ => none
  | _ + 1, none => some none
  | fuel + 1, some a => if test a then some (some a) else walk ptr test fuel (ptr (some a))

section Chains
variable {l l' : Links α}

omit [DecidableEq α] in
/-- A chain only reads next of its nodes but the last, and prev of its nodes but the first. -/
theorem chain_congr {nodes : List (Node α)} (chain : nodes.IsChain (Link l))
    (next : ∀ x ∈ nodes.dropLast, l'.next x = l.next x) (prev : ∀ y ∈ nodes.tail, l'.prev y = l.prev y) :
    nodes.IsChain (Link l') := by
  induction nodes with
  | nil => exact .nil
  | cons x rest ih =>
    cases rest with
    | nil => exact .singleton x
    | cons y rest =>
      obtain ⟨⟨forth, back⟩, later⟩ := isChain_cons_cons.mp chain
      refine isChain_cons_cons.mpr ⟨⟨?_, ?_⟩, ih later (fun z member => ?_) (fun z member => ?_)⟩
      · rw [next x (by simp), forth]
      · rw [prev y (by simp), back]
      · exact next z (by rw [dropLast_cons_cons]; exact mem_cons_of_mem _ member)
      · exact prev z (mem_cons_of_mem _ member)

def join (l : Links α) (x y : Node α) : Links α where
  next := update l.next x y
  prev := update l.prev y x

theorem chain_join {front back : List (Node α)} {x y : Node α} (first : (front ++ [x]).IsChain (Link l))
    (second : (y :: back).IsChain (Link l)) (source : x ∉ front) (source' : x ∉ (y :: back).dropLast)
    (target : y ∉ (front ++ [x]).tail) (target' : y ∉ back) : (front ++ x :: y :: back).IsChain (Link (join l x y)) := by
  refine isChain_append_cons_cons.mpr ⟨?_, ⟨update_self _ _ _, update_self _ _ _⟩, ?_⟩
  · refine chain_congr first (fun z member => update_of_ne ?_ _ _) (fun z member => update_of_ne ?_ _ _)
    · rintro rfl
      rw [dropLast_concat] at member
      exact source member
    · rintro rfl
      exact target member
  · refine chain_congr second (fun z member => update_of_ne ?_ _ _) (fun z member => update_of_ne ?_ _ _)
    · rintro rfl
      exact source' member
    · rintro rfl
      exact target' member

end Chains

section Loops
variable {l : Links α} {order pre post : List α} {b : α}

omit [DecidableEq α] in
theorem loop_empty : Loop (empty : Links α) [] where
  nodup := nodup_nil
  chain := isChain_pair.mpr ⟨rfl, rfl⟩

theorem loop_unlink (loop : Loop l (pre ++ b :: post)) : Loop (unlink l b) (pre ++ post) := by
  have parts : (none :: pre.map some) ++ some b :: (post.map some ++ [none]) = around (pre ++ b :: post) := by
    simp [around]
  have chain := loop.chain
  rw [← parts] at chain
  obtain ⟨preNodup, restNodup, apart⟩ := nodup_append.mp loop.nodup
  obtain ⟨absent, postNodup⟩ := nodup_cons.mp restNodup
  have whole : around (pre ++ post) = (none :: pre.map some) ++ (post.map some ++ [none]) := by simp [around]
  have frontNodup : (none :: pre.map some).Nodup :=
    nodup_cons.mpr ⟨by simp, preNodup.map (Option.some_injective _)⟩
  have backNodup : (post.map some ++ [none]).Nodup :=
    nodup_append_comm.mp (nodup_cons.mpr ⟨by simp, postNodup.map (Option.some_injective _)⟩)
  -- x and y are the neighbours of b
  have targets : (none :: pre.map some).tail = pre.map some := rfl
  have sources : (post.map some ++ [none]).dropLast = post.map some := dropLast_concat
  have inFront : ∀ z, z ∈ none :: pre.map some → z ∉ post.map some := by
    intro z here there
    obtain ⟨c, inPost, rfl⟩ := mem_map.mp there
    have inPre : c ∈ pre := by simpa using here
    exact apart c inPre c (mem_cons_of_mem _ inPost) rfl
  have inBack : ∀ z, z ∈ post.map some ++ [none] → z ∉ pre.map some := by
    intro z here there
    obtain ⟨c, inPre, rfl⟩ := mem_map.mp there
    have inPost : c ∈ post := by simpa using here
    exact apart c inPre c (mem_cons_of_mem _ inPost) rfl
  have noB : some b ∉ post.map some ++ [none] := by simpa using absent
  obtain ⟨front, x, split⟩ : ∃ front x, (none :: pre.map some : List (Node α)) = front ++ [x] :=
    ⟨_, _, (dropLast_append_getLast (by simp)).symm⟩
  obtain ⟨y, back, split'⟩ : ∃ y back, post.map some ++ [none] = y :: back := by
    cases post with
    | nil | cons c rest => exact ⟨_, _, rfl⟩
  rw [split] at chain frontNodup inFront targets whole
  rw [split'] at chain backNodup inBack noB sources whole
  rw [append_assoc, singleton_append] at chain
  obtain ⟨first, later⟩ := isChain_split.mp chain
  obtain ⟨⟨_, back'⟩, later⟩ := isChain_cons_cons.mp later
  obtain ⟨⟨forth, _⟩, second⟩ := isChain_cons_cons.mp later
  have joined : unlink l b = join l x y := by
    have other : some b ≠ y := fun same => noB (by rw [same]; exact mem_cons_self)
    simp only [unlink, forth, back', update_of_ne other, join]
  refine ⟨preNodup.append postNodup fun c inPre inPost => apart c inPre c (mem_cons_of_mem _ inPost) rfl, ?_⟩
  rw [whole, joined, append_assoc, singleton_append]
  refine chain_join first second ?_ ?_ ?_ (nodup_cons.mp backNodup).1
  · exact fun member => (nodup_append.mp frontNodup).2.2 x member x mem_cons_self rfl
  · rw [sources]
    exact inFront x (mem_append_right _ mem_cons_self)
  · rw [targets]
    exact inBack y mem_cons_self

theorem loop_insertHead (loop : Loop l order) (absent : b ∉ order) : Loop (insertHead l b) (b :: order) := by
  refine ⟨nodup_cons.mpr ⟨absent, loop.nodup⟩, ?_⟩
  obtain ⟨y, back, split⟩ : ∃ y back, order.map some ++ [none] = y :: back := by
    cases order with
    | nil | cons c rest => exact ⟨_, _, rfl⟩
  have chain := loop.chain
  have nodup : (order.map some ++ [none]).Nodup :=
    nodup_append_comm.mp (nodup_cons.mpr ⟨by simp, loop.nodup.map (Option.some_injective _)⟩)
  have sources : (order.map some ++ [none]).dropLast = order.map some := dropLast_concat
  have noB : some b ∉ order.map some ++ [none] := by simpa using absent
  have noHead : none ∉ order.map some := by simp
  have whole : around (b :: order) = none :: some b :: (order.map some ++ [none]) := rfl
  unfold around at chain
  rw [split] at chain nodup sources noB whole
  obtain ⟨⟨forth, _⟩, second⟩ := isChain_cons_cons.mp chain
  have other : y ≠ some b := fun same => noB (by rw [same]; exact mem_cons_self)
  have after : insertHead l b = join (join l (some b) y) none (some b) := by
    have head : (none : Node α) ≠ some b := by simp
    simp only [insertHead, update_of_ne head, forth, join, Links.mk.injEq]
    exact ⟨trivial, update_comm other.symm _ _ _⟩
  have inner : ([] ++ some b :: y :: back).IsChain (Link (join l (some b) y)) :=
    chain_join (.singleton _) second (by simp)
      (fun member => noB (mem_of_mem_dropLast member)) (by simp) (nodup_cons.mp nodup).1
  rw [whole, after]
  change ([] ++ none :: some b :: (y :: back)).IsChain _
  refine chain_join (.singleton _) inner (by simp) ?_ (by simp) noB
  simp only [dropLast_cons_cons, mem_cons, not_or]
  refine ⟨by simp, ?_⟩
  rw [sources]
  exact noHead

omit [DecidableEq α] in
theorem walk_chain (test : α → Bool) (order : List α) (x : Node α)
    (chain : (x :: (order.map some ++ [none])).IsChain (Link l)) (fuel : Nat) (enough : order.length < fuel) :
    walk l.next test fuel (l.next x) = some (order.find? test) := by
  induction order generalizing x fuel with
  | nil =>
    obtain ⟨fuel, rfl⟩ := Nat.exists_eq_add_of_lt enough
    rw [(isChain_pair.mp chain).1]
    rfl
  | cons a rest ih =>
    obtain ⟨⟨forth, _⟩, later⟩ := isChain_cons_cons.mp chain
    obtain ⟨fuel, rfl⟩ := Nat.exists_eq_add_of_lt (Nat.lt_of_le_of_lt (Nat.zero_le _) enough)
    rw [forth, Nat.zero_add, walk, List.find?_cons]
    cases test a with
    | true => rfl
    | false =>
      refine ih (some a) later fuel ?_
      rw [length_cons] at enough
      omega

omit [DecidableEq α] in
theorem walk_next (loop : Loop l order) (test : α → Bool) (fuel : Nat) (enough : order.length < fuel) :
    walk l.next test fuel (l.next none) = some (order.find? test) :=
  walk_chain test order none loop.chain fuel enough

omit [DecidableEq α] in
theorem walk_prev (loop : Loop l order) (test : α → Bool) (fuel : Nat) (enough : order.length < fuel) :
    walk l.prev test fuel (l.prev none) = some (order.reverse.find? test) := by
  have chain := isChain_reverse.mp (by
    rw [reverse_reverse]
    exact loop.chain : ((around order).reverse.reverse).IsChain (Link l))
  have turned : (around order).reverse = none :: (order.reverse.map some ++ [none]) := by
    simp [around, map_reverse]
  rw [turned] at chain
  refine walk_chain (l := ⟨l.prev, l.next⟩) test order.reverse none (chain.imp fun x y link => ⟨link.2, link.1⟩) fuel ?_
  rwa [length_reverse]

end Loops

end Xv6.Lib.Linked
