import Mathlib

/-! Resources with exactly one role each: moving one resource, and replacing the part of a
system that one operation works on. -/

namespace Xv6.Lib.Ownership

variable {Role Part Item : Type}

/-- No resource has two roles. -/
def Exclusive (owns : Role → Item → Prop) : Prop :=
  ∀ role role' x, owns role x → owns role' x → role = role'

def Owned (owns : Role → Item → Prop) (x : Item) : Prop := ∃ role, owns role x

theorem Exclusive.ne {owns : Role → Item → Prop} (exclusive : Exclusive owns) {role role' : Role} {x y : Item}
    (own : owns role x) (own' : owns role' y) (different : role ≠ role') : x ≠ y := by
  rintro rfl
  exact different (exclusive role role' x own own')

theorem ne_of_not_owned (owns : Role → Item → Prop) (role : Role) (x y : Item) (own : owns role x)
    (outside : ¬Owned owns y) : y ≠ x := by
  rintro rfl
  exact outside ⟨role, own⟩

/-- The resource takes the given role; every other one keeps its own. -/
def Moves (before after : Role → Item → Prop) (x : Item) (role : Role) : Prop :=
  ∀ role' y, after role' y ↔ (y = x ∧ role' = role) ∨ (y ≠ x ∧ before role' y)

variable (before after : Role → Item → Prop)

theorem Moves.intro (x : Item) (role : Role)
    (others : ∀ role' y, y ≠ x → (after role' y ↔ before role' y)) (here : ∀ role', after role' x ↔ role' = role) :
    Moves before after x role := by
  intro role' y
  by_cases same : y = x
  · subst same
    simp [here role']
  · simp [same, others role' y same]

theorem Exclusive.moves {before after : Role → Item → Prop} (exclusive : Exclusive before) {x : Item} {source target : Role}
    (own : before source x) (different : source ≠ target) (left : ∀ y, after source y ↔ before source y ∧ y ≠ x)
    (took : ∀ y, after target y ↔ y = x ∨ before target y)
    (others : ∀ role, role ≠ source → role ≠ target → ∀ y, after role y ↔ before role y) : Moves before after x target := by
  apply Moves.intro
  · intro role y apart
    by_cases leaves : role = source
    · rw [leaves, left, and_iff_left apart]
    · by_cases takes : role = target
      · rw [takes, took, or_iff_right apart]
      · rw [others role leaves takes]
  · intro role
    by_cases leaves : role = source
    · rw [leaves, left]
      exact iff_of_false (fun owns => owns.2 rfl) different
    · by_cases takes : role = target
      · rw [takes, took]
        exact iff_of_true (Or.inl rfl) rfl
      · rw [others role leaves takes]
        exact iff_of_false (fun owns => leaves (exclusive role source x owns own)) takes

theorem Moves.exclusive (x : Item) (role : Role)
    (moves : Moves before after x role) (exclusive : Exclusive before) : Exclusive after := by
  intro first second y ownsFirst ownsSecond
  rcases (moves first y).mp ownsFirst with ⟨same, rfl⟩ | ⟨different, kept⟩
  · rcases (moves second y).mp ownsSecond with ⟨_, rfl⟩ | ⟨other, _⟩
    · rfl
    · exact absurd same other
  · rcases (moves second y).mp ownsSecond with ⟨same, _⟩ | ⟨_, kept'⟩
    · exact absurd same different
    · exact exclusive first second y kept kept'

theorem Moves.owned (x : Item) (role : Role)
    (moves : Moves before after x role) (had : Owned before x) (y : Item) : Owned after y ↔ Owned before y := by
  constructor
  · rintro ⟨role', owns⟩
    rcases (moves role' y).mp owns with ⟨rfl, _⟩ | ⟨_, kept⟩
    · exact had
    · exact ⟨role', kept⟩
  · rintro ⟨role', owns⟩
    by_cases same : y = x
    · exact ⟨role, (moves role y).mpr (Or.inl ⟨same, rfl⟩)⟩
    · exact ⟨role', (moves role' y).mpr (Or.inr ⟨same, owns⟩)⟩

/-- An operation on a part of the system, whose roles the whole system names by embed: if the part
stays exclusive over the same resources and the other roles stay as they are, so does the whole. -/
structure Replaces (embed : Part → Role) (before after : Role → Item → Prop) (part part' : Part → Item → Prop) :
    Prop where
  inside : ∀ p x, before (embed p) x ↔ part p x
  inside' : ∀ p x, after (embed p) x ↔ part' p x
  outside : ∀ role x, (∀ p, role ≠ embed p) → (after role x ↔ before role x)
  injective : Function.Injective embed
  exclusive : Exclusive part'
  owned : ∀ x, Owned part' x ↔ Owned part x

theorem Replaces.whole_exclusive (embed : Part → Role) (before after : Role → Item → Prop)
    (part part' : Part → Item → Prop) (replaces : Replaces embed before after part part')
    (exclusive : Exclusive before) : Exclusive after := by
  have cross : ∀ p role x, (∀ q, role ≠ embed q) → after (embed p) x → ¬after role x := by
    intro p role x other ownsPart ownsRole
    obtain ⟨q, owns⟩ := (replaces.owned x).mp ⟨p, (replaces.inside' p x).mp ownsPart⟩
    exact other q (exclusive role (embed q) x ((replaces.outside role x other).mp ownsRole)
      ((replaces.inside q x).mpr owns))
  intro first second x ownsFirst ownsSecond
  by_cases isFirst : ∃ p, first = embed p
  · obtain ⟨p, rfl⟩ := isFirst
    by_cases isSecond : ∃ q, second = embed q
    · obtain ⟨q, rfl⟩ := isSecond
      rw [replaces.exclusive p q x ((replaces.inside' p x).mp ownsFirst) ((replaces.inside' q x).mp ownsSecond)]
    · exact absurd ownsSecond (cross p second x (fun q same => isSecond ⟨q, same⟩) ownsFirst)
  · have other : ∀ q, first ≠ embed q := fun q same => isFirst ⟨q, same⟩
    by_cases isSecond : ∃ q, second = embed q
    · obtain ⟨q, rfl⟩ := isSecond
      exact absurd ownsFirst (cross q first x other ownsSecond)
    · exact exclusive first second x ((replaces.outside first x other).mp ownsFirst)
        ((replaces.outside second x (fun q same => isSecond ⟨q, same⟩)).mp ownsSecond)

theorem Replaces.whole_owned (embed : Part → Role) (before after : Role → Item → Prop)
    (part part' : Part → Item → Prop) (replaces : Replaces embed before after part part') (x : Item) :
    Owned after x ↔ Owned before x := by
  constructor
  · rintro ⟨role, owns⟩
    by_cases inside : ∃ p, role = embed p
    · obtain ⟨p, rfl⟩ := inside
      obtain ⟨q, kept⟩ := (replaces.owned x).mp ⟨p, (replaces.inside' p x).mp owns⟩
      exact ⟨embed q, (replaces.inside q x).mpr kept⟩
    · exact ⟨role, (replaces.outside role x (fun q same => inside ⟨q, same⟩)).mp owns⟩
  · rintro ⟨role, owns⟩
    by_cases inside : ∃ p, role = embed p
    · obtain ⟨p, rfl⟩ := inside
      obtain ⟨q, kept⟩ := (replaces.owned x).mpr ⟨p, (replaces.inside p x).mp owns⟩
      exact ⟨embed q, (replaces.inside' q x).mpr kept⟩
    · exact ⟨role, (replaces.outside role x (fun q same => inside ⟨q, same⟩)).mpr owns⟩

end Xv6.Lib.Ownership
