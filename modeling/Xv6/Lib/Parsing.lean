import Mathlib

/-! Parsers: a state, errors with a message, and fuel. -/

namespace Xv6.Lib.Parsing

/-- none is a parser out of fuel. -/
abbrev Parse (σ : Type) := StateT σ (ExceptT String Option)

variable {σ τ α β γ δ : Type}

def fail (message : String) : Parse σ α := fun _ => some (.error message)

def stuck : Parse σ α := fun _ => none

def done (a : α) (s : σ) : Option (Except String (α × σ)) := some (.ok (a, s))

section Bind
variable {x : Parse σ α} {f : α → Parse σ β} {s s' : σ} {a : α} {b : β}

theorem bind_done (first : x s = done a s') : (x >>= f) s = f a s' := by
  show (do let r ← (x s : ExceptT String Option (α × σ)); f r.1 r.2 : ExceptT String Option (β × σ)) = _
  rw [first]
  rfl

theorem bind_cases (x : Parse σ α) (f : α → Parse σ β) (s : σ) : (x s = none ∧ (x >>= f) s = none) ∨
    (∃ message, x s = some (.error message) ∧ (x >>= f) s = some (.error message)) ∨
    ∃ a s', x s = done a s' ∧ (x >>= f) s = f a s' := by
  cases first : x s with
  | none =>
    refine .inl ⟨rfl, ?_⟩
    show (do let r ← (x s : ExceptT String Option (α × σ)); f r.1 r.2 : ExceptT String Option (β × σ)) = _
    rw [first]
    rfl
  | some r =>
    cases r with
    | error message =>
      refine .inr (.inl ⟨message, rfl, ?_⟩)
      show (do let r ← (x s : ExceptT String Option (α × σ)); f r.1 r.2 : ExceptT String Option (β × σ)) = _
      rw [first]
      rfl
    | ok r => exact .inr (.inr ⟨r.1, r.2, rfl, bind_done first⟩)

theorem bind_eq_done (whole : (x >>= f) s = done b s') : ∃ a t, x s = done a t ∧ f a t = done b s' := by
  rcases bind_cases x f s with ⟨_, stops⟩ | ⟨_, _, stops⟩ | ⟨a, t, first, rest⟩
  · cases stops.symm.trans whole
  · cases stops.symm.trans whole
  · exact ⟨a, t, first, rest.symm.trans whole⟩

theorem bind_ne_none (first : x s ≠ none) (rest : ∀ a t, x s = done a t → f a t ≠ none) : (x >>= f) s ≠ none := by
  rcases bind_cases x f s with ⟨stops, _⟩ | ⟨_, _, stops⟩ | ⟨a, t, ran, goes⟩
  · exact absurd stops first
  · rw [stops]
    exact Option.some_ne_none _
  · rw [goes]
    exact rest a t ran

end Bind

section Simulation
variable (R : σ → τ → Prop)

/-- Two results: both out of fuel, both the same message, or related values and states. -/
def Agrees (W : α → β → Prop) : Option (Except String (α × σ)) → Option (Except String (β × τ)) → Prop
  | none, none => True
  | some (.error message), some (.error message') => message = message'
  | some (.ok (a, s)), some (.ok (b, t)) => W a b ∧ R s t
  | _, _ => False

/-- From related states the two parsers give agreeing results. -/
def Sim (W : α → β → Prop) (x : Parse σ α) (y : Parse τ β) : Prop := ∀ s t, R s t → Agrees R W (x s) (y t)

variable {R} {W : α → β → Prop} {V : γ → δ → Prop} {x : Parse σ α} {y : Parse τ β}

theorem Sim.pure {a : α} {b : β} (related : W a b) : Sim R W (Pure.pure a) (Pure.pure b) :=
  fun _ _ states => ⟨related, states⟩

theorem Sim.fail (message : String) : Sim R W (fail message) (fail message) := fun _ _ _ => rfl

theorem Sim.stuck : Sim R W stuck stuck := fun _ _ _ => trivial

theorem Sim.bind {f : α → Parse σ γ} {g : β → Parse τ δ} (first : Sim R W x y)
    (rest : ∀ a b, W a b → Sim R V (f a) (g b)) : Sim R V (x >>= f) (y >>= g) := by
  intro s t states
  have agrees := first s t states
  rcases bind_cases x f s with ⟨left, whole⟩ | ⟨message, left, whole⟩ | ⟨a, s', left, whole⟩ <;>
    rcases bind_cases y g t with ⟨right, whole'⟩ | ⟨message', right, whole'⟩ | ⟨b, t', right, whole'⟩ <;>
    rw [left, right] at agrees <;> rw [whole, whole']
  · trivial
  · cases agrees
  · cases agrees
  · cases agrees
  · exact agrees
  · cases agrees
  · cases agrees
  · cases agrees
  · exact rest a b agrees.1 s' t' agrees.2

end Simulation

end Xv6.Lib.Parsing
