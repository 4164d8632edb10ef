import Xv6.Lib.Exec

/-! What a state-passing program spends of a resource: with enough of it left it cannot fail for want of it. -/

namespace Xv6.Lib.Budget
open Exec

variable {E S A B : Type} {left : S → Nat}

/-- With k units left the program, if it returns, returns a good result and has spent at most k. -/
def Costs (left : S → Nat) (k : Nat) (prog : EStateM E S A) (good : A → Prop) : Prop :=
  ∀ s a s', k ≤ left s → prog s = .ok a s' → good a ∧ left s ≤ left s' + k

theorem Costs.pure (k : Nat) (a : A) (good : A → Prop) (holds : good a) :
    Costs left k (Pure.pure a : EStateM E S A) good := by
  intro s a' s' _ ran
  obtain ⟨rfl, rfl⟩ := EStateM.Result.ok.inj ran
  exact ⟨holds, Nat.le_add_right _ _⟩

theorem Costs.throw (k : Nat) (e : E) (good : A → Prop) : Costs left k (throw e : EStateM E S A) good := by
  intro s a s' _ ran
  cases ran

theorem Costs.get : Costs left 0 (MonadState.get : EStateM E S S) (fun _ => True) := by
  intro s a s' _ ran
  obtain ⟨rfl, rfl⟩ := EStateM.Result.ok.inj ran
  exact ⟨trivial, le_rfl⟩

theorem Costs.change (change : S → S) (keeps : ∀ s, left s ≤ left (change s)) :
    Costs left 0 (modify change : EStateM E S PUnit) (fun _ => True) := by
  intro s a s' _ ran
  obtain ⟨rfl, rfl⟩ := EStateM.Result.ok.inj ran
  exact ⟨trivial, keeps s⟩

theorem Costs.bind (k j : Nat) {n : Nat} {prog : EStateM E S A} {next : A → EStateM E S B} {mid : A → Prop}
    {good : B → Prop} (total : k + j = n) (first : Costs left k prog mid)
    (rest : ∀ a, mid a → Costs left j (next a) good) : Costs left n (prog >>= next) good := by
  intro s b s'' enough ran
  cases ran₁ : prog s with
  | error e s' =>
    simp only [Bind.bind, EStateM.bind, ran₁] at ran
    cases ran
  | ok a s' =>
    rw [bind_ok ran₁] at ran
    obtain ⟨holds, spent⟩ := first s a s' (by omega) ran₁
    obtain ⟨holds', spent'⟩ := rest a holds s' b s'' (by omega) ran
    exact ⟨holds', by omega⟩

theorem Costs.ends {k : Nat} {prog : EStateM E S A} {good : A → Prop} (costs : Costs left k prog good) (s : S)
    (enough : k ≤ left s) (post : A → S → Prop) (ends : Ends prog s post) :
    Ends prog s (fun a s' => post a s' ∧ good a ∧ left s ≤ left s' + k) := by
  obtain ⟨a, s', ran, holds⟩ := ends
  exact ⟨a, s', ran, holds, costs s a s' enough ran⟩

theorem Costs.outcome {k : Nat} {prog : EStateM E S A} {good : A → Prop} (costs : Costs left k prog good) (s : S)
    (post : A → S → Prop) (ends : Ends prog s post) :
    Ends prog s (fun a s' => post a s' ∧ (left s < k ∨ (good a ∧ left s ≤ left s' + k))) := by
  obtain ⟨a, s', ran, holds⟩ := ends
  refine ⟨a, s', ran, holds, ?_⟩
  rcases Nat.lt_or_ge (left s) k with little | enough
  · exact Or.inl little
  · exact Or.inr (costs s a s' enough ran)

end Xv6.Lib.Budget
