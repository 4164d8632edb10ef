import Xv6.Lib.Exec

/-! Programs with a second component of state, compared with the programs that have the first one only. -/

namespace Xv6.Lib.Extend
open Exec

variable {E S T A B : Type}

def onFirst (prog : EStateM E S A) : EStateM E (S × T) A := fun (s, t) =>
  match prog s with
  | .ok a s' => .ok a (s', t)
  | .error e s' => .error e (s', t)

/-- A run with the second component is one without it, and leaves that component so; where it is fit, each run
without it comes from one with it. -/
structure Simulates (fit : T → Prop) (prog : EStateM E (S × T) A) (prog' : EStateM E S A) (s : S) (t : T)
    (after : A → T → Prop) : Prop where
  run : ∀ a s' t', prog (s, t) = .ok a (s', t') → prog' s = .ok a s' ∧ after a t'
  back : fit t → ∀ a s', prog' s = .ok a s' → ∃ t', prog (s, t) = .ok a (s', t')

variable {fit : T → Prop} {s : S} {t : T} {next : A → EStateM E (S × T) B} {after : B → T → Prop}

theorem Simulates.pure {a : B} (holds : after a t) :
    Simulates fit (Pure.pure a : EStateM E (S × T) B) (Pure.pure a) s t after where
  run a' s' t' ran := by
    obtain ⟨rfl, same⟩ := EStateM.Result.ok.inj ran
    obtain ⟨rfl, rfl⟩ := Prod.mk.inj same
    exact ⟨rfl, holds⟩
  back _ a' s' ran := by
    obtain ⟨rfl, rfl⟩ := EStateM.Result.ok.inj ran
    exact ⟨t, rfl⟩

theorem Simulates.onFirst {prog : EStateM E S A} {after : A → T → Prop} (holds : ∀ a, after a t) :
    Simulates fit (onFirst prog) prog s t after where
  run a s' t' ran := by
    cases outcome : prog s <;> simp only [Extend.onFirst, outcome, reduceCtorEq, EStateM.Result.ok.injEq, Prod.mk.injEq] at ran
    obtain ⟨rfl, rfl, rfl⟩ := ran
    exact ⟨rfl, holds _⟩
  back _ a s' ran := ⟨t, by simp only [Extend.onFirst, ran]⟩

theorem Simulates.bind {prog : EStateM E (S × T) A} {prog' : EStateM E S A} {next' : A → EStateM E S B}
    {mid : A → T → Prop} (first : Simulates fit prog prog' s t mid) (kept : fit t → ∀ a t', mid a t' → fit t')
    (rest : ∀ a s' t', mid a t' → Simulates fit (next a) (next' a) s' t' after) :
    Simulates fit (prog >>= next) (prog' >>= next') s t after where
  run b s' t' ran := by
    cases outcome : prog (s, t) with
    | error e final => simp only [Bind.bind, EStateM.bind, outcome, reduceCtorEq] at ran
    | ok a final =>
      obtain ⟨plain, holds⟩ := first.run a final.1 final.2 outcome
      rw [bind_ok outcome] at ran
      rw [bind_ok plain]
      exact (rest a final.1 final.2 holds).run b s' t' ran
  back has b s' ran := by
    cases outcome : prog' s with
    | error e final => simp only [Bind.bind, EStateM.bind, outcome, reduceCtorEq] at ran
    | ok a s₁ =>
      obtain ⟨t₁, full⟩ := first.back has a s₁ outcome
      have holds := (first.run a s₁ t₁ full).2
      rw [bind_ok outcome] at ran
      rw [bind_ok full]
      exact (rest a s₁ t₁ holds).back (kept has a t₁ holds) b s' ran

theorem Simulates.first {prog : EStateM E S A} {next' : A → EStateM E S B}
    (rest : ∀ a s', Simulates fit (next a) (next' a) s' t after) :
    Simulates fit (Extend.onFirst prog >>= next) (prog >>= next') s t after :=
  .bind (.onFirst fun _ => rfl) (fun has _ _ same => same ▸ has) fun a s' _ same => same ▸ rest a s'

theorem Simulates.second {t₁ : T} {extra : EStateM E (S × T) A} {prog' : EStateM E S B} {a : A}
    (ran : extra (s, t) = .ok a (s, t₁)) (kept : fit t → fit t₁)
    (rest : Simulates fit (next a) prog' s t₁ after) : Simulates fit (extra >>= next) prog' s t after where
  run b s' t' done := by
    rw [bind_ok ran] at done
    exact rest.run b s' t' done
  back has b s' done := by
    rw [bind_ok ran]
    exact rest.back (kept has) b s' done

theorem Simulates.failed {extra : EStateM E (S × T) A} {prog' : EStateM E S B} {e : E} {final : S × T}
    (ran : extra (s, t) = .error e final) (unfit : ¬fit t) :
    Simulates fit (extra >>= next) prog' s t after where
  run b s' t' done := by simp only [Bind.bind, EStateM.bind, ran, reduceCtorEq] at done
  back has := absurd has unfit

end Xv6.Lib.Extend
