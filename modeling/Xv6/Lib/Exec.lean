import Mathlib

/-! Total correctness of state-passing programs that may fail: the rules for sequencing. -/

namespace Xv6.Lib.Exec

variable {E S A B : Type} {prog prog' : EStateM E S A} {next next' : A → EStateM E S B} {s s' : S} {a : A}
  {mid strong weak : A → S → Prop} {post : B → S → Prop}

/-- The program returns from the state, and what it returns meets the postcondition. -/
def Ends (prog : EStateM E S A) (s : S) (post : A → S → Prop) : Prop :=
  ∃ a s', prog s = .ok a s' ∧ post a s'

theorem Ends.pure (holds : mid a s) : Ends (Pure.pure a : EStateM E S A) s mid :=
  ⟨a, s, rfl, holds⟩

theorem get_ok (s : S) : (MonadState.get : EStateM E S S) s = .ok s s := rfl

theorem modify_ok (change : S → S) (s : S) : (modify change : EStateM E S PUnit) s = .ok ⟨⟩ (change s) := rfl

theorem bind_ok (ran : prog s = .ok a s') : (prog >>= next) s = next a s' := by
  simp only [Bind.bind, EStateM.bind, ran]

theorem Ends.after (ran : prog s = .ok a s') (rest : Ends (next a) s' post) : Ends (prog >>= next) s post := by
  obtain ⟨b, s'', ran', holds⟩ := rest
  exact ⟨b, s'', (bind_ok ran).trans ran', holds⟩

theorem Ends.bind (first : Ends prog s mid) (rest : ∀ a s', mid a s' → Ends (next a) s' post) :
    Ends (prog >>= next) s post := by
  obtain ⟨a, s', ran, holds⟩ := first
  obtain ⟨b, s'', ran', holds'⟩ := rest a s' holds
  exact ⟨b, s'', (bind_ok ran).trans ran', holds'⟩

/-- Two sequences run alike if their first programs do and their continuations do so on what those can return. -/
theorem Ends.bind_congr (same : prog s = prog' s) (first : Ends prog' s mid)
    (rest : ∀ a s', mid a s' → next a s' = next' a s') : (prog >>= next) s = (prog' >>= next') s := by
  obtain ⟨a, s', ran, holds⟩ := first
  rw [bind_ok (same.trans ran), bind_ok ran, rest a s' holds]

theorem Ends.of_run_eq (same : prog s = prog' s) (ends : Ends prog' s mid) : Ends prog s mid := by
  obtain ⟨a, s', ran, holds⟩ := ends
  exact ⟨a, s', same.trans ran, holds⟩

theorem Ends.weaken (ends : Ends prog s strong) (implies : ∀ a s', strong a s' → weak a s') : Ends prog s weak := by
  obtain ⟨a, s', ran, holds⟩ := ends
  exact ⟨a, s', ran, implies a s' holds⟩

/-- The program returns, or it stops with one of the errors that are allowed. -/
def Runs (fault : E → Prop) (prog : EStateM E S A) (s : S) (post : A → S → Prop) : Prop :=
  (∃ e s', prog s = .error e s' ∧ fault e) ∨ Ends prog s post

section
variable {fault : E → Prop}

theorem Ends.runs (ends : Ends prog s mid) : Runs fault prog s mid :=
  Or.inr ends

theorem Runs.after (ran : prog s = .ok a s') (rest : Runs fault (next a) s' post) : Runs fault (prog >>= next) s post := by
  have same : (prog >>= next) s = next a s' := bind_ok ran
  rcases rest with ⟨e, s'', failed, allowed⟩ | ⟨b, s'', ran', holds⟩
  · exact Or.inl ⟨e, s'', same.trans failed, allowed⟩
  · exact Or.inr ⟨b, s'', same.trans ran', holds⟩

theorem Runs.bind (first : Runs fault prog s mid) (rest : ∀ a s', mid a s' → Runs fault (next a) s' post) :
    Runs fault (prog >>= next) s post := by
  rcases first with ⟨e, s', failed, allowed⟩ | ⟨a, s', ran, holds⟩
  · refine Or.inl ⟨e, s', ?_, allowed⟩
    simp only [Bind.bind, EStateM.bind, failed]
  · exact Runs.after ran (rest a s' holds)

theorem Runs.ends (runs : Runs fault prog s mid) (never : ∀ e, ¬fault e) : Ends prog s mid := by
  rcases runs with ⟨e, _, _, impossible⟩ | ends
  · exact absurd impossible (never e)
  · exact ends

theorem Runs.weaken (runs : Runs fault prog s strong) (implies : ∀ a s', strong a s' → weak a s') : Runs fault prog s weak :=
  runs.imp id fun ends => Ends.weaken ends implies

end

/-- A loop over a list keeps an invariant indexed by what is left of the list. -/
theorem Ends.forM (body : B → EStateM E S PUnit) (list : List B) (inv : List B → S → Prop) (s : S)
    (start : inv list s)
    (step : ∀ b rest s, inv (b :: rest) s → Ends (body b) s (fun _ s' => inv rest s')) :
    Ends (forM list body) s (fun _ s' => inv [] s') := by
  induction list generalizing s with
  | nil => exact Ends.pure start
  | cons b rest ih =>
    rw [List.forM_cons]
    exact Ends.bind (step b rest s start) (fun _ s' holds => ih s' holds)

theorem forM_idle (body : B → EStateM E S PUnit) (list : List B) (s : S) (idle : ∀ b, body b s = .ok ⟨⟩ s) :
    forM list body s = .ok ⟨⟩ s := by
  induction list with
  | nil => rfl
  | cons b rest ih =>
    rw [List.forM_cons, bind_ok (idle b)]
    exact ih

end Xv6.Lib.Exec
