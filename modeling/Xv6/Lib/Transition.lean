import Mathlib

/-! Transition systems: the states reached by runs, and the induction over them. -/

namespace Xv6.Lib.Transition

variable {S : Type*}

inductive Reachable (init : S → Prop) (step : S → S → Prop) : S → Prop where
  | init (s : S) (start : init s) : Reachable init step s
  | step (s s' : S) (before : Reachable init step s) (next : step s s') : Reachable init step s'

variable {init : S → Prop} {step : S → S → Prop}

/-- What holds at the start and is kept by every step holds in every state that is reached. -/
theorem Reachable.invariant (inv : S → Prop) (start : ∀ s, init s → inv s) (keeps : ∀ s s', inv s → step s s' → inv s')
    {s : S} (reachable : Reachable init step s) : inv s := by
  induction reachable with
  | init s start' => exact start s start'
  | step s s' _ next ih => exact keeps s s' ih next

theorem Reachable.mono {step' : S → S → Prop} (weaker : ∀ s s', step s s' → step' s s') {s : S}
    (reachable : Reachable init step s) : Reachable init step' s := by
  induction reachable with
  | init s start => exact .init s start
  | step s s' _ next ih => exact .step s s' ih (weaker s s' next)

theorem Reachable.onward {s s' : S} (reachable : Reachable init step s) (run : Relation.ReflTransGen step s s') :
    Reachable init step s' := by
  induction run with
  | refl => exact reachable
  | tail _ next ih => exact .step _ _ ih next

theorem Reachable.foldlM {E : Type*} {next : S → E → Option S} (sound : ∀ s e s', next s e = some s' → step s s')
    {s s' : S} (reachable : Reachable init step s) {events : List E} (played : events.foldlM next s = some s') :
    Reachable init step s' := by
  induction events generalizing s with
  | nil => exact Option.some.inj played ▸ reachable
  | cons e rest ih =>
    obtain ⟨mid, first, later⟩ := Option.bind_eq_some_iff.mp played
    exact ih (.step s mid reachable (sound s e mid first)) later

section Allowed
variable {E X : Type*} (fits : S → E → Prop) [∀ s e, Decidable (fits s e)] (next : S → E → Option (Except X S))

/-- The next state in a system whose steps may fail, if the step is allowed and does not. -/
def allowed (s : S) (e : E) : Option S := if fits s e then (next s e).bind Except.toOption else none

variable {fits next}

theorem allowed_eq_some {s s' : S} {e : E} (taken : allowed fits next s e = some s') :
    fits s e ∧ next s e = some (.ok s') := by
  unfold allowed at taken
  split_ifs at taken with fit
  obtain ⟨result, stepped, ok⟩ := Option.bind_eq_some_iff.mp taken
  cases result with
  | error => cases ok
  | ok s' =>
    cases ok
    exact ⟨fit, stepped⟩

theorem Reachable.allowed {s s' : S} {events : List E} (start : init s)
    (played : events.foldlM (allowed fits next) s = some s') :
    Reachable init (fun s s' => ∃ e, fits s e ∧ next s e = some (.ok s')) s' :=
  Reachable.foldlM (fun _ e _ taken => ⟨e, allowed_eq_some taken⟩) (.init s start) played

end Allowed

section Totals
variable {E G : Type*} [AddMonoid G] (next : S → E → Option S) (weight : S → E → G)

/-- The sum of the weights that the events of a run have where they happen. -/
def total : List E → S → G
  | [], _ => 0
  | e :: rest, s => weight s e + (next s e).elim 0 (total rest)

variable {next weight}

/-- What holds at the start for nothing, and is kept as every event adds its weight, holds at the end for the total. -/
theorem total_invariant {motive : G → S → Prop} (each : ∀ g s e s', motive g s → next s e = some s' → motive (g + weight s e) s')
    {events : List E} {s s' : S} {g : G} (start : motive g s) (played : events.foldlM next s = some s') :
    motive (g + total next weight events s) s' := by
  induction events generalizing s g with
  | nil =>
    cases played
    rwa [total, add_zero]
  | cons e rest ih =>
    obtain ⟨mid, first, later⟩ := Option.bind_eq_some_iff.mp played
    rw [total, first, Option.elim_some, ← add_assoc]
    exact ih (each g s e mid start first) later

end Totals

end Xv6.Lib.Transition
