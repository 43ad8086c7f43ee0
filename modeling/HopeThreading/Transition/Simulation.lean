import HopeThreading.Transition.Machine

namespace Transition

/-!
# Forward simulation

A machine `M` refines a machine `N` along a relation between its runs and the states of `N` when
each step of `M` is matched by one step of `N`, or by none, that emits what is observed of the step
of `M`.  Then every run of `M` has a run of `N` beside it, with the events that are observed
(`RunIf.simulate`).

The relation may look at the events so far, so that the history of `M` can decide which state of
`N` is meant.  A part of a machine is simulated in the same way, by the relation that picks out
its state.
-/

namespace Machine

variable {σ α ε τ β δ : Type*} {M : Machine σ α ε} {N : Machine τ β δ}
variable {ok : σ → α → Prop}

/-- No condition on the steps. -/
abbrev Anytime : τ → β → Prop := fun _ _ => True

/-- `N` does one step that meets `ok`, or none, and emits `es`. -/
inductive Matches (N : Machine τ β δ) (ok : τ → β → Prop) (x : τ) : List δ → τ → Prop
  | stay : Matches N ok x [] x
  | step {b : β} {es : List δ} {x' : τ} (allowed : ok x b) (step : N.next x b = some (x', es)) :
      Matches N ok x es x'

/-- A run goes on by a match. -/
theorem RunIf.matches {ok' : τ → β → Prop} {tr es : List δ} {x x' : τ} (run : N.RunIf ok' tr x)
    (h : N.Matches ok' x es x') : N.RunIf ok' (tr ++ es) x' := by
  cases h with
  | stay =>
    rw [List.append_nil]
    exact run
  | step allowed step => exact run.snoc allowed step

/-- **Simulation rule.** Every run of `M` has a run of `N` beside it that emits what is observed, in
    a related state. -/
theorem RunIf.simulate (ok' : τ → β → Prop) (observe : ε → Option δ) (R : List ε → σ → τ → Prop)
    (hinit : R [] M.init N.init)
    (hstep : ∀ tr s a s' es x, M.RunIf ok tr s → N.RunIf ok' (tr.filterMap observe) x →
      R tr s x → ok s a → M.next s a = some (s', es) →
      ∃ x', N.Matches ok' x (es.filterMap observe) x' ∧ R (tr ++ es) s' x')
    {tr : List ε} {s : σ} (run : M.RunIf ok tr s) :
    ∃ x, N.RunIf ok' (tr.filterMap observe) x ∧ R tr s x := by
  induction run with
  | start => exact ⟨N.init, .start, hinit⟩
  | snoc run allowed step ih =>
    obtain ⟨x, run', hR⟩ := ih
    obtain ⟨x', hmatch, hR'⟩ := hstep _ _ _ _ _ x run run' hR allowed step
    refine ⟨x', ?_, hR'⟩
    rw [List.filterMap_append]
    exact run'.matches hmatch

end Machine

end Transition
