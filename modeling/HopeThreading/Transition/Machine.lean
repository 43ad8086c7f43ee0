import Mathlib.Data.List.Basic

namespace Transition

/-!
# Labelled machines and their runs

A concurrent program under sequential consistency is a `Machine`: a start state and a
partial step function that, given the action the scheduler picks next, executes one
atomic access and may emit events.  An interleaving is a list of actions, so every
schedule is covered by quantifying over runs.

* `Machine.RunIf M ok tr s` — `s` is reached from the start state by steps that all
  meet `ok`, and `tr` is the list of events emitted on the way;
* `Machine.Run M` — the runs without a condition;
* `Machine.RunIf.invariant` — what the start state has and each step keeps holds along
  every run;
* `Machine.exec` — replays a list of actions, so that a concrete schedule is evaluated
  instead of being derived step by step;
* `Machine.exists_replicate` — an action that lowers a bound comes to an end.
-/

/-- A start state and a partial step function, which returns the next state and the
    events emitted by the step. -/
structure Machine (σ α ε : Type*) where
  init : σ
  next : σ → α → Option (σ × List ε)

namespace Machine

variable {σ α ε : Type*} {M : Machine σ α ε} {ok ok' : σ → α → Prop}

/-- The runs of `M` whose every step is taken in a state where `ok` allows it, with the
    events emitted so far. -/
inductive RunIf (M : Machine σ α ε) (ok : σ → α → Prop) : List ε → σ → Prop
  | start : RunIf M ok [] M.init
  | snoc {tr es : List ε} {s s' : σ} {a : α} (run : RunIf M ok tr s) (allowed : ok s a)
      (step : M.next s a = some (s', es)) : RunIf M ok (tr ++ es) s'

/-- All runs of `M`. -/
abbrev Run (M : Machine σ α ε) : List ε → σ → Prop := M.RunIf fun _ _ => True

/-- **Invariant rule.** A relation between the events so far and the state that holds at
    the start and is kept by every allowed step holds along every run. -/
theorem RunIf.invariant {I : List ε → σ → Prop} (hinit : I [] M.init)
    (hstep : ∀ tr es s s' a, M.RunIf ok tr s → I tr s → ok s a →
      M.next s a = some (s', es) → I (tr ++ es) s')
    {tr : List ε} {s : σ} (run : M.RunIf ok tr s) : I tr s := by
  induction run with
  | start => exact hinit
  | snoc run allowed step ih => exact hstep _ _ _ _ _ run ih allowed step

/-- Weakening the condition keeps a run. -/
theorem RunIf.mono (h : ∀ s a, ok s a → ok' s a) {tr : List ε} {s : σ}
    (run : M.RunIf ok tr s) : M.RunIf ok' tr s := by
  induction run with
  | start => exact .start
  | snoc _ allowed step ih => exact .snoc ih (h _ _ allowed) step

/-- A conditional run is a run. -/
theorem RunIf.run {tr : List ε} {s : σ} (run : M.RunIf ok tr s) : M.Run tr s :=
  run.mono fun _ _ _ => trivial

/-! ### Replaying a schedule -/

/-- Replay the actions from `s`, appending the emitted events to `tr`; `none` as soon as
    one of them is not enabled or not allowed by `ok`. -/
def execIf (M : Machine σ α ε) (ok : σ → α → Prop) [∀ s a, Decidable (ok s a)] :
    List α → List ε → σ → Option (List ε × σ)
  | [], tr, s => some (tr, s)
  | a :: as, tr, s =>
    if ok s a then
      match M.next s a with
      | none => none
      | some (s', es) => execIf M ok as (tr ++ es) s'
    else none

/-- Replay the actions from the start state without a condition. -/
def exec (M : Machine σ α ε) (as : List α) : Option (List ε × σ) :=
  M.execIf (fun _ _ => True) as [] M.init

/-- The first action of a replay. -/
theorem execIf_cons {a : α} {as : List α} {tr es : List ε} {s s' : σ}
    (h : M.next s a = some (s', es)) :
    M.execIf (fun _ _ => True) (a :: as) tr s = M.execIf (fun _ _ => True) as (tr ++ es) s' := by
  rw [Machine.execIf, if_pos trivial, h]

/-- A successful replay continues a run by a run. -/
theorem RunIf.execIf [∀ s a, Decidable (ok s a)] {as : List α} {tr tr' : List ε} {s s' : σ}
    (run : M.RunIf ok tr s) (h : M.execIf ok as tr s = some (tr', s')) :
    M.RunIf ok tr' s' := by
  induction as generalizing tr s with
  | nil =>
    simp only [Machine.execIf, Option.some.injEq, Prod.mk.injEq] at h
    obtain ⟨rfl, rfl⟩ := h
    exact run
  | cons a as ih =>
    simp only [Machine.execIf] at h
    split at h
    · rename_i allowed
      split at h
      · exact absurd h (by simp)
      · rename_i step
        exact ih (run.snoc allowed step) h
    · exact absurd h (by simp)

/-- Replaying two schedules one after the other. -/
theorem execIf_append [∀ s a, Decidable (ok s a)] (as bs : List α) (tr : List ε) (s : σ) :
    M.execIf ok (as ++ bs) tr s = (M.execIf ok as tr s).bind fun r => M.execIf ok bs r.1 r.2 := by
  induction as generalizing tr s with
  | nil => rfl
  | cons a as ih =>
    simp only [List.cons_append, Machine.execIf]
    split
    · split
      · rfl
      · exact ih _ _
    · rfl

/-- What holds before a replay and is kept by each of its steps holds afterwards. -/
theorem execIf_invariant [∀ s a, Decidable (ok s a)] {I : List ε → σ → Prop} {as : List α}
    {tr tr' : List ε} {s s' : σ} (h : M.execIf ok as tr s = some (tr', s')) (hI : I tr s)
    (hstep : ∀ tr s a s' es, a ∈ as → I tr s → ok s a → M.next s a = some (s', es) →
      I (tr ++ es) s') : I tr' s' := by
  induction as generalizing tr s with
  | nil =>
    simp only [Machine.execIf, Option.some.injEq, Prod.mk.injEq] at h
    obtain ⟨rfl, rfl⟩ := h
    exact hI
  | cons a as ih =>
    simp only [Machine.execIf] at h
    split at h
    · rename_i allowed
      split at h
      · exact absurd h (by simp)
      · rename_i step
        exact ih h (hstep _ _ a _ _ List.mem_cons_self hI allowed step)
          fun tr s b s' es hb => hstep tr s b s' es (List.mem_cons_of_mem a hb)
    · exact absurd h (by simp)

/-- What holds before a replay, and is kept by its steps while they emit only events in `p`, holds
    afterwards, and the replay has emitted only such events. -/
theorem execIf_onwards [∀ s a, Decidable (ok s a)] {J : σ → Prop} {p : ε → Prop} {as : List α}
    {tr tr' : List ε} {s s' : σ} (h : M.execIf ok as tr s = some (tr', s')) (hJ : J s)
    (hstep : ∀ s a s' es, J s → ok s a → M.next s a = some (s', es) →
      J s' ∧ ∀ e ∈ es, p e) : J s' ∧ ∃ es, tr' = tr ++ es ∧ ∀ e ∈ es, p e := by
  refine execIf_invariant (I := fun tr' s' => J s' ∧ ∃ es, tr' = tr ++ es ∧ ∀ e ∈ es, p e) h
    ⟨hJ, [], by simp, by simp⟩ ?_
  rintro tr' s a s' es' - ⟨hJ, es, rfl, hes⟩ allowed hnext
  obtain ⟨hJ', hes'⟩ := hstep s a s' es' hJ allowed hnext
  refine ⟨hJ', es ++ es', by rw [List.append_assoc], fun e he => ?_⟩
  rcases List.mem_append.mp he with he | he
  · exact hes e he
  · exact hes' e he

/-- A weaker condition allows the same replay. -/
theorem execIf_mono [∀ s a, Decidable (ok s a)] [∀ s a, Decidable (ok' s a)]
    (hok : ∀ s a, ok s a → ok' s a) {as : List α} {tr : List ε} {s : σ} {r : List ε × σ}
    (h : M.execIf ok as tr s = some r) : M.execIf ok' as tr s = some r := by
  induction as generalizing tr s with
  | nil => exact h
  | cons a as ih =>
    simp only [Machine.execIf] at h ⊢
    split at h
    · rename_i allowed
      rw [if_pos (hok s a allowed)]
      split at h
      · exact absurd h (by simp)
      · exact ih h
    · exact absurd h (by simp)

/-- An action that is not enabled any more when it has `finished` is repeated until then in one
    way only. -/
theorem execIf_replicate_unique [∀ s a, Decidable (ok s a)] {finished : σ → Prop} {a : α}
    (hend : ∀ s, finished s → M.next s a = none) {m n : Nat} {tr : List ε} {s : σ}
    {r r' : List ε × σ} (h : M.execIf ok (List.replicate m a) tr s = some r) (hr : finished r.2)
    (h' : M.execIf ok (List.replicate n a) tr s = some r') (hr' : finished r'.2) : r = r' := by
  have hnone : ∀ {k : Nat} {tr : List ε} {s : σ} {r : List ε × σ}, finished s →
      M.execIf ok (List.replicate (k + 1) a) tr s ≠ some r := by
    intro k tr s r hs h
    rw [List.replicate_succ] at h
    simp [Machine.execIf, hend s hs] at h
  induction m generalizing n tr s with
  | zero =>
    cases h
    cases n with
    | zero => exact Option.some.inj h'
    | succ n => exact absurd h' (hnone hr)
  | succ m ih =>
    cases n with
    | zero =>
      cases h'
      exact absurd h (hnone hr')
    | succ n =>
      rw [List.replicate_succ] at h h'
      simp only [Machine.execIf] at h h'
      split at h
      · rename_i allowed
        rw [if_pos allowed] at h'
        split at h
        · exact absurd h (by simp)
        · rename_i step
          rw [step] at h'
          exact ih h h'
      · exact absurd h (by simp)

/-- A schedule that has an action in `p` is cut at the last one. -/
theorem exec_last {p : α → Prop} {as : List α} {tr : List ε} {s : σ}
    (h : M.exec as = some (tr, s)) (hp : ∃ a ∈ as, p a) :
    ∃ as₁ a as₂ tr₀ s₀ es s₁, as = as₁ ++ a :: as₂ ∧ p a ∧ (∀ b ∈ as₂, ¬ p b) ∧
      M.exec as₁ = some (tr₀, s₀) ∧ M.next s₀ a = some (s₁, es) ∧
      M.execIf (fun _ _ => True) as₂ (tr₀ ++ es) s₁ = some (tr, s) := by
  -- the cut of the list, by induction from its end
  have hcut : ∃ as₁ a as₂, as = as₁ ++ a :: as₂ ∧ p a ∧ ∀ b ∈ as₂, ¬ p b := by
    clear h
    induction as with
    | nil => exact absurd hp (by simp)
    | cons b as ih =>
      by_cases hlater : ∃ a ∈ as, p a
      · obtain ⟨as₁, a, as₂, rfl, ha, hrest⟩ := ih hlater
        exact ⟨b :: as₁, a, as₂, rfl, ha, hrest⟩
      · obtain ⟨a, hmem, ha⟩ := hp
        rcases List.mem_cons.mp hmem with rfl | hmem
        · exact ⟨[], a, as, rfl, ha, fun b hb hpb => hlater ⟨b, hb, hpb⟩⟩
        · exact absurd ⟨a, hmem, ha⟩ hlater
  obtain ⟨as₁, a, as₂, rfl, ha, hrest⟩ := hcut
  rw [exec, execIf_append] at h
  obtain ⟨⟨tr₀, s₀⟩, hfirst, hlast⟩ := Option.bind_eq_some_iff.mp h
  simp only [Machine.execIf, if_true] at hlast
  split at hlast
  · exact absurd hlast (by simp)
  · rename_i step
    exact ⟨as₁, a, as₂, tr₀, s₀, _, _, rfl, ha, hrest, hfirst, step, hlast⟩

/-- A schedule allowed by `A` that replays from the start to events and a state with `P`
    yields a run that ends in `P`. -/
theorem exists_runIf {A : σ → α → Prop} [∀ s a, Decidable (A s a)] (as : List α)
    {P : List ε → σ → Prop} (h : ∃ r ∈ M.execIf A as [] M.init, P r.1 r.2) :
    ∃ tr s, M.RunIf A tr s ∧ P tr s := by
  obtain ⟨⟨tr, s⟩, hexec, hP⟩ := h
  exact ⟨tr, s, RunIf.execIf .start hexec, hP⟩

/-- A schedule that replays from the start to events and a state with `P` yields a run
    that ends in `P`. -/
theorem exists_run (as : List α) {P : List ε → σ → Prop}
    (h : ∃ r ∈ M.exec as, P r.1 r.2) : ∃ tr s, M.Run tr s ∧ P tr s :=
  exists_runIf as h

/-- **Termination rule.** An action that lowers a bound whenever it has not finished is taken
    only finitely often until it has. -/
theorem exists_replicate {I : List ε → σ → Nat → Prop} {finished : σ → Prop} (a : α)
    (hstep : ∀ tr s n, I tr s n → ¬ finished s →
      ∃ s' es m, M.next s a = some (s', es) ∧ m < n ∧ I (tr ++ es) s' m)
    {tr : List ε} {s : σ} {n : Nat} (h : I tr s n) :
    ∃ k ≤ n, ∃ tr' s', M.execIf (fun _ _ => True) (List.replicate k a) tr s = some (tr', s') ∧
      finished s' := by
  induction n using Nat.strongRecOn generalizing tr s with
  | _ n ih =>
    by_cases hfinished : finished s
    · exact ⟨0, Nat.zero_le n, tr, s, rfl, hfinished⟩
    · obtain ⟨s', es, m, hnext, hlt, hI⟩ := hstep tr s n h hfinished
      obtain ⟨k, hk, tr', s'', hexec, hdone⟩ := ih m hlt hI
      refine ⟨k + 1, by omega, tr', s'', ?_, hdone⟩
      rw [List.replicate_succ]
      simp only [Machine.execIf, if_true, hnext]
      exact hexec

end Machine

end Transition
