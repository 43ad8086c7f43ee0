import Mathlib.Data.List.Basic

namespace Transition

/-!
# Sequences of calls

One thread that calls the functions of a component one after the other: `step` is the state
after a call.  `Along step P s calls` says that `P` holds of every call and the state it is
made in, and `answers` are the results of the calls in order.  Two properties that agree on
each call agree along every sequence (`along_congr`), and two components give the same
answers if they give the same answer to each call and stay related (`answers_eq_map`,
`answers_eq_iff`).  A value that each call sets or leaves alone is in the end the one that was
set last (`get_foldl`).
-/

section

variable {σ α : Type*} {step : σ → α → σ} {P Q : σ → α → Prop} {J : σ → Prop}

/-- `P` holds of each element of a sequence and the state it is met in. -/
def Along (step : σ → α → σ) (P : σ → α → Prop) : σ → List α → Prop
  | _, [] => True
  | s, a :: rest => P s a ∧ Along step P (step s a) rest

instance instDecidableAlong [∀ s a, Decidable (P s a)] :
    (s : σ) → (as : List α) → Decidable (Along step P s as)
  | _, [] => isTrue trivial
  | s, a :: rest =>
    have := instDecidableAlong (step s a) rest
    inferInstanceAs (Decidable (P s a ∧ Along step P (step s a) rest))

/-- Two properties that agree on each element agree along the sequence; `J` is kept by the
    steps. -/
theorem along_congr {as : List α} {s : σ}
    (hstep : ∀ s, ∀ a ∈ as, J s → (P s a ↔ Q s a) ∧ J (step s a)) (hJ : J s) :
    Along step P s as ↔ Along step Q s as := by
  induction as generalizing s with
  | nil => exact Iff.rfl
  | cons a rest ih =>
    obtain ⟨hPQ, hJ'⟩ := hstep s a (List.mem_cons_self ..) hJ
    exact and_congr hPQ (ih (fun s b hb => hstep s b (List.mem_cons_of_mem _ hb)) hJ')

/-- A property that holds of every call of which another one does, holds along every sequence
    along which that one does; `J` is kept by the steps. -/
theorem Along.imp {as : List α} {s : σ} (h : Along step P s as)
    (hstep : ∀ s, ∀ a ∈ as, J s → P s a → Q s a ∧ J (step s a)) (hJ : J s) :
    Along step Q s as := by
  induction as generalizing s with
  | nil => trivial
  | cons a rest ih =>
    obtain ⟨hfirst, hrest⟩ := h
    obtain ⟨hQ, hJ'⟩ := hstep s a (List.mem_cons_self ..) hJ hfirst
    exact ⟨hQ, ih hrest (fun s b hb => hstep s b (List.mem_cons_of_mem _ hb)) hJ'⟩

end

section

variable {σ τ υ α β : Type*}

/-- The results of the calls of a sequence. -/
def answers (call : σ → α → σ × β) : σ → List α → List β
  | _, [] => []
  | s, a :: rest => (call s a).2 :: answers call (call s a).1 rest

/-- **Simulation.** A component whose calls keep it related to another one, and answer what that
    one does, answers every sequence so. -/
theorem answers_eq_map {γ : Type*} {call : σ → α → σ × γ} {spec : τ → α → τ × β} {f : β → γ}
    {R : σ → τ → Prop}
    (hstep : ∀ s t a, R s t → (call s a).2 = f (spec t a).2 ∧ R (call s a).1 (spec t a).1)
    {s : σ} {t : τ} (hR : R s t) (as : List α) :
    answers call s as = (answers spec t as).map f := by
  induction as generalizing s t with
  | nil => rfl
  | cons a rest ih =>
    obtain ⟨hanswer, hR'⟩ := hstep s t a hR
    show _ :: _ = _ :: _
    rw [hanswer, ih hR']

/-- **Equal answers.** While two components are related, they answer a call alike exactly
    when `P` holds, and then they stay related; `u` is what `P` has to know about the past. -/
theorem answers_eq_iff {call : σ → α → σ × β} {spec : τ → α → τ × β} {step : υ → α → υ}
    {P : υ → α → Prop} {R : σ → τ → υ → Prop}
    (hstep : ∀ s t u a, R s t u → ((call s a).2 = (spec t a).2 ↔ P u a) ∧
      (P u a → R (call s a).1 (spec t a).1 (step u a)))
    {s : σ} {t : τ} {u : υ} (hR : R s t u) (as : List α) :
    answers call s as = answers spec t as ↔ Along step P u as := by
  induction as generalizing s t u with
  | nil => exact ⟨fun _ => trivial, fun _ => rfl⟩
  | cons a rest ih =>
    obtain ⟨hP, hnext⟩ := hstep s t u a hR
    constructor
    · intro h
      obtain ⟨hfirst, hrest⟩ := List.cons.inj h
      have ha := hP.mp hfirst
      exact ⟨ha, (ih (hnext ha)).mp hrest⟩
    · rintro ⟨ha, hrest⟩
      show _ :: _ = _ :: _
      rw [hP.mpr ha, (ih (hnext ha)).mpr hrest]

end

/-! ### The last value -/

section

variable {σ α β : Type*} {step : σ → α → σ} {set : α → Option β} {as : List α}

/-- The last value that `set` finds in a sequence, `b` if there is none. -/
def lastSet (set : α → Option β) (as : List α) (b : β) : β := (as.filterMap set).getLast?.getD b

/-- What the first step sets counts only when nothing is set after it. -/
theorem lastSet_cons (a : α) (b : β) :
    lastSet set (a :: as) b = lastSet set as ((set a).getD b) := by
  cases h : set a with
  | none => rw [lastSet, List.filterMap_cons_none h, lastSet, Option.getD_none]
  | some c =>
    rw [lastSet, List.filterMap_cons_some h, List.getLast?_cons, lastSet, Option.getD_some,
      Option.getD_some]

/-- **Last write.** If a call either sets what `get` reads or leaves it alone, then a sequence of
    calls leaves there what was set last. -/
theorem get_foldl (get : σ → β) (set : α → Option β)
    (hstep : ∀ s, ∀ a ∈ as, get (step s a) = (set a).getD (get s)) (s : σ) :
    get (as.foldl step s) = lastSet set as (get s) := by
  induction as generalizing s with
  | nil => rfl
  | cons a rest ih =>
    rw [List.foldl_cons, ih (fun s b hb => hstep s b (List.mem_cons_of_mem _ hb)),
      hstep s a (List.mem_cons_self ..), lastSet_cons]

/-- What is set last arrives if `f`, which it goes through, keeps it. -/
theorem lastSet_map_eq_iff {f : β → β} {b : β} :
    lastSet (fun a => (set a).map f) as b = lastSet set as b ↔
      ∀ c, (as.filterMap set).getLast? = some c → f c = c := by
  rw [lastSet, ← List.map_filterMap, List.getLast?_map, lastSet]
  cases (as.filterMap set).getLast? with
  | none => simp
  | some c => simp

end

end Transition
