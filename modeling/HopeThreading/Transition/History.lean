import HopeThreading.Transition.Machine

namespace Transition

/-!
# History variables

A property of a run may be about something that the machine has no event for.
`M.recording record` is the machine `M` that also writes down, at each step, what `record` says
about the state and the action.  It has the runs of `M`: forgetting the records gives a run of
`M` (`RunIf.forget`), and every run of `M` can be recorded (`RunIf.recorded`).
-/

namespace Machine

variable {σ α ε η : Type*} {M : Machine σ α ε} {record : σ → α → List η} {ok : σ → α → Prop}

/-- `M` with the records of its steps beside its events. -/
def recording (M : Machine σ α ε) (record : σ → α → List η) : Machine σ α (ε ⊕ η) where
  init := M.init
  next s a := (M.next s a).map fun r => (r.1, r.2.map .inl ++ (record s a).map .inr)

/-- The events of `M`. -/
def events (tr : List (ε ⊕ η)) : List ε := tr.filterMap Sum.getLeft?

/-- The records. -/
def records (tr : List (ε ⊕ η)) : List η := tr.filterMap Sum.getRight?

/-- The events of a longer history. -/
theorem events_append (tr tr' : List (ε ⊕ η)) : events (tr ++ tr') = events tr ++ events tr' :=
  List.filterMap_append

/-- The records of a longer history. -/
theorem records_append (tr tr' : List (ε ⊕ η)) :
    records (tr ++ tr') = records tr ++ records tr' :=
  List.filterMap_append

/-- The events of one step. -/
theorem events_step (es : List ε) (hs : List η) :
    events (es.map Sum.inl ++ hs.map Sum.inr) = es := by
  simp [events, List.filterMap_map, Function.comp_def]

/-- The records of one step. -/
theorem records_step (es : List ε) (hs : List η) :
    records (es.map Sum.inl ++ hs.map Sum.inr) = hs := by
  simp [records, List.filterMap_map, Function.comp_def]

/-- A list of events has these events … -/
theorem events_inl (es : List ε) : events (es.map Sum.inl : List (ε ⊕ η)) = es := by
  have h := events_step es ([] : List η)
  rwa [List.map_nil, List.append_nil] at h

/-- … and no records. -/
theorem records_inl (es : List ε) : records (es.map Sum.inl : List (ε ⊕ η)) = [] := by
  have h := records_step es ([] : List η)
  rwa [List.map_nil, List.append_nil] at h

/-- A trace has nothing but events and records. -/
theorem eq_nil_of_events_records {tr : List (ε ⊕ η)} (hevents : events tr = [])
    (hrecords : records tr = []) : tr = [] := by
  cases tr with
  | nil => rfl
  | cons e rest =>
    cases e with
    | inl e => exact absurd hevents (by simp [events])
    | inr x => exact absurd hrecords (by simp [records])

/-- A trace with a record is cut at the last one. -/
theorem exists_last_record {tr : List (ε ⊕ η)} (h : records tr ≠ []) :
    ∃ before x after, tr = before ++ .inr x :: after ∧ records after = [] := by
  induction tr with
  | nil => exact absurd rfl h
  | cons e rest ih =>
    by_cases hrest : records rest = []
    · -- the only record is the first entry
      cases e with
      | inl e => exact absurd hrest h
      | inr x => exact ⟨[], x, rest, rfl, hrest⟩
    · obtain ⟨before, x, after, rfl, hafter⟩ := ih hrest
      exact ⟨e :: before, x, after, rfl, hafter⟩

/-- A step of the recording machine is a step of `M`. -/
theorem next_recording {s s' : σ} {a : α} {es : List (ε ⊕ η)}
    (h : (M.recording record).next s a = some (s', es)) :
    M.next s a = some (s', events es) ∧ records es = record s a := by
  obtain ⟨⟨s'', es'⟩, hstep, heq⟩ := Option.map_eq_some_iff.mp h
  obtain ⟨rfl, rfl⟩ := Prod.mk.inj heq
  exact ⟨by rw [events_step]; exact hstep, records_step es' _⟩

/-- Without the records, a run is a run of `M`. -/
theorem RunIf.forget {tr : List (ε ⊕ η)} {s : σ} (run : (M.recording record).RunIf ok tr s) :
    M.RunIf ok (events tr) s := by
  induction run with
  | start => exact .start
  | snoc _ allowed step ih =>
    rw [events_append]
    exact ih.snoc allowed (next_recording step).1

/-- Every run of `M` can be recorded. -/
theorem RunIf.recorded {tr : List ε} {s : σ} (run : M.RunIf ok tr s) :
    ∃ tr', (M.recording record).RunIf ok tr' s ∧ events tr' = tr := by
  induction run with
  | start => exact ⟨[], .start, rfl⟩
  | @snoc tr es s s' a _ allowed step ih =>
    obtain ⟨tr', run', rfl⟩ := ih
    refine ⟨_, run'.snoc allowed (Option.map_eq_some_iff.mpr ⟨(s', es), step, rfl⟩), ?_⟩
    rw [events_append, events_step]

/-- **Invariant rule.** An invariant of the states of `M` may be used to show one of the records. -/
theorem RunIf.invariant_records {I : List η → σ → Prop} {J : List ε → σ → Prop}
    (hJ : ∀ tr s, M.RunIf ok tr s → J tr s) (hinit : I [] M.init)
    (hstep : ∀ hist tr s a s' es, J tr s → I hist s → ok s a → M.next s a = some (s', es) →
      I (hist ++ record s a) s')
    {tr : List (ε ⊕ η)} {s : σ} (run : (M.recording record).RunIf ok tr s) :
    I (records tr) s := by
  induction run with
  | start => exact hinit
  | snoc run allowed step ih =>
    obtain ⟨hnext, hrecords⟩ := next_recording step
    rw [records_append, hrecords]
    exact hstep _ _ _ _ _ _ (hJ _ _ run.forget) ih allowed hnext

end Machine

end Transition
