import HopeThreading.Sync.RwSpinlockUse
import HopeThreading.Sync.Spinlock

namespace HopeThreading.ObjectSafeWrapper

open Transition

/-!
# `object_safe_wrapper`

An object with a mutex.  `->` and `*` take the mutex for as long as the returned proxy lives,
which is to the end of the expression: exclusive from a wrapper, with `TSharedLock` from a const
wrapper.  So an expression is one or more accesses to the object with the mutex held, and so is
what a caller does by hand between `lock` and `unlock`.

The proxy of a const wrapper casts the const away, and nothing keeps its user from calling a
method that writes.  With a shared lock that is up to the user (`Use.reads`).
-/

/-- `TObject` with its methods `M`, access by access. -/
structure Object (D M β ρ : Type*) where
  init : D
  begin : M → β
  step : M → D → β → D × (β ⊕ ρ)

variable {ι D M β ρ μ : Type*} {O : Object D M β ρ} {const : Mode}

/-- An expression `wrapper->method()`; `const` is how a const wrapper takes the mutex. -/
structure Use (O : Object D M β ρ) (const : Mode) where
  isConst : Bool
  method : M
  reads : isConst = true → const = .shared → ∀ d b, (O.step method d b).1 = d

/-- How the expression takes the mutex. -/
def Use.mode (u : Use O const) : Mode := if u.isConst then const else .exclusive

/-- What is called under the shared lock leaves the object as it is. -/
theorem Use.step_of_shared {u : Use O const} {d : D} {b : β} (h : u.mode = .shared) :
    (O.step u.method d b).1 = d := by
  unfold mode at h
  split at h
  · rename_i hconst
    exact u.reads hconst h d b
  · exact absurd h (by simp)

/-- The uses of one wrapper. -/
def sections (O : Object D M β ρ) (const : Mode) : Sections Unit D (Use O const) β ρ where
  init _ := O.init
  place _ := ()
  mode := Use.mode
  begin u := O.begin u.method
  step u := O.step u.method
  reads := Use.step_of_shared

/-- The methods of the uses, done by `S`. -/
def onUses (S : SeqObject μ M ρ) (O : Object D M β ρ) (const : Mode) :
    SeqObject μ (Use O const) ρ where
  init := S.init
  next m u := S.next m u.method
  returns m u r := S.returns m u.method r

/-- The methods called, with their results, in the order of their last accesses. -/
def calls (tr : List (Guarded.Event ι (Use O const) ρ)) : List (M × ρ) :=
  (Guarded.operations tr).map fun x => (x.1.method, x.2)

/-- The state after a history of uses is the state after its calls. -/
theorem after_calls (S : SeqObject μ M ρ) (history : List (Use O const × ρ)) :
    (onUses S O const).after history = S.after (history.map fun x => (x.1.method, x.2)) := by
  unfold SeqObject.after
  rw [List.foldl_map]
  rfl

/-- The calls of a legal history of uses are a legal history. -/
theorem legal_calls {S : SeqObject μ M ρ} {history : List (Use O const × ρ)}
    (h : (onUses S O const).Legal history) :
    S.Legal (history.map fun x => (x.1.method, x.2)) := by
  intro before method res rest heq
  obtain ⟨before', rest', rfl, rfl, hrest⟩ := List.map_eq_append_iff.mp heq
  obtain ⟨⟨u, r⟩, rest'', rfl, hu, -⟩ := List.map_eq_cons_iff.mp hrest
  obtain ⟨rfl, rfl⟩ := Prod.mk.inj hu
  rw [← after_calls]
  exact h before' u r rest'' rfl

/-- What the users of a wrapper rely on. -/
structure Safe [DecidableEq ι] {σ π : Type*} (O : Object D M β ρ) (const : Mode)
    (S : SeqObject μ M ρ) (abs : D → μ) (tr : List (Guarded.Event ι (Use O const) ρ))
    (c : Config ι (Guarded.Memory Unit σ D) (Guarded.Caller Unit π (Use O const) β ρ)) : Prop where
  guarded : Guarded.Linearizable (sections O const) tr c
  /-- The methods return what they return one after the other. -/
  legal : S.Legal (calls tr)
  /-- While nobody writes the object, it is what the methods have made of it. -/
  contents : Guarded.Unwritten (sections O const) () c → abs (c.shared.data ()) = S.after (calls tr)

/-- Guarded sections that are linearizable make the wrapped object safe. -/
theorem safe_of_linearizable [DecidableEq ι] {σ π : Type*} {S : SeqObject μ M ρ} {abs : D → μ}
    (hspec : Guarded.Implements (sections O const) () (onUses S O const) abs)
    {tr : List (Guarded.Event ι (Use O const) ρ)}
    {c : Config ι (Guarded.Memory Unit σ D) (Guarded.Caller Unit π (Use O const) β ρ)}
    (h : Guarded.Linearizable (sections O const) tr c) : Safe O const S abs tr c := by
  obtain ⟨d, hseq, hclean⟩ := h.sequential ()
  have hall : Guarded.sections (sections O const) () tr = Guarded.operations tr :=
    List.filter_eq_self.mpr fun _ _ => rfl
  rw [hall] at hseq
  obtain ⟨hlegal, hafter⟩ := hseq.legal hspec
  refine ⟨h, legal_calls hlegal, fun hun => ?_⟩
  rw [hclean hun, hafter, after_calls]
  rfl

/-- **With `rw_spinlock`.** Any object, used by fewer than `2 ^ 12` threads through `unique_lock`
    and `shared_lock`. -/
theorem shared_safe_of_run [Fintype ι] [DecidableEq ι] (hfew : Fintype.card ι < 2 ^ 12)
    {S : SeqObject μ M ρ} {abs : D → μ}
    (hspec : Guarded.Implements (sections O .shared) () (onUses S O .shared) abs)
    {tr : List (Guarded.Event ι (Use O .shared) ρ)}
    {c : Config ι (Guarded.Memory Unit RwSpinlock.Shared D)
      (Guarded.Caller Unit RwSpinlock.Local (Use O .shared) β ρ)}
    (run : (Guarded.program (RwSpinlock.guard hfew) (sections O .shared)).machine.Run tr c) :
    Safe O .shared S abs tr c :=
  safe_of_linearizable hspec (Guarded.linearizable_of_run run)

/-- A counter, whose increment reads it and writes it back. -/
def counter : Object Nat Bool (Option Nat) Nat where
  init := 0
  begin _ := none
  step
    | true, d, none => (d, .inl (some d))
    | true, _, some n => (n + 1, .inr n)
    | false, d, _ => (d, .inr d)

/-- It returns the number it had. -/
def counterObject : SeqObject Nat Bool Nat where
  init := 0
  next m method := if method then m + 1 else m
  returns m _ r := r = m

/-- The increment of a counter. -/
def increment (const : Mode) : Use counter const where
  isConst := false
  method := true
  reads h := Bool.noConfusion h

/-- The number that an increment alone has read is still there. -/
theorem counter_reaches {u : Use counter const} {d d' : Nat} {b : Option Nat}
    (h : Guarded.Reaches (sections counter const) u d b d') :
    d' = d ∧ (b = none ∨ b = some d) := by
  induction h with
  | begin => exact ⟨rfl, .inl rfl⟩
  | @step b b' d' d'' before hstep ih =>
    obtain ⟨rfl, hb⟩ := ih
    change counter.step u.method d' b = (d'', .inl b') at hstep
    rcases hb with rfl | rfl <;> cases hmethod : u.method <;> rw [hmethod] at hstep <;>
      cases hstep
    exact ⟨rfl, .inr rfl⟩

/-- The counter does what it is to do, seen alone. -/
theorem counter_implements : Guarded.Implements (sections counter const) ()
    (onUses counterObject counter const) id := by
  refine ⟨rfl, ?_⟩
  rintro u d d' r - ⟨b, d₁, hreach, hstep⟩
  obtain ⟨rfl, hb⟩ := counter_reaches hreach
  change counter.step u.method d₁ b = (d', .inr r) at hstep
  show r = d₁ ∧ d' = if u.method then d₁ + 1 else d₁
  rcases hb with rfl | rfl <;> cases hmethod : u.method <;> rw [hmethod] at hstep <;>
    cases hstep <;> simp

/-- Two threads increment a counter at the same time. -/
theorem shared_safe_of_run_counter : ∃ tr c,
    (Guarded.program (RwSpinlock.guard (ι := Fin 2) (by decide))
      (sections counter .shared)).machine.Run tr c ∧ c.shared.data () = 2 ∧
    Safe counter .shared counterObject id tr c := by
  obtain ⟨tr, c, run, hdata⟩ := Machine.exists_run
    (M := (Guarded.program (RwSpinlock.guard (ι := Fin 2) (by decide))
      (sections counter .shared)).machine) (P := fun _ c => c.shared.data () = 2)
    [(0, .call (increment _)), (0, .step), (1, .call (increment _)), (1, .step), (0, .step),
      (1, .step), (0, .step), (0, .step), (0, .step), (1, .step), (1, .step), (1, .step),
      (1, .step)]
    (by decide +kernel)
  exact ⟨tr, c, run, hdata, shared_safe_of_run _ counter_implements run⟩

/-- **With `spinlock`.** `TSharedLock` is `TExclusiveLock`, so that const wrappers lock like others:
    their users may write, and any number of threads may use the wrapper. -/
theorem spinlock_safe_of_run [DecidableEq ι] {S : SeqObject μ M ρ} {abs : D → μ}
    (hspec : Guarded.Implements (sections O .exclusive) () (onUses S O .exclusive) abs)
    {tr : List (Guarded.Event ι (Use O .exclusive) ρ)}
    {c : Config ι (Guarded.Memory Unit Spinlock.Shared D)
      (Guarded.Caller Unit Spinlock.Local (Use O .exclusive) β ρ)}
    (run : (Guarded.program (Spinlock.guard ι) (sections O .exclusive)).machine.Run tr c) :
    Safe O .exclusive S abs tr c :=
  safe_of_linearizable hspec (Guarded.linearizable_of_run run)

/-- One thread waits for the other. -/
theorem spinlock_safe_of_run_counter : ∃ tr c,
    (Guarded.program (Spinlock.guard (Fin 2)) (sections counter .exclusive)).machine.Run tr c ∧
    c.shared.data () = 2 ∧ Safe counter .exclusive counterObject id tr c := by
  obtain ⟨tr, c, run, hdata⟩ := Machine.exists_run
    (M := (Guarded.program (Spinlock.guard (Fin 2)) (sections counter .exclusive)).machine)
    (P := fun _ c => c.shared.data () = 2)
    [(0, .call (increment _)), (0, .step), (1, .call (increment _)), (1, .step), (0, .step),
      (1, .step), (0, .step), (0, .step), (0, .step), (1, .step), (1, .step), (1, .step),
      (1, .step)]
    (by decide +kernel)
  exact ⟨tr, c, run, hdata, spinlock_safe_of_run counter_implements run⟩

end HopeThreading.ObjectSafeWrapper
