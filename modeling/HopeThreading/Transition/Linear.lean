import Mathlib.Data.List.Induction
import Mathlib.Logic.Function.Basic

namespace Transition

/-!
# Sequential objects

A concurrent object is linearizable when the operations, put in the order of one step of
each, are a legal history of a sequential object.  `SeqObject.Legal` says that a list of
operations with their results is such a history, `SeqObject.after` is the state it ends in,
and both extend at the end by one operation (`SeqObject.Legal.snoc`).

Objects that are independent of each other make one object (`SeqObject.family`), and a history of
it is legal when the part of every object is (`SeqObject.legal_family`).  `SeqObject.Refines`
compares two descriptions of one object.
-/

/-- What an operation `ω` does to the state `μ`, and the results `ρ` it may return. -/
structure SeqObject (μ ω ρ : Type*) where
  init : μ
  next : μ → ω → μ
  returns : μ → ω → ρ → Prop

namespace SeqObject

variable {μ ω ρ : Type*} {O : SeqObject μ ω ρ}

/-- The state after the operations of a history. -/
def after (O : SeqObject μ ω ρ) (history : List (ω × ρ)) : μ :=
  history.foldl (fun m x => O.next m x.1) O.init

/-- Every operation of the history returned what the object allows at that point. -/
def Legal (O : SeqObject μ ω ρ) (history : List (ω × ρ)) : Prop :=
  ∀ before op res rest, history = before ++ (op, res) :: rest →
    O.returns (O.after before) op res

/-- The state after one call more. -/
theorem after_snoc (history : List (ω × ρ)) (op : ω) (res : ρ) :
    O.after (history ++ [(op, res)]) = O.next (O.after history) op := by
  simp [after]

/-- No call was answered wrongly yet. -/
theorem legal_nil : O.Legal [] := fun _ _ _ _ h => absurd h (by simp)

/-- One more operation. -/
theorem Legal.snoc {history : List (ω × ρ)} (h : O.Legal history) {op : ω} {res : ρ}
    (hres : O.returns (O.after history) op res) : O.Legal (history ++ [(op, res)]) := by
  intro before op' res' rest heq
  rcases List.eq_nil_or_concat rest with rfl | ⟨rest, x, rfl⟩
  · obtain ⟨rfl, hlast⟩ := List.append_inj' heq (by simp)
    obtain ⟨rfl, rfl⟩ : op = op' ∧ res = res' := by simpa using hlast
    exact hres
  · rw [List.concat_eq_append, ← List.cons_append, ← List.append_assoc] at heq
    exact h before op' res' rest (List.append_inj' heq (by simp)).1

/-! ### Independent objects -/

section

variable {I : Type*} [DecidableEq I]

/-- The objects `O i` side by side; an operation is on the object at its place. -/
def family (O : I → SeqObject μ ω ρ) (place : ω → I) : SeqObject (I → μ) ω ρ where
  init i := (O i).init
  next m op := Function.update m (place op) ((O (place op)).next (m (place op)) op)
  returns m op res := (O (place op)).returns (m (place op)) op res

variable {O : I → SeqObject μ ω ρ} {place : ω → I}

/-- The part of a history that is on object `i`. -/
def part (place : ω → I) (i : I) (history : List (ω × ρ)) : List (ω × ρ) :=
  history.filter fun x => place x.1 = i

/-- The part of a history is made of the parts of its pieces. -/
theorem part_append (i : I) (history history' : List (ω × ρ)) :
    part place i (history ++ history') = part place i history ++ part place i history' :=
  List.filter_append ..

/-- A call goes to the part of its own place, and to no other. -/
theorem part_snoc (i : I) (history : List (ω × ρ)) (op : ω) (res : ρ) :
    part place i (history ++ [(op, res)]) =
      part place i history ++ if place op = i then [(op, res)] else [] := by
  rw [part_append]
  simp [part, List.filter_cons]

/-- Every object is what the operations on it have made. -/
theorem after_family (history : List (ω × ρ)) (i : I) :
    (family O place).after history i = (O i).after (part place i history) := by
  induction history using List.reverseRecOn with
  | nil => rfl
  | append_singleton history x ih =>
    obtain ⟨op, res⟩ := x
    rw [after_snoc, part_snoc]
    by_cases hi : place op = i
    · subst hi
      rw [if_pos rfl, after_snoc, ← ih]
      exact Function.update_self _ _ _
    · rw [if_neg hi, List.append_nil, ← ih]
      exact Function.update_of_ne (Ne.symm hi) _ _

/-- The last operation of a legal history returned what the object allows. -/
theorem Legal.last {O : SeqObject μ ω ρ} {history : List (ω × ρ)} {op : ω} {res : ρ}
    (h : O.Legal (history ++ [(op, res)])) : O.returns (O.after history) op res :=
  h history op res [] rfl

/-- The beginning of a legal history is legal. -/
theorem Legal.of_append {O : SeqObject μ ω ρ} {history rest : List (ω × ρ)}
    (h : O.Legal (history ++ rest)) : O.Legal history := by
  intro before op res rest' heq
  refine h before op res (rest' ++ rest) ?_
  rw [heq, List.append_assoc, List.cons_append]

/-- **Locality.** A history is legal when the part of every object is. -/
theorem legal_family {history : List (ω × ρ)} (h : ∀ i, (O i).Legal (part place i history)) :
    (family O place).Legal history := by
  induction history using List.reverseRecOn with
  | nil => exact legal_nil
  | append_singleton history x ih =>
    obtain ⟨op, res⟩ := x
    refine (ih fun i => ?_).snoc ?_
    · have hi := h i
      rw [part_snoc] at hi
      exact hi.of_append
    · have hop := h (place op)
      rw [part_snoc, if_pos rfl] at hop
      show (O (place op)).returns ((family O place).after history (place op)) op res
      rw [after_family]
      exact hop.last

end

/-! ### Two descriptions of one object -/

/-- Seen through `abs`, the object does what `O'` says. -/
structure Refines {μ' : Type*} (O : SeqObject μ ω ρ) (O' : SeqObject μ' ω ρ) (abs : μ → μ') :
    Prop where
  init : abs O.init = O'.init
  next : ∀ m op, abs (O.next m op) = O'.next (abs m) op
  returns : ∀ m op res, O.returns m op res → O'.returns (abs m) op res

section

variable {μ' : Type*} {O : SeqObject μ ω ρ} {O' : SeqObject μ' ω ρ} {abs : μ → μ'}

/-- The two objects stay related along a history. -/
theorem Refines.after (h : Refines O O' abs) (history : List (ω × ρ)) :
    abs (O.after history) = O'.after history := by
  induction history using List.reverseRecOn with
  | nil => exact h.init
  | append_singleton history x ih =>
    obtain ⟨op, res⟩ := x
    rw [after_snoc, after_snoc, h.next, ih]

/-- A history that is legal for the finer object is legal for the coarser one. -/
theorem Refines.legal (h : Refines O O' abs) {history : List (ω × ρ)} (hl : O.Legal history) :
    O'.Legal history := by
  intro before op res rest heq
  rw [← h.after]
  exact h.returns _ op res (hl before op res rest heq)

end

end SeqObject

end Transition
