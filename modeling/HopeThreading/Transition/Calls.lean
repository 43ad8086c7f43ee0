import HopeThreading.Transition.Linear

namespace Transition

/-!
# The calls of threads

A call takes effect at one point between its start and its end.  `ProgramOrder` says that the
operations of a history are the calls of the threads in this sense.  `Mark` is what a machine
writes down for it: the calls, and those that take effect.

When a thread starts a call (`ProgramOrder.start`) or some of its operations take effect
(`ProgramOrder.performed`), the other threads are not concerned.
-/

variable {ω ρ κ : Type*} [DecidableEq κ]

/-- The operations of a history are the calls of the threads in their order, apart from the call
    that each thread may be in and that has not taken effect. -/
def ProgramOrder (thread : ω → κ) (calls : List ω) (history : List (ω × ρ))
    (underway : κ → Option ω) : Prop :=
  ∀ t, calls.filter (thread · = t) =
    (SeqObject.part thread t history).map Prod.fst ++ (underway t).toList

section

variable {thread : ω → κ} {calls : List ω} {history : List (ω × ρ)}
  {underway underway' : κ → Option ω} {op : ω}

/-- New calls, and calls that take effect. -/
theorem ProgramOrder.append (h : ProgramOrder thread calls history underway) {calls' : List ω}
    {history' : List (ω × ρ)} (hstep : ∀ t, (underway t).toList ++ calls'.filter (thread · = t) =
      (SeqObject.part thread t history').map Prod.fst ++ (underway' t).toList) :
    ProgramOrder thread (calls ++ calls') (history ++ history') underway' := by
  intro t
  rw [List.filter_append, h t, List.append_assoc, hstep t, SeqObject.part_append, List.map_append,
    List.append_assoc]

/-- A thread starts a call. -/
theorem ProgramOrder.call (h : ProgramOrder thread calls history underway)
    (hnone : underway (thread op) = none) (hop : underway' (thread op) = some op)
    (hothers : ∀ t, t ≠ thread op → underway' t = underway t) :
    ProgramOrder thread (calls ++ [op]) history underway' := by
  rw [← List.append_nil history]
  refine h.append fun t => ?_
  by_cases ht : t = thread op
  · subst ht
    simp [SeqObject.part, hnone, hop]
  · simp [SeqObject.part, hothers t ht, Ne.symm ht]

/-- A call takes effect. -/
theorem ProgramOrder.perform (h : ProgramOrder thread calls history underway) (res : ρ)
    (hop : underway (thread op) = some op) (hnone : underway' (thread op) = none)
    (hothers : ∀ t, t ≠ thread op → underway' t = underway t) :
    ProgramOrder thread calls (history ++ [(op, res)]) underway' := by
  rw [← List.append_nil calls]
  refine h.append fun t => ?_
  by_cases ht : t = thread op
  · subst ht
    simp [SeqObject.part, hnone, hop]
  · simp [SeqObject.part, hothers t ht, Ne.symm ht]

end

/-! ### Operations that carry their thread -/

section

variable {t : κ} {calls : List (κ × ω)} {history : List ((κ × ω) × ρ)}
  {entering entering' : κ → Option ω}

/-- The operations `p` of thread `t` are all of `t`. -/
theorem SeqObject.part_thread (p : List (ω × ρ)) (u : κ) :
    SeqObject.part Prod.fst u (p.map fun x => ((t, x.1), x.2)) =
      if u = t then p.map fun x => ((t, x.1), x.2) else [] := by
  split
  · rename_i hu
    refine List.filter_eq_self.mpr fun x hx => ?_
    obtain ⟨y, -, rfl⟩ := List.mem_map.mp hx
    simp [hu]
  · rename_i hu
    refine List.filter_eq_nil_iff.mpr fun x hx => ?_
    obtain ⟨y, -, rfl⟩ := List.mem_map.mp hx
    simp [Ne.symm hu]

/-- Thread `t` starts a call. -/
theorem ProgramOrder.start {op : ω}
    (h : ProgramOrder Prod.fst calls history fun u => (entering u).map (u, ·))
    (hnone : entering t = none) (hop : entering' t = some op)
    (hothers : ∀ u, u ≠ t → entering' u = entering u) :
    ProgramOrder Prod.fst (calls ++ [(t, op)]) history fun u => (entering' u).map (u, ·) := by
  refine h.call ?_ ?_ fun u hu => ?_
  · show (entering t).map _ = none
    rw [hnone]
    rfl
  · show (entering' t).map _ = some (t, op)
    rw [hop]
    rfl
  · show (entering' u).map _ = (entering u).map _
    rw [hothers u hu]

/-- The operations `p` of thread `t` take effect. -/
theorem ProgramOrder.performed {p : List (ω × ρ)}
    (h : ProgramOrder Prod.fst calls history fun u => (entering u).map (u, ·))
    (hcall : (entering t).toList = p.map Prod.fst ++ (entering' t).toList)
    (hothers : ∀ u, u ≠ t → entering' u = entering u) :
    ProgramOrder Prod.fst calls (history ++ p.map fun x => ((t, x.1), x.2))
      fun u => (entering' u).map (u, ·) := by
  rw [← List.append_nil calls]
  refine h.append fun u => ?_
  rw [SeqObject.part_thread, List.filter_nil, List.append_nil]
  by_cases hu : u = t
  · subst hu
    have hmap := congrArg (List.map (u, ·)) hcall
    rw [List.map_append, List.map_map] at hmap
    rw [if_pos rfl, Option.toList_map, Option.toList_map, hmap, List.map_map]
    rfl
  · rw [if_neg hu, hothers u hu]
    rfl

/-- They return at once or later, and what the threads have returned is what they have done. -/
theorem answers_performed {p : List (ω × ρ)} {returned pending : κ → List ρ}
    (returned' pending' : κ → List ρ)
    (h : ∀ u, (SeqObject.part Prod.fst u history).map Prod.snd = returned u ++ pending u)
    (hself : pending t ++ p.map Prod.snd = returned' t ++ pending' t)
    (hothers : ∀ u, u ≠ t → returned' u = [] ∧ pending' u = pending u) (u : κ) :
    (SeqObject.part Prod.fst u (history ++ p.map fun x => ((t, x.1), x.2))).map Prod.snd =
      (returned u ++ returned' u) ++ pending' u := by
  rw [SeqObject.part_append, List.map_append, h, SeqObject.part_thread]
  by_cases hu : u = t
  · subst hu
    have hsnd : (p.map fun x => ((u, x.1), x.2)).map Prod.snd = p.map Prod.snd := by
      rw [List.map_map]
      rfl
    rw [if_pos rfl, hsnd, List.append_assoc, hself, List.append_assoc]
  · obtain ⟨hreturned, hpending⟩ := hothers u hu
    rw [if_neg hu, hreturned, hpending]
    simp

end

/-! ### Marks -/

/-- A call, and a call that takes effect. -/
inductive Mark (ω ρ : Type*)
  | called (op : ω)
  | performed (op : ω) (answer : ρ)

namespace Mark

variable (marks marks' : List (Mark ω ρ))

/-- The calls, … -/
def calls (marks : List (Mark ω ρ)) : List ω :=
  marks.filterMap fun
    | .called op => some op
    | .performed _ _ => none

/-- … and those that have taken effect. -/
def history (marks : List (Mark ω ρ)) : List (ω × ρ) :=
  marks.filterMap fun
    | .called _ => none
    | .performed op answer => some (op, answer)

omit [DecidableEq κ]

/-- The calls of two pieces one after the other. -/
theorem calls_append : calls (marks ++ marks') = calls marks ++ calls marks' :=
  List.filterMap_append

/-- The history of two pieces one after the other. -/
theorem history_append : history (marks ++ marks') = history marks ++ history marks' :=
  List.filterMap_append

variable (t : κ) (p : List (ω × ρ))

/-- What is performed inside calls is no call or return. -/
theorem calls_performed :
    calls (p.map fun x => (.performed (t, x.1) x.2 : Mark (κ × ω) ρ)) = [] := by
  induction p with
  | nil => rfl
  | cons x p ih => exact ih

/-- The history of what is performed, one after the other. -/
theorem history_performed :
    history (p.map fun x => (.performed (t, x.1) x.2 : Mark (κ × ω) ρ)) =
      p.map fun x => ((t, x.1), x.2) := by
  induction p with
  | nil => rfl
  | cons x p ih => exact congrArg (((t, x.1), x.2) :: ·) ih

end Mark

end Transition
