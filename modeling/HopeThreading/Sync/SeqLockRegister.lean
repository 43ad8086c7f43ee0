import HopeThreading.Sync.SeqLock
import HopeThreading.Transition.Calls
import HopeThreading.Transition.History

namespace HopeThreading.SeqLock

open Transition

open Transition.Mark (calls history calls_append history_append calls_performed history_performed)

/-!
# `seq_lock` as a register

That a reported value is the value of some store (`load_intact`) leaves open which one.  A store
takes effect when it makes `m_seq` even again, and a load when it reads `m_seq` for the second time.
In that order the calls are those of a register: a load that reports success has the value of the
last store before it, or the initial value when there is none (`loads_linear_of_run`).  So the
readers see the stores in their order, and none of them goes back to an older value.

As for `load_intact` the first read of a load has to find an even number; here it may also be the
number of the lock that was never stored to.
-/

variable {ι α : Type*} {n : Nat}

/-! ### The register -/

/-- The calls of a register. -/
inductive Op (n : Nat) (α : Type*)
  | store (val : Value n α)
  | load

/-- What a call answers. -/
inductive Answer (n : Nat) (α : Type*)
  | stored
  /-- `load` returned `true`. -/
  | loaded (val : Value n α)
  /-- `load` returned `false`. -/
  | missed

-- the derived instances do not evaluate, because the words are a function
instance [DecidableEq α] : DecidableEq (Op n α)
  | .store val, .store val' => decidable_of_iff (val = val') ⟨congrArg _, Op.store.inj⟩
  | .load, .load => isTrue rfl
  | .store _, .load | .load, .store _ => isFalse nofun

instance [DecidableEq α] : DecidableEq (Answer n α)
  | .loaded val, .loaded val' => decidable_of_iff (val = val') ⟨congrArg _, Answer.loaded.inj⟩
  | .stored, .stored | .missed, .missed => isTrue rfl
  | .stored, .loaded _ | .stored, .missed | .loaded _, .stored | .loaded _, .missed
  | .missed, .stored | .missed, .loaded _ => isFalse nofun

/-- A cell of memory.  A `load` may miss at any time. -/
def register (initial : Value n α) : SeqObject (Value n α) (Op n α) (Answer n α) where
  init := initial
  next cur op :=
    match op with
    | .store val => val
    | .load => cur
  returns cur op answer :=
    match op, answer with
    | .store _, .stored => True
    | .load, .loaded val => val = cur
    | .load, .missed => True
    | _, _ => False

/-! ### What is written down of a run -/

/-- A call, and a call that takes effect. -/
abbrev Mark (ι : Type*) (n : Nat) (α : Type*) := Transition.Mark (Option ι × Op n α) (Answer n α)

/-- What takes effect with the next access of a thread that is at `l`. -/
def performed (q : Shared n α) : Local n α → List (Op n α × Answer n α)
  | .storeCopy val _ i => if i < n then [] else [(.store val, .stored)]
  | .loadCopy seq i dst =>
    if i < n then [] else if q.seq = seq then [(.load, .loaded dst)] else [(.load, .missed)]
  | _ => []

/-- What is written down of a step. -/
def record (c : Config (Option ι) (Shared n α) (Local n α)) :
    Option ι × Label n α → List (Mark ι n α)
  | (t, .store val) => [.called (t, .store val)]
  | (t, .load _) => [.called (t, .load)]
  | (t, .step) => (performed c.shared (c.threads t)).map fun x => .performed (t, x.1) x.2

/-- What takes effect; the register does not know the threads. -/
def effects (marks : List (Mark ι n α)) : List (Op n α × Answer n α) :=
  (history marks).map fun x => (x.1.2, x.2)

/-- The operation that a thread has called and that has not taken effect. -/
def entering : Local n α → Option (Op n α)
  | .idle => none
  | .storeLoad val | .storeOdd val _ | .storeCopy val _ _ => some (.store val)
  | .loadFirst _ | .loadCopy _ _ _ => some .load

/-- What the calls of thread `t` have returned. -/
def returns [DecidableEq ι] (t : Option ι) (tr : List (Event ι n α)) : List (Answer n α) :=
  tr.filterMap fun
    | .storing _ => none
    | .stored => if t = none then some .stored else none
    | .loaded u val => if t = some u then some (.loaded val) else none
    | .missed u => if t = some u then some .missed else none

/-- What the callers rely on. -/
structure Linear [DecidableEq ι] (initial : Value n α) (marks : List (Mark ι n α))
    (tr : List (Event ι n α)) (c : Config (Option ι) (Shared n α) (Local n α)) : Prop where
  /-- The calls of each thread take effect in their order, each after its start … -/
  order : ProgramOrder Prod.fst (calls marks) (history marks) fun t =>
    (entering (c.threads t)).map (t, ·)
  /-- … and with its return. -/
  answers : ∀ t, (SeqObject.part Prod.fst t (history marks)).map Prod.snd = returns t tr
  /-- Together they are those of a register. -/
  legal : (register initial).Legal (effects marks)

/-- The first read of a `load` finds no store in progress. -/
def EvenRead (c : Config (Option ι) (Shared n α) (Local n α)) (a : Option ι × Label n α) : Prop :=
  (a.2 matches .step) → (c.threads a.1 matches .loadFirst _) → c.shared.seq.toNat % 2 = 0

instance (c : Config (Option ι) (Shared n α) (Local n α)) (a : Option ι × Label n α) :
    Decidable (EvenRead c a) :=
  inferInstanceAs (Decidable (_ → _ → _))

/-! ### The lists -/

section

variable (marks marks' : List (Mark ι n α))

/-- What takes effect in a run is what does in its pieces. -/
theorem effects_append : effects (marks ++ marks') = effects marks ++ effects marks' := by
  rw [effects, history_append, List.map_append]
  rfl

/-- What a thread returns in a run is what it does in its pieces. -/
theorem returns_append [DecidableEq ι] (t : Option ι) (tr es : List (Event ι n α)) :
    returns t (tr ++ es) = returns t tr ++ returns t es :=
  List.filterMap_append

variable (t : Option ι) (p : List (Op n α × Answer n α))

/-- What is performed takes effect. -/
theorem effects_performed :
    effects (p.map fun x => (.performed (t, x.1) x.2 : Mark ι n α)) = p := by
  rw [effects, history_performed, List.map_map]
  exact List.map_id _

end

/-! ### The invariant -/

/-- How many stores are completed, when the writer is at `l` and `g` are the values of its calls. -/
def completed (g : List (Value n α)) : Local n α → Nat
  | .idle => g.length
  | _ => g.length - 1

/-- A reader that has begun with the number of the lock after `k` stores, perhaps none: as long as
    the number is still the same, the words that it has copied are those of store `k`. -/
def ReaderAt (initial : Value n α) (g : List (Value n α)) (q : Shared n α) : Local n α → Prop
  | .idle | .loadFirst _ => True
  | .loadCopy seq i dst => ∃ k val, seq.toNat = 2 * k ∧ (initial :: g)[k]? = some val ∧
      seq.toNat ≤ q.seq.toNat ∧ (q.seq = seq → ∀ j : Fin n, j < i → dst j = val j)
  | _ => False

/-- The register has the value of the last completed store. -/
structure RegisterInv (initial : Value n α) (g : List (Value n α))
    (hist : List (Op n α × Answer n α)) (c : Config (Option ι) (Shared n α) (Local n α)) :
    Prop where
  writer : WriterOk initial g c.shared (c.threads none)
  readers : ∀ t, ReaderAt initial g c.shared (c.threads (some t))
  current : (initial :: g)[completed g (c.threads none)]? =
    some ((register initial).after hist)

section

variable {initial : Value n α} {g g' : List (Value n α)} {q q' : Shared n α} {l l' : Local n α}
  {es : List (Event ι n α)}

/-- An even `m_seq` counts the completed stores, and `m_val` has the value of the last one. -/
theorem WriterOk.settled_completed (h : WriterOk initial g q l) (hfew : g.length < 2 ^ 63)
    (heven : q.seq.toNat % 2 = 0) : Settled initial g q (completed g l) := by
  cases l with
  | idle => exact h
  | storeLoad val =>
    obtain ⟨g', rfl, h⟩ := h
    rw [show completed (g' ++ [val]) (.storeLoad val) = g'.length by simp [completed]]
    exact h
  | storeOdd val seq =>
    obtain ⟨g', rfl, h, -⟩ := h
    rw [show completed (g' ++ [val]) (.storeOdd val seq) = g'.length by simp [completed]]
    exact h
  | storeCopy val seq i =>
    -- the number is odd
    obtain ⟨g', rfl, hseq, hq, -⟩ := h
    rw [hq, BitVec.toNat_add, hseq] at heven
    have : (2 * g'.length + 1) % 2 ^ 64 % 2 = 0 := heven
    omega
  | loadFirst dst => exact h.elim
  | loadCopy seq i dst => exact h.elim

/-- A reader is not disturbed by more stores and a larger `m_seq`. -/
theorem ReaderAt.mono (h : ReaderAt initial g q l) (hg : g <+: g')
    (hseq : q.seq.toNat ≤ q'.seq.toNat) : ReaderAt initial g' q' l := by
  cases l with
  | idle => trivial
  | loadFirst dst => trivial
  | loadCopy seq i dst =>
    obtain ⟨k, val, hk, hval, hle, hcopied⟩ := h
    refine ⟨k, val, hk, ?_, Nat.le_trans hle hseq, fun hq => hcopied ?_⟩
    · obtain ⟨rest, rfl⟩ := hg
      rw [← List.cons_append, List.getElem?_append_left (List.getElem?_eq_some_iff.mp hval).1, hval]
    · exact BitVec.eq_of_toNat_eq (Nat.le_antisymm (hq ▸ hseq) hle)
  | storeLoad val => exact h.elim
  | storeOdd val seq => exact h.elim
  | storeCopy val seq i => exact h.elim

/-! ### One access -/

/-- What an access of the thread `t` does to its call: the operations `p` take effect, and are
    returned at once. -/
structure Answered [DecidableEq ι] (t : Option ι) (l l' : Local n α)
    (p : List (Op n α × Answer n α)) (es : List (Event ι n α)) : Prop where
  call : (entering l).toList = p.map Prod.fst ++ (entering l').toList
  answers : p.map Prod.snd = returns t es
  others : ∀ u, u ≠ t → returns u es = []

/-- An access of the writer. -/
theorem store_answered [DecidableEq ι] (h : store q l = some (q', l', es)) :
    Answered none l l' (performed q l) es ∧ stores es = [] := by
  unfold store at h
  cases l with
  | storeLoad val => cases h; exact ⟨⟨rfl, rfl, fun _ _ => rfl⟩, rfl⟩
  | storeOdd val seq => cases h; exact ⟨⟨rfl, rfl, fun _ _ => rfl⟩, rfl⟩
  | storeCopy val seq i =>
    simp only at h
    split at h <;> rename_i hi <;> cases h
    · rw [performed, if_pos hi]
      exact ⟨⟨rfl, rfl, fun _ _ => rfl⟩, rfl⟩
    · rw [performed, if_neg hi]
      exact ⟨⟨rfl, rfl, fun u hu => by simp [returns, hu]⟩, rfl⟩
  | idle => exact absurd h (by simp)
  | loadFirst dst => exact absurd h (by simp)
  | loadCopy seq i dst => exact absurd h (by simp)

/-- An access of reader `t`. -/
theorem load_answered [DecidableEq ι] {t : ι} (h : load t q l = some (q', l', es)) :
    q' = q ∧ Answered (some t) l l' (performed q l) es ∧ stores es = [] := by
  unfold load at h
  cases l with
  | loadFirst dst => cases h; exact ⟨rfl, ⟨rfl, rfl, fun _ _ => rfl⟩, rfl⟩
  | loadCopy seq i dst =>
    simp only at h
    split at h
    · rename_i hi
      cases h
      rw [performed, if_pos hi]
      exact ⟨rfl, ⟨rfl, rfl, fun _ _ => rfl⟩, rfl⟩
    · rename_i hi
      rw [performed, if_neg hi]
      split at h <;> rename_i hq <;> cases h
      · rw [if_pos hq]
        exact ⟨rfl, ⟨rfl, by simp [returns], fun u hu => by simp [returns, hu]⟩, rfl⟩
      · rw [if_neg hq]
        exact ⟨rfl, ⟨rfl, by simp [returns], fun u hu => by simp [returns, hu]⟩, rfl⟩
  | idle => exact absurd h (by simp)
  | storeLoad val => exact absurd h (by simp)
  | storeOdd val seq => exact absurd h (by simp)
  | storeCopy val seq i => exact absurd h (by simp)

variable {hist : List (Op n α × Answer n α)}

/-- A store that takes effect is the last completed one. -/
theorem WriterOk.performed (h : WriterOk initial g q l)
    (hstep : SeqLock.store (ι := ι) q l = some (q', l', es))
    (hcur : (initial :: g)[completed g l]? = some ((register initial).after hist))
    (hlegal : (register initial).Legal hist) :
    (register initial).Legal (hist ++ SeqLock.performed q l) ∧ (initial :: g)[completed g l']? =
      some ((register initial).after (hist ++ SeqLock.performed q l)) := by
  unfold SeqLock.store at hstep
  cases l with
  | storeLoad val =>
    cases hstep
    simp only [SeqLock.performed, List.append_nil]
    exact ⟨hlegal, hcur⟩
  | storeOdd val seq =>
    cases hstep
    simp only [SeqLock.performed, List.append_nil]
    exact ⟨hlegal, hcur⟩
  | storeCopy val seq i =>
    obtain ⟨g', rfl, -, -, -⟩ := h
    simp only at hstep
    split at hstep <;> rename_i hi <;> cases hstep
    · rw [SeqLock.performed, if_pos hi, List.append_nil]
      exact ⟨hlegal, hcur⟩
    · rw [SeqLock.performed, if_neg hi]
      refine ⟨hlegal.snoc trivial, ?_⟩
      rw [SeqObject.after_snoc]
      simp [completed, register]
  | idle => exact absurd hstep (by simp)
  | loadFirst dst => exact absurd hstep (by simp)
  | loadCopy seq i dst => exact absurd hstep (by simp)

/-- A reader copies from the last completed store, or will miss. -/
theorem ReaderAt.load (h : ReaderAt initial g q l) {k : Nat}
    (hw : q.seq.toNat % 2 = 0 → Settled initial g q k) {t : ι}
    (hread : ∀ dst, l = .loadFirst dst → q.seq.toNat % 2 = 0)
    (hstep : SeqLock.load t q l = some (q', l', es))
    (hcur : (initial :: g)[k]? = some ((register initial).after hist))
    (hlegal : (register initial).Legal hist) :
    ReaderAt initial g q l' ∧ (register initial).Legal (hist ++ SeqLock.performed q l) ∧
      (register initial).after (hist ++ SeqLock.performed q l) =
        (register initial).after hist := by
  unfold SeqLock.load at hstep
  cases l with
  | loadFirst dst =>
    cases hstep
    obtain ⟨hseq, hval⟩ := hw (hread dst rfl)
    simp only [SeqLock.performed, List.append_nil]
    exact ⟨⟨k, _, hseq, hval, Nat.le_refl _, fun _ j hj => absurd hj (Nat.not_lt_zero _)⟩,
      hlegal, trivial⟩
  | loadCopy seq i dst =>
    obtain ⟨k', val, hk, hval, hle, hcopied⟩ := h
    -- while the number is the first one, `m_val` is the value that the reader has begun with
    have hsame : q.seq = seq → q.val = val ∧ val = (register initial).after hist := by
      intro hq
      obtain ⟨hseq, hqval⟩ := hw (by rw [hq, hk]; exact Nat.mul_mod_right 2 _)
      obtain rfl : k = k' := by rw [hq, hk] at hseq; omega
      exact ⟨Option.some.inj (hqval.symm.trans hval), Option.some.inj (hval.symm.trans hcur)⟩
    simp only at hstep
    split at hstep
    · rename_i hi
      cases hstep
      rw [SeqLock.performed, if_pos hi, List.append_nil]
      refine ⟨⟨k', val, hk, hval, hle, fun hq => ?_⟩, hlegal, rfl⟩
      rw [(hsame hq).1]
      exact copyWord_copied hi (hcopied hq)
    · rename_i hi
      rw [SeqLock.performed, if_neg hi]
      split at hstep <;> rename_i hq <;> cases hstep
      · have hdst : dst = val := funext fun j => hcopied hq j (by have := j.isLt; omega)
        rw [if_pos hq]
        exact ⟨trivial, hlegal.snoc (hdst.trans (hsame hq).2), SeqObject.after_snoc _ _ _⟩
      · rw [if_neg hq]
        exact ⟨trivial, hlegal.snoc trivial, SeqObject.after_snoc _ _ _⟩
  | idle => exact absurd hstep (by simp)
  | storeLoad val => exact absurd hstep (by simp)
  | storeOdd val seq => exact absurd hstep (by simp)
  | storeCopy val seq i => exact absurd hstep (by simp)

end

/-! ### Every run -/

section

variable [DecidableEq ι] {initial : Value n α} {g : List (Value n α)}
  {marks : List (Mark ι n α)} {tr es : List (Event ι n α)}
  {c : Config (Option ι) (Shared n α) (Local n α)} {t : Option ι} {q : Shared n α} {l : Local n α}

/-- A thread starts a call. -/
theorem Linear.call (lin : Linear initial marks tr c) {op : Op n α}
    (hnone : entering (c.threads t) = none) (hop : entering l = some op)
    (hes : ∀ u, returns u es = []) :
    Linear initial (marks ++ [.called (t, op)]) (tr ++ es) (c.set t q l) := by
  have hhistory : history (marks ++ [.called (t, op)]) = history marks := by
    rw [history_append]
    exact List.append_nil _
  refine ⟨?_, fun u => ?_, ?_⟩
  · rw [hhistory, calls_append]
    refine lin.order.start (t := t) hnone ?_ fun u hu => ?_
    · rw [Config.set_threads_self, hop]
    · rw [Config.set_threads_of_ne hu]
  · rw [hhistory, returns_append, hes, List.append_nil]
    exact lin.answers u
  · rw [effects, hhistory]
    exact lin.legal

/-- A thread does an access. -/
theorem Linear.access (lin : Linear initial marks tr c) {p : List (Op n α × Answer n α)}
    (h : Answered t (c.threads t) l p es)
    (hlegal : (register initial).Legal (effects marks ++ p)) :
    Linear initial (marks ++ p.map fun x => .performed (t, x.1) x.2) (tr ++ es) (c.set t q l) := by
  refine ⟨?_, fun u => ?_, ?_⟩
  · rw [history_append, history_performed, calls_append, calls_performed, List.append_nil]
    refine lin.order.performed (t := t) ?_ fun u hu => ?_
    · rw [Config.set_threads_self]
      exact h.call
    · rw [Config.set_threads_of_ne hu]
  · have hanswers : ∀ u, (SeqObject.part Prod.fst u (history marks)).map Prod.snd =
        returns u tr ++ [] := by
      intro u
      rw [List.append_nil]
      exact lin.answers u
    have hself : [] ++ p.map Prod.snd = returns t es ++ [] := by
      rw [List.append_nil, List.nil_append]
      exact h.answers
    rw [history_append, history_performed, returns_append]
    have hreturned := answers_performed (t := t) (fun u => returns u es) (fun _ => []) hanswers
      hself (fun u hu => ⟨h.others u hu, rfl⟩) u
    rwa [List.append_nil] at hreturned
  · rw [effects_append, effects_performed]
    exact hlegal

variable {hist hist' : List (Op n α × Answer n α)} {g' : List (Value n α)}

/-- The writer moves, perhaps by starting one more store. -/
theorem RegisterInv.writer_moves (inv : RegisterInv initial g hist c) (hg : g <+: g')
    (hseq : c.shared.seq.toNat ≤ q.seq.toNat) (hw : WriterOk initial g' q l)
    (hcur : (initial :: g')[completed g' l]? = some ((register initial).after hist')) :
    RegisterInv initial g' hist' (c.set none q l) := by
  refine ⟨?_, fun r => ?_, ?_⟩
  · rw [Config.set_threads_self]
    exact hw
  · rw [Config.set_threads_of_ne (by simp)]
    exact (inv.readers r).mono hg hseq
  · rw [Config.set_threads_self]
    exact hcur

/-- A reader moves. -/
theorem RegisterInv.reader_moves (inv : RegisterInv initial g hist c) (r : ι)
    (hr : ReaderAt initial g c.shared l)
    (hafter : (register initial).after hist' = (register initial).after hist) :
    RegisterInv initial g hist' (c.set (some r) c.shared l) := by
  have hwriter : (c.set (some r) c.shared l).threads none = c.threads none :=
    Config.set_threads_of_ne (by simp)
  refine ⟨?_, fun u => ?_, ?_⟩
  · rw [hwriter]
    exact inv.writer
  · by_cases hu : u = r
    · rw [hu, Config.set_threads_self]
      exact hr
    · rw [Config.set_threads_of_ne (by simpa using hu)]
      exact inv.readers u
  · rw [hwriter, hafter]
    exact inv.current

omit [DecidableEq ι] in
/-- What is written down of a step: a call, or what its access does. -/
theorem record_cases {k : Label n α}
    (h : next c.shared (c.threads t) t k = some (q, l, es)) :
    (c.threads t = .idle ∧ ∃ op, record c (t, k) = [.called (t, op)] ∧ entering l = some op) ∨
      (c.threads t ≠ .idle ∧ k = .step) := by
  generalize c.threads t = l₀ at h
  cases k with
  | store val =>
    cases t with
    | none =>
      simp only [next] at h
      split at h <;> cases h
      exact .inl ⟨rfl, _, rfl, rfl⟩
    | some r => exact absurd h (by simp [next])
  | load val =>
    cases t with
    | none => exact absurd h (by simp [next])
    | some r =>
      simp only [next] at h
      split at h <;> cases h
      exact .inl ⟨rfl, _, rfl, rfl⟩
  | step =>
    refine .inr ⟨?_, rfl⟩
    rintro rfl
    cases t <;> exact absurd h (by simp [next, store, load])

/-- **Step lemma.** -/
theorem RegisterInv.step (inv : RegisterInv initial (stores tr) (effects marks) c)
    (lin : Linear initial marks tr c) {k : Label n α} (allowed : EvenRead c (t, k))
    (hnext : next c.shared (c.threads t) t k = some (q, l, es))
    (hfew : (stores (tr ++ es)).length < 2 ^ 63) :
    RegisterInv initial (stores (tr ++ es)) (effects (marks ++ record c (t, k))) (c.set t q l) ∧
      Linear initial (marks ++ record c (t, k)) (tr ++ es) (c.set t q l) := by
  rw [stores_append] at hfew ⊢
  rw [List.length_append] at hfew
  have hfew' : (stores tr).length < 2 ^ 63 := by omega
  have hlabel := record_cases hnext
  -- the record of a step is a call, or what its access performs
  rcases next_cases hnext with ⟨val, rfl, hl, rfl, rfl, rfl⟩ | ⟨r, val, rfl, hl, rfl, rfl, rfl⟩ |
    ⟨rfl, hacc⟩ | ⟨r, rfl, rfl, hacc⟩
  · -- a call of `store`
    have hw := inv.writer
    have hcur := inv.current
    rw [hl] at hw hcur
    obtain ⟨-, op, hrecord, hop⟩ := hlabel.resolve_right fun h => h.1 hl
    rw [hrecord, effects_append]
    refine ⟨inv.writer_moves (List.prefix_append _ _) le_rfl ?_ ?_,
      lin.call (by rw [hl]; rfl) hop fun _ => rfl⟩
    · refine ⟨stores tr, rfl, hw.1, ?_⟩
      rw [← hw.2, ← List.cons_append]
      exact List.getElem?_append_left (by simp)
    · have hnone : effects [(.called (none, op) : Mark ι n α)] = [] := rfl
      rw [hnone, List.append_nil, ← hcur]
      show (initial :: (stores tr ++ [val]))[(stores tr ++ [val]).length - 1]? =
        (initial :: stores tr)[(stores tr).length]?
      rw [List.length_append, List.length_singleton, Nat.add_sub_cancel, ← List.cons_append]
      exact List.getElem?_append_left (by simp)
  · -- a call of `load`
    obtain ⟨-, op, hrecord, hop⟩ := hlabel.resolve_right fun h => h.1 hl
    rw [hrecord, effects_append, show stores ([] : List (Event ι n α)) = [] from rfl,
      List.append_nil]
    refine ⟨inv.reader_moves r trivial ?_, lin.call (by rw [hl]; rfl) hop fun _ => rfl⟩
    exact congrArg _ (List.append_nil _)
  · -- an access of the writer
    obtain ⟨-, rfl⟩ := hlabel.resolve_left fun h => absurd hacc (by simp [h.1, store])
    obtain ⟨hanswered, hnone⟩ := store_answered hacc
    obtain ⟨hw, hseq, -⟩ := inv.writer.store hfew' hacc
    obtain ⟨hlegal, hcur⟩ := inv.writer.performed hacc inv.current lin.legal
    rw [hnone, List.append_nil]
    refine ⟨?_, lin.access hanswered hlegal⟩
    rw [effects_append, record, effects_performed]
    exact inv.writer_moves List.prefix_rfl hseq hw hcur
  · -- an access of a reader
    obtain ⟨rfl, hanswered, hnone⟩ := load_answered hacc
    have hread : ∀ dst, c.threads (some r) = .loadFirst dst → c.shared.seq.toNat % 2 = 0 :=
      fun dst hl => allowed rfl (by rw [hl])
    obtain ⟨hr, hlegal, hafter⟩ := (inv.readers r).load (inv.writer.settled_completed hfew') hread
      hacc inv.current lin.legal
    rw [hnone, List.append_nil]
    refine ⟨?_, lin.access hanswered hlegal⟩
    rw [effects_append, record, effects_performed]
    exact inv.reader_moves r hr hafter

/-- **Linearizability.** In every run of less than `2 ^ 63` stores whose loads first read `m_seq`
    with no store in progress, for every number of words and of readers. -/
theorem loads_linear_of_run {tr : List (Event ι n α ⊕ Mark ι n α)}
    (run : ((program ι initial).machine.recording record).RunIf EvenRead tr c)
    (hfew : (stores (Machine.events tr)).length < 2 ^ 63) :
    Linear initial (Machine.records tr) (Machine.events tr) c := by
  suffices h : RegisterInv initial (stores (Machine.events tr)) (effects (Machine.records tr)) c ∧
      Linear initial (Machine.records tr) (Machine.events tr) c from h.2
  revert hfew
  refine run.invariant (I := fun tr c => (stores (Machine.events tr)).length < 2 ^ 63 →
    RegisterInv initial (stores (Machine.events tr)) (effects (Machine.records tr)) c ∧
      Linear initial (Machine.records tr) (Machine.events tr) c) ?_ ?_
  · intro _
    exact ⟨⟨⟨rfl, rfl⟩, fun _ => trivial, rfl⟩, fun _ => rfl, fun _ => rfl, SeqObject.legal_nil⟩
  · intro tr es c c' a _ ih allowed step hfew
    obtain ⟨hnext, hrecords⟩ := Machine.next_recording step
    obtain ⟨q, l, hacc, rfl⟩ := Program.next_cases hnext
    rw [Machine.events_append] at hfew ⊢
    rw [Machine.records_append, hrecords]
    obtain ⟨inv, lin⟩ := ih (by rw [stores_append, List.length_append] at hfew; omega)
    exact inv.step lin allowed hacc hfew

end

/-- A load of the lock that was never stored to, a load that misses because of a store, and one
    after it. -/
theorem loads_linear_of_run_two : ∃ tr c,
    ((program (Fin 1) ![0, 0]).machine.recording record).RunIf EvenRead tr c ∧
    effects (Machine.records tr) = [(.load, .loaded ![0, 0]), (.load, .missed),
      (.store ![1, 2], .stored), (.load, .loaded ![1, 2])] ∧
    Linear ![0, 0] (Machine.records tr) (Machine.events tr) c := by
  obtain ⟨tr, c, run, heffects, hfew⟩ := Machine.exists_runIf
    (M := (program (Fin 1) ![0, 0]).machine.recording record) (A := EvenRead)
    (P := fun tr _ => effects (Machine.records tr) = [(.load, .loaded ![0, 0]), (.load, .missed),
      (.store ![1, 2], .stored), (.load, .loaded ![1, 2])] ∧
      (stores (Machine.events tr)).length < 2 ^ 63)
    ((some 0, Label.load ![0, 0]) :: List.replicate 4 (some 0, Label.step) ++
      [(some 0, Label.load ![0, 0]), (some 0, .step), (none, .store ![1, 2]), (none, .step),
        (none, .step)] ++
      List.replicate 3 (some 0, Label.step) ++ List.replicate 3 (none, Label.step) ++
      (some 0, Label.load ![0, 0]) :: List.replicate 4 (some 0, Label.step)) (by decide +kernel)
  exact ⟨tr, c, run, heffects, loads_linear_of_run run hfew⟩

end HopeThreading.SeqLock
