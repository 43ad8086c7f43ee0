import Mathlib.Data.List.Basic
import HopeThreading.Transition.Linear
import HopeThreading.Transition.Program

namespace Transition

/-!
# Objects behind locks

Threads call operations on a family of objects, and every object has a lock of its own.  An
operation takes the lock of its object, shared or exclusive, does any number of accesses to
the object, and releases the lock.  Nothing but the lock keeps the accesses of different
threads apart.

* `Lock` — the code of a lock, with what it says about a thread at each `Stage` of its use,
  and that an exclusive holder is alone;
* `Sections` — the operations, access by access; the ones under the shared lock only read;
* `Guarded.program` — the threads, every access of the lock's code a step of its own;
* `Guarded.linearizable_of_run` — the operations take effect one after the other, each at its last
  access.
-/

/-- How a lock is taken. -/
inductive Mode
  | shared
  | exclusive
  deriving DecidableEq

/-- How far a thread is in using a lock. -/
inductive Stage
  | away
  | asking (m : Mode)
  | holding (m : Mode)
  | leaving (m : Mode)

/-- The code of a lock for threads `ι`, and what it says about a thread at each stage. -/
structure LockCode (ι σ π κ ε : Type*) where
  code : Program ι σ π κ ε
  ask : Mode → κ
  leave : Mode → κ
  /-- Go on with a call. -/
  goOn : κ
  /-- The call has returned. -/
  done : π → Bool
  Fit : Stage → π → Prop
  fit_start : Fit .away code.start
  fit_ask : ∀ {t s l m s' l' es}, Fit .away l → code.next t s l (ask m) = some (s', l', es) →
    Fit (.asking m) l'
  fit_asking : ∀ {t s l m s' l' es}, Fit (.asking m) l →
    code.next t s l goOn = some (s', l', es) →
    Fit (if done l' then .holding m else .asking m) l'
  fit_leave : ∀ {t s l m s' l' es}, Fit (.holding m) l →
    code.next t s l (leave m) = some (s', l', es) → Fit (.leaving m) l'
  fit_leaving : ∀ {t s l m s' l' es}, Fit (.leaving m) l →
    code.next t s l goOn = some (s', l', es) → Fit (if done l' then .away else .leaving m) l'

/-- Every thread uses the lock stage by stage. -/
def LockCode.Staged {ι σ π κ ε : Type*} (L : LockCode ι σ π κ ε) (c : Config ι σ π)
    (_ : ι × κ) : Prop :=
  ∀ t, ∃ stage, L.Fit stage (c.threads t)

/-- A lock whose exclusive holder is alone. -/
structure Lock (ι σ π κ ε : Type*) [DecidableEq ι] extends LockCode ι σ π κ ε where
  alone : ∀ {tr c t u m}, code.machine.RunIf toLockCode.Staged tr c → t ≠ u →
    Fit (.holding .exclusive) (c.threads t) → ¬ Fit (.holding m) (c.threads u)

/-- The operations `ω` on objects with contents `D`, one object for each `I`.  An operation goes
    on through states `β` and returns a `ρ`. -/
structure Sections (I D ω β ρ : Type*) where
  init : I → D
  /-- The object of an operation. -/
  place : ω → I
  mode : ω → Mode
  begin : ω → β
  /-- One access to the object. -/
  step : ω → D → β → D × (β ⊕ ρ)
  reads : ∀ {op d b}, mode op = .shared → (step op d b).1 = d

namespace Guarded

variable {ι σ π κ ε I D ω β ρ : Type*} [DecidableEq ι] [DecidableEq I]

/-! ### The threads -/

/-- What the threads share: a lock for every index, and the data behind it. -/
structure Memory (I σ D : Type*) where
  locks : I → σ
  data : I → D

/-- Where a thread is inside a call. -/
inductive Phase (ω β ρ : Type*)
  | outside
  /-- Taking the lock. -/
  | entering (op : ω)
  | inside (op : ω) (b : β)
  /-- Before the release. -/
  | closing (op : ω) (r : ρ)
  /-- Releasing the lock. -/
  | leaving (op : ω) (r : ρ)

/-- A thread, with what it keeps of every lock. -/
structure Caller (I π ω β ρ : Type*) where
  phase : Phase ω β ρ
  locks : I → π

/-- What an observer sees: calls, the ends of critical sections, and answers. -/
inductive Event (ι ω ρ : Type*)
  | called (t : ι) (op : ω)
  /-- The last access of an operation. -/
  | performed (t : ι) (op : ω) (r : ρ)
  | returned (t : ι) (op : ω) (r : ρ)

/-- Start a call, or go on with the one the thread is in. -/
inductive Label (ω : Type*)
  | call (op : ω)
  | step

variable (L : Lock ι σ π κ ε) (O : Sections I D ω β ρ)

/-- An access of thread `t` to the lock of object `i`. -/
def useLock (t : ι) (q : Memory I σ D) (locks : I → π) (i : I) (k : κ) :
    Option (Memory I σ D × (I → π)) :=
  (L.code.next t (q.locks i) (locks i) k).map fun r =>
    ({ q with locks := Function.update q.locks i r.1 }, Function.update locks i r.2.1)

/-- The next access of a call. -/
def access (t : ι) (q : Memory I σ D) (l : Caller I π ω β ρ) :
    Option (Memory I σ D × Caller I π ω β ρ × List (Event ι ω ρ)) :=
  match l.phase with
  | .outside => none
  | .entering op =>
    (useLock L t q l.locks (O.place op) L.goOn).map fun r =>
      (r.1, { phase := if L.done (r.2 (O.place op)) then .inside op (O.begin op) else .entering op,
              locks := r.2 }, [])
  | .inside op b =>
    match O.step op (q.data (O.place op)) b with
    | (d, .inl b') =>
      some ({ q with data := Function.update q.data (O.place op) d },
        { l with phase := .inside op b' }, [])
    | (d, .inr r) =>
      some ({ q with data := Function.update q.data (O.place op) d },
        { l with phase := .closing op r }, [.performed t op r])
  | .closing op r =>
    (useLock L t q l.locks (O.place op) (L.leave (O.mode op))).map fun x =>
      (x.1, { phase := .leaving op r, locks := x.2 }, [])
  | .leaving op r =>
    (useLock L t q l.locks (O.place op) L.goOn).map fun x =>
      if L.done (x.2 (O.place op)) then
        (x.1, { phase := .outside, locks := x.2 }, [.returned t op r])
      else (x.1, { phase := .leaving op r, locks := x.2 }, [])

/-- A thread outside of a call may start one. -/
def next (t : ι) (q : Memory I σ D) (l : Caller I π ω β ρ) :
    Label ω → Option (Memory I σ D × Caller I π ω β ρ × List (Event ι ω ρ))
  | .call op =>
    match l.phase with
    | .outside =>
      (useLock L t q l.locks (O.place op) (L.ask (O.mode op))).map fun r =>
        (r.1, { phase := .entering op, locks := r.2 }, [.called t op])
    | _ => none
  | .step => access L O t q l

/-- The threads that call the operations, each in a section under the lock of its place. -/
def program : Program ι (Memory I σ D) (Caller I π ω β ρ) (Label ω) (Event ι ω ρ) where
  shared := { locks := fun _ => L.code.shared, data := O.init }
  start := { phase := .outside, locks := fun _ => L.code.start }
  next := next L O

/-- What a move of thread `t` can be. -/
inductive Move (t : ι) (q : Memory I σ D) (l : Caller I π ω β ρ) :
    Memory I σ D → Caller I π ω β ρ → List (Event ι ω ρ) → Prop
  | call (op : ω) {q' : Memory I σ D} {locks : I → π} (phase : l.phase = .outside)
    (lock : useLock L t q l.locks (O.place op) (L.ask (O.mode op)) = some (q', locks)) :
    Move t q l q' { phase := .entering op, locks := locks } [.called t op]
  | ask (op : ω) {q' : Memory I σ D} {locks : I → π} (phase : l.phase = .entering op)
    (lock : useLock L t q l.locks (O.place op) L.goOn = some (q', locks))
    (done : L.done (locks (O.place op)) = false) :
    Move t q l q' { phase := .entering op, locks := locks } []
  | enter (op : ω) {q' : Memory I σ D} {locks : I → π} (phase : l.phase = .entering op)
    (lock : useLock L t q l.locks (O.place op) L.goOn = some (q', locks))
    (done : L.done (locks (O.place op)) = true) :
    Move t q l q' { phase := .inside op (O.begin op), locks := locks } []
  | access (op : ω) {b b' : β} {d : D} (phase : l.phase = .inside op b)
    (step : O.step op (q.data (O.place op)) b = (d, .inl b')) :
    Move t q l { q with data := Function.update q.data (O.place op) d }
      { l with phase := .inside op b' } []
  | perform (op : ω) {b : β} {d : D} (r : ρ) (phase : l.phase = .inside op b)
    (step : O.step op (q.data (O.place op)) b = (d, .inr r)) :
    Move t q l { q with data := Function.update q.data (O.place op) d }
      { l with phase := .closing op r } [.performed t op r]
  | close (op : ω) (r : ρ) {q' : Memory I σ D} {locks : I → π} (phase : l.phase = .closing op r)
    (lock : useLock L t q l.locks (O.place op) (L.leave (O.mode op)) = some (q', locks)) :
    Move t q l q' { phase := .leaving op r, locks := locks } []
  | leave (op : ω) (r : ρ) {q' : Memory I σ D} {locks : I → π} (phase : l.phase = .leaving op r)
    (lock : useLock L t q l.locks (O.place op) L.goOn = some (q', locks))
    (done : L.done (locks (O.place op)) = false) :
    Move t q l q' { phase := .leaving op r, locks := locks } []
  | finish (op : ω) (r : ρ) {q' : Memory I σ D} {locks : I → π} (phase : l.phase = .leaving op r)
    (lock : useLock L t q l.locks (O.place op) L.goOn = some (q', locks))
    (done : L.done (locks (O.place op)) = true) :
    Move t q l q' { phase := .outside, locks := locks } [.returned t op r]

section

variable {L : Lock ι σ π κ ε} {O : Sections I D ω β ρ} {t : ι} {q q' : Memory I σ D}
  {l l' : Caller I π ω β ρ} {es : List (Event ι ω ρ)}

/-- **Step inversion.** -/
theorem next_cases {k : Label ω} (h : next L O t q l k = some (q', l', es)) :
    Move L O t q l q' l' es := by
  cases k with
  | call op =>
    simp only [next] at h
    split at h
    · rename_i hphase
      obtain ⟨⟨q', locks⟩, hlock, he⟩ := Option.map_eq_some_iff.mp h
      cases he
      exact .call op hphase hlock
    · exact absurd h (by simp)
  | step =>
    simp only [next, access] at h
    split at h
    · exact absurd h (by simp)
    · rename_i op hphase
      obtain ⟨⟨q', locks⟩, hlock, he⟩ := Option.map_eq_some_iff.mp h
      cases he
      cases hdone : L.done (locks (O.place op)) with
      | false => exact .ask op hphase hlock hdone
      | true => exact .enter op hphase hlock hdone
    · rename_i op b hphase
      split at h
      · rename_i hstep
        cases h
        exact .access op hphase hstep
      · rename_i hstep
        cases h
        exact .perform op _ hphase hstep
    · rename_i op r hphase
      obtain ⟨⟨q', locks⟩, hlock, he⟩ := Option.map_eq_some_iff.mp h
      cases he
      exact .close op r hphase hlock
    · rename_i op r hphase
      obtain ⟨⟨q', locks⟩, hlock, he⟩ := Option.map_eq_some_iff.mp h
      simp only at he
      split at he
      · rename_i hdone
        cases he
        exact .finish op r hphase hlock hdone
      · rename_i hdone
        cases he
        exact .leave op r hphase hlock (by simpa using hdone)

end

/-! ### The locks -/

/-- The stage at which a thread uses the lock of object `i`. -/
def stageAt (O : Sections I D ω β ρ) (i : I) : Phase ω β ρ → Stage
  | .outside => .away
  | .entering op => if O.place op = i then .asking (O.mode op) else .away
  | .inside op _ | .closing op _ => if O.place op = i then .holding (O.mode op) else .away
  | .leaving op _ => if O.place op = i then .leaving (O.mode op) else .away

/-- What the lock of object `i` sees. -/
def lockView (c : Config ι (Memory I σ D) (Caller I π ω β ρ)) (i : I) : Config ι σ π where
  shared := c.shared.locks i
  threads t := (c.threads t).locks i

/-- The thread is with every lock where its phase says. -/
def Caller.Fits (L : Lock ι σ π κ ε) (O : Sections I D ω β ρ) (l : Caller I π ω β ρ) : Prop :=
  ∀ i, L.Fit (stageAt O i l.phase) (l.locks i)

/-- Every lock is used stage by stage. -/
structure LocksOk (L : Lock ι σ π κ ε) (O : Sections I D ω β ρ)
    (c : Config ι (Memory I σ D) (Caller I π ω β ρ)) : Prop where
  stages : ∀ t, (c.threads t).Fits L O
  runs : ∀ i, ∃ tr, L.code.machine.RunIf L.Staged tr (lockView c i)

section

variable {L : Lock ι σ π κ ε} {O : Sections I D ω β ρ} {t u : ι} {i : I}
  {c : Config ι (Memory I σ D) (Caller I π ω β ρ)} {q : Memory I σ D}
  {l : Caller I π ω β ρ} {es : List (Event ι ω ρ)}

omit [DecidableEq I] in
/-- A step of a thread, seen at the lock of index `i`. -/
theorem lockView_set : lockView (c.set t q l) i = (lockView c i).set t (q.locks i) (l.locks i) := by
  simp only [lockView, Config.set, Config.mk.injEq, true_and]
  funext u
  by_cases hu : u = t
  · rw [hu, Function.update_self, Function.update_self]
  · rw [Function.update_of_ne hu, Function.update_of_ne hu]

/-- An access to one lock leaves the other locks and the objects alone. -/
theorem useLock_cases {k : κ} {locks locks' : I → π} {q' : Memory I σ D}
    (h : useLock L t q locks i k = some (q', locks')) :
    (∃ es, L.code.next t (q.locks i) (locks i) k = some (q'.locks i, locks' i, es)) ∧
      (∀ j, j ≠ i → q'.locks j = q.locks j ∧ locks' j = locks j) ∧ q'.data = q.data := by
  obtain ⟨⟨s, l, es⟩, hnext, he⟩ := Option.map_eq_some_iff.mp h
  cases he
  refine ⟨⟨es, ?_⟩, fun j hj => ⟨?_, ?_⟩, rfl⟩
  · rw [hnext, Function.update_self]
    simp only [Function.update_self]
  · exact Function.update_of_ne hj _ _
  · exact Function.update_of_ne hj _ _

/-- A thread that leaves the locks alone. -/
theorem LocksOk.of_access (ok : LocksOk L O c) (hq : q.locks = c.shared.locks)
    (hl : l.locks = (c.threads t).locks)
    (hstage : ∀ j, stageAt O j l.phase = stageAt O j (c.threads t).phase) :
    LocksOk L O (c.set t q l) := by
  refine ⟨Config.set_forall (p := fun _ => Caller.Fits L O) (fun j => ?_) fun u _ => ok.stages u,
    fun j => ?_⟩
  · rw [hstage, hl]
    exact ok.stages t j
  · have hview : lockView (c.set t q l) j = lockView c j := by
      rw [lockView_set, hq, hl]
      exact Config.set_self
    rw [hview]
    exact ok.runs j

/-- A thread that makes an access to the lock of object `i`. -/
theorem LocksOk.of_useLock (ok : LocksOk L O c) {k : κ} {locks : I → π} {phase : Phase ω β ρ}
    (h : useLock L t c.shared (c.threads t).locks i k = some (q, locks))
    (hfit : ∀ es, L.code.next t (c.shared.locks i) ((c.threads t).locks i) k =
      some (q.locks i, locks i, es) → L.Fit (stageAt O i phase) (locks i))
    (hothers : ∀ j, j ≠ i → stageAt O j phase = stageAt O j (c.threads t).phase) :
    LocksOk L O (c.set t q { phase := phase, locks := locks }) := by
  obtain ⟨⟨es, hnext⟩, hsame, -⟩ := useLock_cases h
  refine ⟨Config.set_forall (p := fun _ => Caller.Fits L O) (fun j => ?_) fun u _ => ok.stages u,
    fun j => ?_⟩
  · by_cases hj : j = i
    · rw [hj]
      exact hfit es hnext
    · show L.Fit (stageAt O j phase) (locks j)
      rw [hothers j hj, (hsame j hj).2]
      exact ok.stages t j
  · obtain ⟨tr, run⟩ := ok.runs j
    rw [lockView_set]
    by_cases hj : j = i
    · subst hj
      refine ⟨_, Program.step run t k (fun u => ⟨_, ok.stages u j⟩) hnext⟩
    · have hview : (lockView c j).set t (q.locks j) (locks j) = lockView c j := by
        rw [(hsame j hj).1, (hsame j hj).2]
        exact Config.set_self
      show ∃ tr, L.code.machine.RunIf L.Staged tr ((lockView c j).set t (q.locks j) (locks j))
      rw [hview]
      exact ⟨tr, run⟩

/-- Of two threads at one object, an exclusive holder and another holder cannot be. -/
theorem LocksOk.alone (ok : LocksOk L O c) (htu : t ≠ u) {m : Mode}
    (ht : stageAt O i (c.threads t).phase = .holding .exclusive) :
    stageAt O i (c.threads u).phase ≠ .holding m := by
  intro hu
  obtain ⟨tr, run⟩ := ok.runs i
  refine L.alone run htu ?_ (m := m) ?_
  · rw [← ht]
    exact ok.stages t i
  · rw [← hu]
    exact ok.stages u i

/-- **Step lemma** for the locks. -/
theorem LocksOk.step (ok : LocksOk L O c) (h : Move L O t c.shared (c.threads t) q l es) :
    LocksOk L O (c.set t q l) := by
  have hfit := ok.stages t
  cases h with
  | call op phase lock =>
    -- the lock of the place goes on by one access, the others are not touched
    refine ok.of_useLock lock (fun es hnext => ?_) fun j hj => ?_
    · have haway := hfit (O.place op)
      rw [phase] at haway
      simpa [stageAt] using L.fit_ask haway hnext
    · simp [phase, stageAt, Ne.symm hj]
  | ask op phase lock done =>
    refine ok.of_useLock lock (fun es hnext => ?_) fun j hj => ?_
    · have hasking := hfit (O.place op)
      rw [phase] at hasking
      simpa [stageAt, done] using L.fit_asking (by simpa [stageAt] using hasking) hnext
    · simp [phase, stageAt, Ne.symm hj]
  | enter op phase lock done =>
    refine ok.of_useLock lock (fun es hnext => ?_) fun j hj => ?_
    · have hasking := hfit (O.place op)
      rw [phase] at hasking
      simpa [stageAt, done] using L.fit_asking (by simpa [stageAt] using hasking) hnext
    · simp [phase, stageAt, Ne.symm hj]
  | access op phase step =>
    refine ok.of_access rfl rfl fun j => ?_
    rw [phase]
    rfl
  | perform op r phase step =>
    refine ok.of_access rfl rfl fun j => ?_
    rw [phase]
    rfl
  | close op r phase lock =>
    refine ok.of_useLock lock (fun es hnext => ?_) fun j hj => ?_
    · have hholding := hfit (O.place op)
      rw [phase] at hholding
      simpa [stageAt] using L.fit_leave (by simpa [stageAt] using hholding) hnext
    · simp [phase, stageAt, Ne.symm hj]
  | leave op r phase lock done =>
    refine ok.of_useLock lock (fun es hnext => ?_) fun j hj => ?_
    · have hleaving := hfit (O.place op)
      rw [phase] at hleaving
      simpa [stageAt, done] using L.fit_leaving (by simpa [stageAt] using hleaving) hnext
    · simp [phase, stageAt, Ne.symm hj]
  | finish op r phase lock done =>
    refine ok.of_useLock lock (fun es hnext => ?_) fun j hj => ?_
    · have hleaving := hfit (O.place op)
      rw [phase] at hleaving
      simpa [stageAt, done] using L.fit_leaving (by simpa [stageAt] using hleaving) hnext
    · simp [phase, stageAt, Ne.symm hj]

end

/-! ### The objects -/

/-- Alone on contents `d`, the operation gets to `b` and leaves `d'` meanwhile. -/
inductive Reaches (O : Sections I D ω β ρ) (op : ω) (d : D) : β → D → Prop
  | begin : Reaches O op d (O.begin op) d
  | step {b b' : β} {d' d'' : D} (before : Reaches O op d b d')
    (h : O.step op d' b = (d'', .inl b')) : Reaches O op d b' d''

/-- Alone on contents `d`, the operation returns `r` and leaves `d'`. -/
def Performs (O : Sections I D ω β ρ) (op : ω) (d d' : D) (r : ρ) : Prop :=
  ∃ b d₁, Reaches O op d b d₁ ∧ O.step op d₁ b = (d', .inr r)

/-- Object `i` after the operations of a history, one at a time. -/
inductive Sequential (O : Sections I D ω β ρ) (i : I) : List (ω × ρ) → D → Prop
  | start : Sequential O i [] (O.init i)
  | snoc {history : List (ω × ρ)} {d d' : D} {op : ω} {r : ρ} (before : Sequential O i history d)
    (place : O.place op = i) (h : Performs O op d d' r) :
    Sequential O i (history ++ [(op, r)]) d'

/-- The operations, in the order of their last accesses. -/
def operations (tr : List (Event ι ω ρ)) : List (ω × ρ) :=
  tr.filterMap fun
    | .performed _ op r => some (op, r)
    | _ => none

/-- The operations on object `i`. -/
def sections (O : Sections I D ω β ρ) (i : I) (tr : List (Event ι ω ρ)) : List (ω × ρ) :=
  SeqObject.part O.place i (operations tr)

/-- The operation that a thread does at object `i`, and how far it is. -/
def here (O : Sections I D ω β ρ) (i : I) (l : Caller I π ω β ρ) : Option (ω × β) :=
  match l.phase with
  | .inside op b => if O.place op = i then some (op, b) else none
  | _ => none

/-- Everybody who is at object `i` only reads. -/
def Unwritten (O : Sections I D ω β ρ) (i : I)
    (c : Config ι (Memory I σ D) (Caller I π ω β ρ)) : Prop :=
  ∀ t op b, here O i (c.threads t) = some (op, b) → O.mode op = .shared

/-- Object `i` is what the operations have made of it, but for the one that writes it now. -/
def DataOk (O : Sections I D ω β ρ) (i : I) (tr : List (Event ι ω ρ))
    (c : Config ι (Memory I σ D) (Caller I π ω β ρ)) : Prop :=
  ∃ d, Sequential O i (sections O i tr) d ∧
    (∀ t op b, here O i (c.threads t) = some (op, b) →
      Reaches O op d b (c.shared.data i)) ∧
    (Unwritten O i c → c.shared.data i = d)

section

variable {L : Lock ι σ π κ ε} {O : Sections I D ω β ρ} {t u : ι} {i : I}
  {c : Config ι (Memory I σ D) (Caller I π ω β ρ)} {q : Memory I σ D}
  {l : Caller I π ω β ρ} {tr es : List (Event ι ω ρ)} {op op' : ω} {b b' : β} {r : ρ}

omit [DecidableEq ι] in
/-- The critical sections of a run are those of its pieces. -/
theorem sections_append :
    sections O i (tr ++ es) = sections O i tr ++ sections O i es := by
  unfold sections SeqObject.part operations
  rw [List.filterMap_append, List.filter_append]

/-- A thread inside the section of `i` calls an operation that belongs there. -/
theorem place_of_here (h : here O i l = some (op, b)) : O.place op = i := by
  unfold here at h
  split at h
  · obtain ⟨hplace, he⟩ := Option.ite_none_right_eq_some.mp h
    cases he
    exact hplace
  · exact absurd h (by simp)

/-- A thread inside the section of `i` holds that lock in the mode of its operation. -/
theorem stageAt_of_here (h : here O i l = some (op, b)) :
    stageAt O i l.phase = .holding (O.mode op) := by
  unfold here at h
  split at h
  · rename_i hphase
    obtain ⟨hplace, he⟩ := Option.ite_none_right_eq_some.mp h
    cases he
    rw [hphase]
    exact if_pos hplace
  · exact absurd h (by simp)

/-- Two threads at one object both read. -/
theorem LocksOk.both_read (ok : LocksOk L O c) (htu : t ≠ u)
    (ht : here O i (c.threads t) = some (op, b))
    (hu : here O i (c.threads u) = some (op', b')) :
    O.mode op = .shared ∧ O.mode op' = .shared := by
  have hst := stageAt_of_here ht
  have hsu := stageAt_of_here hu
  constructor
  · cases hmode : O.mode op with
    | shared => rfl
    | exclusive => exact absurd hsu (ok.alone htu (by rw [hst, hmode]))
  · cases hmode : O.mode op' with
    | shared => rfl
    | exclusive => exact absurd hst (ok.alone htu.symm (by rw [hsu, hmode]))

/-- A thread that is not at the object, or only stays there. -/
theorem DataOk.keep (ok : DataOk O i tr c) (hdata : q.data i = c.shared.data i)
    (hes : sections O i es = []) (hhere : here O i l = here O i (c.threads t)) :
    DataOk O i (tr ++ es) (c.set t q l) := by
  obtain ⟨d, hseq, hreach, hclean⟩ := ok
  have hall : ∀ u, here O i ((c.set t q l).threads u) = here O i (c.threads u) :=
    Config.set_map (fun l => here O i l) hhere
  refine ⟨d, ?_, fun u op b hu => ?_, fun hun => ?_⟩
  · rw [sections_append, hes, List.append_nil]
    exact hseq
  · rw [Config.set_shared, hdata]
    exact hreach u op b (hall u ▸ hu)
  · rw [Config.set_shared, hdata]
    exact hclean fun u op b hu => hun u op b ((hall u).trans hu)

/-- A thread that has got the lock finds what the operations have made. -/
theorem DataOk.enter (ok : DataOk O i tr c) (hlocks : LocksOk L O (c.set t q l))
    (hdata : q.data i = c.shared.data i) (hes : sections O i es = [])
    (hnone : here O i (c.threads t) = none)
    (hhere : here O i l = some (op, O.begin op)) :
    DataOk O i (tr ++ es) (c.set t q l) := by
  obtain ⟨d, hseq, hreach, hclean⟩ := ok
  have hself : here O i ((c.set t q l).threads t) = some (op, O.begin op) := by
    rw [Config.set_threads_self]
    exact hhere
  -- nobody writes, since the thread holds the lock now
  have hd : c.shared.data i = d := hclean fun u op' b' hu => by
    have hut : u ≠ t := by
      rintro rfl
      rw [hnone] at hu
      exact absurd hu (by simp)
    have hother : here O i ((c.set t q l).threads u) = some (op', b') := by
      rw [Config.set_threads_of_ne hut]
      exact hu
    exact (hlocks.both_read hut hother hself).1
  refine ⟨d, ?_, fun u op' b' hu => ?_, fun _ => hdata.trans hd⟩
  · rw [sections_append, hes, List.append_nil]
    exact hseq
  · rw [Config.set_shared, hdata]
    rcases Config.set_cases (fun l => here O i l = some (op', b')) hu with ⟨-, hl⟩ | ⟨-, hu⟩
    · rw [hhere] at hl
      cases hl
      rw [hd]
      exact .begin
    · exact hreach u op' b' hu

/-- What a thread at the object reads, it leaves to the others. -/
theorem LocksOk.data_kept (ok : LocksOk L O c) (htu : u ≠ t)
    (ht : here O i (c.threads t) = some (op, b))
    (hu : here O i (c.threads u) = some (op', b')) {d : D} {x : β ⊕ ρ}
    (hstep : O.step op (c.shared.data i) b = (d, x)) : d = c.shared.data i := by
  have hread := O.reads (d := c.shared.data i) (b := b) (ok.both_read htu hu ht).2
  rw [hstep] at hread
  exact hread

/-- One more access of an operation. -/
theorem DataOk.access (ok : DataOk O i tr c) (hlocks : LocksOk L O c)
    (ht : here O i (c.threads t) = some (op, b))
    (hstep : O.step op (c.shared.data i) b = (q.data i, .inl b'))
    (hhere : here O i l = some (op, b')) (hes : sections O i es = []) :
    DataOk O i (tr ++ es) (c.set t q l) := by
  obtain ⟨d, hseq, hreach, hclean⟩ := ok
  refine ⟨d, ?_, fun u op' b'' hu => ?_, fun hun => ?_⟩
  · rw [sections_append, hes, List.append_nil]
    exact hseq
  · rcases Config.set_cases (fun l => here O i l = some (op', b'')) hu with
      ⟨-, hl⟩ | ⟨hut, hu⟩
    · rw [hhere] at hl
      cases hl
      exact (hreach t op b ht).step hstep
    · rw [Config.set_shared, hlocks.data_kept hut ht hu hstep]
      exact hreach u op' b'' hu
  · have hshared : O.mode op = .shared := hun t op b' (by rw [Config.set_threads_self, hhere])
    have hsame := O.reads (d := c.shared.data i) (b := b) hshared
    rw [hstep] at hsame
    refine hsame.trans (hclean fun u op' b'' hu => ?_)
    by_cases hut : u = t
    · subst hut
      rw [ht] at hu
      cases hu
      exact hshared
    · exact hun u op' b'' (by rw [Config.set_threads_of_ne hut, hu])

/-- The last access of an operation. -/
theorem DataOk.perform (ok : DataOk O i tr c) (hlocks : LocksOk L O c)
    (ht : here O i (c.threads t) = some (op, b))
    (hstep : O.step op (c.shared.data i) b = (q.data i, .inr r))
    (hhere : here O i l = none) (hes : sections O i es = [(op, r)]) :
    DataOk O i (tr ++ es) (c.set t q l) := by
  obtain ⟨d, hseq, hreach, hclean⟩ := ok
  refine ⟨q.data i, ?_, fun u op' b' hu => ?_, fun _ => rfl⟩
  · rw [sections_append, hes]
    exact hseq.snoc (place_of_here ht) ⟨b, c.shared.data i, hreach t op b ht, hstep⟩
  · rcases Config.set_cases (fun l => here O i l = some (op', b')) hu with
      ⟨-, hl⟩ | ⟨hut, hother⟩
    · rw [hhere] at hl
      exact absurd hl (by simp)
    · -- with another one at the object everybody reads
      have hd : c.shared.data i = d := hclean fun v op₂ b₂ hv => by
        by_cases hvt : v = t
        · subst hvt
          rw [ht] at hv
          cases hv
          exact (hlocks.both_read hut hother ht).2
        · exact (hlocks.both_read hvt hv ht).1
      rw [Config.set_shared, hlocks.data_kept hut ht hother hstep, hd]
      exact hd ▸ hreach u op' b' hother

/-- A thread that is inside is in the section of its own place, and in no other. -/
theorem here_inside (h : l.phase = .inside op b) :
    here O i l = if O.place op = i then some (op, b) else none := by
  unfold here
  rw [h]

/-- A thread that is not inside is in no section. -/
theorem here_of_ne_inside (h : ∀ op b, l.phase ≠ .inside op b) : here O i l = none := by
  unfold here
  split
  · rename_i hphase
    exact absurd hphase (h _ _)
  · rfl

/-- An access to a lock before or after the accesses to the object. -/
theorem DataOk.of_useLock (ok : DataOk O i tr c) {j : I} {k : κ} {locks : I → π}
    {phase : Phase ω β ρ}
    (hlock : useLock L t c.shared (c.threads t).locks j k = some (q, locks))
    (hes : sections O i es = []) (hold : ∀ op b, (c.threads t).phase ≠ .inside op b)
    (hnew : ∀ op b, phase ≠ .inside op b) :
    DataOk O i (tr ++ es) (c.set t q { phase := phase, locks := locks }) := by
  obtain ⟨-, -, hdata⟩ := useLock_cases hlock
  refine ok.keep (by rw [hdata]) hes ?_
  rw [here_of_ne_inside hnew, here_of_ne_inside hold]

/-- **Step lemma** for an object. -/
theorem DataOk.step (ok : DataOk O i tr c) (hlocks : LocksOk L O c)
    (h : Move L O t c.shared (c.threads t) q l es) : DataOk O i (tr ++ es) (c.set t q l) := by
  have hlocks' := hlocks.step h
  cases h with
  | call op phase lock =>
    exact ok.of_useLock lock rfl (by simp [phase]) (by simp)
  | ask op phase lock done =>
    exact ok.of_useLock lock rfl (by simp [phase]) (by simp)
  | enter op phase lock done =>
    -- the lock is taken: the section begins on the object as it is
    obtain ⟨-, -, hdata⟩ := useLock_cases lock
    have hnone : here O i (c.threads t) = none := here_of_ne_inside (by simp [phase])
    by_cases hplace : O.place op = i
    · exact ok.enter hlocks' (by rw [hdata]) rfl hnone ((here_inside rfl).trans (if_pos hplace))
    · refine ok.keep (by rw [hdata]) rfl ?_
      rw [hnone, here_inside rfl, if_neg hplace]
  | access op phase step =>
    -- an access in the section of another index does not touch this object
    by_cases hplace : O.place op = i
    · subst hplace
      exact ok.access hlocks ((here_inside phase).trans (if_pos rfl))
        (by simp [step]) ((here_inside rfl).trans (if_pos rfl)) rfl
    · refine ok.keep (Function.update_of_ne (Ne.symm hplace) _ _) rfl ?_
      rw [here_inside rfl, here_inside phase, if_neg hplace, if_neg hplace]
  | perform op r phase step =>
    -- the last access: the operation has been performed
    by_cases hplace : O.place op = i
    · subst hplace
      exact ok.perform (r := r) hlocks ((here_inside phase).trans (if_pos rfl))
        (by simp [step]) (here_of_ne_inside (by simp))
        (by simp [sections, operations, SeqObject.part])
    · refine ok.keep (Function.update_of_ne (Ne.symm hplace) _ _)
        (by simp [sections, operations, SeqObject.part, hplace]) ?_
      rw [here_of_ne_inside (by simp), here_inside phase, if_neg hplace]
  | close op r phase lock =>
    exact ok.of_useLock lock rfl (by simp [phase]) (by simp)
  | leave op r phase lock done =>
    exact ok.of_useLock lock rfl (by simp [phase]) (by simp)
  | finish op r phase lock done =>
    exact ok.of_useLock lock rfl (by simp [phase]) (by simp)

end

/-! ### The calls of a thread -/

/-- What thread `t` has called … -/
def calls (t : ι) (tr : List (Event ι ω ρ)) : List ω :=
  tr.filterMap fun
    | .called u op => if u = t then some op else none
    | _ => none

/-- … what has taken effect of it … -/
def decided (t : ι) (tr : List (Event ι ω ρ)) : List (ω × ρ) :=
  tr.filterMap fun
    | .performed u op r => if u = t then some (op, r) else none
    | _ => none

/-- … and what has returned. -/
def answers (t : ι) (tr : List (Event ι ω ρ)) : List (ω × ρ) :=
  tr.filterMap fun
    | .returned u op r => if u = t then some (op, r) else none
    | _ => none

/-- The call that has not taken effect yet. -/
def underway : Phase ω β ρ → List ω
  | .entering op | .inside op _ => [op]
  | _ => []

/-- The call that has, and has not returned yet. -/
def pending : Phase ω β ρ → List (ω × ρ)
  | .closing op r | .leaving op r => [(op, r)]
  | _ => []

/-- Every call of thread `t` takes effect between its start and its end. -/
structure InOrder (t : ι) (tr : List (Event ι ω ρ)) (phase : Phase ω β ρ) :
    Prop where
  calls : calls t tr = (decided t tr).map Prod.fst ++ underway phase
  answers : decided t tr = answers t tr ++ pending phase

section

variable {L : Lock ι σ π κ ε} {O : Sections I D ω β ρ} {t u : ι} {tr es : List (Event ι ω ρ)}
  {q q' : Memory I σ D} {l l' : Caller I π ω β ρ}

/-- The calls of a thread in a run are those of its pieces. -/
theorem calls_append : calls t (tr ++ es) = calls t tr ++ calls t es := List.filterMap_append

/-- What is decided for a thread in a run is what is in its pieces. -/
theorem decided_append : decided t (tr ++ es) = decided t tr ++ decided t es :=
  List.filterMap_append

/-- The answers to a thread in a run are those of its pieces. -/
theorem answers_append : answers t (tr ++ es) = answers t tr ++ answers t es :=
  List.filterMap_append

/-- The calls of a thread go on in order when each event belongs to its phase. -/
theorem InOrder.append {phase phase' : Phase ω β ρ} (h : InOrder t tr phase)
    (hcalls : underway phase ++ Guarded.calls t es =
      (decided t es).map Prod.fst ++ underway phase')
    (hanswers : pending phase ++ decided t es = Guarded.answers t es ++ pending phase') :
    InOrder t (tr ++ es) phase' := by
  constructor
  · rw [calls_append, decided_append, h.calls, List.append_assoc, hcalls, List.map_append,
      List.append_assoc]
  · rw [decided_append, answers_append, h.answers, List.append_assoc, hanswers, List.append_assoc]

/-- **Step lemma** for the calls of the thread that moves … -/
theorem Move.inOrder (h : Move L O t q l q' l' es) (hin : InOrder t tr l.phase) :
    InOrder t (tr ++ es) l'.phase := by
  cases h <;> rename_i phase _ <;>
    refine hin.append ?_ ?_ <;> simp_all [calls, decided, answers, underway, pending]

/-- … and of the others. -/
theorem Move.inOrder_of_ne (h : Move L O t q l q' l' es) (hut : u ≠ t)
    {phase : Phase ω β ρ} (hin : InOrder u tr phase) : InOrder u (tr ++ es) phase := by
  refine hin.append ?_ ?_ <;> cases h <;> simp [calls, decided, answers, hut.symm]

end

/-! ### The result -/

/-- The objects are as if the operations had been done one at a time. -/
structure Linearizable (O : Sections I D ω β ρ) (tr : List (Event ι ω ρ))
    (c : Config ι (Memory I σ D) (Caller I π ω β ρ)) : Prop where
  /-- Two threads are at one object at the same time only if both read. -/
  raceFree : ∀ i t u op op' b b', t ≠ u → here O i (c.threads t) = some (op, b) →
    here O i (c.threads u) = some (op', b') → O.mode op = .shared ∧ O.mode op' = .shared
  /-- The results are those of the operations done in the order of their last accesses, and an
      object that nobody writes is what they have made of it. -/
  sequential : ∀ i, ∃ d, Sequential O i (sections O i tr) d ∧
    (Unwritten O i c → c.shared.data i = d)
  inOrder : ∀ t, InOrder t tr (c.threads t).phase

/-- At the beginning every lock is as its own invariant says. -/
theorem locksOk_init (L : Lock ι σ π κ ε) (O : Sections I D ω β ρ) :
    LocksOk L O (program L O).machine.init :=
  ⟨fun _ _ => L.fit_start, fun _ => ⟨[], .start⟩⟩

/-- At the beginning no section has run, and the data is as it was given. -/
theorem dataOk_init (L : Lock ι σ π κ ε) (O : Sections I D ω β ρ) (i : I) :
    DataOk O i [] (program L O).machine.init :=
  ⟨O.init i, .start, fun _ _ _ h => absurd h (by simp [program, Program.machine, here]),
    fun _ => rfl⟩

/-- **Linearizability.** In every run of the operations. -/
theorem linearizable_of_run {L : Lock ι σ π κ ε} {O : Sections I D ω β ρ} {tr : List (Event ι ω ρ)}
    {c : Config ι (Memory I σ D) (Caller I π ω β ρ)} (run : (program L O).machine.Run tr c) :
    Linearizable O tr c := by
  have inv : LocksOk L O c ∧ (∀ i, DataOk O i tr c) ∧
      ∀ t, InOrder t tr (c.threads t).phase := by
    refine Program.invariant (I := fun tr c => LocksOk L O c ∧ (∀ i, DataOk O i tr c) ∧
      ∀ t, InOrder t tr (c.threads t).phase) ?_ ?_ run
    · exact ⟨locksOk_init L O, dataOk_init L O, fun _ => ⟨rfl, rfl⟩⟩
    · rintro tr c t k q l es ⟨hlocks, hdata, hin⟩ - hnext
      have hmove := next_cases hnext
      refine ⟨hlocks.step hmove, fun i => (hdata i).step hlocks hmove, fun u => ?_⟩
      by_cases hut : u = t
      · rw [hut, Config.set_threads_self]
        exact hmove.inOrder (hin t)
      · rw [Config.set_threads_of_ne hut]
        exact hmove.inOrder_of_ne hut (hin u)
  obtain ⟨hlocks, hdata, hin⟩ := inv
  refine ⟨fun i t u op op' b b' htu ht hu => hlocks.both_read htu ht hu, fun i => ?_, hin⟩
  obtain ⟨d, hseq, -, hclean⟩ := hdata i
  exact ⟨d, hseq, hclean⟩

/-! ### Against sequential objects -/

/-- Done alone, the operations on object `i` do what `S` says; `abs` reads the contents. -/
structure Implements {μ : Type*} (O : Sections I D ω β ρ) (i : I) (S : SeqObject μ ω ρ)
    (abs : D → μ) : Prop where
  init : abs (O.init i) = S.init
  performs : ∀ op d d' r, O.place op = i → Performs O op d d' r →
    S.returns (abs d) op r ∧ abs d' = S.next (abs d) op

omit [DecidableEq I] in
/-- Then one after the other they do so too. -/
theorem Sequential.legal {μ : Type*} {O : Sections I D ω β ρ} {i : I} {S : SeqObject μ ω ρ}
    {abs : D → μ} (himpl : Implements O i S abs) {history : List (ω × ρ)} {d : D}
    (h : Sequential O i history d) : S.Legal history ∧ abs d = S.after history := by
  induction h with
  | start => exact ⟨SeqObject.legal_nil, himpl.init⟩
  | snoc before place h ih =>
    obtain ⟨hlegal, habs⟩ := ih
    obtain ⟨hreturns, hnext⟩ := himpl.performs _ _ _ _ place h
    rw [habs] at hreturns hnext
    exact ⟨hlegal.snoc hreturns, by rw [hnext, SeqObject.after_snoc]⟩

/-- The operations on all objects are a legal history of the objects side by side. -/
theorem Linearizable.legal {μ : Type*} {O : Sections I D ω β ρ} {S : I → SeqObject μ ω ρ}
    {abs : I → D → μ} (himpl : ∀ i, Implements O i (S i) (abs i)) {tr : List (Event ι ω ρ)}
    {c : Config ι (Memory I σ D) (Caller I π ω β ρ)} (h : Linearizable O tr c) :
    (SeqObject.family S O.place).Legal (operations tr) ∧
      ((∀ i, Unwritten O i c) → (fun i => abs i (c.shared.data i)) =
        (SeqObject.family S O.place).after (operations tr)) := by
  refine ⟨SeqObject.legal_family fun i => ?_, fun hun => funext fun i => ?_⟩
  · obtain ⟨d, hseq, -⟩ := h.sequential i
    exact (hseq.legal (himpl i)).1
  · obtain ⟨d, hseq, hclean⟩ := h.sequential i
    rw [hclean (hun i), SeqObject.after_family]
    exact (hseq.legal (himpl i)).2

end Guarded

end Transition
