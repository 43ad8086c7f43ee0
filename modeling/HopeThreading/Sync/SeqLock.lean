import Mathlib.Algebra.Group.Nat.Defs
import Mathlib.Data.Fin.VecNotation
import Mathlib.Data.Fintype.Basic
import Mathlib.Data.List.Basic
import HopeThreading.Transition.Program

namespace HopeThreading.SeqLock

open Transition

/-!
# `seq_lock`

The writer makes `m_seq` odd, copies the value and makes `m_seq` even again.  A reader reads
`m_seq`, copies the value and reports success when `m_seq` is still what it was.  The value
is copied word by word, so a reader can see half of a store.

`load` compares the two numbers but does not look whether the first is even.  A load that
starts inside of a store can end inside of the same store, and then reports a mixture as
good (`torn_load`).  When every load that finds the same number again has found an even one,
what is reported is the value of one store (`load_intact`).
-/

/-! ### The model -/

/-- A value of `n` words. -/
abbrev Value (n : Nat) (α : Type*) := Fin n → α

/-- The members of the lock. -/
structure Shared (n : Nat) (α : Type*) where
  seq : BitVec 64
  val : Value n α

/-- Where a thread is inside a call: the access it does next, with its local variables.  A
    copy at `i` has copied `i` words. -/
inductive Local (n : Nat) (α : Type*)
  | idle
  /-- `store`: `seq = m_seq.load()`. -/
  | storeLoad (val : Value n α)
  /-- `store`: `m_seq.store(seq + 1)`. -/
  | storeOdd (val : Value n α) (seq : BitVec 64)
  /-- `store`: word `i` of `m_val = val`, then `m_seq.store(seq + 2)`. -/
  | storeCopy (val : Value n α) (seq : BitVec 64) (i : Nat)
  /-- `load`: `seq = m_seq.load()`. -/
  | loadFirst (dst : Value n α)
  /-- `load`: word `i` of `memcpy`, then `m_seq.load() == seq`. -/
  | loadCopy (seq : BitVec 64) (i : Nat) (dst : Value n α)

/-- What an observer sees: stores, and what loads answer. -/
inductive Event (ι : Type*) (n : Nat) (α : Type*)
  /-- `store(val)` is called. -/
  | storing (val : Value n α)
  | stored
  /-- `load` returned `true` with `val`. -/
  | loaded (t : ι) (val : Value n α)
  /-- `load` returned `false`. -/
  | missed (t : ι)

/-- Start a call, or do the next access of the one the thread is in.  `load` is called with
    whatever `val` holds before. -/
inductive Label (n : Nat) (α : Type*)
  | store (val : Value n α)
  | load (val : Value n α)
  | step

variable {ι α : Type*} {n : Nat}

/-- Copy word `i`. -/
def copyWord (dst src : Value n α) (i : Fin n) : Value n α := Function.update dst i (src i)

/-- The next access of `store`. -/
def store (q : Shared n α) : Local n α → Option (Shared n α × Local n α × List (Event ι n α))
  | .storeLoad val => some (q, .storeOdd val q.seq, [])
  | .storeOdd val seq => some ({ q with seq := seq + 1 }, .storeCopy val seq 0, [])
  | .storeCopy val seq i =>
    if h : i < n then
      some ({ q with val := copyWord q.val val ⟨i, h⟩ }, .storeCopy val seq (i + 1), [])
    else some ({ q with seq := seq + 2 }, .idle, [.stored])
  | _ => none

/-- The next access of `load` by reader `t`. -/
def load (t : ι) (q : Shared n α) :
    Local n α → Option (Shared n α × Local n α × List (Event ι n α))
  | .loadFirst dst => some (q, .loadCopy q.seq 0 dst, [])
  | .loadCopy seq i dst =>
    if h : i < n then some (q, .loadCopy seq (i + 1) (copyWord dst q.val ⟨i, h⟩), [])
    else if q.seq = seq then some (q, .idle, [.loaded t dst])
    else some (q, .idle, [.missed t])
  | _ => none

/-- Thread `none` is the writer, the others are the readers. -/
def next (q : Shared n α) (l : Local n α) :
    Option ι → Label n α → Option (Shared n α × Local n α × List (Event ι n α))
  | none, .store val => if l matches .idle then some (q, .storeLoad val, [.storing val]) else none
  | some _, .load val => if l matches .idle then some (q, .loadFirst val, []) else none
  | none, .step => store q l
  | some t, .step => load t q l
  | _, _ => none

/-- One writer and the readers `ι` on a lock of `n` words that hold `initial` at first. -/
def program (ι : Type*) (initial : Value n α) :
    Program (Option ι) (Shared n α) (Local n α) (Label n α) (Event ι n α) where
  shared := { seq := 0#64, val := initial }
  start := .idle
  next t q l k := next q l t k

/-- **Step inversion.** The writer or a reader starts a call or does an access. -/
theorem next_cases {q q' : Shared n α} {l l' : Local n α} {t : Option ι} {k : Label n α}
    {es : List (Event ι n α)} (h : next q l t k = some (q', l', es)) :
    (∃ val, t = none ∧ l = .idle ∧ q' = q ∧ l' = .storeLoad val ∧ es = [.storing val]) ∨
    (∃ r val, t = some r ∧ l = .idle ∧ q' = q ∧ l' = .loadFirst val ∧ es = []) ∨
    (t = none ∧ store q l = some (q', l', es)) ∨
    (∃ r, t = some r ∧ k = .step ∧ load r q l = some (q', l', es)) := by
  cases t with
  | none =>
    cases k with
    | store val =>
      simp only [next] at h
      split at h <;> cases h
      exact .inl ⟨val, rfl, rfl, rfl, rfl, rfl⟩
    | load val => exact absurd h (by simp [next])
    | step => exact .inr (.inr (.inl ⟨rfl, h⟩))
  | some r =>
    cases k with
    | store val => exact absurd h (by simp [next])
    | load val =>
      simp only [next] at h
      split at h <;> cases h
      exact .inr (.inl ⟨r, val, rfl, rfl, rfl, rfl, rfl⟩)
    | step => exact .inr (.inr (.inr ⟨r, rfl, rfl, h⟩))

/-- The values passed to the calls of `store`, in order. -/
def stores (tr : List (Event ι n α)) : List (Value n α) :=
  tr.filterMap fun
    | .storing val => some val
    | _ => none

/-- The values that calls of `load` have reported as good. -/
def reported (tr : List (Event ι n α)) : List (Value n α) :=
  tr.filterMap fun
    | .loaded _ val => some val
    | _ => none

/-- The number that a `load` compares with at its end. -/
def compares : Local n α → Option (BitVec 64)
  | .loadCopy seq i _ => if n ≤ i then some seq else none
  | _ => none

/-- A `load` whose comparison succeeds has first found some store completed and none in
    progress; one that reports `false` may have begun at any time. -/
def SettledRead (c : Config (Option ι) (Shared n α) (Local n α)) (a : Option ι × Label n α) :
    Prop :=
  (a.2 matches .step) → ∀ seq ∈ compares (c.threads a.1), c.shared.seq = seq →
    seq.toNat % 2 = 0 ∧ seq ≠ 0#64

instance (c : Config (Option ι) (Shared n α) (Local n α)) (a : Option ι × Label n α) :
    Decidable (SettledRead c a) :=
  -- the instance for words would try every word
  have : Decidable (∀ seq ∈ compares (c.threads a.1), c.shared.seq = seq →
      seq.toNat % 2 = 0 ∧ seq ≠ 0#64) := Option.decidableForallMem _
  inferInstanceAs (Decidable (_ → _))

/-! ### The invariant -/

section

variable (initial : Value n α) (g : List (Value n α)) (q : Shared n α)

/-- `k` stores are completed, none is in progress. -/
def Settled (k : Nat) : Prop :=
  q.seq.toNat = 2 * k ∧ (initial :: g)[k]? = some q.val

/-- The writer: `m_seq` counts its stores, and is odd while it copies. -/
def WriterOk : Local n α → Prop
  | .idle => Settled initial g q g.length
  | .storeLoad val => ∃ g', g = g' ++ [val] ∧ Settled initial g q g'.length
  | .storeOdd val seq => ∃ g', g = g' ++ [val] ∧ Settled initial g q g'.length ∧ seq = q.seq
  | .storeCopy val seq i => ∃ g', g = g' ++ [val] ∧ seq.toNat = 2 * g'.length ∧ q.seq = seq + 1 ∧
      ∀ j : Fin n, j < i → q.val j = val j
  | _ => False

/-- A reader that found an even number: as long as `m_seq` is what it read first, the words it has
    copied are those of one store. -/
def ReaderOk : Local n α → Prop
  | .idle | .loadFirst _ => True
  | .loadCopy seq i dst => seq.toNat % 2 = 0 → seq ≠ 0#64 →
      ∃ k val, seq.toNat = 2 * (k + 1) ∧ g[k]? = some val ∧
        seq.toNat ≤ q.seq.toNat ∧ (q.seq = seq → ∀ j : Fin n, j < i → dst j = val j)
  | _ => False

end

/-- The invariant; `g` are the values passed to `store` so far. -/
structure Inv (initial : Value n α) (g : List (Value n α))
    (c : Config (Option ι) (Shared n α) (Local n α)) : Prop where
  writer : WriterOk initial g c.shared (c.threads none)
  readers : ∀ t, ReaderOk g c.shared (c.threads (some t))

/-- An even `m_seq` means that no store is in progress. -/
theorem WriterOk.settled {initial : Value n α} {g : List (Value n α)} {q : Shared n α}
    {l : Local n α} (hfew : g.length < 2 ^ 63) (h : WriterOk initial g q l)
    (heven : q.seq.toNat % 2 = 0) : ∃ k, Settled initial g q k := by
  cases l with
  | idle => exact ⟨_, h⟩
  | storeLoad val => obtain ⟨g', -, h⟩ := h; exact ⟨_, h⟩
  | storeOdd val seq => obtain ⟨g', -, h, -⟩ := h; exact ⟨_, h⟩
  | storeCopy val seq i =>
    obtain ⟨g', rfl, hseq, hq, -⟩ := h
    rw [hq, BitVec.toNat_add, hseq] at heven
    have : (2 * g'.length + 1) % 2 ^ 64 % 2 = 0 := heven
    omega
  | loadFirst dst => exact h.elim
  | loadCopy seq i dst => exact h.elim

/-- A reader is not disturbed by more stores and a larger `m_seq`. -/
theorem ReaderOk.mono {g g' : List (Value n α)} {q q' : Shared n α} {l : Local n α}
    (h : ReaderOk g q l) (hg : g <+: g') (hseq : q.seq.toNat ≤ q'.seq.toNat) :
    ReaderOk g' q' l := by
  cases l with
  | idle => trivial
  | loadFirst dst => trivial
  | loadCopy seq i dst =>
    intro heven hne
    obtain ⟨k, val, hk, hval, hle, hcopied⟩ := h heven hne
    refine ⟨k, val, hk, ?_, Nat.le_trans hle hseq, fun hq => hcopied ?_⟩
    · obtain ⟨rest, rfl⟩ := hg
      rw [List.getElem?_append_left (List.getElem?_eq_some_iff.mp hval).1, hval]
    · exact BitVec.eq_of_toNat_eq (Nat.le_antisymm (hq ▸ hseq) hle)
  | storeLoad val => exact h.elim
  | storeOdd val seq => exact h.elim
  | storeCopy val seq i => exact h.elim

/-! ### One access -/

section

variable {initial : Value n α} {g : List (Value n α)} {q q' : Shared n α} {l l' : Local n α}
  {es : List (Event ι n α)}

/-- Word `i` is copied behind the words before it. -/
theorem copyWord_copied {dst src : Value n α} {i : Nat} (hi : i < n)
    (h : ∀ j : Fin n, j < i → dst j = src j) :
    ∀ j : Fin n, j < i + 1 → copyWord dst src ⟨i, hi⟩ j = src j := by
  intro j hj
  by_cases hji : j = ⟨i, hi⟩
  · rw [hji, copyWord, Function.update_self]
  · rw [copyWord, Function.update_of_ne hji]
    have hne : j.val ≠ i := fun e => hji (Fin.ext e)
    exact h j (by omega)

/-- An access of the writer. -/
theorem WriterOk.store (h : WriterOk initial g q l) (hfew : g.length < 2 ^ 63)
    (hstep : store q l = some (q', l', es)) :
    WriterOk initial g q' l' ∧ q.seq.toNat ≤ q'.seq.toNat ∧ (es = [] ∨ es = [.stored]) := by
  unfold SeqLock.store at hstep
  cases l with
  | idle => exact absurd hstep (by simp)
  | loadFirst dst => exact absurd hstep (by simp)
  | loadCopy seq i dst => exact absurd hstep (by simp)
  | storeLoad val =>
    cases hstep
    obtain ⟨g', hg, hsettled⟩ := h
    exact ⟨⟨g', hg, hsettled, rfl⟩, Nat.le_refl _, .inl rfl⟩
  | storeOdd val seq =>
    cases hstep
    obtain ⟨g', rfl, ⟨hseq, -⟩, rfl⟩ := h
    refine ⟨⟨g', rfl, hseq, rfl, fun j hj => absurd hj (Nat.not_lt_zero _)⟩, ?_, .inl rfl⟩
    -- the number of the store fits into the word, so the sequence grows
    rw [List.length_append, List.length_singleton] at hfew
    show _ ≤ (q.seq + 1).toNat
    rw [BitVec.toNat_add, hseq]
    simp
    omega
  | storeCopy val seq i =>
    obtain ⟨g', rfl, hseq, hq, hcopied⟩ := h
    rw [List.length_append, List.length_singleton] at hfew
    simp only at hstep
    split at hstep <;> cases hstep
    · rename_i hi
      exact ⟨⟨g', rfl, hseq, hq, copyWord_copied hi hcopied⟩, Nat.le_refl _, .inl rfl⟩
    · rename_i hi
      -- all words are copied: the value is that of the store, and the sequence is even again
      have hval : q.val = val := funext fun j => hcopied j (by have := j.isLt; omega)
      refine ⟨⟨?_, ?_⟩, ?_, .inr rfl⟩
      · show (seq + 2).toNat = _
        rw [BitVec.toNat_add, hseq]
        simp
        omega
      · rw [← hval]; simp
      · show _ ≤ (seq + 2).toNat
        rw [hq, BitVec.toNat_add, BitVec.toNat_add, hseq]
        simp
        omega

/-- An access of a reader. -/
theorem ReaderOk.load (h : ReaderOk g q l)
    (hw : q.seq.toNat % 2 = 0 → ∃ k, Settled initial g q k) {t : ι}
    (hread : ∀ seq ∈ compares l, q.seq = seq → seq.toNat % 2 = 0 ∧ seq ≠ 0#64)
    (hstep : load t q l = some (q', l', es)) :
    q' = q ∧ ReaderOk g q l' ∧
      (es = [] ∨ es = [.missed t] ∨ ∃ val ∈ g, es = [.loaded t val]) := by
  unfold SeqLock.load at hstep
  cases l with
  | idle => exact absurd hstep (by simp)
  | storeLoad val => exact absurd hstep (by simp)
  | storeOdd val seq => exact absurd hstep (by simp)
  | storeCopy val seq i => exact absurd hstep (by simp)
  | loadFirst dst =>
    cases hstep
    refine ⟨rfl, fun heven hne => ?_, .inl rfl⟩
    obtain ⟨k, hseq, hval⟩ := hw heven
    cases k with
    | zero => exact absurd (BitVec.eq_of_toNat_eq hseq) hne
    | succ k => exact ⟨k, _, hseq, hval, Nat.le_refl _, fun _ j hj => absurd hj (Nat.not_lt_zero _)⟩
  | loadCopy seq i dst =>
    simp only at hstep
    split at hstep
    · rename_i hi
      cases hstep
      refine ⟨rfl, fun heven hne => ?_, .inl rfl⟩
      obtain ⟨k, val, hk, hval, hle, hcopied⟩ := h heven hne
      refine ⟨k, val, hk, hval, hle, fun hq => ?_⟩
      -- the number is still the first one, so `m_val` is still the value of that store
      obtain ⟨k', hseq, hval'⟩ := hw (by rw [hq, hk]; exact Nat.mul_mod_right 2 _)
      have hqval : q.val = val := by
        obtain rfl : k' = k + 1 := by rw [hq, hk] at hseq; omega
        exact Option.some.inj (hval'.symm.trans hval)
      rw [hqval]
      exact copyWord_copied hi (hcopied hq)
    · rename_i hi
      split at hstep <;> cases hstep
      · rename_i hq
        -- the comparison succeeds
        obtain ⟨heven, hne⟩ := hread seq (by rw [compares, if_pos (Nat.not_lt.mp hi)]; rfl) hq
        obtain ⟨k, val, hk, hval, hle, hcopied⟩ := h heven hne
        have hdst : dst = val := funext fun j => hcopied hq j (by have := j.isLt; omega)
        exact ⟨rfl, trivial, .inr (.inr ⟨_, List.mem_of_getElem? (hdst ▸ hval), rfl⟩)⟩
      · exact ⟨rfl, trivial, .inr (.inl rfl)⟩

end

/-! ### Every run -/

/-- The stores of a run are those of its pieces. -/
theorem stores_append (tr es : List (Event ι n α)) : stores (tr ++ es) = stores tr ++ stores es :=
  List.filterMap_append

/-- The invariant holds at the beginning. -/
theorem inv_init [DecidableEq ι] (initial : Value n α) :
    Inv initial [] (program ι initial).machine.init :=
  ⟨⟨rfl, rfl⟩, fun _ => trivial⟩

/-- The writer moves, perhaps by starting one more store. -/
theorem Inv.writer_moves [DecidableEq ι] {initial : Value n α} {g g' : List (Value n α)}
    {c : Config (Option ι) (Shared n α) (Local n α)} (inv : Inv initial g c) (hg : g <+: g')
    {q : Shared n α} {l : Local n α} (hseq : c.shared.seq.toNat ≤ q.seq.toNat)
    (hw : WriterOk initial g' q l) : Inv initial g' (c.set none q l) := by
  refine ⟨by rw [Config.set_threads_self]; exact hw, fun t => ?_⟩
  rw [Config.set_threads_of_ne (by simp)]
  exact (inv.readers t).mono hg hseq

/-- A reader moves. -/
theorem Inv.reader_moves [DecidableEq ι] {initial : Value n α} {g : List (Value n α)}
    {c : Config (Option ι) (Shared n α) (Local n α)} (inv : Inv initial g c) (r : ι)
    {l : Local n α} (hr : ReaderOk g c.shared l) :
    Inv initial g (c.set (some r) c.shared l) := by
  refine ⟨by rw [Config.set_threads_of_ne (by simp)]; exact inv.writer, fun t => ?_⟩
  exact Config.set_forall (p := fun t l => ∀ u, t = some u → ReaderOk g c.shared l)
    (fun _ _ => hr) (fun v _ u hv => hv ▸ inv.readers u) (some t) t rfl

/-- Every value reported as good was passed to a call of `store`. -/
def Intact (tr : List (Event ι n α)) : Prop :=
  ∀ val ∈ reported tr, val ∈ stores tr

/-- Events that report only values stored before. -/
theorem Intact.append {tr es : List (Event ι n α)} (h : Intact tr)
    (hes : ∀ val ∈ reported es, val ∈ stores tr) : Intact (tr ++ es) := by
  intro val hmem
  rw [reported, List.filterMap_append, List.mem_append] at hmem
  rw [stores_append]
  rcases hmem with hmem | hmem
  · exact List.mem_append_left _ (h val hmem)
  · exact List.mem_append_left _ (hes val hmem)

/-- **No torn value.** In every run of less than `2 ^ 63` stores in which each load that finds
    `m_seq` unchanged first read it with some store completed and none in progress. -/
theorem load_intact [DecidableEq ι] (initial : Value n α) {tr : List (Event ι n α)}
    {c : Config (Option ι) (Shared n α) (Local n α)}
    (run : (program ι initial).machine.RunIf SettledRead tr c)
    (hfew : (stores tr).length < 2 ^ 63) : Intact tr := by
  suffices h : (stores tr).length < 2 ^ 63 → Inv initial (stores tr) c ∧ Intact tr from
    (h hfew).2
  refine Program.invariant (I := fun tr c => (stores tr).length < 2 ^ 63 →
    Inv initial (stores tr) c ∧ Intact tr) ?_ ?_ run
  · exact fun _ => ⟨inv_init initial, fun val h => absurd h (by simp [reported])⟩
  intro tr c t k q l es ih allowed hstep hfew
  rw [stores_append, List.length_append] at hfew
  have hfew' : (stores tr).length < 2 ^ 63 := by omega
  obtain ⟨inv, hint⟩ := ih hfew'
  rw [stores_append]
  rcases next_cases hstep with ⟨val, rfl, hl, rfl, rfl, rfl⟩ | ⟨r, val, rfl, hl, rfl, rfl, rfl⟩ |
    ⟨rfl, hacc⟩ | ⟨r, rfl, rfl, hacc⟩
  · -- a call of `store`
    have hw := inv.writer
    rw [hl] at hw
    refine ⟨inv.writer_moves (List.prefix_append _ _) (Nat.le_refl _) ?_,
      hint.append (by simp [reported])⟩
    refine ⟨stores tr, rfl, hw.1, ?_⟩
    rw [← hw.2, ← List.cons_append]
    exact List.getElem?_append_left (by simp)
  · refine ⟨?_, hint.append (by simp [reported])⟩
    rw [show stores ([] : List (Event ι n α)) = [] from rfl, List.append_nil]
    exact inv.reader_moves r trivial
  · -- an access of the writer
    obtain ⟨hw, hseq, hes⟩ := inv.writer.store hfew' hacc
    have hnone : stores es = [] := by rcases hes with rfl | rfl <;> rfl
    rw [hnone, List.append_nil]
    exact ⟨inv.writer_moves List.prefix_rfl hseq hw,
      hint.append (by rcases hes with rfl | rfl <;> simp [reported])⟩
  · -- an access of a reader, which reports only what it began on a settled value
    obtain ⟨rfl, hr, hes⟩ := (inv.readers r).load (inv.writer.settled hfew') (allowed rfl) hacc
    have hnone : stores es = [] := by rcases hes with rfl | rfl | ⟨_, -, rfl⟩ <;> rfl
    rw [hnone, List.append_nil]
    refine ⟨inv.reader_moves r hr, hint.append ?_⟩
    rcases hes with rfl | rfl | ⟨v, hv, rfl⟩
    · simp [reported]
    · simp [reported]
    · simpa [reported] using hv

/-- A value of two words is stored and read; a load that begins inside of the next store reports
    `false`. -/
theorem load_intact_two : ∃ tr c,
    (program (Fin 1) ![0, 0]).machine.RunIf SettledRead tr c ∧
      reported tr = [![1, 2]] ∧ Intact tr := by
  obtain ⟨tr, c, run, hrep, hfew⟩ := Machine.exists_runIf
    (M := (program (Fin 1) ![0, 0]).machine) (A := SettledRead)
    (P := fun tr _ => reported tr = [![1, 2]] ∧ (stores tr).length < 2 ^ 63)
    ((none, Label.store ![1, 2]) :: List.replicate 5 (none, Label.step) ++
      (some 0, Label.load ![0, 0]) :: List.replicate 4 (some 0, Label.step) ++
      (none, Label.store ![3, 4]) :: List.replicate 3 (none, Label.step) ++
      (some 0, Label.load ![0, 0]) :: List.replicate 3 (some 0, Label.step) ++
      List.replicate 2 (none, Label.step) ++ [(some 0, Label.step)]) (by decide +kernel)
  exact ⟨tr, c, run, hrep, load_intact _ run hfew⟩

/-- **A torn value.** A load that starts and ends between the two copied words of the second
    store reports one word of each store. -/
theorem torn_load : ∃ tr c, (program (Fin 1) ![0, 0]).machine.Run tr c ∧
    stores tr = [![1, 1], ![2, 2]] ∧ reported tr = [![2, 1]] ∧ ¬ Intact tr := by
  obtain ⟨tr, c, run, hstores, hrep⟩ := Machine.exists_run
    (M := (program (Fin 1) ![0, 0]).machine)
    (P := fun tr _ => stores tr = [![1, 1], ![2, 2]] ∧ reported tr = [![2, 1]])
    ((none, Label.store ![1, 1]) :: List.replicate 5 (none, Label.step) ++
      (none, Label.store ![2, 2]) :: List.replicate 3 (none, Label.step) ++
      (some 0, Label.load ![0, 0]) :: List.replicate 4 (some 0, Label.step)) (by decide +kernel)
  refine ⟨tr, c, run, hstores, hrep, fun h => ?_⟩
  have := h ![2, 1] (by rw [hrep]; exact List.mem_singleton_self _)
  rw [hstores] at this
  exact absurd this (by decide)

end HopeThreading.SeqLock
