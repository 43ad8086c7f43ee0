import HopeThreading.Transition.Counting
import HopeThreading.Sync.RecursiveRwSpinlock
import HopeThreading.Words.Fields

namespace HopeThreading.RecursiveRwSpinlock

open Transition Words

/-!
# `recursive_rw_spinlock` — threads with ids of their own

With distinct nonzero ids only the owner takes the branches of a nested call.  The word is
then the sum of what the threads have added to its fields, and `m_write_recursion_depth` is
the number of exclusive holds of the owner (`Inv`).  A move of one thread changes the sums by
what it changes of its own shares (`Inv.move`).
-/

variable {ι : Type*}

/-! ### The conditions -/

/-- The thread is inside of `lock_shared`. -/
def Pc.inLockShared : Pc → Bool
  | .checkLoad .shared | .checkAssert .shared | .sharedIncrement | .sharedUndo | .sharedWait =>
    true
  | _ => false

/-- The shared holds of a thread and its attempt. -/
def readers (l : Local) : Nat := l.holds.count .shared + if l.pc.inLockShared then 1 else 0

/-- Fewer shared holds and attempts than their field can count. -/
def Fits [Fintype ι] (c : Config ι Shared Local) (_ : ι × Label) : Prop :=
  total readers c.threads < 2 ^ 20

/-- The sequence `S -> X` does not occur. -/
def NoUpgrade (c : Config ι Shared Local) (a : ι × Label) : Prop :=
  a.2 = .lock → (c.threads a.1).holds.head? ≠ some .shared

/-- The depth can count the hold that is asked for. -/
def Shallow (c : Config ι Shared Local) (a : ι × Label) : Prop :=
  a.2 = .lock → (c.threads a.1).holds.count .exclusive + 1 < 2 ^ 64

/-- The three conditions on a run. -/
def Disciplined [Fintype ι] (c : Config ι Shared Local) (a : ι × Label) : Prop :=
  ReverseOrder c a ∧ Fits c a ∧ Shallow c a

instance [Fintype ι] (c : Config ι Shared Local) (a : ι × Label) : Decidable (Disciplined c a) :=
  inferInstanceAs (Decidable ((_ ∧ _) ∧ (_ < _) ∧ (_ → _)))

/-! ### The word -/

/-- The word for numbers of writers and readers and an owner. -/
def word (w r : Nat) (owner : BitVec 32) : BitVec 64 :=
  BitVec.ofNat 64 (r + 2 ^ 20 * w + 2 ^ 32 * owner.toNat)

section

variable {w r : Nat} {owner : BitVec 32}

/-- One reader more is one more in the word. -/
theorem word_add_one : word w r owner + 1 = word w (r + 1) owner := by
  unfold word
  rw [show (1 : BitVec 64) = BitVec.ofNat 64 1 by rfl, ← BitVec.ofNat_add]
  congr 1
  omega

/-- One reader less is one less in the word. -/
theorem word_sub_one : word w (r + 1) owner - 1 = word w r owner := by
  rw [← word_add_one, BitVec.add_sub_cancel]

/-- One writer more is one `Writer` more in the word. -/
theorem word_add_writer : word w r owner + Writer = word (w + 1) r owner := by
  unfold word Writer
  rw [← BitVec.ofNat_add]
  congr 1
  omega

/-- One writer less is one `Writer` less in the word. -/
theorem word_sub_writer : word (w + 1) r owner - Writer = word w r owner := by
  rw [← word_add_writer, BitVec.add_sub_cancel]

/-- The id stands in the upper half of the word. -/
theorem idField_eq (id : BitVec 32) : idField id = BitVec.ofNat 64 (2 ^ 32 * id.toNat) := by
  unfold idField
  apply BitVec.eq_of_toNat_eq
  have := id.isLt
  rw [BitVec.toNat_shiftLeft, BitVec.toNat_setWidth, BitVec.toNat_ofNat, Nat.shiftLeft_eq,
    Nat.mod_eq_of_lt (a := id.toNat) (by omega), Nat.mul_comm]

/-- Adding the id to a word without an owner names the owner. -/
theorem word_add_idField (id : BitVec 32) : word w r 0 + idField id = word w r id := by
  rw [idField_eq, word, word, ← BitVec.ofNat_add]
  rfl

/-- Taking the id off leaves a word without an owner. -/
theorem word_sub_idField (id : BitVec 32) : word w r id - idField id = word w r 0 := by
  rw [← word_add_idField, BitVec.add_sub_cancel]

/-- The word as a number: readers, writers and owner beside each other, without a carry. -/
theorem toNat_word (hw : w < 2 ^ 12) (hr : r < 2 ^ 20) :
    (word w r owner).toNat = r + 2 ^ 20 * w + 2 ^ 32 * owner.toNat := by
  have := owner.isLt
  rw [word, BitVec.toNat_ofNat, Nat.mod_eq_of_lt (by omega)]

/-- No writer bit is set. -/
theorem word_and_exclusiveMask (hw : w < 2 ^ 12) (hr : r < 2 ^ 20) :
    word w r owner &&& ExclusiveMask = 0 ↔ w = 0 := by
  rw [show ExclusiveMask = fieldMask 64 20 12 by decide, and_fieldMask_eq_zero _ (by omega),
    field_of_eq (c := owner.toNat) (a := r) (b := w) (by rw [toNat_word hw hr]; omega) hr hw]

/-- The owner field. -/
theorem ownerOf_word (hw : w < 2 ^ 12) (hr : r < 2 ^ 20) : ownerOf (word w r owner) = owner := by
  have := owner.isLt
  have hfield : (word w r owner &&& ThreadIdMask).toNat = owner.toNat * 2 ^ 32 := by
    rw [show ThreadIdMask = fieldMask 64 32 32 by decide, toNat_and_fieldMask _ (by omega),
      field_of_eq (c := 0) (a := r + 2 ^ 20 * w) (b := owner.toNat)
        (by rw [toNat_word hw hr]; omega) (by omega) (by omega)]
  unfold ownerOf
  apply BitVec.eq_of_toNat_eq
  rw [BitVec.and_comm, BitVec.toNat_setWidth, BitVec.toNat_ushiftRight, hfield,
    Nat.shiftRight_eq_div_pow, Nat.mul_div_cancel _ (by omega), Nat.mod_eq_of_lt this]

/-- Only the writer that has just added itself is there. -/
theorem word_add_writer_eq (hw : w < 2 ^ 12) (hr : r < 2 ^ 20) :
    word w r owner + Writer = Writer ↔ w = 0 ∧ r = 0 ∧ owner = 0 := by
  constructor
  · intro h
    have hzero : word w r owner = 0#64 := by
      rw [← BitVec.add_sub_cancel (word w r owner) Writer, h, BitVec.sub_self]
    have hnat : (word w r owner).toNat = _ := toNat_word hw hr
    rw [hzero, BitVec.toNat_zero] at hnat
    refine ⟨by omega, by omega, BitVec.eq_of_toNat_eq ?_⟩
    show owner.toNat = 0
    omega
  · rintro ⟨rfl, rfl, rfl⟩
    decide

/-- `assert(0 == (this_id & (ExclusiveMask | SharedMask)))`. -/
theorem idField_and_masks (id : BitVec 32) :
    idField id &&& (ExclusiveMask ||| SharedMask) = 0 := by
  rw [show ExclusiveMask ||| SharedMask = fieldMask 64 0 32 by decide,
    and_fieldMask_eq_zero _ (by omega)]
  have := id.isLt
  rw [idField_eq, BitVec.toNat_ofNat]
  omega

end

/-! ### Who counts where -/

/-- The exclusive holds of a thread. -/
def Local.nested (l : Local) : Nat := l.holds.count .exclusive

/-- The thread is between the addition that gives it the lock and the end of the `unlock`
    that releases it. -/
def Local.Inside (l : Local) : Prop := .exclusive ∈ l.holds ∨ l.pc = .addId ∨ l.pc = .setDepth

instance (l : Local) : Decidable l.Inside := inferInstanceAs (Decidable (_ ∨ _))

/-- One for a thread that is inside. -/
def inside (l : Local) : Nat := if l.Inside then 1 else 0

/-- The shared holds that are in the word. -/
def counted (l : Local) : Nat := if .exclusive ∈ l.holds then 0 else l.holds.length

/-- What the thread has added to the writer bits. -/
def writerShare (l : Local) : Nat := if l.Inside ∨ l.pc = .exclusiveUndo then 1 else 0

/-- What the thread has added to the reader bits. -/
def readerShare (l : Local) : Nat := counted l + if l.pc = .sharedUndo then 1 else 0

/-- The id of the thread is in the word. -/
def Local.Owns (l : Local) : Prop :=
  l.pc = .setDepth ∨ .exclusive ∈ l.holds ∧ l.pc ≠ .subtractWriter

/-- The depth while the thread is inside. -/
def depthOf (l : Local) : Nat :=
  match l.pc with
  | .unlockTest => l.nested - 1
  | .subtractId | .subtractWriter => 0
  | _ => l.nested

/-- The exclusive holds of a thread and the one it asks for. -/
def asked (l : Local) : Nat :=
  match l.pc with
  | .checkLoad .exclusive | .checkAssert .exclusive | .increment | .incrementStore _ =>
    l.nested + 1
  | _ => l.nested

/-- What a thread knows at each access. -/
def Local.Proper (l : Local) : Prop :=
  (.exclusive ∈ l.holds → l.holds.getLast? = some .exclusive) ∧ asked l < 2 ^ 64 ∧
  match l.pc with
  | .idle | .checkLoad _ => True
  | .checkAssert _ | .increment => .exclusive ∈ l.holds
  | .incrementStore n => .exclusive ∈ l.holds ∧ n = BitVec.ofNat 64 (l.nested + 1)
  | .sharedIncrement | .sharedUndo | .sharedWait => .exclusive ∉ l.holds
  | .exclusiveAdd | .exclusiveUndo | .exclusiveWait => .exclusive ∉ l.holds
  | .unlockSharedTest => l.holds.head? = some .shared
  | .unlockSharedDecrement => l.holds.head? = some .shared ∧ .exclusive ∉ l.holds
  | .addId | .setDepth => l.holds = []
  | .decrement | .unlockTest => l.holds.head? = some .exclusive
  | .decrementStore n =>
    l.holds.head? = some .exclusive ∧ n = BitVec.ofNat 64 (l.nested - 1)
  | .subtractId | .subtractWriter => l.holds = [.exclusive]

/-- `owner` is the id of the thread that owns the word, if there is one. -/
def IsOwner (id : ι → BitVec 32) (threads : ι → Local) (owner : BitVec 32) : Prop :=
  (∀ t, (threads t).Owns → owner = id t) ∧ ((∀ t, ¬ (threads t).Owns) → owner = 0)

/-- The invariant of the lock: its word counts the threads, its depth is the owner's, and the
    owner is alone. -/
structure Inv [Fintype ι] (id : ι → BitVec 32) (c : Config ι Shared Local) : Prop where
  word : ∃ owner, IsOwner id c.threads owner ∧
    c.shared.lock = word (total writerShare c.threads) (total readerShare c.threads) owner
  depth : c.shared.writeRecursionDepth = BitVec.ofNat 64 (total depthOf c.threads)
  one : total inside c.threads ≤ 1
  alone : 0 < total inside c.threads → total counted c.threads = 0
  running : c.shared.aborted = false
  proper : ∀ t, (c.threads t).Proper

section

variable {l : Local}

/-- A thread counts as inside exactly when it is inside. -/
theorem inside_pos : 0 < inside l ↔ l.Inside := by
  unfold inside
  split <;> simp_all

/-- A thread is at most one of the writers in the word. -/
theorem writerShare_le (l : Local) : writerShare l ≤ 1 := by
  unfold writerShare
  split <;> omega

/-- A thread inside is one of the writers in the word. -/
theorem inside_le_writerShare (l : Local) : inside l ≤ writerShare l := by
  unfold inside writerShare
  split <;> simp_all

/-- A shared hold that counted is one of the readers in the word. -/
theorem counted_le_readerShare (l : Local) : counted l ≤ readerShare l := Nat.le_add_right _ _

/-- The nesting is positive exactly while there is an exclusive hold. -/
theorem nested_pos : 0 < l.nested ↔ .exclusive ∈ l.holds := List.count_pos_iff

/-- The depth in the lock is at most the nesting of the thread. -/
theorem depthOf_le (l : Local) : depthOf l ≤ l.nested := by
  unfold depthOf
  split <;> omega

/-- A thread outside has no part in the depth. -/
theorem depthOf_eq_zero (h : ¬ l.Inside) : depthOf l = 0 := by
  have hnone : ¬ 0 < l.nested := fun hpos => h (.inl (nested_pos.mp hpos))
  have := depthOf_le l
  omega

/-- Without an exclusive hold all holds are shared. -/
theorem count_shared_of_not_mem {holds : List Mode} (h : .exclusive ∉ holds) :
    holds.count .shared = holds.length := by
  apply List.count_eq_length.mpr
  intro mode hmem
  cases mode with
  | shared => rfl
  | exclusive => exact absurd hmem h

/-- The readers in the word that are of a thread are at most its shared holds and attempts. -/
theorem readerShare_le (l : Local) : readerShare l ≤ readers l := by
  unfold readerShare readers counted
  by_cases hmem : .exclusive ∈ l.holds
  · rw [if_pos hmem]
    cases l.pc <;> simp [Pc.inLockShared]
  · rw [if_neg hmem, count_shared_of_not_mem hmem]
    cases l.pc <;> simp [Pc.inLockShared]

/-- Below the last exclusive hold there is nothing. -/
theorem eq_singleton {rest : List Mode}
    (hbase : (Mode.exclusive :: rest).getLast? = some .exclusive) (hmem : .exclusive ∉ rest) :
    rest = [] := by
  cases rest with
  | nil => rfl
  | cons mode rest =>
    rw [List.getLast?_cons_cons] at hbase
    exact absurd (List.mem_of_getLast? hbase) hmem

end

section

variable [DecidableEq ι] {id : ι → BitVec 32} {threads : ι → Local} {t : ι} {l : Local}
  {owner : BitVec 32}

/-- The owner stays. -/
theorem IsOwner.keep (h : IsOwner id threads owner) (hsame : l.Owns ↔ (threads t).Owns) :
    IsOwner id (Function.update threads t l) owner := by
  have hiff : ∀ u, (Function.update threads t l u).Owns ↔ (threads u).Owns := fun u => by
    by_cases hu : u = t
    · rw [hu, Function.update_self, hsame]
    · rw [Function.update_of_ne hu]
  exact ⟨fun u hu => h.1 u ((hiff u).mp hu), fun hnone => h.2 fun u hu => hnone u ((hiff u).mpr hu)⟩

/-- Where no other thread owns the word, `t` alone says who does. -/
theorem IsOwner.of_alone (hothers : ∀ u, u ≠ t → ¬ (threads u).Owns)
    (hself : (l.Owns → owner = id t) ∧ (¬ l.Owns → owner = 0)) :
    IsOwner id (Function.update threads t l) owner := by
  constructor
  · intro u hu
    by_cases hut : u = t
    · rw [hut] at hu ⊢
      rw [Function.update_self] at hu
      exact hself.1 hu
    · rw [Function.update_of_ne hut] at hu
      exact absurd hu (hothers u hut)
  · intro hnone
    have := hnone t
    rw [Function.update_self] at this
    exact hself.2 this

end

section

variable [Fintype ι] [DecidableEq ι] {id : ι → BitVec 32} {c : Config ι Shared Local} {t : ι}
  {l : Local} {q : Shared}

/-- A thread whose id is in the word is inside. -/
theorem inside_of_owns (h : l.Owns) : l.Inside := by
  rcases h with h | ⟨h, -⟩
  · exact .inr (.inr h)
  · exact .inl h

/-- While `t` is inside nobody else is … -/
theorem Inv.others (inv : Inv id c) (ht : (c.threads t).Inside) {u : ι} (hut : u ≠ t) :
    ¬ (c.threads u).Inside := fun hu => by
  have := add_le_total inside c.threads hut
  have hone := inv.one
  have htpos := inside_pos.mpr ht
  have hupos := inside_pos.mpr hu
  omega

/-- … no other thread has a hold … -/
theorem Inv.others_holds (inv : Inv id c) (ht : (c.threads t).Inside) {u : ι} (hut : u ≠ t) :
    (c.threads u).holds = [] := by
  have hpos := (inside_pos.mpr ht).trans_le (le_total inside c.threads t)
  have hzero := total_eq_zero.mp (inv.alone hpos) u
  unfold counted at hzero
  rw [if_neg fun hmem => inv.others ht hut (.inl hmem)] at hzero
  exact List.length_eq_zero_iff.mp hzero

/-- … and the depth is that of `t`. -/
theorem Inv.depth_of_inside (inv : Inv id c) (ht : (c.threads t).Inside) :
    total depthOf c.threads = depthOf (c.threads t) :=
  total_eq_of_alone depthOf c.threads fun _ hut => depthOf_eq_zero (inv.others ht hut)

omit [DecidableEq ι] in
/-- With nobody inside the depth is zero. -/
theorem depth_of_outside (hnone : total inside c.threads = 0) :
    total depthOf c.threads = 0 := total_eq_zero.mpr fun u => by
  apply depthOf_eq_zero
  rw [← inside_pos, total_eq_zero.mp hnone u]
  exact Nat.lt_irrefl 0

/-- A move of thread `t` changes the word and the depth by what it changes of its shares. -/
theorem Inv.move (inv : Inv id c) {w r d : Nat} {owner : BitVec 32}
    (hlock : q.lock = RecursiveRwSpinlock.word w r owner)
    (howner : IsOwner id (Function.update c.threads t l) owner)
    (hdepth : q.writeRecursionDepth = BitVec.ofNat 64 d) (hrun : q.aborted = false)
    (hw : w + writerShare (c.threads t) = total writerShare c.threads + writerShare l)
    (hr : r + readerShare (c.threads t) = total readerShare c.threads + readerShare l)
    (hd : d + depthOf (c.threads t) = total depthOf c.threads + depthOf l)
    (hsafe : (inside l ≤ inside (c.threads t) ∧
        (counted l ≤ counted (c.threads t) ∨ total inside c.threads = 0)) ∨
      (inside l = 1 ∧ counted l = 0 ∧ total inside c.threads = 0 ∧ total counted c.threads = 0))
    (hl : l.Proper) : Inv id (c.set t q l) := by
  -- a sum over all threads changes by what thread `t` changes
  have hW := total_update writerShare c.threads t l
  have hR := total_update readerShare c.threads t l
  have hD := total_update depthOf c.threads t l
  have hX := total_update inside c.threads t l
  have hS := total_update counted c.threads t l
  have hXt := le_total inside c.threads t
  have hSt := le_total counted c.threads t
  have hone := inv.one
  have halone := inv.alone
  refine ⟨⟨owner, howner, ?_⟩, ?_, ?_, ?_, hrun, Config.set_forall hl fun u _ => inv.proper u⟩
  · show q.lock = RecursiveRwSpinlock.word (total writerShare (Function.update c.threads t l))
      (total readerShare (Function.update c.threads t l)) owner
    rw [hlock]
    congr 1 <;> omega
  · show q.writeRecursionDepth = BitVec.ofNat 64 (total depthOf (Function.update c.threads t l))
    rw [hdepth]
    congr 1
    omega
  · show total inside (Function.update c.threads t l) ≤ 1
    omega
  · show 0 < total inside (Function.update c.threads t l) →
      total counted (Function.update c.threads t l) = 0
    omega

/-- A program counter at which the thread has nothing in the word but its holds. -/
def Pc.plain : Pc → Bool
  | .sharedUndo | .exclusiveUndo | .addId | .setDepth | .unlockTest | .subtractId
  | .subtractWriter => false
  | _ => true

/-- A program counter before the lock is taken: what the thread has in the word beside its holds
    is an attempt at most. -/
def Pc.trying : Pc → Bool
  | .addId | .setDepth | .unlockTest | .subtractId | .subtractWriter => false
  | _ => true

/-- There the depth is the number of its exclusive holds. -/
theorem depthOf_of_trying {l : Local} (h : l.pc.trying = true) : depthOf l = l.nested := by
  unfold depthOf
  split
  · rename_i hpc
    exact absurd h (by simp [hpc, Pc.trying])
  · rename_i hpc
    exact absurd h (by simp [hpc, Pc.trying])
  · rename_i hpc
    exact absurd h (by simp [hpc, Pc.trying])
  · rfl

/-- A move between two such points changes nothing but the word, by what it changes of the
    attempt. -/
theorem Inv.attempt (inv : Inv id c) {pc : Pc} {w r : Nat} {owner : BitVec 32}
    (howner : IsOwner id c.threads owner) (hold : (c.threads t).pc.trying = true)
    (hnew : pc.trying = true)
    (hw : w + writerShare (c.threads t) =
      total writerShare c.threads + writerShare { c.threads t with pc := pc })
    (hr : r + readerShare (c.threads t) =
      total readerShare c.threads + readerShare { c.threads t with pc := pc })
    (hl : ({ c.threads t with pc := pc } : Local).Proper) :
    Inv id (c.set t { c.shared with lock := RecursiveRwSpinlock.word w r owner }
      { c.threads t with pc := pc }) := by
  have hpc : ∀ pc' : Pc, pc'.trying = false → (c.threads t).pc ≠ pc' ∧ pc ≠ pc' := fun pc' h =>
    ⟨fun heq => by rw [heq, h] at hold; exact absurd hold (by simp),
      fun heq => by rw [heq, h] at hnew; exact absurd hnew (by simp)⟩
  -- neither point counts in the depth or the sum of those inside
  have hdepth : depthOf { c.threads t with pc := pc } = depthOf (c.threads t) := by
    rw [depthOf_of_trying hnew, depthOf_of_trying hold]
    rfl
  have hinside : inside { c.threads t with pc := pc } = inside (c.threads t) := by
    simp [inside, Local.Inside, hpc .addId rfl, hpc .setDepth rfl]
  refine inv.move rfl (howner.keep ?_) inv.depth inv.running hw hr ?_
    (.inl ⟨hinside.le, .inl le_rfl⟩) hl
  · simp [Local.Owns, hpc .setDepth rfl, hpc .subtractWriter rfl]
  · rw [hdepth]

/-- A move between two points without an attempt changes nothing. -/
theorem Inv.quiet (inv : Inv id c) {pc : Pc} (hold : (c.threads t).pc.plain = true)
    (hnew : pc.plain = true) (hl : ({ c.threads t with pc := pc } : Local).Proper) :
    Inv id (c.set t c.shared { c.threads t with pc := pc }) := by
  obtain ⟨owner, howner, hlock⟩ := inv.word
  have hpc : ∀ pc' : Pc, pc'.plain = false → (c.threads t).pc ≠ pc' ∧ pc ≠ pc' := fun pc' h =>
    ⟨fun heq => by rw [heq, h] at hold; exact absurd hold (by simp),
      fun heq => by rw [heq, h] at hnew; exact absurd hnew (by simp)⟩
  have htrying : ∀ pc' : Pc, pc'.plain = true → pc'.trying = true := by
    intro pc' h
    cases pc' <;> first | rfl | exact absurd h (by simp [Pc.plain])
  have hw : total writerShare c.threads + writerShare (c.threads t) =
      total writerShare c.threads + writerShare { c.threads t with pc := pc } := by
    simp [writerShare, Local.Inside, hpc .addId rfl, hpc .setDepth rfl, hpc .exclusiveUndo rfl]
  have hr : total readerShare c.threads + readerShare (c.threads t) =
      total readerShare c.threads + readerShare { c.threads t with pc := pc } := by
    simp [readerShare, counted, hpc .sharedUndo rfl]
  have hinv := inv.attempt howner (htrying _ hold) (htrying _ hnew) hw hr hl
  rw [← hlock] at hinv
  exact hinv

end

end HopeThreading.RecursiveRwSpinlock
