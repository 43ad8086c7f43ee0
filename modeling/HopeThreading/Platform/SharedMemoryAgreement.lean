import HopeThreading.Platform.SharedMemory

namespace HopeThreading.SharedMemory

open Transition

/-!
# `create_or_open_shared_memory` — do all processes map the same object?

They should: the name is all they have in common.  But a process that finds an object too small
unlinks the *name*, and by then the name may refer to the object with which another process has
replaced the small one.  Each of the two then maps an object of its own (`splitSegment`).

The name of a small object may be taken away, and so may the name of an object that nobody can
map any more.  When nothing else loses its name (`KeepsHeld`), all segments are on one object, and
the name refers to it (`agree_of_run`).
-/

/-- An object that the function does not map: it has a size, and that is less than the one asked
    for. -/
def Small (sizeBytes : Nat) (ns : Namespace) (o : Object) : Prop :=
  0 < ns.size o ∧ ns.size o < sizeBytes

instance (sizeBytes : Nat) (ns : Namespace) (o : Object) : Decidable (Small sizeBytes ns o) :=
  inferInstanceAs (Decidable (_ ∧ _))

/-- The object a process may map, as far as it knows. -/
def Pc.opened : Pc → Option Object
  | .fstat _ fd | .ftruncate fd | .mmap fd _ => some fd
  | .shmOpen _ | .close _ _ | .shmUnlink _ | .closeFailed _ => none

/-- The object whose size a process has found right. -/
def Pc.checked : Pc → Option Object
  | .ftruncate fd | .mmap fd _ => some fd
  | .shmOpen _ | .fstat _ _ | .close _ _ | .shmUnlink _ | .closeFailed _ => none

/-- The object a process has in hand, or has mapped, after a system call. -/
def Outcome.object (f : Pc → Option Object) : Outcome → Option Object
  | .goesOn pc => f pc
  | .failed _ => none
  | .mapped segment => some segment.object

/-- A process has mapped an object, or it has it in hand in the sense of `f`. -/
def Process.Uses (f : Pc → Option Object) (p : Process) (o : Object) : Prop :=
  o ∈ p.segments.map Segment.object ∨ (p.call.bind fun call => f call.pc) = some o

instance (f : Pc → Option Object) (p : Process) (o : Object) : Decidable (p.Uses f o) :=
  inferInstanceAs (Decidable (_ ∨ _))

/-- The object that loses its name in a step. -/
def removed (ns : Namespace) (p : Process) : Label → Option Object
  | .step false => p.call.bind fun call =>
    match call.pc with
    | .shmUnlink _ => ns.names call.name
    | _ => none
  | _ => none

variable {ι : Type*}

/-- All calls are for the same segment. -/
def CallsFor (name : Name) (sizeBytes : Nat) (a : ι × Label) : Prop :=
  match a.2 with
  | .createOrOpen n size _ => n = some name ∧ size = sizeBytes
  | .step _ => True

/-- An object that loses its name is too small, or nobody has mapped it or is going to. -/
def KeepsHeld (sizeBytes : Nat) (c : Config ι Namespace Process) (a : ι × Label) : Prop :=
  ∀ o ∈ removed c.shared (c.threads a.1) a.2,
    Small sizeBytes c.shared o ∨ ∀ u, ¬ (c.threads u).Uses Pc.opened o

/-- All calls that have returned `true` have mapped one object, and the name refers to it. -/
structure Agree (name : Name) (c : Config ι Namespace Process) : Prop where
  same : ∀ t u, ∀ g ∈ (c.threads t).segments, ∀ g' ∈ (c.threads u).segments,
    g.object = g'.object
  named : ∀ t, ∀ g ∈ (c.threads t).segments, c.shared.names name = some g.object

/-! ### The namespace -/

/-- `shm_open` returns what the name refers to afterwards … -/
theorem Namespace.names_shmOpen (ns : Namespace) (name : Name) :
    (ns.shmOpen name).1.names name = some (ns.shmOpen name).2 := by
  unfold Namespace.shmOpen
  split
  · assumption
  · exact Function.update_self ..

/-- … which is what it referred to before, if it did … -/
theorem Namespace.shmOpen_of_some {ns : Namespace} {name : Name} {o : Object}
    (h : ns.names name = some o) : ns.shmOpen name = (ns, o) := by
  unfold Namespace.shmOpen
  split
  · rename_i o' h'
    rw [Option.some.inj (h.symm.trans h')]
  · rename_i h'
    exact absurd (h.symm.trans h') (by simp)

/-- … and nothing happens to the objects that are there. -/
theorem Namespace.size_shmOpen (ns : Namespace) (name : Name) :
    ns.fresh ≤ (ns.shmOpen name).1.fresh ∧
      ∀ o < ns.fresh, (ns.shmOpen name).1.size o = ns.size o := by
  unfold Namespace.shmOpen
  split
  · exact ⟨Nat.le_refl _, fun _ _ => rfl⟩
  · exact ⟨Nat.le_succ _, fun o ho => Function.update_of_ne (Nat.ne_of_lt ho) ..⟩

/-- The system calls that change the namespace. -/
theorem createOrOpen_fst (ns : Namespace) (name : Name) (sizeBytes : Nat) (fails : Bool) (pc : Pc) :
    (createOrOpen ns name sizeBytes fails pc).1 = ns ∨
    (∃ attempt, pc = .shmOpen attempt ∧
      (createOrOpen ns name sizeBytes fails pc).1 = (ns.shmOpen name).1) ∨
    (∃ fd, pc = .ftruncate fd ∧
      (createOrOpen ns name sizeBytes fails pc).1 = ns.ftruncate fd sizeBytes) ∨
    (∃ attempt, pc = .shmUnlink attempt ∧ fails = false ∧
      (createOrOpen ns name sizeBytes fails pc).1 = ns.shmUnlink name) := by
  cases pc with
  | shmOpen attempt =>
    cases fails with
    | true => exact .inl rfl
    | false => exact .inr (.inl ⟨attempt, rfl, rfl⟩)
  | ftruncate fd =>
    simp only [createOrOpen]
    split
    · exact .inl rfl
    · exact .inr (.inr (.inl ⟨fd, rfl, rfl⟩))
  | shmUnlink attempt =>
    cases fails with
    | true => exact .inl rfl
    | false => exact .inr (.inr (.inr ⟨attempt, rfl, rfl, rfl⟩))
  | fstat attempt fd =>
    simp only [createOrOpen, ← apply_ite (Prod.mk ns)]
    exact .inl trivial
  | close attempt fd =>
    simp only [createOrOpen, ← apply_ite (Prod.mk ns)]
    exact .inl trivial
  | mmap fd createdNew =>
    simp only [createOrOpen, ← apply_ite (Prod.mk ns)]
    exact .inl trivial
  | closeFailed fd => exact .inl rfl

/-- What a system call gives a process in hand, the name refers to. -/
theorem createOrOpen_opened {ns : Namespace} {name : Name} {sizeBytes : Nat} {fails : Bool}
    {pc : Pc} {o : Object}
    (h : (createOrOpen ns name sizeBytes fails pc).2.object Pc.opened = some o) :
    pc.opened = some o ∨ (createOrOpen ns name sizeBytes fails pc).1.names name = some o := by
  cases pc with
  | shmOpen attempt =>
    -- the object that is opened is the one bound to the name
    cases fails with
    | true => exact absurd h (by simp [createOrOpen, Outcome.object])
    | false =>
      right
      rw [← h]
      exact ns.names_shmOpen name
  | fstat attempt fd =>
    -- from here on the object that was opened is only handed on
    left
    simp only [createOrOpen] at h
    split at h
    · exact absurd h (by simp [Outcome.object, Pc.opened])
    · split at h
      · exact h
      · split at h
        · exact absurd h (by simp [Outcome.object, Pc.opened])
        · exact h
  | ftruncate fd =>
    left
    simp only [createOrOpen] at h
    split at h
    · exact absurd h (by simp [Outcome.object, Pc.opened])
    · exact h
  | mmap fd createdNew =>
    left
    simp only [createOrOpen] at h
    split at h
    · exact absurd h (by simp [Outcome.object, Pc.opened])
    · exact h
  | close attempt fd =>
    simp only [createOrOpen] at h
    split at h <;> exact absurd h (by simp [Outcome.object, Pc.opened])
  | shmUnlink attempt =>
    simp only [createOrOpen, enterAttempt] at h
    split at h <;> exact absurd h (by simp [Outcome.object, Pc.opened])
  | closeFailed fd => exact absurd h (by simp [createOrOpen, Outcome.object])

/-- What a system call makes a process rely on, is not too small. -/
theorem createOrOpen_checked {ns : Namespace} {name : Name} {sizeBytes : Nat} {fails : Bool}
    {pc : Pc} {o : Object}
    (h : (createOrOpen ns name sizeBytes fails pc).2.object Pc.checked = some o) :
    pc.checked = some o ∨ ¬ Small sizeBytes (createOrOpen ns name sizeBytes fails pc).1 o := by
  cases pc with
  | fstat attempt fd =>
    -- the size that was read is the one the object has, and it is large enough
    right
    simp only [createOrOpen] at h ⊢
    split at h
    · exact absurd h (by simp [Outcome.object, Pc.checked])
    · rename_i hfails
      rw [if_neg hfails]
      split at h
      · rename_i hzero
        rw [if_pos hzero]
        obtain rfl := Option.some.inj h
        exact fun hsmall => Nat.ne_of_gt hsmall.1 hzero
      · rename_i hzero
        rw [if_neg hzero]
        split at h
        · exact absurd h (by simp [Outcome.object, Pc.checked])
        · rename_i hsize
          rw [if_neg hsize]
          obtain rfl := Option.some.inj h
          exact fun hsmall => hsize hsmall.2
  | ftruncate fd =>
    left
    simp only [createOrOpen] at h
    split at h
    · exact absurd h (by simp [Outcome.object, Pc.checked])
    · exact h
  | mmap fd createdNew =>
    left
    simp only [createOrOpen] at h
    split at h
    · exact absurd h (by simp [Outcome.object, Pc.checked])
    · exact h
  | shmOpen attempt =>
    simp only [createOrOpen] at h
    split at h <;> exact absurd h (by simp [Outcome.object, Pc.checked])
  | close attempt fd =>
    simp only [createOrOpen] at h
    split at h <;> exact absurd h (by simp [Outcome.object, Pc.checked])
  | shmUnlink attempt =>
    simp only [createOrOpen, enterAttempt] at h
    split at h <;> exact absurd h (by simp [Outcome.object, Pc.checked])
  | closeFailed fd => exact absurd h (by simp [createOrOpen, Outcome.object])

/-! ### What a process has in hand -/

section

variable {f : Pc → Option Object} {p : Process} {call : Call} {o : Object} {t : ι}

/-- A process inside a call uses the objects of its segments, and the one the call is at. -/
theorem Process.uses_iff (h : p.call = some call) :
    p.Uses f o ↔ o ∈ p.segments.map Segment.object ∨ f call.pc = some o := by
  simp [Process.Uses, h]

/-- After a step of its call, a process uses the objects of its segments, and the one the call is
    at now. -/
theorem Process.uses_proceed {out : Outcome} :
    (p.proceed t call out).1.Uses f o ↔
      o ∈ p.segments.map Segment.object ∨ out.object f = some o := by
  cases out with
  | goesOn pc => simp [Process.Uses, Process.proceed, Outcome.object]
  | failed errno => simp [Process.Uses, Process.proceed, Outcome.object]
  | mapped g => simp [Process.Uses, Process.proceed, Outcome.object, eq_comm]

/-- A call that goes on is for the same segment. -/
theorem Process.call_proceed {next : Outcome} {call' : Call}
    (h : call' ∈ (p.proceed t call next).1.call) :
    call'.name = call.name ∧ call'.sizeBytes = call.sizeBytes := by
  cases next with
  | goesOn pc =>
    obtain rfl := Option.some.inj h
    exact ⟨rfl, rfl⟩
  | failed errno => exact absurd h (by simp [Process.proceed])
  | mapped g => exact absurd h (by simp [Process.proceed])

end

/-! ### The invariant -/

/-- What a process relies on. -/
structure ProcessInv (name : Name) (sizeBytes : Nat) (ns : Namespace) (p : Process) : Prop where
  calls : ∀ call ∈ p.call, call.name = name ∧ call.sizeBytes = sizeBytes
  created : ∀ o, p.Uses Pc.opened o → o < ns.fresh
  checked : ∀ o, p.Uses Pc.checked o → ¬ Small sizeBytes ns o
  named : ∀ o, p.Uses Pc.opened o → ¬ Small sizeBytes ns o → ns.names name = some o

section

variable {name : Name} {sizeBytes : Nat} {ns ns' : Namespace} {p p' : Process}

/-- An object that was checked was opened. -/
theorem Pc.opened_of_checked {pc : Pc} {o : Object} (h : pc.checked = some o) :
    pc.opened = some o := by
  cases pc with
  | ftruncate fd => exact h
  | mmap fd createdNew => exact h
  | _ => exact absurd h (by simp [Pc.checked])

/-- What a process has found right it has opened. -/
theorem Process.Uses.opened {o : Object} (h : p.Uses Pc.checked o) : p.Uses Pc.opened o := by
  refine h.imp_right fun hcall => ?_
  obtain ⟨call, hp, hpc⟩ := Option.bind_eq_some_iff.mp hcall
  exact Option.bind_eq_some_iff.mpr ⟨call, hp, Pc.opened_of_checked hpc⟩

/-- Another process looks at the objects it has in hand and at the name only. -/
theorem ProcessInv.frame (h : ProcessInv name sizeBytes ns p) (hfresh : ns.fresh ≤ ns'.fresh)
    (hsmall : ∀ o, p.Uses Pc.opened o → (Small sizeBytes ns' o ↔ Small sizeBytes ns o))
    (hnames : ∀ o, p.Uses Pc.opened o → ¬ Small sizeBytes ns o → ns.names name = some o →
      ns'.names name = some o) : ProcessInv name sizeBytes ns' p where
  calls := h.calls
  created o ho := Nat.lt_of_lt_of_le (h.created o ho) hfresh
  checked o ho := by
    rw [hsmall o ho.opened]
    exact h.checked o ho
  named o ho hns := by
    rw [hsmall o ho] at hns
    exact hnames o ho hns (h.named o ho hns)

/-- A process that moves: what it takes in hand is what the name refers to, and it looks at the
    size. -/
theorem ProcessInv.move (h : ProcessInv name sizeBytes ns p)
    (hcalls : ∀ call ∈ p'.call, call.name = name ∧ call.sizeBytes = sizeBytes)
    (hopened : ∀ o, p'.Uses Pc.opened o → p.Uses Pc.opened o ∨ ns.names name = some o)
    (hchecked : ∀ o, p'.Uses Pc.checked o → p.Uses Pc.checked o ∨ ¬ Small sizeBytes ns o) :
    ProcessInv name sizeBytes ns p' where
  calls := hcalls
  created o ho := (hopened o ho).elim (h.created o) (ns.named_lt name o)
  checked o ho := (hchecked o ho).elim (h.checked o) id
  named o ho hns := (hopened o ho).elim (fun hp => h.named o hp hns) id

/-- A system call of one process, seen from another one or from itself. -/
theorem ProcessInv.createOrOpen_frame {q : Process} {call : Call} {fails : Bool}
    (hq : ProcessInv name sizeBytes ns q) (hcall : q.call = some call)
    (hkeeps : ∀ o ∈ removed ns q (.step fails), Small sizeBytes ns o ∨ ¬ p.Uses Pc.opened o)
    (h : ProcessInv name sizeBytes ns p) :
    ProcessInv name sizeBytes (createOrOpen ns call.name call.sizeBytes fails call.pc).1 p := by
  obtain ⟨hname, hsize⟩ := hq.calls call hcall
  rw [hname, hsize]
  rcases createOrOpen_fst ns name sizeBytes fails call.pc with
    heq | ⟨attempt, hpc, heq⟩ | ⟨fd, hpc, heq⟩ | ⟨attempt, hpc, rfl, heq⟩ <;> rw [heq]
  · exact h
  · obtain ⟨hfresh, hsizes⟩ := ns.size_shmOpen name
    refine h.frame hfresh (fun o ho => ?_) fun o ho _ ho' => ?_
    · unfold Small
      rw [hsizes o (h.created o ho)]
    · -- the name refers to what this process has in hand, so nothing is created
      rw [Namespace.shmOpen_of_some ho']
      exact ho'
  · -- the size was right before, and it is right afterwards
    have hfd := hq.checked fd ((Process.uses_iff hcall).mpr (.inr (by rw [hpc]; rfl)))
    refine h.frame (Nat.le_refl _) (fun o _ => ?_) fun _ _ _ ho' => ho'
    by_cases ho : o = fd
    · rw [ho]
      refine iff_of_false ?_ hfd
      simp [Small, Namespace.ftruncate]
    · simp [Small, Namespace.ftruncate, ho]
  · refine h.frame (Nat.le_refl _) (fun _ _ => Iff.rfl) fun o ho hns ho' => ?_
    -- what this process has in hand would lose its name
    have hremoved : o ∈ removed ns q (.step false) := by
      simp [removed, hcall, hpc, hname, ho']
    exact ((hkeeps o hremoved).elim hns (absurd ho)).elim

/-- The move of the process after its system call. -/
theorem ProcessInv.createOrOpen_move {t : ι} {call : Call} {fails : Bool}
    (hcall : p.call = some call)
    (h : ProcessInv name sizeBytes (createOrOpen ns name sizeBytes fails call.pc).1 p) :
    ProcessInv name sizeBytes (createOrOpen ns name sizeBytes fails call.pc).1
      (p.proceed t call (createOrOpen ns name sizeBytes fails call.pc).2).1 := by
  refine h.move (fun call' hcall' => ?_) (fun o ho => ?_) fun o ho => ?_
  · obtain ⟨hname, hsize⟩ := Process.call_proceed hcall'
    rw [hname, hsize]
    exact h.calls call hcall
  · rw [Process.uses_iff hcall, or_assoc]
    exact (Process.uses_proceed.mp ho).imp_right createOrOpen_opened
  · rw [Process.uses_iff hcall, or_assoc]
    exact (Process.uses_proceed.mp ho).imp_right createOrOpen_checked

end

/-! ### All processes -/

section

variable [DecidableEq ι] {apple : Bool} {ns : Namespace} {name : Name} {sizeBytes : Nat}
  {tr : List (Event ι)} {c : Config ι Namespace Process}

/-- **Run lemma.** -/
theorem ProcessInv.of_run (run : (program ι apple ns).machine.RunIf
      (fun c a => CallsFor name sizeBytes a ∧ KeepsHeld sizeBytes c a) tr c) (t : ι) :
    ProcessInv name sizeBytes c.shared (c.threads t) := by
  refine Program.invariant (P := program ι apple ns)
    (I := fun _ c => ∀ t, ProcessInv name sizeBytes c.shared (c.threads t)) (fun t => ?_) ?_ run t
  · have hnone (f : Pc → Option Object) (o : Object) :
        ¬ Process.Uses f { segments := [], call := none } o := by simp [Process.Uses]
    refine ⟨fun call hcall => ?_, fun o ho => ?_, fun o ho => ?_, fun o ho => ?_⟩
    · exact absurd hcall (by simp [Program.machine, program])
    all_goals exact absurd ho (hnone _ o)
  · intro tr c t k ns' p' es inv hok h
    rcases next_cases h with ⟨rfl, rfl⟩ | ⟨n, size, out, rfl, rfl, rfl⟩ |
      ⟨call, fails, rfl, hcall, rfl, rfl⟩
    · exact Config.set_forall (p := fun _ => ProcessInv name sizeBytes _) (inv t) fun u _ => inv u
    · -- a call that starts has nothing in hand
      obtain ⟨hname, hsize⟩ := hok.1
      refine Config.set_forall (p := fun _ => ProcessInv name sizeBytes _)
        ((inv t).move (fun call hcall => ?_) (fun o ho => ?_) fun o ho => ?_) fun u _ => inv u
      · obtain rfl := Option.some.inj hcall
        exact ⟨Option.some.inj hname, hsize⟩
      · exact .inl (.inl (ho.resolve_right (by simp [Pc.opened])))
      · exact .inl (.inl (ho.resolve_right (by simp [Pc.checked])))
    · have hframe (u : ι) := (inv t).createOrOpen_frame hcall
        (fun o ho => (hok.2 o ho).imp_right fun hnot => hnot u) (inv u)
      obtain ⟨hname, hsize⟩ := (inv t).calls call hcall
      rw [hname, hsize] at hframe ⊢
      exact Config.set_forall (p := fun _ => ProcessInv name sizeBytes _)
        ((hframe t).createOrOpen_move hcall) fun u _ => hframe u

/-- **The agreement.** In every run of calls for one segment in which no object loses its name
    that a process has mapped, or can map. -/
theorem agree_of_run (run : (program ι apple ns).machine.RunIf
      (fun c a => CallsFor name sizeBytes a ∧ KeepsHeld sizeBytes c a) tr c) : Agree name c := by
  have hnamed (t : ι) (g : Segment) (hg : g ∈ (c.threads t).segments) :
      c.shared.names name = some g.object := by
    have inv := ProcessInv.of_run run t
    have hmem : g.object ∈ (c.threads t).segments.map Segment.object := List.mem_map_of_mem hg
    exact inv.named g.object (.inl hmem) (inv.checked g.object (.inl hmem))
  refine ⟨fun t u g hg g' hg' => ?_, hnamed⟩
  exact Option.some.inj ((hnamed t g hg).symm.trans (hnamed u g' hg'))

end

/-- A namespace in which one name is in use, for an object of one byte. -/
def leftover (name : Name) : Namespace where
  names := Function.update (fun _ => none) name (some 0)
  size _ := 1
  fresh := 1
  named_lt n o hn := by
    by_cases hname : n = name
    · rw [hname, Function.update_self] at hn
      exact Option.some.inj hn ▸ Nat.zero_lt_one
    · rw [Function.update_of_ne hname] at hn
      exact absurd hn (by simp)

instance (name : Name) (sizeBytes : Nat) :
    ∀ a : ι × Label, Decidable (CallsFor name sizeBytes a)
  | (_, .createOrOpen _ _ _) => inferInstanceAs (Decidable (_ ∧ _))
  | (_, .step _) => isTrue trivial

instance (n sizeBytes : Nat) (c : Config (Fin n) Namespace Process) (a : Fin n × Label) :
    Decidable (KeepsHeld sizeBytes c a) :=
  inferInstanceAs (Decidable (∀ o ∈ removed _ _ _, _ ∨ ∀ _, ¬ _))

/-- One process after the other: the first one replaces the object that is too small. -/
theorem agree_of_run_leftover : ∃ tr c,
    (program (Fin 2) false (leftover ['/', 'a'])).machine.RunIf
      (fun c a => CallsFor ['/', 'a'] 64 a ∧ KeepsHeld 64 c a) tr c ∧
    (c.threads 0).segments.map Segment.object = [1] ∧
    (c.threads 1).segments.map Segment.object = [1] ∧ Agree ['/', 'a'] c := by
  obtain ⟨tr, c, run, h⟩ := Machine.exists_runIf
    (M := (program (Fin 2) false (leftover ['/', 'a'])).machine)
    (A := fun c a => CallsFor ['/', 'a'] 64 a ∧ KeepsHeld 64 c a)
    (P := fun _ c => (c.threads 0).segments.map Segment.object = [1] ∧
      (c.threads 1).segments.map Segment.object = [1])
    ((0, Label.createOrOpen (some ['/', 'a']) 64 true) ::
      List.replicate 8 (0, Label.step false) ++
      (1, Label.createOrOpen (some ['/', 'a']) 64 true) ::
      List.replicate 3 (1, Label.step false)) (by decide +kernel)
  exact ⟨tr, c, run, h.1, h.2, agree_of_run run⟩

/-- **The split.** Both processes find the object too small.  The first one replaces it, and
    the second one unlinks the name of the new object and replaces that one, too. -/
theorem splitSegment : ∃ tr c,
    (program (Fin 2) false (leftover ['/', 'a'])).machine.RunIf
      (fun _ a => CallsFor ['/', 'a'] 64 a) tr c ∧
    (∀ t, (c.threads t).call = none) ∧ ¬ Agree ['/', 'a'] c := by
  obtain ⟨tr, c, run, ⟨h₀, h₁⟩, hcalls⟩ := Machine.exists_runIf
    (M := (program (Fin 2) false (leftover ['/', 'a'])).machine)
    (A := fun _ a => CallsFor ['/', 'a'] 64 a)
    (P := fun _ c => ((c.threads 0).segments.map Segment.object = [1] ∧
      (c.threads 1).segments.map Segment.object = [2]) ∧
      ∀ t, (c.threads t).call.isNone = true)
    ((0, Label.createOrOpen (some ['/', 'a']) 64 true) ::
      (1, Label.createOrOpen (some ['/', 'a']) 64 true) ::
      List.replicate 2 (0, Label.step false) ++ List.replicate 2 (1, Label.step false) ++
      List.replicate 6 (0, Label.step false) ++ List.replicate 6 (1, Label.step false))
    (by decide +kernel)
  refine ⟨tr, c, run, fun t => Option.isNone_iff_eq_none.mp (hcalls t), fun h => ?_⟩
  obtain ⟨g, hg, hg₁⟩ := List.mem_map.mp (h₀ ▸ List.mem_singleton_self 1)
  obtain ⟨g', hg', hg₂⟩ := List.mem_map.mp (h₁ ▸ List.mem_singleton_self 2)
  have heq := h.same 0 1 g hg g' hg'
  rw [hg₁, hg₂] at heq
  exact absurd heq (by decide)

end HopeThreading.SharedMemory
