import HopeThreading.Platform.SharedMemoryHandles
import HopeThreading.Transition.Simulation

namespace HopeThreading.SharedMemoryHandles

open Transition

open SharedMemory (Namespace Name Object Errno Pc Call)

/-!
# Shared memory — the objects behind the descriptors

What a process does with its descriptors is what `SharedMemory.lean` says that it does with objects:
every run in which no name is unlinked by `unlink_shared_memory` is, seen from the outside, a run of
that model (`descriptors_refine_of_run`), with the same namespace, the same returns and the same
objects mapped.  Closing a segment is not seen there.
-/

variable {ι υ : Type*} [DecidableEq υ]

/-! ### The relation -/

/-- The place in the call, with the objects for the descriptors. -/
def translate (h : Handles) : Pc → Option Pc
  | .shmOpen attempt => some (.shmOpen attempt)
  | .fstat attempt fd => (h.fds fd).map (.fstat attempt)
  | .ftruncate fd => (h.fds fd).map .ftruncate
  | .close attempt fd => (h.fds fd).map (.close attempt)
  | .shmUnlink attempt => some (.shmUnlink attempt)
  | .mmap fd createdNew => (h.fds fd).map (.mmap · createdNew)
  | .closeFailed fd => (h.fds fd).map .closeFailed

/-- A filled segment, without its descriptor and its address. -/
def SharedMemorySegment.onObject (segment : SharedMemorySegment) (o : Object) :
    SharedMemory.Segment :=
  { object := o, size := segment.size, createdNew := segment.createdNew }

/-- What an access leads to, with the descriptor replaced by its object. -/
def Outcome.translate (h : Handles) : Outcome → Option SharedMemory.Outcome
  | .goesOn pc => (SharedMemoryHandles.translate h pc).map .goesOn
  | .failed errno => some (.failed errno)
  | .mapped o segment => some (.mapped (segment.onObject o))

/-- What is seen of a return. -/
def observe : Event ι υ → Option (SharedMemory.Event ι)
  | .failed t errno => some (.failed t errno)
  | .mapped t _ o segment => some (.mapped t (segment.onObject o))
  | .closed _ _ | .unlinked _ _ => none

/-- The call that a process is in; closing a segment is not one. -/
def CallOf (p : Process υ) (call' : Option Call) : Prop :=
  match p.running with
  | some (.creating call _) =>
    ∃ pc, translate p.handles call.pc = some pc ∧ call' = some { call with pc := pc }
  | some (.unmapping _) | some (.closing _) | none => call' = none

/-- A process, and the same with objects only: it is in the same call, and what it maps is that
    of a segment. -/
structure Related (p : Process υ) (q : SharedMemory.Process) : Prop where
  call : CallOf p q.call
  maps : ∀ data m, p.handles.maps data = some m →
    ∃ g ∈ q.segments, g.object = m.object ∧ g.size = m.size

/-- Nobody calls `unlink_shared_memory`. -/
def NoUnlink (_ : Config ι Namespace (Process υ)) (a : ι × Label υ) : Prop :=
  match a.2 with
  | .unlinkSharedMemory _ _ => False
  | _ => True

/-! ### One system call -/

section

variable {ns ns' : Namespace} {h h' : Handles} {name : Name} {sizeBytes : Nat}
  {answer : Option Nat} {pc pc' : Pc} {out : Outcome}

omit [DecidableEq υ] in
/-- **Simulation lemma.** A system call on a descriptor is one on its object. -/
theorem createOrOpen_translate (hpc : translate h pc = some pc')
    (hstep : createOrOpen ns h name sizeBytes answer pc = some (ns', h', out)) :
    ∃ out', out.translate h' = some out' ∧
      SharedMemory.createOrOpen ns name sizeBytes answer.isNone pc' = (ns', out') := by
  cases pc with
  | shmOpen attempt =>
    -- the new descriptor is open on the object that the name is bound to now
    cases hpc
    cases answer with
    | none =>
      cases hstep
      exact ⟨_, rfl, rfl⟩
    | some fd =>
      simp only [createOrOpen] at hstep
      split at hstep
      · cases hstep
        refine ⟨.goesOn (.fstat attempt (ns.shmOpen name).2), ?_, rfl⟩
        simp [Outcome.translate, translate, Handles.opened]
      · exact absurd hstep (by simp)
  | fstat attempt fd =>
    -- a descriptor in hand is open, so both models look at the size of one object
    obtain ⟨o, ho, rfl⟩ := Option.map_eq_some_iff.mp hpc
    simp only [createOrOpen, ho] at hstep
    simp only [SharedMemory.createOrOpen]
    cases answer with
    | none =>
      cases hstep
      exact ⟨.goesOn (.closeFailed o), by simp [Outcome.translate, translate, ho], rfl⟩
    | some n =>
      simp only at hstep
      rw [if_neg (by simp)]
      split at hstep
      · rename_i hzero
        cases hstep
        rw [if_pos hzero]
        exact ⟨.goesOn (.ftruncate o), by simp [Outcome.translate, translate, ho], rfl⟩
      · rename_i hzero
        rw [if_neg hzero]
        split at hstep
        · rename_i hsize
          cases hstep
          rw [if_pos hsize]
          exact ⟨.goesOn (.close attempt o), by simp [Outcome.translate, translate, ho], rfl⟩
        · rename_i hsize
          cases hstep
          rw [if_neg hsize]
          exact ⟨.goesOn (.mmap o false), by simp [Outcome.translate, translate, ho], rfl⟩
  | ftruncate fd =>
    -- here too the descriptor stands for its object
    obtain ⟨o, ho, rfl⟩ := Option.map_eq_some_iff.mp hpc
    simp only [createOrOpen, ho] at hstep
    simp only [SharedMemory.createOrOpen]
    cases answer with
    | none =>
      cases hstep
      exact ⟨.goesOn (.closeFailed o), by simp [Outcome.translate, translate, ho], rfl⟩
    | some n =>
      simp only at hstep
      split at hstep
      · rename_i hbig
        cases hstep
        rw [if_pos (by simp [hbig])]
        exact ⟨.goesOn (.closeFailed o), by simp [Outcome.translate, translate, ho], rfl⟩
      · rename_i hbig
        cases hstep
        rw [if_neg (by simp [hbig])]
        exact ⟨.goesOn (.mmap o true), by simp [Outcome.translate, translate, ho], rfl⟩
  | close attempt fd =>
    obtain ⟨o, ho, rfl⟩ := Option.map_eq_some_iff.mp hpc
    simp only [createOrOpen] at hstep
    simp only [SharedMemory.createOrOpen]
    split at hstep
    · rename_i hfirst
      cases hstep
      rw [if_pos hfirst]
      exact ⟨_, rfl, rfl⟩
    · rename_i hfirst
      cases hstep
      rw [if_neg hfirst]
      exact ⟨_, rfl, rfl⟩
  | shmUnlink attempt =>
    -- nothing is in hand: the two models say the same with the answer turned round
    cases hpc
    cases hstep
    simp only [SharedMemory.createOrOpen, enterAttempt, SharedMemory.enterAttempt]
    have hns : (if answer.isNone = true then ns else ns.shmUnlink name) =
        if answer.isSome = true then ns.shmUnlink name else ns := by
      cases answer <;> rfl
    rw [hns]
    split
    · exact ⟨_, rfl, rfl⟩
    · exact ⟨_, rfl, rfl⟩
  | mmap fd createdNew =>
    -- the mapping is of the object that the descriptor is open on
    obtain ⟨o, ho, rfl⟩ := Option.map_eq_some_iff.mp hpc
    simp only [createOrOpen, mapFd, ho] at hstep
    simp only [SharedMemory.createOrOpen]
    cases answer with
    | none =>
      cases hstep
      exact ⟨.goesOn (.closeFailed o), by simp [Outcome.translate, translate, ho], rfl⟩
    | some data =>
      simp only at hstep
      split at hstep
      · cases hstep
        exact ⟨_, rfl, rfl⟩
      · exact absurd hstep (by simp)
  | closeFailed fd =>
    obtain ⟨o, ho, rfl⟩ := Option.map_eq_some_iff.mp hpc
    cases hstep
    exact ⟨_, rfl, rfl⟩

end

/-! ### One step -/

section

variable {apple : Bool} {t : ι} {ns ns' : Namespace} {p p' : Process υ} {q : SharedMemory.Process}
  {es : List (Event ι υ)}

/-- A call fails its checks, or starts, on both sides. -/
theorem Related.startCall (rel : Related p q) (ns : Namespace) (hcall : p.running = none)
    {name : Option Name} {sizeBytes : Nat} {out : Option υ}
    (hstart : startCall apple t p name sizeBytes out = (p', es)) :
    ∃ q', SharedMemory.next apple t ns q (.createOrOpen name sizeBytes out.isSome) =
      some (ns, q', es.filterMap observe) ∧ Related p' q' := by
  have hidle : q.call = none := by
    have h := rel.call
    rwa [CallOf, hcall] at h
  have hnext : SharedMemory.next apple t ns q (.createOrOpen name sizeBytes out.isSome) =
      some (ns, SharedMemory.startCall apple t q name sizeBytes out.isSome) := by
    simp only [SharedMemory.next, hidle]
  rw [hnext]
  unfold SharedMemoryHandles.startCall at hstart
  split at hstart
  · simp only [SharedMemory.startCall, Option.isSome_some, Bool.not_true, Bool.false_or,
      decide_eq_true_eq]
    split at hstart
    · rename_i hsize
      cases hstart
      rw [if_pos hsize]
      exact ⟨q, rfl, rel⟩
    · rename_i hsize
      rw [if_neg hsize]
      split at hstart
      · rename_i hname
        cases hstart
        rw [if_pos hname]
        exact ⟨q, rfl, rel⟩
      · rename_i hname
        cases hstart
        rw [if_neg hname]
        exact ⟨_, rfl, ⟨_, rfl, rfl⟩, rel.maps⟩
  · rename_i hnull
    cases hstart
    cases name with
    | none => exact ⟨q, rfl, rel⟩
    | some name =>
      cases out with
      | none => exact ⟨q, rfl, rel⟩
      | some out => exact absurd rfl (hnull name out rfl)

/-- A system call of `create_or_open_shared_memory`. -/
theorem Related.createOrOpen (rel : Related p q) (apple : Bool) {call : Call} {out : υ}
    {answer : Option Nat} {h : Handles} {outcome : Outcome}
    (hcall : p.running = some (.creating call out))
    (hstep : createOrOpen ns p.handles call.name call.sizeBytes answer call.pc =
      some (ns', h, outcome)) (hproceed : p.proceed t call out h outcome = (p', es)) :
    ∃ q', SharedMemory.next apple t ns q (.step answer.isNone) =
      some (ns', q', es.filterMap observe) ∧ Related p' q' := by
  obtain ⟨pc, hpc, hq⟩ : ∃ pc, translate p.handles call.pc = some pc ∧
      q.call = some { call with pc := pc } := by
    have h := rel.call
    rwa [CallOf, hcall] at h
  obtain ⟨out', hout', hstep'⟩ := createOrOpen_translate hpc hstep
  -- the call on objects does the same step, so it has the same next step
  have hnext : SharedMemory.next apple t ns q (.step answer.isNone) =
      some (ns', q.proceed t { call with pc := pc } out') := by
    simp only [SharedMemory.next, hq, hstep']
  rw [hnext]
  -- only the last access of a successful call maps anything
  have hmaps : (∀ o segment, outcome ≠ .mapped o segment) → h.maps = p.handles.maps := by
    intro hnot
    rcases createOrOpen_cases hstep with ⟨rfl, -⟩ | ⟨fd, o, -, -, rfl, -⟩ | ⟨fd, -, rfl, -⟩ |
      ⟨fd, createdNew, data, o, -, -, -, -, rfl⟩
    · rfl
    · rfl
    · rfl
    · exact absurd rfl (hnot _ _)
  cases outcome with
  | goesOn pc₁ =>
    obtain ⟨pc₂, hpc₂, rfl⟩ := Option.map_eq_some_iff.mp hout'
    cases hproceed
    refine ⟨_, rfl, ⟨pc₂, hpc₂, rfl⟩, ?_⟩
    show ∀ data m, h.maps data = some m → _
    rw [hmaps (by simp)]
    exact rel.maps
  | failed errno =>
    cases hout'
    cases hproceed
    refine ⟨_, rfl, rfl, ?_⟩
    show ∀ data m, h.maps data = some m → _
    rw [hmaps (by simp)]
    exact rel.maps
  | mapped o segment =>
    cases hout'
    cases hproceed
    refine ⟨_, rfl, rfl, ?_⟩
    rcases createOrOpen_cases hstep with ⟨-, -, hnot⟩ | ⟨_, _, -, -, -, -, hnot⟩ |
      ⟨_, -, -, -, hnot⟩ | ⟨fd, createdNew, data, o', -, -, -, rfl, heq⟩
    · exact absurd rfl (hnot _ _)
    · exact absurd rfl (hnot _ _)
    · exact absurd rfl (hnot _ _)
    · cases heq
      intro data' m hm
      have hm : Function.update p.handles.maps data
          (some { object := o, size := call.sizeBytes }) data' = some m := hm
      by_cases hdata : data' = data
      · -- the new mapping is that of the new segment
        rw [hdata, Function.update_self] at hm
        obtain rfl := Option.some.inj hm
        exact ⟨_, List.mem_append_right _ (List.mem_singleton_self _), rfl, rfl⟩
      · rw [Function.update_of_ne hdata] at hm
        obtain ⟨g, hg, hsame⟩ := rel.maps data' m hm
        exact ⟨g, List.mem_append_left _ hg, hsame⟩

omit [DecidableEq υ] in
/-- A process that is not in `create_or_open_shared_memory`. -/
theorem callOf_none (h : CallOf p none) {call : Option Call} : CallOf p call ↔ call = none := by
  unfold CallOf at h ⊢
  cases hrunning : p.running with
  | none => exact Iff.rfl
  | some r =>
    cases r with
    | creating call out =>
      rw [hrunning] at h
      obtain ⟨pc, -, hsome⟩ := h
      exact absurd hsome (by simp)
    | unmapping seg => exact Iff.rfl
    | closing seg => exact Iff.rfl

omit [DecidableEq υ] in
/-- A part of `close_shared_memory`: no mapping is added. -/
theorem Related.closing (rel : Related p q) (hcall : CallOf p none) (hcall' : CallOf p' none)
    (hmaps : ∀ data m, p'.handles.maps data = some m → p.handles.maps data = some m) :
    Related p' q :=
  ⟨(callOf_none hcall').mpr ((callOf_none hcall).mp rel.call),
    fun data m hm => rel.maps data m (hmaps data m hm)⟩

end

/-- **Refinement.** Every run without `unlink_shared_memory` has one of the model with objects
    beside it, with the same namespace and the same returns. -/
theorem descriptors_refine_of_run [DecidableEq ι] {apple : Bool} {ns : Namespace}
    {tr : List (Event ι υ)} {c : Config ι Namespace (Process υ)}
    (run : (program ι υ apple ns).machine.RunIf NoUnlink tr c) :
    ∃ x, (SharedMemory.program ι apple ns).machine.Run (tr.filterMap observe) x ∧
      x.shared = c.shared ∧ ∀ t, Related (c.threads t) (x.threads t) := by
  refine run.simulate (N := (SharedMemory.program ι apple ns).machine) Machine.Anytime observe
    (fun _ c x => x.shared = c.shared ∧ ∀ t, Related (c.threads t) (x.threads t)) ?_ ?_
  · exact ⟨rfl, fun t => ⟨rfl, nofun⟩⟩
  · intro tr c a c' es x _ _ hR allowed step
    obtain ⟨t, k⟩ := a
    obtain ⟨hshared, rel⟩ := hR
    obtain ⟨ns', p', hnext, rfl⟩ := Program.next_cases step
    have hset {q : SharedMemory.Process} {ns₁ : Namespace} (hrel : Related p' q) (hns : ns₁ = ns') :
        (x.set t ns₁ q).shared = (c.set t ns' p').shared ∧
          ∀ u, Related ((c.set t ns' p').threads u) ((x.set t ns₁ q).threads u) := by
      refine ⟨hns, Config.set_forall (p := fun u l => Related l ((x.set t ns₁ q).threads u)) ?_ ?_⟩
      · rw [Config.set_threads_self]
        exact hrel
      · intro u hu
        rw [Config.set_threads_of_ne hu]
        exact rel u
    have hstay (hrel : Related p' (x.threads t)) (hns : ns' = c.shared) :
        x.shared = (c.set t ns' p').shared ∧
          ∀ u, Related ((c.set t ns' p').threads u) (x.threads u) := by
      have h := hset hrel (hshared.trans hns.symm)
      rwa [Config.set_self] at h
    -- of the calls, `create_or_open` is seen on the objects; the accesses of `close` are not
    rcases SharedMemoryHandles.next_cases hnext with
      ⟨name, sizeBytes, out, rfl, hcall, rfl, hstart⟩ | ⟨seg, -, hcall, rfl, rfl, rfl⟩ |
      ⟨name, fails, rfl, -⟩ | ⟨answer, call, out, h, outcome, hcall, hstep, hproceed⟩ |
      ⟨seg, hcall, rfl, rfl, rfl⟩ | ⟨seg, hcall, rfl, rfl, rfl⟩
    · obtain ⟨q, hq, hrel⟩ := (rel t).startCall x.shared hcall hstart
      have hmove := Program.machine_next (P := SharedMemory.program ι apple ns) (t := t)
        (k := .createOrOpen name sizeBytes out.isSome) hq
      exact ⟨_, .step trivial hmove, hset hrel hshared⟩
    · have hnone : CallOf (c.threads t) none := by
        rw [CallOf, hcall]
      exact ⟨x, .stay, hstay ((rel t).closing hnone rfl fun _ _ => id) rfl⟩
    · exact allowed.elim
    · rw [← hshared] at hstep
      obtain ⟨q, hq, hrel⟩ := (rel t).createOrOpen apple hcall hstep hproceed
      have hmove := Program.machine_next (P := SharedMemory.program ι apple ns) (t := t)
        (k := .step answer.isNone) hq
      exact ⟨_, .step trivial hmove, hset hrel rfl⟩
    · have hnone : CallOf (c.threads t) none := by
        rw [CallOf, hcall]
      exact ⟨x, .stay, hstay ((rel t).closing hnone rfl fun _ _ => Process.of_unmap) rfl⟩
    · have hnone : CallOf (c.threads t) none := by
        rw [CallOf, hcall]
      refine ⟨x, .stay, hstay ((rel t).closing hnone rfl fun _ _ hm => ?_) rfl⟩
      rwa [Process.closeFd_maps] at hm

instance (c : Config ι Namespace (Process υ)) : ∀ a : ι × Label υ, Decidable (NoUnlink c a)
  | (_, .unlinkSharedMemory _ _) => isFalse id
  | (_, .createOrOpen _ _ _) | (_, .closeSharedMemory _) | (_, .step _) => isTrue trivial

/-- One process maps the object and closes it again, and another one maps it, too. -/
theorem descriptors_refine_of_run_two : ∃ tr c x,
    (program (Fin 2) Unit false noObjects).machine.RunIf NoUnlink tr c ∧
    ((c.threads 0).handles.maps 4096).isNone = true ∧
    ((c.threads 1).handles.maps 8192).isSome = true ∧
    (SharedMemory.program (Fin 2) false noObjects).machine.Run (tr.filterMap observe) x ∧
    x.shared = c.shared ∧ ∀ t, Related (c.threads t) (x.threads t) := by
  obtain ⟨tr, c, run, hclosed, hmapped⟩ := Machine.exists_runIf
    (M := (program (Fin 2) Unit false noObjects).machine) (A := NoUnlink)
    (P := fun _ c => ((c.threads 0).handles.maps 4096).isNone = true ∧
      ((c.threads 1).handles.maps 8192).isSome = true)
    ([(0, .createOrOpen (some ['/', 'a']) 64 (some ())), (0, .step (some 3)),
      (0, .step (some 0)), (0, .step (some 0)), (0, .step (some 4096)),
      (1, .createOrOpen (some ['/', 'a']) 64 (some ())), (1, .step (some 3)),
      (0, .closeSharedMemory ()), (0, .step none), (1, .step (some 0)), (0, .step none),
      (1, .step (some 8192))])
    (by decide +kernel)
  obtain ⟨x, run', hshared, rel⟩ := descriptors_refine_of_run run
  exact ⟨tr, c, x, run, hclosed, hmapped, run', hshared, rel⟩

end HopeThreading.SharedMemoryHandles
