import HopeThreading.Platform.SharedMemoryAgreement
import HopeThreading.Platform.SharedMemoryHandles

namespace HopeThreading.SharedMemoryHandles

open Transition

open SharedMemory (Namespace Name Object Errno Pc Call)

/-!
# Shared memory — is all of a mapping there?

An access behind the end of the object ends the process, even inside of what is mapped.  The
function compares the size of the object with the one asked for, but a process that has found the
object empty sets the size later, and does not look again.

When the calls for a name all ask for one size, as they should, every mapping is backed by its
object for as long as it exists (`backed_of_run`): whatever objects were left over, and whatever is
closed or unlinked meanwhile.  With two sizes both calls can succeed, and the larger mapping loses
its end (`shrunkMapping`).
-/

variable {ι υ : Type*} [DecidableEq υ]

/-- The calls for a name ask for one size. -/
def SizeByName (size : Name → Nat) (a : ι × Label υ) : Prop :=
  match a.2 with
  | .createOrOpen (some name) sizeBytes _ => sizeBytes = size name
  | _ => True

/-- Every mapping ends where its object ends, or before. -/
def Backed (c : Config ι Namespace (Process υ)) : Prop :=
  ∀ t data m, (c.threads t).handles.maps data = some m → m.size ≤ c.shared.size m.object

/-! ### The invariant -/

section

variable (size : Name → Nat) (own : Object → Name) (ns : Namespace)

/-- The objects belong to the names that refer to them. -/
def Names : Prop := ∀ name o, ns.names name = some o → own o = name

/-- What is open exists, and what is mapped has the size of its name. -/
structure HandlesSized (h : Handles) : Prop where
  opened : ∀ fd o, h.fds fd = some o → o < ns.fresh
  mapped : ∀ data m, h.maps data = some m →
    m.object < ns.fresh ∧ m.size = size (own m.object) ∧ m.size ≤ ns.size m.object

/-- A call has an object of its name in hand, and before it maps it that has the right size. -/
structure CallSized (h : Handles) (call : Call) : Prop where
  sizeBytes : call.sizeBytes = size call.name
  owner : ∀ fd o, inHand call.pc = some fd → h.fds fd = some o → own o = call.name
  checked : ∀ fd createdNew o, call.pc = .mmap fd createdNew → h.fds fd = some o →
    call.sizeBytes ≤ ns.size o

/-- Everything that a process holds, and its call, is backed by objects large enough. -/
structure ProcessSized (p : Process υ) : Prop where
  handles : HandlesSized size own ns p.handles
  call : ∀ call out, p.running = some (.creating call out) →
    CallSized size own ns p.handles call

/-- The objects that are there keep their names and sizes, or get the size of their name. -/
structure Grows (own' : Object → Name) (ns' : Namespace) : Prop where
  fresh : ns.fresh ≤ ns'.fresh
  owner : ∀ o < ns.fresh, own' o = own o
  sizes : ∀ o < ns.fresh, ns'.size o = ns.size o ∨ ns'.size o = size (own o)

end

section

variable {size : Name → Nat} {own own' : Object → Name} {ns ns' : Namespace} {h h' : Handles}
  {call : Call} {p p' : Process υ}

/-- A step that creates no object and changes no size lets the objects grow. -/
theorem Grows.refl (hsize : ns'.size = ns.size) (hfresh : ns'.fresh = ns.fresh) :
    Grows size own ns own ns' :=
  ⟨Nat.le_of_eq hfresh.symm, fun _ _ => rfl, fun _ _ => .inl (congrFun hsize _)⟩

/-- A size that was right stays right. -/
theorem Grows.le (hg : Grows size own ns own' ns') {n : Nat} {o : Object} (ho : o < ns.fresh)
    (hn : n = size (own o)) (hle : n ≤ ns.size o) : n ≤ ns'.size o := by
  rcases hg.sizes o ho with hsize | hsize
  · rw [hsize]
    exact hle
  · rw [hsize]
    exact Nat.le_of_eq hn

/-- What a process holds stays backed when objects grow. -/
theorem HandlesSized.grow (hh : HandlesSized size own ns h) (hg : Grows size own ns own' ns') :
    HandlesSized size own' ns' h where
  opened fd o ho := Nat.lt_of_lt_of_le (hh.opened fd o ho) hg.fresh
  mapped data m hm := by
    obtain ⟨hlt, hsize, hle⟩ := hh.mapped data m hm
    rw [hg.owner _ hlt]
    exact ⟨Nat.lt_of_lt_of_le hlt hg.fresh, hsize, hg.le hlt hsize hle⟩

/-- What a call has gathered so far stays backed when objects grow. -/
theorem CallSized.grow (hc : CallSized size own ns h call) (hh : HandlesSized size own ns h)
    (hg : Grows size own ns own' ns') : CallSized size own' ns' h call where
  sizeBytes := hc.sizeBytes
  owner fd o hfd ho := by
    rw [hg.owner o (hh.opened fd o ho)]
    exact hc.owner fd o hfd ho
  checked fd createdNew o hpc ho := by
    have howner : own o = call.name := hc.owner fd o (by rw [hpc]; rfl) ho
    exact hg.le (hh.opened fd o ho) (by rw [howner]; exact hc.sizeBytes)
      (hc.checked fd createdNew o hpc ho)

omit [DecidableEq υ] in
/-- A process that does nothing stays backed when objects grow. -/
theorem ProcessSized.grow (hp : ProcessSized size own ns p) (hg : Grows size own ns own' ns') :
    ProcessSized size own' ns' p :=
  ⟨hp.handles.grow hg, fun call out hcall => (hp.call call out hcall).grow hp.handles hg⟩

/-! ### The system calls -/

/-- `shm_open` binds its own name only. -/
theorem shmOpen_names_of_ne {name n : Name} (hne : n ≠ name) :
    (ns.shmOpen name).1.names n = ns.names n := by
  unfold Namespace.shmOpen
  split
  · rfl
  · exact Function.update_of_ne hne ..

/-- A name that is bound to nothing gets a fresh object. -/
theorem shmOpen_of_none {name : Name} (hname : ns.names name = none) :
    (ns.shmOpen name).2 = ns.fresh := by
  unfold Namespace.shmOpen
  split
  · rename_i o ho
    exact absurd (hname.symm.trans ho) (by simp)
  · rfl

/-- `shm_open`: a new object gets the name that it is created for. -/
theorem Names.shmOpen (hn : Names own ns) (size : Name → Nat) (name : Name) :
    ∃ own', Names own' (ns.shmOpen name).1 ∧ Grows size own ns own' (ns.shmOpen name).1 ∧
      own' (ns.shmOpen name).2 = name ∧ (ns.shmOpen name).2 < (ns.shmOpen name).1.fresh := by
  have hnamed := ns.names_shmOpen name
  have hlt := (ns.shmOpen name).1.named_lt name _ hnamed
  obtain ⟨hfresh, hsizes⟩ := ns.size_shmOpen name
  cases hname : ns.names name with
  | some o =>
    rw [SharedMemory.Namespace.shmOpen_of_some hname] at hlt ⊢
    exact ⟨own, hn, Grows.refl rfl rfl, hn name o hname, hlt⟩
  | none =>
    have hnew := shmOpen_of_none hname
    refine ⟨Function.update own ns.fresh name, fun n o ho => ?_, ⟨hfresh, fun o ho => ?_,
      fun o ho => .inl (hsizes o ho)⟩, by rw [hnew, Function.update_self], hlt⟩
    · by_cases hne : n = name
      · rw [hne, hnamed, hnew] at ho
        rw [hne, ← Option.some.inj ho, Function.update_self]
      · rw [shmOpen_names_of_ne hne] at ho
        rw [Function.update_of_ne (Nat.ne_of_lt (ns.named_lt n o ho)), hn n o ho]
    · exact Function.update_of_ne (Nat.ne_of_lt ho) ..

/-- `shm_unlink`. -/
theorem Names.shmUnlink (hn : Names own ns) (name : Name) : Names own (ns.shmUnlink name) := by
  intro n o ho
  have ho : Function.update ns.names name none n = some o := ho
  by_cases hne : n = name
  · rw [hne, Function.update_self] at ho
    exact absurd ho (by simp)
  · rw [Function.update_of_ne hne] at ho
    exact hn n o ho

/-- Closing a descriptor leaves the mappings and the other descriptors backed. -/
theorem HandlesSized.close (hh : HandlesSized size own ns h) (fd : Fd) :
    HandlesSized size own ns (h.close fd) where
  opened fd' o ho := by
    have ho : Function.update h.fds fd none fd' = some o := ho
    by_cases hfd : fd' = fd
    · rw [hfd, Function.update_self] at ho
      exact absurd ho (by simp)
    · rw [Function.update_of_ne hfd] at ho
      exact hh.opened fd' o ho
  mapped := hh.mapped

/-- A descriptor of an object that exists. -/
theorem HandlesSized.openFd (hh : HandlesSized size own ns h) {o : Object} (ho : o < ns.fresh)
    (fd : Fd) : HandlesSized size own ns (h.opened fd o) where
  opened fd' o' ho' := by
    have ho' : Function.update h.fds fd (some o) fd' = some o' := ho'
    by_cases hfd : fd' = fd
    · rw [hfd, Function.update_self] at ho'
      exact Option.some.inj ho' ▸ ho
    · rw [Function.update_of_ne hfd] at ho'
      exact hh.opened fd' o' ho'
  mapped := hh.mapped

/-- A mapping of the size that the name of its object has. -/
theorem HandlesSized.mapData (hh : HandlesSized size own ns h) {m : Mapping}
    (hm : m.object < ns.fresh ∧ m.size = size (own m.object) ∧ m.size ≤ ns.size m.object)
    (data : Addr) : HandlesSized size own ns (h.mapped data m) where
  opened := hh.opened
  mapped data' m' hm' := by
    have hm' : Function.update h.maps data (some m) data' = some m' := hm'
    by_cases hdata : data' = data
    · rw [hdata, Function.update_self] at hm'
      exact Option.some.inj hm' ▸ hm
    · rw [Function.update_of_ne hdata] at hm'
      exact hh.mapped data' m' hm'

/-- `ftruncate` to the size of the name that the object belongs to. -/
theorem Grows.ftruncate {o : Object} {n : Nat} (hn : n = size (own o)) :
    Grows size own ns own (ns.ftruncate o n) := by
  refine ⟨Nat.le_refl _, fun _ _ => rfl, fun o' _ => ?_⟩
  by_cases heq : o' = o
  · right
    rw [heq, ← hn]
    exact Function.update_self ..
  · exact .inl (Function.update_of_ne heq ..)

/-- A call that goes on with what it has in hand. -/
theorem CallSized.goOn (hc : CallSized size own ns h call) {pc : Pc}
    (hhand : inHand pc = inHand call.pc)
    (hchecked : ∀ fd createdNew o, pc = .mmap fd createdNew → h.fds fd = some o →
      call.sizeBytes ≤ ns.size o) : CallSized size own ns h { call with pc := pc } where
  sizeBytes := hc.sizeBytes
  owner fd o hfd := hc.owner fd o (hhand ▸ hfd)
  checked := hchecked

/-- A call that has nothing in hand. -/
theorem CallSized.nothing {pc : Pc} (hsize : call.sizeBytes = size call.name)
    (hnone : inHand pc = none) : CallSized size own ns h { call with pc := pc } where
  sizeBytes := hsize
  owner fd o hfd := absurd (hnone.symm.trans hfd) (by simp)
  checked fd createdNew o hpc := absurd hnone (by
    have hpc : pc = .mmap fd createdNew := hpc
    rw [hpc]
    simp [inHand])

/-- A system call of `create_or_open_shared_memory`. -/
theorem createOrOpen_sized (hn : Names own ns) (hh : HandlesSized size own ns h)
    (hc : CallSized size own ns h call) {answer : Option Nat} {outcome : Outcome}
    (hstep : createOrOpen ns h call.name call.sizeBytes answer call.pc =
      some (ns', h', outcome)) :
    ∃ own', Names own' ns' ∧ Grows size own ns own' ns' ∧ HandlesSized size own' ns' h' ∧
      ∀ pc, outcome = .goesOn pc → CallSized size own' ns' h' { call with pc := pc } := by
  -- most system calls do not change the objects
  have hgo {h' : Handles} {pc : Pc} (hh' : HandlesSized size own ns h')
      (hc' : CallSized size own ns h' { call with pc := pc }) :
      ∃ own', Names own' ns ∧ Grows size own ns own' ns ∧ HandlesSized size own' ns h' ∧
        ∀ pc', Outcome.goesOn pc = .goesOn pc' →
          CallSized size own' ns h' { call with pc := pc' } :=
    ⟨own, hn, Grows.refl rfl rfl, hh', fun _ heq => Outcome.goesOn.inj heq ▸ hc'⟩
  have hreturn {h' : Handles} {outcome : Outcome} (hh' : HandlesSized size own ns h')
      (hnot : ∀ pc, outcome ≠ .goesOn pc) :
      ∃ own', Names own' ns ∧ Grows size own ns own' ns ∧ HandlesSized size own' ns h' ∧
        ∀ pc, outcome = .goesOn pc → CallSized size own' ns h' { call with pc := pc } :=
    ⟨own, hn, Grows.refl rfl rfl, hh', fun pc heq => absurd heq (hnot pc)⟩
  cases hpc : call.pc with
  | shmOpen attempt =>
    rw [hpc] at hstep
    cases answer with
    | none =>
      cases hstep
      exact hreturn hh (by simp)
    | some fd =>
      simp only [createOrOpen] at hstep
      split at hstep
      · cases hstep
        obtain ⟨own', hn', hg, howner, hlt⟩ := hn.shmOpen size call.name
        refine ⟨own', hn', hg, (hh.grow hg).openFd hlt fd, fun pc heq => ?_⟩
        cases heq
        refine ⟨hc.sizeBytes, fun fd' o hfd ho => ?_, by simp⟩
        cases hfd
        have ho : Function.update h.fds fd (some (ns.shmOpen call.name).2) fd = some o := ho
        rw [Function.update_self] at ho
        exact Option.some.inj ho ▸ howner
      · exact absurd hstep (by simp)
  | fstat attempt fd =>
    rw [hpc] at hstep
    simp only [createOrOpen] at hstep
    split at hstep
    · rename_i o ho
      split at hstep
      · cases hstep
        exact hgo hh (hc.goOn (by rw [hpc]; rfl) (by simp))
      · split at hstep
        · cases hstep
          exact hgo hh (hc.goOn (by rw [hpc]; rfl) (by simp))
        · rename_i hsize
          cases hstep
          refine hgo hh (hc.goOn (by rw [hpc]; rfl) fun fd' createdNew o' heq ho' => ?_)
          cases heq
          obtain rfl := Option.some.inj (ho.symm.trans ho')
          exact Nat.le_of_not_lt hsize
    · cases hstep
      exact hgo hh (hc.goOn (by rw [hpc]; rfl) (by simp))
  | ftruncate fd =>
    rw [hpc] at hstep
    simp only [createOrOpen] at hstep
    split at hstep
    · rename_i o ho
      split at hstep
      · cases hstep
        exact hgo hh (hc.goOn (by rw [hpc]; rfl) (by simp))
      · cases hstep
        -- the object gets the size of the name it belongs to
        have howner : own o = call.name := hc.owner fd o (by rw [hpc]; rfl) ho
        have hg : Grows size own ns own (ns.ftruncate o call.sizeBytes) :=
          Grows.ftruncate (howner ▸ hc.sizeBytes)
        refine ⟨own, hn, hg, hh.grow hg, fun pc heq => Outcome.goesOn.inj heq ▸ ?_⟩
        refine (hc.grow hh hg).goOn (by rw [hpc]; rfl) fun fd' createdNew o' heq ho' => ?_
        cases heq
        obtain rfl := Option.some.inj (ho.symm.trans ho')
        have hself : Function.update ns.size o call.sizeBytes o = call.sizeBytes :=
          Function.update_self ..
        exact Nat.le_of_eq hself.symm
    · cases hstep
      exact hgo hh (hc.goOn (by rw [hpc]; rfl) (by simp))
  | close attempt fd =>
    rw [hpc] at hstep
    simp only [createOrOpen] at hstep
    split at hstep
    · cases hstep
      exact hgo (hh.close fd) (.nothing hc.sizeBytes rfl)
    · cases hstep
      exact hreturn (hh.close fd) (by simp)
  | shmUnlink attempt =>
    rw [hpc] at hstep
    cases hstep
    have hg : Grows size own ns own (if answer.isSome then ns.shmUnlink call.name else ns) := by
      split
      · exact Grows.refl rfl rfl
      · exact Grows.refl rfl rfl
    refine ⟨own, ?_, hg, hh.grow hg, fun pc heq => ?_⟩
    · split
      · exact hn.shmUnlink call.name
      · exact hn
    · unfold enterAttempt at heq
      split at heq
      · cases heq
        exact .nothing hc.sizeBytes rfl
      · exact absurd heq (by simp)
  | mmap fd createdNew =>
    rw [hpc] at hstep
    simp only [createOrOpen, mapFd] at hstep
    split at hstep
    · rename_i data o ho
      split at hstep
      · cases hstep
        have howner : own o = call.name := hc.owner fd o (by rw [hpc]; rfl) ho
        refine hreturn (hh.mapData ?_ data) (by simp)
        exact ⟨hh.opened fd o ho, howner ▸ hc.sizeBytes, hc.checked fd createdNew o hpc ho⟩
      · exact absurd hstep (by simp)
    · cases hstep
      exact hgo hh (hc.goOn (by rw [hpc]; rfl) (by simp))
  | closeFailed fd =>
    rw [hpc] at hstep
    cases hstep
    exact hreturn (hh.close fd) (by simp)

end

/-! ### Every run -/

section

variable {size : Name → Nat} {own : Object → Name} {ns : Namespace} {p p' : Process υ}

omit [DecidableEq υ] in
/-- A step that opens and maps nothing, and is not one of `create_or_open_shared_memory`. -/
theorem ProcessSized.sub (hp : ProcessSized size own ns p)
    (hfds : ∀ fd o, p'.handles.fds fd = some o → p.handles.fds fd = some o)
    (hmaps : ∀ data m, p'.handles.maps data = some m → p.handles.maps data = some m)
    (hcall : ∀ call out, p'.running ≠ some (.creating call out)) : ProcessSized size own ns p' where
  handles := ⟨fun fd o ho => hp.handles.opened fd o (hfds fd o ho),
    fun data m hm => hp.handles.mapped data m (hmaps data m hm)⟩
  call call out h := absurd h (hcall call out)

/-- `unlink_shared_memory`. -/
theorem Names.unlink (hn : Names own ns) (fails : Bool) (name : Option Name) :
    Names own (unlinkSharedMemory ns fails name).1 ∧
      Grows size own ns own (unlinkSharedMemory ns fails name).1 := by
  cases name with
  | none => exact ⟨hn, Grows.refl rfl rfl⟩
  | some name =>
    simp only [unlinkSharedMemory]
    split
    · exact ⟨hn, Grows.refl rfl rfl⟩
    · exact ⟨hn.shmUnlink name, Grows.refl rfl rfl⟩

end

/-- **Every mapping is backed**, in every run of calls that ask for one size for each name. -/
theorem backed_of_run [DecidableEq ι] {apple : Bool} {ns : Namespace} {size : Name → Nat}
    (hone : ∀ n n' o, ns.names n = some o → ns.names n' = some o → n = n')
    {tr : List (Event ι υ)} {c : Config ι Namespace (Process υ)}
    (run : (program ι υ apple ns).machine.RunIf (fun _ a => SizeByName size a) tr c) :
    Backed c := by
  suffices h : ∃ own, Names own c.shared ∧
      ∀ t, ProcessSized size own c.shared (c.threads t) by
    obtain ⟨own, -, hp⟩ := h
    exact fun t data m hm => ((hp t).handles.mapped data m hm).2.2
  refine Program.invariant (P := program ι υ apple ns) (I := fun _ c => ∃ own, Names own c.shared ∧
    ∀ t, ProcessSized size own c.shared (c.threads t)) ?_ ?_ run
  · -- an object belongs to the name it is bound to at the beginning
    classical
    refine ⟨fun o => if h : ∃ n, ns.names n = some o then h.choose else [], fun n o hn => ?_,
      fun t => ⟨⟨nofun, nofun⟩, nofun⟩⟩
    have hex : ∃ n, ns.names n = some o := ⟨n, hn⟩
    exact (dif_pos hex).trans (hone _ _ o hex.choose_spec hn)
  · intro tr c t k ns' p' es hinv allowed hnext
    obtain ⟨own, hn, hp⟩ := hinv
    -- whatever a step does for its own process, the others only see objects grow
    have hall {own' : Object → Name} (hn' : Names own' ns')
        (hg : Grows size own c.shared own' ns') (hp' : ProcessSized size own' ns' p') :
        ∃ own, Names own (c.set t ns' p').shared ∧
          ∀ u, ProcessSized size own (c.set t ns' p').shared ((c.set t ns' p').threads u) :=
      ⟨own', hn', Config.set_forall (p := fun _ => ProcessSized size own' ns') hp'
        fun u _ => (hp u).grow hg⟩
    rcases next_cases hnext with ⟨name, sizeBytes, out, rfl, hcall, rfl, hstart⟩ |
      ⟨seg, -, hcall, rfl, rfl, -⟩ | ⟨name, fails, -, rfl, rfl, -⟩ |
      ⟨answer, call, out, h, outcome, hcall, hstep, hproceed⟩ |
      ⟨seg, hcall, rfl, rfl, -⟩ | ⟨seg, hcall, rfl, rfl, -⟩
    · refine hall hn (Grows.refl rfl rfl) ?_
      rcases startCall_cases hstart with ⟨rfl, -⟩ | ⟨n, v, rfl, rfl, -, -, rfl⟩
      · exact hp t
      · refine ⟨(hp t).handles, fun call out h => ?_⟩
        cases h
        exact ⟨allowed, nofun, nofun⟩
    · exact hall hn (Grows.refl rfl rfl) ((hp t).sub (fun _ _ => id) (fun _ _ => id) nofun)
    · obtain ⟨hn', hg⟩ := hn.unlink fails name
      exact hall hn' hg ((hp t).grow hg)
    · obtain ⟨own', hn', hg, hh', hc'⟩ :=
        createOrOpen_sized hn (hp t).handles ((hp t).call call out hcall) hstep
      refine hall hn' hg ?_
      cases outcome with
      | goesOn pc =>
        cases hproceed
        refine ⟨hh', fun call' out' h => ?_⟩
        cases h
        exact hc' pc rfl
      | failed errno =>
        cases hproceed
        exact ⟨hh', nofun⟩
      | mapped o segment =>
        cases hproceed
        exact ⟨hh', nofun⟩
    · refine hall hn (Grows.refl rfl rfl) ((hp t).sub (fun fd o ho => ?_)
        (fun _ _ => Process.of_unmap) nofun)
      rwa [Process.unmap_fds] at ho
    · refine hall hn (Grows.refl rfl rfl) ((hp t).sub (fun _ _ => Process.of_closeFd)
        (fun data m hm => ?_) nofun)
      rwa [Process.closeFd_maps] at hm

instance (size : Name → Nat) : ∀ a : ι × Label υ, Decidable (SizeByName size a)
  | (_, .createOrOpen (some _) _ _) => inferInstanceAs (Decidable (_ = _))
  | (_, .createOrOpen none _ _) | (_, .closeSharedMemory _) | (_, .unlinkSharedMemory _ _)
  | (_, .step _) => isTrue trivial

/-- Both processes find the object empty, and both set its size. -/
theorem backed_of_run_two : ∃ tr c,
    (program (Fin 2) Unit false noObjects).machine.RunIf
      (fun _ a => SizeByName (fun _ => 64) a) tr c ∧
    ((c.threads 0).handles.maps 4096).isSome = true ∧
    ((c.threads 1).handles.maps 4096).isSome = true ∧ Backed c := by
  obtain ⟨tr, c, run, h⟩ := Machine.exists_runIf
    (M := (program (Fin 2) Unit false noObjects).machine)
    (A := fun _ a => SizeByName (fun _ => 64) a)
    (P := fun _ c => ((c.threads 0).handles.maps 4096).isSome = true ∧
      ((c.threads 1).handles.maps 4096).isSome = true)
    ([(0, .createOrOpen (some ['/', 'a']) 64 (some ())), (0, .step (some 3)),
      (0, .step (some 0)), (1, .createOrOpen (some ['/', 'a']) 64 (some ())),
      (1, .step (some 3)), (1, .step (some 0)), (0, .step (some 0)), (0, .step (some 4096)),
      (1, .step (some 0)), (1, .step (some 4096))])
    (by decide +kernel)
  exact ⟨tr, c, run, h.1, h.2, backed_of_run (fun _ _ _ h => absurd h (by simp [noObjects])) run⟩

/-- **The mapping that loses its end.** The same with two sizes: the first process maps 128 bytes,
    and then the second one makes the object as small as 64. -/
theorem shrunkMapping : ∃ tr c,
    (program (Fin 2) Unit false noObjects).machine.Run tr c ∧ ¬ Backed c := by
  obtain ⟨tr, c, run, m, hm, hlt⟩ := Machine.exists_run
    (M := (program (Fin 2) Unit false noObjects).machine)
    (P := fun _ c => ∃ m ∈ (c.threads 0).handles.maps 4096, c.shared.size m.object < m.size)
    ([(0, .createOrOpen (some ['/', 'a']) 128 (some ())), (0, .step (some 3)),
      (0, .step (some 0)), (1, .createOrOpen (some ['/', 'a']) 64 (some ())),
      (1, .step (some 3)), (1, .step (some 0)), (0, .step (some 0)), (0, .step (some 4096)),
      (1, .step (some 0)), (1, .step (some 4096))])
    (by decide +kernel)
  exact ⟨tr, c, run, fun h => absurd (h 0 4096 m hm) (Nat.not_le_of_lt hlt)⟩

end HopeThreading.SharedMemoryHandles
