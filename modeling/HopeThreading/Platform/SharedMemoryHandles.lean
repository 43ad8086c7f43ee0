import HopeThreading.Platform.SharedMemory
import HopeThreading.Transition.Ownership

namespace HopeThreading.SharedMemoryHandles

open Transition

open SharedMemory (Namespace Name Object Errno Pc Call isValidSharedMemoryName invalidName
  offTBound)

/-!
# Shared memory — descriptors and mappings

The model of `SharedMemory.lean` knows objects only.  Here a process has descriptors and mappings,
as the kernel hands them out, and variables of the type `shared_memory_segment`.  It calls
`create_or_open_shared_memory`, `close_shared_memory` and `unlink_shared_memory`, one system call at
a time, and the processes take turns in any order.

A process that calls `create_or_open_shared_memory` with closed segments only never loses track of
what it has: every open descriptor is that of one segment or of the call in progress, and every
mapping is that of one segment (`accounted_of_run`).  So a call that fails has closed what it has
opened, and when all segments are closed nothing is open and nothing is mapped.
-/

/-! ### The model -/

/-- A descriptor. -/
abbrev Fd := Nat

/-- An address, as `mmap` returns it. -/
abbrev Addr := Nat

/-- What is mapped at an address. -/
structure Mapping where
  object : Object
  size : Nat

/-- What the kernel has of a process. -/
structure Handles where
  fds : Fd → Option Object
  maps : Addr → Option Mapping

namespace Handles

/-- A descriptor for `o`. -/
def opened (h : Handles) (fd : Fd) (o : Object) : Handles :=
  { h with fds := Function.update h.fds fd (some o) }

/-- `close(fd)`. -/
def close (h : Handles) (fd : Fd) : Handles :=
  { h with fds := Function.update h.fds fd none }

/-- A mapping at `data`. -/
def mapped (h : Handles) (data : Addr) (m : Mapping) : Handles :=
  { h with maps := Function.update h.maps data (some m) }

/-- `munmap(data, size)`.  What is behind the first `size` bytes stays mapped. -/
def munmap (h : Handles) (data : Addr) (size : Nat) : Handles :=
  match h.maps data with
  | some m => if m.size ≤ size then { h with maps := Function.update h.maps data none } else h
  | none => h

end Handles

/-- `shared_memory_segment`; `nullptr` and `-1` are `none`. -/
structure SharedMemorySegment where
  data : Option Addr
  size : Nat
  fd : Option Fd
  createdNew : Bool

/-- A segment as it is declared, and as `close_shared_memory` leaves it. -/
def SharedMemorySegment.closed : SharedMemorySegment :=
  { data := none, size := 0, fd := none, createdNew := false }

/-- What comes after a system call: the next one, or the return. -/
inductive Outcome
  | goesOn (pc : Pc)
  /-- `return false`, with what the function has stored into `errno`. -/
  | failed (errno : Option Errno)
  /-- `return true`; the segment is written to `*out`. -/
  | mapped (object : Object) (segment : SharedMemorySegment)

/-- The head of the `for` loop. -/
def enterAttempt (attempt : Nat) : Outcome :=
  if attempt < 2 then .goesOn (.shmOpen attempt) else .failed none

/-- `map_fd(fd, map_size, out)`, and what is done with its result. -/
def mapFd (h : Handles) (fd : Fd) (mapSize : Nat) (createdNew : Bool) (answer : Option Nat) :
    Option (Handles × Outcome) :=
  match answer, h.fds fd with
  | some data, some o =>
    if (h.maps data).isNone then
      some (h.mapped data { object := o, size := mapSize },
        .mapped o { data := some data, size := mapSize, fd := some fd, createdNew := createdNew })
    else none
  | _, _ => some (h, .goesOn (.closeFailed fd))

/-- One system call of `create_or_open_shared_memory`, where the `Pc` has descriptors.  The kernel
    answers with `none` when the call fails, and else with a number: a descriptor that is not open,
    or an address that is not mapped. -/
def createOrOpen (ns : Namespace) (h : Handles) (name : Name) (sizeBytes : Nat)
    (answer : Option Nat) : Pc → Option (Namespace × Handles × Outcome)
  | .shmOpen attempt =>
    match answer with
    | none => some (ns, h, .failed none)
    | some fd =>
      if (h.fds fd).isNone then
        some ((ns.shmOpen name).1, h.opened fd (ns.shmOpen name).2, .goesOn (.fstat attempt fd))
      else none
  | .fstat attempt fd =>
    match answer, h.fds fd with
    | some _, some o =>
      if ns.size o = 0 then some (ns, h, .goesOn (.ftruncate fd))
      else if ns.size o < sizeBytes then some (ns, h, .goesOn (.close attempt fd))
      else some (ns, h, .goesOn (.mmap fd false))
    | _, _ => some (ns, h, .goesOn (.closeFailed fd))
  | .ftruncate fd =>
    match answer, h.fds fd with
    | some _, some o =>
      if offTBound ≤ sizeBytes then some (ns, h, .goesOn (.closeFailed fd))
      else some (ns.ftruncate o sizeBytes, h, .goesOn (.mmap fd true))
    | _, _ => some (ns, h, .goesOn (.closeFailed fd))
  | .close attempt fd =>
    if attempt = 0 then some (ns, h.close fd, .goesOn (.shmUnlink attempt))
    else some (ns, h.close fd, .failed (some .EINVAL))
  | .shmUnlink attempt =>
    some (if answer.isSome then ns.shmUnlink name else ns, h, enterAttempt (attempt + 1))
  | .mmap fd createdNew => (mapFd h fd sizeBytes createdNew answer).map (ns, ·)
  | .closeFailed fd => some (ns, h.close fd, .failed none)

/-- The call that a process with the segments `υ` is in. -/
inductive Running (υ : Type*)
  | creating (call : Call) (out : υ)
  /-- `munmap` in `close_shared_memory(seg)`. -/
  | unmapping (seg : υ)
  /-- `close` in `close_shared_memory(seg)`. -/
  | closing (seg : υ)

/-- A process. -/
structure Process (υ : Type*) where
  handles : Handles
  segments : υ → SharedMemorySegment
  running : Option (Running υ)

/-- Start a call, or do the next system call of the one the process is in.  A null pointer is
    `none`. -/
inductive Label (υ : Type*)
  | createOrOpen (name : Option Name) (sizeBytes : Nat) (out : Option υ)
  | closeSharedMemory (seg : υ)
  /-- `unlink_shared_memory` is one system call, which may fail. -/
  | unlinkSharedMemory (name : Option Name) (fails : Bool)
  | step (answer : Option Nat)

/-- The returns. -/
inductive Event (ι υ : Type*)
  | failed (t : ι) (errno : Option Errno)
  | mapped (t : ι) (out : υ) (object : Object) (segment : SharedMemorySegment)
  | closed (t : ι) (seg : υ)
  | unlinked (t : ι) (ok : Bool)

variable {ι υ : Type*} [DecidableEq υ]

/-- A process after a system call of `create_or_open_shared_memory`. -/
def Process.proceed (t : ι) (p : Process υ) (call : Call) (out : υ) (h : Handles) :
    Outcome → Process υ × List (Event ι υ)
  | .goesOn pc =>
    ({ p with handles := h, running := some (.creating { call with pc := pc } out) }, [])
  | .failed errno => ({ p with handles := h, running := none }, [.failed t errno])
  | .mapped o segment =>
    ({ handles := h, segments := Function.update p.segments out segment, running := none },
      [.mapped t out o segment])

/-- The checks of the arguments, up to the head of the loop. -/
def startCall (apple : Bool) (t : ι) (p : Process υ) :
    Option Name → Nat → Option υ → Process υ × List (Event ι υ)
  | some name, sizeBytes, some out =>
    if sizeBytes = 0 then (p, [.failed t none])
    else if !isValidSharedMemoryName apple name then
      (p, [.failed t (some (invalidName apple name))])
    else
      p.proceed t { name := name, sizeBytes := sizeBytes, pc := .shmOpen 0 } out p.handles
        (enterAttempt 0)
  | _, _, _ => (p, [.failed t none])

/-- `close_shared_memory(seg)`: `if (seg.data && seg.size > 0)`, … -/
def Process.unmap (p : Process υ) (seg : υ) : Handles :=
  match (p.segments seg).data with
  | some data =>
    if 0 < (p.segments seg).size then p.handles.munmap data (p.segments seg).size else p.handles
  | none => p.handles

/-- … and `if (seg.fd >= 0)`; then the members are reset. -/
def Process.closeFd (p : Process υ) (seg : υ) : Handles :=
  match (p.segments seg).fd with
  | some fd => p.handles.close fd
  | none => p.handles

/-- `unlink_shared_memory(name)`. -/
def unlinkSharedMemory (ns : Namespace) (fails : Bool) : Option Name → Namespace × Bool
  | none => (ns, false)
  | some name =>
    if fails || (ns.names name).isNone then (ns, false) else (ns.shmUnlink name, true)

/-- One step of process `t`. -/
def next (apple : Bool) (t : ι) (ns : Namespace) (p : Process υ) (k : Label υ) :
    Option (Namespace × Process υ × List (Event ι υ)) :=
  match k, p.running with
  | .createOrOpen name sizeBytes out, none => some (ns, startCall apple t p name sizeBytes out)
  | .closeSharedMemory seg, none => some (ns, { p with running := some (.unmapping seg) }, [])
  | .unlinkSharedMemory name fails, none =>
    some ((unlinkSharedMemory ns fails name).1, p,
      [.unlinked t (unlinkSharedMemory ns fails name).2])
  | .step answer, some (.creating call out) =>
    (createOrOpen ns p.handles call.name call.sizeBytes answer call.pc).map fun r =>
      (r.1, p.proceed t call out r.2.1 r.2.2)
  | .step _, some (.unmapping seg) =>
    some (ns, { p with handles := p.unmap seg, running := some (.closing seg) }, [])
  | .step _, some (.closing seg) =>
    some (ns, {
      handles := p.closeFd seg
      segments := Function.update p.segments seg .closed
      running := none }, [.closed t seg])
  | _, _ => none

/-- Processes `ι` that have nothing open, over the objects that are there. -/
def program (ι υ : Type*) [DecidableEq υ] (apple : Bool) (ns : Namespace) :
    Program ι Namespace (Process υ) (Label υ) (Event ι υ) where
  shared := ns
  start :=
    { handles := { fds := fun _ => none, maps := fun _ => none }
      segments := fun _ => .closed
      running := none }
  next := next apple

/-! ### Who holds what -/

/-- The descriptor of the call in progress. -/
def inHand : Pc → Option Fd
  | .fstat _ fd | .ftruncate fd | .close _ fd | .mmap fd _ | .closeFailed fd => some fd
  | .shmOpen _ | .shmUnlink _ => none

/-- The descriptor that a call holds after an access. -/
def Outcome.inHand : Outcome → Option Fd
  | .goesOn pc => SharedMemoryHandles.inHand pc
  | .failed _ | .mapped _ _ => none

/-- The descriptor that a call holds and that is in no segment yet. -/
def Running.inHand : Running υ → Option Fd
  | .creating call _ => SharedMemoryHandles.inHand call.pc
  | .unmapping _ | .closing _ => none

/-- The segment that is not mapped any more, although it looks so. -/
def Running.unmapped : Running υ → Option υ
  | .closing seg => some seg
  | .creating _ _ | .unmapping _ => none

/-- The descriptor that a segment has, or the call in progress. -/
def Process.holdsFd (p : Process υ) : Option υ → Option Fd
  | some v => (p.segments v).fd
  | none => p.running.bind Running.inHand

/-- The address at which a segment is mapped. -/
def Process.holdsData (p : Process υ) (v : υ) : Option Addr :=
  if p.running.bind Running.unmapped = some v then none else (p.segments v).data

/-- A segment is closed, or it has a descriptor of the object that it maps. -/
def SegmentOk (p : Process υ) (v : υ) : Prop :=
  ((p.segments v).fd = none ∧ (p.segments v).data = none) ∨
  ∃ fd data o, (p.segments v).fd = some fd ∧ (p.segments v).data = some data ∧
    0 < (p.segments v).size ∧ p.handles.fds fd = some o ∧
    (p.holdsData v = some data →
      p.handles.maps data = some { object := o, size := (p.segments v).size })

/-- A process knows what it has. -/
structure Accounted (p : Process υ) : Prop where
  /-- Every open descriptor is that of one segment, or of the call in progress. -/
  fds : Owned p.handles.fds p.holdsFd
  /-- Every mapping is that of one segment. -/
  maps : Owned p.handles.maps p.holdsData
  segments : ∀ v, SegmentOk p v
  /-- The call in progress fills a closed segment. -/
  out : ∀ call out, p.running = some (.creating call out) →
    0 < call.sizeBytes ∧ (p.segments out).fd = none ∧ (p.segments out).data = none

/-- `create_or_open_shared_memory` is called with a closed segment. -/
def ClosedOut (c : Config ι Namespace (Process υ)) (a : ι × Label υ) : Prop :=
  match a.2 with
  | .createOrOpen _ _ (some out) =>
    ((c.threads a.1).segments out).fd = none ∧ ((c.threads a.1).segments out).data = none
  | _ => True

instance (c : Config ι Namespace (Process υ)) : ∀ a : ι × Label υ, Decidable (ClosedOut c a)
  | (_, .createOrOpen _ _ (some _)) => inferInstanceAs (Decidable (_ ∧ _))
  | (_, .createOrOpen _ _ none) | (_, .closeSharedMemory _) | (_, .unlinkSharedMemory _ _)
  | (_, .step _) => isTrue trivial

/-! ### The steps -/

/-- The checks of the arguments: a call fails, or it comes to its first system call. -/
theorem startCall_cases {apple : Bool} {t : ι} {p p' : Process υ} {name : Option Name}
    {sizeBytes : Nat} {out : Option υ} {es : List (Event ι υ)}
    (h : startCall apple t p name sizeBytes out = (p', es)) :
    (p' = p ∧ ∃ errno, es = [.failed t errno]) ∨
    (∃ n v, name = some n ∧ out = some v ∧ 0 < sizeBytes ∧ es = [] ∧
      p' = { p with running := some (.creating
        { name := n, sizeBytes := sizeBytes, pc := .shmOpen 0 } v) }) := by
  unfold startCall at h
  split at h
  · split at h
    · cases h
      exact .inl ⟨rfl, _, rfl⟩
    · rename_i hsize
      split at h
      · cases h
        exact .inl ⟨rfl, _, rfl⟩
      · cases h
        exact .inr ⟨_, _, rfl, rfl, Nat.pos_of_ne_zero hsize, rfl, rfl⟩
  · cases h
    exact .inl ⟨rfl, _, rfl⟩

section

variable {p : Process υ} {seg : υ} {data : Addr} {m : Mapping} {fd : Fd} {o : Object}

omit [DecidableEq υ] in
/-- `munmap` takes a mapping away, … -/
theorem Process.of_unmap (h : (p.unmap seg).maps data = some m) :
    p.handles.maps data = some m := by
  have hsub (data' : Addr) (size : Nat) (h : (p.handles.munmap data' size).maps data = some m) :
      p.handles.maps data = some m := by
    unfold Handles.munmap at h
    split at h
    · split at h
      · have h : Function.update p.handles.maps data' none data = some m := h
        by_cases hdata : data = data'
        · rw [hdata, Function.update_self] at h
          exact absurd h (by simp)
        · rwa [Function.update_of_ne hdata] at h
      · exact h
    · exact h
  unfold Process.unmap at h
  split at h
  · split at h
    · exact hsub _ _ h
    · exact h
  · exact h

omit [DecidableEq υ] in
/-- … and no descriptor. -/
theorem Process.unmap_fds : (p.unmap seg).fds = p.handles.fds := by
  unfold Process.unmap Handles.munmap
  split
  · split
    · split
      · split <;> rfl
      · rfl
    · rfl
  · rfl

omit [DecidableEq υ] in
/-- `close` takes a descriptor away, … -/
theorem Process.of_closeFd (h : (p.closeFd seg).fds fd = some o) :
    p.handles.fds fd = some o := by
  unfold Process.closeFd at h
  split at h
  · rename_i fd' _
    have h : Function.update p.handles.fds fd' none fd = some o := h
    by_cases hfd : fd = fd'
    · rw [hfd, Function.update_self] at h
      exact absurd h (by simp)
    · rwa [Function.update_of_ne hfd] at h
  · exact h

omit [DecidableEq υ] in
/-- … and no mapping. -/
theorem Process.closeFd_maps : (p.closeFd seg).maps = p.handles.maps := by
  unfold Process.closeFd
  split <;> rfl

end

/-- **Step inversion.** A call starts, a name is unlinked, or a system call is done. -/
theorem next_cases {apple : Bool} {t : ι} {ns ns' : Namespace} {p p' : Process υ} {k : Label υ}
    {es : List (Event ι υ)} (h : next apple t ns p k = some (ns', p', es)) :
    (∃ name sizeBytes out, k = .createOrOpen name sizeBytes out ∧ p.running = none ∧ ns' = ns ∧
      startCall apple t p name sizeBytes out = (p', es)) ∨
    (∃ seg, k = .closeSharedMemory seg ∧ p.running = none ∧ ns' = ns ∧
      p' = { p with running := some (.unmapping seg) } ∧ es = []) ∨
    (∃ name fails, k = .unlinkSharedMemory name fails ∧ p' = p ∧
      ns' = (unlinkSharedMemory ns fails name).1 ∧
      es = [.unlinked t (unlinkSharedMemory ns fails name).2]) ∨
    (∃ answer call out h outcome, p.running = some (.creating call out) ∧
      createOrOpen ns p.handles call.name call.sizeBytes answer call.pc =
        some (ns', h, outcome) ∧ p.proceed t call out h outcome = (p', es)) ∨
    (∃ seg, p.running = some (.unmapping seg) ∧ ns' = ns ∧
      p' = { p with handles := p.unmap seg, running := some (.closing seg) } ∧ es = []) ∨
    (∃ seg, p.running = some (.closing seg) ∧ ns' = ns ∧
      p' = { handles := p.closeFd seg
             segments := Function.update p.segments seg .closed
             running := none } ∧ es = [.closed t seg]) := by
  unfold next at h
  split at h
  · rename_i name sizeBytes out hcall
    obtain ⟨rfl, hstart⟩ := Prod.mk.inj (Option.some.inj h)
    exact .inl ⟨name, sizeBytes, out, rfl, hcall, rfl, hstart⟩
  · rename_i seg hcall
    cases h
    exact .inr (.inl ⟨seg, rfl, hcall, rfl, rfl, rfl⟩)
  · rename_i name fails hcall
    cases h
    exact .inr (.inr (.inl ⟨name, fails, rfl, rfl, rfl, rfl⟩))
  · rename_i answer call out hcall
    obtain ⟨r, hstep, heq⟩ := Option.map_eq_some_iff.mp h
    obtain ⟨rfl, hproceed⟩ := Prod.mk.inj heq
    exact .inr (.inr (.inr (.inl ⟨answer, call, out, r.2.1, r.2.2, hcall, hstep, hproceed⟩)))
  · rename_i seg hcall
    cases h
    exact .inr (.inr (.inr (.inr (.inl ⟨seg, hcall, rfl, rfl, rfl⟩))))
  · rename_i seg hcall
    cases h
    exact .inr (.inr (.inr (.inr (.inr ⟨seg, hcall, rfl, rfl, rfl⟩))))
  · exact absurd h (by simp)

section

variable {ns ns' : Namespace} {h h' : Handles} {name : Name} {sizeBytes : Nat}
  {answer : Option Nat} {pc : Pc} {out : Outcome}

omit [DecidableEq υ] in
/-- **Inversion.** A system call opens a descriptor, closes the one in hand, maps its object, or
    keeps the descriptors and the mappings. -/
theorem createOrOpen_cases
    (hstep : createOrOpen ns h name sizeBytes answer pc = some (ns', h', out)) :
    (h' = h ∧ out.inHand = inHand pc ∧ ∀ o segment, out ≠ .mapped o segment) ∨
    (∃ fd o, inHand pc = none ∧ h.fds fd = none ∧ h' = h.opened fd o ∧ out.inHand = some fd ∧
      ∀ o segment, out ≠ .mapped o segment) ∨
    (∃ fd, inHand pc = some fd ∧ h' = h.close fd ∧ out.inHand = none ∧
      ∀ o segment, out ≠ .mapped o segment) ∨
    (∃ fd createdNew data o, pc = .mmap fd createdNew ∧ h.fds fd = some o ∧ h.maps data = none ∧
      h' = h.mapped data { object := o, size := sizeBytes } ∧
      out = .mapped o
        { data := some data, size := sizeBytes, fd := some fd, createdNew := createdNew }) := by
  cases pc with
  | shmOpen attempt =>
    -- the kernel hands out a descriptor that is not open
    cases answer with
    | none =>
      cases hstep
      exact .inl ⟨rfl, rfl, nofun⟩
    | some fd =>
      simp only [createOrOpen] at hstep
      split at hstep
      · rename_i hfree
        cases hstep
        exact .inr (.inl ⟨fd, _, rfl, Option.isNone_iff_eq_none.mp hfree, rfl, rfl, nofun⟩)
      · exact absurd hstep (by simp)
  | fstat attempt fd =>
    -- a failure and a success leave the descriptor in hand
    left
    simp only [createOrOpen] at hstep
    split at hstep
    · split at hstep
      · cases hstep
        exact ⟨rfl, rfl, nofun⟩
      · split at hstep <;> cases hstep <;> exact ⟨rfl, rfl, nofun⟩
    · cases hstep
      exact ⟨rfl, rfl, nofun⟩
  | ftruncate fd =>
    left
    simp only [createOrOpen] at hstep
    split at hstep
    · split at hstep <;> cases hstep <;> exact ⟨rfl, rfl, nofun⟩
    · cases hstep
      exact ⟨rfl, rfl, nofun⟩
  | close attempt fd =>
    -- one of the two places where a descriptor is given back …
    right; right; left
    simp only [createOrOpen] at hstep
    split at hstep <;> cases hstep <;> exact ⟨fd, rfl, rfl, rfl, nofun⟩
  | shmUnlink attempt =>
    left
    cases hstep
    unfold enterAttempt
    split
    · exact ⟨rfl, rfl, nofun⟩
    · exact ⟨rfl, rfl, nofun⟩
  | mmap fd createdNew =>
    -- the mapping begins at an address that is not mapped
    simp only [createOrOpen, mapFd] at hstep
    split at hstep
    · rename_i data o ho
      split at hstep
      · rename_i hfree
        cases hstep
        exact .inr (.inr (.inr ⟨fd, createdNew, data, o, rfl, ho,
          Option.isNone_iff_eq_none.mp hfree, rfl, rfl⟩))
      · exact absurd hstep (by simp)
    · cases hstep
      exact .inl ⟨rfl, rfl, nofun⟩
  | closeFailed fd =>
    -- … and the other
    cases hstep
    exact .inr (.inr (.inl ⟨fd, rfl, rfl, rfl, nofun⟩))

end

/-! ### One step -/

section

variable {p p' : Process υ} {v out : υ} {call : Call} {outcome : Outcome} {h : Handles} {t : ι}

/-- What another part of the process does to a segment: nothing. -/
theorem SegmentOk.frame (hok : SegmentOk p v) (hsegment : p'.segments v = p.segments v)
    (hfds : ∀ fd, (p.segments v).fd = some fd → p'.handles.fds fd = p.handles.fds fd)
    (hmaps : ∀ data, p'.holdsData v = some data →
      p.holdsData v = some data ∧ p'.handles.maps data = p.handles.maps data) :
    SegmentOk p' v := by
  unfold SegmentOk
  rw [hsegment]
  refine hok.imp_right ?_
  rintro ⟨fd, data, o, hfd, hdata, hsize, ho, hmapped⟩
  refine ⟨fd, data, o, hfd, hdata, hsize, by rw [hfds fd hfd, ho], fun hholds => ?_⟩
  obtain ⟨hbefore, hsame⟩ := hmaps data hholds
  rw [hsame]
  exact hmapped hbefore

/-- An access that maps nothing moves only the descriptor the call holds. -/
theorem holdsFd_proceed (hnot : ∀ o segment, outcome ≠ .mapped o segment) :
    (p.proceed t call out h outcome).1.holdsFd =
      Function.update p.holdsFd none outcome.inHand := by
  funext e
  cases e with
  | none =>
    rw [Function.update_self]
    cases outcome with
    | goesOn pc => rfl
    | failed errno => rfl
    | mapped o segment => exact absurd rfl (hnot o segment)
  | some v =>
    rw [Function.update_of_ne (by simp)]
    cases outcome with
    | goesOn pc => rfl
    | failed errno => rfl
    | mapped o segment => exact absurd rfl (hnot o segment)

/-- An access that maps nothing leaves the mappings of the process. -/
theorem holdsData_proceed (hcall : p.running = some (.creating call out))
    (hnot : ∀ o segment, outcome ≠ .mapped o segment) :
    (p.proceed t call out h outcome).1.holdsData = p.holdsData := by
  funext v
  unfold Process.holdsData
  rw [hcall]
  cases outcome with
  | goesOn pc => rfl
  | failed errno => rfl
  | mapped o segment => exact absurd rfl (hnot o segment)

/-- A system call that does not fill the segment. -/
theorem Accounted.proceed (acc : Accounted p) (hcall : p.running = some (.creating call out))
    (hnot : ∀ o segment, outcome ≠ .mapped o segment) (hmaps : h.maps = p.handles.maps)
    (hfds : Owned h.fds (Function.update p.holdsFd none outcome.inHand))
    (hkept : ∀ v fd, (p.segments v).fd = some fd → h.fds fd = p.handles.fds fd) :
    Accounted (p.proceed t call out h outcome).1 := by
  have hhandles : (p.proceed t call out h outcome).1.handles = h := by
    cases outcome <;> rfl
  have hsegments : (p.proceed t call out h outcome).1.segments = p.segments := by
    cases outcome with
    | goesOn pc => rfl
    | failed errno => rfl
    | mapped o segment => exact absurd rfl (hnot o segment)
  have hdata := holdsData_proceed (t := t) (h := h) hcall hnot
  refine ⟨?_, ?_, fun v => (acc.segments v).frame (by rw [hsegments]) ?_ ?_, ?_⟩
  · rw [hhandles, holdsFd_proceed hnot]
    exact hfds
  · rw [hhandles, hdata, hmaps]
    exact acc.maps
  · intro fd hfd
    rw [hhandles, hkept v fd hfd]
  · intro data hholds
    rw [hdata] at hholds
    exact ⟨hholds, by rw [hhandles, hmaps]⟩
  · intro call' out' hrunning
    rw [hsegments]
    cases outcome with
    | goesOn pc =>
      cases hrunning
      exact acc.out call out hcall
    | failed errno => exact absurd hrunning (by simp [Process.proceed])
    | mapped o segment => exact absurd rfl (hnot o segment)

/-- The segment is filled, with the descriptor in hand and a mapping of its object. -/
theorem Accounted.fill (acc : Accounted p) (hcall : p.running = some (.creating call out))
    {fd : Fd} {data : Addr} {o : Object} {segment : SharedMemorySegment}
    (hdata : segment.data = some data) (hsize : segment.size = call.sizeBytes)
    (hfd : segment.fd = some fd) (hhand : inHand call.pc = some fd)
    (ho : p.handles.fds fd = some o) (hfree : p.handles.maps data = none) :
    Accounted (p.proceed t call out
      (p.handles.mapped data { object := o, size := call.sizeBytes }) (.mapped o segment)).1 := by
  obtain ⟨hpos, hnofd, hnodata⟩ := acc.out call out hcall
  have hcallFd : p.holdsFd none = some fd := by
    show p.running.bind _ = _
    rw [hcall]
    exact hhand
  have houtData : p.holdsData out = none := by
    unfold Process.holdsData
    rw [hnodata]
    exact ite_self none
  set p' := (p.proceed t call out
    (p.handles.mapped data { object := o, size := call.sizeBytes }) (.mapped o segment)).1
  have hsegment : p'.segments out = segment := Function.update_self ..
  have hother (v : υ) (hv : v ≠ out) : p'.segments v = p.segments v := Function.update_of_ne hv ..
  -- the descriptor goes from the call to the segment, …
  have hholdsFd : p'.holdsFd =
      Function.update (Function.update p.holdsFd none none) (some out) (some fd) := by
    funext e
    cases e with
    | none => rfl
    | some v =>
      by_cases hv : v = out
      · rw [hv, Function.update_self]
        exact (congrArg SharedMemorySegment.fd hsegment).trans hfd
      · rw [Function.update_of_ne (by simpa using hv), Function.update_of_ne (by simp)]
        exact congrArg SharedMemorySegment.fd (hother v hv)
  -- … and the mapping is new
  have hholdsData : p'.holdsData = Function.update p.holdsData out (some data) := by
    funext v
    by_cases hv : v = out
    · rw [hv, Function.update_self]
      exact (congrArg SharedMemorySegment.data hsegment).trans hdata
    · rw [Function.update_of_ne hv]
      show (p'.segments v).data = p.holdsData v
      rw [hother v hv, Process.holdsData, hcall]
      rfl
  refine ⟨?_, ?_, fun v => ?_, fun call' out' h => absurd h (by simp [p', Process.proceed])⟩
  · rw [hholdsFd]
    exact acc.fds.transfer hcallFd hnofd
  · rw [hholdsData]
    exact acc.maps.acquire hfree houtData _
  · by_cases hv : v = out
    · right
      rw [hv, hsegment]
      refine ⟨fd, data, o, hfd, hdata, hsize ▸ hpos, ho, fun _ => ?_⟩
      rw [hsize]
      exact Function.update_self ..
    · refine (acc.segments v).frame (hother v hv) (fun _ _ => rfl) fun data' hholds => ?_
      rw [hholdsData, Function.update_of_ne hv] at hholds
      refine ⟨hholds, Function.update_of_ne ?_ ..⟩
      rintro rfl
      exact acc.maps.free hfree v hholds

/-- A system call of `create_or_open_shared_memory`. -/
theorem Accounted.createOrOpen (acc : Accounted p) {ns ns' : Namespace} {answer : Option Nat}
    (hcall : p.running = some (.creating call out))
    (hstep : createOrOpen ns p.handles call.name call.sizeBytes answer call.pc =
      some (ns', h, outcome)) : Accounted (p.proceed t call out h outcome).1 := by
  have hhand : p.holdsFd none = inHand call.pc := by
    show p.running.bind _ = _
    rw [hcall]
    rfl
  rcases createOrOpen_cases hstep with ⟨rfl, hsame, hnot⟩ | ⟨fd, o, hnone, hfree, rfl, hnew, hnot⟩ |
    ⟨fd, hfd, rfl, hnone, hnot⟩ | ⟨fd, createdNew, data, o, hpc, ho, hfree, rfl, rfl⟩
  · refine acc.proceed hcall hnot rfl ?_ fun _ _ _ => rfl
    rw [hsame, ← hhand, Function.update_eq_self]
    exact acc.fds
  · refine acc.proceed hcall hnot rfl ?_ fun v fd' hfd' => ?_
    · rw [hnew]
      exact acc.fds.acquire hfree (hhand.trans hnone) o
    · refine Function.update_of_ne ?_ ..
      rintro rfl
      exact acc.fds.free hfree (some v) hfd'
  · refine acc.proceed hcall hnot rfl ?_ fun v fd' hfd' => ?_
    · rw [hnone]
      exact acc.fds.release (hhand.trans hfd)
    · refine Function.update_of_ne ?_ ..
      rintro rfl
      exact absurd (acc.fds.once (some v) none fd' hfd' (hhand.trans hfd)) (by simp)
  · exact acc.fill hcall rfl rfl rfl (by rw [hpc]; rfl) ho hfree

/-- Segment `v` is not mapped any more. -/
theorem Accounted.unmapped (acc : Accounted p) (hcall : p.running = some (.unmapping v))
    (hfds : h.fds = p.handles.fds) (hmaps : Owned h.maps (Function.update p.holdsData v none))
    (hkept : ∀ w data, w ≠ v → p.holdsData w = some data → h.maps data = p.handles.maps data) :
    Accounted { p with handles := h, running := some (.closing v) } := by
  set p' : Process υ := { p with handles := h, running := some (.closing v) }
  have hholdsFd : p'.holdsFd = p.holdsFd := by
    funext e
    cases e with
    | none =>
      show none = p.running.bind _
      rw [hcall]
      rfl
    | some w => rfl
  have hholdsData : p'.holdsData = Function.update p.holdsData v none := by
    funext w
    by_cases hw : w = v
    · rw [hw, Function.update_self]
      exact if_pos rfl
    · rw [Function.update_of_ne hw, Process.holdsData, Process.holdsData, hcall]
      exact (if_neg (by simpa [p', Running.unmapped] using Ne.symm hw)).trans
        (if_neg (by simp [Running.unmapped])).symm
  refine ⟨?_, ?_, fun w => (acc.segments w).frame rfl (fun fd _ => congrFun hfds fd)
    fun data hdata => ?_, fun call' out' h => absurd h (by simp [p'])⟩
  · rw [hholdsFd]
    exact hfds ▸ acc.fds
  · rw [hholdsData]
    exact hmaps
  · rw [hholdsData] at hdata
    by_cases hw : w = v
    · rw [hw, Function.update_self] at hdata
      exact absurd hdata (by simp)
    · rw [Function.update_of_ne hw] at hdata
      exact ⟨hdata, hkept w data hw hdata⟩

/-- `munmap` in `close_shared_memory(v)`. -/
theorem Accounted.unmap (acc : Accounted p) (hcall : p.running = some (.unmapping v)) :
    Accounted { p with handles := p.unmap v, running := some (.closing v) } := by
  obtain ⟨-, hdata⟩ | ⟨fd, data, o, hfd, hdata, hsize, ho, hmapped⟩ := acc.segments v
  · -- the segment is closed already
    have hunmap : p.unmap v = p.handles := by
      unfold Process.unmap
      rw [hdata]
    have hnone : p.holdsData v = none := by
      unfold Process.holdsData
      rw [hdata]
      exact ite_self none
    rw [hunmap]
    refine acc.unmapped hcall rfl ?_ fun _ _ _ _ => rfl
    rw [← hnone, Function.update_eq_self]
    exact acc.maps
  · have hholds : p.holdsData v = some data := by
      unfold Process.holdsData
      rw [hcall, hdata]
      exact if_neg (by simp [Running.unmapped])
    -- the segment maps all of what is there
    have hunmap : p.unmap v =
        { p.handles with maps := Function.update p.handles.maps data none } := by
      unfold Process.unmap Handles.munmap
      simp only [hdata, if_pos hsize, hmapped hholds]
      exact if_pos (Nat.le_refl _)
    rw [hunmap]
    refine acc.unmapped hcall rfl (acc.maps.release hholds) fun w data' hw hholds' => ?_
    refine Function.update_of_ne ?_ ..
    rintro rfl
    exact hw (acc.maps.once w v data' hholds' hholds)

/-- `close` in `close_shared_memory(v)`, and the reset of the members. -/
theorem Accounted.reset (acc : Accounted p) (hcall : p.running = some (.closing v)) :
    Accounted {
      handles := p.closeFd v
      segments := Function.update p.segments v .closed
      running := none } := by
  set p' : Process υ := {
    handles := p.closeFd v
    segments := Function.update p.segments v .closed
    running := none }
  have hself : p'.segments v = .closed := Function.update_self ..
  have hother (w : υ) (hw : w ≠ v) : p'.segments w = p.segments w := Function.update_of_ne hw ..
  have hholdsFd : p'.holdsFd = Function.update p.holdsFd (some v) none := by
    funext e
    cases e with
    | none =>
      rw [Function.update_of_ne (by simp)]
      show none = p.running.bind _
      rw [hcall]
      rfl
    | some w =>
      by_cases hw : w = v
      · rw [hw, Function.update_self]
        exact congrArg SharedMemorySegment.fd hself
      · rw [Function.update_of_ne (by simpa using hw)]
        exact congrArg SharedMemorySegment.fd (hother w hw)
  -- its memory was unmapped before
  have hholdsData : p'.holdsData = p.holdsData := by
    funext w
    by_cases hw : w = v
    · rw [hw, Process.holdsData, Process.holdsData, hself, hcall]
      exact (ite_self none).trans (if_pos rfl).symm
    · rw [Process.holdsData, Process.holdsData, hother w hw, hcall]
      exact (if_neg (by simp [p'])).trans
        (if_neg (by simpa [Running.unmapped] using Ne.symm hw)).symm
  have hmaps : p'.handles.maps = p.handles.maps := p.closeFd_maps
  have hfds : Owned p'.handles.fds p'.holdsFd ∧ ∀ w fd, w ≠ v → (p.segments w).fd = some fd →
      p'.handles.fds fd = p.handles.fds fd := by
    rw [hholdsFd]
    show Owned (p.closeFd v).fds _ ∧ ∀ w fd, w ≠ v → _ → (p.closeFd v).fds fd = _
    unfold Process.closeFd
    split
    · rename_i fd hfd
      have hsome : p.holdsFd (some v) = some fd := hfd
      refine ⟨acc.fds.release hsome, fun w fd' hw hfd' => Function.update_of_ne ?_ ..⟩
      rintro rfl
      exact hw (Option.some.inj (acc.fds.once (some w) (some v) fd' hfd' hsome))
    · rename_i hfd
      have hnone : p.holdsFd (some v) = none := hfd
      rw [← hnone, Function.update_eq_self]
      exact ⟨acc.fds, fun _ _ _ _ => rfl⟩
  refine ⟨hfds.1, ?_, fun w => ?_, fun call' out' h => absurd h (by simp [p'])⟩
  · rw [hholdsData, hmaps]
    exact acc.maps
  · by_cases hw : w = v
    · left
      rw [hw, hself]
      exact ⟨rfl, rfl⟩
    · refine (acc.segments w).frame (hother w hw) (fun fd => hfds.2 w fd hw) fun data hdata => ?_
      rw [hholdsData] at hdata
      exact ⟨hdata, by rw [hmaps]⟩

/-- A call starts; it has nothing in hand, and fills a closed segment. -/
theorem Accounted.start (acc : Accounted p) (hcall : p.running = none) {r : Running υ}
    (hhand : r.inHand = none) (hunmapped : r.unmapped = none)
    (hout : ∀ call out, r = .creating call out →
      0 < call.sizeBytes ∧ (p.segments out).fd = none ∧ (p.segments out).data = none) :
    Accounted { p with running := some r } := by
  set p' : Process υ := { p with running := some r }
  have hholdsFd : p'.holdsFd = p.holdsFd := by
    funext e
    cases e with
    | none =>
      show r.inHand = p.running.bind _
      rw [hhand, hcall]
      rfl
    | some w => rfl
  have hholdsData : p'.holdsData = p.holdsData := by
    funext w
    show (if r.unmapped = some w then _ else _) = _
    rw [hunmapped, Process.holdsData, hcall]
    rfl
  refine ⟨?_, ?_, fun v => (acc.segments v).frame rfl (fun _ _ => rfl) fun data hdata => ?_,
    fun call out h => hout call out (Option.some.inj h)⟩
  · rw [hholdsFd]
    exact acc.fds
  · rw [hholdsData]
    exact acc.maps
  · rw [hholdsData] at hdata
    exact ⟨hdata, rfl⟩

end

/-- **Step lemma.** -/
theorem Accounted.step {apple : Bool} {t : ι} {ns ns' : Namespace} {p p' : Process υ}
    {k : Label υ} {es : List (Event ι υ)} (acc : Accounted p)
    (hout : ∀ name sizeBytes out, k = .createOrOpen name sizeBytes (some out) →
      (p.segments out).fd = none ∧ (p.segments out).data = none)
    (hnext : next apple t ns p k = some (ns', p', es)) : Accounted p' := by
  rcases next_cases hnext with ⟨name, sizeBytes, out, rfl, hcall, -, hstart⟩ |
    ⟨seg, -, hcall, -, rfl, -⟩ | ⟨name, fails, -, rfl, -, -⟩ |
    ⟨answer, call, out, h, outcome, hcall, hstep, hproceed⟩ |
    ⟨seg, hcall, -, rfl, -⟩ | ⟨seg, hcall, -, rfl, -⟩
  · rcases startCall_cases hstart with ⟨rfl, -⟩ | ⟨n, v, rfl, rfl, hsize, -, rfl⟩
    · exact acc
    · refine acc.start hcall rfl rfl ?_
      rintro call out' heq
      cases heq
      exact ⟨hsize, hout _ _ _ rfl⟩
  · exact acc.start hcall rfl rfl nofun
  · exact acc
  · have hnew := acc.createOrOpen (t := t) hcall hstep
    rwa [hproceed] at hnew
  · exact acc.unmap hcall
  · exact acc.reset hcall

/-- **No leak.** In every run of processes that call `create_or_open_shared_memory` with closed
    segments, whatever the system calls answer. -/
theorem accounted_of_run [DecidableEq ι] {apple : Bool} {ns : Namespace} {tr : List (Event ι υ)}
    {c : Config ι Namespace (Process υ)}
    (run : (program ι υ apple ns).machine.RunIf ClosedOut tr c) (t : ι) :
    Accounted (c.threads t) := by
  refine Program.invariant (P := program ι υ apple ns)
    (I := fun _ c => ∀ t, Accounted (c.threads t)) (fun t => ?_) ?_ run t
  · have hnone : (program ι υ apple ns).start.holdsFd = fun _ => none := by
      funext e
      cases e <;> rfl
    refine ⟨?_, Owned.empty, fun v => .inl ⟨rfl, rfl⟩, nofun⟩
    show Owned _ (program ι υ apple ns).start.holdsFd
    rw [hnone]
    exact Owned.empty
  · intro tr c t k ns' p' es acc hok hnext
    refine Config.set_forall (p := fun _ => Accounted) ?_ fun u _ => acc u
    refine (acc t).step ?_ hnext
    rintro name sizeBytes out rfl
    exact hok

/-- When all segments are closed and no call is in progress, nothing is left. -/
theorem Accounted.nothing_left {p : Process υ} (acc : Accounted p) (hrunning : p.running = none)
    (hclosed : ∀ v, (p.segments v).fd = none ∧ (p.segments v).data = none) :
    (∀ fd, p.handles.fds fd = none) ∧ ∀ data, p.handles.maps data = none := by
  refine ⟨acc.fds.nothing_left fun e => ?_, acc.maps.nothing_left fun v => ?_⟩
  · cases e with
    | none =>
      show p.running.bind _ = none
      rw [hrunning]
      rfl
    | some v => exact (hclosed v).1
  · unfold Process.holdsData
    rw [(hclosed v).2]
    exact ite_self none

/-- No name is in use. -/
def noObjects : Namespace where
  names _ := none
  size _ := 0
  fresh := 0
  named_lt := nofun

/-- One segment is mapped, a second call fails and closes what it has opened, and the segment is
    closed, twice. -/
theorem accounted_of_run_two : ∃ tr c,
    (program (Fin 1) Bool false noObjects).machine.RunIf ClosedOut tr c ∧
    ((c.threads 0).segments true).fd = none ∧ ((c.threads 0).segments false).fd = none ∧
    Accounted (c.threads 0) := by
  obtain ⟨tr, c, run, h⟩ := Machine.exists_runIf
    (M := (program (Fin 1) Bool false noObjects).machine) (A := ClosedOut)
    (P := fun _ c => ((c.threads 0).segments true).fd = none ∧
      ((c.threads 0).segments false).fd = none)
    ([(0, .createOrOpen (some ['/', 'a']) 64 (some true)), (0, .step (some 3)),
      (0, .step (some 0)), (0, .step (some 0)), (0, .step (some 4096)),
      (0, .createOrOpen (some ['/', 'a']) 64 (some false)), (0, .step (some 4)),
      (0, .step none), (0, .step none), (0, .closeSharedMemory true), (0, .step none),
      (0, .step none), (0, .closeSharedMemory true), (0, .step none), (0, .step none)])
    (by decide +kernel)
  exact ⟨tr, c, run, h.1, h.2, accounted_of_run run 0⟩

end HopeThreading.SharedMemoryHandles
