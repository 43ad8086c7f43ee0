import Mathlib.Algebra.Group.Nat.Defs
import HopeThreading.Transition.Program

namespace HopeThreading.SharedMemory

open Transition

/-!
# `create_or_open_shared_memory` — the model

The POSIX branch of the function, over the namespace of shared-memory objects that all
processes of the system see.  A process is a thread of the program, and each system call is one
atomic step on the namespace.  What may go wrong in the kernel is up to the scheduler: the label
of a step says whether its system call fails.

A descriptor is the object it was opened for; closing one changes nothing that another process
can see.
-/

/-- A name, as the characters before the terminating zero. -/
abbrev Name := List Char

/-- An object, told from the others by the order of creation. -/
abbrev Object := Nat

/-- What the names refer to, and the size of each object.  A name that was unlinked refers to
    nothing, and its object lives on for those that have opened it. -/
structure Namespace where
  names : Name → Option Object
  size : Object → Nat
  /-- The next object to be created. -/
  fresh : Object
  named_lt : ∀ n o, names n = some o → o < fresh

namespace Namespace

/-- `shm_open(name, O_RDWR | O_CREAT)`: what the name refers to, if necessary a new object of
    size zero. -/
def shmOpen (ns : Namespace) (name : Name) : Namespace × Object :=
  match h : ns.names name with
  | some o => (ns, o)
  | none =>
    ({ names := Function.update ns.names name (some ns.fresh)
       size := Function.update ns.size ns.fresh 0
       fresh := ns.fresh + 1
       named_lt := fun n o hn => by
        by_cases hname : n = name
        · rw [hname, Function.update_self] at hn
          exact Option.some.inj hn ▸ Nat.lt_succ_self _
        · rw [Function.update_of_ne hname] at hn
          exact Nat.lt_succ_of_lt (ns.named_lt n o hn) }, ns.fresh)

/-- `ftruncate(fd, size)`. -/
def ftruncate (ns : Namespace) (fd : Object) (size : Nat) : Namespace :=
  { ns with size := Function.update ns.size fd size }

/-- `shm_unlink(name)`. -/
def shmUnlink (ns : Namespace) (name : Name) : Namespace where
  names := Function.update ns.names name none
  size := ns.size
  fresh := ns.fresh
  named_lt n o hn := by
    by_cases hname : n = name
    · rw [hname, Function.update_self] at hn
      exact absurd hn (by simp)
    · rw [Function.update_of_ne hname] at hn
      exact ns.named_lt n o hn

end Namespace

/-- The values the function itself stores into `errno`. -/
inductive Errno
  | EINVAL
  | ENAMETOOLONG
  deriving DecidableEq

/-- `k_posix_shm_name_max`. -/
def posixShmNameMax : Nat := 31

/-- `is_valid_shared_memory_name`; `apple` is the macro of that platform. -/
def isValidSharedMemoryName (apple : Bool) : Name → Bool
  | [] => false
  | c :: cs => c = '/' && cs.all (· ≠ '/') && !(apple && posixShmNameMax < (c :: cs).length)

/-- The `errno` of a name that is not valid. -/
def invalidName (apple : Bool) (name : Name) : Errno :=
  if apple && name.head? = some '/' && posixShmNameMax < name.length then .ENAMETOOLONG
  else .EINVAL

/-- A filled `shared_memory_segment`: the object that is mapped at `data` and open as `fd`. -/
structure Segment where
  object : Object
  size : Nat
  createdNew : Bool

/-- Where a process is inside the function: the system call it does next, with the descriptor
    in hand. -/
inductive Pc
  /-- `shm_open(name, O_RDWR | O_CREAT, 0600)`. -/
  | shmOpen (attempt : Nat)
  /-- `fstat(fd, &st)`. -/
  | fstat (attempt : Nat) (fd : Object)
  /-- `ftruncate(fd, size_bytes)`. -/
  | ftruncate (fd : Object)
  /-- `close(fd)` for an object that is too small. -/
  | close (attempt : Nat) (fd : Object)
  /-- `shm_unlink(name)`. -/
  | shmUnlink (attempt : Nat)
  /-- `mmap` in `map_fd`. -/
  | mmap (fd : Object) (createdNew : Bool)
  /-- `close(fd)` before the function fails. -/
  | closeFailed (fd : Object)

/-- What comes after a system call: the next one, or the return. -/
inductive Outcome
  | goesOn (pc : Pc)
  /-- `return false`, with what the function has stored into `errno`. -/
  | failed (errno : Option Errno)
  | mapped (segment : Segment)

/-- The first size that the cast to `off_t` makes negative. -/
def offTBound : Nat := 2 ^ 63

/-- The head of the `for` loop. -/
def enterAttempt (attempt : Nat) : Outcome :=
  if attempt < 2 then .goesOn (.shmOpen attempt) else .failed none

/-- One system call of `create_or_open_shared_memory(name, size_bytes, out)`, with valid
    arguments. -/
def createOrOpen (ns : Namespace) (name : Name) (sizeBytes : Nat) (fails : Bool) :
    Pc → Namespace × Outcome
  | .shmOpen attempt =>
    if fails then (ns, .failed none)
    else ((ns.shmOpen name).1, .goesOn (.fstat attempt (ns.shmOpen name).2))
  | .fstat attempt fd =>
    if fails then (ns, .goesOn (.closeFailed fd))
    else if ns.size fd = 0 then (ns, .goesOn (.ftruncate fd))
    else if ns.size fd < sizeBytes then (ns, .goesOn (.close attempt fd))
    else (ns, .goesOn (.mmap fd false))
  | .ftruncate fd =>
    if fails || offTBound ≤ sizeBytes then (ns, .goesOn (.closeFailed fd))
    else (ns.ftruncate fd sizeBytes, .goesOn (.mmap fd true))
  | .close attempt _ =>
    if attempt = 0 then (ns, .goesOn (.shmUnlink attempt)) else (ns, .failed (some .EINVAL))
  | .shmUnlink attempt =>
    -- the result is not looked at
    (if fails then ns else ns.shmUnlink name, enterAttempt (attempt + 1))
  | .mmap fd createdNew =>
    if fails then (ns, .goesOn (.closeFailed fd))
    else (ns, .mapped { object := fd, size := sizeBytes, createdNew := createdNew })
  | .closeFailed _ => (ns, .failed none)

/-- A call in progress: its arguments, and where it is. -/
structure Call where
  name : Name
  sizeBytes : Nat
  pc : Pc

/-- A process: the segments its calls have filled, and the call it is in. -/
structure Process where
  segments : List Segment
  call : Option Call

/-- Start a call, with `name` possibly null and `out` null or not, or do the next system call of
    the one the process is in, which may fail. -/
inductive Label
  | createOrOpen (name : Option Name) (sizeBytes : Nat) (out : Bool)
  | step (fails : Bool)

/-- The returns. -/
inductive Event (ι : Type*)
  | failed (t : ι) (errno : Option Errno)
  | mapped (t : ι) (segment : Segment)

variable {ι : Type*}

/-- A process after a system call of its call. -/
def Process.proceed (t : ι) (p : Process) (call : Call) : Outcome → Process × List (Event ι)
  | .goesOn pc => ({ p with call := some { call with pc := pc } }, [])
  | .failed errno => ({ p with call := none }, [.failed t errno])
  | .mapped segment =>
    ({ segments := p.segments ++ [segment], call := none }, [.mapped t segment])

/-- The checks of the arguments, up to the head of the loop. -/
def startCall (apple : Bool) (t : ι) (p : Process) :
    Option Name → Nat → Bool → Process × List (Event ι)
  | none, _, _ => (p, [.failed t none])
  | some name, sizeBytes, out =>
    if !out || sizeBytes = 0 then (p, [.failed t none])
    else if !isValidSharedMemoryName apple name then
      (p, [.failed t (some (invalidName apple name))])
    else p.proceed t { name := name, sizeBytes := sizeBytes, pc := .shmOpen 0 } (enterAttempt 0)

/-- One step of process `t`. -/
def next (apple : Bool) (t : ι) (ns : Namespace) (p : Process) :
    Label → Option (Namespace × Process × List (Event ι))
  | .createOrOpen name sizeBytes out =>
    match p.call with
    | none => some (ns, startCall apple t p name sizeBytes out)
    | some _ => none
  | .step fails =>
    match p.call with
    | none => none
    | some call =>
      some ((createOrOpen ns call.name call.sizeBytes fails call.pc).1,
        p.proceed t call (createOrOpen ns call.name call.sizeBytes fails call.pc).2)

/-- Processes `ι` that have mapped nothing yet, over the objects that are there. -/
def program (ι : Type*) (apple : Bool) (ns : Namespace) :
    Program ι Namespace Process Label (Event ι) where
  shared := ns
  start := { segments := [], call := none }
  next := next apple

/-- **Step inversion.** A call that fails its checks, the start of one, or a system call. -/
theorem next_cases {apple : Bool} {t : ι} {ns ns' : Namespace} {p p' : Process} {k : Label}
    {es : List (Event ι)} (h : next apple t ns p k = some (ns', p', es)) :
    (ns' = ns ∧ p' = p) ∨
    (∃ name sizeBytes out, k = .createOrOpen (some name) sizeBytes out ∧ ns' = ns ∧
      p' = { p with call := some { name := name, sizeBytes := sizeBytes, pc := .shmOpen 0 } }) ∨
    (∃ call fails, k = .step fails ∧ p.call = some call ∧
      ns' = (createOrOpen ns call.name call.sizeBytes fails call.pc).1 ∧
      p' = (p.proceed t call (createOrOpen ns call.name call.sizeBytes fails call.pc).2).1) := by
  cases k with
  | createOrOpen name sizeBytes out =>
    simp only [next] at h
    split at h
    · obtain ⟨rfl, heq⟩ := Prod.mk.inj (Option.some.inj h)
      cases name with
      | none =>
        obtain ⟨rfl, -⟩ := Prod.mk.inj heq
        exact .inl ⟨rfl, rfl⟩
      | some name =>
        simp only [startCall] at heq
        split at heq
        · obtain ⟨rfl, -⟩ := Prod.mk.inj heq
          exact .inl ⟨rfl, rfl⟩
        · split at heq
          · obtain ⟨rfl, -⟩ := Prod.mk.inj heq
            exact .inl ⟨rfl, rfl⟩
          · obtain ⟨rfl, -⟩ := Prod.mk.inj heq
            exact .inr (.inl ⟨name, sizeBytes, out, rfl, rfl, rfl⟩)
    · exact absurd h (by simp)
  | step fails =>
    simp only [next] at h
    split at h
    · exact absurd h (by simp)
    · rename_i call hcall
      obtain ⟨rfl, heq⟩ := Prod.mk.inj (Option.some.inj h)
      exact .inr (.inr ⟨call, fails, rfl, hcall, rfl, congrArg Prod.fst heq.symm⟩)

end HopeThreading.SharedMemory
