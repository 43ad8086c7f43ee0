import Mathlib.Tactic.TypeStar

namespace HopeThreading

/-!
# Thread and processor ids

`get_thread_id()` asks the operating system on Windows and macOS, and returns the constant
`0` on Linux.  The locks keep 32 bits of it.
-/

/-- The branches of `#if` in `thread_id.h`. -/
inductive Platform
  | windows
  | linux
  | osx
  deriving DecidableEq

/-- `get_thread_id()` on thread `t`, as the locks store it; `native` are the ids of the
    operating system. -/
def getThreadId {ι : Type*} (platform : Platform) (native : ι → BitVec 32) (t : ι) : BitVec 32 :=
  match platform with
  | .windows | .osx => native t
  | .linux => 0#32

/-- On Linux every thread has the same id, and it is `0`. -/
@[simp]
theorem getThreadId_linux {ι : Type*} (native : ι → BitVec 32) (t : ι) :
    getThreadId .linux native t = 0#32 := rfl

end HopeThreading
