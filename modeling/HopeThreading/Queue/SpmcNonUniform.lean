import HopeThreading.Memory.Bytes
import HopeThreading.Transition.Program
import HopeThreading.Words.PowTwo

namespace HopeThreading.SpmcBoundedNonUniformQueue

open Transition Memory Words

/-!
# `spmc_bounded_non_uniform_queue` — the model

A ring of `BufferSize` bytes.  One writer appends records of any size and publishes its
position; each consumer follows with a position of its own and never tells the writer.  A
record is a header of four bytes with the size, and the payload.  The payload follows the
header, or is put at offset `0` when it does not fit there; the header stays where it is.

* `place` — where a payload goes and where the next record starts, which the writer and the
  consumers compute each for themselves;
* `seirialize`, `tryDeserialize` — the calls as a whole;
* `program` — the writer and any number of consumers, one access at a time.

A size that does not fit 32 bits is cut in the header.  `seirialize` is given the bytes that
its function writes, so their number is the size.
-/

variable (c : PowTwo 64)

/-- The members that the functions use. -/
structure Shared where
  writerPos : BitVec 64
  buffer : Bytes

/-! ### Records -/

/-- `sizeof(uint32_t)`. -/
def sizeofHeader : BitVec 64 := 4#64

/-- `position & (BufferSize - 1)`. -/
def corrected (pos : BitVec 64) : BitVec 64 := pos &&& c.mask

/-- `(uint32_t)size`, for the number of bytes of a payload. -/
def headerOf (payload : List Byte) : BitVec 32 := (BitVec.ofNat 64 payload.length).setWidth 32

/-- `write_size(size, position)`. -/
def writeSize (buffer : Bytes) (size : BitVec 32) (position : Nat) : Bytes :=
  store buffer position ((List.range 4).map (byteOf size))

/-- `read_size(position)`. -/
def readSize (buffer : Bytes) (position : Nat) : BitVec 32 := ofBytes fun i => buffer (position + i)

/-- The offset of the payload of a record at `pos`, and the position after it. -/
def place (pos size : BitVec 64) : BitVec 64 × BitVec 64 :=
  if corrected c pos + size + sizeofHeader > c.size then
    (0#64, (pos / c.size + 1#64) * c.size + size)
  else (corrected c pos + sizeofHeader, pos + sizeofHeader + size)

/-- `seirialize(f, size)` for an `f` that writes `payload`. -/
def seirialize (q : Shared) (payload : List Byte) : Shared :=
  let size := BitVec.ofNat 64 payload.length
  let headed := writeSize q.buffer (headerOf payload) (corrected c q.writerPos).toNat
  { writerPos := (place c q.writerPos size).2,
    buffer := store headed (place c q.writerPos size).1.toNat payload }

/-- `try_deserialize(f)` of a consumer at `readPos`: `none` for `false`, else what `f` is
    given and the new position. -/
def tryDeserialize (q : Shared) (readPos : BitVec 64) :
    Option ((BitVec 32 × List Byte) × BitVec 64) :=
  if q.writerPos = readPos then none
  else
    let size := readSize q.buffer (corrected c readPos).toNat
    let (offset, next) := place c readPos (size.setWidth 64)
    some ((size, load q.buffer offset.toNat size.toNat), next)

/-! ### The threads -/

/-- Where a thread is.  The writer is `idle` or inside of `seirialize`; a consumer is `idle`
    until it is created, and then has its `m_local_read_position`. -/
inductive Local
  | idle
  /-- `write_pos_absolute = m_writer_pos.load()`. -/
  | loadPos (payload : List Byte)
  /-- `write_size(size, writer_pos)`. -/
  | writeHeader (payload : List Byte) (pos : BitVec 64)
  /-- Byte `i` of `f`, then `m_writer_pos.store(position_after_write)`. -/
  | writePayload (payload : List Byte) (pos : BitVec 64) (i : Nat)
  | ready (readPos : BitVec 64)
  /-- `writer_pos = m_writer_pos.load()` and the comparison. -/
  | readWriterPos (readPos : BitVec 64)
  /-- `read_size(corrected_read_position)`. -/
  | readHeader (readPos : BitVec 64)
  /-- Set `m_local_read_position`. -/
  | advance (readPos : BitVec 64) (size : BitVec 32)
  /-- The next byte of `f`, for the record at `start`, or its return. -/
  | callback (start readPos offset : BitVec 64) (size : BitVec 32) (read : List Byte)

/-- What an observer sees: records that were written, and what the consumers get. -/
inductive Event (ι : Type*)
  /-- `seirialize` has published `payload`, and the position after it. -/
  | wrote (payload : List Byte) (pos : BitVec 64)
  | created (t : ι)
  /-- The callback of a `try_deserialize` has read its bytes. -/
  | received (t : ι) (size : BitVec 32) (read : List Byte)
  /-- `try_deserialize` returned `false`. -/
  | refused (t : ι)

/-- Start a call, or do the next access of the one the thread is in. -/
inductive Label
  | seirialize (payload : List Byte)
  | createConsumer
  | tryDeserialize
  | step

variable {ι : Type*}

/-- The next access of the writer. -/
def writerStep (q : Shared) : Local → Option (Shared × Local × List (Event ι))
  | .loadPos payload => some (q, .writeHeader payload q.writerPos, [])
  | .writeHeader payload pos =>
    let headed := writeSize q.buffer (headerOf payload) (corrected c pos).toNat
    some ({ q with buffer := headed }, .writePayload payload pos 0, [])
  | .writePayload payload pos i =>
    let (offset, next) := place c pos (BitVec.ofNat 64 payload.length)
    match payload[i]? with
    | some b =>
      some ({ q with buffer := store q.buffer (offset.toNat + i) [b] },
        .writePayload payload pos (i + 1), [])
    | none => some ({ q with writerPos := next }, .idle, [.wrote payload next])
  | _ => none

/-- The next access of consumer `t`. -/
def consumerStep (t : ι) (q : Shared) : Local → Option (Shared × Local × List (Event ι))
  | .readWriterPos readPos =>
    if q.writerPos = readPos then some (q, .ready readPos, [.refused t])
    else some (q, .readHeader readPos, [])
  | .readHeader readPos =>
    some (q, .advance readPos (readSize q.buffer (corrected c readPos).toNat), [])
  | .advance readPos size =>
    let (offset, next) := place c readPos (size.setWidth 64)
    some (q, .callback readPos next offset size [], [])
  | .callback start readPos offset size read =>
    if read.length < size.toNat then
      let b := q.buffer (offset.toNat + read.length)
      some (q, .callback start readPos offset size (read ++ [b]), [])
    else some (q, .ready readPos, [.received t size read])
  | _ => none

/-- Thread `none` is the writer, the others are consumers.  A consumer is created with the
    position of the writer. -/
def next (q : Shared) (l : Local) :
    Option ι → Label → Option (Shared × Local × List (Event ι))
  | none, .seirialize payload => if l matches .idle then some (q, .loadPos payload, []) else none
  | some t, .createConsumer =>
    if l matches .idle then some (q, .ready q.writerPos, [.created t]) else none
  | some _, .tryDeserialize =>
    match l with
    | .ready readPos => some (q, .readWriterPos readPos, [])
    | _ => none
  | none, .step => writerStep c q l
  | some t, .step => consumerStep c t q l
  | _, _ => none

/-- The writer and the consumers `ι` on a queue whose buffer holds `raw` at first. -/
def program (ι : Type*) (raw : Bytes) : Program (Option ι) Shared Local Label (Event ι) where
  shared := { writerPos := 0#64, buffer := raw }
  start := .idle
  next t q l k := next c q l t k

/-- **Step inversion.** -/
theorem next_cases {q q' : Shared} {l l' : Local} {t : Option ι} {k : Label}
    {es : List (Event ι)} (h : next c q l t k = some (q', l', es)) :
    (∃ payload, t = none ∧ l = .idle ∧ q' = q ∧ l' = .loadPos payload ∧ es = []) ∨
    (∃ r, t = some r ∧ l = .idle ∧ q' = q ∧ l' = .ready q.writerPos ∧ es = [.created r]) ∨
    (∃ r readPos, t = some r ∧ l = .ready readPos ∧ q' = q ∧ l' = .readWriterPos readPos ∧
      es = []) ∨
    (t = none ∧ k = .step ∧ writerStep c q l = some (q', l', es)) ∨
    (∃ r, t = some r ∧ consumerStep c r q l = some (q', l', es)) := by
  cases t with
  | none =>
    cases k with
    | seirialize payload =>
      simp only [next] at h
      split at h <;> cases h
      exact .inl ⟨payload, rfl, rfl, rfl, rfl, rfl⟩
    | createConsumer => exact absurd h (by simp [next])
    | tryDeserialize => exact absurd h (by simp [next])
    | step => exact .inr (.inr (.inr (.inl ⟨rfl, rfl, h⟩)))
  | some r =>
    cases k with
    | seirialize payload => exact absurd h (by simp [next])
    | createConsumer =>
      simp only [next] at h
      split at h <;> cases h
      exact .inr (.inl ⟨r, rfl, rfl, rfl, rfl, rfl⟩)
    | tryDeserialize =>
      simp only [next] at h
      split at h <;> cases h
      exact .inr (.inr (.inl ⟨r, _, rfl, rfl, rfl, rfl, rfl⟩))
    | step => exact .inr (.inr (.inr (.inr ⟨r, rfl, h⟩)))

end HopeThreading.SpmcBoundedNonUniformQueue
