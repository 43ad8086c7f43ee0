import HopeThreading.Queue.SpmcNonUniformSequential

namespace HopeThreading.SpmcBoundedNonUniformQueue

open Memory Transition Words

/-!
# `spmc_bounded_non_uniform_queue` — staying inside of the buffer

Consumers that have read every record before the next one is written.  Two things take an
access out of the buffer, and both depend only on the positions and sizes of the records:

* `seirialize` writes the header before it looks whether the record fits, so a header in the
  last three bytes of the ring ends behind it;
* a wrapped payload that is longer than the offset of its header overwrites `n` bytes of it
  (`overwritten`), and if these can say more than the size of the buffer, the consumer takes
  what they say for the length of a payload.

Without both (`Spaced`) all accesses are inside, and with one of them some bytes in the records
lead outside (`inBuffer_iff`).  While no payload reaches its header at all (`Clear`), every
consumer that calls `try_deserialize` after each record has read it, that is, it stands at the
position of the writer (`Session.InStep`).
-/

variable {c : PowTwo 64}

/-! ### Sessions -/

/-- A queue and the `m_local_read_position` of each of its consumers. -/
structure Session where
  queue : Shared
  readers : List (BitVec 64)

/-- A consumer is created, or a record is written and then every consumer calls
    `try_deserialize`. -/
inductive Round
  | createConsumer
  | seirialize (payload : List Byte)

/-- One round: a consumer starts at the position of the writer, or a record is written and every
    consumer tries to read. -/
def Session.after (c : PowTwo 64) (s : Session) : Round → Session
  | .createConsumer => { s with readers := s.queue.writerPos :: s.readers }
  | .seirialize payload =>
    let q := SpmcBoundedNonUniformQueue.seirialize c s.queue payload
    { queue := q, readers := s.readers.map fun r => (tryDeserialize c q r).elim r (·.2) }

/-- Writing a record, and then reading it for each consumer that has read all records before it,
    stay inside of the buffer. -/
def InBuffer (c : PowTwo 64) (s : Session) : Round → Prop
  | .createConsumer => True
  | .seirialize payload =>
    let q := seirialize c s.queue payload
    RecordIn c s.queue.writerPos (BitVec.ofNat 64 payload.length) ∧
      ∀ r ∈ s.readers, r = s.queue.writerPos →
        RecordIn c r ((readSize q.buffer (corrected c r).toNat).setWidth 64)

/-- Every consumer has read everything. -/
def Session.InStep (s : Session) : Prop := ∀ r ∈ s.readers, r = s.queue.writerPos

/-! ### The condition -/

/-- A round without the bytes of the record. -/
inductive Request
  | createConsumer
  | seirialize (size : Nat)
  deriving DecidableEq

/-- What a call asks for, without the bytes of the record. -/
def Round.request : Round → Request
  | .createConsumer => .createConsumer
  | .seirialize payload => .seirialize payload.length

/-- The position of the writer, and whether there is a consumer. -/
structure Track where
  pos : BitVec 64
  watched : Bool

/-- At the beginning nothing is written, and there is no consumer. -/
def Track.init : Track where
  pos := 0#64
  watched := false

/-- One call, as far as positions go. -/
def Track.after (c : PowTwo 64) (s : Track) : Request → Track
  | .createConsumer => { s with watched := true }
  | .seirialize size => { s with pos := (place c s.pos (BitVec.ofNat 64 size)).2 }

/-- How many bytes of its header a payload of `size` bytes overwrites: it begins at offset `0`
    when it wraps. -/
def overwritten (c : PowTwo 64) (pos size : Nat) : Nat :=
  if Wraps c pos size then min 4 (size - pos % c.toNat) else 0

/-- The header of the record does not cross the end of the buffer, and if somebody reads it, the
    bytes of it that are overwritten cannot say more than the size of the buffer. -/
def Spaced (c : PowTwo 64) (s : Track) : Request → Prop
  | .createConsumer => True
  | .seirialize size => s.pos.toNat % c.toNat + 4 ≤ c.toNat ∧
      (s.watched = true → 256 ^ overwritten c s.pos.toNat size ≤ c.toNat)

/-- The header of the record does not cross the end of the buffer either, has room for the size,
    and no byte of it is overwritten. -/
def Clear (c : PowTwo 64) (s : Track) : Request → Prop
  | .createConsumer => True
  | .seirialize size => s.pos.toNat % c.toNat + 4 ≤ c.toNat ∧ size < 2 ^ 32 ∧
      overwritten c s.pos.toNat size = 0

instance (s : Track) : (a : Request) → Decidable (Spaced c s a)
  | .createConsumer => isTrue trivial
  | .seirialize _ => inferInstanceAs (Decidable (_ ∧ (_ → _)))

instance (s : Track) : (a : Request) → Decidable (Clear c s a)
  | .createConsumer => isTrue trivial
  | .seirialize _ => inferInstanceAs (Decidable (_ ∧ _ ∧ _))

/-- The payload reaches at most the four bytes of its own size. -/
theorem overwritten_le (pos size : Nat) : overwritten c pos size ≤ 4 := by
  unfold overwritten
  split
  · exact Nat.min_le_left ..
  · exact Nat.zero_le _

/-- Of a power of two that is not above it, the size of the buffer is a multiple. -/
theorem pow_dvd_toNat {n : Nat} (h : 256 ^ n ≤ c.toNat) : 256 ^ n ∣ c.toNat := by
  have hpow : 256 ^ n = 2 ^ (8 * n) := by rw [Nat.pow_mul]
  rw [hpow] at h ⊢
  exact Nat.pow_dvd_pow 2 ((Nat.pow_le_pow_iff_right (by decide)).mp h)

/-- A power of two above it is above it by far. -/
theorem lt_pow_sub_one {n : Nat} (hB : 2 ≤ c.toNat) (h : c.toNat < 256 ^ n) :
    c.toNat < 256 ^ n - 1 := by
  have hpow : 256 ^ n = 2 ^ (8 * n) := by rw [Nat.pow_mul]
  rw [hpow] at h ⊢
  have hexp : c.exp < 8 * n := (Nat.pow_lt_pow_iff_right (by decide)).mp h
  have hdouble : 2 ^ (c.exp + 1) ≤ 2 ^ (8 * n) := Nat.pow_le_pow_right (by decide) hexp
  have htwo : 2 ^ (c.exp + 1) = c.toNat * 2 := Nat.pow_succ ..
  omega

/-! ### What the header can say -/

section

variable {pos : Nat} {payload : List Byte}

/-- The bytes behind those that are overwritten. -/
theorem storedByte_of_overwritten_le {i : Nat} (hi : overwritten c pos payload.length ≤ i)
    (hlt : i < 4) : storedByte c pos payload i = byteOf (headerOf payload) i := by
  unfold overwritten at hi
  unfold storedByte
  by_cases hw : Wraps c pos payload.length
  · rw [if_pos hw] at hi ⊢
    rw [List.getElem?_eq_none (by omega)]
    rfl
  · rw [if_neg hw]

/-- **At most the size of the buffer.** -/
theorem storedSize_le (hlen : payload.length + 4 ≤ c.toNat)
    (hroom : 256 ^ overwritten c pos payload.length ≤ c.toNat) :
    (storedSize c pos payload).toNat ≤ c.toNat := by
  have hlt := toNat_ofBytes_lt (overwritten_le (c := c) pos payload.length)
    fun i (hi : overwritten c pos payload.length ≤ i) hi4 => storedByte_of_overwritten_le hi hi4
  have hheader : (headerOf payload).toNat < c.toNat := by
    rw [headerOf, BitVec.toNat_setWidth, BitVec.toNat_ofNat]
    have := Nat.mod_le (payload.length % 2 ^ 64) (2 ^ 32)
    have := Nat.mod_le payload.length (2 ^ 64)
    omega
  -- the size of the buffer is a multiple of what the overwritten bytes count up to
  obtain ⟨m, hm⟩ := pow_dvd_toNat hroom
  have hdigits : (headerOf payload).toNat / 256 ^ overwritten c pos payload.length < m :=
    Nat.div_lt_of_lt_mul (hm ▸ hheader)
  have hle := Nat.mul_le_mul_right (256 ^ overwritten c pos payload.length) hdigits
  rw [Nat.mul_comm m, ← hm] at hle
  exact (hlt.trans_le hle).le

/-- **As much as the overwritten bytes can say**, if they are all `255`. -/
theorem le_storedSize (hall : ∀ b ∈ payload, b = 255#8) :
    256 ^ overwritten c pos payload.length - 1 ≤ (storedSize c pos payload).toNat := by
  refine le_toNat_ofBytes (overwritten_le pos payload.length) fun i hi => ?_
  unfold overwritten at hi
  unfold storedByte
  by_cases hw : Wraps c pos payload.length
  · rw [if_pos hw] at hi ⊢
    have hlt : pos % c.toNat + i < payload.length := by omega
    rw [List.getElem?_eq_getElem hlt]
    exact hall _ (List.getElem_mem hlt)
  · rw [if_neg hw] at hi
    exact absurd hi (Nat.not_lt_zero i)

/-- A payload that does not reach its header keeps it. -/
theorem headerKept_of_overwritten (hlen : payload.length < 2 ^ 32)
    (h : overwritten c pos payload.length = 0) : HeaderKept c pos payload := by
  refine ⟨hlen, fun hw i hi b hb => ?_⟩
  rw [overwritten, if_pos hw] at h
  rw [List.getElem?_eq_none (by omega)] at hb
  exact absurd hb (by simp)

end

/-- A payload of `size` bytes that has the bytes of its header wherever it overwrites them. -/
def keeping (c : PowTwo 64) (pos size : Nat) : List Byte :=
  (List.range size).map fun j =>
    byteOf ((BitVec.ofNat 64 size).setWidth 32) (j - pos % c.toNat)

/-- The payload that keeps the size has the length asked for. -/
@[simp]
theorem length_keeping (pos size : Nat) : (keeping c pos size).length = size := by
  simp [keeping]

/-- With that payload the size is kept. -/
theorem headerKept_keeping {pos size : Nat} (hsize : size < 2 ^ 32) :
    HeaderKept c pos (keeping c pos size) := by
  refine ⟨by rwa [length_keeping], fun _ i hi b hb => ?_⟩
  obtain ⟨j, hj, rfl⟩ := Option.map_eq_some_iff.mp ((List.getElem?_map ..).symm.trans hb)
  obtain ⟨-, rfl⟩ := List.getElem?_eq_some_iff.mp hj
  rw [headerOf, length_keeping, List.getElem_range, Nat.add_sub_cancel_left]

/-! ### One round -/

/-- What the condition knows of a session. -/
structure Tracks (s : Session) (t : Track) : Prop where
  pos : s.queue.writerPos = t.pos
  watched : t.watched = true ↔ s.readers ≠ []

section

variable {s : Session} {t : Track} {payload : List Byte}

/-- At the beginning the positions are those of the queue. -/
theorem tracks_init (raw : Bytes) : Tracks ⟨Shared.init raw, []⟩ Track.init where
  pos := rfl
  watched := by simp [Track.init]

/-- Each call moves the positions as it moves the queue. -/
theorem Tracks.after (h : Tracks s t) (a : Round) :
    Tracks (s.after c a) (t.after c a.request) := by
  cases a with
  | createConsumer =>
    exact ⟨h.pos, by simp [Session.after, Track.after, Round.request]⟩
  | seirialize payload =>
    refine ⟨?_, ?_⟩
    · show (place c s.queue.writerPos _).2 = (place c t.pos _).2
      rw [h.pos]
    · simp only [Session.after, Track.after, Round.request, ne_eq, List.map_eq_nil_iff]
      exact h.watched

/-- A consumer that is created has nothing to read. -/
theorem Session.InStep.createConsumer (h : s.InStep) : (s.after c .createConsumer).InStep := by
  intro r hr
  rcases List.mem_cons.mp hr with rfl | hr
  · rfl
  · exact h r hr

/-- A record that keeps its header is read by every consumer. -/
theorem Session.InStep.seirialize (h : s.InStep) (hlen : payload.length + 4 ≤ c.toNat)
    (hkept : HeaderKept c s.queue.writerPos.toNat payload) :
    (s.after c (.seirialize payload)).InStep := by
  intro r' hr'
  obtain ⟨r, hr, rfl⟩ := List.mem_map.mp hr'
  obtain rfl := h r hr
  have hread := tryDeserialize_seirialize (c := c) s.queue hlen
  simp only at hread
  rw [hread, storedSize_eq_iff.mpr hkept.2, setWidth_headerOf hkept.1]
  rfl

/-- **Enough.** -/
theorem inBuffer_of_spaced (htracks : Tracks s t) (hlen : payload.length + 4 ≤ c.toNat)
    (h : Spaced c t (.seirialize payload.length)) : InBuffer c s (.seirialize payload) := by
  have hhalf := c.toNat_le_half
  obtain ⟨hfits, hroom⟩ := h
  rw [← htracks.pos] at hfits hroom
  refine ⟨(recordIn_iff _ (hlen.trans hhalf)).mpr ⟨hfits, by omega⟩, fun r hr hstep => ?_⟩
  subst hstep
  have hle := storedSize_le hlen (hroom (htracks.watched.mpr (List.ne_nil_of_mem hr)))
  have hlt := (storedSize c s.queue.writerPos.toNat payload).isLt
  rw [readSize_seirialize _ (hlen.trans hhalf), ← BitVec.ofNat_toNat]
  exact (recordIn_iff _ (by omega)).mpr ⟨hfits, hle⟩

/-- **Necessary**, for a payload of bytes `255`. -/
theorem spaced_of_inBuffer (htracks : Tracks s t) (hlen : payload.length + 4 ≤ c.toNat)
    (hall : ∀ b ∈ payload, b = 255#8) (hstep : c.toNat < 2 ^ 32 → s.InStep)
    (h : InBuffer c s (.seirialize payload)) : Spaced c t (.seirialize payload.length) := by
  have hhalf := c.toNat_le_half
  obtain ⟨hwritten, hread⟩ := h
  obtain ⟨hfits, -⟩ := (recordIn_iff _ (hlen.trans hhalf)).mp hwritten
  refine ⟨htracks.pos ▸ hfits, fun hwatched => ?_⟩
  rw [← htracks.pos]
  by_contra hgt
  rw [Nat.not_le] at hgt
  -- the bytes of a header say less than `2 ^ 32`
  have hmost : 256 ^ overwritten c s.queue.writerPos.toNat payload.length ≤ 256 ^ 4 :=
    Nat.pow_le_pow_right (by decide) (overwritten_le ..)
  have hsmall : c.toNat < 2 ^ 32 := hgt.trans_le hmost
  obtain ⟨r, hr⟩ := List.exists_mem_of_ne_nil _ (htracks.watched.mp hwatched)
  obtain rfl := hstep hsmall r hr
  have hlt := (storedSize c s.queue.writerPos.toNat payload).isLt
  have hin := hread _ hr rfl
  rw [readSize_seirialize _ (hlen.trans hhalf), ← BitVec.ofNat_toNat] at hin
  have hle := ((recordIn_iff _ (by omega)).mp hin).2
  have hlarge : 256 ^ overwritten c s.queue.writerPos.toNat payload.length - 1 ≤
      (storedSize c s.queue.writerPos.toNat payload).toNat := le_storedSize hall
  have := lt_pow_sub_one (by omega) hgt
  omega

end

/-! ### Along every sequence -/

/-- Every request can be made. -/
def Request.fill : Request → Round
  | .createConsumer => .createConsumer
  | .seirialize size => .seirialize (List.replicate size 255#8)

/-- The call that was made up for a request asks for it. -/
theorem request_fill (a : Request) : a.fill.request = a := by
  cases a with
  | createConsumer => rfl
  | seirialize size => simp [Request.fill, Round.request]

/-- The calls that were made up for a list of requests ask for it. -/
theorem map_request_fill (requests : List Request) :
    (requests.map Request.fill).map Round.request = requests := by
  rw [List.map_map]
  exact List.map_id'' (fun a => request_fill a) requests

/-- Every round of a sequence fits. -/
def AllSmall (c : PowTwo 64) (requests : List Request) : Prop :=
  ∀ size, Request.seirialize size ∈ requests → size + 4 ≤ c.toNat

/-- While the positions stay clear of the end, every access of the queue is inside the ring. -/
theorem along_inBuffer {s : Session} {t : Track} {rounds : List Round} (htracks : Tracks s t)
    (hsmall : AllSmall c (rounds.map Round.request))
    (h : Along (Track.after c) (Spaced c) t (rounds.map Round.request)) :
    Along (Session.after c) (InBuffer c) s rounds := by
  induction rounds generalizing s t with
  | nil => trivial
  | cons a rest ih =>
    obtain ⟨hfirst, hrest⟩ := h
    refine ⟨?_, ih (htracks.after a) (fun size hsize => hsmall size (.tail _ hsize)) hrest⟩
    cases a with
    | createConsumer => trivial
    | seirialize payload => exact inBuffer_of_spaced htracks (hsmall _ (.head _)) hfirst

/-- While every record before keeps its header, the next one may have any bytes. -/
theorem along_spaced {s : Session} {t : Track} {requests : List Request} (htracks : Tracks s t)
    (hsmall : AllSmall c requests) (hstep : c.toNat < 2 ^ 32 → s.InStep)
    (h : ∀ rounds, rounds.map Round.request = requests →
      Along (Session.after c) (InBuffer c) s rounds) :
    Along (Track.after c) (Spaced c) t requests := by
  induction requests generalizing s t with
  | nil => trivial
  | cons a rest ih =>
    have hrest : AllSmall c rest := fun size hsize => hsmall size (.tail _ hsize)
    cases a with
    | createConsumer =>
      refine ⟨trivial, ih (htracks.after .createConsumer) hrest
        (fun hlt => (hstep hlt).createConsumer) fun rounds hrounds => ?_⟩
      exact (h (.createConsumer :: rounds) (by rw [List.map_cons, hrounds]; rfl)).2
    | seirialize size =>
      have hlen : size + 4 ≤ c.toNat := hsmall size (.head _)
      constructor
      · -- a payload of the largest bytes
        have hround := (h (.seirialize (List.replicate size 255#8) :: rest.map Request.fill)
          (by rw [List.map_cons, map_request_fill]; simp [Round.request])).1
        have hspaced := spaced_of_inBuffer htracks (by simpa using hlen)
          (fun b hb => List.eq_of_mem_replicate hb) hstep hround
        rwa [List.length_replicate] at hspaced
      · -- a payload that leaves the header as it is
        have hafter := htracks.after (c := c)
          (.seirialize (keeping c s.queue.writerPos.toNat size))
        rw [Round.request, length_keeping] at hafter
        refine ih hafter hrest (fun hlt => ?_) fun rounds hrounds => ?_
        · exact (hstep hlt).seirialize (by simpa using hlen) (headerKept_keeping (by omega))
        · refine (h (.seirialize (keeping c s.queue.writerPos.toNat size) :: rounds) ?_).2
          rw [List.map_cons, hrounds, Round.request, length_keeping]

/-- While no payload reaches its header, every consumer reads every record. -/
theorem inStep_of_clear {s : Session} {t : Track} {rounds : List Round} (htracks : Tracks s t)
    (hsmall : AllSmall c (rounds.map Round.request)) (hstep : s.InStep)
    (h : Along (Track.after c) (Clear c) t (rounds.map Round.request)) :
    (rounds.foldl (Session.after c) s).InStep := by
  induction rounds generalizing s t with
  | nil => exact hstep
  | cons a rest ih =>
    obtain ⟨hfirst, hrest⟩ := h
    refine ih (htracks.after a) (fun size hsize => hsmall size (.tail _ hsize)) ?_ hrest
    cases a with
    | createConsumer => exact hstep.createConsumer
    | seirialize payload =>
      obtain ⟨-, hlen, hover⟩ := hfirst
      refine hstep.seirialize (hsmall _ (.head _)) (headerKept_of_overwritten hlen ?_)
      rw [htracks.pos]
      exact hover

end HopeThreading.SpmcBoundedNonUniformQueue
