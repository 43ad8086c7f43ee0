import HopeThreading.Transition.Calls
import HopeThreading.Transition.Fifo

namespace Transition

/-!
# FIFO buffers

The sequential object behind a queue: `enqueue` takes a value in when there is room for one more,
`dequeue` hands out the oldest one.

The values that a legal history puts in are those it takes out and then what waits
(`Buffer.Legal.contents`), so a queue that knows the two lists knows what the buffer would answer
next (`Buffer.Legal.accept` and its neighbours).
-/

/-! ### The buffer -/

namespace Buffer

/-- The calls of a buffer. -/
inductive Op (α : Type*)
  | enqueue (v : α)
  | dequeue
  deriving DecidableEq

/-- What a call answers. -/
inductive Answer (α : Type*)
  /-- Of `enqueue`. -/
  | accepted (ok : Bool)
  /-- Of `dequeue`. -/
  | taken (v : Option α)
  deriving DecidableEq

variable {α : Type*}

/-- The buffer that takes a value in when `room n` for the number `n` of those that wait. -/
def object (room : Nat → Bool) : SeqObject (List α) (Op α) (Answer α) where
  init := []
  next waiting op :=
    match op with
    | .enqueue v => if room waiting.length then waiting ++ [v] else waiting
    | .dequeue => waiting.tail
  returns waiting op answer :=
    match op, answer with
    | .enqueue _, .accepted ok => ok = room waiting.length
    | .dequeue, .taken v => v = waiting.head?
    | _, _ => False

section

variable (room : Nat → Bool) (waiting : List α)

@[simp] theorem next_enqueue (v : α) : (object room).next waiting (.enqueue v) =
    if room waiting.length then waiting ++ [v] else waiting := rfl

@[simp] theorem next_dequeue : (object room).next waiting .dequeue = waiting.tail := rfl

end

/-- The values put in, … -/
def puts (history : List (Op α × Answer α)) : List α :=
  history.filterMap fun
    | (.enqueue v, .accepted true) => some v
    | _ => none

/-- … and the values taken out. -/
def takes (history : List (Op α × Answer α)) : List α :=
  history.filterMap fun
    | (.dequeue, .taken (some v)) => some v
    | _ => none

section

variable (history rest : List (Op α × Answer α))

@[simp] theorem puts_append : puts (history ++ rest) = puts history ++ puts rest :=
  List.filterMap_append

@[simp] theorem takes_append : takes (history ++ rest) = takes history ++ takes rest :=
  List.filterMap_append

end

variable {room : Nat → Bool} {history : List (Op α × Answer α)}

/-- **Exactly once, in order.** What was put in is what was taken out and what waits. -/
theorem Legal.contents (h : (object room).Legal history) :
    puts history = takes history ++ (object room).after history := by
  induction history using List.reverseRecOn with
  | nil => rfl
  | append_singleton history x ih =>
    obtain ⟨op, answer⟩ := x
    have hbefore := ih h.of_append
    have hanswer := h.last
    rw [SeqObject.after_snoc, puts_append, takes_append, hbefore]
    cases op with
    | enqueue v =>
      cases answer with
      | taken w => exact hanswer.elim
      | accepted ok =>
        obtain rfl : ok = room ((object room).after history).length := hanswer
        cases hroom : room ((object room).after history).length with
        | true => simp [puts, takes, hroom]
        | false => simp [puts, takes, hroom]
    | dequeue =>
      cases answer with
      | accepted ok => exact hanswer.elim
      | taken w =>
        obtain rfl : w = ((object room).after history).head? := hanswer
        cases hwaiting : (object room).after history with
        | nil => simp [puts, takes]
        | cons v rest => simp [puts, takes]

/-- The values taken out are a prefix of those put in. -/
theorem Legal.fifo (h : (object room).Legal history) : takes history <+: puts history := by
  rw [Legal.contents h]
  exact List.prefix_append _ _

/-- How many values wait. -/
theorem Legal.length_after (h : (object room).Legal history) :
    ((object room).after history).length = (puts history).length - (takes history).length := by
  rw [Legal.contents h, List.length_append, Nat.add_sub_cancel_left]

/-! ### One more answer -/

/-- A value goes in. -/
theorem Legal.accept (h : (object room).Legal history) (v : α)
    (hroom : room ((puts history).length - (takes history).length) = true) :
    (object room).Legal (history ++ [(.enqueue v, .accepted true)]) := by
  refine h.snoc ?_
  show true = room ((object room).after history).length
  rw [Legal.length_after h, hroom]

/-- The next value comes out. -/
theorem Legal.deliver (h : (object room).Legal history) {v : α}
    (hv : takes history ++ [v] <+: puts history) :
    (object room).Legal (history ++ [(.dequeue, .taken (some v))]) := by
  refine h.snoc ?_
  show some v = ((object room).after history).head?
  obtain ⟨rest, hrest⟩ := hv
  rw [Legal.contents h, List.append_assoc] at hrest
  rw [← List.append_cancel_left hrest]
  rfl

/-- There is none. -/
theorem Legal.empty (h : (object room).Legal history)
    (hnone : (puts history).length ≤ (takes history).length) :
    (object room).Legal (history ++ [(.dequeue, .taken none)]) := by
  refine h.snoc ?_
  show none = ((object room).after history).head?
  have hlen : ((object room).after history).length = 0 := by
    rw [Legal.length_after h]
    omega
  rw [List.eq_nil_of_length_eq_zero hlen]
  rfl

/-! ### One producer and one consumer -/

/-- The two threads of a queue that has one of each. -/
inductive Side
  | producer
  | consumer
  deriving DecidableEq

/-- Who calls an operation. -/
def side : Op α → Side
  | .enqueue _ => .producer
  | .dequeue => .consumer

/-- The calls that have started and not taken effect: the `enqueue` of a value, and a
    `dequeue`. -/
def underway (entering : Option α) (leaving : Bool) : Side → Option (Op α)
  | .producer => entering.map .enqueue
  | .consumer => if leaving then some .dequeue else none

/-- The calls are those of the buffer, each at one point between its start and its end. -/
structure Linearizable (room : Nat → Bool) (calls : List (Op α)) (history : List (Op α × Answer α))
    (entering : Option α) (leaving : Bool) : Prop where
  legal : (object room).Legal history
  order : ProgramOrder side calls history (underway entering leaving)

section

variable {calls : List (Op α)} {v : α} {entering : Option α} {leaving : Bool}

/-- Before the first call there is nothing to answer. -/
theorem Linearizable.nil : Linearizable (α := α) room [] [] none false := by
  refine ⟨SeqObject.legal_nil, fun t => ?_⟩
  cases t <;> rfl

/-- The other side is where it was. -/
theorem underway_consumer {entering' : Option α} {t : Side} (h : t ≠ .producer) :
    underway entering' leaving t = underway entering leaving t := by
  cases t with
  | producer => exact absurd rfl h
  | consumer => rfl

/-- The other side is where it was. -/
theorem underway_producer {leaving' : Bool} {t : Side} (h : t ≠ .consumer) :
    underway entering leaving' t = underway entering leaving t := by
  cases t with
  | producer => rfl
  | consumer => exact absurd rfl h

/-- `enqueue(v)` is called, … -/
theorem Linearizable.callEnqueue (h : Linearizable room calls history none leaving) (v : α) :
    Linearizable room (calls ++ [.enqueue v]) history (some v) leaving :=
  ⟨h.legal, h.order.call rfl rfl fun _ => underway_consumer⟩

/-- … and `dequeue`. -/
theorem Linearizable.callDequeue (h : Linearizable room calls history entering false) :
    Linearizable room (calls ++ [.dequeue]) history entering true :=
  ⟨h.legal, h.order.call rfl rfl fun _ => underway_producer⟩

/-- The value goes in. -/
theorem Linearizable.accept (h : Linearizable room calls history (some v) leaving)
    (hroom : room ((puts history).length - (takes history).length) = true) :
    Linearizable room calls (history ++ [(.enqueue v, .accepted true)]) none leaving :=
  ⟨Legal.accept h.legal v hroom, h.order.perform _ rfl rfl fun _ => underway_consumer⟩

/-- The next value comes out. -/
theorem Linearizable.deliver (h : Linearizable room calls history entering true)
    (hv : takes history ++ [v] <+: puts history) :
    Linearizable room calls (history ++ [(.dequeue, .taken (some v))]) entering false :=
  ⟨Legal.deliver h.legal hv, h.order.perform _ rfl rfl fun _ => underway_producer⟩

/-- There is no value. -/
theorem Linearizable.empty (h : Linearizable room calls history entering true)
    (hnone : (puts history).length ≤ (takes history).length) :
    Linearizable room calls (history ++ [(.dequeue, .taken none)]) entering false :=
  ⟨Legal.empty h.legal hnone, h.order.perform _ rfl rfl fun _ => underway_producer⟩

end

end Buffer

end Transition
