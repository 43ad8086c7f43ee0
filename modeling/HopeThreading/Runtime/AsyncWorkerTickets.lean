import HopeThreading.Runtime.AsyncWorkerWakeup

namespace HopeThreading.AsyncWorker

open Transition

/-!
# `async_worker` — whose item is whose

No two items in the queue, and no two calls of `add` that are under way, have the same number, and
an item is without its link exactly as long as the call that brings it stands before the store
(`ticketed_of_run`).  So the number says which call an item belongs to, in every run.
-/

variable {κ α : Type*}

/-- The calls of `add` and the items in the queue go together by their numbers. -/
structure Ticketed (adders : κ → Adder α) (queue : List (Entry α)) (issued : Nat) : Prop where
  exclusive : Exclusive Adder.ticket adders
  given : ∀ c t, (adders c).ticket = some t → t < issued
  distinct : (queue.map Entry.ticket).Nodup
  old : ∀ e ∈ queue, e.ticket < issued
  /-- A call that has not put its item into the queue. -/
  absent : ∀ c t v, adders c = .exchangeHead t v → ∀ e ∈ queue, e.ticket ≠ t
  /-- A call that has still to link its item. -/
  linking : ∀ c t, adders c = .storeLink t → ∃ e ∈ queue, e.ticket = t ∧ e.linked = false
  unlinked : ∀ e ∈ queue, e.linked = false → ∃ c, adders c = .storeLink e.ticket

/-! ### The items -/

section

variable {queue : List (Entry α)}

/-- Linking an item changes nothing of the others, and of this one only that it is linked. -/
theorem mem_link {t : Nat} {e : Entry α} (h : e ∈ link t queue) :
    ∃ e₀ ∈ queue, e.ticket = e₀.ticket ∧ e.value = e₀.value ∧
      (e.linked = false → e₀.linked = false ∧ e₀.ticket ≠ t) := by
  obtain ⟨e₀, he₀, rfl⟩ := List.mem_map.mp h
  refine ⟨e₀, he₀, ?_⟩
  by_cases ht : e₀.ticket = t
  · rw [if_pos ht]
    exact ⟨rfl, rfl, fun hf => absurd hf (by simp)⟩
  · rw [if_neg ht]
    exact ⟨rfl, rfl, fun hf => ⟨hf, ht⟩⟩

/-- Linking an item keeps the tickets in their order. -/
theorem ticket_link (t : Nat) : (link t queue).map Entry.ticket = queue.map Entry.ticket := by
  rw [link, List.map_map]
  refine List.map_congr_left fun e _ => ?_
  simp only [Function.comp_apply]
  split <;> rfl

/-- Linking an item keeps the values in their order. -/
theorem value_link (t : Nat) : (link t queue).map Entry.value = queue.map Entry.value := by
  rw [link, List.map_map]
  refine List.map_congr_left fun e _ => ?_
  simp only [Function.comp_apply]
  split <;> rfl

/-- A successful `try_dequeue` takes the first item. -/
theorem dequeue_eq_some {v : α} {rest : List (Entry α)} (h : dequeue queue = some (v, rest)) :
    ∃ e, queue = e :: rest ∧ e.value = v ∧ e.linked = true := by
  cases queue with
  | nil => exact absurd h (by simp [dequeue])
  | cons e rest' =>
    simp only [dequeue] at h
    split at h
    · rename_i hlinked
      cases h
      exact ⟨e, rfl, rfl, hlinked⟩
    · exact absurd h (by simp)

end

/-! ### The steps -/

section

variable {adders : κ → Adder α} {queue : List (Entry α)} {issued : Nat}

/-- The same number is the same place in the queue. -/
theorem Ticketed.same_index (h : Ticketed adders queue issued) {i j : Nat} {e e' : Entry α}
    (hi : queue[i]? = some e) (hj : queue[j]? = some e') (heq : e.ticket = e'.ticket) : i = j := by
  have hi' : (queue.map Entry.ticket)[i]? = some e.ticket := by rw [List.getElem?_map, hi]; rfl
  have hj' : (queue.map Entry.ticket)[j]? = some e.ticket := by
    rw [List.getElem?_map, hj, heq]; rfl
  have hlt := (List.getElem?_eq_some_iff.mp hi').1
  exact (List.getElem?_inj hlt h.distinct).mp (hi'.trans hj'.symm)

variable [DecidableEq κ] {c : κ} {l : Adder α}

/-- The calls under way after one of them has moved on. -/
theorem Ticketed.calls (h : Ticketed adders queue issued)
    (hl : ∀ t, l.ticket = some t → (adders c).ticket = some t) :
    Exclusive Adder.ticket (Function.update adders c l) ∧
      ∀ d t, (Function.update adders c l d).ticket = some t → t < issued := by
  constructor
  · exact h.exclusive.take fun t ht d hd hd' => hd (h.exclusive hd' (hl t ht))
  · intro d t hd
    rcases update_cases (fun y : Adder α => y.ticket = some t) hd with ⟨rfl, ht⟩ | ⟨-, ht⟩
    · exact h.given d t (hl t ht)
    · exact h.given d t ht

/-- An item without its link keeps its call while another call moves on. -/
theorem Ticketed.unlinked_update (h : Ticketed adders queue issued) {e : Entry α} (he : e ∈ queue)
    (hlinked : e.linked = false) (hc : adders c ≠ .storeLink e.ticket) :
    ∃ d, Function.update adders c l d = .storeLink e.ticket := by
  obtain ⟨d, hd⟩ := h.unlinked e he hlinked
  have hdc : d ≠ c := by
    rintro rfl
    exact hc hd
  exact ⟨d, (Function.update_of_ne hdc _ _).trans hd⟩

/-- A call of `add` begins, with a new number. -/
theorem Ticketed.start (h : Ticketed adders queue issued) {v : α} (hidle : adders c = .idle) :
    Ticketed (Function.update adders c (.exchangeHead issued v)) queue (issued + 1) where
  exclusive := by
    refine h.exclusive.take fun t ht d _ hd => ?_
    obtain rfl := Option.some.inj ht
    exact Nat.lt_irrefl _ (h.given d _ hd)
  given := by
    intro d t hd
    rcases update_cases (fun y : Adder α => y.ticket = some t) hd with ⟨-, ht⟩ | ⟨-, ht⟩
    · exact Option.some.inj ht ▸ Nat.lt_succ_self _
    · exact Nat.lt_succ_of_lt (h.given d t ht)
  distinct := h.distinct
  old := fun e he => Nat.lt_succ_of_lt (h.old e he)
  absent := by
    intro d t w hd e he
    rcases update_cases (fun y : Adder α => y = .exchangeHead t w) hd with ⟨-, ht⟩ | ⟨-, ht⟩
    · cases ht
      exact (h.old e he).ne
    · exact h.absent d t w ht e he
  linking := by
    intro d t hd
    rcases update_cases (fun y : Adder α => y = .storeLink t) hd with ⟨-, ht⟩ | ⟨-, ht⟩
    · exact absurd ht (by simp)
    · exact h.linking d t ht
  unlinked := fun e he hlinked => h.unlinked_update he hlinked (by rw [hidle]; simp)

/-- A call puts its item into the queue. -/
theorem Ticketed.exchange (h : Ticketed adders queue issued) {t : Nat} {v : α}
    (hc : adders c = .exchangeHead t v) :
    Ticketed (Function.update adders c (.storeLink t))
      (queue ++ [{ ticket := t, value := v, linked := false }]) issued := by
  obtain ⟨hexcl, hissued⟩ := h.calls (c := c) (l := .storeLink t) (by rw [hc]; exact fun _ ht => ht)
  refine ⟨hexcl, hissued, ?_, ?_, ?_, ?_, ?_⟩
  · rw [List.map_append]
    refine List.nodup_append.mpr ⟨h.distinct, List.nodup_singleton _, ?_⟩
    intro u hu w hw
    obtain ⟨e, he, rfl⟩ := List.mem_map.mp hu
    rw [List.mem_singleton.mp hw]
    exact h.absent c t v hc e he
  · intro e he
    rcases List.mem_append.mp he with he | he
    · exact h.old e he
    · rw [List.mem_singleton.mp he]
      exact h.given c t (by rw [hc]; rfl)
  · intro d u w hd e he
    rcases update_cases (fun y : Adder α => y = .exchangeHead u w) hd with ⟨-, hu⟩ | ⟨hdc, hu⟩
    · exact absurd hu (by simp)
    · rcases List.mem_append.mp he with he | he
      · exact h.absent d u w hu e he
      · -- two calls have two numbers
        rw [List.mem_singleton.mp he]
        rintro rfl
        exact hdc (h.exclusive (k := t) (by rw [hu]; rfl) (by rw [hc]; rfl))
  · intro d u hd
    rcases update_cases (fun y : Adder α => y = .storeLink u) hd with ⟨-, hu⟩ | ⟨-, hu⟩
    · cases hu
      exact ⟨_, List.mem_append_right _ List.mem_cons_self, rfl, rfl⟩
    · obtain ⟨e, he, hticket, hlinked⟩ := h.linking d u hu
      exact ⟨e, List.mem_append_left _ he, hticket, hlinked⟩
  · intro e he hlinked
    rcases List.mem_append.mp he with he | he
    · exact h.unlinked_update he hlinked (by rw [hc]; simp)
    · rw [List.mem_singleton.mp he]
      exact ⟨c, Function.update_self _ _ _⟩

/-- A call links its item. -/
theorem Ticketed.link (h : Ticketed adders queue issued) {t : Nat} (hc : adders c = .storeLink t) :
    Ticketed (Function.update adders c (.storeAdded t)) (AsyncWorker.link t queue) issued := by
  obtain ⟨hexcl, hissued⟩ := h.calls (c := c) (l := .storeAdded t) (by
    rw [hc]
    exact fun _ ht => ht)
  refine ⟨hexcl, hissued, ?_, ?_, ?_, ?_, ?_⟩
  · rw [ticket_link]
    exact h.distinct
  · intro e he
    obtain ⟨e₀, he₀, hticket, -⟩ := mem_link he
    rw [hticket]
    exact h.old e₀ he₀
  · intro d u w hd e he
    rcases update_cases (fun y : Adder α => y = .exchangeHead u w) hd with ⟨-, hu⟩ | ⟨-, hu⟩
    · exact absurd hu (by simp)
    · obtain ⟨e₀, he₀, hticket, -⟩ := mem_link he
      rw [hticket]
      exact h.absent d u w hu e₀ he₀
  · intro d u hd
    rcases update_cases (fun y : Adder α => y = .storeLink u) hd with ⟨-, hu⟩ | ⟨hdc, hu⟩
    · exact absurd hu (by simp)
    · -- the item of another call
      obtain ⟨e, he, hticket, hlinked⟩ := h.linking d u hu
      have hne : e.ticket ≠ t := by
        rintro rfl
        exact hdc (h.exclusive (k := e.ticket) (by rw [hu, hticket]; rfl) (by rw [hc]; rfl))
      refine ⟨e, ?_, hticket, hlinked⟩
      have hmem : (if e.ticket = t then { e with linked := true } else e) ∈
          AsyncWorker.link t queue := List.mem_map_of_mem he
      rwa [if_neg hne] at hmem
  · intro e he hlinked
    obtain ⟨e₀, he₀, hticket, -, hfalse⟩ := mem_link he
    obtain ⟨hlinked₀, hne⟩ := hfalse hlinked
    rw [hticket]
    refine h.unlinked_update he₀ hlinked₀ ?_
    rw [hc]
    exact fun heq => hne (Adder.storeLink.inj heq).symm

/-- A call goes on after its store of the link. -/
theorem Ticketed.move (h : Ticketed adders queue issued)
    (hl : ∀ t, l.ticket = some t → (adders c).ticket = some t)
    (hplain : (∀ t v, l ≠ .exchangeHead t v) ∧ ∀ t, l ≠ .storeLink t)
    (hc : ∀ t, adders c ≠ .storeLink t) :
    Ticketed (Function.update adders c l) queue issued := by
  obtain ⟨hexcl, hissued⟩ := h.calls hl
  refine ⟨hexcl, hissued, h.distinct, h.old, ?_, ?_, ?_⟩
  · intro d t v hd
    rcases update_cases (fun y : Adder α => y = .exchangeHead t v) hd with ⟨-, ht⟩ | ⟨-, ht⟩
    · exact absurd ht (hplain.1 t v)
    · exact h.absent d t v ht
  · intro d t hd
    rcases update_cases (fun y : Adder α => y = .storeLink t) hd with ⟨-, ht⟩ | ⟨-, ht⟩
    · exact absurd ht (hplain.2 t)
    · exact h.linking d t ht
  · exact fun e he hlinked => h.unlinked_update he hlinked (hc _)

omit [DecidableEq κ] in
/-- The worker takes the first item, which is linked. -/
theorem Ticketed.dequeue {e : Entry α} (h : Ticketed adders (e :: queue) issued)
    (hlinked : e.linked = true) : Ticketed adders queue issued where
  exclusive := h.exclusive
  given := h.given
  distinct := (List.nodup_cons.mp h.distinct).2
  old := fun e' he' => h.old e' (List.mem_cons_of_mem e he')
  absent := fun c t v hc e' he' => h.absent c t v hc e' (List.mem_cons_of_mem e he')
  linking := by
    intro c t hc
    obtain ⟨e', he', hticket, hfalse⟩ := h.linking c t hc
    rcases List.mem_cons.mp he' with rfl | he'
    · rw [hlinked] at hfalse
      exact absurd hfalse (by simp)
    · exact ⟨e', he', hticket, hfalse⟩
  unlinked := fun e' he' => h.unlinked e' (List.mem_cons_of_mem e he')

end

/-! ### Runs -/

variable [DecidableEq κ] {s s' : State κ α}

/-- **Step lemma.** -/
theorem Ticketed.step (h : Ticketed s.adders s.queue s.issued) {a : Action κ α}
    {es : List (Event α)} (hstep : next s a = some (s', es)) :
    Ticketed s'.adders s'.queue s'.issued := by
  cases a with
  | add c v =>
    simp only [next] at hstep
    split at hstep
    · rename_i hidle
      cases hstep
      exact h.start hidle
    · exact absurd hstep (by simp)
  | stop =>
    simp only [next] at hstep
    split at hstep
    · cases hstep
      exact h
    · exact absurd hstep (by simp)
  | adder c =>
    simp only [next, add] at hstep
    split at hstep
    case h_1 => exact absurd hstep (by simp)
    case h_2 t v hc =>
      -- the exchange puts the item at the end, and the caller keeps its ticket
      cases hstep
      exact h.exchange hc
    case h_3 t hc =>
      -- the store of the link ends the reservation of this ticket
      cases hstep
      exact h.link hc
    case h_4 t hc =>
      -- the flag and the notification leave the queue as it is
      cases hstep
      exact h.move (by rw [hc]; exact fun _ ht => ht) (by simp) (by rw [hc]; simp)
    case h_5 t hc =>
      cases hstep
      rw [notifyOne_adders, notifyOne_queue, notifyOne_issued]
      exact h.move (by simp [Adder.ticket]) (by simp) (by rw [hc]; simp)
  | stopper =>
    -- `stop` has no ticket
    simp only [next, stop] at hstep
    split at hstep
    case h_1 => exact absurd hstep (by simp)
    case h_2 => cases hstep; exact h
    case h_3 => cases hstep; exact h
    case h_4 =>
      cases hstep
      rw [notifyOne_adders, notifyOne_queue, notifyOne_issued]
      exact h
    case h_5 =>
      split at hstep
      · cases hstep
        exact h
      · exact absurd hstep (by simp)
  | worker =>
    simp only [next, run] at hstep
    split at hstep
    case h_1 => split at hstep <;> cases hstep <;> exact h
    case h_2 =>
      split at hstep
      · rename_i v rest hdequeue
        cases hstep
        obtain ⟨e, hqueue, -, hlinked⟩ := dequeue_eq_some hdequeue
        -- only a linked item is taken, and nobody holds its ticket
        rw [hqueue] at h
        exact h.dequeue hlinked
      · cases hstep
        exact h
    case h_3 => cases hstep; exact h
    case h_4 => cases hstep; exact h
    case h_5 => split at hstep <;> cases hstep <;> exact h
    case h_6 =>
      split at hstep
      · split at hstep <;> cases hstep <;> exact h
      · exact absurd hstep (by simp)
    case h_7 => exact absurd hstep (by simp)

/-- **Run lemma.** In every run. -/
theorem ticketed_of_run {tr : List (Event α)} (run : (machine (κ := κ) (α := α)).Run tr s) :
    Ticketed s.adders s.queue s.issued := by
  refine run.invariant (I := fun _ s => Ticketed s.adders s.queue s.issued) ?_ ?_
  · exact
      { exclusive := fun c d t hc => absurd hc (by simp [machine, Adder.ticket])
        given := fun c t hc => absurd hc (by simp [machine, Adder.ticket])
        distinct := List.nodup_nil
        old := fun e he => absurd he List.not_mem_nil
        absent := fun c t v hc => absurd hc (by simp [machine])
        linking := fun c t hc => absurd hc (by simp [machine])
        unlinked := fun e he => absurd he List.not_mem_nil }
  · intro tr es s s' a _ h _ hstep
    exact h.step hstep

end HopeThreading.AsyncWorker
