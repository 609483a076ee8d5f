import Jellybean.Concurrency.SpscQueue

namespace Jellybean.Concurrency.SpscQueue

variable {α : Type*} {c : Capacity} {n : Nat} {s t : State α}

/-- The storage of the oldest element is empty already. -/
def Consumer.Emptied : Consumer α → Prop
  | .storeHead _ _ => True
  | _ => False

/-- What the producer knows. It alone moves the tail, and the room it has seen can only grow. -/
def ProducerInv (c : Capacity) (n : Nat) (s : State α) : Prop :=
  match s.producer with
  | .loadHead _ t => t = s.tail
  | .construct _ t => t = s.tail ∧ s.pushed.length < s.popped.length + c.val
  | .storeTail item next =>
    next = (n + (s.pushed.length + 1)) % 2^64 ∧ s.pushed.length < s.popped.length + c.val ∧
      s.storage ((n + s.pushed.length) % c.val) = some item
  | .idle | .loadTail _ | .returned _ => True

/-- What the consumer knows. -/
def ConsumerInv (s : State α) : Prop :=
  match s.consumer with
  | .loadTail h => h = s.head
  | .move h => h = s.head ∧ s.popped.length < s.pushed.length
  | .destroy h item | .storeHead h item =>
    h = s.head ∧ ∃ x, s.pushed[s.popped.length]? = some x ∧ item = some x
  | .idle | .loadHead | .returned _ => True

/-- The counters are those of a queue that started at `n`, modulo `2^64`, and the slots between
them hold what was pushed and has not been popped. -/
structure Inv (c : Capacity) (n : Nat) (s : State α) : Prop where
  head : s.head = (n + s.popped.length) % 2^64
  tail : s.tail = (n + s.pushed.length) % 2^64
  le : s.popped.length ≤ s.pushed.length
  room : s.pushed.length ≤ s.popped.length + c.val
  fifo : s.popped = (s.pushed.take s.popped.length).map some
  stored : ∀ k x, s.popped.length ≤ k → s.pushed[k]? = some x →
    (k = s.popped.length → ¬ s.consumer.Emptied) → s.storage ((n + k) % c.val) = some x
  producer : ProducerInv c n s
  consumer : ConsumerInv s

theorem Inv.initial (hn : n < 2^64) : Inv c n (initial n : State α) where
  head := (Nat.mod_eq_of_lt hn).symm
  tail := (Nat.mod_eq_of_lt hn).symm
  le := le_rfl
  room := Nat.zero_le _
  fifo := rfl
  stored := by
    intro k x _ hx
    cases hx
  producer := trivial
  consumer := trivial

/-- Steps of the consumer leave the producer's knowledge alone. -/
theorem ProducerInv.frame (h : ProducerInv c n s) (hp : t.producer = s.producer)
    (htail : t.tail = s.tail) (hpushed : t.pushed = s.pushed)
    (hpopped : s.popped.length ≤ t.popped.length)
    (hst : s.pushed.length < s.popped.length + c.val →
      t.storage ((n + s.pushed.length) % c.val) = s.storage ((n + s.pushed.length) % c.val)) :
    ProducerInv c n t := by
  unfold ProducerInv at *
  rw [hp, htail, hpushed]
  split at h
  · exact h
  · exact ⟨h.1, by omega⟩
  · exact ⟨h.1, by omega, (hst h.2.1).trans h.2.2⟩
  · trivial
  · trivial
  · trivial

/-- Steps of the producer leave the consumer's knowledge alone. -/
theorem ConsumerInv.frame (h : ConsumerInv s) (hc : t.consumer = s.consumer)
    (hhead : t.head = s.head) (hpopped : t.popped = s.popped) (hpushed : s.pushed <+: t.pushed) :
    ConsumerInv t := by
  have hlater : ∀ {x}, s.pushed[s.popped.length]? = some x →
      t.pushed[s.popped.length]? = some x := by
    intro x hx
    obtain ⟨r, hr⟩ := hpushed
    rw [← hr, List.getElem?_append_left (List.getElem?_eq_some_iff.mp hx).1]
    exact hx
  unfold ConsumerInv at *
  rw [hc, hhead, hpopped]
  split at h
  · exact h
  · exact ⟨h.1, h.2.trans_le hpushed.length_le⟩
  · obtain ⟨hh, x, hx, hitem⟩ := h
    exact ⟨hh, x, hlater hx, hitem⟩
  · obtain ⟨hh, x, hx, hitem⟩ := h
    exact ⟨hh, x, hlater hx, hitem⟩
  · trivial
  · trivial
  · trivial

/-- A step of the producer that neither writes a slot nor publishes. -/
theorem Inv.setProducer (h : Inv c n s) {p : Producer α}
    (hp : ProducerInv c n { s with producer := p }) : Inv c n { s with producer := p } :=
  ⟨h.head, h.tail, h.le, h.room, h.fifo, h.stored, hp, h.consumer⟩

/-- A step of the consumer that neither clears a slot nor gives one back. -/
theorem Inv.setConsumer (h : Inv c n s) {q : Consumer α} (hold : ¬ s.consumer.Emptied)
    (hq : ConsumerInv { s with consumer := q }) : Inv c n { s with consumer := q } := by
  refine ⟨h.head, h.tail, h.le, h.room, h.fifo, ?_, h.producer, hq⟩
  intro k x hk hx _
  exact h.stored k x hk hx fun _ => hold

/-- The producer sees the number of free slots. -/
theorem Inv.sub_next (h : Inv c n s) :
    sub ((s.tail + 1) % 2^64) s.head = s.pushed.length + 1 - s.popped.length := by
  have hle := h.le
  have hroom := h.room
  have hhalf := c.le_half
  rw [h.tail, h.head, Nat.mod_add_mod, Nat.add_assoc]
  exact sub_wrap (by omega) (by omega)

/-- The consumer sees whether there is an element. -/
theorem Inv.head_eq_tail (h : Inv c n s) :
    s.head = s.tail ↔ s.popped.length = s.pushed.length := by
  have hle := h.le
  have hroom := h.room
  have hhalf := c.le_half
  rw [h.head, h.tail]
  omega

theorem Inv.slot_tail (h : Inv c n s) : c.slot s.tail = (n + s.pushed.length) % c.val := by
  rw [h.tail, c.slot_wrap]

theorem Inv.slot_head (h : Inv c n s) : c.slot s.head = (n + s.popped.length) % c.val := by
  rw [h.head, c.slot_wrap]

theorem Inv.produce (h : Inv c n s) (ht : produce c s = some t) : Inv c n t := by
  have hpi := h.producer
  unfold SpscQueue.produce at ht
  unfold ProducerInv at hpi
  split at ht
  · cases ht
  · cases ht
  · rename_i item _
    cases ht
    exact h.setProducer rfl
  · rename_i item t' hp
    rw [hp] at hpi
    dsimp only at ht hpi
    split_ifs at ht with hfull
    · cases ht
      exact h.setProducer trivial
    · cases ht
      apply h.setProducer
      rw [hpi, h.sub_next] at hfull
      have hle := h.le
      exact ⟨hpi, by dsimp only; omega⟩
  · rename_i item t' hp
    rw [hp] at hpi
    obtain ⟨rfl, hlt⟩ := hpi
    cases ht
    rw [h.slot_tail]
    refine ⟨h.head, h.tail, h.le, h.room, h.fifo, ?_, ?_, ?_⟩
    · intro k x hk hx hem
      -- the slots in use are not the one at the tail
      have hkq : k < s.pushed.length := (List.getElem?_eq_some_iff.mp hx).1
      dsimp only at hk ⊢
      rw [Function.update_of_ne (c.mod_ne hkq (by omega))]
      exact h.stored k x hk hx hem
    · refine ⟨?_, hlt, Function.update_self _ _ _⟩
      rw [h.tail, Nat.mod_add_mod, Nat.add_assoc]
    · exact h.consumer.frame rfl rfl rfl List.prefix_rfl
  · rename_i item next hp
    rw [hp] at hpi
    obtain ⟨hnext, hlt, hst⟩ := hpi
    cases ht
    have hle := h.le
    have hlen : (s.pushed ++ [item]).length = s.pushed.length + 1 := by simp
    refine ⟨h.head, ?_, ?_, ?_, ?_, ?_, trivial, ?_⟩
    · dsimp only
      rw [hlen]
      exact hnext
    · dsimp only
      omega
    · dsimp only
      omega
    · dsimp only
      rw [List.take_append_of_le_length hle]
      exact h.fifo
    · intro k x hk hx hem
      dsimp only at hk hx hem ⊢
      by_cases hkq : k < s.pushed.length
      · rw [List.getElem?_append_left hkq] at hx
        exact h.stored k x hk hx hem
      · have hkeq : k = s.pushed.length := by
          have := (List.getElem?_eq_some_iff.mp hx).1
          omega
        rw [hkeq, List.getElem?_concat_length, Option.some_inj] at hx
        rw [hkeq, ← hx]
        exact hst
    · exact h.consumer.frame rfl rfl rfl (List.prefix_append _ _)

theorem Inv.consume (h : Inv c n s) (ht : consume c s = some t) : Inv c n t := by
  have hci := h.consumer
  unfold SpscQueue.consume at ht
  unfold ConsumerInv at hci
  split at ht
  · cases ht
  · cases ht
  · rename_i hq
    cases ht
    exact h.setConsumer (by rw [hq]; exact id) rfl
  · rename_i h' hq
    rw [hq] at hci
    dsimp only at ht hci
    split_ifs at ht with hempty
    · cases ht
      exact h.setConsumer (by rw [hq]; exact id) trivial
    · cases ht
      apply h.setConsumer (by rw [hq]; exact id)
      rw [hci, h.head_eq_tail] at hempty
      have hle := h.le
      exact ⟨hci, by dsimp only; omega⟩
  · rename_i h' hq
    rw [hq] at hci
    obtain ⟨rfl, hlt⟩ := hci
    cases ht
    have hx := List.getElem?_eq_getElem hlt
    apply h.setConsumer (by rw [hq]; exact id)
    refine ⟨rfl, _, hx, ?_⟩
    rw [h.slot_head]
    exact h.stored _ _ le_rfl hx fun _ => by rw [hq]; exact id
  · rename_i h' item hq
    rw [hq] at hci
    obtain ⟨rfl, x, hx, hitem⟩ := hci
    have hlt : s.popped.length < s.pushed.length := (List.getElem?_eq_some_iff.mp hx).1
    cases ht
    rw [h.slot_head]
    refine ⟨h.head, h.tail, h.le, h.room, h.fifo, ?_, ?_, ⟨rfl, x, hx, hitem⟩⟩
    · intro k y hk hy hem
      have hkq : k < s.pushed.length := (List.getElem?_eq_some_iff.mp hy).1
      have hroom := h.room
      dsimp only at hk ⊢
      have hne : k ≠ s.popped.length := fun heq => hem heq trivial
      rw [Function.update_of_ne (c.mod_ne (by omega) (by omega)).symm]
      exact h.stored k y hk hy fun heq => absurd heq hne
    · refine h.producer.frame rfl rfl rfl le_rfl ?_
      intro hroom
      exact Function.update_of_ne (c.mod_ne hlt hroom).symm _ _
  · rename_i h' item hq
    rw [hq] at hci
    obtain ⟨rfl, x, hx, hitem⟩ := hci
    have hlt : s.popped.length < s.pushed.length := (List.getElem?_eq_some_iff.mp hx).1
    cases ht
    have hlen : (s.popped ++ [item]).length = s.popped.length + 1 := by simp
    have hroom := h.room
    refine ⟨?_, h.tail, ?_, ?_, ?_, ?_, ?_, trivial⟩
    · dsimp only
      rw [hlen, h.head, Nat.mod_add_mod, Nat.add_assoc]
    · dsimp only
      omega
    · dsimp only
      omega
    · dsimp only
      rw [hlen, List.take_add_one, hx, List.map_append, ← h.fifo, hitem]
      rfl
    · intro k y hk hy _
      dsimp only at hk hy ⊢
      exact h.stored k y (by omega) hy fun heq => by omega
    · exact h.producer.frame rfl rfl rfl (by dsimp only; omega) fun _ => rfl

theorem Inv.step (h : Inv c n s) {a : Action α} (ht : step c s a = some t) : Inv c n t := by
  cases a with
  | emplace item =>
    obtain ⟨-, ht⟩ := Option.ite_none_right_eq_some.mp ht
    cases ht
    exact h.setProducer trivial
  | tryPop =>
    obtain ⟨hready, ht⟩ := Option.ite_none_right_eq_some.mp ht
    cases ht
    have hold : ¬ s.consumer.Emptied := by
      intro hem
      cases hq : s.consumer with
      | storeHead h' item =>
        rw [hq] at hready
        cases hready
      | _ =>
        rw [hq] at hem
        exact hem
    exact h.setConsumer hold trivial
  | produce => exact h.produce ht
  | constructThrows =>
    unfold SpscQueue.step at ht
    dsimp only at ht
    split at ht
    · cases ht
      exact h.setProducer trivial
    · cases ht
  | consume => exact h.consume ht

theorem Inv.of_reachable (hr : (system c).Reachable s) : ∃ n, Inv c n s := by
  apply System.Reachable.invariant _ _ hr
  · rintro s ⟨n, hn, rfl⟩
    exact ⟨n, Inv.initial hn⟩
  · rintro s a t ⟨n, h⟩ ht
    exact ⟨n, h.step ht⟩

/-! What the callers see. -/

/-- The queue is a bounded first-in first-out channel whose two ends never meet in a slot. -/
structure Fifo (c : Capacity) (s : State α) : Prop where
  prefixed : s.popped <+: s.pushed.map some
  bounded : sub s.tail s.head ≤ c.val
  apart : ∀ i, s.producer.slot c = some i → s.consumer.slot c ≠ some i

theorem Inv.fifo_apart (h : Inv c n s) : Fifo c s := by
  refine ⟨?_, ?_, ?_⟩
  · rw [h.fifo]
    exact (List.take_prefix _ _).map some
  · have hle := h.le
    have hroom := h.room
    have hhalf := c.le_half
    rw [h.tail, h.head, sub_wrap hle (by omega)]
    omega
  · intro i hp hq
    have hpi := h.producer
    have hci := h.consumer
    unfold ProducerInv at hpi
    unfold ConsumerInv at hci
    -- the producer is at the tail and the consumer at the head, with room between them
    have hlt : c.slot s.tail = i ∧ s.pushed.length < s.popped.length + c.val := by
      cases hps : s.producer with
      | construct item t =>
        rw [hps] at hp hpi
        rw [← hpi.1]
        exact ⟨Option.some_inj.mp hp, hpi.2⟩
      | _ =>
        rw [hps] at hp
        cases hp
    have hgt : c.slot s.head = i ∧ s.popped.length < s.pushed.length := by
      cases hcs : s.consumer with
      | move h' =>
        rw [hcs] at hq hci
        rw [← hci.1]
        exact ⟨Option.some_inj.mp hq, hci.2⟩
      | destroy h' item =>
        rw [hcs] at hq hci
        obtain ⟨hh, x, hx, -⟩ := hci
        rw [← hh]
        exact ⟨Option.some_inj.mp hq, (List.getElem?_eq_some_iff.mp hx).1⟩
      | _ =>
        rw [hcs] at hq
        cases hq
    have heq := hgt.1.trans hlt.1.symm
    rw [h.slot_head, h.slot_tail] at heq
    exact c.mod_ne hgt.2 hlt.2 heq

theorem Inv.full_of_fails (h : Inv c n s) {a : Action α} (ht : SpscQueue.step c s a = some t)
    (hf : t.producer = .returned false) (hold : s.producer ≠ .returned false) :
    (∃ item t', s.producer = .loadHead item t') ∧ s.pushed.length = s.popped.length + c.val := by
  cases a with
  | emplace item =>
    obtain ⟨-, ht⟩ := Option.ite_none_right_eq_some.mp ht
    cases ht
    cases hf
  | tryPop =>
    obtain ⟨-, ht⟩ := Option.ite_none_right_eq_some.mp ht
    cases ht
    exact absurd hf hold
  | produce =>
    have hpi := h.producer
    change SpscQueue.produce c s = some t at ht
    unfold SpscQueue.produce at ht
    unfold ProducerInv at hpi
    split at ht
    · cases ht
    · cases ht
    · cases ht
      cases hf
    · rename_i item t' hp
      rw [hp] at hpi
      dsimp only at ht hpi
      split_ifs at ht with hfull
      · rw [hpi, h.sub_next] at hfull
        have hroom := h.room
        exact ⟨⟨item, t', hp⟩, by omega⟩
      · cases ht
        cases hf
    · cases ht
      cases hf
    · cases ht
      cases hf
  | constructThrows =>
    unfold SpscQueue.step at ht
    dsimp only at ht
    split at ht
    · cases ht
      cases hf
    · cases ht
  | consume =>
    rw [consume_producer ht] at hf
    exact absurd hf hold

theorem Inv.empty_of_fails (h : Inv c n s) {a : Action α} (ht : SpscQueue.step c s a = some t)
    (hf : t.consumer = .returned none) (hold : s.consumer ≠ .returned none) :
    (∃ h', s.consumer = .loadTail h') ∧ s.popped.length = s.pushed.length := by
  cases a with
  | emplace item =>
    obtain ⟨-, ht⟩ := Option.ite_none_right_eq_some.mp ht
    cases ht
    exact absurd hf hold
  | tryPop =>
    obtain ⟨-, ht⟩ := Option.ite_none_right_eq_some.mp ht
    cases ht
    cases hf
  | produce =>
    rw [produce_consumer ht] at hf
    exact absurd hf hold
  | constructThrows =>
    unfold SpscQueue.step at ht
    dsimp only at ht
    split at ht
    · cases ht
      exact absurd hf hold
    · cases ht
  | consume =>
    have hci := h.consumer
    change SpscQueue.consume c s = some t at ht
    unfold SpscQueue.consume at ht
    unfold ConsumerInv at hci
    split at ht
    · cases ht
    · cases ht
    · cases ht
      cases hf
    · rename_i h' hq
      rw [hq] at hci
      dsimp only at ht hci
      split_ifs at ht with hempty
      · rw [hci, h.head_eq_tail] at hempty
        exact ⟨⟨h', hq⟩, hempty⟩
      · cases ht
        cases hf
    · cases ht
      cases hf
    · cases ht
      cases hf
    · cases ht
      cases hf

/-- In every state of every run the pops are a prefix of the pushes, the counters are at most
`Capacity` apart and no slot is shared; `emplace` fails only on a full queue and `try_pop` only on
an empty one. -/
theorem fifo_of_reachable (c : Capacity) (s : State α) (hr : (system c).Reachable s) :
    Fifo c s ∧
    (∀ a t, (system c).step s a = some t → t.producer = .returned false →
      s.producer ≠ .returned false →
      (∃ item t', s.producer = .loadHead item t') ∧
        s.pushed.length = s.popped.length + c.val) ∧
    ∀ a t, (system c).step s a = some t → t.consumer = .returned none →
      s.consumer ≠ .returned none →
      (∃ h, s.consumer = .loadTail h) ∧ s.popped.length = s.pushed.length := by
  obtain ⟨n, h⟩ := Inv.of_reachable hr
  refine ⟨h.fifo_apart, ?_, ?_⟩
  · intro a t ht hf hold
    exact h.full_of_fails ht hf hold
  · intro a t ht hf hold
    exact h.empty_of_fails ht hf hold

def four : Capacity := ⟨4, by decide, by decide, by decide⟩

/-- Four pushes over the end of the counters; the producer is back for a fifth while the consumer is
still moving out the first element. -/
def overTheEnd : List (Action Nat) :=
  ([1, 2, 3, 4].flatMap fun k => [.emplace k, .produce, .produce, .produce, .produce]) ++
    [.tryPop, .consume, .consume, .consume, .emplace 5, .produce]

theorem fifo_of_reachable_overTheEnd :
    ∃ s, (system four).run (initial (2^64 - 2)) overTheEnd = some s ∧ s.tail = 2 ∧
      s.consumer = .destroy (2^64 - 2) (some 1) ∧ Fifo four s ∧
      s.pushed.length = s.popped.length + four.val := by
  have hrun : ((system four).run (initial (2^64 - 2)) overTheEnd).map
      (fun s => (s.tail, s.producer, s.consumer, (produce four s).map State.producer)) =
        some (2, .loadHead 5 2, .destroy (2^64 - 2) (some 1), some (.returned false)) := by
    decide +kernel
  obtain ⟨s, hs, hobs⟩ := Option.map_eq_some_iff.mp hrun
  simp only [Prod.mk.injEq] at hobs
  obtain ⟨htail, hp, hc, hfail⟩ := hobs
  obtain ⟨t, ht, hf⟩ := Option.map_eq_some_iff.mp hfail
  have hr : (system four).Reachable s :=
    System.Reachable.run (.init ⟨2^64 - 2, by decide, rfl⟩) hs
  obtain ⟨hfifo, hfull, -⟩ := fifo_of_reachable four s hr
  refine ⟨s, hs, htail, hc, hfifo, (hfull .produce t ht hf ?_).2⟩
  rw [hp]
  decide

end Jellybean.Concurrency.SpscQueue
