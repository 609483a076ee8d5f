import Jellybean.Framework.Linearizability
import Jellybean.Concurrency.SpscQueueInvariant

namespace Jellybean.Concurrency.SpscQueue

variable {α : Type*} {c : Capacity} {n : Nat} {s t : State α}

/-- The two threads. -/
inductive End where
  | producer
  | consumer
  deriving DecidableEq

inductive Op (α : Type*) where
  | emplace (item : α)
  | tryPop

/-- The inner `none` stands for an item that was moved from storage without an object. -/
inductive Res (α : Type*) where
  | pushed (ok : Bool)
  | threw
  | popped (item : Option (Option α))

/-- A channel that holds at most `capacity` items, oldest first. The constructor runs only if there
is room for its object. -/
inductive BoundedApply (capacity : Nat) : List α → Op α → Res α → List α → Prop
  | push (q : List α) (item : α) (h : q.length < capacity) :
      BoundedApply capacity q (.emplace item) (.pushed true) (q ++ [item])
  | full (q : List α) (item : α) (h : q.length = capacity) :
      BoundedApply capacity q (.emplace item) (.pushed false) q
  | threw (q : List α) (item : α) (h : q.length < capacity) :
      BoundedApply capacity q (.emplace item) .threw q
  | pop (item : α) (q : List α) :
      BoundedApply capacity (item :: q) .tryPop (.popped (some (some item))) q
  | empty : BoundedApply capacity [] .tryPop (.popped none) []

def bounded (c : Capacity) : SeqObject (List α) (Op α) (Res α) := ⟨[], BoundedApply c.val⟩

/-- What was pushed and not popped. -/
def State.contents (s : State α) : List α := s.pushed.drop s.popped.length

def Producer.status : Producer α → Status (Op α) (Res α)
  | .idle | .returned _ => .idle
  | .loadTail item | .loadHead item _ | .construct item _ | .storeTail item _ =>
    .called (.emplace item)

def Consumer.status : Consumer α → Status (Op α) (Res α)
  | .idle | .returned _ => .idle
  | .loadHead | .loadTail _ | .move _ | .destroy _ _ | .storeHead _ _ => .called .tryPop

def State.status (s : State α) : End → Status (Op α) (Res α)
  | .producer => s.producer.status
  | .consumer => s.consumer.status

def State.toAtomic (s : State α) : Atomic (List α) End (Op α) (Res α) := ⟨s.contents, s.status⟩

/-- The operation that ends with a step, and how. An operation takes effect as it ends. -/
def ending (c : Capacity) (s : State α) : Action α → Option (End × Op α × Res α)
  | .emplace _ | .tryPop => none
  | .produce =>
    match s.producer with
    | .loadHead item t =>
      if sub ((t + 1) % 2^64) s.head > c.val then some (.producer, .emplace item, .pushed false)
      else none
    | .storeTail item _ => some (.producer, .emplace item, .pushed true)
    | _ => none
  | .constructThrows =>
    match s.producer with
    | .construct item _ => some (.producer, .emplace item, .threw)
    | _ => none
  | .consume =>
    match s.consumer with
    | .loadTail h => if h = s.tail then some (.consumer, .tryPop, .popped none) else none
    | .storeHead _ item => some (.consumer, .tryPop, .popped (some item))
    | _ => none

/-- The calls and returns that the two threads see. -/
def event (c : Capacity) (s : State α) : Action α → List (CallEvent End (Op α) (Res α))
  | .emplace item => [.call .producer (.emplace item)]
  | .tryPop => [.call .consumer .tryPop]
  | a => ((ending c s a).map fun e => CallEvent.ret e.1 e.2.2).toList

def done (c : Capacity) (s : State α) (a : Action α) : List (Op α × Res α) :=
  ((ending c s a).map Prod.snd).toList

theorem status_setProducer (hc : t.consumer = s.consumer) :
    t.status = Function.update s.status .producer t.producer.status := by
  funext e
  cases e with
  | producer => rw [Function.update_self]; rfl
  | consumer => rw [Function.update_of_ne (by decide)]; simp only [State.status, hc]

theorem status_setConsumer (hp : t.producer = s.producer) :
    t.status = Function.update s.status .consumer t.consumer.status := by
  funext e
  cases e with
  | producer => rw [Function.update_of_ne (by decide)]; simp only [State.status, hp]
  | consumer => rw [Function.update_self]; rfl

theorem contents_congr (hpushed : t.pushed = s.pushed) (hpopped : t.popped = s.popped) :
    t.contents = s.contents := by
  rw [State.contents, State.contents, hpushed, hpopped]

/-! A step of one end, as the atomic channel sees it. -/

section Ends

variable {op : Op α} {r : Res α} {q : List α}

/-- Nothing that the channel could see. -/
theorem steps_silent (hpushed : t.pushed = s.pushed) (hpopped : t.popped = s.popped)
    (hp : t.producer.status = s.producer.status) (hq : t.consumer.status = s.consumer.status) :
    AtomicSteps (bounded c) s.toAtomic [] [] t.toAtomic := by
  have hsame : t.toAtomic = s.toAtomic := by
    rw [State.toAtomic, State.toAtomic, contents_congr hpushed hpopped]
    congr 1
    funext e
    cases e with
    | producer => exact hp
    | consumer => exact hq
  rw [hsame]
  exact .refl _

theorem steps_producer (hc : t.consumer = s.consumer) (hop : s.producer.status = .called op)
    (hend : t.producer.status = .idle) (ha : BoundedApply c.val s.contents op r t.contents) :
    AtomicSteps (bounded c) s.toAtomic [.ret .producer r] [(op, r)] t.toAtomic := by
  have hsteps : AtomicSteps (bounded c) s.toAtomic [.ret .producer r] [(op, r)]
      ⟨t.contents, Function.update s.status .producer .idle⟩ :=
    AtomicSteps.perform_ret (x := s.toAtomic) hop ha
  rwa [← hend, ← status_setProducer hc] at hsteps

theorem steps_consumer (hp : t.producer = s.producer) (hop : s.consumer.status = .called op)
    (hend : t.consumer.status = .idle) (ha : BoundedApply c.val s.contents op r t.contents) :
    AtomicSteps (bounded c) s.toAtomic [.ret .consumer r] [(op, r)] t.toAtomic := by
  have hsteps : AtomicSteps (bounded c) s.toAtomic [.ret .consumer r] [(op, r)]
      ⟨t.contents, Function.update s.status .consumer .idle⟩ :=
    AtomicSteps.perform_ret (x := s.toAtomic) hop ha
  rwa [← hend, ← status_setConsumer hp] at hsteps

end Ends

theorem length_contents (s : State α) :
    s.contents.length = s.pushed.length - s.popped.length := by
  rw [State.contents, List.length_drop]

theorem Inv.produce_steps (h : Inv c n s) (ht : SpscQueue.produce c s = some t) :
    AtomicSteps (bounded c) s.toAtomic (event c s .produce) (done c s .produce) t.toAtomic := by
  have hpi := h.producer
  have hle := h.le
  have hlen := length_contents s
  unfold SpscQueue.produce at ht
  unfold ProducerInv at hpi
  unfold event done ending
  split at ht
  · cases ht
  · cases ht
  · rename_i item hp
    cases ht
    simp only [hp]
    exact steps_silent rfl rfl (by rw [hp]; rfl) rfl
  · rename_i item t' hp
    rw [hp] at hpi
    simp only [hp]
    dsimp only at ht hpi
    split_ifs at ht ⊢ with hfull
    · cases ht
      refine steps_producer rfl (by rw [hp]; rfl) rfl (.full _ _ ?_)
      rw [hpi, h.sub_next] at hfull
      have hroom := h.room
      omega
    · cases ht
      exact steps_silent rfl rfl (by rw [hp]; rfl) rfl
  · rename_i item t' hp
    cases ht
    simp only [hp]
    exact steps_silent rfl rfl (by rw [hp]; rfl) rfl
  · rename_i item next hp
    rw [hp] at hpi
    cases ht
    simp only [hp]
    refine steps_producer rfl (by rw [hp]; rfl) rfl ?_
    have hpush : List.drop s.popped.length (s.pushed ++ [item]) = s.contents ++ [item] :=
      List.drop_append_of_le_length hle
    show BoundedApply c.val s.contents (.emplace item) (.pushed true)
      (List.drop s.popped.length (s.pushed ++ [item]))
    rw [hpush]
    apply BoundedApply.push
    omega

theorem Inv.consume_steps (h : Inv c n s) (ht : SpscQueue.consume c s = some t) :
    AtomicSteps (bounded c) s.toAtomic (event c s .consume) (done c s .consume) t.toAtomic := by
  have hci := h.consumer
  unfold SpscQueue.consume at ht
  unfold ConsumerInv at hci
  unfold event done ending
  split at ht
  · cases ht
  · cases ht
  · rename_i hq
    cases ht
    simp only [hq]
    exact steps_silent rfl rfl rfl (by rw [hq]; rfl)
  · rename_i h' hq
    rw [hq] at hci
    simp only [hq]
    dsimp only at ht hci
    split_ifs at ht ⊢ with hempty
    · cases ht
      refine steps_consumer rfl (by rw [hq]; rfl) rfl ?_
      rw [hci, h.head_eq_tail] at hempty
      have hnil : s.contents = [] := by
        rw [State.contents, List.drop_eq_nil_iff]
        omega
      show BoundedApply c.val s.contents .tryPop (.popped none) s.contents
      rw [hnil]
      exact .empty
    · cases ht
      exact steps_silent rfl rfl rfl (by rw [hq]; rfl)
  · rename_i h' hq
    cases ht
    simp only [hq]
    exact steps_silent rfl rfl rfl (by rw [hq]; rfl)
  · rename_i h' item hq
    cases ht
    simp only [hq]
    exact steps_silent rfl rfl rfl (by rw [hq]; rfl)
  · rename_i h' item hq
    rw [hq] at hci
    obtain ⟨-, x, hx, hitem⟩ := hci
    cases ht
    simp only [hq]
    refine steps_consumer rfl (by rw [hq]; rfl) rfl ?_
    obtain ⟨hlt, hget⟩ := List.getElem?_eq_some_iff.mp hx
    have hcons : s.contents = x :: s.pushed.drop (s.popped.length + 1) := by
      rw [State.contents, List.drop_eq_getElem_cons hlt, hget]
    have hrest : List.drop (s.popped ++ [item]).length s.pushed =
        s.pushed.drop (s.popped.length + 1) := by
      rw [List.length_append, List.length_singleton]
    show BoundedApply c.val s.contents .tryPop (.popped (some item))
      (List.drop (s.popped ++ [item]).length s.pushed)
    rw [hcons, hrest, hitem]
    exact .pop _ _

/-- The queue simulates the bounded channel: a call takes effect as it publishes its index, and a
call that fails or throws does so where it gives up. -/
theorem simulates_bounded (c : Capacity) :
    (system c).Simulates (fun _ _ => True) (fun s : State α => ∃ n, Inv c n s) (event c) (done c)
      (bounded c) State.toAtomic where
  init := by
    intro s hs
    obtain ⟨start, -, rfl⟩ := hs
    rw [State.toAtomic]
    congr 1
    funext e
    cases e with
    | producer => rfl
    | consumer => rfl
  step := by
    intro s a t hinv _ ht
    obtain ⟨n, h⟩ := hinv
    change step c s a = some t at ht
    cases a with
    | emplace item =>
      obtain ⟨hready, ht⟩ := Option.ite_none_right_eq_some.mp ht
      cases ht
      have hidle : s.producer.status = .idle := by
        cases hp : s.producer with
        | idle => rfl
        | returned ok => rfl
        | _ =>
          rw [hp] at hready
          cases hready
      have hcall : AtomicSteps (bounded c) s.toAtomic [.call .producer (.emplace item)] [] _ :=
        (AtomicStep.call hidle).steps
      have hstatus := status_setProducer (s := s)
        (t := { s with producer := .loadTail item }) rfl
      show AtomicSteps _ _ _ _ (⟨s.contents, _⟩ : Atomic _ _ _ _)
      rw [hstatus]
      exact hcall
    | tryPop =>
      obtain ⟨hready, ht⟩ := Option.ite_none_right_eq_some.mp ht
      cases ht
      have hidle : s.consumer.status = .idle := by
        cases hq : s.consumer with
        | idle => rfl
        | returned item => rfl
        | _ =>
          rw [hq] at hready
          cases hready
      have hcall : AtomicSteps (bounded c) s.toAtomic [.call .consumer .tryPop] [] _ :=
        (AtomicStep.call hidle).steps
      have hstatus := status_setConsumer (s := s) (t := { s with consumer := .loadHead }) rfl
      show AtomicSteps _ _ _ _ (⟨s.contents, _⟩ : Atomic _ _ _ _)
      rw [hstatus]
      exact hcall
    | produce => exact h.produce_steps ht
    | constructThrows =>
      have hpi := h.producer
      have hlen := length_contents s
      have hle := h.le
      unfold ProducerInv at hpi
      unfold event done ending
      unfold step at ht
      dsimp only at ht
      split at ht
      · rename_i item t' hp
        rw [hp] at hpi
        cases ht
        simp only [hp]
        refine steps_producer rfl (by rw [hp]; rfl) rfl (.threw _ _ ?_)
        omega
      · cases ht
    | consume => exact h.consume_steps ht

/-- Every run of the queue, with calls that fail and constructors that throw, is one of a channel
of `Capacity` items whose calls take effect at once, somewhere between their call and their
return; what the channel holds is what was pushed and not popped. -/
theorem spsc_linearizable (c : Capacity) (start : Nat) (hstart : start < 2^64)
    (as : List (Action α)) (t : State α) (hr : (system c).run (initial start) as = some t) :
    AtomicRun (bounded c) ((system c).events (event c) (initial start) as)
        ((system c).performed (done c) (initial start) as) ⟨t.contents, t.status⟩ ∧
      SeqRun (bounded c) ((system c).performed (done c) (initial start) as) t.contents ∧
      t.pushed.map some = t.popped ++ t.contents.map some ∧ t.contents.length ≤ c.val := by
  have hinit : (system c).init (initial start : State α) := ⟨start, hstart, rfl⟩
  have hrun := (simulates_bounded c).atomicRun
    (fun s ⟨m, hm, hs⟩ => ⟨m, hs ▸ Inv.initial hm⟩) (fun s a t ⟨m, h⟩ _ ht => ⟨m, h.step ht⟩)
    hinit (System.complies_true _ _) hr
  obtain ⟨n, h⟩ := Inv.of_reachable (System.Reachable.run (.init hinit) hr)
  refine ⟨hrun, hrun.seqRun, ?_, ?_⟩
  · have hsplit := congrArg (List.map some) (List.take_append_drop t.popped.length t.pushed)
    rw [List.map_append, ← h.fifo] at hsplit
    exact hsplit.symm
  · have hlen := length_contents t
    have hroom := h.room
    omega

/-- The fifth push fails while the first item is on its way out; the channel still holds it. -/
theorem spsc_linearizable_overTheEnd :
    ∃ t, (system four).run (initial (2^64 - 2)) (overTheEnd ++ [.produce]) = some t ∧
      t.contents = [1, 2, 3, 4] ∧
      SeqRun (bounded four) ((system four).performed (done four) (initial (2^64 - 2))
        (overTheEnd ++ [.produce])) t.contents := by
  have hrun : ((system four).run (initial (2^64 - 2)) (overTheEnd ++ [.produce])).map
      State.contents = some [1, 2, 3, 4] := by
    decide +kernel
  obtain ⟨t, ht, hcontents⟩ := Option.map_eq_some_iff.mp hrun
  obtain ⟨-, hseq, -⟩ := spsc_linearizable four (2^64 - 2) (by decide) _ t ht
  exact ⟨t, ht, hcontents, hseq⟩

end Jellybean.Concurrency.SpscQueue
