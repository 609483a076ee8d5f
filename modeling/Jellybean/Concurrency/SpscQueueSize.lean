import Jellybean.Concurrency.SpscQueueInvariant

namespace Jellybean.Concurrency.SpscQueue

variable {α : Type*} {c : Capacity} {n : Nat} {s t : State α}

/-- How many items had been pushed and popped at the first load of a call of `size`. No step reads
it. -/
structure Mark where
  pushed : Nat
  popped : Nat
  deriving DecidableEq

def State.mark (s : State α) : Mark := ⟨s.pushed.length, s.popped.length⟩

/-- What happened around a finished call: which index was loaded first, how many items the queue
held then, and how many were pushed and popped before the other index was loaded. -/
structure Overlap where
  tailFirst : Bool
  held : Nat
  pushes : Nat
  pops : Nat
  deriving DecidableEq

/-- A call of `size`. The operands of the subtraction are unsequenced. -/
inductive SizeCall where
  | idle
  | loadHead (tail : Nat) (mark : Mark)
  | loadTail (head : Nat) (mark : Mark)
  | returned (size : Nat) (during : Overlap)
  deriving DecidableEq

/-- The queue and a thread that calls `size`. -/
structure Observed (α : Type*) where
  queue : State α
  size : SizeCall

inductive SizeAction (α : Type*) where
  | queue (a : Action α)
  /-- The first load of a call. -/
  | loadFirst (tail : Bool)
  | loadSecond
  deriving DecidableEq

def SizeCall.ready : SizeCall → Bool
  | .idle | .returned _ _ => true
  | _ => false

def overlap (m : Mark) (s : State α) (tailFirst : Bool) : Overlap where
  tailFirst := tailFirst
  held := m.pushed - m.popped
  pushes := s.pushed.length - m.pushed
  pops := s.popped.length - m.popped

def loadSecond (s : State α) : SizeCall → Option SizeCall
  | .loadHead tail m => some (.returned (sub tail s.head) (overlap m s true))
  | .loadTail head m => some (.returned (sub s.tail head) (overlap m s false))
  | .idle | .returned _ _ => none

def sizeStep (c : Capacity) (x : Observed α) : SizeAction α → Option (Observed α)
  | .queue a => (step c x.queue a).map fun t => { x with queue := t }
  | .loadFirst tail =>
    if x.size.ready = true then
      if tail = true then some { x with size := .loadHead x.queue.tail x.queue.mark }
      else some { x with size := .loadTail x.queue.head x.queue.mark }
    else none
  | .loadSecond => (loadSecond x.queue x.size).map fun z => { x with size := z }

def observed (c : Capacity) : System (Observed α) (SizeAction α) where
  init x := (system c).init x.queue ∧ x.size = .idle
  step := sizeStep c

/-- Every finished call has returned a possible number of elements. -/
def SizeInRange (c : Capacity) (x : Observed α) : Prop :=
  ∀ size during, x.size = .returned size during → size ≤ c.val

/-- With the tail loaded first, no more items are popped in between than the queue held; with the
head loaded first, what is pushed in between fits in beside them. Whole laps of `2^64` do not count;
in the second cases the missing rest of a lap brings the difference back into range. -/
def Overlap.Fits (c : Capacity) (d : Overlap) : Prop :=
  if d.tailFirst = true then
    d.pops % 2^64 ≤ d.held ∨ 2^64 + d.held ≤ d.pops % 2^64 + c.val
  else
    d.held + d.pushes % 2^64 ≤ c.val ∨ 2^64 ≤ d.held + d.pushes % 2^64

/-- The queue only ever takes in and gives out. -/
theorem mark_mono {a : Action α} (ht : step c s a = some t) :
    s.pushed.length ≤ t.pushed.length ∧ s.popped.length ≤ t.popped.length := by
  have hlen : ∀ {β : Type _} (l : List β) (x : β), l.length ≤ (l ++ [x]).length := by
    intro β l x
    rw [List.length_append]
    exact Nat.le_add_right _ _
  cases a with
  | emplace item | tryPop =>
    obtain ⟨-, ht⟩ := Option.ite_none_right_eq_some.mp ht
    cases ht
    exact ⟨le_rfl, le_rfl⟩
  | produce =>
    change produce c s = some t at ht
    unfold produce at ht
    split at ht
    on_goal 4 =>
      dsimp only at ht
      split_ifs at ht
    all_goals cases ht
    all_goals first | exact ⟨le_rfl, le_rfl⟩ | exact ⟨hlen _ _, le_rfl⟩
  | constructThrows =>
    unfold step at ht
    dsimp only at ht
    split at ht
    · cases ht
      exact ⟨le_rfl, le_rfl⟩
    · cases ht
  | consume =>
    change consume c s = some t at ht
    unfold consume at ht
    split at ht
    on_goal 4 => split_ifs at ht
    all_goals cases ht
    all_goals first | exact ⟨le_rfl, le_rfl⟩ | exact ⟨le_rfl, hlen _ _⟩

/-- A mark that was true of the queue some time ago. -/
structure Mark.Past (c : Capacity) (m : Mark) (s : State α) : Prop where
  pushed : m.pushed ≤ s.pushed.length
  popped : m.popped ≤ s.popped.length
  le : m.popped ≤ m.pushed
  room : m.pushed ≤ m.popped + c.val

/-- What a call knows: the index it loaded was that of its mark; what it returned is the difference
that it meant, modulo `2^64`. -/
def SizeInv (c : Capacity) (n : Nat) (s : State α) : SizeCall → Prop
  | .idle => True
  | .loadHead tail m => tail = (n + m.pushed) % 2^64 ∧ m.Past c s
  | .loadTail head m => head = (n + m.popped) % 2^64 ∧ m.Past c s
  | .returned size d =>
    size < 2^64 ∧ d.held ≤ c.val ∧ d.pops ≤ d.held + d.pushes ∧ d.held + d.pushes ≤ d.pops + c.val ∧
      if d.tailFirst = true then (size + d.pops) % 2^64 = d.held
      else size = (d.held + d.pushes) % 2^64

theorem Inv.past_mark (h : Inv c n s) : s.mark.Past c s :=
  ⟨le_rfl, le_rfl, h.le, h.room⟩

theorem Mark.Past.step {m : Mark} {a : Action α} (h : m.Past c s) (ht : step c s a = some t) :
    m.Past c t := by
  obtain ⟨hpushed, hpopped⟩ := mark_mono ht
  exact ⟨h.pushed.trans hpushed, h.popped.trans hpopped, h.le, h.room⟩

theorem SizeInv.step {z : SizeCall} {a : Action α} (h : SizeInv c n s z)
    (ht : SpscQueue.step c s a = some t) : SizeInv c n t z := by
  cases z with
  | idle => trivial
  | loadHead tail m => exact ⟨h.1, h.2.step ht⟩
  | loadTail head m => exact ⟨h.1, h.2.step ht⟩
  | returned size d => exact h

theorem SizeInv.loadSecond {z z' : SizeCall} (hq : Inv c n s) (h : SizeInv c n s z)
    (hz : SpscQueue.loadSecond s z = some z') : SizeInv c n s z' := by
  have hle := hq.le
  have hroom := hq.room
  have hhalf := c.le_half
  cases z with
  | idle => cases hz
  | returned size d => cases hz
  | loadHead tail m =>
    obtain ⟨htail, hpushed, hpopped, hmle, hmroom⟩ := h
    cases hz
    refine ⟨Nat.mod_lt _ (by decide), ?_, ?_, ?_, ?_⟩
    · dsimp only [overlap]
      omega
    · dsimp only [overlap]
      omega
    · dsimp only [overlap]
      omega
    · refine (if_pos rfl).mpr ?_
      rw [htail, hq.head]
      dsimp only [overlap, sub]
      omega
  | loadTail head m =>
    obtain ⟨hhead, hpushed, hpopped, hmle, hmroom⟩ := h
    cases hz
    refine ⟨Nat.mod_lt _ (by decide), ?_, ?_, ?_, ?_⟩
    · dsimp only [overlap]
      omega
    · dsimp only [overlap]
      omega
    · dsimp only [overlap]
      omega
    · refine (if_neg Bool.false_ne_true).mpr ?_
      rw [hhead, hq.tail]
      dsimp only [overlap, sub]
      omega

theorem SizeInv.of_reachable {x : Observed α} (hr : (observed c).Reachable x) :
    ∃ n, Inv c n x.queue ∧ SizeInv c n x.queue x.size := by
  apply System.Reachable.invariant _ _ hr
  · intro x hx
    obtain ⟨⟨n, hn, hqueue⟩, hsize⟩ := hx
    rw [hqueue, hsize]
    exact ⟨n, Inv.initial hn, trivial⟩
  · intro x a y hx ht
    obtain ⟨n, hq, hz⟩ := hx
    refine ⟨n, ?_⟩
    cases a with
    | queue a =>
      obtain ⟨t, hstep, rfl⟩ := Option.map_eq_some_iff.mp ht
      exact ⟨hq.step hstep, hz.step hstep⟩
    | loadFirst tail =>
      obtain ⟨-, ht⟩ := Option.ite_none_right_eq_some.mp ht
      split_ifs at ht with hfirst
      · cases ht
        exact ⟨hq, hq.tail, hq.past_mark⟩
      · cases ht
        exact ⟨hq, hq.head, hq.past_mark⟩
    | loadSecond =>
      obtain ⟨z, hload, rfl⟩ := Option.map_eq_some_iff.mp ht
      exact ⟨hq, hz.loadSecond hq hload⟩

/-- A call during which one end of the queue stands still, such as a call from an end, returns the
number of elements at one of its two loads. -/
theorem SizeInv.eq_of_endpoint {size : Nat} {d : Overlap} (h : SizeInv c n s (.returned size d))
    (hend : d.pushes = 0 ∨ d.pops = 0) :
    size = d.held ∨ size + d.pops = d.held + d.pushes := by
  obtain ⟨hsize, hheld, hpops, hroom, hval⟩ := h
  have hhalf := c.le_half
  split_ifs at hval with hfirst
  · obtain hend | hend := hend
    · omega
    · omega
  · obtain hend | hend := hend
    · omega
    · omega

theorem SizeInv.le_iff {size : Nat} {d : Overlap} (h : SizeInv c n s (.returned size d)) :
    size ≤ c.val ↔ d.Fits c := by
  obtain ⟨hsize, hheld, -, -, hval⟩ := h
  have hhalf := c.le_half
  unfold Overlap.Fits
  split_ifs at hval ⊢ with hfirst
  · omega
  · omega

/-- `size` is in range exactly when what happened between its two loads fits. -/
theorem sizeInRange_iff (c : Capacity) (x : Observed α) (hr : (observed c).Reachable x) :
    SizeInRange c x ↔ ∀ size during, x.size = .returned size during → during.Fits c := by
  obtain ⟨n, -, hz⟩ := SizeInv.of_reachable hr
  constructor
  · intro hrange size d hd
    rw [hd] at hz
    exact hz.le_iff.mp (hrange size d hd)
  · intro hfits size d hd
    rw [hd] at hz
    exact hz.le_iff.mpr (hfits size d hd)

/-- One item through the queue. -/
def pushOne : List (SizeAction Nat) :=
  [.queue (.emplace 7), .queue .produce, .queue .produce, .queue .produce, .queue .produce]

def popOne : List (SizeAction Nat) :=
  [.queue .tryPop, .queue .consume, .queue .consume, .queue .consume, .queue .consume,
    .queue .consume]

/-- An item comes in between the two loads of a call that starts with the head. -/
theorem sizeInRange_pushed :
    ∃ x, (observed four).run ⟨initial 0, .idle⟩
        ([.loadFirst false] ++ pushOne ++ [.loadSecond]) = some x ∧
      x.size = .returned 1 ⟨false, 0, 1, 0⟩ ∧ SizeInRange four x := by
  have hrun : ((observed four).run ⟨initial 0, .idle⟩
      ([.loadFirst false] ++ pushOne ++ [.loadSecond])).map Observed.size =
        some (.returned 1 ⟨false, 0, 1, 0⟩) := by
    decide +kernel
  obtain ⟨x, hx, hsize⟩ := Option.map_eq_some_iff.mp hrun
  have hr : (observed four).Reachable x :=
    System.Reachable.run (.init ⟨⟨0, by decide, rfl⟩, rfl⟩) hx
  refine ⟨x, hx, hsize, (sizeInRange_iff four x hr).mpr ?_⟩
  intro size d hd
  rw [hsize] at hd
  cases hd
  exact Or.inl (by decide)

/-- An observer that loads the tail of the empty queue, and the head after one item has gone
through, sees `2^64 - 1` elements; one that loads the head first sees five in a queue of four. -/
theorem size_out_of_range :
    (∃ x : Observed Nat, (observed four).Reachable x ∧
      x.size = .returned (2^64 - 1) ⟨true, 0, 1, 1⟩ ∧ ¬SizeInRange four x) ∧
    ∃ x : Observed Nat, (observed four).Reachable x ∧
      x.size = .returned 5 ⟨false, 4, 1, 1⟩ ∧ ¬SizeInRange four x := by
  have hwrapped : ((observed four).run ⟨initial 0, .idle⟩
      ([.loadFirst true] ++ pushOne ++ popOne ++ [.loadSecond])).map Observed.size =
        some (.returned (2^64 - 1) ⟨true, 0, 1, 1⟩) := by
    decide +kernel
  have hmany : ((observed four).run ⟨initial 0, .idle⟩
      (pushOne ++ pushOne ++ pushOne ++ pushOne ++ [.loadFirst false] ++ popOne ++ pushOne ++
        [.loadSecond])).map Observed.size = some (.returned 5 ⟨false, 4, 1, 1⟩) := by
    decide +kernel
  obtain ⟨x, hx, hsize⟩ := Option.map_eq_some_iff.mp hwrapped
  obtain ⟨y, hy, hsize'⟩ := Option.map_eq_some_iff.mp hmany
  refine ⟨⟨x, System.Reachable.run (.init ⟨⟨0, by decide, rfl⟩, rfl⟩) hx, hsize, ?_⟩,
    ⟨y, System.Reachable.run (.init ⟨⟨0, by decide, rfl⟩, rfl⟩) hy, hsize', ?_⟩⟩
  · intro hrange
    exact absurd (hrange _ _ hsize) (by decide)
  · intro hrange
    exact absurd (hrange _ _ hsize') (by decide)

end Jellybean.Concurrency.SpscQueue
