import Jellybean.Framework.System
import Mathlib.Data.List.Basic
import Mathlib.Tactic

namespace Jellybean.Concurrency.SpscQueue

/-- The `requires` clause of the class template; the parameter is a `size_t`. -/
structure Capacity where
  val : Nat
  pos : 0 < val
  pow_two : val &&& (val - 1) = 0
  fits : val < 2^64

def Capacity.mask (c : Capacity) : Nat := c.val - 1

/-- Index of `buffer_[pos & MASK]`. -/
def Capacity.slot (c : Capacity) (pos : Nat) : Nat := pos &&& c.mask

/-- The difference of two `size_t`. -/
def sub (a b : Nat) : Nat := (a + (2^64 - b)) % 2^64

/-- What the producer does next inside `emplace`, which both `try_push` call. Each constructor but
the first and the last stands before one access to shared memory; `item` stands for the arguments
of the constructor of `T`. -/
inductive Producer (α : Type*) where
  | idle
  | loadTail (item : α)
  | loadHead (item : α) (t : Nat)
  | construct (item : α) (t : Nat)
  | storeTail (item : α) (next : Nat)
  | returned (pushed : Bool)
  deriving DecidableEq

/-- The same for the consumer and `try_pop`. The item is `none` if the storage it was moved from
held no object. -/
inductive Consumer (α : Type*) where
  | idle
  | loadHead
  | loadTail (h : Nat)
  | move (h : Nat)
  | destroy (h : Nat) (item : Option α)
  | storeHead (h : Nat) (item : Option α)
  | returned (item : Option (Option α))
  deriving DecidableEq

/-- Shared memory, the two threads, and two history variables that no step reads: what has been
pushed and what has been popped. -/
structure State (α : Type*) where
  head : Nat
  tail : Nat
  storage : Nat → Option α
  producer : Producer α
  consumer : Consumer α
  pushed : List α
  popped : List (Option α)

inductive Action (α : Type*) where
  | emplace (item : α)
  | tryPop
  /-- The next access of the producer. -/
  | produce
  /-- The constructor of `T` throws. -/
  | constructThrows
  /-- The next access of the consumer. -/
  | consume
  deriving DecidableEq

variable {α : Type*}

/-- An empty queue whose counters stand at `start`. -/
def initial (start : Nat) : State α := ⟨start, start, fun _ => none, .idle, .idle, [], []⟩

def Producer.ready : Producer α → Bool
  | .idle | .returned _ => true
  | _ => false

def Consumer.ready : Consumer α → Bool
  | .idle | .returned _ => true
  | _ => false

def produce (c : Capacity) (s : State α) : Option (State α) :=
  match s.producer with
  | .idle | .returned _ => none
  | .loadTail item => some { s with producer := .loadHead item s.tail }
  | .loadHead item t =>
    let next := (t + 1) % 2^64
    if sub next s.head > c.val then some { s with producer := .returned false }
    else some { s with producer := .construct item t }
  | .construct item t =>
    some { s with
      storage := Function.update s.storage (c.slot t) (some item)
      producer := .storeTail item ((t + 1) % 2^64) }
  | .storeTail item next =>
    some { s with tail := next, producer := .returned true, pushed := s.pushed ++ [item] }

def consume (c : Capacity) (s : State α) : Option (State α) :=
  match s.consumer with
  | .idle | .returned _ => none
  | .loadHead => some { s with consumer := .loadTail s.head }
  | .loadTail h =>
    if h = s.tail then some { s with consumer := .returned none }
    else some { s with consumer := .move h }
  | .move h => some { s with consumer := .destroy h (s.storage (c.slot h)) }
  | .destroy h item =>
    some { s with
      storage := Function.update s.storage (c.slot h) none
      consumer := .storeHead h item }
  | .storeHead h item =>
    some { s with
      head := (h + 1) % 2^64
      consumer := .returned (some item)
      popped := s.popped ++ [item] }

theorem produce_consumer {c : Capacity} {s t : State α} (ht : produce c s = some t) :
    t.consumer = s.consumer := by
  unfold produce at ht
  split at ht
  on_goal 4 =>
    dsimp only at ht
    split_ifs at ht
  all_goals cases ht
  all_goals rfl

theorem consume_producer {c : Capacity} {s t : State α} (ht : consume c s = some t) :
    t.producer = s.producer := by
  unfold consume at ht
  split at ht
  on_goal 4 => split_ifs at ht
  all_goals cases ht
  all_goals rfl

def step (c : Capacity) (s : State α) : Action α → Option (State α)
  | .emplace item =>
    if s.producer.ready = true then some { s with producer := .loadTail item } else none
  | .tryPop => if s.consumer.ready = true then some { s with consumer := .loadHead } else none
  | .produce => produce c s
  | .constructThrows =>
    match s.producer with
    | .construct _ _ => some { s with producer := .idle }
    | _ => none
  | .consume => consume c s

def system (c : Capacity) : System (State α) (Action α) where
  init s := ∃ start < 2^64, s = initial start
  step := step c

/-- The slot that the producer is writing. -/
def Producer.slot (c : Capacity) : Producer α → Option Nat
  | .construct _ t => some (c.slot t)
  | _ => none

/-- The slot that the consumer is moving from or destroying. -/
def Consumer.slot (c : Capacity) : Consumer α → Option Nat
  | .move h | .destroy h _ => some (c.slot h)
  | _ => none

/-! Arithmetic of the counters. -/

namespace Capacity

variable (c : Capacity)

theorem eq_two_pow : ∃ k < 64, c.val = 2^k := by
  obtain ⟨k, hk⟩ := (Nat.and_sub_one_eq_zero_iff_isPowerOfTwo c.pos.ne').mp c.pow_two
  refine ⟨k, ?_, hk⟩
  have h := c.fits
  rw [hk] at h
  exact (Nat.pow_lt_pow_iff_right (by decide)).mp h

theorem le_half : c.val ≤ 2^63 := by
  obtain ⟨k, hk, hval⟩ := c.eq_two_pow
  rw [hval]
  exact Nat.pow_le_pow_right (by decide) (Nat.le_of_lt_succ hk)

/-- A wrapped counter has the slot of the counter that never wraps. -/
theorem slot_wrap (n : Nat) : c.slot (n % 2^64) = n % c.val := by
  obtain ⟨k, hk, hval⟩ := c.eq_two_pow
  rw [slot, mask, hval, Nat.and_two_pow_sub_one_eq_mod]
  exact Nat.mod_mod_of_dvd n (Nat.pow_dvd_pow 2 hk.le)

/-- Counters less than a lap apart have different slots. -/
theorem mod_ne {n i j : Nat} (hij : i < j) (hji : j < i + c.val) :
    (n + i) % c.val ≠ (n + j) % c.val := by
  intro h
  have hlap := Nat.ModEq.add_le_of_lt h (by omega)
  omega

end Capacity

theorem sub_wrap {n p q : Nat} (hpq : p ≤ q) (hlt : q < p + 2^64) :
    sub ((n + q) % 2^64) ((n + p) % 2^64) = q - p := by
  unfold sub
  omega

end Jellybean.Concurrency.SpscQueue
