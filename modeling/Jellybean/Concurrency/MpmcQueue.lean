import Jellybean.Framework.System
import Mathlib.Data.List.Basic
import Mathlib.Tactic

namespace Jellybean.Concurrency

/-- The two operations on `size_t` whose result depends on its width: storing a sum
and taking the `intptr_t` difference of two words. -/
structure SizeT where
  wrap : Nat → Nat
  diff : Nat → Nat → Int

def toIntptr (x : Nat) : Int := if x < 2^63 then x else x - 2^64

/-- The 64-bit target of the build. -/
def SizeT.bits64 : SizeT := ⟨fun x => x % 2^64, fun a b => toIntptr a - toIntptr b⟩

/-- Counters that never wrap. -/
def SizeT.ideal : SizeT := ⟨id, fun a b => a - b⟩

namespace MpmcQueue

/-- The `requires` clause of the class template. A slot is aligned to 64 bytes, so the
array of slots has at least 64 times `val` bytes and its size must be a `size_t`. -/
structure Capacity where
  val : Nat
  two_le : 2 ≤ val
  pow_two : val &&& (val - 1) = 0
  fits : 64 * val < 2^64

def Capacity.mask (c : Capacity) : Nat := c.val - 1

/-- Index of `slots_[pos & MASK]`. -/
def Capacity.slot (c : Capacity) (pos : Nat) : Nat := pos &&& c.mask

/-- What a thread does next inside `emplace` or `try_pop`. Each constructor but the
first and the four results stands before one access to shared memory; `pos` is the
local variable of that name. The item of a pop is `none` if the storage it was moved
from held no object. -/
inductive Local (α : Type*) where
  | idle
  | pushLoadPos (item : α)
  | pushLoadSeq (item : α) (pos : Nat)
  | pushCas (item : α) (pos : Nat)
  | pushConstruct (item : α) (pos : Nat)
  | pushPublish (pos : Nat)
  | pushSucceeded
  | pushFailed (item : α)
  | popLoadPos
  | popLoadSeq (pos : Nat)
  | popCas (pos : Nat)
  | popMove (pos : Nat)
  | popDestroy (pos : Nat) (item : Option α)
  | popRelease (pos : Nat) (item : Option α)
  | popSucceeded (pos : Nat) (item : Option α)
  | popFailed
  deriving DecidableEq

/-- A successful `compare_exchange_weak` on `enqueue_pos_`. -/
structure PushClaim (ι α : Type*) where
  ticket : Nat
  thread : ι
  item : α
  deriving DecidableEq

/-- A successful `compare_exchange_weak` on `dequeue_pos_`. -/
structure PopClaim (ι : Type*) where
  ticket : Nat
  thread : ι
  deriving DecidableEq

/-- Shared memory, the threads, and three history variables that no step reads:
the claims in the order they were made and the pops that gave their slot back. -/
structure State (ι α : Type*) where
  sequence : Nat → Nat
  storage : Nat → Option α
  enqueuePos : Nat
  dequeuePos : Nat
  threads : ι → Local α
  pushed : List (PushClaim ι α)
  popped : List (PopClaim ι)
  finished : List (Nat × Option α)

variable {ι α : Type*} [DecidableEq ι]

def State.set (s : State ι α) (i : ι) (l : Local α) : State ι α :=
  { s with threads := Function.update s.threads i l }

/-- The constructor gives slot `i` the sequence number `i`. -/
def initial : State ι α :=
  ⟨id, fun _ => none, 0, 0, fun _ => .idle, [], [], []⟩

/-- One access to shared memory by thread `i`. `spurious` lets the weak
compare-exchange fail although the values agree; a failed one reloads `pos`. -/
def advance (w : SizeT) (c : Capacity) (s : State ι α) (i : ι) (spurious : Bool) :
    Option (State ι α) :=
  match s.threads i with
  | .pushLoadPos item => some (s.set i (.pushLoadSeq item s.enqueuePos))
  | .pushLoadSeq item pos =>
    let diff := w.diff (s.sequence (c.slot pos)) pos
    if diff = 0 then some (s.set i (.pushCas item pos))
    else if diff < 0 then some (s.set i (.pushFailed item))
    else some (s.set i (.pushLoadPos item))
  | .pushCas item pos =>
    if s.enqueuePos = pos ∧ spurious = false then
      some { s with
        threads := Function.update s.threads i (.pushConstruct item pos)
        enqueuePos := w.wrap (pos + 1)
        pushed := s.pushed ++ [⟨pos, i, item⟩] }
    else some (s.set i (.pushLoadSeq item s.enqueuePos))
  | .pushConstruct item pos =>
    some { s with
      threads := Function.update s.threads i (.pushPublish pos)
      storage := Function.update s.storage (c.slot pos) (some item) }
  | .pushPublish pos =>
    some { s with
      threads := Function.update s.threads i .pushSucceeded
      sequence := Function.update s.sequence (c.slot pos) (w.wrap (pos + 1)) }
  | .popLoadPos => some (s.set i (.popLoadSeq s.dequeuePos))
  | .popLoadSeq pos =>
    let diff := w.diff (s.sequence (c.slot pos)) (w.wrap (pos + 1))
    if diff = 0 then some (s.set i (.popCas pos))
    else if diff < 0 then some (s.set i .popFailed)
    else some (s.set i .popLoadPos)
  | .popCas pos =>
    if s.dequeuePos = pos ∧ spurious = false then
      some { s with
        threads := Function.update s.threads i (.popMove pos)
        dequeuePos := w.wrap (pos + 1)
        popped := s.popped ++ [⟨pos, i⟩] }
    else some (s.set i (.popLoadSeq s.dequeuePos))
  | .popMove pos => some (s.set i (.popDestroy pos (s.storage (c.slot pos))))
  | .popDestroy pos item =>
    some { s with
      threads := Function.update s.threads i (.popRelease pos item)
      storage := Function.update s.storage (c.slot pos) none }
  | .popRelease pos item =>
    some { s with
      threads := Function.update s.threads i (.popSucceeded pos item)
      sequence := Function.update s.sequence (c.slot pos) (w.wrap (pos + c.mask + 1))
      finished := s.finished ++ [(pos, item)] }
  | .idle | .pushSucceeded | .pushFailed _ | .popSucceeded _ _ | .popFailed => none

/-- The operation has its result and has not handed it to the caller yet. -/
def Local.Done : Local α → Prop
  | .pushSucceeded | .pushFailed _ | .popSucceeded _ _ | .popFailed => True
  | _ => False

instance (l : Local α) : Decidable l.Done := by
  cases l <;> unfold Local.Done <;> infer_instance

inductive Action (ι α : Type*) where
  | callPush (i : ι) (item : α)
  | callPop (i : ι)
  | advance (i : ι) (spurious : Bool)
  | ret (i : ι)

def step (w : SizeT) (c : Capacity) (s : State ι α) : Action ι α → Option (State ι α)
  | .callPush i item =>
    match s.threads i with
    | .idle => some (s.set i (.pushLoadPos item))
    | _ => none
  | .callPop i =>
    match s.threads i with
    | .idle => some (s.set i .popLoadPos)
    | _ => none
  | .advance i spurious => advance w c s i spurious
  | .ret i => if (s.threads i).Done then some (s.set i .idle) else none

def system (w : SizeT) (c : Capacity) : System (State ι α) (Action ι α) where
  init s := s = initial
  step := step w c

/-- Between its claim and its publishing store the producer of ticket `k` owns the slot. -/
def Local.Pushing (k : Nat) : Local α → Prop
  | .pushConstruct _ pos | .pushPublish pos => pos = k
  | _ => False

/-- Between its claim and its releasing store the consumer of ticket `k` owns the slot. -/
def Local.Popping (k : Nat) : Local α → Prop
  | .popMove pos | .popDestroy pos _ | .popRelease pos _ => pos = k
  | _ => False

/-- Thread `i` may touch the storage of slot `j`. -/
def Owns (c : Capacity) (s : State ι α) (i : ι) (j : Nat) : Prop :=
  ∃ k, c.slot k = j ∧ ((s.threads i).Pushing k ∨ (s.threads i).Popping k)

/-! Masking with a power of two minus one is the remainder. -/

theorem Capacity.slot_eq_mod (c : Capacity) (pos : Nat) : c.slot pos = pos % c.val := by
  have hne : c.val ≠ 0 := by have := c.two_le; omega
  obtain ⟨k, hk⟩ := (Nat.and_sub_one_eq_zero_iff_isPowerOfTwo hne).mp c.pow_two
  rw [Capacity.slot, Capacity.mask, hk, Nat.and_two_pow_sub_one_eq_mod]

theorem Capacity.slot_lt (c : Capacity) (pos : Nat) : c.slot pos < c.val := by
  rw [c.slot_eq_mod]
  exact Nat.mod_lt _ (by have := c.two_le; omega)

theorem Capacity.slot_add_val (c : Capacity) (pos : Nat) : c.slot (pos + c.val) = c.slot pos := by
  rw [c.slot_eq_mod, c.slot_eq_mod, Nat.add_mod_right]

/-- Two tickets of one slot differ by at least the capacity. -/
theorem Capacity.slot_gap (c : Capacity) {p q : Nat} (h : c.slot p = c.slot q) (hlt : p < q) :
    p + c.val ≤ q := by
  rw [c.slot_eq_mod, c.slot_eq_mod] at h
  exact Nat.ModEq.add_le_of_lt h hlt

theorem Capacity.slot_succ_ne (c : Capacity) (p : Nat) : c.slot (p + 1) ≠ c.slot p := by
  intro h
  have := c.slot_gap h.symm (by omega)
  have := c.two_le
  omega

theorem Capacity.eq_of_slot (c : Capacity) {p q : Nat} (h : c.slot p = c.slot q)
    (hpq : p < q + c.val) (hqp : q < p + c.val) : p = q := by
  rcases Nat.lt_trichotomy p q with hlt | heq | hlt
  · have := c.slot_gap h hlt
    omega
  · exact heq
  · have := c.slot_gap h.symm hlt
    omega

theorem Capacity.mask_succ (c : Capacity) (pos : Nat) : pos + c.mask + 1 = pos + c.val := by
  have := c.two_le
  unfold Capacity.mask
  omega

@[simp] theorem State.set_threads (s : State ι α) (i : ι) (l : Local α) :
    (s.set i l).threads = Function.update s.threads i l := rfl
@[simp] theorem State.set_sequence (s : State ι α) (i : ι) (l : Local α) :
    (s.set i l).sequence = s.sequence := rfl
@[simp] theorem State.set_storage (s : State ι α) (i : ι) (l : Local α) :
    (s.set i l).storage = s.storage := rfl
@[simp] theorem State.set_enqueuePos (s : State ι α) (i : ι) (l : Local α) :
    (s.set i l).enqueuePos = s.enqueuePos := rfl
@[simp] theorem State.set_dequeuePos (s : State ι α) (i : ι) (l : Local α) :
    (s.set i l).dequeuePos = s.dequeuePos := rfl
@[simp] theorem State.set_pushed (s : State ι α) (i : ι) (l : Local α) :
    (s.set i l).pushed = s.pushed := rfl
@[simp] theorem State.set_popped (s : State ι α) (i : ι) (l : Local α) :
    (s.set i l).popped = s.popped := rfl
@[simp] theorem State.set_finished (s : State ι α) (i : ι) (l : Local α) :
    (s.set i l).finished = s.finished := rfl

/-- Everything one access can do when no counter wraps: the branch taken, its guard
and the resulting state. -/
inductive Moves (c : Capacity) (s : State ι α) (i : ι) : State ι α → Prop
  | loadEnqueuePos {item} (hl : s.threads i = .pushLoadPos item) :
      Moves c s i (s.set i (.pushLoadSeq item s.enqueuePos))
  | pushReady {item pos} (hl : s.threads i = .pushLoadSeq item pos)
      (hq : s.sequence (c.slot pos) = pos) : Moves c s i (s.set i (.pushCas item pos))
  | pushFull {item pos} (hl : s.threads i = .pushLoadSeq item pos)
      (hq : s.sequence (c.slot pos) < pos) : Moves c s i (s.set i (.pushFailed item))
  | pushLate {item pos} (hl : s.threads i = .pushLoadSeq item pos)
      (hq : pos < s.sequence (c.slot pos)) : Moves c s i (s.set i (.pushLoadPos item))
  | claimPush {item pos} (hl : s.threads i = .pushCas item pos) (hq : s.enqueuePos = pos) :
      Moves c s i { s with
        threads := Function.update s.threads i (.pushConstruct item pos)
        enqueuePos := pos + 1
        pushed := s.pushed ++ [⟨pos, i, item⟩] }
  | retryPush {item pos} (hl : s.threads i = .pushCas item pos) :
      Moves c s i (s.set i (.pushLoadSeq item s.enqueuePos))
  | construct {item pos} (hl : s.threads i = .pushConstruct item pos) :
      Moves c s i { s with
        threads := Function.update s.threads i (.pushPublish pos)
        storage := Function.update s.storage (c.slot pos) (some item) }
  | publish {pos} (hl : s.threads i = .pushPublish pos) :
      Moves c s i { s with
        threads := Function.update s.threads i .pushSucceeded
        sequence := Function.update s.sequence (c.slot pos) (pos + 1) }
  | loadDequeuePos (hl : s.threads i = .popLoadPos) :
      Moves c s i (s.set i (.popLoadSeq s.dequeuePos))
  | popReady {pos} (hl : s.threads i = .popLoadSeq pos)
      (hq : s.sequence (c.slot pos) = pos + 1) : Moves c s i (s.set i (.popCas pos))
  | popEmpty {pos} (hl : s.threads i = .popLoadSeq pos)
      (hq : s.sequence (c.slot pos) < pos + 1) : Moves c s i (s.set i .popFailed)
  | popLate {pos} (hl : s.threads i = .popLoadSeq pos)
      (hq : pos + 1 < s.sequence (c.slot pos)) : Moves c s i (s.set i .popLoadPos)
  | claimPop {pos} (hl : s.threads i = .popCas pos) (hq : s.dequeuePos = pos) :
      Moves c s i { s with
        threads := Function.update s.threads i (.popMove pos)
        dequeuePos := pos + 1
        popped := s.popped ++ [⟨pos, i⟩] }
  | retryPop {pos} (hl : s.threads i = .popCas pos) :
      Moves c s i (s.set i (.popLoadSeq s.dequeuePos))
  | move {pos} (hl : s.threads i = .popMove pos) :
      Moves c s i (s.set i (.popDestroy pos (s.storage (c.slot pos))))
  | destroy {pos item} (hl : s.threads i = .popDestroy pos item) :
      Moves c s i { s with
        threads := Function.update s.threads i (.popRelease pos item)
        storage := Function.update s.storage (c.slot pos) none }
  | release {pos item} (hl : s.threads i = .popRelease pos item) :
      Moves c s i { s with
        threads := Function.update s.threads i (.popSucceeded pos item)
        sequence := Function.update s.sequence (c.slot pos) (pos + c.val)
        finished := s.finished ++ [(pos, item)] }

theorem moves_of_advance {c : Capacity} {s t : State ι α} {i : ι} {b : Bool}
    (h : advance .ideal c s i b = some t) : Moves c s i t := by
  unfold advance at h
  split at h
  case h_1 item hl => cases h; exact .loadEnqueuePos hl
  case h_2 item pos hl =>
    dsimp only at h
    split_ifs at h with h0 h1 <;> simp only [SizeT.ideal] at h0
    · cases h; exact .pushReady hl (by omega)
    · simp only [SizeT.ideal] at h1
      cases h; exact .pushFull hl (by omega)
    · simp only [SizeT.ideal] at h1
      cases h; exact .pushLate hl (by omega)
  case h_3 item pos hl =>
    split_ifs at h with h0
    · cases h; exact .claimPush hl h0.1
    · cases h; exact .retryPush hl
  case h_4 item pos hl => cases h; exact .construct hl
  case h_5 pos hl => cases h; exact .publish hl
  case h_6 hl => cases h; exact .loadDequeuePos hl
  case h_7 pos hl =>
    dsimp only at h
    split_ifs at h with h0 h1 <;> simp only [SizeT.ideal, id] at h0
    · cases h; exact .popReady hl (by omega)
    · simp only [SizeT.ideal, id] at h1
      cases h; exact .popEmpty hl (by omega)
    · simp only [SizeT.ideal, id] at h1
      cases h; exact .popLate hl (by omega)
  case h_8 pos hl =>
    split_ifs at h with h0
    · cases h; exact .claimPop hl h0.1
    · cases h; exact .retryPop hl
  case h_9 pos hl => cases h; exact .move hl
  case h_10 pos item hl => cases h; exact .destroy hl
  case h_11 pos item hl =>
    cases h
    simp only [SizeT.ideal, id, c.mask_succ]
    exact .release hl
  all_goals cases h

end MpmcQueue

end Jellybean.Concurrency
