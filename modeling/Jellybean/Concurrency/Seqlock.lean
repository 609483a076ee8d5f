import Jellybean.Framework.System
import Mathlib.Data.Fintype.Basic
import Mathlib.Tactic

namespace Jellybean.Concurrency.Seqlock

variable {ι V : Type*} {n : Nat}

/-- Where a thread is in `write` or `read`. The callbacks of both touch the data one word at a
time, in any order. `called` is the number of writes that were finished when the read was called
and `copy` holds the words copied so far; `s` is the local variable of that name. -/
inductive Local (n : Nat) (V : Type*) where
  | idle
  | writeLoad
  | writeCas (s : Nat)
  /-- In the callback, or behind it and before `seq_.store(s + 2)`. -/
  | writing (s : Nat)
  | readLoad (called : Nat)
  /-- In the callback, or behind it and before the second load. -/
  | reading (called s : Nat) (copy : Fin n → Option V)
  deriving DecidableEq

/-- A finished read. -/
structure Return (n : Nat) (V : Type*) where
  called : Nat
  finished : Nat
  copy : Fin n → Option V

/-- The counter, the `n` words of data and the threads; then history variables that no step reads:
the data at the start and after each finished write, and the finished reads. -/
structure State (ι : Type*) (n : Nat) (V : Type*) where
  seq : Nat
  data : Fin n → V
  threads : ι → Local n V
  start : Fin n → V
  writes : List (Fin n → V)
  returns : List (Return n V)

inductive Action (ι : Type*) (n : Nat) (V : Type*) where
  | write (i : ι)
  | read (i : ι)
  /-- The next access to `seq_`; `spurious` lets the weak compare-exchange fail although the values
  agree. -/
  | step (i : ι) (spurious : Bool)
  | storeWord (i : ι) (w : Fin n) (v : V)
  | loadWord (i : ι) (w : Fin n)
  /-- The callback throws. -/
  | throws (i : ι)
  deriving DecidableEq

def initial (data : Fin n → V) : State ι n V := ⟨0, data, fun _ => .idle, data, [], []⟩

/-- The data after `k` finished writes. -/
def State.snapshot (s : State ι n V) (k : Nat) : Option (Fin n → V) := (s.start :: s.writes)[k]?

variable [DecidableEq ι]

def State.set (s : State ι n V) (i : ι) (l : Local n V) : State ι n V :=
  { s with threads := Function.update s.threads i l }

def access (s : State ι n V) (i : ι) (spurious : Bool) : Option (State ι n V) :=
  match s.threads i with
  | .idle => none
  | .writeLoad =>
    if s.seq &&& 1 ≠ 0 then some s
    else some (s.set i (.writeCas s.seq))
  | .writeCas x =>
    if s.seq = x ∧ spurious = false then
      some { s with
        seq := (x + 1) % 2^64
        threads := Function.update s.threads i (.writing x) }
    else some (s.set i .writeLoad)
  | .writing x =>
    some { s with
      seq := (x + 2) % 2^64
      threads := Function.update s.threads i .idle
      writes := s.writes ++ [s.data] }
  | .readLoad called =>
    if s.seq &&& 1 ≠ 0 then some s
    else some (s.set i (.reading called s.seq fun _ => none))
  | .reading called x copy =>
    -- the callback returns when it has copied every word
    if ∀ w, (copy w).isSome = true then
      if s.seq = x then
        some { s with
          threads := Function.update s.threads i .idle
          returns := s.returns ++ [⟨called, s.writes.length, copy⟩] }
      else some (s.set i (.readLoad called))
    else none

def step (s : State ι n V) : Action ι n V → Option (State ι n V)
  | .write i =>
    match s.threads i with
    | .idle => some (s.set i .writeLoad)
    | _ => none
  | .read i =>
    match s.threads i with
    | .idle => some (s.set i (.readLoad s.writes.length))
    | _ => none
  | .step i spurious => access s i spurious
  | .storeWord i w v =>
    match s.threads i with
    | .writing _ => some { s with data := Function.update s.data w v }
    | _ => none
  | .loadWord i w =>
    match s.threads i with
    | .reading called x copy =>
      some (s.set i (.reading called x (Function.update copy w (some (s.data w)))))
    | .writing _ => some s
    | _ => none
  | .throws i =>
    match s.threads i with
    | .writing _ | .reading _ _ _ => some (s.set i .idle)
    | _ => none

def system (ι : Type*) [DecidableEq ι] (n : Nat) (V : Type*) :
    System (State ι n V) (Action ι n V) where
  init s := ∃ data, s = initial data
  step := step

/-- The thread is inside the callback of a write. -/
def Local.inWrite : Local n V → Bool
  | .writing _ => true
  | _ => false

/-- The number of finished writes when the read in progress was called. -/
def Local.since : Local n V → Option Nat
  | .readLoad called | .reading called _ _ => some called
  | _ => none

def Action.throwing : Action ι n V → Bool
  | .throws _ => true
  | _ => false

/-- No callback throws, and fewer than `2^63` writes finish during one read. -/
def Calm (s : State ι n V) (a : Action ι n V) : Prop :=
  a.throwing = false ∧ ∀ i, ∀ called ∈ (s.threads i).since, s.writes.length < called + 2^63

instance [Fintype ι] (s : State ι n V) (a : Action ι n V) : Decidable (Calm s a) :=
  inferInstanceAs (Decidable (a.throwing = false ∧
    ∀ i, ∀ called ∈ (s.threads i).since, s.writes.length < called + 2^63))

end Jellybean.Concurrency.Seqlock
