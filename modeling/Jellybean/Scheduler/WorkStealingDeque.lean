import Jellybean.Framework.System
import Mathlib.Data.Int.Bitwise
import Mathlib.Tactic

namespace Jellybean.Scheduler

namespace WorkStealingDeque

/-- The circular buffer `Array`, with the two assertions of its constructor. -/
structure Buffer (α : Type*) where
  capacity : Nat
  storage : Nat → α
  pos : 0 < capacity
  pow_two : capacity &&& (capacity - 1) = 0

variable {ι α : Type*} [DecidableEq ι]

def Buffer.mask (a : Buffer α) : Int := a.capacity - 1

def Buffer.slot (a : Buffer α) (i : Int) : Nat := (Int.land i a.mask).toNat

def Buffer.load (a : Buffer α) (i : Int) : α := a.storage (a.slot i)

def Buffer.store (a : Buffer α) (i : Int) (val : α) : Buffer α :=
  { a with storage := Function.update a.storage (a.slot i) val }

/-- `new Array(old->capacity * 2)`; `new T[cap]` leaves unspecified values behind. -/
def Buffer.double (a : Buffer α) (junk : Nat → α) : Buffer α where
  capacity := a.capacity * 2
  storage := junk
  pos := by have := a.pos; omega
  pow_two := by
    have h := a.pos
    obtain ⟨k, hk⟩ := (Nat.and_sub_one_eq_zero_iff_isPowerOfTwo (by omega)).mp a.pow_two
    refine (Nat.and_sub_one_eq_zero_iff_isPowerOfTwo (by omega)).mpr ⟨k + 1, ?_⟩
    rw [hk, pow_succ]

/-- What the owner does next inside `push`, `resize` or `pop`. Each constructor but `idle`
and the two results stands before one access to shared memory and keeps the local
variables that are still used; `a`, `old` and `new` are addresses of buffers. -/
inductive Owner (α : Type*) where
  | idle
  | pushLoadBottom (item : α)
  | pushLoadTop (item : α) (b : Int)
  | pushLoadArray (item : α) (b t : Int)
  | resizeAlloc (item : α) (b t : Int) (old : Nat)
  | resizeLoad (item : α) (b : Int) (old new : Nat) (i : Int)
  | resizeStore (item : α) (b : Int) (old new : Nat) (i : Int) (val : α)
  | pushStore (item : α) (b : Int) (a : Nat)
  | pushStoreBottom (item : α) (b : Int)
  | pushReturn
  | popLoadBottom
  | popLoadArray (b : Int)
  | popStoreBottom (b : Int) (a : Nat)
  | popLoadTop (b : Int) (a : Nat)
  | popLoad (b : Int) (a : Nat) (t : Int)
  | popCas (b t : Int) (item : α)
  | popRestoreBottom (b : Int) (item : Option α)
  | popReturn (item : Option α)

inductive Thief (α : Type*) where
  | idle
  | loadTop
  | loadBottom (t : Int)
  | loadArray (t : Int)
  | load (t : Int) (a : Nat)
  | cas (t : Int) (item : α)
  | ret (item : Option α)

/-- `heap` holds the buffers by address, `allocated` is the next address. Indices are
integers: they stay below `2^63` by assumption, so `int64_t` never wraps. -/
structure State (ι α : Type*) where
  top : Int
  bottom : Int
  array : Nat
  garbage : List Nat
  heap : Nat → Buffer α
  allocated : Nat
  owner : Owner α
  thieves : ι → Thief α

def State.setThief (s : State ι α) (i : ι) (l : Thief α) : State ι α :=
  { s with thieves := Function.update s.thieves i l }

/-- The constructor: one buffer, at address 0. -/
def initial (a : Buffer α) : State ι α :=
  ⟨0, 0, 0, [], fun _ => a, 1, .idle, fun _ => .idle⟩

/-- One access to shared memory by the owner; `junk` is what a new buffer contains. -/
def advanceOwner (s : State ι α) (junk : Nat → α) : Option (State ι α) :=
  match s.owner with
  | .pushLoadBottom item => some { s with owner := .pushLoadTop item s.bottom }
  | .pushLoadTop item b => some { s with owner := .pushLoadArray item b s.top }
  | .pushLoadArray item b t =>
    if b - t > (s.heap s.array).capacity - 1 then
      some { s with owner := .resizeAlloc item b t s.array }
    else some { s with owner := .pushStore item b s.array }
  | .resizeAlloc item b t old =>
    some { s with
      owner := .resizeLoad item b old s.allocated t
      heap := Function.update s.heap s.allocated ((s.heap old).double junk)
      allocated := s.allocated + 1 }
  | .resizeLoad item b old new i =>
    if i < b then some { s with owner := .resizeStore item b old new i ((s.heap old).load i) }
    else some { s with
      owner := .pushStore item b new
      array := new
      garbage := s.garbage ++ [old] }
  | .resizeStore item b old new i val =>
    some { s with
      owner := .resizeLoad item b old new (i + 1)
      heap := Function.update s.heap new ((s.heap new).store i val) }
  | .pushStore item b a =>
    some { s with
      owner := .pushStoreBottom item b
      heap := Function.update s.heap a ((s.heap a).store b item) }
  | .pushStoreBottom _ b => some { s with owner := .pushReturn, bottom := b + 1 }
  | .popLoadBottom => some { s with owner := .popLoadArray (s.bottom - 1) }
  | .popLoadArray b => some { s with owner := .popStoreBottom b s.array }
  | .popStoreBottom b a => some { s with owner := .popLoadTop b a, bottom := b }
  | .popLoadTop b a =>
    if s.top ≤ b then some { s with owner := .popLoad b a s.top }
    else some { s with owner := .popRestoreBottom b none }
  | .popLoad b a t =>
    if t = b then some { s with owner := .popCas b t ((s.heap a).load b) }
    else some { s with owner := .popReturn (some ((s.heap a).load b)) }
  | .popCas b t item =>
    if s.top = t then
      some { s with owner := .popRestoreBottom b (some item), top := t + 1 }
    else some { s with owner := .popRestoreBottom b none }
  | .popRestoreBottom b item => some { s with owner := .popReturn item, bottom := b + 1 }
  | .idle | .pushReturn | .popReturn _ => none

/-- One access to shared memory by thief `i`. -/
def advanceThief (s : State ι α) (i : ι) : Option (State ι α) :=
  match s.thieves i with
  | .loadTop => some (s.setThief i (.loadBottom s.top))
  | .loadBottom t =>
    if t < s.bottom then some (s.setThief i (.loadArray t))
    else some (s.setThief i (.ret none))
  | .loadArray t => some (s.setThief i (.load t s.array))
  | .load t a => some (s.setThief i (.cas t ((s.heap a).load t)))
  | .cas t item =>
    if s.top = t then
      some { s with
        thieves := Function.update s.thieves i (.ret (some item))
        top := t + 1 }
    else some (s.setThief i (.ret none))
  | .idle | .ret _ => none

inductive Action (ι α : Type*) where
  | callPush (item : α)
  | callPop
  | callSteal (i : ι)
  | owner (junk : Nat → α)
  | thief (i : ι)
  | retOwner
  | retThief (i : ι)

def step (s : State ι α) : Action ι α → Option (State ι α)
  | .callPush item =>
    match s.owner with
    | .idle => some { s with owner := .pushLoadBottom item }
    | _ => none
  | .callPop =>
    match s.owner with
    | .idle => some { s with owner := .popLoadBottom }
    | _ => none
  | .callSteal i =>
    match s.thieves i with
    | .idle => some (s.setThief i .loadTop)
    | _ => none
  | .owner junk => advanceOwner s junk
  | .thief i => advanceThief s i
  | .retOwner =>
    match s.owner with
    | .pushReturn | .popReturn _ => some { s with owner := .idle }
    | _ => none
  | .retThief i =>
    match s.thieves i with
    | .ret _ => some (s.setThief i .idle)
    | _ => none

/-- Every initial buffer the assertions admit, with any contents. -/
def system : System (State ι α) (Action ι α) where
  init s := ∃ a, s = initial a
  step := step

/-! Masking a nonnegative index is the remainder. -/

theorem Buffer.slot_eq_mod (a : Buffer α) {i : Int} (hi : 0 ≤ i) :
    a.slot i = i.toNat % a.capacity := by
  obtain ⟨n, rfl⟩ := Int.eq_ofNat_of_zero_le hi
  have hpos := a.pos
  obtain ⟨k, hk⟩ := (Nat.and_sub_one_eq_zero_iff_isPowerOfTwo (by omega)).mp a.pow_two
  have hmask : a.mask = ((a.capacity - 1 : Nat) : Int) := by
    unfold Buffer.mask
    omega
  have hland : Int.land (n : Int) ((a.capacity - 1 : Nat) : Int)
      = ((n &&& (a.capacity - 1) : Nat) : Int) := rfl
  rw [Buffer.slot, hmask, hland, Int.toNat_natCast, Int.toNat_natCast, hk,
    Nat.and_two_pow_sub_one_eq_mod]

theorem Buffer.slot_ne (a : Buffer α) {i j : Int} (hi : 0 ≤ i) (hj : 0 ≤ j) (hne : i ≠ j)
    (hij : i < j + a.capacity) (hji : j < i + a.capacity) : a.slot i ≠ a.slot j := by
  rw [a.slot_eq_mod hi, a.slot_eq_mod hj]
  intro h
  have hd : (a.capacity : Int) ∣ i - j := by
    have hm : (i.toNat : Int) % a.capacity = (j.toNat : Int) % a.capacity := by exact_mod_cast h
    rw [Int.toNat_of_nonneg hi, Int.toNat_of_nonneg hj] at hm
    exact Int.dvd_of_emod_eq_zero (Int.emod_eq_emod_iff_emod_sub_eq_zero.mp hm)
  have := Int.eq_zero_of_abs_lt_dvd hd (by rw [abs_lt]; omega)
  omega

@[simp] theorem Buffer.store_capacity (a : Buffer α) (i : Int) (v : α) :
    (a.store i v).capacity = a.capacity := rfl

@[simp] theorem Buffer.load_store_self (a : Buffer α) (i : Int) (v : α) :
    (a.store i v).load i = v := by
  simp [Buffer.load, Buffer.store, Buffer.slot, Buffer.mask]

theorem Buffer.load_store_ne (a : Buffer α) {i j : Int} (v : α) (hi : 0 ≤ i) (hj : 0 ≤ j)
    (hne : i ≠ j) (hij : i < j + a.capacity) (hji : j < i + a.capacity) :
    (a.store i v).load j = a.load j := by
  have hs : a.slot j ≠ a.slot i := (a.slot_ne hi hj hne hij hji).symm
  exact Function.update_of_ne hs v a.storage

@[simp] theorem Buffer.double_capacity (a : Buffer α) (junk : Nat → α) :
    (a.double junk).capacity = a.capacity * 2 := rfl

/-- The buffer `array_` points to. -/
def State.current (s : State ι α) : Buffer α := s.heap s.array

/-- Everything one access of the owner can do: the branch taken, its guard and the
resulting state. -/
inductive OwnerMoves (s : State ι α) : State ι α → Prop
  | pushLoadBottom {item} (ho : s.owner = .pushLoadBottom item) :
      OwnerMoves s { s with owner := .pushLoadTop item s.bottom }
  | pushLoadTop {item b} (ho : s.owner = .pushLoadTop item b) :
      OwnerMoves s { s with owner := .pushLoadArray item b s.top }
  | full {item b t} (ho : s.owner = .pushLoadArray item b t) :
      OwnerMoves s { s with owner := .resizeAlloc item b t s.array }
  | hasRoom {item b t} (ho : s.owner = .pushLoadArray item b t)
      (hr : b - t ≤ s.current.capacity - 1) :
      OwnerMoves s { s with owner := .pushStore item b s.array }
  | alloc {item b t old} (junk : Nat → α) (ho : s.owner = .resizeAlloc item b t old) :
      OwnerMoves s { s with
        owner := .resizeLoad item b old s.allocated t
        heap := Function.update s.heap s.allocated ((s.heap old).double junk)
        allocated := s.allocated + 1 }
  | copyLoad {item b old new i} (ho : s.owner = .resizeLoad item b old new i) (hi : i < b) :
      OwnerMoves s { s with owner := .resizeStore item b old new i ((s.heap old).load i) }
  | install {item b old new i} (ho : s.owner = .resizeLoad item b old new i) (hi : b ≤ i) :
      OwnerMoves s { s with
        owner := .pushStore item b new
        array := new
        garbage := s.garbage ++ [old] }
  | copyStore {item b old new i val} (ho : s.owner = .resizeStore item b old new i val) :
      OwnerMoves s { s with
        owner := .resizeLoad item b old new (i + 1)
        heap := Function.update s.heap new ((s.heap new).store i val) }
  | store {item b a} (ho : s.owner = .pushStore item b a) :
      OwnerMoves s { s with
        owner := .pushStoreBottom item b
        heap := Function.update s.heap a ((s.heap a).store b item) }
  | publish {item b} (ho : s.owner = .pushStoreBottom item b) :
      OwnerMoves s { s with owner := .pushReturn, bottom := b + 1 }
  | popLoadBottom (ho : s.owner = .popLoadBottom) :
      OwnerMoves s { s with owner := .popLoadArray (s.bottom - 1) }
  | popLoadArray {b} (ho : s.owner = .popLoadArray b) :
      OwnerMoves s { s with owner := .popStoreBottom b s.array }
  | lower {b a} (ho : s.owner = .popStoreBottom b a) :
      OwnerMoves s { s with owner := .popLoadTop b a, bottom := b }
  | nonempty {b a} (ho : s.owner = .popLoadTop b a) (ht : s.top ≤ b) :
      OwnerMoves s { s with owner := .popLoad b a s.top }
  | empty {b a} (ho : s.owner = .popLoadTop b a) (ht : b < s.top) :
      OwnerMoves s { s with owner := .popRestoreBottom b none }
  | lastItem {b a t} (ho : s.owner = .popLoad b a t) (ht : t = b) :
      OwnerMoves s { s with owner := .popCas b t ((s.heap a).load b) }
  | take {b a t} (ho : s.owner = .popLoad b a t) (ht : t ≠ b) :
      OwnerMoves s { s with owner := .popReturn (some ((s.heap a).load b)) }
  | won {b t item} (ho : s.owner = .popCas b t item) (ht : s.top = t) :
      OwnerMoves s { s with owner := .popRestoreBottom b (some item), top := t + 1 }
  | lost {b t item} (ho : s.owner = .popCas b t item) (ht : s.top ≠ t) :
      OwnerMoves s { s with owner := .popRestoreBottom b none }
  | restore {b item} (ho : s.owner = .popRestoreBottom b item) :
      OwnerMoves s { s with owner := .popReturn item, bottom := b + 1 }

omit [DecidableEq ι] in
theorem ownerMoves_of_advanceOwner {s t : State ι α} {junk : Nat → α}
    (h : advanceOwner s junk = some t) : OwnerMoves s t := by
  unfold advanceOwner at h
  split at h
  case h_1 item ho => cases h; exact .pushLoadBottom ho
  case h_2 item b ho => cases h; exact .pushLoadTop ho
  case h_3 item b t ho =>
    split_ifs at h with hr
    · cases h; exact .full ho
    · cases h; exact .hasRoom ho (by unfold State.current; omega)
  case h_4 item b t old ho => cases h; exact .alloc junk ho
  case h_5 item b old new i ho =>
    split_ifs at h with hi
    · cases h; exact .copyLoad ho hi
    · cases h; exact .install ho (by omega)
  case h_6 item b old new i val ho => cases h; exact .copyStore ho
  case h_7 item b a ho => cases h; exact .store ho
  case h_8 item b ho => cases h; exact .publish ho
  case h_9 ho => cases h; exact .popLoadBottom ho
  case h_10 b ho => cases h; exact .popLoadArray ho
  case h_11 b a ho => cases h; exact .lower ho
  case h_12 b a ho =>
    split_ifs at h with ht
    · cases h; exact .nonempty ho ht
    · cases h; exact .empty ho (by omega)
  case h_13 b a t ho =>
    split_ifs at h with ht
    · cases h; exact .lastItem ho ht
    · cases h; exact .take ho ht
  case h_14 b t item ho =>
    split_ifs at h with ht
    · cases h; exact .won ho ht
    · cases h; exact .lost ho ht
  case h_15 b item ho => cases h; exact .restore ho
  all_goals cases h

/-- Everything one access of thief `i` can do. -/
inductive ThiefMoves (s : State ι α) (i : ι) : State ι α → Prop
  | loadTop (hl : s.thieves i = .loadTop) : ThiefMoves s i (s.setThief i (.loadBottom s.top))
  | nonempty {t} (hl : s.thieves i = .loadBottom t) (ht : t < s.bottom) :
      ThiefMoves s i (s.setThief i (.loadArray t))
  | empty {t} (hl : s.thieves i = .loadBottom t) : ThiefMoves s i (s.setThief i (.ret none))
  | loadArray {t} (hl : s.thieves i = .loadArray t) :
      ThiefMoves s i (s.setThief i (.load t s.array))
  | load {t a} (hl : s.thieves i = .load t a) :
      ThiefMoves s i (s.setThief i (.cas t ((s.heap a).load t)))
  | won {t item} (hl : s.thieves i = .cas t item) (ht : s.top = t) :
      ThiefMoves s i { s with
        thieves := Function.update s.thieves i (.ret (some item))
        top := t + 1 }
  | lost {t item} (hl : s.thieves i = .cas t item) : ThiefMoves s i (s.setThief i (.ret none))

theorem thiefMoves_of_advanceThief {s t : State ι α} {i : ι}
    (h : advanceThief s i = some t) : ThiefMoves s i t := by
  unfold advanceThief at h
  split at h
  case h_1 hl => cases h; exact .loadTop hl
  case h_2 t hl =>
    split_ifs at h with ht
    · cases h; exact .nonempty hl ht
    · cases h; exact .empty hl
  case h_3 t hl => cases h; exact .loadArray hl
  case h_4 t a hl => cases h; exact .load hl
  case h_5 t item hl =>
    split_ifs at h with ht
    · cases h; exact .won hl ht
    · cases h; exact .lost hl
  all_goals cases h

/-- Everything one action can do. -/
inductive Moves (s : State ι α) : Action ι α → State ι α → Prop
  | callPush (item : α) (ho : s.owner = .idle) :
      Moves s (.callPush item) { s with owner := .pushLoadBottom item }
  | callPop (ho : s.owner = .idle) : Moves s .callPop { s with owner := .popLoadBottom }
  | callSteal {i} (hl : s.thieves i = .idle) : Moves s (.callSteal i) (s.setThief i .loadTop)
  | owner {junk t} (hm : OwnerMoves s t) : Moves s (.owner junk) t
  | thief {i t} (hm : ThiefMoves s i t) : Moves s (.thief i) t
  | retPush (ho : s.owner = .pushReturn) : Moves s .retOwner { s with owner := .idle }
  | retPop {item} (ho : s.owner = .popReturn item) : Moves s .retOwner { s with owner := .idle }
  | retSteal {i item} (hl : s.thieves i = .ret item) :
      Moves s (.retThief i) (s.setThief i .idle)

theorem moves_of_step {s t : State ι α} {a : Action ι α} (h : step s a = some t) :
    Moves s a t := by
  cases a with
  | callPush item =>
    simp only [step] at h
    split at h
    · cases h; exact .callPush item ‹_›
    · cases h
  | callPop =>
    simp only [step] at h
    split at h
    · cases h; exact .callPop ‹_›
    · cases h
  | callSteal i =>
    simp only [step] at h
    split at h
    · cases h; exact .callSteal ‹_›
    · cases h
  | owner junk => exact .owner (ownerMoves_of_advanceOwner h)
  | thief i => exact .thief (thiefMoves_of_advanceThief h)
  | retOwner =>
    simp only [step] at h
    split at h
    · cases h; exact .retPush ‹_›
    · cases h; exact .retPop ‹_›
    · cases h
  | retThief i =>
    simp only [step] at h
    split at h
    · cases h; exact .retSteal ‹_›
    · cases h

end WorkStealingDeque

end Jellybean.Scheduler
