import Jellybean.Framework.System
import Jellybean.Reactor.TimerWheelRuns

namespace Jellybean.Reactor

/-! The body of `advance` in steps: callbacks run between the partition and the `erase`. -/

namespace TimerWheel

variable {β : Type}

/-- `current_tick_++` and the `stable_partition` of the bucket; the second component is `mid`. -/
def scan (w : TimerWheel β) : TimerWheel β × Nat :=
  let currentTick := (w.currentTick + 1) % 2^64
  let slot := slotOf currentTick
  let parts := (w.slots slot).partition fun e => e.expiresTick > currentTick
  (⟨Function.update w.slots slot (parts.1 ++ parts.2), currentTick⟩, parts.1.length)

/-- `entries` of the current tick. -/
def entries (w : TimerWheel β) : List (TimerEntry β) := w.slots (slotOf w.currentTick)

/-- `entries.erase(mid, entries.end())`. -/
def erase (w : TimerWheel β) (mid : Nat) : TimerWheel β :=
  { w with slots := Function.update w.slots (slotOf w.currentTick) (w.entries.take mid) }

/-- Without calls from the callbacks these steps are a round of `advance`. -/
theorem tick_eq_scan (w : TimerWheel β) :
    w.tick = (w.scan.1.erase w.scan.2, (w.scan.1.entries.drop w.scan.2).map TimerEntry.callback) := by
  simp [tick, scan, erase, entries]

end TimerWheel

namespace ReactorTimers

/-- The history of a timer. Its number is its place in the list of all timers. -/
structure Timer where
  /-- `max(1, delay_ns / TICK_NS)`. -/
  ticks : Nat
  /-- The tick stored in the wheel. -/
  expires : Nat
  /-- The clock tick from which the delay counts: that of the call, or that of the start of the
  first run for a timer added before it. -/
  base : Option Nat
  /-- The clock ticks read by the passes in which it fired. -/
  fired : List Nat
  deriving DecidableEq

/-- Where the thread is in `run`. -/
inductive Phase where
  | outside
  | head
  /-- Fibers run. -/
  | body
  | looping (target : Nat)
  /-- In the loop over the expired entries. -/
  | firing (target mid it : Nat)
  /-- `backend_->poll`. -/
  | polling
  deriving DecidableEq

structure State where
  wheel : TimerWheel Nat
  /-- Nanoseconds of the steady clock. -/
  clock : Nat
  running : Bool
  phase : Phase
  hasRun : Bool
  timers : List Timer
  /-- The tick of the last pass that came to its end. -/
  lastPass : Option Nat

def State.clockTick (s : State) : Nat := s.clock / tickNs

inductive Action where
  | elapse (ns : Nat)
  | run
  /-- The next step of the thread inside `run`. -/
  | step
  | stop
  | addTimer (delayNs : Nat)
  deriving DecidableEq

/-- Whether code of a client can run: before `run`, in a fiber, in a callback, in an I/O handler. -/
def Phase.clients : Phase → Bool
  | .outside | .body | .polling => true
  | .firing _ mid it => mid < it
  | .head | .looping _ => false

def Phase.isFiring : Phase → Bool
  | .firing .. => true
  | _ => false

namespace State

def addTimer (s : State) (delayNs : Nat) : State :=
  let expires := (s.wheel.currentTick + delayTicks delayNs) % 2^64
  { s with
    wheel := s.wheel.addTimer delayNs s.timers.length
    timers := s.timers ++
      [⟨delayTicks delayNs, expires, if s.hasRun then some s.clockTick else none, []⟩] }

/-- `run` up to its loop. -/
def run (s : State) : State :=
  { s with
    wheel := s.wheel.initializeAt s.clock
    running := true
    phase := .head
    hasRun := true
    timers := s.timers.map fun x => { x with base := some (x.base.getD s.clockTick) } }

/-- A callback is called. -/
def fire (s : State) (k target : Nat) : List Timer :=
  s.timers.modify k fun x => { x with fired := x.fired ++ [target] }

def step (s : State) : Option State :=
  match s.phase with
  | .outside => none
  | .head => some { s with phase := if s.running then .body else .outside }
  | .body => some { s with phase := .looping s.clockTick }
  | .looping target =>
    if s.wheel.currentTick < target then
      let r := s.wheel.scan
      some { s with
        wheel := r.1
        phase := if r.1.entries = [] then .looping target else .firing target r.2 r.2 }
    else some { s with phase := .polling, lastPass := some target }
  | .firing target mid it =>
    match s.wheel.entries[it]? with
    | some e => some { s with timers := s.fire e.callback target, phase := .firing target mid (it + 1) }
    | none => some { s with wheel := s.wheel.erase mid, phase := .looping target }
  | .polling => some { s with phase := .head }

end State

def step (s : State) : Action → Option State
  | .elapse ns => if s.clock + ns < 2^64 then some { s with clock := s.clock + ns } else none
  | .run => if s.phase = .outside then some s.run else none
  | .step => s.step
  | .stop => some { s with running := false }
  | .addTimer delayNs =>
    if s.phase.clients = true ∧ delayNs < 2^64 then some (s.addTimer delayNs) else none

def system : System State Action where
  init s := ∃ clock < 2^64, s = ⟨.new, clock, false, .outside, false, [], none⟩
  step := step

/-- Every timer fires at most once, in a pass that has read a clock tick of at least its deadline,
and has fired when such a pass is over. -/
def OnTime (s : State) : Prop :=
  ∀ x ∈ s.timers,
    x.fired.length ≤ 1 ∧ (∀ T ∈ x.fired, ∃ b, x.base = some b ∧ b + x.ticks ≤ T) ∧
      ∀ T b, s.lastPass = some T → x.base = some b → b + x.ticks ≤ T → x.fired ≠ []

/-! When the wheel comes to a timer. -/

theorem slotOf_eq_mod (t : Nat) : slotOf t = t % slotCount := Nat.and_two_pow_sub_one_eq_mod t 9

/-- The first tick after `c` at which an entry with expiry `e` is found expired in its bucket. -/
def visit (c e : Nat) : Nat := if c < e then e else c + (slotCount - (c - e) % slotCount)

theorem lt_visit (c e : Nat) : c < visit c e := by
  unfold visit slotCount
  split_ifs <;> omega

theorem visit_eq_succ {c e : Nat} :
    visit c e = c + 1 ↔ e ≤ c + 1 ∧ slotOf e = slotOf (c + 1) := by
  rw [slotOf_eq_mod, slotOf_eq_mod]
  unfold visit slotCount
  split_ifs <;> omega

theorem visit_succ {c e : Nat} (h : visit c e ≠ c + 1) : visit (c + 1) e = visit c e := by
  unfold visit slotCount at *
  split_ifs at * <;> omega

/-- A timer is added when the wheel stands at the clock's tick and not to the bucket that is being
run; and a run starts at a tick from which the wheel comes to every waiting timer at its deadline. -/
def Punctual (s : State) : Action → Prop
  | .addTimer delayNs =>
    s.phase ≠ .outside → s.wheel.currentTick = s.clockTick ∧
      (s.phase.isFiring = true →
        slotOf (s.wheel.currentTick + delayTicks delayNs) ≠ slotOf s.wheel.currentTick)
  | .run =>
    ∀ x ∈ s.timers, x.fired = [] →
      visit s.clockTick x.expires = x.base.getD s.clockTick + x.ticks
  | _ => True

instance (s : State) : (a : Action) → Decidable (Punctual s a)
  | .addTimer delayNs => inferInstanceAs (Decidable (s.phase ≠ .outside →
      s.wheel.currentTick = s.clockTick ∧ (s.phase.isFiring = true →
        slotOf (s.wheel.currentTick + delayTicks delayNs) ≠ slotOf s.wheel.currentTick)))
  | .run => inferInstanceAs (Decidable (∀ x ∈ s.timers, x.fired = [] →
      visit s.clockTick x.expires = x.base.getD s.clockTick + x.ticks))
  | .elapse _ | .step | .stop => .isTrue trivial

end ReactorTimers

end Jellybean.Reactor
