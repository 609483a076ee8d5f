import Jellybean.Framework.System
import Mathlib.Tactic

namespace Jellybean.Reactor

namespace ReactorQueues

/-- A call of `schedule` that has put its handle into a queue: its number among these calls, the
handle, null or the name of a coroutine, and the number of times that the loop had emptied
`external_queue_` by then. -/
structure Call where
  id : Nat
  handle : Option Nat
  born : Nat
  deriving DecidableEq

/-- An element of `scratch_queue_` that the loop came to, in which iteration, and whether it was
resumed or skipped. -/
structure Visit where
  iteration : Nat
  call : Call
  resumed : Bool
  deriving DecidableEq

/-- Where the thread is in `run`. -/
inductive Phase where
  | outside
  /-- Before the test of `running_`. -/
  | head
  /-- In `process_external_queue`. -/
  | draining
  /-- Between the `try_pop` that found nothing and the swap. -/
  | swapping
  /-- In the loop over `scratch_queue_`, and in which coroutine. -/
  | resuming (inside : Option Nat)
  /-- Timer callbacks and `backend_->poll`. -/
  | polling
  deriving DecidableEq

/-- The queues of one reactor and its thread. `threadKnown` says whether `thread_id_` was set,
`next` is the position in the loop over `scratch_queue_`. Below them what only records the run:
all calls, the visits, the contents of `run_queue_` at each swap, and how often the external queue
was emptied. -/
structure State where
  running : Bool
  threadKnown : Bool
  phase : Phase
  external : List Call
  runQueue : List Call
  scratch : List Call
  next : Nat
  done : Nat → Bool
  calls : List Call
  visits : List Visit
  swaps : List (List Call)
  drains : Nat

def initial : State where
  running := false
  threadKnown := false
  phase := .outside
  external := []
  runQueue := []
  scratch := []
  next := 0
  done := fun _ => false
  calls := []
  visits := []
  swaps := []
  drains := 0

/-- `MpmcQueue<std::coroutine_handle<>, 1024>`. -/
def externalCapacity : Nat := 1024

def newCall (s : State) (h : Option Nat) : Call := ⟨s.calls.length, h, s.drains⟩

def pushLocal (s : State) (h : Option Nat) : State :=
  { s with runQueue := s.runQueue ++ [newCall s h], calls := s.calls ++ [newCall s h] }

/-- A `try_push` that succeeds; a caller who finds the queue full tries again. -/
def pushExternal (s : State) (h : Option Nat) : Option State :=
  if s.external.length < externalCapacity then
    some { s with external := s.external ++ [newCall s h], calls := s.calls ++ [newCall s h] }
  else none

/-- The thread of the reactor runs code of its users: coroutines and callbacks, or what stands
around the calls of `run`. -/
def Phase.userCode : Phase → Bool
  | .outside | .resuming (some _) | .polling => true
  | .head | .draining | .swapping | .resuming none => false

/-- `if (h && !h.done()) h.resume();`. -/
def visit (s : State) (c : Call) : State :=
  let resumed := c.handle.any fun h => !s.done h
  { s with
    phase := .resuming (if resumed then c.handle else none)
    next := s.next + 1
    visits := s.visits ++ [⟨s.swaps.length - 1, c, resumed⟩] }

/-- The next step of `run` itself. -/
def advance (s : State) : Option State :=
  match s.phase with
  | .outside => none
  | .head => some { s with phase := if s.running then .draining else .outside }
  | .draining =>
    match s.external with
    | [] => some { s with phase := .swapping, drains := s.drains + 1 }
    | c :: rest => some { s with external := rest, runQueue := s.runQueue ++ [c] }
  | .swapping =>
    some { s with
      phase := .resuming none
      runQueue := []
      scratch := s.runQueue
      next := 0
      swaps := s.swaps ++ [s.runQueue] }
  | .resuming none =>
    match s.scratch[s.next]? with
    | some c => some (visit s c)
    | none => some { s with phase := .polling }
  | .resuming (some _) => some { s with phase := .resuming none }
  | .polling => some { s with phase := .head }

/-- `schedule` and `complete` are steps of the reactor's thread, `scheduleExternal` is one of
another thread; anyone may call `stop`. -/
inductive Action where
  | run
  | advance
  | schedule (h : Option Nat)
  | scheduleExternal (h : Option Nat)
  | complete (h : Nat)
  | stop
  deriving DecidableEq

def step (s : State) : Action → Option State
  | .run =>
    if s.phase = .outside then some { s with running := true, threadKnown := true, phase := .head }
    else none
  | .advance => advance s
  | .schedule h =>
    if s.phase.userCode then
      if s.threadKnown then some (pushLocal s h) else pushExternal s h
    else none
  | .scheduleExternal h => pushExternal s h
  | .complete h =>
    if s.phase.userCode then some { s with done := Function.update s.done h true } else none
  | .stop => some { s with running := false }

def system : System State Action := ⟨fun s => s = initial, step⟩

/-- What a step can do, with the guards under which it does it. -/
inductive Moves (s : State) : Action → State → Prop
  | run : s.phase = .outside →
      Moves s .run { s with running := true, threadKnown := true, phase := .head }
  | again : s.phase = .head → s.running = true → Moves s .advance { s with phase := .draining }
  | leave : s.phase = .head → s.running = false → Moves s .advance { s with phase := .outside }
  | pop (c : Call) (rest : List Call) : s.phase = .draining → s.external = c :: rest →
      Moves s .advance { s with external := rest, runQueue := s.runQueue ++ [c] }
  | drained : s.phase = .draining → s.external = [] →
      Moves s .advance { s with phase := .swapping, drains := s.drains + 1 }
  | swap : s.phase = .swapping →
      Moves s .advance { s with
        phase := .resuming none
        runQueue := []
        scratch := s.runQueue
        next := 0
        swaps := s.swaps ++ [s.runQueue] }
  | visit (c : Call) : s.phase = .resuming none → s.scratch[s.next]? = some c →
      Moves s .advance (visit s c)
  | endLoop : s.phase = .resuming none → s.scratch.length ≤ s.next →
      Moves s .advance { s with phase := .polling }
  | back (h : Nat) : s.phase = .resuming (some h) →
      Moves s .advance { s with phase := .resuming none }
  | polled : s.phase = .polling → Moves s .advance { s with phase := .head }
  | schedule (h : Option Nat) : s.phase.userCode = true → s.threadKnown = true →
      Moves s (.schedule h) (pushLocal s h)
  | scheduleFirst (h : Option Nat) : s.phase.userCode = true → s.threadKnown = false →
      s.external.length < externalCapacity →
      Moves s (.schedule h)
        { s with external := s.external ++ [newCall s h], calls := s.calls ++ [newCall s h] }
  | scheduleExternal (h : Option Nat) : s.external.length < externalCapacity →
      Moves s (.scheduleExternal h)
        { s with external := s.external ++ [newCall s h], calls := s.calls ++ [newCall s h] }
  | complete (h : Nat) : s.phase.userCode = true →
      Moves s (.complete h) { s with done := Function.update s.done h true }
  | stop : Moves s .stop { s with running := false }

theorem step_moves {s t : State} {a : Action} (h : step s a = some t) : Moves s a t := by
  cases a with
  | run =>
    obtain ⟨hp, h⟩ := Option.ite_none_right_eq_some.mp h
    cases h
    exact .run hp
  | advance =>
    simp only [step, advance] at h
    split at h
    · cases h
    · next hp =>
      cases h
      by_cases hr : s.running = true
      · rw [if_pos hr]
        exact .again hp hr
      · rw [if_neg hr]
        exact .leave hp (by simpa using hr)
    · next hp =>
      split at h
      · next hq =>
        cases h
        exact .drained hp hq
      · next c rest hq =>
        cases h
        exact .pop c rest hp hq
    · next hp =>
      cases h
      exact .swap hp
    · next hp =>
      split at h
      · next c hc =>
        cases h
        exact .visit c hp hc
      · next hc =>
        cases h
        exact .endLoop hp (List.getElem?_eq_none_iff.mp hc)
    · next c hp =>
      cases h
      exact .back c hp
    · next hp =>
      cases h
      exact .polled hp
  | schedule h' =>
    obtain ⟨hp, h⟩ := Option.ite_none_right_eq_some.mp h
    cases hk : s.threadKnown with
    | true =>
      rw [if_pos hk] at h
      cases h
      exact .schedule h' hp hk
    | false =>
      rw [if_neg (by simp [hk])] at h
      obtain ⟨hlt, h⟩ := Option.ite_none_right_eq_some.mp h
      cases h
      exact .scheduleFirst h' hp hk hlt
  | scheduleExternal h' =>
    obtain ⟨hlt, h⟩ := Option.ite_none_right_eq_some.mp h
    cases h
    exact .scheduleExternal h' hlt
  | complete h' =>
    obtain ⟨hp, h⟩ := Option.ite_none_right_eq_some.mp h
    cases h
    exact .complete h' hp
  | stop =>
    cases h
    exact .stop

end ReactorQueues

end Jellybean.Reactor
