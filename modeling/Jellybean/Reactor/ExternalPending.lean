import Jellybean.Concurrency.MpmcQueuePhases

namespace Jellybean.Reactor.ExternalPending

open Concurrency

variable {ι α : Type*} [DecidableEq ι]

/-- Where a thread is in `schedule` or `run`. `tryPush` and `tryPop` stand before a call of the
queue, `pushing` and `popping` last from the call to its return. -/
inductive Pc (α : Type*) where
  | idle
  /-- Before the comparison of the thread ids. -/
  | schedule (h : α)
  | tryPush (h : α)
  | pushing (h : α)
  | fetchAdd
  | wakeup
  /-- Before the test of `running_`. -/
  | head
  | tryPop
  | popping
  | fetchSub
  | swapping
  /-- In the loop over `scratch_queue_`, with what is left of it. -/
  | resuming (rest : List α)
  | timers
  /-- Before the load of `external_pending_`. -/
  | loadPending (noLocal : Bool)
  | polling (timeout : Nat)
  deriving DecidableEq

/-- The members of a reactor that threads share, and the threads. `looping` is the thread inside
`run`: callers run one loop at a time. -/
structure State (ι α : Type*) where
  queue : MpmcQueue.State ι α
  externalPending : Nat
  running : Bool
  threadId : Option ι
  runQueue : List α
  looping : Option ι
  pcs : ι → Pc α

def initial : State ι α := ⟨MpmcQueue.initial, 0, false, none, [], none, fun _ => .idle⟩

theorem capacity_fits : 64 * 1024 < 2^64 := by norm_num

/-- `MpmcQueue<std::coroutine_handle<>, 1024>`. -/
def capacity : MpmcQueue.Capacity := ⟨1024, Nat.le_add_left 2 1022, rfl, capacity_fits⟩

def queueStep (s : State ι α) (a : MpmcQueue.Action ι α) : Option (MpmcQueue.State ι α) :=
  MpmcQueue.step .ideal capacity s.queue a

def State.goto (s : State ι α) (i : ι) (pc : Pc α) : State ι α :=
  { s with pcs := Function.update s.pcs i pc }

/-- The next step of thread `i`. -/
def advance (s : State ι α) (i : ι) (spurious : Bool) : Option (State ι α) :=
  match s.pcs i with
  | .idle => none
  | .schedule h =>
    if s.threadId = some i then some { s.goto i .idle with runQueue := s.runQueue ++ [h] }
    else some (s.goto i (.tryPush h))
  | .tryPush h =>
    (queueStep s (.callPush i h)).map fun q => { s.goto i (.pushing h) with queue := q }
  | .pushing h =>
    match s.queue.threads i with
    | .pushSucceeded =>
      (queueStep s (.ret i)).map fun q => { s.goto i .fetchAdd with queue := q }
    | .pushFailed _ =>
      (queueStep s (.ret i)).map fun q => { s.goto i (.tryPush h) with queue := q }
    | _ => (queueStep s (.advance i spurious)).map fun q => { s with queue := q }
  | .fetchAdd =>
    some { s.goto i .wakeup with externalPending := (s.externalPending + 1) % 2^64 }
  | .wakeup => some (s.goto i .idle)
  | .head =>
    if s.running then some (s.goto i .tryPop)
    else some { s.goto i .idle with looping := none }
  | .tryPop =>
    (queueStep s (.callPop i)).map fun q => { s.goto i .popping with queue := q }
  | .popping =>
    match s.queue.threads i with
    | .popSucceeded _ (some h) =>
      (queueStep s (.ret i)).map fun q =>
        { s.goto i .fetchSub with queue := q, runQueue := s.runQueue ++ [h] }
    | .popFailed => (queueStep s (.ret i)).map fun q => { s.goto i .swapping with queue := q }
    | _ => (queueStep s (.advance i spurious)).map fun q => { s with queue := q }
  | .fetchSub =>
    some { s.goto i .tryPop with externalPending := (s.externalPending + (2^64 - 1)) % 2^64 }
  | .swapping => some { s.goto i (.resuming s.runQueue) with runQueue := [] }
  | .resuming (_ :: rest) => some (s.goto i (.resuming rest))
  | .resuming [] => some (s.goto i .timers)
  | .timers => some (s.goto i (.loadPending s.runQueue.isEmpty))
  | .loadPending noLocal =>
    some (s.goto i (.polling (if noLocal ∧ s.externalPending = 0 then 1 else 0)))
  | .polling _ => some (s.goto i .head)

/-- `scheduleLocal` is a call of `schedule` from a coroutine or a callback that the loop runs. -/
inductive Action (ι α : Type*) where
  | schedule (i : ι) (h : α)
  | scheduleLocal (i : ι) (h : α)
  | run (i : ι)
  | stop
  | advance (i : ι) (spurious : Bool)
  deriving DecidableEq

/-- The loop runs code of its users. -/
def Pc.userCode : Pc α → Bool
  | .resuming _ | .timers | .polling _ => true
  | _ => false

def step (s : State ι α) : Action ι α → Option (State ι α)
  | .schedule i h =>
    match s.pcs i with
    | .idle => some (s.goto i (.schedule h))
    | _ => none
  | .scheduleLocal i h =>
    if (s.pcs i).userCode = true ∧ s.threadId = some i then
      some { s with runQueue := s.runQueue ++ [h] }
    else none
  | .run i =>
    match s.pcs i, s.looping with
    | .idle, none =>
      some { s.goto i .head with running := true, threadId := some i, looping := some i }
    | _, _ => none
  | .stop => some { s with running := false }
  | .advance i spurious => advance s i spurious

def system (ι α : Type*) [DecidableEq ι] : System (State ι α) (Action ι α) where
  init s := s = initial
  step := step

/-- The thread is in no operation of the queue and stands before none of the two counting
steps. -/
def Pc.outside : Pc α → Bool
  | .pushing _ | .fetchAdd | .popping | .fetchSub => false
  | _ => true

/-- Everything an action can do to the queue, to the counter and to the threads. -/
inductive Moves (s : State ι α) : State ι α → Prop
  | still {u} (hq : u.queue = s.queue) (he : u.externalPending = s.externalPending)
      (hp : u.pcs = s.pcs) : Moves s u
  | goes {u i pc} (h0 : (s.pcs i).outside = true) (h1 : pc.outside = true)
      (hq : u.queue = s.queue) (he : u.externalPending = s.externalPending)
      (hp : u.pcs = Function.update s.pcs i pc) : Moves s u
  | callPush {i h q} (h0 : s.pcs i = .tryPush h) (hq : queueStep s (.callPush i h) = some q) :
      Moves s { s.goto i (.pushing h) with queue := q }
  | pushTurn {i h b q} (h0 : s.pcs i = .pushing h) (hq : queueStep s (.advance i b) = some q) :
      Moves s { s with queue := q }
  | pushed {i h q} (h0 : s.pcs i = .pushing h) (hl : s.queue.threads i = .pushSucceeded)
      (hq : queueStep s (.ret i) = some q) : Moves s { s.goto i .fetchAdd with queue := q }
  | refused {i h item q} (h0 : s.pcs i = .pushing h)
      (hl : s.queue.threads i = .pushFailed item) (hq : queueStep s (.ret i) = some q) :
      Moves s { s.goto i (.tryPush h) with queue := q }
  | fetchAdd {i} (h0 : s.pcs i = .fetchAdd) :
      Moves s { s.goto i .wakeup with externalPending := (s.externalPending + 1) % 2^64 }
  | callPop {i q} (h0 : s.pcs i = .tryPop) (hq : queueStep s (.callPop i) = some q) :
      Moves s { s.goto i .popping with queue := q }
  | popTurn {i b q} (h0 : s.pcs i = .popping) (hq : queueStep s (.advance i b) = some q) :
      Moves s { s with queue := q }
  | popped {i pos h q} (h0 : s.pcs i = .popping)
      (hl : s.queue.threads i = .popSucceeded pos (some h)) (hq : queueStep s (.ret i) = some q) :
      Moves s { s.goto i .fetchSub with queue := q, runQueue := s.runQueue ++ [h] }
  | popEmpty {i q} (h0 : s.pcs i = .popping) (hl : s.queue.threads i = .popFailed)
      (hq : queueStep s (.ret i) = some q) : Moves s { s.goto i .swapping with queue := q }
  | fetchSub {i} (h0 : s.pcs i = .fetchSub) :
      Moves s { s.goto i .tryPop with
        externalPending := (s.externalPending + (2^64 - 1)) % 2^64 }

theorem moves_of_advance {s u : State ι α} {i : ι} {b : Bool} (h : advance s i b = some u) :
    Moves s u := by
  unfold advance at h
  split at h
  case h_1 => cases h
  case h_2 hc =>
    split_ifs at h
    · cases h; exact .goes (i := i) (by rw [hc]; rfl) rfl rfl rfl rfl
    · cases h; exact .goes (i := i) (by rw [hc]; rfl) rfl rfl rfl rfl
  case h_3 hc =>
    obtain ⟨q, hq, rfl⟩ := Option.map_eq_some_iff.mp h
    exact .callPush hc hq
  case h_4 hc =>
    split at h
    case h_1 hl =>
      obtain ⟨q, hq, rfl⟩ := Option.map_eq_some_iff.mp h
      exact .pushed hc hl hq
    case h_2 hl =>
      obtain ⟨q, hq, rfl⟩ := Option.map_eq_some_iff.mp h
      exact .refused hc hl hq
    case h_3 =>
      obtain ⟨q, hq, rfl⟩ := Option.map_eq_some_iff.mp h
      exact .pushTurn hc hq
  case h_5 hc => cases h; exact .fetchAdd hc
  case h_6 hc => cases h; exact .goes (i := i) (by rw [hc]; rfl) rfl rfl rfl rfl
  case h_7 hc =>
    split_ifs at h
    · cases h; exact .goes (i := i) (by rw [hc]; rfl) rfl rfl rfl rfl
    · cases h; exact .goes (i := i) (by rw [hc]; rfl) rfl rfl rfl rfl
  case h_8 hc =>
    obtain ⟨q, hq, rfl⟩ := Option.map_eq_some_iff.mp h
    exact .callPop hc hq
  case h_9 hc =>
    split at h
    case h_1 hl =>
      obtain ⟨q, hq, rfl⟩ := Option.map_eq_some_iff.mp h
      exact .popped hc hl hq
    case h_2 hl =>
      obtain ⟨q, hq, rfl⟩ := Option.map_eq_some_iff.mp h
      exact .popEmpty hc hl hq
    case h_3 =>
      obtain ⟨q, hq, rfl⟩ := Option.map_eq_some_iff.mp h
      exact .popTurn hc hq
  case h_10 hc => cases h; exact .fetchSub hc
  all_goals
    cases h
    exact .goes (i := i) (by simp [*, Pc.outside]) rfl rfl rfl rfl

theorem moves_of_step {s u : State ι α} {a : Action ι α} (h : step s a = some u) : Moves s u := by
  cases a with
  | schedule i item =>
    simp only [step] at h
    split at h
    case h_1 hc => cases h; exact .goes (i := i) (by rw [hc]; rfl) rfl rfl rfl rfl
    case h_2 => cases h
  | scheduleLocal i item =>
    simp only [step] at h
    split_ifs at h
    cases h
    exact .still rfl rfl rfl
  | run i =>
    simp only [step] at h
    split at h
    case h_1 hc _ => cases h; exact .goes (i := i) (by rw [hc]; rfl) rfl rfl rfl rfl
    case h_2 => cases h
  | stop => cases h; exact .still rfl rfl rfl
  | advance i b => exact moves_of_advance h

end Jellybean.Reactor.ExternalPending
