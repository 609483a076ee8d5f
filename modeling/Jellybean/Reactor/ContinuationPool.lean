import Jellybean.Framework.System
import Mathlib.Tactic

namespace Jellybean.Reactor

namespace ContinuationPool

def numThreads : Nat := 4

instance : NeZero numThreads := ⟨by decide⟩

/-- How a future was resolved. -/
inductive Resolution where
  | value
  | exception
  deriving DecidableEq

/-- The lambda that `FutureAwaitable::await_suspend` posts, by the future it waits for. -/
structure Continuation where
  future : Nat
  deriving DecidableEq

/-- A `std::function<void()>`, which may be empty. -/
abbrev Task := Option Continuation

/-- An entry of `queue_`, with its place among all calls of `post`. -/
structure Posted where
  id : Nat
  task : Task
  deriving DecidableEq

/-- What a worker does next. `holding` stands between the mutex section and `task()`. -/
inductive WorkerPc where
  | atLoop
  | waiting
  | holding (p : Posted)
  | running (p : Posted)
  | returned
  deriving DecidableEq

/-- Where the destructor is. -/
inductive DestructorPc where
  | notCalled
  | notifyAll
  | joining (i : Nat)
  | finished
  deriving DecidableEq

/-- The pool, the futures its tasks wait for, and below them what only records the run: all posted
tasks, the places of those taken off the queue, of those called and of those that returned, which
is after `r->schedule(h)`, and how many were posted when `stopped_` was set. `notifying` counts the
calls of `post` that stand before `notify_one`. -/
structure State where
  queue : List Posted
  stopped : Bool
  workers : Fin numThreads → WorkerPc
  destructor : DestructorPc
  notifying : Nat
  futures : Nat → Option Resolution
  terminated : Bool
  posted : List Task
  taken : List Nat
  started : List Nat
  finished : List Nat
  postedBeforeStop : Nat

def initial : State where
  queue := []
  stopped := false
  workers := fun _ => .atLoop
  destructor := .notCalled
  notifying := 0
  futures := fun _ => none
  terminated := false
  posted := []
  taken := []
  started := []
  finished := []
  postedBeforeStop := 0

def setWorker (s : State) (w : Fin numThreads) (pc : WorkerPc) : State :=
  { s with workers := Function.update s.workers w pc }

/-- The mutex section of `post`. -/
def post (s : State) (task : Task) : State :=
  { s with
    queue := s.queue ++ [⟨s.posted.length, task⟩]
    posted := s.posted ++ [task]
    notifying := s.notifying + 1 }

/-- The mutex section of `worker_loop` from the evaluation of the predicate on. -/
def workerSection (s : State) (w : Fin numThreads) : State :=
  match s.queue with
  | [] => setWorker s w (if s.stopped then .returned else .waiting)
  | p :: rest =>
    { s with
      queue := rest
      workers := Function.update s.workers w (.holding p)
      taken := s.taken ++ [p.id] }

/-- `if (task) task();` up to the wait for the future. -/
def call (s : State) (w : Fin numThreads) (p : Posted) : State :=
  match p.task with
  | none => setWorker s w .atLoop
  | some _ =>
    { s with
      workers := Function.update s.workers w (.running p)
      started := s.started ++ [p.id] }

/-- `result = f->get(); r->schedule(h);`. What `get` throws leaves `worker_loop`. -/
def complete (s : State) (w : Fin numThreads) (p : Posted) : Resolution → State
  | .value =>
    { s with
      workers := Function.update s.workers w .atLoop
      finished := s.finished ++ [p.id] }
  | .exception => { s with terminated := true }

inductive Action where
  | post (task : Task)
  | notifyOne (wake : Option (Fin numThreads))
  | spuriousWake (w : Fin numThreads)
  | lock (w : Fin numThreads)
  | call (w : Fin numThreads)
  | complete (w : Fin numThreads)
  | resolve (future : Nat) (r : Resolution)
  | stop
  | notifyAll
  | join
  deriving DecidableEq

/-- One step of a caller of `post`, of a worker, of the destructor or of whoever keeps a promise.
`notify_one` reaches a waiting worker if there is one. -/
def step (s : State) (a : Action) : Option State :=
  if s.terminated then none else
  match a with
  | .post task => if s.destructor = .finished then none else some (post s task)
  | .notifyOne wake =>
    if s.notifying = 0 then none else
    match wake with
    | some w =>
      if s.workers w = .waiting then
        some { setWorker s w .atLoop with notifying := s.notifying - 1 }
      else none
    | none =>
      if ∀ w, s.workers w ≠ .waiting then some { s with notifying := s.notifying - 1 } else none
  | .spuriousWake w => if s.workers w = .waiting then some (setWorker s w .atLoop) else none
  | .lock w => if s.workers w = .atLoop then some (workerSection s w) else none
  | .call w =>
    match s.workers w with
    | .holding p => some (call s w p)
    | _ => none
  | .complete w =>
    match s.workers w with
    | .running p => (p.task.bind fun c => s.futures c.future).map (complete s w p)
    | _ => none
  | .resolve future r =>
    if s.futures future = none then
      some { s with futures := Function.update s.futures future (some r) }
    else none
  | .stop =>
    if s.destructor = .notCalled then
      some { s with
        stopped := true
        destructor := .notifyAll
        postedBeforeStop := s.posted.length }
    else none
  | .notifyAll =>
    if s.destructor = .notifyAll then
      some { s with
        workers := fun w => if s.workers w = .waiting then .atLoop else s.workers w
        destructor := .joining 0 }
    else none
  | .join =>
    match s.destructor with
    | .joining i =>
      if h : i < numThreads then
        if s.workers ⟨i, h⟩ = .returned then some { s with destructor := .joining (i + 1) }
        else none
      else some { s with destructor := .finished }
    | _ => none

def system : System State Action := ⟨fun s => s = initial, step⟩

/-- What a step can do, with the guards under which it does it. -/
inductive Moves (s : State) : Action → State → Prop
  | post (task : Task) : s.destructor ≠ .finished → Moves s (.post task) (post s task)
  | notifyOne (w : Fin numThreads) : 0 < s.notifying → s.workers w = .waiting →
      Moves s (.notifyOne (some w)) { setWorker s w .atLoop with notifying := s.notifying - 1 }
  | notifyNone : 0 < s.notifying → (∀ w, s.workers w ≠ .waiting) →
      Moves s (.notifyOne none) { s with notifying := s.notifying - 1 }
  | spuriousWake (w : Fin numThreads) : s.workers w = .waiting →
      Moves s (.spuriousWake w) (setWorker s w .atLoop)
  | wait (w : Fin numThreads) : s.workers w = .atLoop → s.queue = [] → s.stopped = false →
      Moves s (.lock w) (setWorker s w .waiting)
  | leave (w : Fin numThreads) : s.workers w = .atLoop → s.queue = [] → s.stopped = true →
      Moves s (.lock w) (setWorker s w .returned)
  | take (w : Fin numThreads) (p : Posted) (rest : List Posted) : s.workers w = .atLoop →
      s.queue = p :: rest →
      Moves s (.lock w) { s with
        queue := rest
        workers := Function.update s.workers w (.holding p)
        taken := s.taken ++ [p.id] }
  | skip (w : Fin numThreads) (p : Posted) : s.workers w = .holding p → p.task = none →
      Moves s (.call w) (setWorker s w .atLoop)
  | call (w : Fin numThreads) (p : Posted) (c : Continuation) : s.workers w = .holding p →
      p.task = some c →
      Moves s (.call w) { s with
        workers := Function.update s.workers w (.running p)
        started := s.started ++ [p.id] }
  | complete (w : Fin numThreads) (p : Posted) (c : Continuation) : s.workers w = .running p →
      p.task = some c → s.futures c.future = some .value →
      Moves s (.complete w) { s with
        workers := Function.update s.workers w .atLoop
        finished := s.finished ++ [p.id] }
  | terminate (w : Fin numThreads) (p : Posted) (c : Continuation) : s.workers w = .running p →
      p.task = some c → s.futures c.future = some .exception →
      Moves s (.complete w) { s with terminated := true }
  | resolve (future : Nat) (r : Resolution) : s.futures future = none →
      Moves s (.resolve future r) { s with futures := Function.update s.futures future (some r) }
  | stop : s.destructor = .notCalled →
      Moves s .stop { s with
        stopped := true
        destructor := .notifyAll
        postedBeforeStop := s.posted.length }
  | notifyAll : s.destructor = .notifyAll →
      Moves s .notifyAll { s with
        workers := fun w => if s.workers w = .waiting then .atLoop else s.workers w
        destructor := .joining 0 }
  | joinOne (i : Nat) (h : i < numThreads) : s.destructor = .joining i →
      s.workers ⟨i, h⟩ = .returned → Moves s .join { s with destructor := .joining (i + 1) }
  | joinLast (i : Nat) : s.destructor = .joining i → numThreads ≤ i →
      Moves s .join { s with destructor := .finished }

theorem step_moves {s t : State} {a : Action} (h : step s a = some t) :
    s.terminated = false ∧ Moves s a t := by
  unfold step at h
  by_cases hterm : s.terminated
  · simp [hterm] at h
  rw [if_neg hterm] at h
  refine ⟨by simpa using hterm, ?_⟩
  cases a with
  | post task =>
    obtain ⟨hd, h⟩ := Option.ite_none_left_eq_some.mp h
    cases h
    exact .post task hd
  | notifyOne wake =>
    by_cases hn : s.notifying = 0
    · simp [hn] at h
    simp only [hn, if_false] at h
    have hpos := Nat.pos_of_ne_zero hn
    cases wake with
    | some w =>
      simp only [Option.ite_none_right_eq_some] at h
      obtain ⟨hw, h⟩ := h
      cases h
      exact .notifyOne w hpos hw
    | none =>
      simp only [Option.ite_none_right_eq_some] at h
      obtain ⟨hw, h⟩ := h
      cases h
      exact .notifyNone hpos hw
  | spuriousWake w =>
    obtain ⟨hw, h⟩ := Option.ite_none_right_eq_some.mp h
    cases h
    exact .spuriousWake w hw
  | lock w =>
    obtain ⟨hw, h⟩ := Option.ite_none_right_eq_some.mp h
    cases h
    unfold workerSection
    cases hq : s.queue with
    | nil =>
      cases hs : s.stopped with
      | false => exact .wait w hw hq hs
      | true => exact .leave w hw hq hs
    | cons p rest => exact .take w p rest hw hq
  | call w =>
    cases hw : s.workers w with
    | holding p =>
      simp only [hw, Option.some.injEq] at h
      subst h
      unfold call
      cases hp : p.task with
      | none => exact .skip w p hw hp
      | some c => exact .call w p c hw hp
    | _ => simp [hw] at h
  | complete w =>
    cases hw : s.workers w with
    | running p =>
      simp only [hw, Option.map_eq_some_iff, Option.bind_eq_some_iff] at h
      obtain ⟨r, ⟨c, hc, hr⟩, h⟩ := h
      subst h
      cases r with
      | value => exact .complete w p c hw hc hr
      | exception => exact .terminate w p c hw hc hr
    | _ => simp [hw] at h
  | resolve future r =>
    obtain ⟨hf, h⟩ := Option.ite_none_right_eq_some.mp h
    cases h
    exact .resolve future r hf
  | stop =>
    obtain ⟨hd, h⟩ := Option.ite_none_right_eq_some.mp h
    cases h
    exact .stop hd
  | notifyAll =>
    obtain ⟨hd, h⟩ := Option.ite_none_right_eq_some.mp h
    cases h
    exact .notifyAll hd
  | join =>
    cases hd : s.destructor with
    | joining i =>
      simp only [hd] at h
      by_cases hi : i < numThreads
      · rw [dif_pos hi] at h
        obtain ⟨hw, h⟩ := Option.ite_none_right_eq_some.mp h
        cases h
        exact .joinOne i hi hd hw
      · rw [dif_neg hi] at h
        cases h
        exact .joinLast i hd (Nat.le_of_not_lt hi)
    | _ => simp [hd] at h

theorem Moves.step_eq {s t : State} {a : Action} (h : Moves s a t) (hterm : s.terminated = false) :
    step s a = some t := by
  cases h with
  | post task hd => simp [step, hterm, hd]
  | notifyOne w hn hw => simp [step, hterm, hn.ne', hw]
  | notifyNone hn hw => simp [step, hterm, hn.ne', hw]
  | spuriousWake w hw => simp [step, hterm, hw]
  | wait w hw hq hs => simp [step, hterm, hw, workerSection, hq, hs]
  | leave w hw hq hs => simp [step, hterm, hw, workerSection, hq, hs]
  | take w p rest hw hq => simp [step, hterm, hw, workerSection, hq]
  | skip w p hw hp => simp [step, hterm, hw, ContinuationPool.call, hp]
  | call w p c hw hp => simp [step, hterm, hw, ContinuationPool.call, hp]
  | complete w p c hw hp hr => simp [step, hterm, hw, hp, hr, ContinuationPool.complete]
  | terminate w p c hw hp hr => simp [step, hterm, hw, hp, hr, ContinuationPool.complete]
  | resolve future r hf => simp [step, hterm, hf]
  | stop hd => simp [step, hterm, hd]
  | notifyAll hd => simp [step, hterm, hd]
  | joinOne i h hd hw => simp [step, hterm, hd, h, hw]
  | joinLast i hd h => simp [step, hterm, hd, h]

end ContinuationPool

end Jellybean.Reactor
