import Jellybean.Concurrency.MpmcQueuePhases
import Jellybean.Inference.TorchBackend

namespace Jellybean.Model

open Concurrency Inference

namespace ModelExecutor

variable {α : Type*}

/-- The fields of the constructor and of `meta_->config` that the executor uses. -/
structure Config where
  numWorkersArg : Nat
  maxBatchSize : Nat
  maxBatchDelayUs : Int

def Config.numWorkers (c : Config) : Nat := if c.numWorkersArg > 0 then c.numWorkersArg else 1

/-- Threads outside the executor, and worker threads in the order they were created. -/
inductive Tid where
  | caller (i : Nat)
  | worker (w : Nat)
  deriving DecidableEq

/-- A `Task`; its promise is named by the position of its call of `infer_async`. -/
structure Task (α : Type*) where
  promise : Nat
  req : InferenceRequest α
  enqueueTime : Nat
  routingNs : Nat

/-- What a thread outside does next in `infer_async`, `start` or `stop`. `pushing` lasts from the
call of `try_push` to the step after it, `notify` stands before `notify_one`. -/
inductive CallerPc (α : Type*) where
  | idle
  | checkReady (t : Task α)
  | checkStopped (t : Task α) (deadline : Nat)
  | pushing (t : Task α) (deadline : Nat)
  | checkDeadline (t : Task α) (deadline : Nat)
  | notify (t : Task α)
  | startCas
  | spawning (i : Nat)
  | stopCas
  | stopLock
  | stopUnlock
  | stopNotifyAll
  | joining (i : Nat)

/-- What a worker does next in `worker_loop`. From `evalSize` to `goSleep` and in `unlock` it
holds `cv_mu_`; `goSleep` has found the predicate false and stands before the wait. -/
inductive WorkerPc (α : Type*) where
  | unborn
  | loopHead
  | innerHead (batch : List (Task α)) (waits : List Nat) (firstTime : Nat)
  | popping (batch : List (Task α)) (waits : List Nat) (firstTime : Nat)
  | fetchSub (batch : List (Task α)) (waits : List Nat) (firstTime : Nat)
  | lock
  | evalSize
  | evalStopped
  | goSleep
  | asleep
  | reacquire
  | unlock
  | checkBackend (batch : List (Task α)) (waits : List Nat)
  | inferring (batch : List (Task α)) (waits : List Nat)
  | answering (batch : List (Task α)) (waits : List Nat) (resps : List InferenceResponse)
      (executionNs i : Nat)
  | unavailable (batch : List (Task α)) (i : Nat)
  | exited

def WorkerPc.isAsleep : WorkerPc α → Bool
  | .asleep => true
  | _ => false

def WorkerPc.isExited : WorkerPc α → Bool
  | .exited => true
  | _ => false

/-- A successful pop, with the time `t_pop`. -/
structure Taken where
  worker : Nat
  promise : Nat
  time : Nat
  deriving DecidableEq

/-- A call of `infer_batch` and what it returned. -/
structure BatchCall (α : Type*) where
  tasks : List (Task α)
  resps : List InferenceResponse
  executionNs : Nat

/-- Shared memory and the threads, and below them what only records the run: the tasks of all
calls of `infer_async`, the futures it returned, the pops, the calls of the backend, the number
of workers before the latest start, and whether `stop` returned since. A promise is the list of
the values it was given. Ticket counters do not wrap. -/
structure State (α : Type*) where
  queue : MpmcQueue.State Tid (Task α)
  queueSize : Int
  stopped : Bool
  ready : Bool
  mutex : Option Tid
  callers : Nat → CallerPc α
  workers : Nat → WorkerPc α
  spawned : Nat
  workerList : List Nat
  clock : Nat
  promises : Nat → List InferenceResponse
  issued : List (Task α)
  returned : List Nat
  taken : List Taken
  batchCalls : List (BatchCall α)
  base : Nat
  stopReturned : Bool

def initial (ready : Bool) : State α where
  queue := MpmcQueue.initial
  queueSize := 0
  stopped := true
  ready := ready
  mutex := none
  callers := fun _ => .idle
  workers := fun _ => .unborn
  spawned := 0
  workerList := []
  clock := 0
  promises := fun _ => []
  issued := []
  returned := []
  taken := []
  batchCalls := []
  base := 0
  stopReturned := false

/-- `MpmcQueue<Task, 1024>`. -/
def capacity : MpmcQueue.Capacity := ⟨1024, by decide, by decide, by decide⟩

def queueStep (s : State α) (a : MpmcQueue.Action Tid (Task α)) :
    Option (MpmcQueue.State Tid (Task α)) :=
  MpmcQueue.step .ideal capacity s.queue a

def setCaller (s : State α) (i : Nat) (pc : CallerPc α) : State α :=
  { s with callers := Function.update s.callers i pc }

def setWorker (s : State α) (w : Nat) (pc : WorkerPc α) : State α :=
  { s with workers := Function.update s.workers w pc }

/-- `promise.set_value`. -/
def setValue (s : State α) (p : Nat) (v : InferenceResponse) : Nat → List InferenceResponse :=
  Function.update s.promises p (s.promises p ++ [v])

/-- `infer_async` sets the error itself and returns the future. -/
def reply (s : State α) (i : Nat) (t : Task α) (text : String) : State α :=
  { s with
    callers := Function.update s.callers i .idle
    promises := setValue s t.promise { error := text }
    returned := s.returned ++ [t.promise] }

/-- A notified or interrupted wait has to take the mutex again. -/
def wakeOne (s : State α) (w : Nat) : Nat → WorkerPc α := Function.update s.workers w .reacquire

def wakeAll (s : State α) : Nat → WorkerPc α :=
  fun w => if (s.workers w).isAsleep then .reacquire else s.workers w

/-- One step of a thread outside. `wake` is the sleeping worker that `notify_one` reaches, `none`
if there is none. -/
def callerStep (cfg : Config) (s : State α) (i : Nat) (spurious : Bool) (wake : Option Nat) :
    Option (State α) :=
  match s.callers i with
  | .idle => none
  | .checkReady t =>
    if s.ready then some (setCaller s i (.checkStopped t (s.clock + 50000000)))
    else some (reply s i t ("model not ready: " ++ t.req.modelId))
  | .checkStopped t deadline =>
    if s.stopped then some (reply s i t "executor stopped")
    else (queueStep s (.callPush (.caller i) t)).map fun q =>
      { s with queue := q, callers := Function.update s.callers i (.pushing t deadline) }
  | .pushing t deadline =>
    match s.queue.threads (.caller i) with
    | .pushSucceeded => (queueStep s (.ret (.caller i))).map fun q =>
        { s with
          queue := q
          queueSize := s.queueSize + 1
          callers := Function.update s.callers i (.notify t) }
    | .pushFailed item => (queueStep s (.ret (.caller i))).map fun q =>
        { s with queue := q, callers := Function.update s.callers i (.checkDeadline item deadline) }
    | _ => (queueStep s (.advance (.caller i) spurious)).map fun q => { s with queue := q }
  | .checkDeadline t deadline =>
    if s.clock > deadline then
      some (reply s i t ("queue full timeout for model: " ++ t.req.modelId))
    else some (setCaller s i (.checkStopped t deadline))
  | .notify t =>
    match wake with
    | some w =>
      if w < s.spawned ∧ (s.workers w).isAsleep then
        some { s with
          callers := Function.update s.callers i .idle
          workers := wakeOne s w
          returned := s.returned ++ [t.promise] }
      else none
    | none =>
      if ∀ w < s.spawned, ¬ (s.workers w).isAsleep then
        some { s with
          callers := Function.update s.callers i .idle
          returned := s.returned ++ [t.promise] }
      else none
  | .startCas =>
    if s.stopped then
      some { s with
        callers := Function.update s.callers i (.spawning 0)
        stopped := false
        base := s.spawned
        stopReturned := false }
    else some (setCaller s i .idle)
  | .spawning n =>
    if n < cfg.numWorkers then
      some { s with
        callers := Function.update s.callers i (.spawning (n + 1))
        workers := Function.update s.workers s.spawned .loopHead
        spawned := s.spawned + 1
        workerList := s.workerList ++ [s.spawned] }
    else some (setCaller s i .idle)
  | .stopCas =>
    if s.stopped then
      some { s with callers := Function.update s.callers i .idle, stopReturned := true }
    else some { s with callers := Function.update s.callers i .stopLock, stopped := true }
  | .stopLock =>
    if s.mutex = none then
      some { s with
        callers := Function.update s.callers i .stopUnlock
        mutex := some (.caller i) }
    else none
  | .stopUnlock =>
    some { s with callers := Function.update s.callers i .stopNotifyAll, mutex := none }
  | .stopNotifyAll =>
    some { s with callers := Function.update s.callers i (.joining 0), workers := wakeAll s }
  | .joining n =>
    match s.workerList[n]? with
    | some w => if (s.workers w).isExited then some (setCaller s i (.joining (n + 1))) else none
    | none =>
      some { s with
        callers := Function.update s.callers i .idle
        workerList := []
        stopReturned := true }

/-- `batch.empty()` after the inner loop. -/
def leaveInner (batch : List (Task α)) (waits : List Nat) : WorkerPc α :=
  if batch = [] then .lock else .checkBackend batch waits

/-- The response of the backend with the timings of its request. -/
def instrument (r : InferenceResponse) (routingNs queueWaitNs executionNs : Nat) :
    InferenceResponse :=
  { r with routingNs, queueWaitNs, executionNs }

/-- One step of worker `w`. -/
def workerStep (cfg : Config) (s : State α) (w : Nat) (spurious : Bool) : Option (State α) :=
  match s.workers w with
  | .unborn | .asleep | .inferring _ _ | .exited => none
  | .loopHead =>
    if s.stopped then some (setWorker s w .exited)
    else some (setWorker s w (.innerHead [] [] s.clock))
  | .innerHead batch waits firstTime =>
    if batch.length < cfg.maxBatchSize ∧ s.stopped = false then
      (queueStep s (.callPop (.worker w))).map fun q =>
        { s with queue := q, workers := Function.update s.workers w (.popping batch waits firstTime) }
    else some (setWorker s w (leaveInner batch waits))
  | .popping batch waits firstTime =>
    match s.queue.threads (.worker w) with
    | .popSucceeded _ (some t) => (queueStep s (.ret (.worker w))).map fun q =>
        { s with
          queue := q
          workers := Function.update s.workers w
            (.fetchSub (batch ++ [t]) (waits ++ [s.clock - t.enqueueTime]) firstTime)
          taken := s.taken ++ [⟨w, t.promise, s.clock⟩] }
    | .popFailed => (queueStep s (.ret (.worker w))).map fun q =>
        { s with
          queue := q
          workers := Function.update s.workers w
            (if batch = [] ∨ cfg.maxBatchDelayUs ≤ ((s.clock - firstTime) / 1000 : Nat) then
              leaveInner batch waits
            else .innerHead batch waits firstTime) }
    | _ => (queueStep s (.advance (.worker w) spurious)).map fun q => { s with queue := q }
  | .fetchSub batch waits firstTime =>
    some { s with
      workers := Function.update s.workers w (.innerHead batch waits firstTime)
      queueSize := s.queueSize - 1 }
  | .lock | .reacquire =>
    if s.mutex = none then
      some { s with workers := Function.update s.workers w .evalSize, mutex := some (.worker w) }
    else none
  | .evalSize =>
    if s.queueSize > 0 then some (setWorker s w .unlock) else some (setWorker s w .evalStopped)
  | .evalStopped =>
    if s.stopped then some (setWorker s w .unlock) else some (setWorker s w .goSleep)
  | .goSleep => some { s with workers := Function.update s.workers w .asleep, mutex := none }
  | .unlock => some { s with workers := Function.update s.workers w .loopHead, mutex := none }
  | .checkBackend batch waits =>
    if s.ready then some (setWorker s w (.inferring batch waits))
    else some (setWorker s w (.unavailable batch 0))
  | .answering batch waits resps executionNs i =>
    match batch[i]?, waits[i]?, resps[i]? with
    | some t, some wait, some r =>
      some { s with
        workers := Function.update s.workers w (.answering batch waits resps executionNs (i + 1))
        promises := setValue s t.promise (instrument r t.routingNs wait executionNs) }
    | _, _, _ => if batch.length ≤ i then some (setWorker s w .loopHead) else none
  | .unavailable batch i =>
    match batch[i]? with
    | some t =>
      some { s with
        workers := Function.update s.workers w (.unavailable batch (i + 1))
        promises := setValue s t.promise { error := "backend unavailable" } }
    | none => some (setWorker s w .loopHead)

inductive Action (α : Type*) where
  | inferAsync (i : Nat) (req : InferenceRequest α) (routingNs : Nat)
  | callStart (i : Nat)
  | callStop (i : Nat)
  | caller (i : Nat) (spurious : Bool) (wake : Option Nat)
  | worker (w : Nat) (spurious : Bool)
  | inferBatch (w : Nat) (resps : List InferenceResponse) (executionNs : Nat)
  | spuriousWake (w : Nat)
  | tick (n : Nat)
  | setReady (b : Bool)

/-- `infer_batch` returns one response per request; the model may become ready or stop being so
at any moment. -/
def step (cfg : Config) (s : State α) : Action α → Option (State α)
  | .inferAsync i req routingNs =>
    match s.callers i with
    | .idle =>
      let t : Task α := ⟨s.issued.length, req, s.clock, routingNs⟩
      some { s with
        callers := Function.update s.callers i (.checkReady t)
        issued := s.issued ++ [t] }
    | _ => none
  | .callStart i =>
    match s.callers i with
    | .idle => some (setCaller s i .startCas)
    | _ => none
  | .callStop i =>
    match s.callers i with
    | .idle => some (setCaller s i .stopCas)
    | _ => none
  | .caller i spurious wake => callerStep cfg s i spurious wake
  | .worker w spurious => workerStep cfg s w spurious
  | .inferBatch w resps executionNs =>
    match s.workers w with
    | .inferring batch waits =>
      if resps.length = batch.length then
        some { s with
          workers := Function.update s.workers w (.answering batch waits resps executionNs 0)
          batchCalls := s.batchCalls ++ [⟨batch, resps, executionNs⟩] }
      else none
    | _ => none
  | .spuriousWake w =>
    if (s.workers w).isAsleep then some { s with workers := wakeOne s w } else none
  | .tick n => some { s with clock := s.clock + n }
  | .setReady b => some { s with ready := b }

def system (cfg : Config) : System (State α) (Action α) where
  init s := ∃ ready, s = initial ready
  step := step cfg

/-- Everything one step of thread `i` outside can do. -/
inductive CallerMoves (cfg : Config) (s : State α) (i : Nat) : State α → Prop
  | ready {t} (h : s.callers i = .checkReady t) :
      CallerMoves cfg s i (setCaller s i (.checkStopped t (s.clock + 50000000)))
  | notReady {t} (h : s.callers i = .checkReady t) :
      CallerMoves cfg s i (reply s i t ("model not ready: " ++ t.req.modelId))
  | executorStopped {t deadline} (h : s.callers i = .checkStopped t deadline) :
      CallerMoves cfg s i (reply s i t "executor stopped")
  | timeout {t deadline} (h : s.callers i = .checkDeadline t deadline) :
      CallerMoves cfg s i (reply s i t ("queue full timeout for model: " ++ t.req.modelId))
  | beginPush {t deadline q} (h : s.callers i = .checkStopped t deadline) (hs : s.stopped = false)
      (hq : queueStep s (.callPush (.caller i) t) = some q) :
      CallerMoves cfg s i
        { s with queue := q, callers := Function.update s.callers i (.pushing t deadline) }
  | pushed {t deadline q} (h : s.callers i = .pushing t deadline)
      (hl : s.queue.threads (.caller i) = .pushSucceeded)
      (hq : queueStep s (.ret (.caller i)) = some q) :
      CallerMoves cfg s i
        { s with
          queue := q
          queueSize := s.queueSize + 1
          callers := Function.update s.callers i (.notify t) }
  | refused {t deadline item q} (h : s.callers i = .pushing t deadline)
      (hl : s.queue.threads (.caller i) = .pushFailed item)
      (hq : queueStep s (.ret (.caller i)) = some q) :
      CallerMoves cfg s i
        { s with queue := q, callers := Function.update s.callers i (.checkDeadline item deadline) }
  | pushStep {t deadline spurious q} (h : s.callers i = .pushing t deadline)
      (hq : queueStep s (.advance (.caller i) spurious) = some q) :
      CallerMoves cfg s i { s with queue := q }
  | retry {t deadline} (h : s.callers i = .checkDeadline t deadline) :
      CallerMoves cfg s i (setCaller s i (.checkStopped t deadline))
  | notifyOne {t w} (h : s.callers i = .notify t) (hw : w < s.spawned)
      (ha : (s.workers w).isAsleep = true) :
      CallerMoves cfg s i
        { s with
          callers := Function.update s.callers i .idle
          workers := wakeOne s w
          returned := s.returned ++ [t.promise] }
  | notifyNone {t} (h : s.callers i = .notify t)
      (ha : ∀ w < s.spawned, ¬ (s.workers w).isAsleep = true) :
      CallerMoves cfg s i
        { s with
          callers := Function.update s.callers i .idle
          returned := s.returned ++ [t.promise] }
  | started (h : s.callers i = .startCas) (hs : s.stopped = true) :
      CallerMoves cfg s i
        { s with
          callers := Function.update s.callers i (.spawning 0)
          stopped := false
          base := s.spawned
          stopReturned := false }
  | startRefused (h : s.callers i = .startCas) : CallerMoves cfg s i (setCaller s i .idle)
  | spawn {n} (h : s.callers i = .spawning n) (hn : n < cfg.numWorkers) :
      CallerMoves cfg s i
        { s with
          callers := Function.update s.callers i (.spawning (n + 1))
          workers := Function.update s.workers s.spawned .loopHead
          spawned := s.spawned + 1
          workerList := s.workerList ++ [s.spawned] }
  | spawnedAll {n} (h : s.callers i = .spawning n) (hn : cfg.numWorkers ≤ n) :
      CallerMoves cfg s i (setCaller s i .idle)
  | stopRefused (h : s.callers i = .stopCas) (hs : s.stopped = true) :
      CallerMoves cfg s i
        { s with callers := Function.update s.callers i .idle, stopReturned := true }
  | stopping (h : s.callers i = .stopCas) (hs : s.stopped = false) :
      CallerMoves cfg s i
        { s with callers := Function.update s.callers i .stopLock, stopped := true }
  | stopLocked (h : s.callers i = .stopLock) (hm : s.mutex = none) :
      CallerMoves cfg s i
        { s with
          callers := Function.update s.callers i .stopUnlock
          mutex := some (.caller i) }
  | stopUnlocked (h : s.callers i = .stopUnlock) :
      CallerMoves cfg s i
        { s with callers := Function.update s.callers i .stopNotifyAll, mutex := none }
  | notifyAll (h : s.callers i = .stopNotifyAll) :
      CallerMoves cfg s i
        { s with callers := Function.update s.callers i (.joining 0), workers := wakeAll s }
  | joined {n w} (h : s.callers i = .joining n) (hw : s.workerList[n]? = some w)
      (he : (s.workers w).isExited = true) :
      CallerMoves cfg s i (setCaller s i (.joining (n + 1)))
  | stopDone {n} (h : s.callers i = .joining n) (hn : s.workerList[n]? = none) :
      CallerMoves cfg s i
        { s with
          callers := Function.update s.callers i .idle
          workerList := []
          stopReturned := true }

theorem callerMoves_of_callerStep {cfg : Config} {s u : State α} {i : Nat} {b : Bool}
    {wake : Option Nat} (h : callerStep cfg s i b wake = some u) : CallerMoves cfg s i u := by
  unfold callerStep at h
  split at h
  case h_1 => cases h
  case h_2 t hc =>
    split_ifs at h
    · cases h; exact .ready hc
    · cases h; exact .notReady hc
  case h_3 t deadline hc =>
    split_ifs at h with hs
    · cases h; exact .executorStopped hc
    · obtain ⟨q, hq, rfl⟩ := Option.map_eq_some_iff.mp h
      exact .beginPush hc (by simpa using hs) hq
  case h_4 t deadline hc =>
    split at h
    case h_1 hl =>
      obtain ⟨q, hq, rfl⟩ := Option.map_eq_some_iff.mp h
      exact .pushed hc hl hq
    case h_2 item hl =>
      obtain ⟨q, hq, rfl⟩ := Option.map_eq_some_iff.mp h
      exact .refused hc hl hq
    case h_3 =>
      obtain ⟨q, hq, rfl⟩ := Option.map_eq_some_iff.mp h
      exact .pushStep hc hq
  case h_5 t deadline hc =>
    split_ifs at h
    · cases h; exact .timeout hc
    · cases h; exact .retry hc
  case h_6 t hc =>
    split at h
    · split_ifs at h with hw
      cases h
      exact .notifyOne hc hw.1 hw.2
    · split_ifs at h with hw
      cases h
      exact .notifyNone hc hw
  case h_7 hc =>
    split_ifs at h with hs
    · cases h; exact .started hc hs
    · cases h; exact .startRefused hc
  case h_8 n hc =>
    split_ifs at h with hn
    · cases h; exact .spawn hc hn
    · cases h; exact .spawnedAll hc (by omega)
  case h_9 hc =>
    split_ifs at h with hs
    · cases h; exact .stopRefused hc hs
    · cases h; exact .stopping hc (by simpa using hs)
  case h_10 hc =>
    split_ifs at h with hm
    cases h
    exact .stopLocked hc hm
  case h_11 hc => cases h; exact .stopUnlocked hc
  case h_12 hc => cases h; exact .notifyAll hc
  case h_13 n hc =>
    split at h
    case h_1 w hw =>
      split_ifs at h with he
      cases h
      exact .joined hc hw he
    case h_2 hn => cases h; exact .stopDone hc hn

/-- Everything one step of worker `w` can do. -/
inductive WorkerMoves (cfg : Config) (s : State α) (w : Nat) : State α → Prop
  | exit (h : s.workers w = .loopHead) (hs : s.stopped = true) :
      WorkerMoves cfg s w (setWorker s w .exited)
  | enter (h : s.workers w = .loopHead) :
      WorkerMoves cfg s w (setWorker s w (.innerHead [] [] s.clock))
  | beginPop {batch waits first q} (h : s.workers w = .innerHead batch waits first)
      (hq : queueStep s (.callPop (.worker w)) = some q) :
      WorkerMoves cfg s w
        { s with queue := q, workers := Function.update s.workers w (.popping batch waits first) }
  | leave {batch waits first} (h : s.workers w = .innerHead batch waits first) :
      WorkerMoves cfg s w (setWorker s w (leaveInner batch waits))
  | popped {batch waits first pos t q} (h : s.workers w = .popping batch waits first)
      (hl : s.queue.threads (.worker w) = .popSucceeded pos (some t))
      (hq : queueStep s (.ret (.worker w)) = some q) :
      WorkerMoves cfg s w
        { s with
          queue := q
          workers := Function.update s.workers w
            (.fetchSub (batch ++ [t]) (waits ++ [s.clock - t.enqueueTime]) first)
          taken := s.taken ++ [⟨w, t.promise, s.clock⟩] }
  | popFailed {batch waits first pc q} (h : s.workers w = .popping batch waits first)
      (hl : s.queue.threads (.worker w) = .popFailed)
      (hq : queueStep s (.ret (.worker w)) = some q)
      (hpc : pc = leaveInner batch waits ∨ pc = .innerHead batch waits first) :
      WorkerMoves cfg s w { s with queue := q, workers := Function.update s.workers w pc }
  | popStep {batch waits first spurious q} (h : s.workers w = .popping batch waits first)
      (hq : queueStep s (.advance (.worker w) spurious) = some q) :
      WorkerMoves cfg s w { s with queue := q }
  | fetchSub {batch waits first} (h : s.workers w = .fetchSub batch waits first) :
      WorkerMoves cfg s w
        { s with
          workers := Function.update s.workers w (.innerHead batch waits first)
          queueSize := s.queueSize - 1 }
  | locked (h : s.workers w = .lock ∨ s.workers w = .reacquire) (hm : s.mutex = none) :
      WorkerMoves cfg s w
        { s with workers := Function.update s.workers w .evalSize, mutex := some (.worker w) }
  | sizePositive (h : s.workers w = .evalSize) : WorkerMoves cfg s w (setWorker s w .unlock)
  | sizeZero (h : s.workers w = .evalSize) (hz : s.queueSize ≤ 0) :
      WorkerMoves cfg s w (setWorker s w .evalStopped)
  | sawStopped (h : s.workers w = .evalStopped) : WorkerMoves cfg s w (setWorker s w .unlock)
  | predicateFalse (h : s.workers w = .evalStopped) :
      WorkerMoves cfg s w (setWorker s w .goSleep)
  | sleep (h : s.workers w = .goSleep) :
      WorkerMoves cfg s w
        { s with workers := Function.update s.workers w .asleep, mutex := none }
  | unlocked (h : s.workers w = .unlock) :
      WorkerMoves cfg s w
        { s with workers := Function.update s.workers w .loopHead, mutex := none }
  | available {batch waits} (h : s.workers w = .checkBackend batch waits) :
      WorkerMoves cfg s w (setWorker s w (.inferring batch waits))
  | gone {batch waits} (h : s.workers w = .checkBackend batch waits) :
      WorkerMoves cfg s w (setWorker s w (.unavailable batch 0))
  | answer {batch waits resps executionNs i t wait r}
      (h : s.workers w = .answering batch waits resps executionNs i) (ht : batch[i]? = some t)
      (hw : waits[i]? = some wait) (hr : resps[i]? = some r) :
      WorkerMoves cfg s w
        { s with
          workers := Function.update s.workers w (.answering batch waits resps executionNs (i + 1))
          promises := setValue s t.promise (instrument r t.routingNs wait executionNs) }
  | answered {batch waits resps executionNs i}
      (h : s.workers w = .answering batch waits resps executionNs i) (hi : batch.length ≤ i) :
      WorkerMoves cfg s w (setWorker s w .loopHead)
  | refuse {batch i t} (h : s.workers w = .unavailable batch i) (ht : batch[i]? = some t) :
      WorkerMoves cfg s w
        { s with
          workers := Function.update s.workers w (.unavailable batch (i + 1))
          promises := setValue s t.promise { error := "backend unavailable" } }
  | refusedAll {batch i} (h : s.workers w = .unavailable batch i) (hi : batch.length ≤ i) :
      WorkerMoves cfg s w (setWorker s w .loopHead)

theorem workerMoves_of_workerStep {cfg : Config} {s u : State α} {w : Nat} {b : Bool}
    (h : workerStep cfg s w b = some u) : WorkerMoves cfg s w u := by
  unfold workerStep at h
  split at h
  case h_5 hc =>
    split_ifs at h with hs
    · cases h; exact .exit hc hs
    · cases h; exact .enter hc
  case h_6 batch waits first hc =>
    split_ifs at h
    · obtain ⟨q, hq, rfl⟩ := Option.map_eq_some_iff.mp h
      exact .beginPop hc hq
    · cases h; exact .leave hc
  case h_7 batch waits first hc =>
    split at h
    case h_1 pos t hl =>
      obtain ⟨q, hq, rfl⟩ := Option.map_eq_some_iff.mp h
      exact .popped hc hl hq
    case h_2 hl =>
      obtain ⟨q, hq, rfl⟩ := Option.map_eq_some_iff.mp h
      refine .popFailed hc hl hq ?_
      split_ifs
      · exact .inl rfl
      · exact .inr rfl
    case h_3 =>
      obtain ⟨q, hq, rfl⟩ := Option.map_eq_some_iff.mp h
      exact .popStep hc hq
  case h_8 batch waits first hc => cases h; exact .fetchSub hc
  case h_9 hc =>
    split_ifs at h with hm
    cases h
    exact .locked (.inl hc) hm
  case h_10 hc =>
    split_ifs at h with hm
    cases h
    exact .locked (.inr hc) hm
  case h_11 hc =>
    split_ifs at h with hq
    · cases h; exact .sizePositive hc
    · cases h; exact .sizeZero hc (by omega)
  case h_12 hc =>
    split_ifs at h
    · cases h; exact .sawStopped hc
    · cases h; exact .predicateFalse hc
  case h_13 hc => cases h; exact .sleep hc
  case h_14 hc => cases h; exact .unlocked hc
  case h_15 batch waits hc =>
    split_ifs at h
    · cases h; exact .available hc
    · cases h; exact .gone hc
  case h_16 batch waits resps e i hc =>
    split at h
    case h_1 t wait r ht hw hr => cases h; exact .answer hc ht hw hr
    case h_2 =>
      split_ifs at h with hi
      cases h
      exact .answered hc hi
  case h_17 batch i hc =>
    split at h
    case h_1 t ht => cases h; exact .refuse hc ht
    case h_2 hn => cases h; exact .refusedAll hc (List.getElem?_eq_none_iff.mp hn)
  all_goals cases h

/-- Everything one action can do. -/
inductive Moves (cfg : Config) (s : State α) : Action α → State α → Prop
  | inferAsync {i} (req : InferenceRequest α) (routingNs : Nat) (h : s.callers i = .idle) :
      Moves cfg s (.inferAsync i req routingNs)
        { s with
          callers := Function.update s.callers i
            (.checkReady ⟨s.issued.length, req, s.clock, routingNs⟩)
          issued := s.issued ++ [⟨s.issued.length, req, s.clock, routingNs⟩] }
  | callStart {i} (h : s.callers i = .idle) :
      Moves cfg s (.callStart i) (setCaller s i .startCas)
  | callStop {i} (h : s.callers i = .idle) : Moves cfg s (.callStop i) (setCaller s i .stopCas)
  | caller {i b wake u} (h : CallerMoves cfg s i u) : Moves cfg s (.caller i b wake) u
  | worker {w b u} (h : WorkerMoves cfg s w u) : Moves cfg s (.worker w b) u
  | inferBatch {w batch waits resps executionNs} (h : s.workers w = .inferring batch waits)
      (hr : resps.length = batch.length) :
      Moves cfg s (.inferBatch w resps executionNs)
        { s with
          workers := Function.update s.workers w (.answering batch waits resps executionNs 0)
          batchCalls := s.batchCalls ++ [⟨batch, resps, executionNs⟩] }
  | spuriousWake {w} (h : (s.workers w).isAsleep = true) :
      Moves cfg s (.spuriousWake w) { s with workers := wakeOne s w }
  | tick (n : Nat) : Moves cfg s (.tick n) { s with clock := s.clock + n }
  | setReady (b : Bool) : Moves cfg s (.setReady b) { s with ready := b }

theorem moves_of_step {cfg : Config} {s u : State α} {a : Action α} (h : step cfg s a = some u) :
    Moves cfg s a u := by
  cases a with
  | inferAsync i req routingNs =>
    simp only [step] at h
    split at h
    · cases h; exact .inferAsync req routingNs ‹_›
    · cases h
  | callStart i =>
    simp only [step] at h
    split at h
    · cases h; exact .callStart ‹_›
    · cases h
  | callStop i =>
    simp only [step] at h
    split at h
    · cases h; exact .callStop ‹_›
    · cases h
  | caller i b wake => exact .caller (callerMoves_of_callerStep h)
  | worker w b => exact .worker (workerMoves_of_workerStep h)
  | inferBatch w resps executionNs =>
    simp only [step] at h
    split at h
    · split_ifs at h with hr
      cases h
      exact .inferBatch ‹_› hr
    · cases h
  | spuriousWake w =>
    simp only [step] at h
    split_ifs at h with ha
    cases h
    exact .spuriousWake ha
  | tick n => cases h; exact .tick n
  | setReady b => cases h; exact .setReady b

end ModelExecutor

end Jellybean.Model
