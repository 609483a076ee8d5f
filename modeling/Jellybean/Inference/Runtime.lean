import Jellybean.Model.ModelExecutorLifecycle
import Jellybean.Model.ModelRepository
import Mathlib.Data.List.AList

namespace Jellybean.Inference

open Model

namespace InferenceRuntime

variable {α : Type*}

/-- `ModelMetadata::is_ready`. -/
def isReady (m : ModelMetadata) : Bool := m.state = .ready

/-- What the constructor of `ModelExecutor` gets. -/
def executorConfig (workerThreads : Nat) (m : ModelMetadata) : ModelExecutor.Config where
  numWorkersArg := workerThreads
  maxBatchSize := m.config.maxBatchSize
  maxBatchDelayUs := m.config.maxBatchDelayUs

/-- Where a thread is in a call of the runtime. `starting` and `discarding` belong to
`register_model`, `discarding` while the executor that `emplace` did not take is destroyed;
`findToStop` and `unregistering` belong to `unregister_model`, `find`, `forwarding` and
`inferring` to `infer_async`, and the last three to `shutdown`, whose `before` records the
executors registered when the call began. Executors are numbered as they are made. -/
inductive Pc (α : Type*) where
  | idle
  | starting (modelId : String) (e : Nat)
  | discarding (e : Nat)
  | findToStop (modelId : String)
  | unregistering (e : Nat)
  | find (req : InferenceRequest α)
  | forwarding (e : Nat) (req : InferenceRequest α)
  | inferring (e : Nat)
  | lockShutdown (before : List Nat)
  | stopping (before : List Nat) (e : Nat) (rest : List Nat)
  | returning (before : List Nat)

/-- The runtime and all executors it made. Below `threads` stands what only records the run: the
responses the runtime gave itself, the executors whose registration completed, those that
`unregister_model` returned for, and those registered before a call of `shutdown` that
returned. -/
structure State (α : Type*) where
  execs : Nat → ModelExecutor.State α
  configs : Nat → ModelExecutor.Config
  created : Nat
  executors : AList fun _ : String => Nat
  stopped : Bool
  threads : Nat → Pc α
  replies : List InferenceResponse
  registered : List Nat
  unregistered : List Nat
  shutDown : List Nat

def initial : State α where
  execs := fun _ => ModelExecutor.initial false
  configs := fun _ => ⟨0, 0, 0⟩
  created := 0
  executors := ∅
  stopped := false
  threads := fun _ => .idle
  replies := []
  registered := []
  unregistered := []
  shutDown := []

/-- The executors in the map. -/
def values (s : State α) : List Nat := s.executors.entries.map Sigma.snd

def setThread (s : State α) (i : Nat) (pc : Pc α) : State α :=
  { s with threads := Function.update s.threads i pc }

/-- Thread `i` calls a member function of executor `e`. -/
def call (s : State α) (i e : Nat) (a : ModelExecutor.Action α) (pc : Pc α) : Option (State α) :=
  (ModelExecutor.step (s.configs e) (s.execs e) a).map fun x =>
    { s with
      execs := Function.update s.execs e x
      threads := Function.update s.threads i pc }

/-- The call of thread `i` into executor `e` has returned. -/
def back (s : State α) (i e : Nat) : Bool :=
  match (s.execs e).callers i with
  | .idle => true
  | _ => false

/-- `register_model` up to the call of `start`. -/
def registerModel (workerThreads : Nat) (s : State α) (i : Nat) (modelId : String)
    (data : Option ModelMetadata) : Option (State α) :=
  match data with
  | none => some s
  | some m =>
    if isReady m then
      call
        { s with
          execs := Function.update s.execs s.created
            (ModelExecutor.initial (isReady m && m.backend))
          configs := Function.update s.configs s.created (executorConfig workerThreads m)
          created := s.created + 1 }
        i s.created (.callStart i) (.starting modelId s.created)
    else some s

/-- `emplace` under the lock, after `start` returned. Whether an executor that is not taken is
destroyed under the lock or behind it is left open by the standard; here the lock is free. -/
def emplace (s : State α) (i : Nat) (modelId : String) (e : Nat) : Option (State α) :=
  if modelId ∈ s.executors then call s i e (.callStop i) (.discarding e)
  else some
    { s with
      executors := s.executors.insert modelId e
      registered := e :: s.registered
      threads := Function.update s.threads i .idle }

/-- `unregister_model` from its lock to the call of `stop`. -/
def unregisterModel (s : State α) (i : Nat) (modelId : String) : Option (State α) :=
  match s.executors.lookup modelId with
  | none => some (setThread s i .idle)
  | some e =>
    call { s with executors := s.executors.erase modelId } i e (.callStop i) (.unregistering e)

/-- `infer_async` under its shared lock. -/
def findExecutor (s : State α) (i : Nat) (req : InferenceRequest α) : State α :=
  if s.stopped then
    { s with
      threads := Function.update s.threads i .idle
      replies := s.replies ++ [{ error := "runtime stopped" }] }
  else match s.executors.lookup req.modelId with
    | some e => setThread s i (.forwarding e req)
    | none =>
      { s with
        threads := Function.update s.threads i .idle
        replies := s.replies ++ [{ error := "model not registered in runtime: " ++ req.modelId }] }

/-- `shutdown` goes on to the next executor of `to_stop`. -/
def stopNext (s : State α) (i : Nat) (before : List Nat) : List Nat → Option (State α)
  | [] => some (setThread s i (.returning before))
  | e :: rest => call s i e (.callStop i) (.stopping before e rest)

/-- `shutdown` under its lock; `order` is the order in which the map is iterated. -/
def shutdown (s : State α) (i : Nat) (before order : List Nat) : Option (State α) :=
  if s.stopped then some (setThread s i (.returning before))
  else if order.Perm (values s) then
    stopNext { s with executors := ∅, stopped := true } i before order
  else none

/-- One step of thread `i` outside the executors. -/
def advance (s : State α) (i : Nat) (order : List Nat) (routingNs : Nat) : Option (State α) :=
  match s.threads i with
  | .idle => none
  | .starting modelId e => if back s i e then emplace s i modelId e else none
  | .discarding e => if back s i e then some (setThread s i .idle) else none
  | .findToStop modelId => unregisterModel s i modelId
  | .unregistering e =>
    if back s i e then
      some { s with
        threads := Function.update s.threads i .idle
        unregistered := e :: s.unregistered }
    else none
  | .find req => some (findExecutor s i req)
  | .forwarding e req => call s i e (.inferAsync i req routingNs) (.inferring e)
  | .inferring e => if back s i e then some (setThread s i .idle) else none
  | .lockShutdown before => shutdown s i before order
  | .stopping before e rest => if back s i e then stopNext s i before rest else none
  | .returning before =>
    some { s with
      threads := Function.update s.threads i .idle
      shutDown := before ++ s.shutDown }

inductive Action (α : Type*) where
  | registerModel (i : Nat) (modelId : String) (data : Option ModelMetadata)
  | unregisterModel (i : Nat) (modelId : String)
  | inferAsync (i : Nat) (req : InferenceRequest α)
  | shutdown (i : Nat)
  | advance (i : Nat) (order : List Nat) (routingNs : Nat)
  | exec (e : Nat) (a : ModelExecutor.Action α)

/-- Any thread calls any member function when it is in no other call; inside an executor the
steps are those of the executor. -/
def step (workerThreads : Nat) (s : State α) : Action α → Option (State α)
  | .registerModel i modelId data =>
    match s.threads i with
    | .idle => registerModel workerThreads s i modelId data
    | _ => none
  | .unregisterModel i modelId =>
    match s.threads i with
    | .idle => some (setThread s i (.findToStop modelId))
    | _ => none
  | .inferAsync i req =>
    match s.threads i with
    | .idle => some (setThread s i (.find req))
    | _ => none
  | .shutdown i =>
    match s.threads i with
    | .idle => some (setThread s i (.lockShutdown s.registered))
    | _ => none
  | .advance i order routingNs => advance s i order routingNs
  | .exec e a =>
    if e < s.created ∧ a.isInternal then
      (ModelExecutor.step (s.configs e) (s.execs e) a).map fun x =>
        { s with execs := Function.update s.execs e x }
    else none

def system (workerThreads : Nat) : System (State α) (Action α) where
  init s := s = initial
  step := step workerThreads

/-- Thread `i` has entered executor `e`, which is now in state `x`. -/
def enter (s : State α) (i e : Nat) (x : ModelExecutor.State α) (pc : Pc α) : State α :=
  { s with
    execs := Function.update s.execs e x
    threads := Function.update s.threads i pc }

/-- Everything one action can do. -/
inductive Moves (workerThreads : Nat) (s : State α) : Action α → State α → Prop
  | exec {e a x} (he : e < s.created) (ha : a.isInternal = true)
      (hx : ModelExecutor.step (s.configs e) (s.execs e) a = some x) :
      Moves workerThreads s (.exec e a) { s with execs := Function.update s.execs e x }
  | rejected {i modelId data} : Moves workerThreads s (.registerModel i modelId data) s
  | register {i modelId m} (hi : s.threads i = .idle) :
      Moves workerThreads s (.registerModel i modelId (some m))
        { s with
          execs := Function.update s.execs s.created
            (ModelExecutor.setCaller (ModelExecutor.initial (isReady m && m.backend)) i .startCas)
          configs := Function.update s.configs s.created (executorConfig workerThreads m)
          created := s.created + 1
          threads := Function.update s.threads i (.starting modelId s.created) }
  | callUnregister {i modelId} (hi : s.threads i = .idle) :
      Moves workerThreads s (.unregisterModel i modelId) (setThread s i (.findToStop modelId))
  | callInfer {i req} (hi : s.threads i = .idle) :
      Moves workerThreads s (.inferAsync i req) (setThread s i (.find req))
  | callShutdown {i} (hi : s.threads i = .idle) :
      Moves workerThreads s (.shutdown i) (setThread s i (.lockShutdown s.registered))
  | emplaced {i modelId e order ns} (hi : s.threads i = .starting modelId e)
      (hb : (s.execs e).callers i = .idle) (hn : modelId ∉ s.executors) :
      Moves workerThreads s (.advance i order ns)
        { s with
          executors := s.executors.insert modelId e
          registered := e :: s.registered
          threads := Function.update s.threads i .idle }
  | refused {i modelId e order ns} (hi : s.threads i = .starting modelId e)
      (hb : (s.execs e).callers i = .idle) :
      Moves workerThreads s (.advance i order ns)
        (enter s i e (ModelExecutor.setCaller (s.execs e) i .stopCas) (.discarding e))
  | discarded {i e order ns} (hi : s.threads i = .discarding e)
      (hb : (s.execs e).callers i = .idle) :
      Moves workerThreads s (.advance i order ns) (setThread s i .idle)
  | notFound {i modelId order ns} (hi : s.threads i = .findToStop modelId) :
      Moves workerThreads s (.advance i order ns) (setThread s i .idle)
  | found {i modelId e order ns} (hi : s.threads i = .findToStop modelId)
      (hl : s.executors.lookup modelId = some e) (hb : (s.execs e).callers i = .idle) :
      Moves workerThreads s (.advance i order ns)
        (enter { s with executors := s.executors.erase modelId } i e
          (ModelExecutor.setCaller (s.execs e) i .stopCas) (.unregistering e))
  | unregistered {i e order ns} (hi : s.threads i = .unregistering e)
      (hb : (s.execs e).callers i = .idle) :
      Moves workerThreads s (.advance i order ns)
        { s with
          threads := Function.update s.threads i .idle
          unregistered := e :: s.unregistered }
  | replied {i req order ns r} (hi : s.threads i = .find req) :
      Moves workerThreads s (.advance i order ns)
        { s with threads := Function.update s.threads i .idle, replies := s.replies ++ [r] }
  | routed {i req e order ns} (hi : s.threads i = .find req) (hs : s.stopped = false)
      (hl : s.executors.lookup req.modelId = some e) :
      Moves workerThreads s (.advance i order ns) (setThread s i (.forwarding e req))
  | forwarded {i e req order ns x} (hi : s.threads i = .forwarding e req)
      (hx : ModelExecutor.step (s.configs e) (s.execs e) (.inferAsync i req ns) = some x) :
      Moves workerThreads s (.advance i order ns) (enter s i e x (.inferring e))
  | inferred {i e order ns} (hi : s.threads i = .inferring e)
      (hb : (s.execs e).callers i = .idle) :
      Moves workerThreads s (.advance i order ns) (setThread s i .idle)
  | alreadyStopped {i before order ns} (hi : s.threads i = .lockShutdown before)
      (hs : s.stopped = true) :
      Moves workerThreads s (.advance i order ns) (setThread s i (.returning before))
  | nothingToStop {i before order ns} (hi : s.threads i = .lockShutdown before)
      (hv : values s = []) :
      Moves workerThreads s (.advance i order ns)
        (setThread { s with executors := ∅, stopped := true } i (.returning before))
  | stopFirst {i before e rest order ns} (hi : s.threads i = .lockShutdown before)
      (hv : (e :: rest).Perm (values s)) (hb : (s.execs e).callers i = .idle) :
      Moves workerThreads s (.advance i order ns)
        (enter { s with executors := ∅, stopped := true } i e
          (ModelExecutor.setCaller (s.execs e) i .stopCas) (.stopping before e rest))
  | stoppedAll {i before e order ns} (hi : s.threads i = .stopping before e [])
      (hb : (s.execs e).callers i = .idle) :
      Moves workerThreads s (.advance i order ns) (setThread s i (.returning before))
  | stopNext {i before e f rest order ns} (hi : s.threads i = .stopping before e (f :: rest))
      (hb : (s.execs e).callers i = .idle) (hf : (s.execs f).callers i = .idle) :
      Moves workerThreads s (.advance i order ns)
        (enter s i f (ModelExecutor.setCaller (s.execs f) i .stopCas) (.stopping before f rest))
  | returned {i before order ns} (hi : s.threads i = .returning before) :
      Moves workerThreads s (.advance i order ns)
        { s with
          threads := Function.update s.threads i .idle
          shutDown := before ++ s.shutDown }

variable {s u : State α} {workerThreads : Nat}

theorem back_iff {i e : Nat} : back s i e = true ↔ (s.execs e).callers i = .idle := by
  unfold back
  split <;> simp_all

theorem call_callStop {i e : Nat} {pc : Pc α} (h : call s i e (.callStop i) pc = some u) :
    (s.execs e).callers i = .idle ∧
      u = enter s i e (ModelExecutor.setCaller (s.execs e) i .stopCas) pc := by
  obtain ⟨x, hx, rfl⟩ := Option.map_eq_some_iff.mp h
  simp only [ModelExecutor.step] at hx
  split at hx
  · cases hx
    exact ⟨‹_›, rfl⟩
  · cases hx

theorem moves_of_registerModel {i : Nat} {modelId : String} {data : Option ModelMetadata}
    (hi : s.threads i = .idle) (h : registerModel workerThreads s i modelId data = some u) :
    Moves workerThreads s (.registerModel i modelId data) u := by
  unfold registerModel at h
  split at h
  case h_1 => cases h; exact .rejected
  case h_2 m =>
    split_ifs at h
    · obtain ⟨x, hx, rfl⟩ := Option.map_eq_some_iff.mp h
      simp only [Function.update_self, ModelExecutor.step, ModelExecutor.initial] at hx
      cases hx
      simp only [Function.update_idem]
      exact .register hi
    · cases h; exact .rejected

theorem moves_of_advance {i ns : Nat} {order : List Nat} (h : advance s i order ns = some u) :
    Moves workerThreads s (.advance i order ns) u := by
  unfold advance at h
  split at h
  case h_1 => cases h
  case h_2 modelId e hi =>
    split_ifs at h with hb
    rw [back_iff] at hb
    unfold emplace at h
    split_ifs at h with hn
    · obtain ⟨-, rfl⟩ := call_callStop h
      exact .refused hi hb
    · cases h; exact .emplaced hi hb hn
  case h_3 e hi =>
    split_ifs at h with hb
    cases h
    exact .discarded hi (back_iff.mp hb)
  case h_4 modelId hi =>
    unfold unregisterModel at h
    split at h
    case h_1 => cases h; exact .notFound hi
    case h_2 e hl =>
      obtain ⟨hb, rfl⟩ := call_callStop h
      exact .found hi hl hb
  case h_5 e hi =>
    split_ifs at h with hb
    cases h
    exact .unregistered hi (back_iff.mp hb)
  case h_6 req hi =>
    cases h
    unfold findExecutor
    split_ifs with hs
    · exact .replied hi
    · split
      case h_1 e hl => exact .routed hi (by simpa using hs) hl
      case h_2 => exact .replied hi
  case h_7 e req hi =>
    obtain ⟨x, hx, rfl⟩ := Option.map_eq_some_iff.mp h
    exact .forwarded hi hx
  case h_8 e hi =>
    split_ifs at h with hb
    cases h
    exact .inferred hi (back_iff.mp hb)
  case h_9 before hi =>
    unfold shutdown at h
    split_ifs at h with hs hp
    · cases h; exact .alreadyStopped hi hs
    · cases order with
      | nil => cases h; exact .nothingToStop hi hp.nil_eq.symm
      | cons e rest =>
        obtain ⟨hb, rfl⟩ := call_callStop h
        exact .stopFirst hi hp hb
  case h_10 before e rest hi =>
    split_ifs at h with hb
    rw [back_iff] at hb
    cases rest with
    | nil => cases h; exact .stoppedAll hi hb
    | cons f rest =>
      obtain ⟨hf, rfl⟩ := call_callStop h
      exact .stopNext hi hb hf
  case h_11 before hi => cases h; exact .returned hi

theorem moves_of_step {a : Action α} (h : step workerThreads s a = some u) :
    Moves workerThreads s a u := by
  cases a with
  | registerModel i modelId data =>
    simp only [step] at h
    split at h
    · exact moves_of_registerModel ‹_› h
    · cases h
  | unregisterModel i modelId =>
    simp only [step] at h
    split at h
    · cases h; exact .callUnregister ‹_›
    · cases h
  | inferAsync i req =>
    simp only [step] at h
    split at h
    · cases h; exact .callInfer ‹_›
    · cases h
  | shutdown i =>
    simp only [step] at h
    split at h
    · cases h; exact .callShutdown ‹_›
    · cases h
  | advance i order ns => exact moves_of_advance h
  | exec e a =>
    simp only [step] at h
    split_ifs at h with he
    obtain ⟨x, hx, rfl⟩ := Option.map_eq_some_iff.mp h
    exact .exec he.1 he.2 hx

end InferenceRuntime

end Jellybean.Inference
