import Jellybean.Inference.RuntimeRouting
import Jellybean.Server.Conversation

namespace Jellybean.Server.Service

open Inference Model

variable {α ι : Type*}

/-- What stays the same while the server runs: its configuration, how floats lie in memory, and
the command lines of its clients. -/
structure Setting (α ι : Type*) where
  workerThreads : Nat
  config : SessionValidation.ExtendedConfig
  memory : SessionValidation.Memory α
  floatBytes : α → List UInt8
  length_floatBytes : ∀ x, (floatBytes x).length = 4
  bits : Nat → UInt32
  arguments : ι → InferClient.Arguments

namespace Setting

variable (S : Setting α ι)

def build : Request → InferenceRequest α := SessionValidation.sessionRequest S.config S.memory

/-- A client whose arguments are refused sends nothing. -/
def bytes (i : ι) : List UInt8 :=
  match InferClient.buffers S.bits (S.arguments i) with
  | .ok bufs => bufs.flatten
  | .error _ => []

def requests (i : ι) : Nat :=
  match InferClient.buffers S.bits (S.arguments i) with
  | .ok _ => (S.arguments i).requests
  | .error _ => 0

/-- A vector of floats as the bytes that `write` sends. -/
def floats (buffer : List α) : List UInt8 := buffer.flatMap S.floatBytes

theorem length_floats (buffer : List α) : (S.floats buffer).length = 4 * buffer.length := by
  rw [floats, List.length_flatMap]
  simp only [S.length_floatBytes, List.map_const', List.sum_replicate_nat]
  omega

end Setting

/-- What a session waits for: a response that the runtime made itself, or a promise of an
executor. -/
inductive Future where
  | ready (response : InferenceResponse)
  | promise (e p : Nat)
  deriving DecidableEq

/-- A call of `infer_batch` that returned. -/
structure Run (α : Type*) where
  tasks : List (ModelExecutor.Task α)
  results : List (Result α)
  executionNs : Nat
  computed : ∃ loaded torch latencyNs, TorchBackend.inferBatchRaising loaded torch
    (tasks.map ModelExecutor.Task.req) latencyNs = some results

/-- The runtime with the clients and their sessions. `calling` is the session whose call of
`infer_async` the thread of the reactor is in, `buffers` holds the output buffers of the requests
by executor and promise, and `runs` records what was inferred. -/
structure State (α ι : Type*) where
  runtime : InferenceRuntime.State α
  clients : ι → Conversation.State α
  calling : Option ι
  futures : ι → Option Future
  buffers : Nat → Nat → List α
  runs : List (Run α)

/-- The thread of the reactor among those that call the runtime; `main` before it runs the reactor
counts as another one. -/
def reactorThread : Nat := 0

inductive Action (S : Setting α ι) where
  /-- A step of client `i`, of the network, or of its session apart from the runtime. -/
  | converse (i : ι) (a : Conversation.Action S.build)
  /-- The session of client `i` calls `infer_async`. -/
  | inferAsync (i : ι)
  /-- A step in the runtime or in an executor. -/
  | runtime (a : InferenceRuntime.Action α)
  /-- Worker `w` of executor `e` gets through `infer_batch`. -/
  | inferBatch (e w : Nat) (loaded : Bool) (torch : Except String (List (TorchBackend.Piece α)))
      (latencyNs : Nat → Nat) (executionNs : Nat)
  /-- The session of client `i` goes on with its response. -/
  | respond (i : ι) (answer : (r : Request) → Conversation.Answer (S.build r))

section Kinds

variable {build : Request → InferenceRequest α}

def responds : Conversation.Action build → Bool
  | .respond _ => true
  | _ => false

/-- The step is one of the session, which the thread of the reactor runs. -/
def onReactor : Conversation.Action build → Bool
  | .read | .respond _ | .write _ | .refuse => true
  | .send _ | .deliver _ | .receive => false

/-- The thread of the reactor calls the runtime for its sessions only, and `infer_batch` is an
action of its own. -/
def reserved : InferenceRuntime.Action α → Bool
  | .registerModel i _ _ | .unregisterModel i _ | .inferAsync i _ | .shutdown i =>
    i == reactorThread
  | .exec _ (.inferBatch _ _ _) => true
  | .advance _ _ _ | .exec _ _ => false

end Kinds

def Future.value (x : InferenceRuntime.State α) : Future → Option InferenceResponse
  | .ready v => some v
  | .promise e p => ((x.execs e).promises p).head?

/-- The output buffer of the request. -/
def Future.buffer (buffers : Nat → Nat → List α) (req : InferenceRequest α) : Future → List α
  | .ready _ => req.outputBuffer
  | .promise e p => buffers e p

/-- The buffers after `infer_batch` has copied its results out. -/
def written (tasks : List (ModelExecutor.Task α)) (results : List (Result α))
    (buffers : Nat → List α) : Nat → List α :=
  (tasks.zip results).foldl (fun f x => Function.update f x.1.promise x.2.outputBuffer) buffers

variable [DecidableEq ι] (S : Setting α ι)

def converse (s : State α ι) (i : ι) (a : Conversation.Action S.build) : Option (State α ι) :=
  if responds a = false ∧ (onReactor a = true → s.calling = none) then
    (Conversation.step (S.bytes i) (s.clients i) a).map fun c =>
      { s with clients := Function.update s.clients i c }
  else none

def inferAsync (s : State α ι) (i : ι) : Option (State α ι) :=
  match s.calling, (s.clients i).session, s.futures i with
  | none, .inferring r, none =>
    (InferenceRuntime.step S.workerThreads s.runtime (.inferAsync reactorThread (S.build r))).map
      fun x => { s with runtime := x, calling := some i }
  | _, _, _ => none

/-- What the step of the reactor's thread to `x` means to the session that it runs: the runtime
answers itself, the executor has made a promise, or the call returns. -/
def follow (s : State α ι) (i : ι) (x : InferenceRuntime.State α) : State α ι :=
  match s.runtime.threads reactorThread, x.threads reactorThread with
  | .find _, .idle =>
    { s with
      runtime := x
      calling := none
      futures := Function.update s.futures i (x.replies.getLast?.map .ready) }
  | .forwarding e req, _ =>
    { s with
      runtime := x
      futures := Function.update s.futures i (some (.promise e (s.runtime.execs e).issued.length))
      buffers := Function.update s.buffers e (Function.update (s.buffers e)
        (s.runtime.execs e).issued.length req.outputBuffer) }
  | .inferring _, _ => { s with runtime := x, calling := none }
  | _, _ => { s with runtime := x }

def runtimeStep (s : State α ι) (a : InferenceRuntime.Action α) : Option (State α ι) :=
  if reserved a = false then
    (InferenceRuntime.step S.workerThreads s.runtime a).map fun x =>
      match a, s.calling with
      | .advance 0 _ _, some i => follow s i x
      | _, _ => { s with runtime := x }
  else none

def inferBatch (s : State α ι) (e w : Nat) (loaded : Bool)
    (torch : Except String (List (TorchBackend.Piece α))) (latencyNs : Nat → Nat)
    (executionNs : Nat) : Option (State α ι) :=
  match (s.runtime.execs e).workers w with
  | .inferring batch _ =>
    match h : TorchBackend.inferBatchRaising loaded torch (batch.map ModelExecutor.Task.req)
        latencyNs with
    | some results =>
      (InferenceRuntime.step S.workerThreads s.runtime
        (.exec e (.inferBatch w (results.map Result.response) executionNs))).map fun x =>
          { s with
            runtime := x
            buffers := Function.update s.buffers e (written batch results (s.buffers e))
            runs := s.runs ++ [⟨batch, results, executionNs, ⟨loaded, torch, latencyNs, h⟩⟩] }
    | none => none
  | _ => none

def respond (s : State α ι) (i : ι) (answer : (r : Request) → Conversation.Answer (S.build r)) :
    Option (State α ι) :=
  match s.calling, (s.clients i).session, s.futures i with
  | none, .inferring r, some f =>
    if f.value s.runtime = some (answer r).response ∧
        (answer r).outputBuf = S.floats (f.buffer s.buffers (S.build r)) then
      (Conversation.step (S.bytes i) (s.clients i) (.respond answer)).map fun c =>
        { s with
          clients := Function.update s.clients i c
          futures := Function.update s.futures i none }
    else none
  | _, _, _ => none

def step (s : State α ι) : Action S → Option (State α ι)
  | .converse i a => converse S s i a
  | .inferAsync i => inferAsync S s i
  | .runtime a => runtimeStep S s a
  | .inferBatch e w loaded torch latencyNs executionNs =>
    inferBatch S s e w loaded torch latencyNs executionNs
  | .respond i answer => respond S s i answer

def initial : State α ι where
  runtime := InferenceRuntime.initial
  clients := fun i => Conversation.initial (S.bytes i) (S.requests i)
  calling := none
  futures := fun _ => none
  buffers := fun _ _ => []
  runs := []

def system : System (State α ι) (Action S) where
  init s := s = initial S
  step := step S

/-- No field of client `i` arrives cut and none of its responses is written short. -/
def Undisturbed (i : ι) (s : State α ι) : Action S → Prop
  | .converse j a => j = i → Conversation.Undisturbed (s.clients j) a
  | .inferAsync _ | .runtime _ | .inferBatch _ _ _ _ _ _ | .respond _ _ => True

instance (i : ι) (s : State α ι) : (a : Action S) → Decidable (Undisturbed S i s a)
  | .converse j a => inferInstanceAs (Decidable (j = i → Conversation.Undisturbed (s.clients j) a))
  | .inferAsync _ | .runtime _ | .inferBatch _ _ _ _ _ _ | .respond _ _ => .isTrue trivial

end Jellybean.Server.Service
