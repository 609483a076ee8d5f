import Jellybean.Inference.TorchBackend
import Jellybean.Server.WireProtocol

namespace Jellybean.Server

open Inference Inference.TorchBackend

variable {α : Type*}

namespace SessionValidation

/-- The fields of `ExtendedConfig` a session uses; one configuration serves all models. -/
structure ExtendedConfig where
  inputShape : List Int

/-- Memory as a session sees it: four bytes read as a float, a fresh float of a resized vector,
and whatever lies behind the end of the input vector. -/
structure Memory (α : Type*) where
  readFloat : List UInt8 → α
  zero : α
  behind : Nat → α

/-- `std::string` of the bytes received. -/
def modelName (bytes : List UInt8) : String := String.ofList (bytes.map fun b => Char.ofNat b.toNat)

/-- The request built by `session`: the shape comes from the configuration, the length of the
input and of the output buffer from the wire. -/
def sessionRequest (cfg : ExtendedConfig) (mem : Memory α) (r : Request) : InferenceRequest α where
  modelId := modelName r.modelId
  shape := cfg.inputShape
  input :=
    { data := fun i =>
        if i < r.inputElems then mem.readFloat ((r.payload.drop (4 * i)).take 4) else mem.behind i
      size := r.inputElems }
  outputBuffer := List.replicate r.inputElems mem.zero

/-- What becomes of a request in the executor of its model. `dispatched` names the requests before
and after it in its batch, `stranded` is a request left in the queue of a stopped executor. -/
inductive Fate where
  | notReady
  | queueTimeout
  | stopped
  | stranded
  | backendUnavailable
  | dispatched (earlier later : List Request)

structure Deployment (α : Type*) where
  config : ExtendedConfig
  memory : Memory α
  runtimeStopped : Bool
  registered : String → Bool
  lib : LibTorch α
  models : String → Option (ModelState α)

def Deployment.request (s : Deployment α) (r : Request) : InferenceRequest α :=
  sessionRequest s.config s.memory r

/-- The loop of `infer_batch` over `from_blob`, with the requests it was called for. -/
def tensorLoop : List (InferenceRequest α) →
    List (InferenceRequest α) × Except TorchError (List (Tensor α))
  | [] => ([], .ok [])
  | req :: reqs =>
    match inputTensor req with
    | .error e => ([req], .error e)
    | .ok t => (req :: (tensorLoop reqs).1, (t :: ·) <$> (tensorLoop reqs).2)

theorem tensorLoop_snd (reqs : List (InferenceRequest α)) :
    (tensorLoop reqs).2 = reqs.mapM inputTensor := by
  induction reqs with
  | nil => rfl
  | cons req reqs ih =>
    rw [List.mapM_cons, ← ih, tensorLoop]
    cases inputTensor req with
    | error e => rfl
    | ok t =>
      change (t :: ·) <$> (tensorLoop reqs).2 = ((tensorLoop reqs).2 >>= fun ts => pure (t :: ts))
      cases (tensorLoop reqs).2 <;> rfl

/-- The batch `worker_loop` hands to the backend. -/
def Deployment.batch (s : Deployment α) (earlier : List Request) (r : Request) (later : List Request) :
    List (InferenceRequest α) :=
  (earlier ++ r :: later).map s.request

/-- The model `infer_batch` uses: that of the first request. -/
def Deployment.batchModel (s : Deployment α) (earlier : List Request) (r : Request) :
    Option (ModelState α) :=
  s.models (modelName ((earlier ++ [r]).headD r).modelId)

/-- `from_blob` is called for the request. -/
def Deployment.Constructs (s : Deployment α) (r : Request) : Fate → Prop
  | .dispatched earlier later =>
    s.runtimeStopped = false ∧ s.registered (modelName r.modelId) = true ∧
      s.batchModel earlier r ≠ none ∧
      earlier.length < (tensorLoop (s.batch earlier r later)).1.length
  | _ => False

/-- `ModelExecutor::infer_async` and what a worker answers; `none` if there is no answer. -/
def Deployment.executorAnswer (s : Deployment α) (r : Request) : Fate → Option InferenceResponse
  | .notReady => some { error := "model not ready: " ++ modelName r.modelId }
  | .queueTimeout => some { error := "queue full timeout for model: " ++ modelName r.modelId }
  | .stopped => some { error := "executor stopped" }
  | .stranded => none
  | .backendUnavailable => some { error := "backend unavailable" }
  | .dispatched earlier later =>
    (inferBatch s.lib s.models (s.batch earlier r later) fun _ => 0).bind fun results =>
      results[earlier.length]?.map Result.response

/-- `InferenceRuntime::infer_async`. -/
def Deployment.answer (s : Deployment α) (r : Request) (fate : Fate) : Option InferenceResponse :=
  if s.runtimeStopped then some { error := "runtime stopped" }
  else if s.registered (modelName r.modelId) = false then
    some { error := "model not registered in runtime: " ++ modelName r.modelId }
  else s.executorAnswer r fate

/-- The documented validation: a tensor is built only from a request of the right length, and any
other request is answered with `ok=0` and `output_elems=0`. -/
def Deployment.Validates (s : Deployment α) (r : Request) (fate : Fate) : Prop :=
  (s.Constructs r fate → s.config.inputShape.prod = r.inputElems) ∧
    (s.config.inputShape.prod ≠ r.inputElems →
      ∃ resp, s.answer r fate = some resp ∧ resp.ok = false ∧ resp.outputElemsWritten = 0)

/-- The request is answered with an error before a tensor is built for it. -/
def Deployment.TurnedAway (s : Deployment α) (r : Request) (fate : Fate) : Prop :=
  s.runtimeStopped = true ∨ s.registered (modelName r.modelId) = false ∨
    match fate with
    | .notReady | .queueTimeout | .stopped | .backendUnavailable => True
    | .stranded => False
    | .dispatched earlier _ =>
      s.batchModel earlier r = none ∨ earlier ≠ [] ∧ ∃ d ∈ s.config.inputShape, d < 0

theorem tensorLoop_of_nonneg {reqs : List (InferenceRequest α)}
    (h : ∀ req ∈ reqs, ¬ ∃ d ∈ req.shape, d < 0) : (tensorLoop reqs).1 = reqs := by
  induction reqs with
  | nil => rfl
  | cons req reqs ih =>
    have hreq := h req (by simp)
    have htail := ih fun q hq => h q (by simp [hq])
    rw [tensorLoop]
    rcases inputTensor_cases req with ⟨hneg, -⟩ | ⟨-, -, ht⟩ | ⟨r, dims, b, -, ht, -⟩
    · exact absurd hneg hreq
    · rw [ht]
      simp only [htail]
    · rw [ht]
      simp only [htail]

theorem inputTensor_of_neg {req : InferenceRequest α} (h : ∃ d ∈ req.shape, d < 0) :
    inputTensor req = .error .negativeDimension := if_pos h

theorem Deployment.exists_batch_eq_cons (s : Deployment α) (earlier : List Request) (r : Request)
    (later : List Request) : ∃ first rest, s.batch earlier r later = first :: rest ∧
      first.shape = s.config.inputShape ∧ s.models first.modelId = s.batchModel earlier r := by
  cases earlier with
  | nil => exact ⟨_, _, rfl, rfl, rfl⟩
  | cons q qs => exact ⟨_, _, rfl, rfl, rfl⟩

/-- In a batch of one server a tensor is built for the first request, and for the others unless
the configured shape makes `from_blob` throw. -/
theorem Deployment.constructs_dispatched_iff (s : Deployment α) (earlier : List Request) (r : Request)
    (later : List Request) : earlier.length < (tensorLoop (s.batch earlier r later)).1.length ↔
      ¬ (earlier ≠ [] ∧ ∃ d ∈ s.config.inputShape, d < 0) := by
  by_cases hneg : ∃ d ∈ s.config.inputShape, d < 0
  · obtain ⟨first, rest, hb, hshape, -⟩ := s.exists_batch_eq_cons earlier r later
    rw [hb, tensorLoop, inputTensor_of_neg (hshape ▸ hneg)]
    rw [and_iff_left hneg, not_not]
    simp
  · have hall : ∀ req ∈ s.batch earlier r later, ¬ ∃ d ∈ req.shape, d < 0 := by
      intro req hm
      obtain ⟨q, -, rfl⟩ := List.mem_map.mp hm
      exact hneg
    rw [tensorLoop_of_nonneg hall]
    refine iff_of_true ?_ fun h => hneg h.2
    simp [Deployment.batch]

theorem getElem?_batch_map (s : Deployment α) (earlier : List Request) (r : Request)
    (later : List Request) {β : Type*} (f : InferenceRequest α → β) :
    ((s.batch earlier r later).map f)[earlier.length]? = some (f (s.request r)) := by
  simp [Deployment.batch]

/-- A batch refused as a whole answers every request with an error. -/
theorem Deployment.executorAnswer_of_refused (s : Deployment α) (earlier : List Request) (r : Request)
    (later : List Request)
    (h : s.batchModel earlier r = none ∨ ∃ d ∈ s.config.inputShape, d < 0) :
    ∃ resp, s.executorAnswer r (.dispatched earlier later) = some resp ∧ resp.ok = false ∧
      resp.outputElemsWritten = 0 := by
  obtain ⟨first, rest, hb, hshape, hmodel⟩ := s.exists_batch_eq_cons earlier r later
  obtain ⟨text, htext⟩ : ∃ text : String, inferBatch s.lib s.models (s.batch earlier r later)
      (fun _ => 0) = some ((s.batch earlier r later).map fun req =>
        ⟨{ error := text }, req.outputBuffer⟩) := by
    rw [hb]
    unfold inferBatch
    dsimp only
    rw [hmodel]
    cases hst : s.batchModel earlier r with
    | none => exact ⟨_, rfl⟩
    | some st =>
      have hneg : ∃ d ∈ s.config.inputShape, d < 0 := by
        rcases h with h | h
        · rw [hst] at h
          cases h
        · exact h
      have hout : batchOutput (st.rowModule s.lib) (first :: rest)
          = .error .negativeDimension := by
        unfold batchOutput
        rw [List.mapM_cons, inputTensor_of_neg (hshape ▸ hneg)]
        rfl
      dsimp only
      rw [hout]
      exact ⟨_, rfl⟩
  refine ⟨{ error := text }, ?_, rfl, rfl⟩
  rw [Deployment.executorAnswer, htext, Option.bind_some, getElem?_batch_map]
  rfl

/-- The documented validation holds of a request exactly if its length agrees with the configured
shape or it is turned away for another reason. -/
theorem Deployment.validates_iff (s : Deployment α) (r : Request) (fate : Fate) :
    s.Validates r fate ↔ s.config.inputShape.prod = r.inputElems ∨ s.TurnedAway r fate := by
  by_cases hprod : s.config.inputShape.prod = r.inputElems
  · exact iff_of_true ⟨fun _ => hprod, fun h => absurd hprod h⟩ (.inl hprod)
  rw [or_iff_right hprod]
  have hval : s.Validates r fate ↔ ¬ s.Constructs r fate ∧
      ∃ resp, s.answer r fate = some resp ∧ resp.ok = false ∧ resp.outputElemsWritten = 0 := by
    unfold Deployment.Validates
    tauto
  rw [hval]
  unfold Deployment.TurnedAway Deployment.answer
  by_cases hstop : s.runtimeStopped = true
  · refine iff_of_true ⟨?_, ?_⟩ (.inl hstop)
    · cases fate <;> simp [Deployment.Constructs, hstop]
    · exact ⟨_, if_pos hstop, rfl, rfl⟩
  rw [or_iff_right hstop, if_neg hstop]
  by_cases hreg : s.registered (modelName r.modelId) = false
  · refine iff_of_true ⟨?_, ?_⟩ (.inl hreg)
    · cases fate <;> simp [Deployment.Constructs, hreg]
    · exact ⟨_, if_pos hreg, rfl, rfl⟩
  rw [or_iff_right hreg, if_neg hreg]
  cases fate with
  | notReady | queueTimeout | stopped | backendUnavailable =>
    exact iff_of_true ⟨id, _, rfl, rfl, rfl⟩ trivial
  | stranded => simp [Deployment.executorAnswer]
  | dispatched earlier later =>
    have hcon : s.Constructs r (.dispatched earlier later) ↔
        ¬ (s.batchModel earlier r = none ∨ earlier ≠ [] ∧ ∃ d ∈ s.config.inputShape, d < 0) := by
      simp only [Deployment.Constructs, s.constructs_dispatched_iff]
      simp only [Bool.not_eq_true, Bool.not_eq_false] at hstop hreg
      rw [not_or, and_iff_right hstop, and_iff_right hreg]
    rw [hcon, not_not]
    refine ⟨fun h => h.1, fun h => ⟨h, ?_⟩⟩
    exact s.executorAnswer_of_refused earlier r later (h.imp_right And.right)

/-- Four floats are configured, one is sent, and `from_blob` is called for it. -/
def oneOfFour : Deployment Int where
  config := ⟨[1, 4]⟩
  memory := ⟨fun bytes => leNat bytes, 0, fun _ => -1⟩
  runtimeStopped := false
  registered := fun name => name = "m"
  lib := wholeLib
  models := noModule

def oneFloat : Frame where
  modelId := [109]
  inputElems := 1
  payload := [1, 0, 0, 0]
  modelId_lt := by decide
  inputElems_le := one_le_maxElems
  payload_length := rfl

/-- The tensor holds three floats from behind the end of the input. -/
theorem oneFloat_not_validated :
    ¬ oneOfFour.Validates oneFloat.toRequest (.dispatched [] []) ∧
      (inputTensor (oneOfFour.request oneFloat.toRequest)).map Tensor.data
        = .ok [1, -1, -1, -1] := by
  refine ⟨fun h => ?_, rfl⟩
  have hc : oneOfFour.Constructs oneFloat.toRequest (.dispatched [] []) :=
    ⟨rfl, by decide +kernel, by decide +kernel, by decide +kernel⟩
  exact absurd (h.1 hc) (by decide)

end SessionValidation

end Jellybean.Server
