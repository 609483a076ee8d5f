import Jellybean.Inference.Tensor

namespace Jellybean.Inference

variable {α : Type*}

/-- `std::span<const float>`: a pointer and the number of floats it may be read for. -/
structure Span (α : Type*) where
  data : Nat → α
  size : Nat

/-- The device is left out: tensors are moved to it and back unchanged. -/
structure InferenceRequest (α : Type*) where
  modelId : String
  shape : List Int
  input : Span α
  outputBuffer : List α

structure InferenceResponse where
  ok : Bool := false
  error : String := ""
  shape : List Int := []
  outputElemsWritten : Nat := 0
  latencyNs : Nat := 0
  routingNs : Nat := 0
  queueWaitNs : Nat := 0
  executionNs : Nat := 0
  deriving DecidableEq

/-- A response together with what the request's output buffer holds afterwards. -/
structure Result (α : Type*) where
  response : InferenceResponse
  outputBuffer : List α

/-- What a client can tell apart: everything but the text of the error and the timing. -/
structure Outcome (α : Type*) where
  ok : Bool
  failed : Bool
  shape : List Int
  outputElemsWritten : Nat
  outputBuffer : List α
  deriving DecidableEq

def Result.outcome (r : Result α) : Outcome α :=
  ⟨r.response.ok, r.response.error ≠ "", r.response.shape, r.response.outputElemsWritten,
    r.outputBuffer⟩

namespace TorchBackend

/-- What is left open about LibTorch: the texts of its errors and the float operation
`relu(x * 2 + 1)`. -/
structure LibTorch (α : Type*) where
  what : TorchError → String
  what_ne_empty : ∀ e, what e ≠ ""
  reluTwoXPlusOne : α → α

structure ModelState (α : Type*) where
  hasModule : Bool
  module : RowModule α

/-- The function applied to the input tensor. -/
def ModelState.rowModule (lib : LibTorch α) (st : ModelState α) : RowModule α :=
  if st.hasModule then st.module else .pointwise lib.reluTwoXPlusOne

/-- The end of both paths: report the shape, then copy out or complain. -/
def deliver (y : Tensor α) (req : InferenceRequest α) (latencyNs : Nat) : Result α :=
  let shape := y.shape.map Int.ofNat
  if y.numel > req.outputBuffer.length then
    { response := { error := "output buffer too small", shape, latencyNs }
      outputBuffer := req.outputBuffer }
  else
    { response := { ok := true, shape, outputElemsWritten := y.numel % 2^32, latencyNs }
      outputBuffer := y.data ++ req.outputBuffer.drop y.numel }

/-- The input tensor of a request. -/
def inputTensor (req : InferenceRequest α) : Except TorchError (Tensor α) :=
  fromBlob req.input.data req.shape

def infer (lib : LibTorch α) (models : String → Option (ModelState α)) (req : InferenceRequest α)
    (latencyNs : Nat) : Result α :=
  match models req.modelId with
  | none => ⟨{ error := "model not loaded: " ++ req.modelId }, req.outputBuffer⟩
  | some st =>
    match inputTensor req >>= (st.rowModule lib).forward with
    | .error e => ⟨{ error := lib.what e, latencyNs }, req.outputBuffer⟩
    | .ok y => deliver y req latencyNs

/-- The output tensor of a whole batch. -/
def batchOutput (m : RowModule α) (batch : List (InferenceRequest α)) :
    Except TorchError (Batch α) := do
  let tensors ← batch.mapM inputTensor
  let x ← cat tensors
  m.forwardBatch x

/-- `none` stands for undefined behaviour: `chunks[i]` beyond the end. -/
def inferBatch (lib : LibTorch α) (models : String → Option (ModelState α))
    (batch : List (InferenceRequest α)) (latencyNs : Nat → Nat) : Option (List (Result α)) :=
  match batch with
  | [] => some []
  | first :: _ =>
    match models first.modelId with
    | none => some (batch.map fun req =>
        ⟨{ error := "model not loaded: " ++ first.modelId }, req.outputBuffer⟩)
    | some st =>
      match batchOutput (st.rowModule lib) batch with
      | .error e => some (batch.map fun req => ⟨{ error := lib.what e }, req.outputBuffer⟩)
      | .ok y =>
        let chunks := y.chunk batch.length
        if chunks.length < batch.length then none
        else some ((batch.zip chunks).zipIdx.map fun ((req, chunk), i) =>
          deliver (.batch chunk) req (latencyNs i))

/-- Every request gets from `infer_batch` what it gets from `infer` alone. -/
def Transparent (lib : LibTorch α) (models : String → Option (ModelState α))
    (batch : List (InferenceRequest α)) : Prop :=
  ∀ (latency : Nat → Nat) (latencyAlone : InferenceRequest α → Nat),
    (inferBatch lib models batch latency).map (List.map Result.outcome) =
      some (batch.map fun req => (infer lib models req (latencyAlone req)).outcome)

/-- Alone the request is refused without a shape: a dimension is negative, or the model does not
take its row dimensions, or it has no dimension and the model refuses the scalar or answers with
one that the empty output buffer cannot hold. -/
def FailsAlone (m : RowModule α) (req : InferenceRequest α) : Prop :=
  (∃ d ∈ req.shape, d < 0) ∨
    match req.shape.map Int.toNat with
    | [] => ∀ y ∈ m.scalar (req.input.data 0), y.shape = [] ∧ req.outputBuffer = []
    | _ :: dims => m.outDims dims = none

/-- All requests have row dimensions `dims`. -/
def AllDims (dims : List Nat) (batch : List (InferenceRequest α)) : Prop :=
  ∀ req ∈ batch, ∃ r : Nat, req.shape = (r :: dims).map Int.ofNat

/-- The row counts are `c, ..., c, r` with `r` at most `c`, less than the number of requests
below it, and not zero unless all are; and the model takes the common row dimensions. -/
def Fits (m : RowModule α) (batch : List (InferenceRequest α)) : Prop :=
  ∃ (dims : List Nat) (k c r : Nat), m.outDims dims ≠ none ∧
    batch.map InferenceRequest.shape
      = (List.replicate k (c :: dims) ++ [r :: dims]).map (List.map Int.ofNat) ∧
    r ≤ c ∧ c ≤ r + k ∧ (1 ≤ r ∨ c = 0)

def rejected (req : InferenceRequest α) : Outcome α := ⟨false, true, [], 0, req.outputBuffer⟩

theorem outcome_deliver_eq_rejected {y : Tensor α} {req : InferenceRequest α} {l : Nat} :
    (deliver y req l).outcome = rejected req ↔ y.shape = [] ∧ req.outputBuffer = [] := by
  unfold deliver rejected Result.outcome
  dsimp only
  split_ifs with h
  · constructor
    · intro he
      obtain ⟨-, -, hs, -⟩ := Outcome.mk.inj he
      have hs : y.shape = [] := List.map_eq_nil_iff.mp hs
      rw [Tensor.numel, hs, List.prod_nil] at h
      exact ⟨hs, List.length_eq_zero_iff.mp (by omega)⟩
    · rintro ⟨hs, hb⟩
      simp [hs]
  · constructor
    · intro he
      exact absurd (Outcome.mk.inj he).1 (by simp)
    · rintro ⟨hs, hb⟩
      rw [Tensor.numel, hs, hb] at h
      exact absurd Nat.one_pos h

theorem forward_batch (m : RowModule α) (b : Batch α) :
    (m.outDims b.dims = none ∧ m.forwardBatch b = .error .forward) ∨
    ∃ out c, m.outDims b.dims = some out ∧ m.forwardBatch b = .ok c ∧ c.dims = out ∧
      c.rows = b.rows.map (m.row b.dims) := by
  unfold RowModule.forwardBatch
  split
  · rename_i h
    exact .inl ⟨h, rfl⟩
  · rename_i out h
    exact .inr ⟨out, _, h, rfl, rfl, rfl⟩

/-- What `from_blob` makes of the shape of a request. -/
theorem inputTensor_cases (req : InferenceRequest α) :
    ((∃ d ∈ req.shape, d < 0) ∧ inputTensor req = .error .negativeDimension) ∨
    ((¬ ∃ d ∈ req.shape, d < 0) ∧ req.shape = [] ∧
      inputTensor req = .ok (.scalar (req.input.data 0))) ∨
    ∃ (r : Nat) (dims : List Nat) (b : Batch α), req.shape = (r :: dims).map Int.ofNat ∧
      inputTensor req = .ok (.batch b) ∧ b.dims = dims ∧ b.rows.length = r := by
  by_cases hneg : ∃ d ∈ req.shape, d < 0
  · exact .inl ⟨hneg, if_pos hneg⟩
  · have hb : inputTensor req = _ := if_neg hneg
    refine .inr ?_
    cases hs : req.shape with
    | nil =>
      rw [hs] at hb
      exact .inl ⟨by simp, rfl, hb⟩
    | cons d ds =>
      rw [hs] at hb hneg
      refine .inr ⟨d.toNat, ds.map Int.toNat, _, ?_, hb, rfl, by simp⟩
      push Not at hneg
      have hmap : (d :: ds).map (Int.ofNat ∘ Int.toNat) = (d :: ds).map id :=
        List.map_congr_left fun x hx => Int.toNat_of_nonneg (hneg x hx)
      simpa [List.map_map] using hmap.symm

section Loaded

variable {lib : LibTorch α} {models : String → Option (ModelState α)} {st : ModelState α}

theorem infer_outcome_eq_rejected {req : InferenceRequest α} (hst : models req.modelId = some st)
    (l : Nat) : (infer lib models req l).outcome = rejected req ↔
      FailsAlone (st.rowModule lib) req := by
  unfold infer FailsAlone
  rw [hst]
  dsimp only
  rcases inputTensor_cases req with ⟨hneg, hb⟩ | ⟨hneg, hs, hb⟩ | ⟨r, dims, b, hs, hb, hd, -⟩
  · rw [hb]
    exact iff_of_true (by simp [Result.outcome, rejected, lib.what_ne_empty, bind, Except.bind])
      (.inl hneg)
  · rw [hb, or_iff_right hneg, hs]
    simp only [bind, Except.bind, RowModule.forward]
    cases (st.rowModule lib).scalar (req.input.data 0) with
    | none => simp [Result.outcome, rejected, lib.what_ne_empty]
    | some y => simpa using outcome_deliver_eq_rejected
  · have hneg : ¬ ∃ d ∈ req.shape, d < 0 := by
      rintro ⟨d, hm, hlt⟩
      rw [hs] at hm
      obtain ⟨n, -, rfl⟩ := List.mem_map.mp hm
      exact absurd hlt (by simp)
    have hnat : req.shape.map Int.toNat = r :: dims := by
      rw [hs, List.map_map]
      exact List.map_id _
    rw [hb, or_iff_right hneg, hnat]
    simp only [bind, Except.bind, RowModule.forward]
    rcases forward_batch (st.rowModule lib) b with ⟨hnone, hf⟩ | ⟨out, c, hsome, hf, -⟩
    · rw [hf, ← hd]
      exact iff_of_true (by simp [Except.map, Result.outcome, rejected, lib.what_ne_empty]) hnone
    · rw [hf, ← hd, hsome]
      refine iff_of_false (fun h => ?_) (by simp)
      exact absurd (outcome_deliver_eq_rejected.mp h).1 (by simp [Tensor.shape])

end Loaded

/-! The batch path. -/

def rowCount (req : InferenceRequest α) : Nat := (req.shape.headD 0).toNat

/-- The input tensor of a request with row dimensions `dims`. -/
def inputBatch (dims : List Nat) (req : InferenceRequest α) : Batch α where
  dims := dims
  rows := (List.range (rowCount req)).map (blobRow req.input.data dims.prod)
  row_length := by
    intro row h
    obtain ⟨i, -, rfl⟩ := List.mem_map.mp h
    simp [blobRow]

theorem inputTensor_of_dims {req : InferenceRequest α} {r : Nat} {dims : List Nat}
    (h : req.shape = (r :: dims).map Int.ofNat) :
    inputTensor req = .ok (.batch (inputBatch dims req)) ∧ rowCount req = r := by
  have hneg : ¬ ∃ d ∈ req.shape, d < 0 := by
    rintro ⟨d, hm, hlt⟩
    rw [h] at hm
    obtain ⟨n, -, rfl⟩ := List.mem_map.mp hm
    exact absurd hlt (by simp)
  have hnat : req.shape.map Int.toNat = r :: dims := by
    rw [h, List.map_map]
    exact List.map_id _
  have hcount : rowCount req = r := by
    rw [rowCount, h]
    rfl
  refine ⟨?_, hcount⟩
  unfold inputTensor fromBlob
  rw [if_neg hneg, hnat]
  subst hcount
  rfl

theorem mapM_of_ok {ε β γ : Type*} {f : β → Except ε γ} {g : β → γ} {xs : List β}
    (h : ∀ x ∈ xs, f x = .ok (g x)) : xs.mapM f = .ok (xs.map g) := by
  induction xs with
  | nil => rfl
  | cons x xs ih =>
    rw [List.mapM_cons, h x (by simp), ih fun y hy => h y (by simp [hy])]
    rfl

theorem exists_of_mapM {ε β γ : Type*} {f : β → Except ε γ} {xs : List β} {ys : List γ}
    (h : xs.mapM f = .ok ys) : ∀ x ∈ xs, ∃ y ∈ ys, f x = .ok y := by
  induction xs generalizing ys with
  | nil => exact fun x hx => absurd hx List.not_mem_nil
  | cons x xs ih =>
    rw [List.mapM_cons] at h
    cases hx : f x with
    | error e =>
      rw [hx] at h
      cases h
    | ok y =>
      rw [hx] at h
      cases hxs : xs.mapM f with
      | error e =>
        rw [hxs] at h
        cases h
      | ok zs =>
        rw [hxs] at h
        cases h
        intro z hz
        rcases List.mem_cons.mp hz with rfl | hz
        · exact ⟨y, by simp, hx⟩
        · obtain ⟨w, hw, hfw⟩ := ih hxs z hz
          exact ⟨w, by simp [hw], hfw⟩

/-- Requests of one accepted kind are evaluated together. -/
theorem batchOutput_of_dims {m : RowModule α} {batch : List (InferenceRequest α)}
    {dims out : List Nat} (hne : batch ≠ []) (hall : AllDims dims batch)
    (hout : m.outDims dims = some out) :
    ∃ y, batchOutput m batch = .ok y ∧ y.dims = out ∧
      y.rows = batch.flatMap fun req => (inputBatch dims req).rows.map (m.row dims) := by
  have hmap : batch.mapM inputTensor
      = .ok ((batch.map (inputBatch dims)).map Tensor.batch) := by
    rw [List.map_map]
    exact mapM_of_ok fun req hm => by
      obtain ⟨r, hr⟩ := hall req hm
      exact (inputTensor_of_dims hr).1
  obtain ⟨req, rest, rfl⟩ := List.exists_cons_of_ne_nil hne
  have hdims (b : Batch α) (hb : b ∈ (req :: rest).map (inputBatch dims)) : b.dims = dims := by
    obtain ⟨q, -, rfl⟩ := List.mem_map.mp hb
    rfl
  obtain ⟨x, hx, hd, hr⟩ := cat_batches (inputBatch dims req) (rest.map (inputBatch dims)) hdims
  obtain ⟨hnone, -⟩ | ⟨out', y, hsome, hy, hyd, hyr⟩ := forward_batch m x
  · rw [hd, hout] at hnone
    cases hnone
  · rw [hd, hout] at hsome
    cases hsome
    refine ⟨y, ?_, hyd, ?_⟩
    · unfold batchOutput
      rw [hmap]
      change (cat _ >>= m.forwardBatch) = _
      rw [List.map_cons, hx]
      exact hy
    · rw [hyr, hr, hd, List.map_flatMap, ← List.map_cons, List.flatMap_map]

/-- Whatever is evaluated together is of one accepted kind. -/
theorem dims_of_batchOutput {m : RowModule α} {batch : List (InferenceRequest α)} {y : Batch α}
    (h : batchOutput m batch = .ok y) :
    ∃ dims out, AllDims dims batch ∧ m.outDims dims = some out := by
  unfold batchOutput at h
  cases hmap : batch.mapM inputTensor with
  | error e =>
    rw [hmap] at h
    cases h
  | ok ts =>
    rw [hmap] at h
    change (cat ts >>= m.forwardBatch) = .ok y at h
    cases hcat : cat ts with
    | error e =>
      rw [hcat] at h
      cases h
    | ok x =>
      rw [hcat] at h
      change m.forwardBatch x = .ok y at h
      obtain ⟨-, hbad⟩ | ⟨out, c, hsome, -⟩ := forward_batch m x
      · rw [hbad] at h
        cases h
      · refine ⟨x.dims, out, fun req hm => ?_, hsome⟩
        obtain ⟨bs, rfl, -, hdims⟩ := cat_eq_ok hcat
        obtain ⟨t, ht, hreq⟩ := exists_of_mapM hmap req hm
        obtain ⟨b, hb, rfl⟩ := List.mem_map.mp ht
        rcases inputTensor_cases req with ⟨-, he⟩ | ⟨-, -, he⟩ | ⟨r, dims, b', hs, he, hd, -⟩
        · rw [he] at hreq
          cases hreq
        · rw [he] at hreq
          cases hreq
        · rw [he] at hreq
          cases hreq
          exact ⟨r, by rw [hs, ← hd, hdims _ hb]⟩

theorem fits_iff {m : RowModule α} {batch : List (InferenceRequest α)} {dims out : List Nat}
    (hne : batch ≠ []) (hall : AllDims dims batch) (hout : m.outDims dims = some out) :
    Fits m batch ↔ chunkSizes batch.length (batch.map rowCount).sum = batch.map rowCount := by
  have hshape : batch.map InferenceRequest.shape
      = (batch.map rowCount).map fun r => (r :: dims).map Int.ofNat := by
    rw [List.map_map]
    refine List.map_congr_left fun req hm => ?_
    obtain ⟨r, hr⟩ := hall req hm
    rw [Function.comp, (inputTensor_of_dims hr).2, hr]
  have hlen : batch.length = (batch.map rowCount).length := by simp
  rw [hlen, chunkSizes_eq_iff (by simpa using hne)]
  constructor
  · rintro ⟨dims', k, c, r, -, hs, hrest⟩
    refine ⟨k, c, r, ?_, hrest⟩
    have hcount := congrArg (List.map fun l : List Int => (l.headD 0).toNat) hs
    rw [List.map_map] at hcount
    change batch.map rowCount = _ at hcount
    rw [hcount]
    simp
  · rintro ⟨k, c, r, hrows, hrest⟩
    refine ⟨dims, k, c, r, by simp [hout], ?_, hrest⟩
    rw [hshape, hrows]
    simp

theorem outcome_deliver (y : Tensor α) (req : InferenceRequest α) (l l' : Nat) :
    (deliver y req l).outcome = (deliver y req l').outcome := by
  unfold deliver Result.outcome
  dsimp only
  split_ifs <;> rfl

theorem shape_outcome_deliver (y : Tensor α) (req : InferenceRequest α) (l : Nat) :
    (deliver y req l).outcome.shape = y.shape.map Int.ofNat := by
  unfold deliver Result.outcome
  dsimp only
  split_ifs <;> rfl

/-- The responses of a batch whose chunks are known. -/
theorem outcomes_of_chunks {batch : List (InferenceRequest α)} {chunks : List (Batch α)}
    (latency : Nat → Nat) :
    (((batch.zip chunks).zipIdx.map fun ((req, chunk), i) =>
      deliver (.batch chunk) req (latency i)).map Result.outcome)
      = (batch.zip chunks).map fun p => (deliver (.batch p.2) p.1 0).outcome := by
  rw [List.map_map]
  have h : (Result.outcome ∘ fun x : (InferenceRequest α × Batch α) × Nat =>
      deliver (.batch x.1.2) x.1.1 (latency x.2))
      = (fun p : InferenceRequest α × Batch α => (deliver (.batch p.2) p.1 0).outcome) ∘ Prod.fst := by
    funext x
    exact outcome_deliver _ _ _ _
  refine (congrArg (List.map · _) h).trans ?_
  rw [← List.map_map]
  congr 1
  exact List.zipIdx_map_fst 0 _

/-- A batch that throws is transparent if all its requests fail alone. -/
theorem transparent_iff_of_error {lib : LibTorch α} {models : String → Option (ModelState α)}
    {st : ModelState α} {id : String} {batch : List (InferenceRequest α)} {e : TorchError}
    (hst : models id = some st) (hid : ∀ req ∈ batch, req.modelId = id) (hne : batch ≠ [])
    (he : batchOutput (st.rowModule lib) batch = .error e) :
    Transparent lib models batch ↔ ∀ req ∈ batch, FailsAlone (st.rowModule lib) req := by
  obtain ⟨first, rest, rfl⟩ := List.exists_cons_of_ne_nil hne
  have hbatch (latency : Nat → Nat) :
      (inferBatch lib models (first :: rest) latency).map (List.map Result.outcome)
        = some ((first :: rest).map rejected) := by
    unfold inferBatch
    dsimp only
    rw [hid first (by simp), hst]
    dsimp only
    rw [he]
    simp [Result.outcome, rejected, lib.what_ne_empty, Function.comp_def]
  unfold Transparent
  simp only [hbatch, Option.some.injEq]
  constructor
  · intro h req hm
    have := List.map_eq_map_iff.mp (h (fun _ => 0) fun _ => 0) req hm
    exact (infer_outcome_eq_rejected (by rw [hid req hm, hst]) _).mp this.symm
  · intro h _ latencyAlone
    refine List.map_congr_left fun req hm => ?_
    exact ((infer_outcome_eq_rejected (by rw [hid req hm, hst]) _).mpr (h req hm)).symm

/-- A batch that is evaluated is transparent if `chunk` cuts it where it was joined. -/
theorem transparent_iff_of_dims {lib : LibTorch α} {models : String → Option (ModelState α)}
    {st : ModelState α} {id : String} {batch : List (InferenceRequest α)} {dims out : List Nat}
    (hst : models id = some st) (hid : ∀ req ∈ batch, req.modelId = id) (hne : batch ≠ [])
    (hall : AllDims dims batch) (hout : (st.rowModule lib).outDims dims = some out) :
    Transparent lib models batch ↔
      chunkSizes batch.length (batch.map rowCount).sum = batch.map rowCount := by
  obtain ⟨y, hy, hyd, hyr⟩ := batchOutput_of_dims hne hall hout
  have hfwd (req : InferenceRequest α) : ∃ c, (st.rowModule lib).forwardBatch (inputBatch dims req)
      = .ok c ∧ c.dims = out ∧ c.rows = (inputBatch dims req).rows.map ((st.rowModule lib).row dims) := by
    obtain ⟨hnone, -⟩ | ⟨out', c, hsome, hc, hd, hr⟩ :=
      forward_batch (st.rowModule lib) (inputBatch dims req)
    · rw [show (inputBatch dims req).dims = dims from rfl, hout] at hnone
      cases hnone
    · rw [show (inputBatch dims req).dims = dims from rfl, hout] at hsome
      cases hsome
      exact ⟨c, hc, hd, hr⟩
  choose f hf hfd hfr using hfwd
  have hflen (req : InferenceRequest α) : (f req).rows.length = rowCount req := by
    simp [hfr, inputBatch]
  have halone (req : InferenceRequest α) (hm : req ∈ batch) (l : Nat) :
      (infer lib models req l).outcome = (deliver (.batch (f req)) req 0).outcome := by
    obtain ⟨r, hr⟩ := hall req hm
    unfold infer
    rw [hid req hm, hst]
    dsimp only
    rw [(inputTensor_of_dims hr).1]
    simp only [bind, Except.bind, RowModule.forward, hf, Except.map]
    exact outcome_deliver _ _ _ _
  have hrows : y.rows.length = (batch.map rowCount).sum := by
    rw [hyr, List.length_flatMap]
    simp [inputBatch]
  have hpos := List.length_pos_iff.mpr hne
  have hle := length_chunkSizes_le hpos (batch.map rowCount).sum
  have hbatch (latency : Nat → Nat) :
      (inferBatch lib models batch latency).map (List.map Result.outcome)
        = if (y.chunk batch.length).length < batch.length then none
          else some ((batch.zip (y.chunk batch.length)).map fun p =>
            (deliver (.batch p.2) p.1 0).outcome) := by
    obtain ⟨first, rest, hcons⟩ := List.exists_cons_of_ne_nil hne
    have hfirst : models first.modelId = some st := by
      rw [hid first (by simp [hcons]), hst]
    unfold inferBatch
    rw [hcons] at hy ⊢
    dsimp only
    rw [hfirst]
    dsimp only
    rw [hy]
    dsimp only
    split_ifs
    · rfl
    · rw [Option.map_some, outcomes_of_chunks]
  have hchunk : (y.chunk batch.length).length
      = (chunkSizes batch.length (batch.map rowCount).sum).length := by
    rw [Batch.chunk, Batch.length_split, hrows]
  unfold Transparent
  simp only [hbatch]
  constructor
  · intro h
    have h := h (fun _ => 0) fun _ => 0
    split_ifs at h with hlt
    rw [Option.some.injEq, List.map_congr_left fun req hm => halone req hm 0] at h
    have hshapes := congrArg (List.map fun o : Outcome α => (o.shape.headD 0).toNat) h
    have hzip : (batch.zip (y.chunk batch.length)).map Prod.snd = y.chunk batch.length :=
      List.map_snd_zip (by omega)
    have hsnd := congrArg (List.map fun c : Batch α => c.rows.length) hzip
    rw [List.map_map] at hsnd
    have hleft : (batch.zip (y.chunk batch.length)).map (fun p => p.2.rows.length)
        = batch.map rowCount := by
      rw [List.map_map, List.map_map] at hshapes
      have hcounts : batch.map rowCount = batch.map fun req => (f req).rows.length :=
        List.map_congr_left fun req _ => (hflen req).symm
      rw [hcounts]
      simpa only [Function.comp_def, shape_outcome_deliver, Tensor.shape, List.map_cons,
        List.headD_cons, Int.ofNat_eq_natCast, Int.toNat_natCast] using hshapes
    have hsizes : (y.chunk batch.length).map (fun c => c.rows.length)
        = chunkSizes batch.length y.rows.length :=
      y.rows_length_split (sum_chunkSizes hpos _).le
    rw [← hrows, ← hsizes, ← hsnd]
    exact hleft
  · intro h _ latencyAlone
    have hcut : y.chunk batch.length = batch.map f := by
      have hcounts : batch.map rowCount = batch.map fun req => (f req).rows.length :=
        List.map_congr_left fun req _ => (hflen req).symm
      rw [Batch.chunk, hrows, h, hcounts]
      refine Batch.split_flatMap f batch hyd (fun req _ => hfd req) ?_
      simpa only [hfr] using hyr
    rw [if_neg (by rw [hcut]; simp), hcut, ← List.map_prod_left_eq_zip, List.map_map]
    congr 1
    exact List.map_congr_left fun req hm => (halone req hm _).symm

/-- For requests of one loaded model, batching changes nothing exactly when every request fails
alone or the row counts are such that `chunk` cuts the output where the inputs were joined. -/
theorem transparent_iff (lib : LibTorch α) {models : String → Option (ModelState α)}
    {st : ModelState α} (id : String) {batch : List (InferenceRequest α)}
    (hst : models id = some st) (hid : ∀ req ∈ batch, req.modelId = id) :
    Transparent lib models batch ↔
      (∀ req ∈ batch, FailsAlone (st.rowModule lib) req) ∨ Fits (st.rowModule lib) batch := by
  by_cases hne : batch = []
  · subst hne
    exact iff_of_true (fun _ _ => rfl) (.inl (by simp))
  cases hout : batchOutput (st.rowModule lib) batch with
  | error e =>
    rw [transparent_iff_of_error hst hid hne hout, or_iff_left]
    rintro ⟨dims, k, c, r, hacc, hs, -⟩
    obtain ⟨out, ho⟩ := Option.ne_none_iff_exists'.mp hacc
    have hall : AllDims dims batch := by
      intro req hm
      have hmem : req.shape ∈ batch.map InferenceRequest.shape := List.mem_map_of_mem hm
      rw [hs] at hmem
      obtain ⟨l, hl, hl'⟩ := List.mem_map.mp hmem
      rcases List.mem_append.mp hl with hl | hl
      · exact ⟨c, by rw [← hl', List.eq_of_mem_replicate hl]⟩
      · exact ⟨r, by rw [← hl', List.mem_singleton.mp hl]⟩
    obtain ⟨y, hy, -⟩ := batchOutput_of_dims hne hall ho
    rw [hout] at hy
    cases hy
  | ok y =>
    obtain ⟨dims, out, hall, ho⟩ := dims_of_batchOutput hout
    rw [transparent_iff_of_dims hst hid hne hall ho, ← fits_iff hne hall ho, or_iff_right]
    intro hfail
    obtain ⟨req, hm⟩ := List.exists_mem_of_ne_nil batch hne
    obtain ⟨r, hr⟩ := hall req hm
    have hnat : req.shape.map Int.toNat = r :: dims := by
      rw [hr, List.map_map]
      exact List.map_id _
    rcases hfail req hm with ⟨d, hd, hlt⟩ | hf
    · rw [hr] at hd
      obtain ⟨n, -, rfl⟩ := List.mem_map.mp hd
      exact absurd hlt (by simp)
    · rw [hnat] at hf
      change (st.rowModule lib).outDims dims = none at hf
      rw [ho] at hf
      cases hf

/-- Whole numbers in place of floats, and a model without a module. -/
def wholeLib : LibTorch Int := ⟨fun _ => "error", by simp, fun x => max (x * 2 + 1) 0⟩

def noModule : String → Option (ModelState Int) :=
  fun modelId => if modelId = "m" then some ⟨false, .pointwise id⟩ else none

/-- A request for one-dimensional data. -/
def vector (xs : List Int) (buffer : Nat) : InferenceRequest Int where
  modelId := "m"
  shape := [xs.length]
  input := ⟨fun i => xs.getD i 0, xs.length⟩
  outputBuffer := List.replicate buffer 0

theorem transparent_iff_two_one :
    Transparent wholeLib noModule [vector [10, 20] 2, vector [30] 1] := by
  refine (transparent_iff wholeLib "m" rfl (by simp [vector])).mpr (.inr ?_)
  exact ⟨[], 1, 2, 1, by decide, rfl, by decide, by decide, .inl le_rfl⟩

/-- One row and three rows are cut into two and two: the first request is answered with a value
computed from the second one's input, and both with `ok`. -/
theorem chunk_mixes_requests :
    let batch := [vector [10] 2, vector [20, 30, 40] 3]
    (∀ req ∈ batch, req.shape.prod = req.input.size) ∧
    (inferBatch wholeLib noModule batch fun _ => 0).map (List.map Result.outcome)
      = some [⟨true, false, [2], 2, [21, 41]⟩, ⟨true, false, [2], 2, [61, 81, 0]⟩] ∧
    (infer wholeLib noModule (vector [10] 2) 0).outcome = ⟨true, false, [1], 1, [21, 0]⟩ ∧
    ¬ Transparent wholeLib noModule batch := by
  refine ⟨by decide, rfl, rfl, fun h => ?_⟩
  exact absurd (h (fun _ => 0) fun _ => 0) (by decide)

end TorchBackend

end Jellybean.Inference
