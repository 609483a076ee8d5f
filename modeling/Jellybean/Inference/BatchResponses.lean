import Jellybean.Inference.TorchBackend

namespace Jellybean.Inference

variable {α : Type*}

namespace TorchBackend

/-- What the loop over the chunks meets: an exception before the shape is stored, one from
`data_ptr<float>()`, or a chunk of floats. -/
inductive Piece (α : Type*) where
  | raises (what : String)
  | unreadable (shape : List Nat) (what : String)
  | readable (chunk : Tensor α)

/-- One turn of the loop, and the text of the exception that ends it. -/
def Piece.deliver (piece : Piece α) (req : InferenceRequest α) (latencyNs : Nat) :
    Result α × Option String :=
  match piece with
  | .raises what => (⟨{}, req.outputBuffer⟩, some what)
  | .unreadable shape what =>
    if shape.prod > req.outputBuffer.length then
      (⟨{ error := "output buffer too small", shape := shape.map Int.ofNat, latencyNs },
        req.outputBuffer⟩, none)
    else (⟨{ shape := shape.map Int.ofNat }, req.outputBuffer⟩, some what)
  | .readable chunk => (TorchBackend.deliver chunk req latencyNs, none)

/-- The loop over the chunks from index `i` on. After an exception the remaining responses stay
as they were made. -/
def fillResponses (latencyNs : Nat → Nat) :
    Nat → List (InferenceRequest α × Piece α) → List (Result α) × Option String
  | _, [] => ([], none)
  | i, (req, piece) :: rest =>
    match piece.deliver req (latencyNs i) with
    | (r, some what) => (r :: rest.map fun p => ⟨{}, p.1.outputBuffer⟩, some what)
    | (r, none) =>
      let (rs, what) := fillResponses latencyNs (i + 1) rest
      (r :: rs, what)

/-- The handlers write the text over the error of every response. -/
def setError (what : String) (r : Result α) : Result α :=
  { r with response := { r.response with error := what } }

/-- `infer_batch` with all that LibTorch decides left open: `torch` is the text of an exception
before the loop, or the chunks. `none` stands for `chunks[i]` beyond the end. -/
def inferBatchRaising (loaded : Bool) (torch : Except String (List (Piece α)))
    (batch : List (InferenceRequest α)) (latencyNs : Nat → Nat) : Option (List (Result α)) :=
  match batch with
  | [] => some []
  | first :: _ =>
    if loaded = false then some (batch.map fun req =>
      ⟨{ error := "model not loaded: " ++ first.modelId }, req.outputBuffer⟩)
    else
      match torch with
      | .error what => some (batch.map fun req => ⟨{ error := what }, req.outputBuffer⟩)
      | .ok pieces =>
        if pieces.length < batch.length then none
        else
          match fillResponses latencyNs 0 (batch.zip pieces) with
          | (rs, none) => some rs
          | (rs, some what) => some (rs.map (setError what))

/-- Without an exception in the loop it only delivers. -/
theorem fillResponses_readable (latencyNs : Nat → Nat) (i : Nat)
    (xs : List (InferenceRequest α × Batch α)) :
    fillResponses latencyNs i (xs.map fun p => (p.1, .readable (.batch p.2))) =
      ((xs.zipIdx i).map fun p => deliver (.batch p.1.2) p.1.1 (latencyNs p.2), none) := by
  induction xs generalizing i with
  | nil => rfl
  | cons x xs ih =>
    rw [List.map_cons, fillResponses, Piece.deliver, ih (i + 1), List.zipIdx_cons, List.map_cons]

/-- `infer_batch` of a row-wise model is the case of chunks that can all be read. -/
theorem inferBatch_eq_raising (lib : LibTorch α) (models : String → Option (ModelState α))
    (batch : List (InferenceRequest α)) (latencyNs : Nat → Nat) :
    ∃ loaded torch, inferBatch lib models batch latencyNs =
      inferBatchRaising loaded torch batch latencyNs := by
  cases batch with
  | nil => exact ⟨true, .ok [], rfl⟩
  | cons first rest =>
    cases hmodel : models first.modelId with
    | none =>
      refine ⟨false, .ok [], ?_⟩
      simp [inferBatch, inferBatchRaising, hmodel]
    | some st =>
      cases hout : batchOutput (st.rowModule lib) (first :: rest) with
      | error e =>
        refine ⟨true, .error (lib.what e), ?_⟩
        simp [inferBatch, inferBatchRaising, hmodel, hout]
      | ok y =>
        refine ⟨true, .ok ((y.chunk (first :: rest).length).map fun c => .readable (.batch c)), ?_⟩
        have hzip : (first :: rest).zip
              ((y.chunk (first :: rest).length).map fun c => Piece.readable (.batch c)) =
            ((first :: rest).zip (y.chunk (first :: rest).length)).map
              fun p => (p.1, .readable (.batch p.2)) := by
          rw [List.zip_map_right]
          rfl
        unfold inferBatch inferBatchRaising
        simp only [hmodel, hout, List.length_map, Bool.true_eq_false, if_false, hzip,
          fillResponses_readable]

/-- Elements are reported only with `ok`, and no more than the output buffer has. -/
def Within (bound : Nat) (v : InferenceResponse) : Prop :=
  v.outputElemsWritten < 2^32 ∧
    (0 < v.outputElemsWritten → v.ok = true ∧ v.outputElemsWritten ≤ bound)

theorem within_of_none {v : InferenceResponse} (bound : Nat) (h : v.outputElemsWritten = 0) :
    Within bound v := by
  simp [Within, h]

theorem within_deliver (y : Tensor α) (req : InferenceRequest α) (latencyNs : Nat) :
    Within req.outputBuffer.length (deliver y req latencyNs).response := by
  unfold deliver
  split
  · exact within_of_none _ rfl
  · next h =>
    refine ⟨Nat.mod_lt _ (by decide), ?_⟩
    intro _
    exact ⟨rfl, Nat.le_trans (Nat.mod_le _ _) (Nat.le_of_not_lt h)⟩

theorem within_piece (piece : Piece α) (req : InferenceRequest α) (latencyNs : Nat) :
    Within req.outputBuffer.length (piece.deliver req latencyNs).1.response := by
  cases piece with
  | raises what => exact within_of_none _ rfl
  | unreadable shape what =>
    unfold Piece.deliver
    dsimp only
    split
    · exact within_of_none _ rfl
    · exact within_of_none _ rfl
  | readable chunk => exact within_deliver chunk req latencyNs

/-- Wherever the loop ends, the responses filled so far and the untouched ones are within. -/
theorem within_fillResponses (latencyNs : Nat → Nat) (i : Nat)
    (xs : List (InferenceRequest α × Piece α)) :
    List.Forall₂ (fun p r => Within p.1.outputBuffer.length r.response) xs
      (fillResponses latencyNs i xs).1 := by
  induction xs generalizing i with
  | nil => exact .nil
  | cons x xs ih =>
    have hfirst := within_piece x.2 x.1 (latencyNs i)
    rw [fillResponses]
    split
    · next r what heq =>
      rw [heq] at hfirst
      refine .cons hfirst ?_
      rw [List.forall₂_map_right_iff, List.forall₂_same]
      intro p _
      exact within_of_none _ rfl
    · next r heq =>
      rw [heq] at hfirst
      exact .cons hfirst (ih (i + 1))

theorem within_inferBatchRaising {loaded : Bool} {torch : Except String (List (Piece α))}
    {batch : List (InferenceRequest α)} {latencyNs : Nat → Nat} {rs : List (Result α)}
    (h : inferBatchRaising loaded torch batch latencyNs = some rs) :
    List.Forall₂ (fun req r => Within req.outputBuffer.length r.response) batch rs := by
  have hnone : ∀ text : String, List.Forall₂
      (fun req r => Within req.outputBuffer.length r.response) batch
      (batch.map fun req => (⟨{ error := text }, req.outputBuffer⟩ : Result α)) := by
    intro text
    rw [List.forall₂_map_right_iff, List.forall₂_same]
    intro req _
    exact within_of_none _ rfl
  unfold inferBatchRaising at h
  cases batch with
  | nil =>
    cases h
    exact .nil
  | cons first rest =>
    dsimp only at h
    split at h
    · cases h
      exact hnone _
    · cases torch with
      | error what =>
        cases h
        exact hnone _
      | ok pieces =>
        dsimp only at h
        split at h
        · cases h
        · next hlen =>
          have hfill := within_fillResponses latencyNs 0 ((first :: rest).zip pieces)
          have hreqs : ((first :: rest).zip pieces).map Prod.fst = first :: rest :=
            List.map_fst_zip (Nat.le_of_not_lt hlen)
          split at h
          · next rs' heq =>
            cases h
            rw [heq] at hfill
            rw [← hreqs, List.forall₂_map_left_iff]
            exact hfill
          · next rs' what heq =>
            cases h
            rw [heq] at hfill
            rw [← hreqs, List.forall₂_map_left_iff, List.forall₂_map_right_iff]
            exact hfill

/-! The same for any relation of requests to results that the two ways to make a result have. -/

section Results

variable {P : InferenceRequest α → Result α → Prop}

theorem results_fillResponses (huntouched : ∀ req v, P req ⟨v, req.outputBuffer⟩)
    (hdeliver : ∀ y req latencyNs, P req (deliver y req latencyNs)) (latencyNs : Nat → Nat) (i : Nat)
    (xs : List (InferenceRequest α × Piece α)) :
    List.Forall₂ (fun p r => P p.1 r) xs (fillResponses latencyNs i xs).1 := by
  induction xs generalizing i with
  | nil => exact .nil
  | cons x xs ih =>
    have hfirst : P x.1 (x.2.deliver x.1 (latencyNs i)).1 := by
      cases x.2 with
      | raises what => exact huntouched _ _
      | unreadable shape what =>
        unfold Piece.deliver
        dsimp only
        split
        · exact huntouched _ _
        · exact huntouched _ _
      | readable chunk => exact hdeliver chunk x.1 (latencyNs i)
    rw [fillResponses]
    split
    · next r what heq =>
      rw [heq] at hfirst
      refine .cons hfirst ?_
      rw [List.forall₂_map_right_iff, List.forall₂_same]
      intro p _
      exact huntouched _ _
    · next r heq =>
      rw [heq] at hfirst
      exact .cons hfirst (ih (i + 1))

theorem results_inferBatchRaising (huntouched : ∀ req v, P req ⟨v, req.outputBuffer⟩)
    (hdeliver : ∀ y req latencyNs, P req (deliver y req latencyNs))
    (herror : ∀ req what r, P req r → P req (setError what r)) {loaded : Bool}
    {torch : Except String (List (Piece α))} {batch : List (InferenceRequest α)}
    {latencyNs : Nat → Nat} {rs : List (Result α)}
    (h : inferBatchRaising loaded torch batch latencyNs = some rs) : List.Forall₂ P batch rs := by
  have hall (text : String) : List.Forall₂ P batch
      (batch.map fun req => (⟨{ error := text }, req.outputBuffer⟩ : Result α)) := by
    rw [List.forall₂_map_right_iff, List.forall₂_same]
    intro req _
    exact huntouched _ _
  unfold inferBatchRaising at h
  cases batch with
  | nil =>
    cases h
    exact .nil
  | cons first rest =>
    dsimp only at h
    split at h
    · cases h
      exact hall _
    · cases torch with
      | error what =>
        cases h
        exact hall _
      | ok pieces =>
        dsimp only at h
        split at h
        · cases h
        · next hlen =>
          have hfill := results_fillResponses huntouched hdeliver latencyNs 0
            ((first :: rest).zip pieces)
          have hreqs : ((first :: rest).zip pieces).map Prod.fst = first :: rest :=
            List.map_fst_zip (Nat.le_of_not_lt hlen)
          rw [← hreqs, List.forall₂_map_left_iff]
          split at h
          · next rs' heq =>
            cases h
            rw [heq] at hfill
            exact hfill
          · next rs' what heq =>
            cases h
            rw [heq] at hfill
            rw [List.forall₂_map_right_iff]
            apply hfill.imp
            intro p r hr
            exact herror p.1 what r hr

end Results

/-- The output buffers keep their lengths. -/
theorem length_outputBuffer_inferBatchRaising {loaded : Bool}
    {torch : Except String (List (Piece α))} {batch : List (InferenceRequest α)}
    {latencyNs : Nat → Nat} {rs : List (Result α)}
    (h : inferBatchRaising loaded torch batch latencyNs = some rs) :
    List.Forall₂ (fun req r => r.outputBuffer.length = req.outputBuffer.length) batch rs := by
  apply results_inferBatchRaising _ _ _ h
  · intro req v
    rfl
  · intro y req latencyNs
    unfold deliver
    split
    · rfl
    · next hle =>
      simp only [List.length_append, List.length_drop, y.length_data]
      omega
  · intro req what r hr
    exact hr

end TorchBackend

end Jellybean.Inference
