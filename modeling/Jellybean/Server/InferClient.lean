import Jellybean.Server.WireProtocol

namespace Jellybean.Server.InferClient

/-- The command line of `infer_client.py`, with the model id in UTF-8. -/
structure Arguments where
  shape : List Int
  requests : Nat
  model : List UInt8

inductive ClientError where
  | invalidShape
  | modelIdTooLong
  /-- `struct.error`: the number of elements is no unsigned integer of four bytes. -/
  | pack
  deriving DecidableEq

def numElems (shape : List Int) : Int := shape.foldl (· * ·) 1

/-- `payload_bytes`; `bits k` is `k * 0.01` as a `float32`. -/
def payloadBytes (bits : Nat → UInt32) (n : Nat) : List UInt8 :=
  (List.range n).flatMap fun i => leBytes 4 (bits (i % 113)).toNat

/-- What one turn of the loop hands to `send_all`, one after the other. -/
def buffers (bits : Nat → UInt32) (args : Arguments) : Except ClientError (List (List UInt8)) :=
  if args.shape = [] ∨ ∃ d ∈ args.shape, d ≤ 0 then .error .invalidShape
  else
    let inputElems := (numElems args.shape).toNat
    if args.model.length > 255 then .error .modelIdTooLong
    else if 2^32 ≤ inputElems then .error .pack
    else .ok [leBytes 1 args.model.length ++ args.model, leBytes 4 inputElems,
      payloadBytes bits inputElems]

theorem length_payloadBytes (bits : Nat → UInt32) (n : Nat) :
    (payloadBytes bits n).length = 4 * n := by
  rw [payloadBytes, List.length_flatMap]
  simp only [length_leBytes, List.map_const', List.length_range, List.sum_replicate_nat]
  omega

theorem numElems_pos {shape : List Int} (h : ∀ d ∈ shape, 0 < d) : 0 < numElems shape := by
  have key : ∀ (shape : List Int) (n : Int), 0 < n → (∀ d ∈ shape, 0 < d) →
      0 < shape.foldl (· * ·) n := by
    intro shape
    induction shape with
    | nil =>
      intro n hn _
      exact hn
    | cons d shape ih =>
      intro n hn hd
      exact ih (n * d) (Int.mul_pos hn (hd d (by simp))) fun e he => hd e (by simp [he])
  exact key shape 1 Int.one_pos h

/-- A turn of the loop sends a well-formed request, as long as the server's limit is kept. -/
theorem exists_frame {bits : Nat → UInt32} {args : Arguments} {bufs : List (List UInt8)}
    (h : buffers bits args = .ok bufs) (hmax : (numElems args.shape).toNat ≤ maxElems) :
    ∃ f : Frame, bufs.flatten = f.encode ∧ f.modelId = args.model ∧
      f.inputElems = (numElems args.shape).toNat ∧ 0 < f.inputElems := by
  unfold buffers at h
  dsimp only at h
  split_ifs at h with hshape hlong hpack
  cases h
  have hpos : ∀ d ∈ args.shape, 0 < d := by
    intro d hd
    by_contra hle
    exact hshape (.inr ⟨d, hd, by omega⟩)
  have hmodel : args.model.length < 256 := by omega
  have hlen := length_payloadBytes bits (numElems args.shape).toNat
  refine ⟨⟨⟨args.model, (numElems args.shape).toNat, payloadBytes bits (numElems args.shape).toNat⟩,
    hmodel, hmax, hlen⟩, ?_, rfl, rfl, ?_⟩
  · simp [Frame.encode]
  · have := numElems_pos hpos
    dsimp only
    omega

end Jellybean.Server.InferClient
