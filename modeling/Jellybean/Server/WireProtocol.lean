import Mathlib.Tactic

namespace Jellybean.Server

/-- Little-endian bytes of an integer of `k` bytes. -/
def leBytes : Nat → Nat → List UInt8
  | 0, _ => []
  | k + 1, n => UInt8.ofNat n :: leBytes k (n / 256)

/-- The integer whose little-endian bytes are given. -/
def leNat : List UInt8 → Nat
  | [] => 0
  | b :: bs => b.toNat + 256 * leNat bs

@[simp] theorem length_leBytes (k n : Nat) : (leBytes k n).length = k := by
  induction k generalizing n with
  | zero => rfl
  | succ k ih => simp [leBytes, ih]

theorem leNat_leBytes (k n : Nat) : leNat (leBytes k n) = n % 256 ^ k := by
  induction k generalizing n with
  | zero => simp [leBytes, leNat, Nat.mod_one]
  | succ k ih =>
    have hb : (UInt8.ofNat n).toNat = n % 256 := by simp
    rw [leBytes, leNat, ih, hb, pow_succ', Nat.mod_mul]

theorem leNat_lt (bs : List UInt8) : leNat bs < 256 ^ bs.length := by
  induction bs with
  | nil => simp [leNat]
  | cons b bs ih =>
    have := b.toNat_lt
    rw [leNat, List.length_cons, pow_succ']
    omega

def maxElems : Nat := 100000000

theorem one_le_maxElems : 1 ≤ maxElems := by decide

/-- A decoded request; the payload is `4 * inputElems` bytes of `float32`. -/
structure Request where
  modelId : List UInt8
  inputElems : Nat
  payload : List UInt8
  deriving DecidableEq

/-- A well-formed request frame. -/
structure Frame extends Request where
  modelId_lt : modelId.length < 256
  inputElems_le : inputElems ≤ maxElems
  payload_length : payload.length = 4 * inputElems

def Frame.encode (f : Frame) : List UInt8 :=
  leBytes 1 f.modelId.length ++ f.modelId ++ leBytes 4 f.inputElems ++ f.payload

def encodeAll (fs : List Frame) : List UInt8 := (fs.map Frame.encode).flatten

/-- The number of bytes a request takes on the wire. -/
def Request.size (r : Request) : Nat := 1 + r.modelId.length + 4 + 4 * r.inputElems

theorem Frame.length_encode (f : Frame) : f.encode.length = f.toRequest.size := by
  simp only [Frame.encode, List.length_append, length_leBytes, f.payload_length, Request.size]

theorem length_encodeAll (fs : List Frame) :
    (encodeAll fs).length = (fs.map fun f => f.toRequest.size).sum := by
  simp only [encodeAll, List.length_flatten, List.map_map]
  congr 1
  exact List.map_congr_left fun f _ => f.length_encode

end Jellybean.Server
