import Jellybean.Framework.CrcDistance
import Jellybean.Proto.FrameCorruption
import Mathlib.NumberTheory.LucasLehmer

namespace Jellybean.Proto

open Polynomial
open Server (leNat)

variable {path path' : CrcPath} {buffer buffer' payload data bytes : List UInt8}

/-- The bits of a string of bytes in the order in which the checksum takes them. -/
def bitsOfBytes (bytes : List UInt8) : List Bool := bytes.flatMap fun byte => bitsOf byte.toBitVec

/-- The number of bits in which two strings of bytes differ. -/
def distance (bytes bytes' : List UInt8) : Nat :=
  (Crc.errors (bitsOfBytes bytes) (bitsOfBytes bytes')).count true

/-- The header, the payload and the stored checksum; the padding is left out. -/
def protectedBytes (buffer : List UInt8) : List UInt8 :=
  buffer.take (headerSize + announced buffer) ++
    slice buffer (layoutForPayload (announced buffer)).crcOffset crcSize

theorem length_bitsOfBytes (bytes : List UInt8) : (bitsOfBytes bytes).length = 8 * bytes.length :=
  length_flatMap_bitsOf bytes

theorem bitsOfBytes_append (bytes rest : List UInt8) :
    bitsOfBytes (bytes ++ rest) = bitsOfBytes bytes ++ bitsOfBytes rest :=
  List.flatMap_append

/-- The bytes of an integer hold its bits in order. -/
theorem bitsOfBytes_eq (bytes : List UInt8) :
    bitsOfBytes bytes = (List.range (8 * bytes.length)).map (leNat bytes).testBit := by
  induction bytes with
  | nil => rfl
  | cons b bytes ih =>
    have hcons : bitsOfBytes (b :: bytes) = bitsOf b.toBitVec ++ bitsOfBytes bytes := rfl
    have hb : b.toNat < 2^8 := b.toNat_lt
    have hval : leNat (b :: bytes) = 2^8 * leNat bytes + b.toNat := by
      rw [leNat]
      omega
    rw [hcons, ih, List.length_cons, Nat.mul_add, Nat.add_comm, List.range_add, List.map_append,
      List.map_map, hval]
    congr 1
    · apply List.map_congr_left
      intro i hi
      rw [Nat.testBit_two_pow_mul_add _ hb, if_pos (List.mem_range.mp hi)]
      rfl
    · apply List.map_congr_left
      intro i _
      rw [Function.comp_apply, Nat.testBit_two_pow_mul_add _ hb, if_neg (by omega),
        Nat.add_sub_cancel_left]

theorem bitsOfBytes_checksum (h : bytes.length = 4) :
    bitsOfBytes bytes = bitsOf (UInt32.ofNat (leNat bytes)).toBitVec := by
  rw [bitsOfBytes_eq, h, bitsOf]
  apply List.map_congr_left
  intro i hi
  have hi := List.mem_range.mp hi
  show _ = (BitVec.ofNat 32 (leNat bytes)).getLsbD i
  rw [BitVec.getLsbD_ofNat, decide_eq_true (show i < 32 by omega), Bool.true_and]

theorem not_eq_xor (c : UInt32) : ~~~c = c ^^^ 0xFFFFFFFF := by
  apply UInt32.toBitVec_inj.mp
  exact (BitVec.xor_allOnes).symm

noncomputable section

theorem message_bitsOf (c : UInt32) : residueOf (Crc.message (bitsOf c.toBitVec)) = residue c := by
  have hmessage : Crc.message (bitsOf c.toBitVec) = Crc.reflected c.toBitVec := by
    rw [Crc.message, bitsOf, List.length_map, List.length_range]
    apply Crc.reflectedBits_congr
    intro i hi
    simp [hi]
  rw [hmessage, residue]

/-- What the protected bits of a frame amount to depends on its length only. -/
theorem residueOf_message (hv : (parseFrame path buffer).valid = true) :
    residueOf (Crc.message (bitsOfBytes (protectedBytes buffer))) =
      residueOf (X ^ (8 * (32 + announced buffer))) * residue 0xFFFFFFFF + residue 0xFFFFFFFF := by
  obtain ⟨-, -, hfit, hcrc⟩ := (parseFrame_valid_iff path buffer).mp hv
  have hle := le_roundUp (x := announced buffer) (a := 8) (by decide)
  set wire := slice buffer (32 + roundUp (announced buffer) 8) 4 with hwire
  have hlen : wire.length = 4 := by
    rw [hwire, slice, List.length_take, List.length_drop]
    omega
  have hprotected : protectedBytes buffer = buffer.take (32 + announced buffer) ++ wire := by
    rw [protectedBytes, layoutForPayload_eq (announced_lt buffer)]
    rfl
  have hcovered : (buffer.take (32 + announced buffer)).length = 32 + announced buffer := by
    rw [List.length_take]
    omega
  -- the register before the final complement
  have hstate : (bitsOfBytes (buffer.take (32 + announced buffer))).foldl crc32cFeed 0xFFFFFFFF =
      .ofNat (leNat wire) ^^^ 0xFFFFFFFF := by
    rw [crc32c_eq, crc32cBitwise] at hcrc
    rw [← hcrc, ← not_eq_xor, UInt32.not_not]
    rfl
  have hresidue := congrArg residue hstate
  have htwo : (2 : AdjoinRoot (Crc.generator crc32cPolynomial.toBitVec)) = 0 := by
    have h : residueOf 2 = residueOf 0 := congrArg residueOf CharTwo.two_eq_zero
    rwa [map_ofNat, map_zero] at h
  rw [residue_foldl_crc32cFeed, residue_xor, length_bitsOfBytes, hcovered] at hresidue
  rw [hprotected, bitsOfBytes_append, Crc.message_append, length_bitsOfBytes, hlen,
    bitsOfBytes_checksum hlen, map_add, message_bitsOf, map_mul, Crc.message, length_bitsOfBytes,
    hcovered]
  linear_combination hresidue + (residue (.ofNat (leNat wire)) -
    residueOf (X ^ (8 * (32 + announced buffer))) * residue 0xFFFFFFFF) * htwo

/-! The powers of `X` modulo the polynomial of CRC-32C return to one after `2^31 - 1` steps. -/

theorem squares_return :
    (fun c => Crc.mulMod crc32cPolynomial.toBitVec c c)^[31] (BitVec.twoPow 32 30) =
      BitVec.twoPow 32 30 := by
  decide +kernel

theorem residueOf_X_pow : residueOf X ^ (2^31 - 1) = 1 := by
  have hX : Crc.residue crc32cPolynomial.toBitVec (BitVec.twoPow 32 30) = residueOf X := by
    rw [Crc.residue, Crc.reflected_twoPow (by decide), residueOf]
    norm_num
  have hsquares := Crc.residue_iterate_square (p := crc32cPolynomial.toBitVec) (n := 31) rfl
    (BitVec.twoPow 32 30) 31
  rw [squares_return, hX] at hsquares
  apply isUnit_residueOf_X.mul_left_cancel
  rw [← pow_succ', mul_one]
  exact hsquares.symm

theorem prime_order : (2^31 - 1).Prime := lucas_lehmer_sufficiency 31 (by norm_num) (by norm_num)

theorem eval_generator : (Crc.generator crc32cPolynomial.toBitVec).eval 1 = 0 := by
  have hmessage : Crc.reflected crc32cPolynomial.toBitVec =
      Crc.message (bitsOf crc32cPolynomial.toBitVec) := by
    rw [Crc.message, bitsOf, List.length_map, List.length_range]
    apply Crc.reflectedBits_congr
    intro i hi
    simp [hi]
  rw [Crc.generator, hmessage, eval_add, Crc.eval_message, eval_pow, eval_X, one_pow]
  decide +kernel

/-- The differing protected bits of two frames of one length, as a message. -/
theorem residueOf_errors (hv : (parseFrame path buffer).valid = true)
    (hv' : (parseFrame path' buffer').valid = true) (hn : announced buffer' = announced buffer)
    (hlen : (protectedBytes buffer).length = (protectedBytes buffer').length) :
    residueOf (Crc.message (Crc.errors (bitsOfBytes (protectedBytes buffer))
      (bitsOfBytes (protectedBytes buffer')))) = 0 := by
  have hbits : (bitsOfBytes (protectedBytes buffer)).length =
      (bitsOfBytes (protectedBytes buffer')).length := by
    rw [length_bitsOfBytes, length_bitsOfBytes, hlen]
  have htwo : residueOf (2 : (ZMod 2)[X]) = residueOf 0 := congrArg residueOf CharTwo.two_eq_zero
  rw [map_ofNat, map_zero] at htwo
  rw [Crc.message_errors hbits, map_add, residueOf_message hv, residueOf_message hv', hn]
  linear_combination (residueOf (X ^ (8 * (32 + announced buffer))) * residue 0xFFFFFFFF +
    residue 0xFFFFFFFF) * htwo

end

theorem length_protectedBytes (hv : (parseFrame path buffer).valid = true) :
    (protectedBytes buffer).length = 36 + announced buffer := by
  obtain ⟨-, -, hfit, -⟩ := (parseFrame_valid_iff path buffer).mp hv
  have hle := le_roundUp (x := announced buffer) (a := 8) (by decide)
  rw [protectedBytes, layoutForPayload_eq (announced_lt buffer)]
  simp only [headerSize, crcSize, slice, List.length_append, List.length_take, List.length_drop]
  omega

/-- The valid frames of one payload length are the words of a linear code. -/
theorem valid_distance (hv : (parseFrame path buffer).valid = true)
    (hv' : (parseFrame path' buffer').valid = true) (hn : announced buffer' = announced buffer) :
    Even (distance (protectedBytes buffer) (protectedBytes buffer')) ∧
      (8 * (36 + announced buffer) < 2^31 →
        0 < distance (protectedBytes buffer) (protectedBytes buffer') →
          4 ≤ distance (protectedBytes buffer) (protectedBytes buffer')) := by
  have hlen := length_protectedBytes hv
  have hlen' := length_protectedBytes hv'
  have hzero := residueOf_errors hv hv' hn (by rw [hlen, hlen', hn])
  refine ⟨Crc.even_count eval_generator hzero, ?_⟩
  intro hsize hpos
  have hbound : (Crc.errors (bitsOfBytes (protectedBytes buffer))
      (bitsOfBytes (protectedBytes buffer'))).length ≤ 2^31 - 1 := by
    rw [Crc.errors, List.length_zipWith, length_bitsOfBytes, hlen]
    omega
  refine Crc.four_le_count (Crc.coeff_zero_generator (n := 31) rfl (by decide)) eval_generator ?_
    hbound hzero (List.count_pos_iff.mp hpos)
  intro d hd hlt
  exact Crc.X_pow_ne_one prime_order (by decide) residueOf_X_pow hd hlt

/-- Besides bursts, CRC-32C finds every odd number of flipped bits, and every two of them as long
as the frame is shorter than the period of its polynomial. -/
theorem flips_detected (writer reader : CrcPath) (buffer : List UInt8) (type : MessageType)
    (flags : UInt16) (actorId messageId : UInt64) (payload : List UInt8)
    (hout : (encodeFrame writer buffer type flags actorId messageId payload).1 ≠ 0)
    (modified : List UInt8) :
    let frame := encodedFrame writer buffer type flags actorId messageId payload
    let flipped := distance (protectedBytes frame) (protectedBytes modified)
    slice modified 12 4 = slice frame 12 4 →
    (Odd flipped ∨ flipped = 2 ∧ 8 * (36 + payload.length) < 2^31) →
    (parseFrame reader modified).valid = false := by
  intro frame flipped hlength hflipped
  have hvalid : (parseFrame reader frame).valid = true := by
    rw [parseFrame_encodedFrame hout]
  have hn : announced frame = payload.length := announced_encodedFrame hout
  rw [← Bool.not_eq_true]
  intro hmodified
  obtain ⟨heven, hfour⟩ := valid_distance hvalid hmodified (announced_congr hlength)
  rcases hflipped with hodd | ⟨htwo, hsize⟩
  · exact Nat.not_even_iff_odd.mpr hodd heven
  · have hge := hfour (hn.symm ▸ hsize) (by omega)
    omega

theorem flips_detected_hello :
    let frame := encodedFrame .sse42 (List.replicate 48 0xAB) .actorMessage 3 7 9 hello
    (parseFrame .software (flipBit (flipBit frame 16 0) 41 7)).valid = false := by
  intro frame
  exact flips_detected .sse42 .software (List.replicate 48 0xAB) .actorMessage 3 7 9 hello
    (by decide +kernel) (flipBit (flipBit frame 16 0) 41 7) (by decide +kernel)
    (.inr ⟨by decide +kernel, by decide +kernel⟩)

end Jellybean.Proto
