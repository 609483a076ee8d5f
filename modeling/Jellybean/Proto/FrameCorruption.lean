import Jellybean.Proto.Crc32cAgreement
import Jellybean.Proto.FrameEffects

namespace Jellybean.Proto

open Polynomial
open Server (leBytes leNat length_leBytes leNat_leBytes)

variable {path : CrcPath} {buffer payload data bytes : List UInt8} {offset : Nat}

/-! No two states of the register and no two windows of four bytes collide. -/

theorem isUnit_residueOf_X : IsUnit (residueOf X) :=
  Crc.isUnit_mk_X (Crc.coeff_zero_generator (n := 31) rfl (by decide))

theorem residueOf_X_pow_mul_inj {k : Nat}
    {x y : AdjoinRoot (Crc.generator crc32cPolynomial.toBitVec)}
    (h : residueOf (X ^ k) * x = residueOf (X ^ k) * y) : x = y := by
  rw [map_pow] at h
  exact (isUnit_residueOf_X.pow k).mul_left_cancel h

/-- A difference of the states survives any suffix. -/
theorem foldl_crc32cFeed_inj (bits : List Bool) {c d : UInt32}
    (h : bits.foldl crc32cFeed c = bits.foldl crc32cFeed d) : c = d := by
  have h := congrArg residue h
  rw [residue_foldl_crc32cFeed, residue_foldl_crc32cFeed] at h
  exact residue_inj (residueOf_X_pow_mul_inj (add_right_cancel h))

/-- A window of at most 32 bits determines the state after it. -/
theorem foldl_crc32cFeed_window {bits bits' : List Bool} (hlen : bits'.length = bits.length)
    (h32 : bits.length ≤ 32) {c : UInt32}
    (h : bits.foldl crc32cFeed c = bits'.foldl crc32cFeed c) : bits = bits' := by
  have h := congrArg residue h
  rw [residue_foldl_crc32cFeed, residue_foldl_crc32cFeed, hlen] at h
  have hmk := residueOf_X_pow_mul_inj (add_left_cancel h)
  have hget := Crc.mk_reflectedBits_inj h32 hmk
  apply List.ext_getElem hlen.symm
  intro i hi hi'
  have := hget i hi
  simpa [hi, hi'] using this

theorem bitsOf_inj {w : Nat} {x y : BitVec w} (h : bitsOf x = bitsOf y) : x = y := by
  apply BitVec.eq_of_getLsbD_eq
  intro i hi
  have hget := congrArg (fun l => l[i]?) h
  simpa [bitsOf, hi] using hget

theorem length_flatMap_bitsOf (data : List UInt8) :
    (data.flatMap fun byte => bitsOf byte.toBitVec).length = 8 * data.length := by
  induction data with
  | nil => rfl
  | cons v data ih =>
    rw [List.flatMap_cons, List.length_append, ih, List.length_cons, bitsOf, List.length_map,
      List.length_range]
    ring

theorem flatMap_bitsOf_inj {data data' : List UInt8}
    (h : (data.flatMap fun byte => bitsOf byte.toBitVec) =
      data'.flatMap fun byte => bitsOf byte.toBitVec) : data = data' := by
  induction data generalizing data' with
  | nil =>
    have hlen := congrArg List.length h
    rw [length_flatMap_bitsOf, length_flatMap_bitsOf, List.length_nil] at hlen
    exact (List.eq_nil_of_length_eq_zero (by omega)).symm
  | cons v data ih =>
    cases data' with
    | nil =>
      have hlen := congrArg List.length h
      rw [length_flatMap_bitsOf, length_flatMap_bitsOf, List.length_nil, List.length_cons] at hlen
      omega
    | cons v' data' =>
      rw [List.flatMap_cons, List.flatMap_cons] at h
      obtain ⟨hv, hrest⟩ := List.append_inj h (by simp [bitsOf])
      rw [UInt8.toBitVec_inj.mp (bitsOf_inj hv), ih hrest]

/-- Four bytes between a common prefix and a common suffix. -/
theorem crc32c_window {pre mid mid' post : List UInt8} (hlen : mid'.length = mid.length)
    (h4 : mid.length ≤ 4)
    (h : crc32c path (pre ++ mid ++ post) = crc32c path (pre ++ mid' ++ post)) : mid = mid' := by
  rw [crc32c_eq] at h
  have h := congrArg (~~~ ·) h
  simp only [crc32cBitwise, UInt32.not_not, List.flatMap_append, List.foldl_append] at h
  have hmid := foldl_crc32cFeed_inj _ h
  apply flatMap_bitsOf_inj
  apply foldl_crc32cFeed_window _ _ hmid
  · rw [length_flatMap_bitsOf, length_flatMap_bitsOf, hlen]
  · rw [length_flatMap_bitsOf]
    omega

/-! Overwriting a few bytes. -/

theorem length_store (h : offset + bytes.length ≤ buffer.length) :
    (store buffer offset bytes).length = buffer.length := by
  simp only [store, List.length_append, List.length_take, List.length_drop]
  omega

theorem store_slice {k : Nat} (h : offset + k ≤ buffer.length) :
    store buffer offset (slice buffer offset k) = buffer := by
  have hk : (slice buffer offset k).length = k := by
    simp only [slice, List.length_take, List.length_drop]
    omega
  rw [store, hk, slice, List.append_assoc, ← List.drop_drop, List.take_append_drop,
    List.take_append_drop]

theorem store_append_rest (rest : List UInt8) (h : offset + bytes.length ≤ buffer.length) :
    store (buffer ++ rest) offset bytes = store buffer offset bytes ++ rest := by
  unfold store
  rw [List.take_append_of_le_length (by omega), List.drop_append_of_le_length h]
  simp only [List.append_assoc]

theorem take_store_within {m : Nat} (h : offset + bytes.length ≤ m) (hm : m ≤ buffer.length) :
    (store buffer offset bytes).take m = store (buffer.take m) offset bytes := by
  have hlen : (buffer.take m).length = m := by
    rw [List.length_take, Nat.min_eq_left hm]
  have hle : offset + bytes.length ≤ (buffer.take m).length := hlen.symm ▸ h
  have hstore := store_append_rest (buffer.drop m) hle
  rw [List.take_append_drop] at hstore
  rw [hstore]
  apply List.take_left'
  rw [length_store (hlen.symm ▸ h), hlen]

theorem drop_store_after {m : Nat} (h : offset + bytes.length ≤ m)
    (ho : offset + bytes.length ≤ buffer.length) :
    (store buffer offset bytes).drop m = buffer.drop m := by
  have hpre : (buffer.take offset ++ bytes).length = offset + bytes.length := by
    rw [List.length_append, List.length_take]
    omega
  obtain ⟨d, rfl⟩ := Nat.exists_eq_add_of_le h
  rw [store, ← hpre, List.drop_length_add_append, hpre, List.drop_drop]

theorem slice_store_after {o k : Nat} (h : offset + bytes.length ≤ o)
    (ho : offset + bytes.length ≤ buffer.length) :
    slice (store buffer offset bytes) o k = slice buffer o k := by
  rw [slice, drop_store_after h ho, slice]

theorem eq_of_window {buffer' : List UInt8} {o k : Nat} (hpre : buffer'.take o = buffer.take o)
    (hmid : slice buffer' o k = slice buffer o k)
    (hpost : buffer'.drop (o + k) = buffer.drop (o + k)) : buffer' = buffer := by
  have hsplit : ∀ b : List UInt8, b.take o ++ (slice b o k ++ b.drop (o + k)) = b := by
    intro b
    rw [slice, ← List.drop_drop, List.take_append_drop, List.take_append_drop]
  rw [← hsplit buffer', hpre, hmid, hpost, hsplit]

theorem take_store_before {m : Nat} (h : m ≤ offset) (ho : offset ≤ buffer.length) :
    (store buffer offset bytes).take m = buffer.take m := by
  rw [store, List.append_assoc, List.take_append_of_le_length, List.take_take, Nat.min_eq_left h]
  rw [List.length_take]
  omega

theorem slice_eq_drop_take (buffer : List UInt8) (o k : Nat) :
    slice buffer o k = (buffer.take (o + k)).drop o := by
  rw [slice, List.drop_take, Nat.add_sub_cancel_left]

theorem slice_store_before {o k : Nat} (h : o + k ≤ offset) (ho : offset ≤ buffer.length) :
    slice (store buffer offset bytes) o k = slice buffer o k := by
  rw [slice_eq_drop_take, take_store_before h ho, ← slice_eq_drop_take]

/-- Four new bytes inside the data with the old checksum are the old ones. -/
theorem crc32c_store_inj (h4 : bytes.length ≤ 4) (h : offset + bytes.length ≤ data.length)
    (hcrc : crc32c path (store data offset bytes) = crc32c path data) :
    store data offset bytes = data := by
  have hk : (slice data offset bytes.length).length = bytes.length := by
    simp only [slice, List.length_take, List.length_drop]
    omega
  have hdata : store data offset (slice data offset bytes.length) = data := store_slice h
  have hsplit : data.take offset ++ slice data offset bytes.length ++
      data.drop (offset + bytes.length) = data := by
    rwa [store, hk] at hdata
  have hwindow : crc32c path (data.take offset ++ bytes ++ data.drop (offset + bytes.length)) =
      crc32c path (data.take offset ++ slice data offset bytes.length ++
        data.drop (offset + bytes.length)) := by
    rw [hsplit]
    exact hcrc
  rw [crc32c_window hk h4 hwindow, hdata]

/-! What `parse_frame` requires of a frame. -/

/-- The payload length a frame gives in its header. -/
def announced (buffer : List UInt8) : Nat := (FrameHeader.read buffer).payloadLength.toNat

theorem announced_lt (buffer : List UInt8) : announced buffer < 2^32 :=
  (FrameHeader.read buffer).payloadLength.toNat_lt

theorem parseFrame_valid_iff (path : CrcPath) (buffer : List UInt8) :
    (parseFrame path buffer).valid = true ↔
      (FrameHeader.read buffer).magic = magic ∧ (FrameHeader.read buffer).version = version ∧
        36 + roundUp (announced buffer) 8 ≤ buffer.length ∧
        crc32c path (buffer.take (32 + announced buffer)) =
          .ofNat (leNat (slice buffer (32 + roundUp (announced buffer) 8) 4)) := by
  have hn := announced_lt buffer
  set h := FrameHeader.read buffer with hh
  set n := announced buffer
  have hparse : parseFrame path buffer =
      if buffer.length < headerSize + crcSize then {}
      else if h.magic ≠ magic ∨ h.version ≠ version then {}
      else if (layoutForPayload n).totalSize < headerSize + crcSize ∨
          (layoutForPayload n).totalSize > buffer.length then {}
      else
        ⟨h, slice buffer headerSize n,
          crc32c path (buffer.take (headerSize + n)) =
            .ofNat (leNat (slice buffer (layoutForPayload n).crcOffset 4)),
          crc32c path (buffer.take (headerSize + n)),
          .ofNat (leNat (slice buffer (layoutForPayload n).crcOffset 4))⟩ := rfl
  rw [hparse, layoutForPayload_eq hn]
  have hdefault : ({} : ParsedFrame).valid ≠ true := by decide
  have hheader : headerSize = 32 := rfl
  have hcrc : crcSize = 4 := rfl
  by_cases hsize : buffer.length < headerSize + crcSize
  · rw [if_pos hsize]
    exact ⟨fun hv => absurd hv hdefault, fun hv => by omega⟩
  rw [if_neg hsize]
  by_cases hliteral : h.magic ≠ magic ∨ h.version ≠ version
  · rw [if_pos hliteral]
    exact ⟨fun hv => absurd hv hdefault, fun hv => absurd hliteral (by simp [hv.1, hv.2.1])⟩
  rw [if_neg hliteral]
  obtain ⟨hm, hv⟩ := not_or.mp hliteral
  by_cases hfit : 36 + roundUp n 8 < headerSize + crcSize ∨ 36 + roundUp n 8 > buffer.length
  · rw [if_pos hfit]
    exact ⟨fun hv => absurd hv hdefault, fun hv => by omega⟩
  rw [if_neg hfit, decide_eq_true_iff]
  exact ⟨fun hc => ⟨not_not.mp hm, not_not.mp hv, by omega, hc⟩, fun hc => hc.2.2.2⟩

/-! Changes of a valid frame. -/

theorem announced_congr {buffer' : List UInt8} (h : slice buffer' 12 4 = slice buffer 12 4) :
    announced buffer' = announced buffer := by
  simp only [announced, FrameHeader.read, h]

theorem leNat_inj {xs ys : List UInt8} (hlen : xs.length = ys.length) (h : leNat xs = leNat ys) :
    xs = ys := by
  induction xs generalizing ys with
  | nil => exact (List.eq_nil_of_length_eq_zero hlen.symm).symm
  | cons x xs ih =>
    cases ys with
    | nil => exact absurd hlen (Nat.succ_ne_zero _)
    | cons y ys =>
      have hx := x.toNat_lt
      have hy := y.toNat_lt
      simp only [leNat] at h
      have hhead : x = y := UInt8.toNat_inj.mp (by omega)
      rw [hhead, ih (Nat.succ.inj hlen) (by omega)]

/-- The checksum covers the header and the payload. -/
theorem covered_change (hv : (parseFrame path buffer).valid = true) (h4 : bytes.length ≤ 4)
    (hin : offset + bytes.length ≤ 32 + announced buffer)
    (hlen : slice (store buffer offset bytes) 12 4 = slice buffer 12 4)
    (hv' : (parseFrame path (store buffer offset bytes)).valid = true) :
    store buffer offset bytes = buffer := by
  obtain ⟨-, -, hfit, hcrc⟩ := (parseFrame_valid_iff path buffer).mp hv
  obtain ⟨-, -, -, hcrc'⟩ := (parseFrame_valid_iff path _).mp hv'
  have hle := le_roundUp (x := announced buffer) (a := 8) (by decide)
  have hdata : (buffer.take (32 + announced buffer)).length = 32 + announced buffer := by
    rw [List.length_take]
    omega
  rw [announced_congr hlen, take_store_within hin (by omega), slice_store_after (by omega) (by omega),
    ← hcrc] at hcrc'
  have hsame := crc32c_store_inj h4 (hdata.symm ▸ hin) hcrc'
  have hsplit := store_append_rest (buffer.drop (32 + announced buffer)) (hdata.symm ▸ hin)
  rwa [hsame, List.take_append_drop] at hsplit

theorem wireCrc_inj {xs ys : List UInt8} (hx : xs.length = 4) (hy : ys.length = 4)
    (h : UInt32.ofNat (leNat xs) = .ofNat (leNat ys)) : xs = ys := by
  have hxs : leNat xs < 2^32 := by
    have := Server.leNat_lt xs
    rwa [hx] at this
  have hys : leNat ys < 2^32 := by
    have := Server.leNat_lt ys
    rwa [hy] at this
  have h := congrArg UInt32.toNat h
  rw [UInt32.toNat_ofNat_of_lt' hxs, UInt32.toNat_ofNat_of_lt' hys] at h
  exact leNat_inj (hx.trans hy.symm) h

/-- The stored checksum is compared in full. -/
theorem checksum_change (hv : (parseFrame path buffer).valid = true)
    (hlow : 32 + roundUp (announced buffer) 8 ≤ offset)
    (hhigh : offset + bytes.length ≤ 36 + roundUp (announced buffer) 8)
    (hv' : (parseFrame path (store buffer offset bytes)).valid = true) :
    store buffer offset bytes = buffer := by
  obtain ⟨-, -, hfit, hcrc⟩ := (parseFrame_valid_iff path buffer).mp hv
  obtain ⟨-, -, -, hcrc'⟩ := (parseFrame_valid_iff path _).mp hv'
  have hle := le_roundUp (x := announced buffer) (a := 8) (by decide)
  have hstore : (store buffer offset bytes).length = buffer.length := length_store (by omega)
  have hlen : slice (store buffer offset bytes) 12 4 = slice buffer 12 4 :=
    slice_store_before (by omega) (by omega)
  rw [announced_congr hlen, take_store_before (by omega) (by omega), hcrc] at hcrc'
  generalize hc : 32 + roundUp (announced buffer) 8 = c at *
  have hslice : ∀ b : List UInt8, b.length = buffer.length → (slice b c 4).length = 4 := by
    intro b hb
    rw [slice, List.length_take, List.length_drop]
    omega
  have hwire := wireCrc_inj (hslice _ rfl) (hslice _ hstore) hcrc'
  exact eq_of_window (take_store_before hlow (by omega)) hwire.symm
    (drop_store_after (by omega) (by omega))

/-- The padding is read by nobody. -/
theorem padding_change (hlow : 32 + announced buffer ≤ offset)
    (hhigh : offset + bytes.length ≤ 32 + roundUp (announced buffer) 8)
    (hb : 36 + roundUp (announced buffer) 8 ≤ buffer.length) :
    parseFrame path (store buffer offset bytes) = parseFrame path buffer := by
  have hstore : (store buffer offset bytes).length = buffer.length := length_store (by omega)
  have hslice : ∀ o k, o + k ≤ 32 + announced buffer →
      slice (store buffer offset bytes) o k = slice buffer o k :=
    fun o k h => slice_store_before (by omega) (by omega)
  have hread : FrameHeader.read (store buffer offset bytes) = FrameHeader.read buffer := by
    simp only [FrameHeader.read, hslice 0 4 (by omega), hslice 4 2 (by omega),
      hslice 6 2 (by omega), hslice 8 2 (by omega), hslice 10 2 (by omega),
      hslice 12 4 (by omega), hslice 16 8 (by omega), hslice 24 8 (by omega)]
  have hpayload := hslice 32 (announced buffer) le_rfl
  have hcovered : (store buffer offset bytes).take (32 + announced buffer) =
      buffer.take (32 + announced buffer) := take_store_before hlow (by omega)
  have hcrc : slice (store buffer offset bytes) (32 + roundUp (announced buffer) 8) 4 =
      slice buffer (32 + roundUp (announced buffer) 8) 4 := slice_store_after hhigh (by omega)
  have hlayout := layoutForPayload_eq (announced_lt buffer)
  unfold announced at hpayload hcovered hcrc hlayout
  unfold parseFrame
  simp only [hstore, hread, hlayout, headerSize, hpayload, hcovered, hcrc]

/-! The frames of `encode_frame`. -/

/-- The bytes `encode_frame` has written. -/
def encodedFrame (path : CrcPath) (buffer : List UInt8) (type : MessageType) (flags : UInt16)
    (actorId messageId : UInt64) (payload : List UInt8) : List UInt8 :=
  let out := encodeFrame path buffer type flags actorId messageId payload
  out.2.take out.1

section Encoded

variable {writer reader : CrcPath} {type : MessageType} {flags : UInt16} {actorId messageId : UInt64}

theorem fits_of_encoded
    (h : (encodeFrame writer buffer type flags actorId messageId payload).1 ≠ 0) :
    payload.length < 2^32 ∧ encodedFrameSize payload.length ≤ buffer.length := by
  by_contra hn
  apply h
  rw [encodeFrame_refused (by omega)]

theorem encodedFrame_eq
    (h : (encodeFrame writer buffer type flags actorId messageId payload).1 ≠ 0) :
    encodedFrame writer buffer type flags actorId messageId payload =
      frameBytes writer (frameHeader type flags actorId messageId payload.length) payload := by
  obtain ⟨hp, hb⟩ := fits_of_encoded h
  rw [encodedFrame, encodeFrame_eq hp hb]
  apply List.take_left'
  rw [length_frameBytes, encodedFrameSize_eq hp]

theorem length_encodedFrame
    (h : (encodeFrame writer buffer type flags actorId messageId payload).1 ≠ 0) :
    (encodedFrame writer buffer type flags actorId messageId payload).length =
      36 + roundUp payload.length 8 := by
  rw [encodedFrame_eq h, length_frameBytes]

theorem parseFrame_encodedFrame
    (h : (encodeFrame writer buffer type flags actorId messageId payload).1 ≠ 0) :
    parseFrame reader (encodedFrame writer buffer type flags actorId messageId payload) =
      ⟨frameHeader type flags actorId messageId payload.length, payload, true,
        crc32c writer ((frameHeader type flags actorId messageId payload.length).bytes ++ payload),
        crc32c writer
          ((frameHeader type flags actorId messageId payload.length).bytes ++ payload)⟩ := by
  have hl : (frameHeader type flags actorId messageId payload.length).payloadLength.toNat =
      payload.length := by
    simp only [frameHeader, UInt32.toNat_ofNat']
    exact Nat.mod_eq_of_lt (fits_of_encoded h).1
  have hparse : parseFrame writer _ = _ := parseFrame_frameBytes rfl rfl hl []
  rwa [List.append_nil, ← encodedFrame_eq h, parseFrame_eq writer reader] at hparse

theorem announced_encodedFrame
    (h : (encodeFrame writer buffer type flags actorId messageId payload).1 ≠ 0) :
    announced (encodedFrame writer buffer type flags actorId messageId payload) =
      payload.length := by
  rw [encodedFrame_eq h, announced, frameBytes]
  simp only [List.append_assoc, FrameHeader.read_bytes]
  simp only [frameHeader, UInt32.toNat_ofNat']
  exact Nat.mod_eq_of_lt (fits_of_encoded h).1

/-- The burst guarantee of CRC-32C for frames: four consecutive bytes, of the covered part or of
the checksum, cannot change unnoticed. -/
theorem burst_detected (writer reader : CrcPath) (buffer : List UInt8) (type : MessageType)
    (flags : UInt16) (actorId messageId : UInt64) (payload : List UInt8)
    (hout : (encodeFrame writer buffer type flags actorId messageId payload).1 ≠ 0)
    (offset : Nat) (bytes : List UInt8) (h4 : bytes.length ≤ 4) :
    let frame := encodedFrame writer buffer type flags actorId messageId payload
    let modified := store frame offset bytes
    modified ≠ frame →
    (offset + bytes.length ≤ headerSize + payload.length ∧
        slice modified 12 4 = slice frame 12 4 ∨
      (layoutForPayload payload.length).crcOffset ≤ offset ∧
        offset + bytes.length ≤ (layoutForPayload payload.length).totalSize) →
    (parseFrame reader modified).valid = false := by
  intro frame modified hne hplace
  have hvalid : (parseFrame reader frame).valid = true := by
    rw [parseFrame_encodedFrame hout]
  have hn : announced frame = payload.length := announced_encodedFrame hout
  rw [layoutForPayload_eq (fits_of_encoded hout).1] at hplace
  rw [← Bool.not_eq_true]
  intro hmodified
  apply hne
  cases hplace with
  | inl hcovered => exact covered_change hvalid h4 (hn.symm ▸ hcovered.1) hcovered.2 hmodified
  | inr hcrc =>
    rw [← hn] at hcrc
    exact checksum_change hvalid hcrc.1 hcrc.2 hmodified

theorem burst_detected_hello :
    let frame := encodedFrame .sse42 (List.replicate 48 0xAB) .actorMessage 3 7 9 hello
    (parseFrame .software (store frame 33 [0, 1, 2, 3])).valid = false := by
  intro frame
  exact burst_detected .sse42 .software (List.replicate 48 0xAB) .actorMessage 3 7 9 hello
    (by decide +kernel) 33 [0, 1, 2, 3] (by decide) (by decide +kernel) (by decide +kernel)

/-! Single bits. -/

def bitMask (bit : Nat) : UInt8 := 1 <<< UInt8.ofNat bit

/-- `buffer[position] ^= 1 << bit`. -/
def flipBit (buffer : List UInt8) (position bit : Nat) : List UInt8 :=
  buffer.modify position (· ^^^ bitMask bit)

theorem toNat_bitMask {bit : Nat} (h : bit < 8) : (bitMask bit).toNat = 2^bit := by
  interval_cases bit <;> decide

theorem xor_bitMask_ne (x : UInt8) {bit : Nat} (h : bit < 8) : x ^^^ bitMask bit ≠ x := by
  intro hx
  have hmask : bitMask bit = 0 := UInt8.xor_right_inj x |>.mp (hx.trans UInt8.xor_zero.symm)
  have hnat := toNat_bitMask h
  rw [hmask] at hnat
  exact (Nat.two_pow_pos bit).ne hnat

theorem flipBit_eq_store {position : Nat} (bit : Nat) (h : position < buffer.length) :
    flipBit buffer position bit = store buffer position [buffer[position] ^^^ bitMask bit] := by
  rw [flipBit, List.modify_eq_take_cons_drop h, store, List.append_assoc]
  rfl

theorem flipBit_ne {position bit : Nat} (h : position < buffer.length) (hbit : bit < 8) :
    flipBit buffer position bit ≠ buffer := by
  intro heq
  have hget := congrArg (fun l => l[position]?) heq
  simp only [flipBit, List.getElem?_modify_eq, List.getElem?_eq_getElem h] at hget
  exact xor_bitMask_ne _ hbit (Option.some.inj hget)

theorem xor_concat {b c m k : Nat} (hb : b < 256) (hc : c < 256) :
    (b + 256 * m) ^^^ (c + 256 * k) = (b ^^^ c) + 256 * (m ^^^ k) := by
  have hbc : b ^^^ c < 2^8 := Nat.xor_lt_two_pow hb hc
  apply Nat.eq_of_testBit_eq
  intro i
  rw [Nat.testBit_xor, add_comm b, add_comm c, add_comm (b ^^^ c),
    Nat.testBit_two_pow_mul_add m (i := 8) hb, Nat.testBit_two_pow_mul_add k (i := 8) hc,
    Nat.testBit_two_pow_mul_add _ (i := 8) hbc]
  split <;> rw [Nat.testBit_xor]

/-- A number changes in the bit that is flipped in its bytes. -/
theorem leNat_flipBit {xs : List UInt8} {position bit : Nat} (h : position < xs.length)
    (hbit : bit < 8) :
    leNat (flipBit xs position bit) = leNat xs ^^^ 2^(8 * position + bit) := by
  induction xs generalizing position with
  | nil => exact absurd h (Nat.not_lt_zero _)
  | cons x xs ih =>
    have hx := x.toNat_lt
    cases position with
    | zero =>
      have hxor := xor_concat (m := leNat xs) (k := 0) hx (bitMask bit).toNat_lt
      rw [mul_zero, add_zero, Nat.xor_zero, ← UInt8.toNat_xor, toNat_bitMask hbit] at hxor
      rw [mul_zero, zero_add, leNat, hxor]
      rfl
    | succ position =>
      have hxor := xor_concat (m := leNat xs) (k := 2^(8 * position + bit)) hx (by decide : 0 < 256)
      have hpow : 2^(8 * (position + 1) + bit) = 0 + 256 * 2^(8 * position + bit) := by
        rw [zero_add, show 8 * (position + 1) + bit = 8 + (8 * position + bit) by ring, pow_add]
        rfl
      rw [leNat, hpow, hxor, Nat.xor_zero, ← ih (Nat.lt_of_succ_lt_succ h)]
      rfl

theorem slice_flipBit {position bit o k : Nat} (hlow : o ≤ position) :
    slice (flipBit buffer position bit) o k = flipBit (slice buffer o k) (position - o) bit := by
  rw [slice, slice, flipBit, flipBit, List.drop_modify_of_ge _ _ _ _ hlow, List.take_modify]

/-- The magic, the version and the rest of the header, the payload and the checksum. -/
theorem flip_checked {position bit : Nat} (hv : (parseFrame path buffer).valid = true)
    (hin : position < buffer.length) (hbit : bit < 8)
    (hplace : position < 12 ∨ 16 ≤ position ∧ position < 32 + announced buffer ∨
      32 + roundUp (announced buffer) 8 ≤ position ∧
        position < 36 + roundUp (announced buffer) 8) :
    (parseFrame path (flipBit buffer position bit)).valid = false := by
  have hle := le_roundUp (x := announced buffer) (a := 8) (by decide)
  have hne := flipBit_ne hin hbit
  rw [← Bool.not_eq_true]
  intro hmodified
  apply hne
  rw [flipBit_eq_store bit hin] at hmodified ⊢
  generalize buffer[position] ^^^ bitMask bit = byte at hmodified ⊢
  have hlen : [byte].length = 1 := rfl
  by_cases hcrc : 32 + roundUp (announced buffer) 8 ≤ position
  · exact checksum_change hv hcrc (by omega) hmodified
  · apply covered_change hv (by omega) (by omega) _ hmodified
    by_cases hbefore : position < 12
    · exact slice_store_after (by omega) (by omega)
    · exact slice_store_before (by omega) (by omega)

theorem announced_flipBit {position bit : Nat} (h36 : 36 ≤ buffer.length) (hbit : bit < 8)
    (hlow : 12 ≤ position) (hhigh : position < 16) :
    announced (flipBit buffer position bit) =
      announced buffer ^^^ 2^(8 * (position - 12) + bit) := by
  have hslice : (slice buffer 12 4).length = 4 := by
    rw [slice, List.length_take, List.length_drop]
    omega
  have hlt : leNat (slice buffer 12 4) < 2^32 := by
    have := Server.leNat_lt (slice buffer 12 4)
    rwa [hslice] at this
  have hpow : 2^(8 * (position - 12) + bit) < 2^32 :=
    Nat.pow_lt_pow_right (by decide) (by omega)
  have hannounced : announced buffer = leNat (slice buffer 12 4) := UInt32.toNat_ofNat_of_lt' hlt
  rw [hannounced]
  show (UInt32.ofNat (leNat (slice (flipBit buffer position bit) 12 4))).toNat = _
  rw [slice_flipBit hlow, leNat_flipBit (by omega) hbit]
  exact UInt32.toNat_ofNat_of_lt' (Nat.xor_lt_two_pow hlt hpow)

/-- The payload length also places the checksum. -/
theorem flip_payloadLength {position bit n : Nat} (hv : (parseFrame path buffer).valid = true)
    (hbit : bit < 8) (hlow : 12 ≤ position) (hhigh : position < 16)
    (hn : n = announced buffer ^^^ 2^(8 * (position - 12) + bit)) :
    (parseFrame path (flipBit buffer position bit)).valid = true ↔
      36 + roundUp n 8 ≤ buffer.length ∧
        crc32c path ((flipBit buffer position bit).take (32 + n)) =
          .ofNat (leNat (slice (flipBit buffer position bit) (32 + roundUp n 8) 4)) := by
  obtain ⟨hmagic, hversion, hfit, -⟩ := (parseFrame_valid_iff path buffer).mp hv
  have hlength : (flipBit buffer position bit).length = buffer.length := List.length_modify _ _ _
  have hbefore : ∀ o k, o + k ≤ 12 →
      slice (flipBit buffer position bit) o k = slice buffer o k := by
    intro o k h
    rw [flipBit_eq_store bit (by omega)]
    exact slice_store_before (by omega) (by omega)
  rw [parseFrame_valid_iff, announced_flipBit (by omega) hbit hlow hhigh, ← hn, hlength]
  constructor
  · intro h
    exact h.2.2
  · intro h
    refine ⟨?_, ?_, h⟩
    · rw [← hmagic]
      simp only [FrameHeader.read, hbefore 0 4 (by omega)]
    · rw [← hversion]
      simp only [FrameHeader.read, hbefore 4 2 (by omega)]

/-- A flipped bit goes unnoticed in the padding, which the checksum leaves out, and in the payload
length if the checksum of the frame it then announces is where it then belongs. -/
theorem flip_detected (writer reader : CrcPath) (buffer : List UInt8) (type : MessageType)
    (flags : UInt16) (actorId messageId : UInt64) (payload : List UInt8)
    (hout : (encodeFrame writer buffer type flags actorId messageId payload).1 ≠ 0)
    (position bit : Nat) (hposition : position < encodedFrameSize payload.length)
    (hbit : bit < 8) :
    let frame := encodedFrame writer buffer type flags actorId messageId payload
    let crcOffset := (layoutForPayload payload.length).crcOffset
    let modified := flipBit frame position bit
    let parsed := parseFrame reader modified
    (position < 12 ∨ 16 ≤ position ∧ position < headerSize + payload.length ∨
        crcOffset ≤ position → parsed.valid = false) ∧
      (headerSize + payload.length ≤ position → position < crcOffset →
        parsed = parseFrame reader frame) ∧
      (12 ≤ position → position < 16 →
        let n := payload.length ^^^ 2^(8 * (position - 12) + bit)
        (parsed.valid = true ↔ encodedFrameSize n ≤ frame.length ∧
          crc32c reader (modified.take (headerSize + n)) =
            .ofNat (leNat (slice modified (layoutForPayload n).crcOffset crcSize)))) := by
  intro frame crcOffset modified parsed
  obtain ⟨hp, -⟩ := fits_of_encoded hout
  have hvalid : (parseFrame reader frame).valid = true := by
    rw [parseFrame_encodedFrame hout]
  have hn : announced frame = payload.length := announced_encodedFrame hout
  have hlen : frame.length = 36 + roundUp payload.length 8 := length_encodedFrame hout
  have hcrc : crcOffset = 32 + roundUp payload.length 8 := by
    show (layoutForPayload payload.length).crcOffset = _
    rw [layoutForPayload_eq hp]
  have hheader : headerSize = 32 := rfl
  have hin : position < frame.length := by
    rwa [hlen, ← encodedFrameSize_eq hp]
  refine ⟨?_, ?_, ?_⟩
  · intro hplace
    apply flip_checked hvalid hin hbit
    rw [hn]
    omega
  · intro hlow hhigh
    show parseFrame reader (flipBit frame position bit) = _
    rw [flipBit_eq_store bit hin]
    apply padding_change
    · omega
    · rw [hn, List.length_singleton]
      omega
    · rw [hn]
      exact hlen.ge
  · intro hlow hhigh n
    have hlt : n < 2^32 := Nat.xor_lt_two_pow hp (Nat.pow_lt_pow_right (by decide) (by omega))
    rw [encodedFrameSize_eq hlt, layoutForPayload_eq hlt]
    exact flip_payloadLength hvalid hbit hlow hhigh (by rw [hn])

end Encoded

/-- A payload of twelve bytes of which the last four are the checksum of a frame for the others. -/
def nested : List UInt8 :=
  List.replicate 8 0 ++
    leBytes 4 (crc32c .sse42
      ((frameHeader .actorMessage 3 7 9 8).bytes ++ List.replicate 8 0)).toNat

theorem flip_detected_hello :
    let frame := encodedFrame .sse42 (List.replicate 48 0) .actorMessage 3 7 9 hello
    (parseFrame .software (flipBit frame 35 6)).valid = false ∧
      parseFrame .software (flipBit frame 38 1) = parseFrame .software frame := by
  intro frame
  have h := fun position => flip_detected .sse42 .software (List.replicate 48 0) .actorMessage 3 7 9
    hello (by decide +kernel) position
  exact ⟨(h 35 6 (by decide) (by decide)).1 (by decide),
    (h 38 1 (by decide) (by decide)).2.1 (by decide) (by decide)⟩

/-- The padding of `hello`, and bit `2` of the length `12`. -/
theorem flip_accepted :
    (parseFrame .sse42 (flipBit
        (encodedFrame .sse42 (List.replicate 48 0) .actorMessage 3 7 9 hello) 37 0)).valid = true ∧
      (parseFrame .sse42 (flipBit
        (encodedFrame .sse42 (List.replicate 52 0) .actorMessage 3 7 9 nested) 12 2)).valid =
          true := by
  constructor
  · decide +kernel
  · decide +kernel

end Jellybean.Proto
