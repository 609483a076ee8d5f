import Jellybean.Proto.FrameCorruption

namespace Jellybean.Proto

open Server (leBytes leNat length_leBytes leNat_leBytes leNat_lt)

variable {path reader writer : CrcPath} {buffer frame payload bytes : List UInt8}

/-! A field that was read and is written again. -/

theorem leBytes_leNat (bytes : List UInt8) : leBytes bytes.length (leNat bytes) = bytes := by
  induction bytes with
  | nil => rfl
  | cons b bytes ih =>
    have hb : b.toNat < 256 := b.toNat_lt
    have hmod : (b.toNat + 256 * leNat bytes) % 2^8 = b.toNat := by omega
    have hdiv : (b.toNat + 256 * leNat bytes) / 256 = leNat bytes := by omega
    have hhead : UInt8.ofNat (b.toNat + 256 * leNat bytes) = b := by
      apply UInt8.toNat_inj.mp
      rw [UInt8.toNat_ofNat', hmod]
    rw [List.length_cons, leBytes, leNat, hhead, hdiv, ih]

theorem length_slice {offset size : Nat} (h : offset + size ≤ buffer.length) :
    (slice buffer offset size).length = size := by
  rw [slice, List.length_take, List.length_drop]
  omega

theorem leBytes_slice {offset size n : Nat} (h : offset + size ≤ buffer.length)
    (hn : n = leNat (slice buffer offset size) % 256 ^ size) :
    leBytes size n = slice buffer offset size := by
  have hlen := length_slice h
  have hlt := leNat_lt (slice buffer offset size)
  rw [hlen] at hlt
  have hback := leBytes_leNat (slice buffer offset size)
  rw [hlen] at hback
  rw [hn, Nat.mod_eq_of_lt hlt, hback]

theorem take_append_slice (offset size : Nat) :
    buffer.take offset ++ slice buffer offset size = buffer.take (offset + size) :=
  List.take_add.symm

theorem FrameHeader.bytes_read (h : headerSize ≤ buffer.length) :
    (FrameHeader.read buffer).bytes = buffer.take headerSize := by
  have h : 32 ≤ buffer.length := h
  have hfield : ∀ size offset n, offset + size ≤ buffer.length →
      n = leNat (slice buffer offset size) % 256 ^ size →
        buffer.take offset ++ leBytes size n = buffer.take (offset + size) := by
    intro size offset n ho hn
    rw [leBytes_slice ho hn, take_append_slice]
  have h0 := hfield 4 0 (FrameHeader.read buffer).magic.toNat (by omega) (UInt32.toNat_ofNat' ..)
  have h4 := hfield 2 4 (FrameHeader.read buffer).version.toNat (by omega) (UInt16.toNat_ofNat' ..)
  have h6 := hfield 2 6 (FrameHeader.read buffer).type.toNat (by omega) (UInt16.toNat_ofNat' ..)
  have h8 := hfield 2 8 (FrameHeader.read buffer).flags.toNat (by omega) (UInt16.toNat_ofNat' ..)
  have h10 := hfield 2 10 (FrameHeader.read buffer).reserved.toNat (by omega)
    (UInt16.toNat_ofNat' ..)
  have h12 := hfield 4 12 (FrameHeader.read buffer).payloadLength.toNat (by omega)
    (UInt32.toNat_ofNat' ..)
  have h16 := hfield 8 16 (FrameHeader.read buffer).actorId.toNat (by omega)
    (UInt64.toNat_ofNat' ..)
  have h24 := hfield 8 24 (FrameHeader.read buffer).messageId.toNat (by omega)
    (UInt64.toNat_ofNat' ..)
  rw [List.take_zero, List.nil_append] at h0
  simp only [FrameHeader.bytes, List.flatten_cons, List.flatten_nil, List.append_nil]
  rw [h0, ← List.append_assoc, h4, ← List.append_assoc, h6, ← List.append_assoc, h8,
    ← List.append_assoc, h10, ← List.append_assoc, h12, ← List.append_assoc, h16, h24]
  rfl

theorem FrameHeader.bytes_inj {h h' : FrameHeader} (hb : h.bytes = h'.bytes) : h = h' := by
  have hread := FrameHeader.read_bytes h []
  rw [hb, FrameHeader.read_bytes] at hread
  exact hread.symm

/-! An accepted frame, part by part. -/

/-- The bytes between the payload and the checksum. -/
def padding (frame : List UInt8) : List UInt8 :=
  slice frame (headerSize + announced frame) (roundUp (announced frame) 8 - announced frame)

theorem parseFrame_of_valid (hv : (parseFrame reader frame).valid = true) :
    (parseFrame reader frame).header = FrameHeader.read frame ∧
      (parseFrame reader frame).payloadOwned = slice frame headerSize (announced frame) := by
  obtain ⟨hm, hver, hfit, hcrc⟩ := (parseFrame_valid_iff reader frame).mp hv
  have hsize : ¬frame.length < headerSize + crcSize := by
    simp only [headerSize, crcSize]
    omega
  have hliteral : ¬((FrameHeader.read frame).magic ≠ magic ∨
      (FrameHeader.read frame).version ≠ version) := by
    simp [hm, hver]
  have htotal : ¬((layoutForPayload (announced frame)).totalSize < headerSize + crcSize ∨
      (layoutForPayload (announced frame)).totalSize > frame.length) := by
    rw [layoutForPayload_eq (announced_lt frame)]
    simp only [headerSize, crcSize]
    omega
  unfold announced at htotal ⊢
  unfold parseFrame
  dsimp only
  rw [if_neg hsize, if_neg hliteral, if_neg htotal]
  exact ⟨rfl, rfl⟩

theorem take_of_valid (hv : (parseFrame reader frame).valid = true) :
    frame.take (36 + roundUp (announced frame) 8) =
      (FrameHeader.read frame).bytes ++ slice frame headerSize (announced frame) ++ padding frame ++
        slice frame (headerSize + roundUp (announced frame) 8) crcSize := by
  obtain ⟨-, -, hfit, -⟩ := (parseFrame_valid_iff reader frame).mp hv
  have hle := le_roundUp (x := announced frame) (a := 8) (by decide)
  have hmid : headerSize + announced frame + (roundUp (announced frame) 8 - announced frame) =
      headerSize + roundUp (announced frame) 8 := by omega
  have htotal : headerSize + roundUp (announced frame) 8 + crcSize =
      36 + roundUp (announced frame) 8 := by
    simp only [headerSize, crcSize]
    omega
  have hheader : headerSize ≤ frame.length := by
    simp only [headerSize]
    omega
  rw [FrameHeader.bytes_read hheader, take_append_slice, padding, take_append_slice, hmid,
    take_append_slice, htotal]

/-- A frame that was accepted and is encoded again: the checksum covers the reserved field, which
`encode_frame` clears, and nobody looks at the padding, which it clears as well. -/
theorem reencode_iff (reader writer : CrcPath) (frame buffer : List UInt8)
    (hv : (parseFrame reader frame).valid = true)
    (hb : encodedFrameSize (parseFrame reader frame).payloadOwned.length ≤ buffer.length) :
    let parsed := parseFrame reader frame
    let out := encodeFrame writer buffer ⟨parsed.header.type⟩ parsed.header.flags
      parsed.header.actorId parsed.header.messageId parsed.payloadOwned
    out.1 = encodedFrameSize parsed.payloadOwned.length ∧
      (out.2.take out.1 = frame.take out.1 ↔
        parsed.header.reserved = 0 ∧ ∀ b ∈ padding frame, b = 0) := by
  intro parsed out
  obtain ⟨hheader, hpayload⟩ := parseFrame_of_valid hv
  obtain ⟨hm, hver, hfit, hcrc⟩ := (parseFrame_valid_iff reader frame).mp hv
  have hle := le_roundUp (x := announced frame) (a := 8) (by decide)
  have hlen : (slice frame headerSize (announced frame)).length = announced frame := by
    apply length_slice
    simp only [headerSize]
    omega
  have hpad : (padding frame).length = roundUp (announced frame) 8 - announced frame := by
    apply length_slice
    simp only [headerSize]
    omega
  rw [hpayload] at hb
  have hn : (slice frame headerSize (announced frame)).length < 2^32 :=
    hlen.symm ▸ announced_lt frame
  have hout : out = _ := encodeFrame_eq (hpayload ▸ hn) (hpayload ▸ hb)
  have hsize : out.1 = encodedFrameSize parsed.payloadOwned.length := by rw [hout]
  refine ⟨hsize, ?_⟩
  have htotal : encodedFrameSize parsed.payloadOwned.length = 36 + roundUp (announced frame) 8 := by
    rw [hpayload, encodedFrameSize_eq hn, hlen]
  have htake : out.2.take out.1 = frameBytes writer (frameHeader ⟨parsed.header.type⟩
      parsed.header.flags parsed.header.actorId parsed.header.messageId parsed.payloadOwned.length)
        parsed.payloadOwned := by
    rw [hsize, hout]
    apply List.take_left'
    rw [length_frameBytes, htotal, hpayload, hlen]
  rw [htake, hsize, htotal, take_of_valid hv, hheader, hpayload, hlen, frameBytes, hlen]
  set h := FrameHeader.read frame with hh
  set p := slice frame headerSize (announced frame) with hp
  constructor
  · intro heq
    obtain ⟨hfront, -⟩ := List.append_inj heq (by simp [hlen, hpad])
    obtain ⟨hfront, hzeros⟩ := List.append_inj hfront (by simp)
    obtain ⟨hfront, -⟩ := List.append_inj hfront (by simp)
    refine ⟨?_, ?_⟩
    · have := congrArg FrameHeader.reserved (FrameHeader.bytes_inj hfront)
      exact this.symm
    · intro b hb
      rw [← hzeros] at hb
      exact (List.mem_replicate.mp hb).2
  · intro hcanonical
    obtain ⟨hreserved, hzeros⟩ := hcanonical
    have hsame : frameHeader ⟨h.type⟩ h.flags h.actorId h.messageId (announced frame) = h := by
      have hlength : UInt32.ofNat (announced frame) = h.payloadLength := UInt32.ofNat_toNat
      unfold frameHeader
      rw [← hm, ← hver, ← hreserved, hlength]
    have hreplicate : List.replicate (roundUp (announced frame) 8 - announced frame) 0 =
        padding frame := by
      rw [← hpad]
      exact (List.eq_replicate_of_mem hzeros).symm
    have hcovered : h.bytes ++ p = frame.take (32 + announced frame) := by
      rw [hh, FrameHeader.bytes_read (by simp only [headerSize]; omega), hp, take_append_slice]
      rfl
    have hchecksum : leBytes 4 (crc32c writer (h.bytes ++ p)).toNat =
        slice frame (headerSize + roundUp (announced frame) 8) crcSize := by
      apply leBytes_slice
      · simp only [headerSize]
        omega
      · rw [hcovered, crc32c_eq writer, ← crc32c_eq reader, hcrc]
        exact UInt32.toNat_ofNat' ..
    rw [hsame, hreplicate, hchecksum]

theorem reencode_iff_hello :
    let frame := encodedFrame .sse42 (List.replicate 48 0xAB) .actorMessage 3 7 9 hello
    let parsed := parseFrame .software (store frame 38 [1])
    let out := encodeFrame .software (List.replicate 48 0) ⟨parsed.header.type⟩ parsed.header.flags
      parsed.header.actorId parsed.header.messageId parsed.payloadOwned
    out.2.take out.1 ≠ (store frame 38 [1]).take out.1 := by
  intro frame parsed out h
  have hcanonical := (reencode_iff .software .software (store frame 38 [1]) (List.replicate 48 0)
    (by decide +kernel) (by decide +kernel)).2.mp h
  exact absurd (hcanonical.2 1 (by decide +kernel)) (by decide)

end Jellybean.Proto
