import Jellybean.Proto.Codec

namespace Jellybean.Proto

open Server (leBytes leNat length_leBytes leNat_leBytes)

variable {path : CrcPath} {buffer payload : List UInt8}

/-! Sizes of the layout. A payload length that fits into `uint32_t` wraps nothing. -/

theorem alignUp_payload {n : Nat} (hn : n < 2^32) : alignUp n payloadAlignment = roundUp n 8 := by
  have hlt : n + 8 - 1 < 2^64 := by omega
  have hm := and_not_mask (w := 64) (k := 3) hlt (by decide)
  simp only [alignUp, payloadAlignment, roundUp, Nat.mod_eq_of_lt hlt]
  exact hm

theorem roundUp_payload_lt {n : Nat} (hn : n < 2^32) : roundUp n 8 < 2^33 := by
  have := roundUp_lt (x := n) (a := 8) (by decide)
  omega

theorem layoutForPayload_eq {n : Nat} (hn : n < 2^32) :
    layoutForPayload n = ⟨32, n, roundUp n 8, 32 + roundUp n 8, 36 + roundUp n 8⟩ := by
  have hlt := roundUp_payload_lt hn
  simp only [layoutForPayload, alignUp_payload hn, headerSize, crcSize, FrameLayout.mk.injEq,
    true_and]
  omega

theorem encodedFrameSize_eq {n : Nat} (hn : n < 2^32) :
    encodedFrameSize n = 36 + roundUp n 8 := by
  have hlt := roundUp_payload_lt hn
  simp only [encodedFrameSize, alignUp_payload hn, headerSize, crcSize]
  omega

/-! The header as bytes. -/

@[simp] theorem FrameHeader.length_bytes (h : FrameHeader) : h.bytes.length = headerSize := by
  simp [FrameHeader.bytes, headerSize]

theorem slice_append {pre mid post : List UInt8} {offset size : Nat} (ho : pre.length = offset)
    (hs : mid.length = size) : slice (pre ++ mid ++ post) offset size = mid := by
  subst ho hs
  simp [slice]

/-- One field: `pre` are the fields before it. -/
theorem leNat_slice {pre post : List UInt8} {offset k n : Nat} (ho : pre.length = offset)
    (hn : n < 256^k) : leNat (slice (pre ++ (leBytes k n ++ post)) offset k) = n := by
  rw [← List.append_assoc, slice_append ho (length_leBytes k n), leNat_leBytes]
  exact Nat.mod_eq_of_lt hn

theorem FrameHeader.read_bytes (h : FrameHeader) (rest : List UInt8) :
    FrameHeader.read (h.bytes ++ rest) = h := by
  have hb : ∀ pre post : List (List UInt8), ∀ k n offset, pre.flatten.length = offset →
      n < 256^k → h.bytes = (pre ++ leBytes k n :: post).flatten →
      leNat (slice (h.bytes ++ rest) offset k) = n := by
    intro pre post k n offset ho hn hbytes
    rw [hbytes, List.flatten_append, List.flatten_cons, List.append_assoc, List.append_assoc]
    exact leNat_slice ho hn
  have h0 := hb [] _ 4 h.magic.toNat 0 (by simp) h.magic.toNat_lt rfl
  have h4 := hb [_] _ 2 h.version.toNat 4 (by simp) h.version.toNat_lt rfl
  have h6 := hb [_, _] _ 2 h.type.toNat 6 (by simp) h.type.toNat_lt rfl
  have h8 := hb [_, _, _] _ 2 h.flags.toNat 8 (by simp) h.flags.toNat_lt rfl
  have h10 := hb [_, _, _, _] _ 2 h.reserved.toNat 10 (by simp) h.reserved.toNat_lt rfl
  have h12 := hb [_, _, _, _, _] _ 4 h.payloadLength.toNat 12 (by simp) h.payloadLength.toNat_lt rfl
  have h16 := hb [_, _, _, _, _, _] _ 8 h.actorId.toNat 16 (by simp) h.actorId.toNat_lt rfl
  have h24 := hb [_, _, _, _, _, _, _] _ 8 h.messageId.toNat 24 (by simp) h.messageId.toNat_lt rfl
  simp only [FrameHeader.read, h0, h4, h6, h8, h10, h12, h16, h24, UInt32.ofNat_toNat,
    UInt16.ofNat_toNat, UInt64.ofNat_toNat]

/-! What `encodeFrame` leaves in the buffer. Every store appends to what was stored before. -/

theorem store_append {done rest bytes : List UInt8} {offset : Nat} (ho : done.length = offset) :
    store (done ++ rest) offset bytes = done ++ bytes ++ rest.drop bytes.length := by
  subst ho
  simp [store, List.drop_append]

theorem store_nil (offset : Nat) : store buffer offset [] = buffer := by
  simp [store]

theorem ite_store_payload (offset : Nat) :
    (if payload ≠ [] then store buffer offset payload else buffer) =
      store buffer offset payload := by
  by_cases hp : payload = []
  · rw [hp, store_nil]
    simp
  · exact if_pos hp

theorem ite_store_padding (offset n : Nat) :
    (if n > 0 then store buffer offset (List.replicate n 0) else buffer) =
      store buffer offset (List.replicate n 0) := by
  cases n with
  | zero =>
    rw [List.replicate_zero, store_nil]
    simp
  | succ n => exact if_pos (Nat.succ_pos n)

def frameHeader (type : MessageType) (flags : UInt16) (actorId messageId : UInt64)
    (payloadLength : Nat) : FrameHeader :=
  ⟨magic, version, type.value, flags, 0, .ofNat payloadLength, actorId, messageId⟩

/-- The bytes of a frame. -/
def frameBytes (path : CrcPath) (h : FrameHeader) (payload : List UInt8) : List UInt8 :=
  h.bytes ++ payload ++ List.replicate (roundUp payload.length 8 - payload.length) 0 ++
    leBytes 4 (crc32c path (h.bytes ++ payload)).toNat

theorem length_frameBytes (h : FrameHeader) :
    (frameBytes path h payload).length = 36 + roundUp payload.length 8 := by
  have := le_roundUp (x := payload.length) (a := 8) (by decide)
  simp only [frameBytes, List.length_append, FrameHeader.length_bytes, headerSize,
    List.length_replicate, length_leBytes]
  omega

/-- The buffer after the header, the payload and the padding are stored. -/
theorem store_frame (h : FrameHeader) (zeros : List UInt8) :
    store (store (store buffer 0 h.bytes) headerSize payload) (headerSize + payload.length) zeros =
      h.bytes ++ payload ++ zeros ++ buffer.drop (headerSize + payload.length + zeros.length) := by
  have hh := h.length_bytes
  have h0 : store buffer 0 h.bytes = h.bytes ++ buffer.drop headerSize := by
    rw [← hh]
    simp [store]
  have hhp : (h.bytes ++ payload).length = headerSize + payload.length := by
    rw [List.length_append, hh]
  rw [h0, store_append hh, store_append hhp, List.drop_drop, List.drop_drop, Nat.add_assoc]

theorem encodeFrame_eq {type : MessageType} {flags : UInt16} {actorId messageId : UInt64}
    (hp : payload.length < 2^32) (hb : encodedFrameSize payload.length ≤ buffer.length) :
    encodeFrame path buffer type flags actorId messageId payload =
      (encodedFrameSize payload.length,
        frameBytes path (frameHeader type flags actorId messageId payload.length) payload ++
          buffer.drop (encodedFrameSize payload.length)) := by
  have hfit : payloadSizeFits payload.length = true := by
    simp only [payloadSizeFits, decide_eq_true_eq]
    omega
  have hle := le_roundUp (x := payload.length) (a := 8) (by decide)
  rw [encodedFrameSize_eq hp] at hb ⊢
  have hfits : ¬ (36 + roundUp payload.length 8 > buffer.length ∨
      36 + roundUp payload.length 8 < headerSize + crcSize) := by
    simp only [headerSize, crcSize]
    omega
  simp only [encodeFrame, hfit, layoutForPayload_eq hp, if_neg hfits, Bool.true_eq_false, if_false,
    ite_store_payload, ite_store_padding]
  simp only [store_frame, frameHeader, frameBytes, List.length_replicate]
  generalize FrameHeader.mk _ _ _ _ _ _ _ _ = h
  have hh := h.length_bytes
  have htake : ∀ zeros rest : List UInt8,
      (h.bytes ++ payload ++ zeros ++ rest).take (headerSize + payload.length) =
        h.bytes ++ payload := by
    intro zeros rest
    rw [List.append_assoc]
    apply List.take_left'
    rw [List.length_append, hh]
  have hlen : (h.bytes ++ payload ++
      List.replicate (roundUp payload.length 8 - payload.length) (0 : UInt8)).length =
        32 + roundUp payload.length 8 := by
    simp only [List.length_append, hh, List.length_replicate, headerSize]
    omega
  have hdrop : headerSize + payload.length + (roundUp payload.length 8 - payload.length) + 4 =
      36 + roundUp payload.length 8 := by
    simp only [headerSize]
    omega
  rw [store_append hlen, htake, List.drop_drop, length_leBytes, hdrop]

/-! What `parseFrame` makes of these bytes. -/

theorem parseFrame_frameBytes {h : FrameHeader} (hm : h.magic = magic) (hv : h.version = version)
    (hl : h.payloadLength.toNat = payload.length) (rest : List UInt8) :
    parseFrame path (frameBytes path h payload ++ rest) =
      ⟨h, payload, true, crc32c path (h.bytes ++ payload), crc32c path (h.bytes ++ payload)⟩ := by
  have hp : payload.length < 2^32 := hl ▸ h.payloadLength.toNat_lt
  have hle := le_roundUp (x := payload.length) (a := 8) (by decide)
  have hh := h.length_bytes
  have hsize : ¬ (frameBytes path h payload ++ rest).length < headerSize + crcSize := by
    rw [List.length_append, length_frameBytes]
    simp only [headerSize, crcSize]
    omega
  have htotal : ¬ (36 + roundUp payload.length 8 < headerSize + crcSize ∨
      36 + roundUp payload.length 8 > (frameBytes path h payload ++ rest).length) := by
    rw [List.length_append, length_frameBytes]
    simp only [headerSize, crcSize]
    omega
  have hread : FrameHeader.read (frameBytes path h payload ++ rest) = h := by
    simp only [frameBytes, List.append_assoc]
    exact h.read_bytes _
  have hpay : slice (frameBytes path h payload ++ rest) headerSize payload.length = payload := by
    simp only [frameBytes, List.append_assoc]
    rw [← List.append_assoc]
    exact slice_append hh rfl
  have htake : (frameBytes path h payload ++ rest).take (headerSize + payload.length) =
      h.bytes ++ payload := by
    simp only [frameBytes, List.append_assoc]
    rw [← List.append_assoc]
    apply List.take_left'
    rw [List.length_append, hh]
  have hcrc : leNat (slice (frameBytes path h payload ++ rest) (32 + roundUp payload.length 8) 4) =
      (crc32c path (h.bytes ++ payload)).toNat := by
    simp only [frameBytes]
    rw [List.append_assoc]
    apply leNat_slice
    · simp only [List.length_append, hh, List.length_replicate, headerSize]
      omega
    · exact (crc32c path (h.bytes ++ payload)).toNat_lt
  simp only [parseFrame, if_neg hsize, hread, hm, hv, ne_eq, not_true_eq_false, or_self, if_false,
    hl, layoutForPayload_eq hp, if_neg htotal, hpay, htake, hcrc, UInt32.ofNat_toNat, decide_true]

/-- A cut frame is refused, either as shorter than any frame or by the total its header gives. -/
theorem parseFrame_take {h : FrameHeader} (hl : h.payloadLength.toNat = payload.length) {m : Nat}
    (hm : m < 36 + roundUp payload.length 8) :
    (parseFrame path ((frameBytes path h payload).take m)).valid = false := by
  have hp : payload.length < 2^32 := hl ▸ h.payloadLength.toNat_lt
  have hlen : ((frameBytes path h payload).take m).length = m := by
    rw [List.length_take, length_frameBytes]
    omega
  by_cases hsize : m < headerSize + crcSize
  · simp only [parseFrame, hlen, if_pos hsize]
  have hread : FrameHeader.read ((frameBytes path h payload).take m) = h := by
    obtain ⟨k, rfl⟩ : ∃ k, m = h.bytes.length + k := by
      rw [h.length_bytes]
      exact Nat.exists_eq_add_of_le (by simp only [crcSize] at hsize; omega)
    simp only [frameBytes, List.append_assoc]
    rw [List.take_length_add_append]
    exact h.read_bytes _
  simp only [parseFrame, hlen, if_neg hsize, hread, hl, layoutForPayload_eq hp]
  split
  · rfl
  · rw [if_pos (Or.inr hm)]

/-- Encoding and parsing agree on the layout of a frame. -/
theorem parseFrame_encodeFrame (path : CrcPath) (buffer : List UInt8) (type : MessageType)
    (flags : UInt16) (actorId messageId : UInt64) (payload : List UInt8)
    (hp : payload.length < 2^32) (hb : encodedFrameSize payload.length ≤ buffer.length) :
    let out := encodeFrame path buffer type flags actorId messageId payload
    let n := encodedFrameSize payload.length
    out.1 = n ∧ out.2.length = buffer.length ∧
      (∀ trailing, let parsed := parseFrame path (out.2.take n ++ trailing)
        parsed.valid = true ∧ parsed.payloadOwned = payload ∧
        parsed.header = ⟨magic, version, type.value, flags, 0, .ofNat payload.length, actorId,
          messageId⟩ ∧
        parsed.header.payloadLength.toNat = payload.length) ∧
      ∀ m < n, (parseFrame path (out.2.take m)).valid = false := by
  intro out n
  have hn : n = 36 + roundUp payload.length 8 := encodedFrameSize_eq hp
  have hout : out = _ := encodeFrame_eq hp hb
  have hl : (frameHeader type flags actorId messageId payload.length).payloadLength.toNat =
      payload.length := by
    simp only [frameHeader, UInt32.toNat_ofNat']
    exact Nat.mod_eq_of_lt hp
  have hlen : (frameBytes path (frameHeader type flags actorId messageId payload.length)
      payload).length = n := by
    rw [length_frameBytes, hn]
  have htake : out.2.take n =
      frameBytes path (frameHeader type flags actorId messageId payload.length) payload := by
    rw [hout]
    exact List.take_left' hlen
  refine ⟨by rw [hout], ?_, ?_, ?_⟩
  · have hb' : n ≤ buffer.length := hb
    rw [hout, List.length_append, hlen, List.length_drop]
    omega
  · intro trailing
    rw [htake, parseFrame_frameBytes rfl rfl hl]
    exact ⟨rfl, rfl, rfl, hl⟩
  · intro m hm
    have hcut : out.2.take m = (out.2.take n).take m := by
      rw [List.take_take, Nat.min_eq_left hm.le]
    rw [hcut, htake]
    exact parseFrame_take hl (hn ▸ hm)

def hello : List UInt8 := [0x68, 0x65, 0x6C, 0x6C, 0x6F]

theorem parseFrame_encodeFrame_hello :
    let out := encodeFrame .sse42 (List.replicate 48 0xAB) .actorMessage 3 7 9 hello
    out.1 = 44 ∧ (parseFrame .sse42 out.2).payloadOwned = hello ∧
      ∀ m < 44, (parseFrame .sse42 (out.2.take m)).valid = false := by
  intro out
  have hn : encodedFrameSize hello.length = 44 := by decide
  have h := parseFrame_encodeFrame .sse42 (List.replicate 48 0xAB) .actorMessage 3 7 9 hello
    (by decide) (by decide)
  rw [hn] at h
  obtain ⟨hsize, -, hvalid, hcut⟩ := h
  have hpay := (hvalid (out.2.drop 44)).2.1
  rw [List.take_append_drop] at hpay
  exact ⟨hsize, hpay, hcut⟩

end Jellybean.Proto
