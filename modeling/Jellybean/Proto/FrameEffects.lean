import Jellybean.Proto.RoundTrip

namespace Jellybean.Proto

open Server (leBytes leNat length_leBytes leNat_leBytes)

variable {path : CrcPath} {buffer payload : List UInt8}

/-! `parse_frame` with every access checked against the end of the buffer. -/

/-- `size` bytes at `offset`, if all of them lie in the buffer. -/
def readAt (buffer : List UInt8) (offset size : Nat) : Option (List UInt8) :=
  if offset + size ≤ buffer.length then some (slice buffer offset size) else none

/-- The accesses of `parse_frame` in their order; the version is read when the magic is right. -/
def parseFrameChecked (path : CrcPath) (buffer : List UInt8) : Option ParsedFrame :=
  if buffer.length < headerSize + crcSize then some {}
  else do
    let magicBytes ← readAt buffer 0 4
    if UInt32.ofNat (leNat magicBytes) ≠ magic then some {}
    else do
      let versionBytes ← readAt buffer 4 2
      if UInt16.ofNat (leNat versionBytes) ≠ version then some {}
      else do
        let lengthBytes ← readAt buffer 12 4
        let payloadSize := (UInt32.ofNat (leNat lengthBytes)).toNat
        let layout := layoutForPayload payloadSize
        if layout.totalSize < headerSize + crcSize ∨ layout.totalSize > buffer.length then some {}
        else do
          let crcBytes ← readAt buffer layout.crcOffset 4
          let wireCrc := UInt32.ofNat (leNat crcBytes)
          let covered ← readAt buffer 0 ((headerSize + payloadSize) % 2^64)
          let computedCrc := crc32c path covered
          let headerBytes ← readAt buffer 0 headerSize
          let payloadOwned ← readAt buffer headerSize payloadSize
          some
            { header := FrameHeader.read headerBytes
              payloadOwned := payloadOwned
              valid := computedCrc = wireCrc
              expectedCrc := computedCrc
              actualCrc := wireCrc }

theorem readAt_eq {offset size : Nat} (h : offset + size ≤ buffer.length) :
    readAt buffer offset size = some (slice buffer offset size) :=
  if_pos h

theorem slice_slice {offset size k : Nat} (h : offset + size ≤ k) :
    slice (slice buffer 0 k) offset size = slice buffer offset size := by
  unfold slice
  rw [List.drop_zero, List.drop_take, List.take_take, Nat.min_eq_left (by omega)]

theorem FrameHeader.read_slice (buffer : List UInt8) :
    FrameHeader.read (slice buffer 0 headerSize) = FrameHeader.read buffer := by
  have h : ∀ offset size, offset + size ≤ 32 →
      slice (slice buffer 0 headerSize) offset size = slice buffer offset size :=
    fun _ _ => slice_slice
  simp only [FrameHeader.read, h 0 4 (by decide), h 4 2 (by decide), h 6 2 (by decide),
    h 8 2 (by decide), h 10 2 (by decide), h 12 4 (by decide), h 16 8 (by decide),
    h 24 8 (by decide)]

/-- No access is refused. -/
theorem parseFrameChecked_eq (path : CrcPath) (buffer : List UInt8) :
    parseFrameChecked path buffer = some (parseFrame path buffer) := by
  unfold parseFrameChecked parseFrame
  by_cases hsize : buffer.length < headerSize + crcSize
  · rw [if_pos hsize, if_pos hsize]
  rw [if_neg hsize, if_neg hsize]
  simp only [headerSize, crcSize] at hsize
  have hread : ∀ offset size, offset + size ≤ 32 →
      readAt buffer offset size = some (slice buffer offset size) :=
    fun _ _ h => readAt_eq (by omega)
  have hmagic : UInt32.ofNat (leNat (slice buffer 0 4)) = (FrameHeader.read buffer).magic := rfl
  have hversion : UInt16.ofNat (leNat (slice buffer 4 2)) = (FrameHeader.read buffer).version := rfl
  have hlength : UInt32.ofNat (leNat (slice buffer 12 4)) =
    (FrameHeader.read buffer).payloadLength := rfl
  have hheader := FrameHeader.read_slice buffer
  simp only [hread 0 4 (by decide), hread 4 2 (by decide), hread 12 4 (by decide),
    hread 0 headerSize (by decide), hmagic, hversion, hlength, hheader, Option.bind_eq_bind,
    Option.bind_some]
  generalize FrameHeader.read buffer = h
  by_cases hm : h.magic = magic
  · by_cases hv : h.version = version
    · have hn := h.payloadLength.toNat_lt
      have hround := roundUp_payload_lt hn
      have hle := le_roundUp (x := h.payloadLength.toNat) (a := 8) (by decide)
      have hwrap : (headerSize + h.payloadLength.toNat) % 2^64 =
          headerSize + h.payloadLength.toNat := by
        apply Nat.mod_eq_of_lt
        simp only [headerSize]
        omega
      simp only [hm, hv, ne_eq, not_true_eq_false, or_self, if_false, layoutForPayload_eq hn, hwrap]
      split
      · rfl
      · rename_i hfits
        simp only [headerSize, crcSize, not_or, not_lt] at hfits
        rw [readAt_eq (by omega), readAt_eq (by simp only [headerSize]; omega),
          readAt_eq (by simp only [headerSize]; omega)]
        rfl
    · rw [if_neg (not_not.mpr hm), if_pos hv, if_pos (Or.inr hv)]
  · rw [if_pos hm, if_pos (Or.inl hm)]

/-! What `encode_frame` does to the buffer. -/

/-- The two checks of `encode_frame`; the one on the total size is against the exact size. -/
theorem encodeFrame_refused {type : MessageType} {flags : UInt16} {actorId messageId : UInt64}
    (h : 2^32 - 1 < payload.length ∨ buffer.length < encodedFrameSize payload.length) :
    encodeFrame path buffer type flags actorId messageId payload = (0, buffer) := by
  unfold encodeFrame
  by_cases hp : payload.length < 2^32
  · have hb : 36 + roundUp payload.length 8 > buffer.length := by
      rw [encodedFrameSize_eq hp] at h
      omega
    simp only [layoutForPayload_eq hp, if_pos (Or.inl hb), ite_self]
  · have hfit : payloadSizeFits payload.length = false := by
      simp only [payloadSizeFits, decide_eq_false_iff_not]
      omega
    rw [if_pos hfit]

/-- The exact layout of a frame, in unbounded arithmetic; the sums of the computation on the way
to it are below `2^64`. -/
def ExactLayout (n : Nat) : Prop :=
  n + payloadAlignment < 2^64 ∧ headerSize + roundUp n payloadAlignment + crcSize < 2^64 ∧
    n ≤ roundUp n payloadAlignment ∧
    layoutForPayload n = ⟨headerSize, n, roundUp n payloadAlignment,
      headerSize + roundUp n payloadAlignment, headerSize + roundUp n payloadAlignment + crcSize⟩ ∧
    encodedFrameSize n = headerSize + roundUp n payloadAlignment + crcSize

theorem exactLayout {n : Nat} (hn : n < 2^32) : ExactLayout n := by
  have hround := roundUp_payload_lt hn
  have hle := le_roundUp (x := n) (a := 8) (by decide)
  have hsize := encodedFrameSize_eq hn
  have hlayout := layoutForPayload_eq hn
  have hsum : 32 + roundUp n 8 + 4 = 36 + roundUp n 8 := by omega
  unfold ExactLayout payloadAlignment headerSize crcSize
  rw [hsize, hlayout, hsum]
  refine ⟨by omega, by omega, hle, rfl, rfl⟩

/-- The frame effect of `encode_frame`, and `parse_frame` stays in its buffer. -/
theorem codec_effects (path : CrcPath) :
    (∀ (buffer : List UInt8) (type : MessageType) (flags : UInt16) (actorId messageId : UInt64)
      (payload : List UInt8),
      let out := encodeFrame path buffer type flags actorId messageId payload
      let n := encodedFrameSize payload.length
      (out.1 = 0 ↔ 2^32 - 1 < payload.length ∨ buffer.length < n) ∧
      (out.1 = 0 → out.2 = buffer) ∧
      (out.1 ≠ 0 →
        out.1 = n ∧ out.2.length = buffer.length ∧ out.2.drop n = buffer.drop n ∧
        (∀ i, headerSize + payload.length ≤ i → i < n - crcSize → out.2[i]? = some 0) ∧
        (∀ buffer' : List UInt8, n ≤ buffer'.length →
          let out' := encodeFrame path buffer' type flags actorId messageId payload
          out'.1 = out.1 ∧ out'.2.take n = out.2.take n) ∧
        ExactLayout payload.length)) ∧
    ∀ buffer, parseFrameChecked path buffer = some (parseFrame path buffer) := by
  refine ⟨?_, parseFrameChecked_eq path⟩
  intro buffer type flags actorId messageId payload out n
  by_cases h : 2^32 - 1 < payload.length ∨ buffer.length < n
  · have hout : out = (0, buffer) := encodeFrame_refused h
    refine ⟨⟨fun _ => h, fun _ => by rw [hout]⟩, fun _ => by rw [hout], fun hne => ?_⟩
    exact absurd (by rw [hout]) hne
  obtain ⟨hp, hb⟩ := not_or.mp h
  have hp : payload.length < 2^32 := by omega
  have hb : n ≤ buffer.length := by omega
  have hn : n = 36 + roundUp payload.length 8 := encodedFrameSize_eq hp
  have hle := le_roundUp (x := payload.length) (a := 8) (by decide)
  have hout : out = _ := encodeFrame_eq hp hb
  have hlen : (frameBytes path (frameHeader type flags actorId messageId payload.length)
      payload).length = n := by
    rw [length_frameBytes, hn]
  have hsize : out.1 = n := by rw [hout]
  have htake : out.2.take n =
      frameBytes path (frameHeader type flags actorId messageId payload.length) payload := by
    rw [hout]
    exact List.take_left' hlen
  refine ⟨⟨fun h0 => ?_, fun h' => absurd h' h⟩, fun h0 => ?_, fun _ => ⟨hsize, ?_, ?_, ?_, ?_,
    exactLayout hp⟩⟩
  · omega
  · omega
  · rw [hout, List.length_append, hlen, List.length_drop]
    omega
  · rw [hout]
    exact List.drop_left' hlen
  · intro i hlow hhigh
    have hi : i < n := by omega
    simp only [headerSize, crcSize] at hlow hhigh
    rw [← List.getElem?_take_of_lt hi, htake, frameBytes, List.append_assoc, List.getElem?_append,
      if_neg (by simp only [List.length_append, FrameHeader.length_bytes, headerSize]; omega),
      List.getElem?_append_left, List.getElem?_replicate, if_pos]
    all_goals
      simp only [List.length_append, FrameHeader.length_bytes, headerSize, List.length_replicate]
      omega
  · intro buffer' hb' out'
    have hout' : out' = _ := encodeFrame_eq hp hb'
    have hsize' : out'.1 = n := by rw [hout']
    refine ⟨hsize'.trans hsize.symm, ?_⟩
    rw [htake, hout']
    exact List.take_left' hlen

theorem codec_effects_hello :
    let out := encodeFrame .software (List.replicate 48 0xAB) .actorMessage 3 7 9 hello
    out.1 = 44 ∧ out.2.drop 44 = [0xAB, 0xAB, 0xAB, 0xAB] ∧ out.2[37]? = some 0 ∧
      (encodeFrame .software (List.replicate 43 0xAB) .actorMessage 3 7 9 hello).2 =
        List.replicate 43 0xAB := by
  have h := codec_effects .software
  have hlong := h.1 (List.replicate 48 0xAB) .actorMessage 3 7 9 hello
  have hshort := h.1 (List.replicate 43 0xAB) .actorMessage 3 7 9 hello
  have hne := mt hlong.1.mp (by decide)
  have h0 := hshort.1.mpr (by decide)
  obtain ⟨hsize, -, hdrop, hzero, -⟩ := hlong.2.2 hne
  exact ⟨hsize, hdrop, hzero 37 (by decide) (by decide), hshort.2.1 h0⟩

end Jellybean.Proto
