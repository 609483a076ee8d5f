import Jellybean.Framework.Crc
import Jellybean.Proto.RoundTrip

namespace Jellybean.Proto

open Polynomial

/-- The bits of a word in the order in which a reflected CRC takes them. -/
def bitsOf {w : Nat} (x : BitVec w) : List Bool := (List.range w).map x.getLsbD

/-- One message bit of the reflected CRC with polynomial `0x82F63B78`. -/
def crc32cFeed (crc : UInt32) (bit : Bool) : UInt32 :=
  if ((crc &&& 1) != 0) != bit then (crc >>> 1) ^^^ crc32cPolynomial else crc >>> 1

/-- The reference: bit after bit, initial value and final complement `0xFFFFFFFF`. -/
def crc32cBitwise (data : List UInt8) : UInt32 :=
  ~~~((data.flatMap fun byte => bitsOf byte.toBitVec).foldl crc32cFeed 0xFFFFFFFF)

/-- The two loops of the SSE4.2 path, over the two intrinsics. -/
def crc32cSse42LoopOf (mm8 : UInt32 → UInt8 → UInt32) (mm64 : UInt64 → UInt64 → UInt64) :
    UInt32 → List UInt8 → UInt32
  | crc, a :: b :: c :: d :: e :: f :: g :: h :: rest =>
    crc32cSse42LoopOf mm8 mm64 (mm64 crc.toUInt64 (chunkOf [a, b, c, d, e, f, g, h])).toUInt32 rest
  | crc, rest => rest.foldl mm8 crc

def crc32cSse42Of (mm8 : UInt32 → UInt8 → UInt32) (mm64 : UInt64 → UInt64 → UInt64)
    (data : List UInt8) : UInt32 :=
  ~~~(crc32cSse42LoopOf mm8 mm64 0xFFFFFFFF data)

/-- The polynomial `0x11EDC6F41` of the instruction. -/
noncomputable def castagnoli : (ZMod 2)[X] := Crc.coefficients 0x11EDC6F41#33

/-- `CRC32 r32, r/m8`: source and register are reflected and shifted by 32 and by 8 places;
the remainder of their sum is reflected back. -/
def Remainder8 (mm8 : UInt32 → UInt8 → UInt32) : Prop :=
  ∀ crc v, Crc.reflected (mm8 crc v).toBitVec =
    (X ^ 32 * Crc.reflected v.toBitVec + X ^ 8 * Crc.reflected crc.toBitVec) %ₘ castagnoli

/-- `CRC32 r64, r/m64`: only the low half of the register is used; the high half is cleared. -/
def Remainder64 (mm64 : UInt64 → UInt64 → UInt64) : Prop :=
  ∀ crc v, Crc.reflected (mm64 crc v).toUInt32.toBitVec =
      (X ^ 32 * Crc.reflected v.toBitVec + X ^ 64 * Crc.reflected crc.toUInt32.toBitVec) %ₘ
        castagnoli ∧
    (mm64 crc v).toNat < 2 ^ 32

theorem castagnoli_eq : castagnoli = Crc.generator crc32cPolynomial.toBitVec := by
  have hbit : ∀ i < 32,
      (0x11EDC6F41#33).getLsbD (32 - 1 - i) = (0x82F63B78#32).getLsbD i := by
    decide
  have hlow : ∑ i ∈ Finset.range 32, (if (0x11EDC6F41#33).getLsbD i then (X : (ZMod 2)[X]) ^ i
      else 0) = Crc.reflected crc32cPolynomial.toBitVec := by
    rw [← Finset.sum_range_reflect, Crc.reflected, Crc.reflectedBits]
    refine Finset.sum_congr rfl ?_
    intro i hi
    rw [hbit i (Finset.mem_range.mp hi)]
    rfl
  rw [castagnoli, Crc.coefficients, Finset.sum_range_succ, hlow, if_pos (by decide), add_comm]
  rfl

noncomputable section

/-- A polynomial modulo that of CRC-32C. -/
def residueOf : (ZMod 2)[X] →+* AdjoinRoot (Crc.generator crc32cPolynomial.toBitVec) :=
  AdjoinRoot.mk _

/-- The register as a residue. -/
def residue (crc : UInt32) : AdjoinRoot (Crc.generator crc32cPolynomial.toBitVec) :=
  residueOf (Crc.reflected crc.toBitVec)

theorem residue_inj {c d : UInt32} (h : residue c = residue d) : c = d :=
  UInt32.toBitVec_inj.mp (Crc.residue_injective h)

theorem residue_xor (c d : UInt32) : residue (c ^^^ d) = residue c + residue d := by
  unfold residue
  rw [UInt32.toBitVec_xor, Crc.reflected_xor, map_add]

theorem residue_eq_iff (c : UInt32) (f : (ZMod 2)[X]) :
    residue c = residueOf f ↔ Crc.reflected c.toBitVec = f %ₘ castagnoli := by
  rw [castagnoli_eq]
  exact Crc.residue_eq_iff c.toBitVec f

theorem residue_polynomial : residue crc32cPolynomial = residueOf (X ^ 32) :=
  Crc.mk_X_pow_width.symm

theorem and_one_ne_zero_iff (c : UInt32) : c &&& 1 ≠ 0 ↔ c.toBitVec.getLsbD 0 = true := by
  have h : (c &&& 1).toBitVec = (BitVec.ofBool (c.toBitVec.getLsbD 0)).setWidth 32 := by
    rw [UInt32.toBitVec_and]
    exact BitVec.and_one_eq_setWidth_ofBool_getLsbD
  rw [ne_eq, ← UInt32.toBitVec_inj, h]
  cases c.toBitVec.getLsbD 0 <;> decide

theorem toBitVec_crc32cBit (c : UInt32) :
    (crc32cBit c).toBitVec = Crc.bitStep crc32cPolynomial.toBitVec c.toBitVec := by
  unfold crc32cBit Crc.bitStep
  simp only [and_one_ne_zero_iff]
  split <;> simp

theorem residue_crc32cBit (c : UInt32) : residue (crc32cBit c) = residueOf X * residue c := by
  unfold residue
  rw [toBitVec_crc32cBit]
  exact Crc.residue_bitStep (n := 31) rfl c.toBitVec

theorem residue_crc32cRounds (n : Nat) (c : UInt32) :
    residue (crc32cRounds n c) = residueOf (X ^ n) * residue c := by
  induction n generalizing c with
  | zero => simp [crc32cRounds]
  | succ n ih =>
    rw [crc32cRounds, ih, residue_crc32cBit, pow_succ, map_mul, mul_assoc]

theorem crc32cFeed_eq (c : UInt32) (b : Bool) :
    crc32cFeed c b = if b then crc32cBit c ^^^ crc32cPolynomial else crc32cBit c := by
  unfold crc32cFeed crc32cBit
  by_cases h : c &&& 1 = 0
  · cases b <;> simp [h]
  · cases b <;> simp [h, UInt32.xor_assoc]

/-- A message bit enters above the register. -/
theorem residue_crc32cFeed (c : UInt32) (b : Bool) :
    residue (crc32cFeed c b) =
      residueOf X * residue c + if b then residueOf (X ^ 32) else 0 := by
  rw [crc32cFeed_eq]
  cases b with
  | false => simp [residue_crc32cBit]
  | true => simp [residue_xor, residue_crc32cBit, residue_polynomial]

/-- A string of message bits, of which the first becomes the highest power. -/
theorem residue_foldl_crc32cFeed (bits : List Bool) (c : UInt32) :
    residue (bits.foldl crc32cFeed c) = residueOf (X ^ bits.length) * residue c +
      residueOf (X ^ 32) * residueOf (Crc.reflectedBits bits.length fun i => bits.getD i false) := by
  induction bits generalizing c with
  | nil => simp [Crc.reflectedBits]
  | cons b bits ih =>
    have htail : (fun i => (b :: bits).getD (1 + i) false) = fun i => bits.getD i false := by
      funext i
      rw [Nat.add_comm 1 i, List.getD_cons_succ]
    rw [List.foldl_cons, ih, residue_crc32cFeed, List.length_cons,
      Crc.reflectedBits_split (n := bits.length) (m := 1) rfl, Crc.reflectedBits_one, htail]
    cases b with
    | false => simp [pow_succ, mul_assoc]
    | true => 
      simp [pow_succ, mul_assoc]
      ring

theorem residue_foldl_bitsOf {w : Nat} (x : BitVec w) (c : UInt32) :
    residue ((bitsOf x).foldl crc32cFeed c) =
      residueOf (X ^ 32 * Crc.reflected x + X ^ w * Crc.reflected c.toBitVec) := by
  have hx : Crc.reflectedBits w (fun i => (bitsOf x).getD i false) = Crc.reflected x := by
    apply Crc.reflectedBits_congr
    intro i hi
    simp [bitsOf, hi]
  rw [residue_foldl_crc32cFeed, bitsOf, List.length_map, List.length_range, ← bitsOf, hx, add_comm,
    map_add, map_mul, map_mul, residue]

/-- The instruction of any width takes the bits of its source one by one. -/
theorem foldl_bitsOf_eq_iff {w : Nat} (x : BitVec w) (c d : UInt32) :
    d = (bitsOf x).foldl crc32cFeed c ↔ Crc.reflected d.toBitVec =
      (X ^ 32 * Crc.reflected x + X ^ w * Crc.reflected c.toBitVec) %ₘ castagnoli := by
  rw [← residue_eq_iff, ← residue_foldl_bitsOf]
  exact ⟨congrArg residue, residue_inj⟩

theorem residue_toUInt32 (v : UInt8) :
    residue v.toUInt32 = residueOf (X ^ 24 * Crc.reflected v.toBitVec) := by
  unfold residue
  rw [UInt8.toBitVec_toUInt32, Crc.reflected_setWidth (n := 24) rfl]

theorem mmCrc32U8_eq (c : UInt32) (v : UInt8) :
    mmCrc32U8 c v = (bitsOf v.toBitVec).foldl crc32cFeed c := by
  apply residue_inj
  rw [residue_foldl_bitsOf, mmCrc32U8, residue_crc32cRounds, residue_xor, residue_toUInt32, residue,
    ← map_add, ← map_mul]
  congr 1
  ring

theorem mmCrc32U8_remainder : Remainder8 mmCrc32U8 := by
  intro crc v
  rw [← foldl_bitsOf_eq_iff]
  exact mmCrc32U8_eq crc v

theorem crc32cTable_getD (v : UInt8) :
    crc32cTable.getD v.toNat 0 = crc32cRounds 8 v.toUInt32 := by
  have hv : v.toNat < 256 := v.toNat_lt
  have hword : UInt32.ofNat v.toNat = v.toUInt32 := by
    apply UInt32.toNat_inj.mp
    simp
  rw [crc32cTable, makeCrc32cTable, Array.getD_eq_getD_getElem?, Array.getElem?_ofFn, dif_pos hv,
    Option.getD_some, hword]

/-- The table holds the effect of eight rounds on the byte that leaves the register. -/
theorem crc32cRounds_eight (c : UInt32) :
    crc32cRounds 8 c = (c >>> 8) ^^^ crc32cTable.getD (c &&& 0xFF).toUInt8.toNat 0 := by
  have hlow : Crc.reflected (c &&& 0xFF).toUInt8.toBitVec =
      Crc.reflectedBits 8 c.toBitVec.getLsbD := by
    apply Crc.reflectedBits_congr
    intro i hi
    interval_cases i <;> simp
  have hshift : (c >>> 8).toBitVec = c.toBitVec >>> 8 := by simp
  have h := congrArg residueOf (Crc.X_pow_mul_reflected (n := 24) (m := 8) rfl c.toBitVec)
  apply residue_inj
  rw [crc32cTable_getD, residue_xor, residue_crc32cRounds, residue_crc32cRounds, residue_toUInt32,
    hlow, residue, residue, hshift, ← map_mul, h, map_add, ← map_mul, ← mul_assoc, ← pow_add]

theorem crc32cStep_eq (c : UInt32) (v : UInt8) :
    crc32cStep c v = (bitsOf v.toBitVec).foldl crc32cFeed c := by
  have hv : v.toUInt32 >>> 8 = 0 := by
    apply UInt32.toNat_inj.mp
    have hv : v.toNat < 256 := v.toNat_lt
    simp
    omega
  have hshift : (c ^^^ v.toUInt32) >>> 8 = c >>> 8 := by
    rw [UInt32.shiftRight_xor, hv, UInt32.xor_zero]
  rw [← mmCrc32U8_eq, mmCrc32U8, crc32cRounds_eight, hshift]
  rfl

theorem getLsbD_chunkOf_cons (b : UInt8) (bytes : List UInt8) {i : Nat} (hi : i < 64) :
    (chunkOf (b :: bytes)).toBitVec.getLsbD i =
      if i < 8 then b.toBitVec.getLsbD i else (chunkOf bytes).toBitVec.getLsbD (i - 8) := by
  have hcons : chunkOf (b :: bytes) = chunkOf bytes <<< 8 ||| b.toUInt64 := rfl
  rw [hcons]
  by_cases h : i < 8
  · simp [h, hi]
  · have hb : b.toBitVec.getLsbD i = false := BitVec.getLsbD_of_ge _ _ (by omega)
    simp [h, hi, hb, BitVec.getLsbD_eq_getElem (show i - 8 < 64 by omega)]

/-- The bits of a chunk are those of its bytes in memory order. -/
theorem bitsOf_chunkOf (bytes : List UInt8) {k : Nat} (hk : bytes.length = k) (h8 : k ≤ 8) :
    (List.range (8 * k)).map (chunkOf bytes).toBitVec.getLsbD =
      bytes.flatMap fun byte => bitsOf byte.toBitVec := by
  induction bytes generalizing k with
  | nil =>
    subst hk
    rfl
  | cons b bytes ih =>
    subst hk
    have hlen : (b :: bytes).length = bytes.length + 1 := rfl
    rw [hlen, Nat.mul_add, Nat.add_comm, List.range_add, List.map_append, List.map_map,
      List.flatMap_cons, ← ih rfl (by omega)]
    congr 1
    · apply List.map_congr_left
      intro i hi
      have hi := List.mem_range.mp hi
      rw [getLsbD_chunkOf_cons b bytes (by omega), if_pos hi]
    · apply List.map_congr_left
      intro i hi
      have hi := List.mem_range.mp hi
      rw [Function.comp_apply, getLsbD_chunkOf_cons b bytes (by omega), if_neg (by omega),
        Nat.add_sub_cancel_left]

section Intrinsics

variable {mm8 : UInt32 → UInt8 → UInt32} {mm64 : UInt64 → UInt64 → UInt64}

theorem Remainder8.eq_foldl (h : Remainder8 mm8) (c : UInt32) (v : UInt8) :
    mm8 c v = (bitsOf v.toBitVec).foldl crc32cFeed c :=
  (foldl_bitsOf_eq_iff _ _ _).mpr (h c v)

theorem Remainder64.eq_foldl (h : Remainder64 mm64) (c : UInt32) (v : UInt64) :
    (mm64 c.toUInt64 v).toUInt32 = (bitsOf v.toBitVec).foldl crc32cFeed c := by
  have hc : c.toUInt64.toUInt32 = c := by simp
  apply (foldl_bitsOf_eq_iff _ _ _).mpr
  have := (h c.toUInt64 v).1
  rwa [hc] at this

theorem foldl_bytes {f : UInt32 → UInt8 → UInt32}
    (hf : ∀ c v, f c v = (bitsOf v.toBitVec).foldl crc32cFeed c) (data : List UInt8)
    (c : UInt32) :
    data.foldl f c = (data.flatMap fun byte => bitsOf byte.toBitVec).foldl crc32cFeed c := by
  induction data generalizing c with
  | nil => rfl
  | cons v data ih => rw [List.foldl_cons, ih, hf, List.flatMap_cons, List.foldl_append]

/-- Eight bytes at a time and then byte by byte, every bit goes in once and in order. -/
theorem crc32cSse42LoopOf_eq (h8 : Remainder8 mm8) (h64 : Remainder64 mm64) (c : UInt32)
    (data : List UInt8) :
    crc32cSse42LoopOf mm8 mm64 c data =
      (data.flatMap fun byte => bitsOf byte.toBitVec).foldl crc32cFeed c := by
  induction c, data using crc32cSse42LoopOf.induct mm64 with
  | case1 crc a b c d e f g h rest ih =>
    have hsplit : a :: b :: c :: d :: e :: f :: g :: h :: rest =
        [a, b, c, d, e, f, g, h] ++ rest := rfl
    have hchunk := bitsOf_chunkOf [a, b, c, d, e, f, g, h] rfl le_rfl
    rw [crc32cSse42LoopOf, ih, h64.eq_foldl, hsplit, List.flatMap_append, List.foldl_append,
      ← hchunk]
    rfl
  | case2 crc rest hrest =>
    rw [crc32cSse42LoopOf]
    · exact foldl_bytes h8.eq_foldl rest crc
    · exact hrest

end Intrinsics

theorem bitsOf_byte (v : UInt64) {i : Nat} (hi : i < 8) :
    bitsOf (v >>> (8 * .ofNat i)).toUInt8.toBitVec =
      (List.range 8).map fun j => v.toBitVec.getLsbD (8 * i + j) := by
  apply List.map_congr_left
  intro j hj
  have hj := List.mem_range.mp hj
  interval_cases i <;> simp [hj]

theorem mmCrc32U64_remainder : Remainder64 mmCrc32U64 := by
  intro crc v
  constructor
  · have hbits : (List.range 8).flatMap (fun i => bitsOf (v >>> (8 * .ofNat i)).toUInt8.toBitVec) =
        bitsOf v.toBitVec := by
      calc
        _ = (List.range 8).flatMap fun i =>
            (List.range 8).map fun j => v.toBitVec.getLsbD (8 * i + j) :=
          List.flatMap_congr fun i hi => bitsOf_byte v (List.mem_range.mp hi)
        _ = bitsOf v.toBitVec := rfl
    rw [← foldl_bitsOf_eq_iff, ← hbits, List.foldl_flatMap]
    simp only [mmCrc32U64, mmCrc32U8_eq, UInt32.toUInt32_toUInt64]
  · have h := UInt32.toNat_lt ((List.range 8).foldl
      (fun c i => mmCrc32U8 c (v >>> (8 * .ofNat i)).toUInt8) crc.toUInt32)
    simpa [mmCrc32U64] using h

theorem crc32cSse42LoopOf_intrinsics (c : UInt32) (data : List UInt8) :
    crc32cSse42LoopOf mmCrc32U8 mmCrc32U64 c data = crc32cSse42Loop c data := by
  induction c, data using crc32cSse42LoopOf.induct mmCrc32U64 with
  | case1 crc a b c d e f g h rest ih => exact ih
  | case2 crc rest hrest =>
    rw [crc32cSse42LoopOf, crc32cSse42Loop]
    · exact hrest
    · exact hrest

theorem crc32cSoftware_eq (data : List UInt8) : crc32cSoftware data = crc32cBitwise data := by
  unfold crc32cSoftware crc32cBitwise
  rw [foldl_bytes crc32cStep_eq]

theorem crc32cSse42Of_eq {mm8 : UInt32 → UInt8 → UInt32} {mm64 : UInt64 → UInt64 → UInt64}
    (h8 : Remainder8 mm8) (h64 : Remainder64 mm64) (data : List UInt8) :
    crc32cSse42Of mm8 mm64 data = crc32cBitwise data := by
  unfold crc32cSse42Of crc32cBitwise
  rw [crc32cSse42LoopOf_eq h8 h64]

/-- Whichever branch was compiled, `crc32c` is the reference. -/
theorem crc32c_eq (path : CrcPath) : crc32c path = crc32cBitwise := by
  funext data
  cases path with
  | sse42 =>
    rw [crc32c, crc32cSse42, ← crc32cSse42LoopOf_intrinsics]
    exact crc32cSse42Of_eq mmCrc32U8_remainder mmCrc32U64_remainder data
  | software => exact crc32cSoftware_eq data

theorem parseFrame_eq (path other : CrcPath) : parseFrame path = parseFrame other := by
  funext buffer
  unfold parseFrame
  rw [crc32c_eq path, crc32c_eq other]

/-- The three ways to compute the checksum agree, and a frame written by one build is valid
for another. -/
theorem crc32c_paths_agree (mm8 : UInt32 → UInt8 → UInt32) (mm64 : UInt64 → UInt64 → UInt64)
    (h8 : Remainder8 mm8) (h64 : Remainder64 mm64) :
    (∀ data, crc32cSse42Of mm8 mm64 data = crc32cBitwise data ∧
      crc32cSoftware data = crc32cBitwise data ∧
      crc32cSse42Of mm8 mm64 data = crc32c .sse42 data) ∧
    ∀ (writer reader : CrcPath) (buffer : List UInt8) (type : MessageType) (flags : UInt16)
      (actorId messageId : UInt64) (payload trailing : List UInt8),
      payload.length < 2^32 → encodedFrameSize payload.length ≤ buffer.length →
      let out := encodeFrame writer buffer type flags actorId messageId payload
      let parsed := parseFrame reader (out.2.take out.1 ++ trailing)
      parsed.valid = true ∧ parsed.payloadOwned = payload := by
  constructor
  · intro data
    refine ⟨crc32cSse42Of_eq h8 h64 data, crc32cSoftware_eq data, ?_⟩
    rw [crc32c_eq, crc32cSse42Of_eq h8 h64]
  · intro writer reader buffer type flags actorId messageId payload trailing hp hb out
    have hout : out = _ := encodeFrame_eq hp hb
    have hl : (frameHeader type flags actorId messageId payload.length).payloadLength.toNat =
        payload.length := by
      simp only [frameHeader, UInt32.toNat_ofNat']
      exact Nat.mod_eq_of_lt hp
    have hlen : (frameBytes writer (frameHeader type flags actorId messageId payload.length)
        payload).length = encodedFrameSize payload.length := by
      rw [length_frameBytes, encodedFrameSize_eq hp]
    have htake : out.2.take out.1 =
        frameBytes writer (frameHeader type flags actorId messageId payload.length) payload := by
      rw [hout]
      exact List.take_left' hlen
    rw [htake, parseFrame_eq reader writer, parseFrame_frameBytes rfl rfl hl]
    exact ⟨rfl, rfl⟩

theorem crc32c_paths_agree_hello :
    crc32cSse42Of mmCrc32U8 mmCrc32U64 hello = crc32cBitwise hello ∧
      crc32cSoftware hello = crc32cBitwise hello ∧
      (parseFrame .software
        ((encodeFrame .sse42 (List.replicate 48 0) .actorMessage 3 7 9 hello).2.take 44)).valid =
          true := by
  have h := crc32c_paths_agree mmCrc32U8 mmCrc32U64 mmCrc32U8_remainder mmCrc32U64_remainder
  have hv := (h.2 .sse42 .software (List.replicate 48 0) .actorMessage 3 7 9 hello [] (by decide)
    (by decide)).1
  rw [List.append_nil] at hv
  exact ⟨(h.1 hello).1, (h.1 hello).2.1, hv⟩

end

end Jellybean.Proto
