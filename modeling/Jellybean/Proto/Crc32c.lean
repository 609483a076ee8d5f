import Mathlib.Tactic

namespace Jellybean.Proto

def crc32cPolynomial : UInt32 := 0x82F63B78

/-- One round of the inner loop of `make_crc32c_table`. -/
def crc32cBit (crc : UInt32) : UInt32 :=
  if crc &&& 1 ≠ 0 then (crc >>> 1) ^^^ crc32cPolynomial else crc >>> 1

def crc32cRounds : Nat → UInt32 → UInt32
  | 0, crc => crc
  | n + 1, crc => crc32cRounds n (crc32cBit crc)

def makeCrc32cTable : Array UInt32 := Array.ofFn fun i : Fin 256 => crc32cRounds 8 (.ofNat i)

def crc32cTable : Array UInt32 := makeCrc32cTable

/-- One byte of the loop of `crc32c_software`. -/
def crc32cStep (crc : UInt32) (byte : UInt8) : UInt32 :=
  let idx := ((crc ^^^ byte.toUInt32) &&& 0xFF).toUInt8
  (crc >>> 8) ^^^ crc32cTable.getD idx.toNat 0

def crc32cSoftware (data : List UInt8) : UInt32 := ~~~(data.foldl crc32cStep 0xFFFFFFFF)

/-- The instruction for one byte. -/
def mmCrc32U8 (crc : UInt32) (v : UInt8) : UInt32 := crc32cRounds 8 (crc ^^^ v.toUInt32)

/-- The instruction for eight bytes, of which the least significant one goes first. -/
def mmCrc32U64 (crc : UInt64) (v : UInt64) : UInt64 :=
  ((List.range 8).foldl (fun c i => mmCrc32U8 c (v >>> (8 * .ofNat i)).toUInt8)
    crc.toUInt32).toUInt64

/-- `memcpy` of eight bytes into a `uint64_t` on a little-endian machine. -/
def chunkOf (bytes : List UInt8) : UInt64 :=
  bytes.foldr (fun b acc => acc <<< 8 ||| b.toUInt64) 0

/-- The two loops of the SSE4.2 path. -/
def crc32cSse42Loop : UInt32 → List UInt8 → UInt32
  | crc, a :: b :: c :: d :: e :: f :: g :: h :: rest =>
    crc32cSse42Loop (mmCrc32U64 crc.toUInt64 (chunkOf [a, b, c, d, e, f, g, h])).toUInt32 rest
  | crc, rest => rest.foldl mmCrc32U8 crc

def crc32cSse42 (data : List UInt8) : UInt32 := ~~~(crc32cSse42Loop 0xFFFFFFFF data)

/-- Which branch of `#if defined(__SSE4_2__)` was compiled. -/
inductive CrcPath where
  | sse42
  | software
  deriving DecidableEq

def crc32c : CrcPath → List UInt8 → UInt32
  | .sse42, data => crc32cSse42 data
  | .software, data => crc32cSoftware data

end Jellybean.Proto
