import Jellybean.Framework.Align
import Jellybean.Proto.Crc32c
import Jellybean.Server.WireProtocol

namespace Jellybean.Proto

open Server (leBytes leNat length_leBytes leNat_leBytes)

def magic : UInt32 := 0x48454C31
def version : UInt16 := 1
def payloadAlignment : Nat := 8
def crcSize : Nat := 4

/-- A scoped enumeration over `uint16_t`; it can hold values without a name. -/
structure MessageType where
  value : UInt16
  deriving DecidableEq

def MessageType.handshake : MessageType := ⟨0x0001⟩
def MessageType.actorMessage : MessageType := ⟨0x0002⟩
def MessageType.heartbeat : MessageType := ⟨0x0003⟩
def MessageType.raftAppend : MessageType := ⟨0x0010⟩
def MessageType.raftVote : MessageType := ⟨0x0011⟩
def MessageType.raftSnapshot : MessageType := ⟨0x0012⟩

@[ext] structure FrameHeader where
  magic : UInt32 := 0
  version : UInt16 := 0
  type : UInt16 := 0
  flags : UInt16 := 0
  reserved : UInt16 := 0
  payloadLength : UInt32 := 0
  actorId : UInt64 := 0
  messageId : UInt64 := 0
  deriving DecidableEq

/-- `sizeof(FrameHeader)`; the struct is packed. -/
def headerSize : Nat := 32

structure ParsedFrame where
  header : FrameHeader := {}
  payloadOwned : List UInt8 := []
  valid : Bool := false
  expectedCrc : UInt32 := 0
  actualCrc : UInt32 := 0
  deriving DecidableEq

/-- On `size_t`. -/
def alignUp (value alignment : Nat) : Nat :=
  ((value + alignment - 1) % 2^64) &&& (2^64 - 1 - (alignment - 1))

def payloadSizeFits (payloadSize : Nat) : Bool := payloadSize ≤ 2^32 - 1

def encodedFrameSize (payloadSize : Nat) : Nat :=
  (headerSize + alignUp payloadSize payloadAlignment + crcSize) % 2^64

structure FrameLayout where
  headerSize : Nat
  payloadSize : Nat
  paddedPayloadSize : Nat
  crcOffset : Nat
  totalSize : Nat

def layoutForPayload (payloadSize : Nat) : FrameLayout :=
  let paddedPayloadSize := alignUp payloadSize payloadAlignment
  let crcOffset := (headerSize + paddedPayloadSize) % 2^64
  ⟨headerSize, payloadSize, paddedPayloadSize, crcOffset, (crcOffset + crcSize) % 2^64⟩

/-- The bytes of the packed struct on a little-endian machine. -/
def FrameHeader.bytes (h : FrameHeader) : List UInt8 :=
  List.flatten [leBytes 4 h.magic.toNat, leBytes 2 h.version.toNat, leBytes 2 h.type.toNat,
    leBytes 2 h.flags.toNat, leBytes 2 h.reserved.toNat, leBytes 4 h.payloadLength.toNat,
    leBytes 8 h.actorId.toNat, leBytes 8 h.messageId.toNat]

def slice (buffer : List UInt8) (offset size : Nat) : List UInt8 := (buffer.drop offset).take size

/-- `reinterpret_cast<const FrameHeader*>` of the start of the buffer. -/
def FrameHeader.read (buffer : List UInt8) : FrameHeader where
  magic := .ofNat (leNat (slice buffer 0 4))
  version := .ofNat (leNat (slice buffer 4 2))
  type := .ofNat (leNat (slice buffer 6 2))
  flags := .ofNat (leNat (slice buffer 8 2))
  reserved := .ofNat (leNat (slice buffer 10 2))
  payloadLength := .ofNat (leNat (slice buffer 12 4))
  actorId := .ofNat (leNat (slice buffer 16 8))
  messageId := .ofNat (leNat (slice buffer 24 8))

def parseFrame (path : CrcPath) (buffer : List UInt8) : ParsedFrame :=
  if buffer.length < headerSize + crcSize then {}
  else
    let header := FrameHeader.read buffer
    if header.magic ≠ magic ∨ header.version ≠ version then {}
    else
      let payloadSize := header.payloadLength.toNat
      let layout := layoutForPayload payloadSize
      if layout.totalSize < headerSize + crcSize ∨ layout.totalSize > buffer.length then {}
      else
        let wireCrc := UInt32.ofNat (leNat (slice buffer layout.crcOffset 4))
        let computedCrc := crc32c path (buffer.take (headerSize + payloadSize))
        { header := header
          payloadOwned := slice buffer headerSize payloadSize
          valid := computedCrc = wireCrc
          expectedCrc := computedCrc
          actualCrc := wireCrc }

/-- `memcpy` and `memset` into the buffer. -/
def store (buffer : List UInt8) (offset : Nat) (bytes : List UInt8) : List UInt8 :=
  buffer.take offset ++ bytes ++ buffer.drop (offset + bytes.length)

/-- The returned size and the buffer afterwards. -/
def encodeFrame (path : CrcPath) (buffer : List UInt8) (type : MessageType) (flags : UInt16)
    (actorId messageId : UInt64) (payload : List UInt8) : Nat × List UInt8 :=
  if payloadSizeFits payload.length = false then (0, buffer)
  else
    let layout := layoutForPayload payload.length
    if layout.totalSize > buffer.length ∨ layout.totalSize < headerSize + crcSize then (0, buffer)
    else
      let header : FrameHeader :=
        ⟨magic, version, type.value, flags, 0, .ofNat payload.length, actorId, messageId⟩
      let buffer := store buffer 0 header.bytes
      let buffer := if payload ≠ [] then store buffer headerSize payload else buffer
      let paddingSize := layout.paddedPayloadSize - payload.length
      let buffer :=
        if paddingSize > 0 then
          store buffer (headerSize + payload.length) (List.replicate paddingSize 0)
        else buffer
      let checksum := crc32c path (buffer.take (headerSize + payload.length))
      (layout.totalSize, store buffer layout.crcOffset (leBytes 4 checksum.toNat))

end Jellybean.Proto
