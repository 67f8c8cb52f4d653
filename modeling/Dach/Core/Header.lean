/-
Module: Dach.Core.Header
Layer: Core
Purpose: The 16-byte record header of `dach_header.c`: how its fields are packed, how they are read
  back, and the two helpers for a bare length header.
Imports: Dach.Core.Machine
Trusted boundary: human-reviewed model of src/dach/dach_header.c
Main exports: Header, dachHeaderNewBlank, dachHeaderNew, dachHeaderPack, dachHeaderUnpack, getU32,
  dachWriteHdrU32, dachReadHdrU32
-/
import Dach.Core.Machine

namespace Dach

/-- `struct dach_header` -/
structure Header where
  id1 : UInt8
  id2 : UInt8
  maj : UInt8
  min : UInt8
  blockSize : UInt32
  crc : UInt32
  model : UInt32
deriving DecidableEq, Repr

/-- `dach_header_new_blank` -/
def dachHeaderNewBlank : Header :=
  { id1 := 0, id2 := 0, maj := 0, min := 0, blockSize := 0, crc := 0, model := 0 }

/-- `dach_header_new`: the identifier `HJ` and version 0.1. -/
def dachHeaderNew (bsize crc model : UInt32) : Header :=
  { id1 := 0x48, id2 := 0x4A, maj := 0, min := 1, blockSize := bsize, crc := crc, model := model }

/-- `DACH_HDR_SIZE_PACKED`, also `dach_header_size()` -/
def dachHeaderSize : Nat := 16

/-- `dach_header_pack`: four single bytes, then the memory of the three words. -/
def dachHeaderPack (order : ByteOrder) (hdr : Header) : List UInt8 :=
  [hdr.id1, hdr.id2, hdr.maj, hdr.min] ++ u32Bytes order hdr.blockSize.toNat ++
    u32Bytes order hdr.crc.toNat ++ u32Bytes order hdr.model.toNat

/-- `get_u32`: the word at an offset of the buffer, lowest byte first on every host. -/
def getU32 (buff : List UInt8) (off : Nat) : UInt32 :=
  let byte := fun i => (buff.getD (off + i) 0).toNat
  UInt32.ofNat (byte 0 ||| byte 1 <<< 8 ||| byte 2 <<< 16 ||| byte 3 <<< 24)

/-- `dach_header_unpack` into an existing header. -/
def dachHeaderUnpack (hdr : Header) (buff : List UInt8) : Header :=
  { hdr with
    id1 := buff.getD 0 0
    id2 := buff.getD 1 0
    maj := buff.getD 2 0
    min := buff.getD 3 0
    blockSize := getU32 buff 4
    crc := getU32 buff 8 }

/-- `dach_write_hdr_u32`: the memory of the word. -/
def dachWriteHdrU32 (order : ByteOrder) (data : Nat) : List UInt8 :=
  u32Bytes order data

/-- `dach_read_hdr_u32`: the word whose memory is the header, a short header padded with zeros as the
    caller's `calloc` leaves it. -/
def dachReadHdrU32 (order : ByteOrder) (header : List UInt8) : Nat :=
  u32OfBytes order header

end Dach
