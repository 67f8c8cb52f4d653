/-
Module: Dach.Proofs.Header
Layer: Proofs
Purpose: The packed record header there and back. The two mechanisms for words, a copy of memory and
  explicit shifts, agree on a little-endian host; the reader fills every field but `model`.
Imports: Dach.Core.Header
Trusted boundary: none
Main exports: getU32_eq, u32Bytes_u32OfBytes, dachHeaderUnpack_pack, dachHeaderPack_unpack,
  dachHeader_roundTrip_iff
-/
import Dach.Core.Header

namespace Dach

/-! ### Words -/

/-- Four bytes put together by shifts. -/
theorem or_shifts_eq {a b c d : Nat} (ha : a < 2 ^ 8) (hb : b < 2 ^ 8) (hc : c < 2 ^ 8) :
    a ||| b <<< 8 ||| c <<< 16 ||| d <<< 24 = a + b * 2 ^ 8 + c * 2 ^ 16 + d * 2 ^ 24 := by
  have hone := Nat.two_pow_add_eq_or_of_lt (i := 8) ha b
  have htwo := Nat.two_pow_add_eq_or_of_lt (i := 16) (b := a + b * 2 ^ 8) (by omega) c
  have hthree := Nat.two_pow_add_eq_or_of_lt (i := 24) (b := a + b * 2 ^ 8 + c * 2 ^ 16) (by omega) d
  rw [Nat.shiftLeft_eq, Nat.shiftLeft_eq, Nat.shiftLeft_eq]
  calc a ||| b * 2 ^ 8 ||| c * 2 ^ 16 ||| d * 2 ^ 24
      = a + b * 2 ^ 8 ||| c * 2 ^ 16 ||| d * 2 ^ 24 := by
        rw [Nat.or_comm a, Nat.mul_comm b, ← hone, Nat.add_comm]
    _ = a + b * 2 ^ 8 + c * 2 ^ 16 ||| d * 2 ^ 24 := by
        rw [Nat.or_comm (a + b * 2 ^ 8), Nat.mul_comm c, ← htwo, Nat.add_comm]
    _ = a + b * 2 ^ 8 + c * 2 ^ 16 + d * 2 ^ 24 := by
        rw [Nat.or_comm, Nat.mul_comm d, ← hthree, Nat.add_comm]

/-- `get_u32` reads what a little-endian host would load from the offset. -/
theorem getU32_eq (buff : List UInt8) (off : Nat) :
    getU32 buff off = UInt32.ofNat (u32OfBytes .little (buff.drop off)) := by
  have hget : ∀ i, (buff.drop off).getD i 0 = buff.getD (off + i) 0 := by
    intro i
    rw [List.getD_eq_getElem?_getD, List.getD_eq_getElem?_getD, List.getElem?_drop]
  simp only [getU32, u32OfBytes, hget]
  rw [or_shifts_eq (UInt8.toNat_lt _) (UInt8.toNat_lt _) (UInt8.toNat_lt _)]

/-- Loading a word and storing it back gives its four bytes. -/
theorem u32Bytes_u32OfBytes (a b c d : UInt8) (rest : List UInt8) :
    u32Bytes .little (u32OfBytes .little (a :: b :: c :: d :: rest)) = [a, b, c, d] := by
  have ha := a.toNat_lt
  have hb := b.toNat_lt
  have hc := c.toNat_lt
  have hd := d.toNat_lt
  simp only [u32Bytes, u32OfBytes, List.getD_cons_zero, List.getD_cons_succ, List.cons.injEq, and_true]
  refine ⟨?_, ?_, ?_, ?_⟩ <;>
    · rw [← UInt8.toNat_inj, UInt8.toNat_ofNat']
      omega

/-- A word of the header is read back wherever it stands. -/
theorem getU32_u32Bytes (before after : List UInt8) (w : UInt32) {off : Nat}
    (hoff : before.length = off) :
    getU32 (before ++ u32Bytes .little w.toNat ++ after) off = w := by
  rw [getU32_eq, List.append_assoc, List.drop_left' hoff]
  have htake : u32OfBytes .little (u32Bytes .little w.toNat ++ after) = w.toNat := by
    calc u32OfBytes .little (u32Bytes .little w.toNat ++ after)
        = u32OfBytes .little (u32Bytes .little w.toNat) := rfl
      _ = w.toNat := by rw [u32OfBytes_u32Bytes, u32_of_lt w.toNat_lt]
  rw [htake, UInt32.ofNat_toNat]

/-! ### Headers -/

/-- Unpacking a packed header gives back every field but `model`. -/
theorem dachHeaderUnpack_pack (blank h : Header) :
    dachHeaderUnpack blank (dachHeaderPack .little h) = { h with model := blank.model } := by
  have hblock : getU32 (dachHeaderPack .little h) 4 = h.blockSize := by
    have hread := getU32_u32Bytes [h.id1, h.id2, h.maj, h.min]
      (u32Bytes .little h.crc.toNat ++ u32Bytes .little h.model.toNat) h.blockSize
      (show _ = 4 from rfl)
    rw [← List.append_assoc] at hread
    exact hread
  have hcrc : getU32 (dachHeaderPack .little h) 8 = h.crc :=
    getU32_u32Bytes ([h.id1, h.id2, h.maj, h.min] ++ u32Bytes .little h.blockSize.toNat)
      (u32Bytes .little h.model.toNat) h.crc (show _ = 8 from rfl)
  simp only [dachHeaderUnpack, hblock, hcrc]
  rfl

/-- Packing an unpacked buffer gives back its first twelve bytes; the last four are those of the model
    the header had before. -/
theorem dachHeaderPack_unpack (blank : Header) : ∀ (buf : List UInt8), buf.length = 16 →
    dachHeaderPack .little (dachHeaderUnpack blank buf)
      = buf.take 12 ++ u32Bytes .little blank.model.toNat
  | [a, b, c, d, e, f, g, h, i, j, k, l, m, n, o, p], _ => by
      have hword : ∀ bytes : List UInt8,
          (UInt32.ofNat (u32OfBytes .little bytes)).toNat = u32OfBytes .little bytes := by
        intro bytes
        rw [UInt32.toNat_ofNat', Nat.mod_eq_of_lt (u32OfBytes_lt _ _)]
      simp only [dachHeaderPack, dachHeaderUnpack, getU32_eq, hword, List.drop_succ_cons,
        List.drop_zero, u32Bytes_u32OfBytes]
      rfl

/-- The header round trip in both directions. A header comes back unless its model is lost, and a
    buffer comes back unless it has one to lose. -/
theorem dachHeader_roundTrip_iff (h : Header) (buf : Vector UInt8 16) :
    (dachHeaderUnpack dachHeaderNewBlank (dachHeaderPack .little h) = h ↔ h.model = 0) ∧
    (dachHeaderPack .little (dachHeaderUnpack dachHeaderNewBlank buf.toList) = buf.toList ↔
      buf.toList.drop 12 = [0, 0, 0, 0]) := by
  constructor
  · rw [dachHeaderUnpack_pack]
    constructor
    · intro heq
      exact (congrArg Header.model heq).symm
    · intro hmodel
      rw [show dachHeaderNewBlank.model = h.model from hmodel.symm]
  · have hlen : buf.toList.length = 16 := buf.length_toList
    have hzero : u32Bytes .little dachHeaderNewBlank.model.toNat = [0, 0, 0, 0] := rfl
    have hsplit := List.take_append_drop 12 buf.toList
    rw [dachHeaderPack_unpack dachHeaderNewBlank buf.toList hlen, hzero]
    constructor
    · intro heq
      exact (List.append_cancel_left (heq.trans hsplit.symm)).symm
    · intro hlast
      rw [← hlast, hsplit]

/-- The header the stream writer builds: version 0.1, block size 0, model 1. Its model comes back
    as 0. -/
theorem dachHeader_model_lost :
    dachHeaderUnpack dachHeaderNewBlank (dachHeaderPack .little (dachHeaderNew 0 1234567890 1))
      = dachHeaderNew 0 1234567890 0 ∧
    dachHeaderUnpack dachHeaderNewBlank (dachHeaderPack .little (dachHeaderNew 0 1234567890 1))
      ≠ dachHeaderNew 0 1234567890 1 := by
  rw [dachHeaderUnpack_pack]
  exact ⟨rfl, by decide⟩

end Dach
