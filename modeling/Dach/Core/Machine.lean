/-
Module: Dach.Core.Machine
Layer: Core
Purpose: The machine the C sources run on: unsigned arithmetic at the fixed widths, the host's byte
  order and the content of freshly allocated memory, stdio streams, and the ways a run can abort.
Imports: Mathlib
Trusted boundary: human-reviewed model of the C environment
Main exports: u8, u32, u64, ByteOrder, Host, littleHost, u32Bytes, u32OfBytes, CFile, Abort, cassert
-/
import Mathlib

namespace Dach

/-! ### Fixed-width unsigned arithmetic -/

/-- Conversion to `u8`. -/
def u8 (n : Nat) : Nat := n % 2 ^ 8

/-- Conversion to `u32`. -/
def u32 (n : Nat) : Nat := n % 2 ^ 32

/-- Conversion to `u64`. -/
def u64 (n : Nat) : Nat := n % 2 ^ 64

theorem u32_of_lt {n : Nat} (h : n < 2 ^ 32) : u32 n = n := Nat.mod_eq_of_lt h

theorem u64_of_lt {n : Nat} (h : n < 2 ^ 64) : u64 n = n := Nat.mod_eq_of_lt h

/-- Subtraction on `u64` wraps around instead of stopping at zero. -/
def u64sub (a b : Nat) : Nat := u64 (2 ^ 64 - b + a)

theorem u64sub_of_le {a b : Nat} (hle : b ≤ a) (ha : a < 2 ^ 64) : u64sub a b = a - b := by
  unfold u64sub u64
  omega

/-! ### Aborts -/

/-- Every place where a run can stop before it returns: a failed `assert`, an `exit(1)`, a trap of
    the machine, or a loop that never ends. The constructors carry the words of their function. -/
inductive Abort where
  /-- `dach_add_sym_chr`: `assert(chr <= DACH_SYM_COUNT)` -/
  | addSymChrChr
  /-- `dach_add_sym_chr`: `assert(sym < DACH_SYM_COUNT)` -/
  | addSymChrSym
  /-- `dach_set_cumfreq`: `assert(sym < DACH_SYM_COUNT)` -/
  | setCumfreqSym
  /-- `dach_ppm0_cumfreq`: `assert(sym <= DACH_SYM_COUNT)` -/
  | cumfreqSym
  /-- `sym_to_chr`: `assert(sym <= DACH_SYM_COUNT)` -/
  | symToChrSym
  /-- `chr_to_sym`: `assert(chr <= 255)` -/
  | chrToSymChr
  /-- `dach_ppm0_new_`: `assert(sum > 255)` -/
  | ppm0NewSum
  /-- `dach_ppm0_new_`: `assert(dach_ppm0_cumfreq(ppm, 0) == 0)` -/
  | ppm0NewCumfreq0
  /-- `dach_ppm0_new_`: `assert(dach_ppm0_cumfreq(ppm, 1) == ppm->scale)` -/
  | ppm0NewScale
  /-- `dach_ppm0_new_`: `assert(dach_ppm0_cumfreq(ppm, 1) == DACH_SYM_COUNT - 1)` -/
  | ppm0NewSymCount
  /-- `dach_ppm0_find_sym`: `assert(0)` when the search ends at symbol 0 -/
  | findSymZero
  /-- `dach_ppm0_update`: `assert(sym > 0 && sym < DACH_SYM_COUNT)` -/
  | updateSym
  /-- `dach_ppm0_update`: `assert(dach_ppm0_cumfreq(ppm, 0) == 0)` -/
  | updateCumfreq0
  /-- `dach_ppm0_update`: `assert(ppm->scale == dach_ppm0_cumfreq(ppm, 1))` -/
  | updateScale
  /-- `dach_new_arcoder`, `dach_new_arcoder_`: `assert(arc->scale != 0)` -/
  | newArcoderScale
  /-- `dach_low_scale`: `assert(sym <= 256)`, `assert(sym != 0)` -/
  | lowScaleSym
  /-- `dach_low_scale`: `exit(1)` when the 64-bit and the 32-bit value differ -/
  | lowScaleExit
  /-- `dach_high_scale`: `assert(sym <= 256)` -/
  | highScaleSym
  /-- `dach_high_scale`: `assert(arc->scale != 0)` -/
  | highScaleZero
  /-- `dach_high_scale`: `exit(1)` when the 64-bit and the 32-bit value differ -/
  | highScaleExit
  /-- `dach_calc_range`: `exit(1)` when `high <= low` -/
  | calcRangeExit
  /-- `dach_calc_range`: `assert(tmp != 0)` -/
  | calcRangeZero
  /-- `dach_encode_step`: `assert(sym != 0 && sym <= 256)` -/
  | encodeStepSym
  /-- `dach_encode_step`: `assert(arc->high > arc->low)` -/
  | encodeStepInterval
  /-- `dach_encode_step`: `exit(1)` when `range == 0` -/
  | encodeStepRange
  /-- `dach_encode_step`: `exit(1)` when `hs < ls` -/
  | encodeStepExit
  /-- `dach_decode`: one of its `assert(arc->high > arc->low)` -/
  | decodeInterval
  /-- `dach_decode`: `assert(arc->total_syms <= arc->blocksize)` -/
  | decodeTotalSyms
  /-- `dach_decode`: `assert(sym <= 256)`, the reserved symbol was decoded -/
  | decodeReserved
  /-- `dach_decode`: `assert(arc->api->cumfreq(arc->mod, sym) <= arc->scale)` -/
  | decodeCumfreq
  /-- `dach_write_stream`: `assert(bit == 1 || bit == 0)` -/
  | writeStreamBit
  /-- `dach_bitin`: `assert(!arc->eof_in)` -/
  | bitinEof
  /-- `dach_bitin`: `assert(t == 0 || t == 1)` -/
  | bitinBit
  /-- `dach_stop_encoder`: `assert(arc->total_syms == arc->blocksize)` -/
  | stopTotalSyms
  /-- `dach_stop_encoder`: `assert(tmp == 1 || tmp == 0)` -/
  | stopBit
  /-- `dach_block_new`: `assert(dbi->data == NULL || dbi->mode == DACH_STREAM_READABLE)` -/
  | blockNewData
  /-- `block_read`: `assert(obj->pos <= obj->length)`, before or after the copy loop -/
  | blockReadPos
  /-- `block_write`: `assert(count > 0)` -/
  | blockWriteCount
  /-- `block_write`: `assert(obj->mode == DACH_STREAM_WRITABLE)` -/
  | blockWriteMode
  /-- `block_write`: `assert(obj->pos <= obj->length)` -/
  | blockWritePos
  /-- `block_seek`: `assert(pos <= obj->length)` -/
  | blockSeekPos
  /-- a block operation touches memory outside its data -/
  | blockOutOfBounds
  /-- `priv_file_reader_new`: `assert(NULL)` after "Invalid stream mode" -/
  | streamMode
  /-- `priv_file_reader_new`: `assert(NULL)` of the writable mode -/
  | streamWritable
  /-- `priv_file_reader_new`: `assert(filesize > 0)` -/
  | streamFilesize
  /-- `test_block_size`: `assert(filesize % block_size_actual == 0)` -/
  | testBlockSize
  /-- `get_block_count`: `assert(bc > 0)` -/
  | blockCountZero
  /-- an integer division by zero -/
  | divByZero
  /-- `lazy_create_blocks`: `assert(bops->id(stream_obj->dblock_array[0].obj) == 0)` -/
  | lazyCreateId
  /-- `new_block`: `assert(stream_obj->blocks_returned < stream_obj->block_count)` -/
  | newBlockReturned
  /-- a NULL or foreign `dach_block` pointer is dereferenced -/
  | nullBlock
  /-- `dach_pipe_add`: `assert(pyp_impl->obj->oper_count < 16)` -/
  | pipeAddCount
  /-- `dach_operation_write`: `assert(count > 0)` -/
  | operationWriteCount
  /-- `dach_pipe_tofile`: `assert(wrote == db.obj->ops->length(db.obj))` -/
  | tofileLength
  /-- `free_block`: `assert(bid == 0)` -/
  | freeBlockBid
  /-- `free_block`: `assert(dblk.id == 0)` -/
  | freeBlockId
  /-- `free_block`: `assert(dblk.written_to_stream == 1)` -/
  | freeBlockWritten
  /-- `info`: `assert(0)` after `apr_mmap_create`, which refuses an empty file -/
  | infoMmap
  /-- `info`: `assert(0)` after a header read of the wrong length -/
  | infoHeader
  /-- `dach_find_prev_substr`: a read of `slab` outside its memory -/
  | findPrevSubstrSlab
  /-- a loop of the source that is still running after the passes the model gives it -/
  | loopForever
deriving DecidableEq, Repr

/-- `assert(p)` at the given place. -/
def cassert (p : Prop) [Decidable p] (site : Abort) : Except Abort Unit :=
  if p then .ok () else .error site

theorem cassert_pos {p : Prop} [Decidable p] (site : Abort) (h : p) :
    cassert p site = .ok () := if_pos h

theorem cassert_neg {p : Prop} [Decidable p] (site : Abort) (h : ¬ p) :
    cassert p site = .error site := if_neg h

@[simp] theorem ok_bind {α β : Type} (a : α) (f : α → Except Abort β) :
    (Except.ok a >>= f) = f a := rfl

@[simp] theorem error_bind {α β : Type} (site : Abort) (f : α → Except Abort β) :
    ((Except.error site : Except Abort α) >>= f) = .error site := rfl

@[simp] theorem pure_eq_ok {α : Type} (a : α) : (pure a : Except Abort α) = .ok a := rfl

/-- A computation returns one value. -/
theorem ok_unique {α : Type} {x : Except Abort α} {a b : α} (h : x = .ok a) (h' : x = .ok b) : a = b :=
  Except.ok.inj (h.symm.trans h')

/-- A sequence returns exactly when its first half does and its second half does from there. -/
theorem bind_eq_ok {α β : Type} {x : Except Abort α} {f : α → Except Abort β} {b : β} :
    (x >>= f) = .ok b ↔ ∃ a, x = .ok a ∧ f a = .ok b := by
  cases x with
  | error site => simp
  | ok a => simp

/-! ### The host -/

/-- The order in which the host stores the bytes of a word. -/
inductive ByteOrder where
  | little
  | big
deriving DecidableEq, Repr

/-- What the C standard leaves to the machine: the byte order, and what `malloc` and `realloc`
    leave in memory. `heap id off` is the byte a fresh allocation for the block with this id holds
    at this offset; `entry idx` is what a fresh array of `dblock` holds in the `id` and in the
    `written_to_stream` of this element. -/
structure Host where
  order : ByteOrder
  heap : Nat → Nat → UInt8
  entry : Nat → Nat × Nat

/-- A little-endian host whose fresh memory happens to be zero. -/
def littleHost : Host :=
  { order := .little, heap := fun _ _ => 0, entry := fun _ => (0, 0) }

/-- The memory of a `u32` object. -/
def u32Bytes (order : ByteOrder) (w : Nat) : List UInt8 :=
  let bytes := [UInt8.ofNat w, UInt8.ofNat (w / 2 ^ 8), UInt8.ofNat (w / 2 ^ 16),
    UInt8.ofNat (w / 2 ^ 24)]
  match order with
  | .little => bytes
  | .big => bytes.reverse

/-- The `u32` object whose memory starts with `bytes` and is zero after them. -/
def u32OfBytes (order : ByteOrder) (bytes : List UInt8) : Nat :=
  let byte := fun i => (bytes.getD i 0).toNat
  match order with
  | .little => byte 0 + byte 1 * 2 ^ 8 + byte 2 * 2 ^ 16 + byte 3 * 2 ^ 24
  | .big => byte 3 + byte 2 * 2 ^ 8 + byte 1 * 2 ^ 16 + byte 0 * 2 ^ 24

@[simp] theorem length_u32Bytes (order : ByteOrder) (w : Nat) :
    (u32Bytes order w).length = 4 := by
  cases order <;> rfl

theorem u32OfBytes_lt (order : ByteOrder) (bytes : List UInt8) :
    u32OfBytes order bytes < 2 ^ 32 := by
  have h0 := (bytes.getD 0 0).toNat_lt
  have h1 := (bytes.getD 1 0).toNat_lt
  have h2 := (bytes.getD 2 0).toNat_lt
  have h3 := (bytes.getD 3 0).toNat_lt
  cases order <;> simp only [u32OfBytes] <;> omega

/-- Storing a word and loading it back on the same host gives the word. -/
theorem u32OfBytes_u32Bytes (order : ByteOrder) (w : Nat) :
    u32OfBytes order (u32Bytes order w) = u32 w := by
  cases order <;>
    simp [u32OfBytes, u32Bytes, u32, UInt8.toNat_ofNat'] <;> omega

/-! ### Streams of the C library -/

/-- A `FILE`: the bytes a reader has not seen yet, the end-of-file indicator, and the bytes written
    so far. Writing always succeeds. -/
structure CFile where
  unread : List UInt8
  feof : Bool
  written : List UInt8
deriving DecidableEq, Repr

/-- A file opened on the given content. -/
def CFile.reading (content : List UInt8) : CFile :=
  { unread := content, feof := false, written := [] }

/-- `fread(_, 1, n, f)`: the bytes that are left, at most `n`; the end-of-file indicator is set, and
    stays set, once fewer than `n` are left. -/
def CFile.fread (f : CFile) (n : Nat) : List UInt8 × CFile :=
  (f.unread.take n,
    { f with unread := f.unread.drop n, feof := f.feof || decide (f.unread.length < n) })

/-- `fwrite(bytes, 1, _, f)`. -/
def CFile.fwrite (f : CFile) (bytes : List UInt8) : CFile :=
  { f with written := f.written ++ bytes }

end Dach
