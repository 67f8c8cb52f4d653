/-
Module: Dach.Proofs.StreamTest
Layer: Proofs
Purpose: What uses a stream by its blocks: `dach_copy` against the copying operation of a pipe, and what the
  two stream tests see of a file and of a copy.
Imports: Dach.Core.StreamTest, Dach.Proofs.Pipe
Trusted boundary: none
Main exports: Fillable, copyLoop_eq, streamTestCopy_from, dachCopy_streamTestCopy_iff, readBlocks_eq,
  fileStreamReader_reads, compareFiles_ok_iff, fileStreamWriter_ok_iff
-/
import Dach.Core.StreamTest
import Dach.Proofs.Pipe

namespace Dach

open Chunks

/-! ### Copying a block -/

/-- A block that `n` bytes can be written to from its position on. -/
structure Fillable (outBlk : Block) (n : Nat) : Prop where
  mode : outBlk.mode = .writable
  data : outBlk.data.length = outBlk.length
  pos : outBlk.pos ≤ outBlk.length
  small : outBlk.pos + n < 2 ^ 64

theorem Fillable.write {outBlk : Block} {n : Nat} (h : Fillable outBlk n) (host : Host) {buf : List UInt8}
    (hbuf : 0 < buf.length) (hroom : buf.length ≤ n) :
    blockWrite host outBlk buf = .ok (1, outBlk.wrote buf) := by
  have hsmall := h.small
  exact blockWrite_eq host outBlk buf hbuf h.mode h.data h.pos (by omega)

theorem Fillable.wrote {outBlk : Block} {n : Nat} (h : Fillable outBlk n) {buf : List UInt8}
    (hroom : buf.length ≤ n) : Fillable (outBlk.wrote buf) (n - buf.length) where
  mode := h.mode
  data := by
    have hpos := h.pos
    show (overwrite _ _ _).length = max _ _
    rw [length_overwrite (by rw [h.data]; exact hpos), h.data]
  pos := Nat.le_max_right _ _
  small := by
    have hsmall := h.small
    show outBlk.pos + buf.length + (n - buf.length) < 2 ^ 64
    omega

/-- One byte. -/
theorem copyLoop_next (host : Host) (left : Nat) {inBlk outBlk : Block}
    (hpos : inBlk.pos < inBlk.data.length) (hout : Fillable outBlk (left + 1)) :
    copyLoop host (left + 1) inBlk outBlk = copyLoop host left { inBlk with pos := inBlk.pos + 1 }
      (outBlk.wrote [inBlk.data[inBlk.pos]]) := by
  have hget : blockGetc inBlk = .ok (inBlk.data[inBlk.pos], { inBlk with pos := inBlk.pos + 1 }) := by
    simp only [blockGetc, List.getElem?_eq_getElem hpos]
  have hwrite := hout.write host (show 0 < [inBlk.data[inBlk.pos]].length by simp) (by simp)
  simp only [copyLoop, hget, ok_bind, hwrite]

/-- `dach_copy` takes as many bytes from the position on as the block is long. -/
theorem copyLoop_eq (host : Host) (left : Nat) : ∀ (inBlk outBlk : Block),
    inBlk.pos + left ≤ inBlk.data.length → Fillable outBlk left →
      copyLoop host left inBlk outBlk = .ok ({ inBlk with pos := inBlk.pos + left },
        outBlk.wrote ((inBlk.data.drop inBlk.pos).take left)) := by
  induction left with
  | zero =>
      intro inBlk outBlk _ hout
      rw [copyLoop, List.take_zero, Block.wrote_nil hout.pos]
      rfl
  | succ left ih =>
      intro inBlk outBlk hin hout
      have hpos : inBlk.pos < inBlk.data.length := by omega
      have hone : [inBlk.data[inBlk.pos]].length ≤ left + 1 := by simp
      have hdata : outBlk.pos ≤ outBlk.data.length := by
        rw [hout.data]
        exact hout.pos
      have hrest := ih { inBlk with pos := inBlk.pos + 1 } (outBlk.wrote [inBlk.data[inBlk.pos]])
        (show inBlk.pos + 1 + left ≤ inBlk.data.length by omega) (hout.wrote hone)
      rw [copyLoop_next host left hpos hout, hrest, Block.wrote_wrote hdata]
      simp only [List.drop_eq_getElem_cons hpos, List.take_succ_cons, List.singleton_append, Nat.add_assoc,
        Nat.add_comm 1 left]

/-- `dach_copy` stops at the end of the memory behind the block. -/
theorem copyLoop_short (host : Host) (left : Nat) : ∀ (inBlk outBlk : Block),
    inBlk.data.length < inBlk.pos + left → inBlk.pos ≤ inBlk.data.length → Fillable outBlk left →
      copyLoop host left inBlk outBlk = .error .blockOutOfBounds := by
  induction left with
  | zero =>
      intro inBlk outBlk hshort hpos _
      omega
  | succ left ih =>
      intro inBlk outBlk hshort hpos hout
      by_cases hend : inBlk.pos = inBlk.data.length
      · have hget : blockGetc inBlk = .error .blockOutOfBounds := by
          simp only [blockGetc, List.getElem?_eq_none (Nat.le_of_eq hend.symm)]
        rw [copyLoop, hget, error_bind]
      · have hlt : inBlk.pos < inBlk.data.length := by omega
        have hone : [inBlk.data[inBlk.pos]].length ≤ left + 1 := by simp
        rw [copyLoop_next host left hlt hout]
        exact ih _ _ (show inBlk.data.length < inBlk.pos + 1 + left by omega)
          (show inBlk.pos + 1 ≤ inBlk.data.length by omega) (hout.wrote hone)

/-- One pass of the copying operation that moves something. -/
theorem copyPass_wrote (host : Host) {size : Nat} (hsize : 0 < size) {inBlk outBlk : Block}
    (hin : inBlk.pos < inBlk.length) (hdata : inBlk.length ≤ inBlk.data.length)
    (hout : Fillable outBlk (inBlk.length - inBlk.pos)) :
    ∃ n, n = min size (inBlk.length - inBlk.pos) ∧ copyPass host size (inBlk, outBlk)
      = .ok (some ({ inBlk with pos := inBlk.pos + n },
          outBlk.wrote ((inBlk.data.drop inBlk.pos).take n))) := by
  obtain ⟨n, hn, hread⟩ := blockRead_eq inBlk size hin hdata
  refine ⟨n, hn, ?_⟩
  have hcount : ((inBlk.data.drop inBlk.pos).take n).length = n := by
    rw [List.length_take, List.length_drop]
    omega
  have hwrite := hout.write host (show 0 < ((inBlk.data.drop inBlk.pos).take n).length by omega) (by omega)
  simp only [copyPass, dachOperationRead, hread, ok_bind, dachOperationWrite]
  rw [if_pos (show (n : Int) ≥ 0 by omega), cassert_pos _ (by omega), ok_bind, hwrite, ok_bind]
  rfl

/-- The copying operation of the tests copies what is left of the block. -/
theorem streamTestCopy_from (host : Host) {size : Nat} (hsize : 0 < size) (fuel : Nat) :
    ∀ (inBlk outBlk : Block), inBlk.pos ≤ inBlk.length → inBlk.length ≤ inBlk.data.length →
      size + inBlk.length < 2 ^ 64 → Fillable outBlk (inBlk.length - inBlk.pos) →
      inBlk.length - inBlk.pos < fuel → ∃ passes,
        Loop.forever .loopForever (copyPass host size) fuel (inBlk, outBlk)
          = .ok (passes, { inBlk with pos := inBlk.length },
              outBlk.wrote ((inBlk.data.drop inBlk.pos).take (inBlk.length - inBlk.pos))) := by
  induction fuel with
  | zero =>
      intro inBlk outBlk _ _ _ _ hfuel
      omega
  | succ fuel ih =>
      intro inBlk outBlk hin hdata hwrap hout hfuel
      by_cases hend : inBlk.pos = inBlk.length
      · have hread : blockRead inBlk size = .ok (-1, [], inBlk) := blockRead_atEnd hend (by omega)
        have hbreak : copyPass host size (inBlk, outBlk) = .ok none := by
          simp [copyPass, dachOperationRead, hread]
        have hstill : ({ inBlk with pos := inBlk.length } : Block) = inBlk := by
          cases inBlk
          simp only at hend
          subst hend
          rfl
        refine ⟨0, ?_⟩
        rw [Loop.forever_of_break hbreak, hstill, hend, Nat.sub_self, List.take_zero,
          Block.wrote_nil hout.pos]
      · obtain ⟨n, hn, hpass⟩ := copyPass_wrote host hsize (by omega) hdata hout
        have hcount : ((inBlk.data.drop inBlk.pos).take n).length = n := by
          rw [List.length_take, List.length_drop]
          omega
        have hnext := hout.wrote (show ((inBlk.data.drop inBlk.pos).take n).length ≤ _ by omega)
        rw [hcount] at hnext
        rw [Nat.sub_sub] at hnext
        obtain ⟨passes, hrest⟩ := ih { inBlk with pos := inBlk.pos + n }
          (outBlk.wrote ((inBlk.data.drop inBlk.pos).take n)) (show inBlk.pos + n ≤ inBlk.length by omega)
          hdata hwrap hnext (show inBlk.length - (inBlk.pos + n) < fuel by omega)
        have hjoin : (inBlk.data.drop inBlk.pos).take n ++
            (inBlk.data.drop (inBlk.pos + n)).take (inBlk.length - (inBlk.pos + n))
            = (inBlk.data.drop inBlk.pos).take (inBlk.length - inBlk.pos) := by
          rw [← List.drop_drop, ← List.take_add]
          congr 1
          omega
        refine ⟨passes + 1, ?_⟩
        rw [Loop.forever_of_next_ok hpass hrest, Block.wrote_wrote (by rw [hout.data]; exact hout.pos)]
        simp only [hjoin]

/-- What a copy has made of the output block. -/
def copied (result : Except Abort (Block × Block)) : Except Abort Block := result.map Prod.snd

/-- `dach_copy` leaves the output block that the copying operation of the tests leaves exactly from the
    start of the input block; from anywhere else it reads on behind the block, as far as the memory goes. -/
theorem dachCopy_streamTestCopy_iff (host : Host) {inBlk outBlk : Block} {size : Nat} (hsize : 1 ≤ size)
    (hin : inBlk.pos ≤ inBlk.length) (hdata : inBlk.length ≤ inBlk.data.length)
    (hwrap : size + inBlk.length < 2 ^ 64) (hout : Fillable outBlk inBlk.length) :
    (copied (dachCopy host inBlk outBlk) = copied (streamTestCopy size host inBlk outBlk) ↔ inBlk.pos = 0) ∧
      copied (dachCopy host inBlk outBlk) =
        if inBlk.pos + inBlk.length ≤ inBlk.data.length then
          .ok (outBlk.wrote ((inBlk.data.drop inBlk.pos).take inBlk.length))
        else .error .blockOutOfBounds := by
  have hcopy : copied (dachCopy host inBlk outBlk) =
      if inBlk.pos + inBlk.length ≤ inBlk.data.length then
        .ok (outBlk.wrote ((inBlk.data.drop inBlk.pos).take inBlk.length))
      else .error .blockOutOfBounds := by
    unfold dachCopy blockLength
    split
    · rename_i hroom
      rw [copyLoop_eq host inBlk.length inBlk outBlk hroom hout]
      rfl
    · rename_i hshort
      rw [copyLoop_short host inBlk.length inBlk outBlk (by omega) (by omega) hout]
      rfl
  have hless : Fillable outBlk (inBlk.length - inBlk.pos) :=
    ⟨hout.mode, hout.data, hout.pos, by have := hout.small; omega⟩
  obtain ⟨passes, hloop⟩ := streamTestCopy_from host hsize (inBlk.length + 1) inBlk outBlk hin hdata hwrap
    hless (by omega)
  have htest : copied (streamTestCopy size host inBlk outBlk)
      = .ok (outBlk.wrote ((inBlk.data.drop inBlk.pos).take (inBlk.length - inBlk.pos))) := by
    simp only [copied, streamTestCopy, hloop, ok_bind]
    rfl
  refine ⟨?_, hcopy⟩
  rw [hcopy, htest]
  constructor
  · intro hsame
    split at hsame
    · -- the two have written a different number of bytes
      have hwritten := congrArg Block.bytesWritten (Except.ok.inj hsame)
      simp only [Block.wrote, List.length_take, List.length_drop] at hwritten
      omega
    · cases hsame
  · intro hstart
    rw [if_pos (by omega), hstart, Nat.sub_zero]

/-- Two blocks of two bytes, one of them behind. -/
theorem dachCopy_streamTestCopy_iff_two :
    let inBlk : Block := ⟨0, .readable, 1, 0, [1, 2, 3], 2, 2⟩
    let outBlk : Block := ⟨0, .writable, 0, 0, [0, 0], 2, 2⟩
    copied (dachCopy littleHost inBlk outBlk) ≠ copied (streamTestCopy 1 littleHost inBlk outBlk) := by
  intro inBlk outBlk hsame
  have hout : Fillable outBlk inBlk.length := ⟨rfl, rfl, by decide, by decide⟩
  have hin : inBlk.pos ≤ inBlk.length := by decide
  have hstart := (dachCopy_streamTestCopy_iff littleHost (show 1 ≤ 1 by decide) hin (by decide) (by decide)
    hout).1.mp hsame
  cases hstart

/-! ### Reading a stream -/

section Reader

variable (host : Host) (content : List UInt8) (bs : Nat)

/-- The stream after its first `m` blocks have been read to their ends. -/
def readStream (m : Nat) : Stream :=
  { openedStream host content bs with
    blocksReturned := m
    dblockArray := (List.range (content.length ⌈/⌉ bs)).map fun j =>
      .fresh host j (if j < m then { inBlockAt content bs j with pos := (chunk bs content j).length }
        else inBlockAt content bs j) }

variable {host content bs}

theorem readChars_eq (left : Nat) : ∀ (db : Block), db.pos + left ≤ db.data.length →
    readChars left db = .ok ((db.data.drop db.pos).take left, { db with pos := db.pos + left }) := by
  induction left with
  | zero =>
      intro db _
      rw [readChars, List.take_zero]
      rfl
  | succ left ih =>
      intro db hroom
      have hpos : db.pos < db.data.length := by omega
      have hget : blockGetc db = .ok (db.data[db.pos], { db with pos := db.pos + 1 }) := by
        simp only [blockGetc, List.getElem?_eq_getElem hpos]
      have hrest := ih { db with pos := db.pos + 1 } (show db.pos + 1 + left ≤ db.data.length by omega)
      simp only [readChars, hget, ok_bind, hrest, pure_eq_ok, List.drop_eq_getElem_cons hpos,
        List.take_succ_cons, Nat.add_assoc, Nat.add_comm 1 left]

theorem readStream_zero : openedStream host content bs = readStream host content bs 0 := by
  simp [readStream, openedStream, streamAt]

theorem readStream_inBlock {m : Nat} (hm : m < content.length ⌈/⌉ bs) (r : Nat) :
    Stream.inBlock { readStream host content bs m with blocksReturned := r } m
      = .ok (inBlockAt content bs m) := by
  simp only [Stream.inBlock, readStream, List.getElem?_map, List.getElem?_range hm, Option.map_some,
    if_neg (Nat.lt_irrefl m)]
  rfl

theorem readStream_succ (m : Nat) :
    { readStream host content bs m with
      blocksReturned := m + 1
      dblockArray := (readStream host content bs m).dblockArray.modify m
        fun x => { x with obj := { inBlockAt content bs m with pos := (chunk bs content m).length } } }
      = readStream host content bs (m + 1) := by
  have harray : (readStream host content bs m).dblockArray.modify m
      (fun x => { x with obj := { inBlockAt content bs m with pos := (chunk bs content m).length } })
        = (readStream host content bs (m + 1)).dblockArray := by
    simp only [readStream, modify_map_range]
    refine List.map_congr_left fun j _ => ?_
    rcases Nat.lt_trichotomy j m with hlt | rfl | hgt
    · rw [if_neg (Nat.ne_of_lt hlt), if_pos hlt, if_pos (Nat.lt_succ_of_lt hlt)]
    · rw [if_pos rfl, if_pos (Nat.lt_succ_self j)]
      rfl
    · rw [if_neg (Nat.ne_of_gt hgt), if_neg (Nat.not_lt_of_gt hgt), if_neg (Nat.not_lt_of_le hgt)]
  rw [harray]
  rfl

/-- The blocks that are left hold the bytes that are left. -/
theorem readBlocks_eq (left : Nat) : ∀ m, m + left = content.length ⌈/⌉ bs →
    readBlocks left (readStream host content bs m)
      = .ok (((List.range' m left).map (chunk bs content)).flatten,
          readStream host content bs (content.length ⌈/⌉ bs)) := by
  induction left with
  | zero =>
      intro m hm
      obtain rfl : m = content.length ⌈/⌉ bs := hm
      rfl
  | succ left ih =>
      intro m hm
      have hlt : m < content.length ⌈/⌉ bs := by omega
      have hnew : newBlock (readStream host content bs m)
          = .ok (some m, { readStream host content bs m with blocksReturned := m + 1 }) := by
        have hreturned : (readStream host content bs m).blocksReturned
            < (readStream host content bs m).blockCount := hlt
        rw [newBlock, if_neg (Nat.ne_of_lt hreturned), cassert_pos _ hreturned]
        rfl
      have hroom : (inBlockAt content bs m).pos + (chunk bs content m).length
          ≤ (inBlockAt content bs m).data.length := by
        show 0 + (chunk bs content m).length ≤ (content.drop (m * bs)).length
        rw [Nat.zero_add, length_chunk, List.length_drop]
        exact Nat.min_le_right _ _
      have hchars : readChars (blockLength (inBlockAt content bs m)) (inBlockAt content bs m)
          = .ok (chunk bs content m, { inBlockAt content bs m with pos := (chunk bs content m).length }) := by
        have hread := readChars_eq (chunk bs content m).length (inBlockAt content bs m) hroom
        rw [show (inBlockAt content bs m).pos = 0 from rfl, List.drop_zero, Nat.zero_add] at hread
        have hdata : (inBlockAt content bs m).data.take (chunk bs content m).length = chunk bs content m :=
          take_length_chunk bs content m
        rw [hdata] at hread
        exact hread
      rw [readBlocks, hnew]
      simp only [ok_bind, readStream_inBlock hlt, hchars, readStream_succ, ih (m + 1) (by omega), pure_eq_ok]
      rw [List.range'_succ]
      rfl

end Reader

/-- The reader of the tests gets every byte of the file once, in order. -/
theorem fileStreamReader_reads (host : Host) (file : FileContent) (bs : Nat)
    (hfile : 1 ≤ file.bytes.length) (hbs : 1 ≤ bs) (hcount : file.bytes.length ⌈/⌉ bs ≤ 2 ^ 32 - 1) :
    fileStreamReader host bs file = .ok file.bytes := by
  have hcount' : file.bytes.length ⌈/⌉ bs < 2 ^ 32 := by omega
  have hblocks : blocks (openedStream host file.bytes bs) = file.bytes.length ⌈/⌉ bs :=
    u64sub_of_le (Nat.zero_le _) (Nat.lt_trans hcount' (by norm_num))
  have hread : readBlocks (file.bytes.length ⌈/⌉ bs) (readStream host file.bytes bs 0) = _ :=
    readBlocks_eq (file.bytes.length ⌈/⌉ bs) 0 (Nat.zero_add _)
  rw [fileStreamReader, dachStreamNew_eq host file hfile hbs hcount']
  simp only [ok_bind, hblocks]
  rw [readStream_zero, hread, ← List.range_eq_range', flatten_chunks hbs]
  rfl

/-- Three bytes in blocks of two. -/
theorem fileStreamReader_reads_three :
    fileStreamReader littleHost 2 ⟨[1, 2, 3], by decide⟩ = .ok [1, 2, 3] :=
  fileStreamReader_reads littleHost ⟨[1, 2, 3], by decide⟩ 2 (by decide) (by decide)
    (show ([1, 2, 3] : List UInt8).length ⌈/⌉ 2 ≤ 2 ^ 32 - 1 from (by decide : 2 ≤ 2 ^ 32 - 1))

/-! ### Comparing two files -/

/-- The bytes of a file before the first one that reads as the end of it. -/
def beforeEof (fp : List UInt8) : List UInt8 := fp.takeWhile (· ≠ 255)

/-- Only the byte 255 is the end of a file as a `char`. -/
theorem charOfGetc_eq_eof_iff (b : UInt8) (fp : List UInt8) : charOfGetc (b :: fp) = eof ↔ b = 255 := by
  have hlt := b.toNat_lt
  rw [charOfGetc, signedChar, eof, ← UInt8.toNat_inj, show (255 : UInt8).toNat = 255 from rfl]
  split <;> omega

theorem charOfGetc_inj {b c : UInt8} {fp fp' : List UInt8} :
    charOfGetc (b :: fp) = charOfGetc (c :: fp') ↔ b = c := by
  have hb := b.toNat_lt
  have hc := c.toNat_lt
  rw [charOfGetc, charOfGetc, signedChar, signedChar, ← UInt8.toNat_inj]
  split <;> split <;> omega

theorem beforeEof_cons_of_ne {b : UInt8} (hb : b ≠ 255) (fp : List UInt8) :
    beforeEof (b :: fp) = b :: beforeEof fp :=
  List.takeWhile_cons_of_pos (by simpa using hb)

theorem beforeEof_cons_end (fp : List UInt8) : beforeEof (255 :: fp) = [] :=
  List.takeWhile_cons_of_neg (by simp)

theorem compareLoop_ok_iff (fp1 : List UInt8) : ∀ fp2, compareLoop fp1 fp2 = .ok () ↔
    beforeEof fp1 <+: beforeEof fp2 ∨ beforeEof fp2 <+: beforeEof fp1 := by
  induction fp1 with
  | nil =>
      intro fp2
      exact iff_of_true rfl (.inl List.nil_prefix)
  | cons b fp1 ih =>
      intro fp2
      cases fp2 with
      | nil => exact iff_of_true rfl (.inr List.nil_prefix)
      | cons c fp2 =>
          rw [compareLoop]
          simp only [ne_eq, charOfGetc_eq_eof_iff, charOfGetc_inj]
          by_cases hb : b = 255
          · subst hb
            simp [beforeEof_cons_end]
          · by_cases hc : c = 255
            · subst hc
              simp [beforeEof_cons_end]
            · rw [if_pos ⟨hb, hc⟩, beforeEof_cons_of_ne hb, beforeEof_cons_of_ne hc]
              by_cases hbc : b = c
              · subst hbc
                rw [if_pos rfl, ih fp2]
                simp [List.cons_prefix_cons]
              · rw [if_neg hbc]
                simp [List.cons_prefix_cons, hbc, Ne.symm hbc]

theorem charOfGetc_ne_eof_iff (fp : List UInt8) : charOfGetc fp ≠ eof ↔ beforeEof fp ≠ [] := by
  cases fp with
  | nil => simp [charOfGetc, beforeEof]
  | cons b fp =>
      rw [ne_eq, charOfGetc_eq_eof_iff]
      by_cases hb : b = 255
      · subst hb
        simp [beforeEof_cons_end]
      · simp [beforeEof_cons_of_ne hb, hb]

/-- The comparison of the tests accepts two files exactly when, up to the first byte 255 in either, both have
    something and one of them is the start of the other: a copy that has been cut short passes. -/
theorem compareFiles_ok_iff (fp1 fp2 : List UInt8) :
    compareFiles fp1 fp2 = .ok () ↔ beforeEof fp1 ≠ [] ∧ beforeEof fp2 ≠ [] ∧
      (beforeEof fp1 <+: beforeEof fp2 ∨ beforeEof fp2 <+: beforeEof fp1) := by
  rw [← charOfGetc_ne_eof_iff, ← charOfGetc_ne_eof_iff, ← compareLoop_ok_iff]
  unfold compareFiles
  by_cases h1 : charOfGetc fp1 = eof
  · simp [h1]
  · by_cases h2 : charOfGetc fp2 = eof
    · simp [h1, h2]
    · simp [h1, h2]

/-! ### Writing through a pipe -/

/-- The pipe of the test has two copying operations; the first one copies the file. -/
theorem fileStreamPipe_eq (host : Host) (file : FileContent) {bs : Nat} (hfile : 1 ≤ file.bytes.length)
    (hbs : 1 ≤ bs) (hcount : file.bytes.length ⌈/⌉ bs ≤ 2 ^ 32 - 1) :
    fileStreamPipe host bs file = .ok file.bytes := by
  have hcount' : file.bytes.length ⌈/⌉ bs < 2 ^ 32 := by omega
  have hopen := dachStreamNew_eq host file hfile hbs hcount'
  have hadd : dachPipeAdd (dachPipeNew (openedStream host file.bytes bs) (streamTestCopy bufSize))
      (streamTestCopy bufSize) = .ok { source := openedStream host file.bytes bs
                                       operArray := [streamTestCopy bufSize, streamTestCopy bufSize] } := rfl
  have hcopy : ∀ j, 0 ≤ j → j < file.bytes.length ⌈/⌉ bs →
      streamTestCopy bufSize host (inBlockAt file.bytes bs j) (outBlockAt host file.bytes bs j) = .ok
        (copyIn file.bytes bs j (chunk bs file.bytes j).length,
          copyOut host file.bytes bs j (chunk bs file.bytes j).length) :=
    fun j _ _ => streamTestCopy_eq (by decide) (by
      -- a chunk is no longer than the file, whatever the block size
      have hlen := length_chunk bs file.bytes j
      have hoff := file.size_lt
      unfold bufSize
      omega)
  have hstart := dachPipeStart_eq _ _ [streamTestCopy bufSize] hcopy (Nat.zero_le _) hcount'
  rw [← openedStream_eq_piped] at hstart
  obtain ⟨finished, htofile⟩ := dachPipeTofile_eq host file.bytes bs
    (fun j => copyIn file.bytes bs j (chunk bs file.bytes j).length)
    (fun j => copyOut host file.bytes bs j (chunk bs file.bytes j).length)
    [streamTestCopy bufSize, streamTestCopy bufSize] (CFile.reading []) (fun j _ => by
      rw [copyOut_data]
      exact Nat.le_refl _)
  rw [flatten_copyOut hbs] at htofile
  rw [fileStreamPipe, hopen]
  simp only [ok_bind, hadd, hstart, htofile]
  rfl

/-- The writer test passes on every file and with every block size, unless the file starts with the byte
    255. -/
theorem fileStreamWriter_ok_iff (host : Host) (file : FileContent) (bs : Nat)
    (hfile : 1 ≤ file.bytes.length) (hbs : 1 ≤ bs) (hcount : file.bytes.length ⌈/⌉ bs ≤ 2 ^ 32 - 1) :
    fileStreamWriter host bs file = .ok () ↔ file.bytes.head? ≠ some 255 := by
  have hpipe : fileStreamWriter host bs file = compareFiles file.bytes file.bytes := by
    rw [fileStreamWriter, fileStreamPipe_eq host file hfile hbs hcount]
  obtain ⟨b, fp, hcons⟩ := List.exists_cons_of_length_pos hfile
  have hloop : compareLoop (b :: fp) (b :: fp) = .ok () :=
    (compareLoop_ok_iff (b :: fp) (b :: fp)).mpr (.inl (List.prefix_refl _))
  rw [hpipe, hcons, List.head?_cons, compareFiles]
  simp only [charOfGetc_eq_eof_iff, hloop, ne_eq, Option.some.injEq]
  by_cases hb : b = 255
  · simp [hb]
  · simp [hb]

/-- Three bytes in blocks of two. -/
theorem fileStreamWriter_ok_iff_three :
    fileStreamWriter littleHost 2 ⟨[1, 2, 3], by decide⟩ = .ok () :=
  (fileStreamWriter_ok_iff littleHost ⟨[1, 2, 3], by decide⟩ 2 (by decide) (by decide)
    (show ([1, 2, 3] : List UInt8).length ⌈/⌉ 2 ≤ 2 ^ 32 - 1 from (by decide : 2 ≤ 2 ^ 32 - 1))).mpr
      (by decide)

end Dach
