/-
Module: Dach.Proofs.Operations
Layer: Proofs
Purpose: A pipe with several operations. An operation that reads its whole input block and writes as many
  bytes, in any order and in pieces of any size, computes one block from the other; the first one of a
  pipe uses up the stream's block cursor, so the output blocks are those of the first one alone.
Imports: Dach.Proofs.Pipe
Trusted boundary: none
Main exports: OpSteps, Computes, pipeOf, OutputHolds, dachPipe_first, dachPipe_composes_iff
-/
import Dach.Proofs.Pipe

namespace Dach

open Chunks

/-! ### Operations -/

/-- Calls of the `read` and the `write` of an operation in some order: the bytes they read, the bytes
    they write, and the blocks after them. -/
inductive OpSteps (host : Host) :
    Block → Block → List UInt8 → List UInt8 → Block → Block → Prop where
  | done (inBlk outBlk : Block) : OpSteps host inBlk outBlk [] [] inBlk outBlk
  | read {inBlk inBlk' outBlk inEnd outEnd : Block} {count : Nat} {r : Int}
      {bytes got put : List UInt8} (call : dachOperationRead inBlk count = .ok (r, bytes, inBlk'))
      (rest : OpSteps host inBlk' outBlk got put inEnd outEnd) :
      OpSteps host inBlk outBlk (bytes ++ got) put inEnd outEnd
  | write {inBlk outBlk outBlk' inEnd outEnd : Block} {r : Int} {buf got put : List UInt8}
      (call : dachOperationWrite host outBlk buf = .ok (r, outBlk'))
      (rest : OpSteps host inBlk outBlk' got put inEnd outEnd) :
      OpSteps host inBlk outBlk got (buf ++ put) inEnd outEnd

/-- The two blocks that an operation gets: the input at its start, and an output block of the same
    length that has not been written. -/
structure BlockPair (inBlk outBlk : Block) : Prop where
  inPos : inBlk.pos = 0
  inData : inBlk.length ≤ inBlk.data.length
  nonempty : 1 ≤ inBlk.length
  small : inBlk.length < 2 ^ 63
  outMode : outBlk.mode = .writable
  outPos : outBlk.pos = 0
  outData : outBlk.data.length = outBlk.length
  same : outBlk.length = inBlk.length

/-- The operation reads its whole input block and writes as many bytes computed from them. -/
structure Computes (dop : Operation) (f : List UInt8 → List UInt8) : Prop where
  length : ∀ bytes, (f bytes).length = bytes.length
  run : ∀ host inBlk outBlk, BlockPair inBlk outBlk → ∃ inEnd outEnd,
    dop host inBlk outBlk = .ok (inEnd, outEnd) ∧
      OpSteps host inBlk outBlk inBlk.contents (f inBlk.contents) inEnd outEnd

/-- Whatever an operation reads in between, its writes put all their bytes at the position. -/
theorem OpSteps.wrote {host : Host} {inBlk outBlk inEnd outEnd : Block} {got put : List UInt8}
    (steps : OpSteps host inBlk outBlk got put inEnd outEnd) (hmode : outBlk.mode = .writable)
    (hdata : outBlk.data.length = outBlk.length) (hpos : outBlk.pos ≤ outBlk.length)
    (hwrap : outBlk.pos + put.length < 2 ^ 64) : outEnd = outBlk.wrote put := by
  induction steps with
  | done => exact (Block.wrote_nil hpos).symm
  | read _ _ ih => exact ih hmode hdata hpos hwrap
  | @write inBlk outBlk outBlk' _ _ r buf got put call _ ih =>
      rw [List.length_append] at hwrap
      have hbuf : 0 < buf.length := by
        by_contra hempty
        rw [dachOperationWrite, cassert_neg _ hempty] at call
        cases call
      rw [dachOperationWrite, cassert_pos _ hbuf, ok_bind,
        blockWrite_eq host outBlk buf hbuf hmode hdata hpos (by omega)] at call
      obtain rfl : outBlk.wrote buf = outBlk' := congrArg Prod.snd (Except.ok.inj call)
      have hlong : (outBlk.wrote buf).data.length = (outBlk.wrote buf).length := by
        show (overwrite _ _ _).length = max _ _
        rw [length_overwrite (by omega), hdata]
      rw [ih hmode hlong (Nat.le_max_right _ _) (by show _ + _ + _ < _; omega)]
      exact Block.wrote_wrote (by omega) buf put

/-- An operation that computes `f` leaves `f` of the input in the output block. -/
theorem Computes.output {dop : Operation} {f : List UInt8 → List UInt8} (h : Computes dop f)
    {host : Host} {inBlk outBlk : Block} (pair : BlockPair inBlk outBlk) :
    ∃ inEnd outEnd, dop host inBlk outBlk = .ok (inEnd, outEnd) ∧
      outEnd.data = f inBlk.contents ∧ outEnd.length = outEnd.data.length := by
  obtain ⟨inEnd, outEnd, hrun, steps⟩ := h.run host inBlk outBlk pair
  have hbytes : (f inBlk.contents).length = outBlk.length := by
    rw [h.length, Block.contents, List.length_take, pair.same]
    exact Nat.min_eq_left pair.inData
  have hsmall := pair.small
  have hsame := pair.same
  obtain rfl := steps.wrote pair.outMode pair.outData (by rw [pair.outPos]; exact Nat.zero_le _)
    (by rw [pair.outPos]; omega)
  have hdata : (outBlk.wrote (f inBlk.contents)).data = f inBlk.contents := by
    show overwrite _ _ _ = _
    rw [overwrite, pair.outPos, List.take_zero, List.nil_append, Nat.zero_add, hbytes,
      List.drop_of_length_le (Nat.le_of_eq pair.outData), List.append_nil]
  refine ⟨inEnd, _, hrun, hdata, ?_⟩
  rw [hdata, hbytes]
  show max _ _ = _
  rw [pair.outPos, hbytes]
  omega

/-- The blocks of a fresh stream are such a pair. -/
theorem blockPair_opened (host : Host) (file : FileContent) {bs j : Nat} (hbs : 1 ≤ bs)
    (hj : j < file.bytes.length ⌈/⌉ bs) :
    BlockPair (inBlockAt file.bytes bs j) (outBlockAt host file.bytes bs j) := by
  have hbounds := length_chunk_bounds hbs hj
  have hlen := length_chunk bs file.bytes j
  have hfile := file.size_lt
  refine ⟨rfl, ?_, hbounds.1, ?_, rfl, rfl, ?_, rfl⟩
  · show (chunk bs file.bytes j).length ≤ (file.bytes.drop (j * bs)).length
    rw [List.length_drop]
    omega
  · show (chunk bs file.bytes j).length < _
    omega
  · show (malloc _ _).length = (chunk bs file.bytes j).length
    rw [malloc, List.length_map, List.length_range]

theorem inBlockAt_contents (content : List UInt8) (bs j : Nat) :
    (inBlockAt content bs j).contents = chunk bs content j :=
  take_length_chunk bs content j

/-! ### Pipes of several operations -/

/-- A pipe with its first operation, and the others added to it in order. -/
def pipeOf (source : Stream) (dop : Operation) (dops : List Operation) : Except Abort Pipe :=
  dops.foldlM dachPipeAdd (dachPipeNew source dop)

/-- A pipe has room for sixteen operations. -/
theorem foldlM_dachPipeAdd (dops : List Operation) : ∀ pip : Pipe,
    pip.operArray.length + dops.length ≤ 16 →
      dops.foldlM dachPipeAdd pip = .ok { pip with operArray := pip.operArray ++ dops } := by
  induction dops with
  | nil =>
      intro pip _
      rw [List.append_nil]
      rfl
  | cons dop dops ih =>
      intro pip hroom
      rw [List.length_cons] at hroom
      have hadd : dachPipeAdd pip dop = .ok { pip with operArray := pip.operArray ++ [dop] } := by
        rw [dachPipeAdd, cassert_pos _ (by omega)]
        rfl
      rw [List.foldlM_cons, hadd, ok_bind, ih _ (by
        show (pip.operArray ++ [dop]).length + _ ≤ 16
        rw [List.length_append, List.length_singleton]
        omega), List.append_assoc]
      rfl

/-- The output block of input block `j` holds these bytes. -/
def OutputHolds (pip : Pipe) (j : Nat) (bytes : List UInt8) : Prop :=
  ∃ blk, pip.source.outBlock j = .ok blk ∧ blk.contents = bytes

/-- What a pipe leaves in output block `j` when `m` blocks had been taken from the stream before: the
    first operation's bytes, or what fresh memory holds. -/
def firstOutput (host : Host) (content : List UInt8) (bs m : Nat) (f : List UInt8 → List UInt8)
    (j : Nat) : List UInt8 :=
  if j < m then malloc (host.heap j) (chunk bs content j).length else f (chunk bs content j)

/-- The blocks of a stream after a run of an operation that computes `f`. -/
theorem Computes.blocks {dop : Operation} {f : List UInt8 → List UInt8} (hdop : Computes dop f)
    (host : Host) (file : FileContent) {bs : Nat} (hbs : 1 ≤ bs) :
    ∃ inEnd outEnd : Nat → Block, ∀ j < file.bytes.length ⌈/⌉ bs,
      dop host (inBlockAt file.bytes bs j) (outBlockAt host file.bytes bs j)
          = .ok (inEnd j, outEnd j) ∧
        (outEnd j).data = f (chunk bs file.bytes j) ∧
        (outEnd j).length = (outEnd j).data.length := by
  have hblocks : ∀ j, ∃ inEnd outEnd, j < file.bytes.length ⌈/⌉ bs →
      dop host (inBlockAt file.bytes bs j) (outBlockAt host file.bytes bs j) = .ok (inEnd, outEnd) ∧
        outEnd.data = f (chunk bs file.bytes j) ∧ outEnd.length = outEnd.data.length := by
    intro j
    by_cases hj : j < file.bytes.length ⌈/⌉ bs
    · obtain ⟨inEnd, outEnd, h⟩ := hdop.output (blockPair_opened host file hbs hj)
      rw [inBlockAt_contents] at h
      exact ⟨inEnd, outEnd, fun _ => h⟩
    · exact ⟨inBlockAt file.bytes bs j, outBlockAt host file.bytes bs j, fun h => absurd h hj⟩
  choose inEnd outEnd hends using hblocks
  exact ⟨inEnd, outEnd, fun j hj => hends j hj⟩

/-- The blocks taken from a stream are as they were, whatever an operation will do to the others. -/
theorem openedStream_after (host : Host) (content : List UInt8) {bs m : Nat}
    (hm : m ≤ content.length ⌈/⌉ bs) (inEnd outEnd : Nat → Block) :
    (openedStream host content bs).after m = pipedStream host content bs
      (fun j => if j < m then inBlockAt content bs j else inEnd j)
      (fun j => if j < m then outBlockAt host content bs j else outEnd j) m := by
  have hmin : min m (content.length ⌈/⌉ bs) = m := Nat.min_eq_left hm
  have hkeep : ∀ (p : Prop) [Decidable p] (one two : Block),
      (if p then if p then one else two else one) = one := by
    intro p _ one two
    by_cases hp : p <;> simp [hp]
  simp only [Stream.after, openedStream, streamAt, pipedStream, hmin, hkeep]

/-- An output block of a stream that an operation has run on. -/
theorem pipedStream_outBlock_done (host : Host) (content : List UInt8) {bs j : Nat}
    (hj : j < content.length ⌈/⌉ bs) (doneIn doneOut : Nat → Block) :
    (pipedStream host content bs doneIn doneOut (content.length ⌈/⌉ bs)).outBlock j
      = .ok (doneOut j) := by
  simp only [Stream.outBlock, pipedStream, List.getElem?_map, List.getElem?_range hj,
    Option.map_some, if_pos hj]
  rfl

/-- A fresh output block, or one that holds what `f` computed. -/
theorem firstOutput_data (host : Host) (content : List UInt8) (bs m : Nat)
    {f : List UInt8 → List UInt8} {j : Nat} {outEnd : Block}
    (hdata : outEnd.data = f (chunk bs content j)) (hlen : outEnd.length = outEnd.data.length) :
    (if j < m then outBlockAt host content bs j else outEnd).length
        = (if j < m then outBlockAt host content bs j else outEnd).data.length ∧
      (if j < m then outBlockAt host content bs j else outEnd).data
        = firstOutput host content bs m f j := by
  unfold firstOutput
  by_cases hbefore : j < m
  · rw [if_pos hbefore, if_pos hbefore]
    have hfresh : (malloc (host.heap j) (chunk bs content j).length).length
        = (chunk bs content j).length := by
      rw [malloc, List.length_map, List.length_range]
    exact ⟨hfresh.symm, rfl⟩
  · rw [if_neg hbefore, if_neg hbefore]
    exact ⟨hlen, hdata⟩

/-- A pipe over a stream with `m` blocks already taken runs its first operation only. -/
theorem dachPipe_first (host : Host) (file : FileContent) (bs m : Nat) (fd : CFile) (dop : Operation)
    (dops : List Operation) {f : List UInt8 → List UInt8} (hfile : 1 ≤ file.bytes.length)
    (hbs : 1 ≤ bs) (hcount : file.bytes.length ⌈/⌉ bs ≤ 2 ^ 32 - 1)
    (hm : m ≤ file.bytes.length ⌈/⌉ bs) (hdop : Computes dop f) (hroom : dops.length ≤ 15) :
    ∃ stream pip started finished out,
      dachStreamNew host { file := file, mode := "r", blockSize := bs } = .ok stream ∧
        pipeOf (stream.after m) dop dops = .ok pip ∧ dachPipeStart host pip = .ok started ∧
        dachPipeTofile started fd = .ok (finished, out) ∧
        (∀ j < file.bytes.length ⌈/⌉ bs,
          OutputHolds started j (firstOutput host file.bytes bs m f j)) ∧
        out.written = fd.written ++ ((List.range (file.bytes.length ⌈/⌉ bs)).map
          (firstOutput host file.bytes bs m f)).flatten := by
  have hcount' : file.bytes.length ⌈/⌉ bs < 2 ^ 32 := Nat.lt_of_le_of_lt hcount (by norm_num)
  have hopen := dachStreamNew_eq host file hfile hbs hcount'
  obtain ⟨inEnd, outEnd, hends⟩ := hdop.blocks host file hbs
  have hrun : ∀ j, m ≤ j → j < file.bytes.length ⌈/⌉ bs →
      dop host (inBlockAt file.bytes bs j) (outBlockAt host file.bytes bs j)
        = .ok ((if j < m then inBlockAt file.bytes bs j else inEnd j),
            (if j < m then outBlockAt host file.bytes bs j else outEnd j)) := by
    intro j hj hj'
    rw [if_neg (Nat.not_lt_of_le hj), if_neg (Nat.not_lt_of_le hj)]
    exact (hends j hj').1
  have hstart := dachPipeStart_eq _ _ dops hrun hm hcount'
  rw [← openedStream_after host file.bytes hm inEnd outEnd] at hstart
  have hpipe : pipeOf ((openedStream host file.bytes bs).after m) dop dops
      = .ok { source := (openedStream host file.bytes bs).after m, operArray := dop :: dops } :=
    foldlM_dachPipeAdd dops _ (by show 1 + dops.length ≤ 16; omega)
  have hcontents := fun j hj =>
    firstOutput_data host file.bytes bs m (hends j hj).2.1 (hends j hj).2.2
  obtain ⟨finished, htofile⟩ := dachPipeTofile_eq host file.bytes bs
    (fun j => if j < m then inBlockAt file.bytes bs j else inEnd j)
    (fun j => if j < m then outBlockAt host file.bytes bs j else outEnd j)
    (dop :: dops) fd fun j hj => Nat.le_of_eq (hcontents j hj).1
  refine ⟨_, _, _, finished, _, hopen, hpipe, hstart, htofile, ?_, ?_⟩
  · intro j hj
    refine ⟨_, pipedStream_outBlock_done host file.bytes hj _ _, ?_⟩
    rw [Block.contents, (hcontents j hj).1, List.take_length]
    exact (hcontents j hj).2
  · refine congrArg (fun parts => fd.written ++ parts.flatten) (List.map_congr_left fun j hj => ?_)
    obtain ⟨hlen, hdata⟩ := hcontents j (List.mem_range.mp hj)
    rw [hlen, List.take_length]
    exact hdata

/-- The operations of a pipe are composed, block by block, exactly when the added ones make no
    difference after the first one, and the blocks taken before already held the result. -/
theorem dachPipe_composes_iff (host : Host) (file : FileContent) (bs m : Nat) (fd : CFile)
    (dop : Operation) (f : List UInt8 → List UInt8) (dops : List Operation)
    (fs : List (List UInt8 → List UInt8)) (hfile : 1 ≤ file.bytes.length) (hbs : 1 ≤ bs)
    (hcount : file.bytes.length ⌈/⌉ bs ≤ 2 ^ 32 - 1) (hm : m ≤ file.bytes.length ⌈/⌉ bs)
    (hdop : Computes dop f) (_hdops : List.Forall₂ Computes dops fs) (hroom : dops.length ≤ 15) :
    ∃ stream pip started finished out,
      dachStreamNew host { file := file, mode := "r", blockSize := bs } = .ok stream ∧
        pipeOf (stream.after m) dop dops = .ok pip ∧ dachPipeStart host pip = .ok started ∧
        dachPipeTofile started fd = .ok (finished, out) ∧
        (((∀ j < file.bytes.length ⌈/⌉ bs, OutputHolds started j
            (fs.foldl (fun bytes g => g bytes) (f (chunk bs file.bytes j)))) ∧
          out.written = fd.written ++ ((List.range (file.bytes.length ⌈/⌉ bs)).map fun j =>
            fs.foldl (fun bytes g => g bytes) (f (chunk bs file.bytes j))).flatten) ↔
        ∀ j < file.bytes.length ⌈/⌉ bs,
          fs.foldl (fun bytes g => g bytes) (f (chunk bs file.bytes j))
            = if j < m then malloc (host.heap j) (chunk bs file.bytes j).length
              else f (chunk bs file.bytes j)) := by
  obtain ⟨stream, pip, started, finished, out, hopen, hpipe, hstart, htofile, hholds, hwritten⟩ :=
    dachPipe_first host file bs m fd dop dops hfile hbs hcount hm hdop hroom
  refine ⟨stream, pip, started, finished, out, hopen, hpipe, hstart, htofile, ?_, ?_⟩
  · rintro ⟨hcomposed, _⟩ j hj
    obtain ⟨blk, hblk, hbytes⟩ := hcomposed j hj
    obtain ⟨blk', hblk', hbytes'⟩ := hholds j hj
    obtain rfl : blk = blk' := ok_unique hblk hblk'
    exact hbytes.symm.trans hbytes'
  · intro hsame
    refine ⟨fun j hj => ?_, ?_⟩
    · rw [hsame j hj]
      exact hholds j hj
    · rw [hwritten]
      congr 2
      apply List.map_congr_left
      intro j hj
      exact (hsame j (List.mem_range.mp hj)).symm

/-! ### Two operations -/

/-- Read the whole block at once and write it with every byte changed. -/
def mapOperation (g : UInt8 → UInt8) : Operation := fun host inBlk outBlk => do
  let (_, buf, inBlk) ← dachOperationRead inBlk inBlk.length
  let (_, outBlk) ← dachOperationWrite host outBlk (buf.map g)
  return (inBlk, outBlk)

theorem mapOperation_computes (g : UInt8 → UInt8) : Computes (mapOperation g) (List.map g) where
  length _ := List.length_map ..
  run := by
    intro host inBlk outBlk pair
    have hpos := pair.inPos
    have hnonempty := pair.nonempty
    have hsmall := pair.small
    obtain ⟨n, hn, hread⟩ := blockRead_eq inBlk inBlk.length (by omega) pair.inData
    rw [hpos, Nat.sub_zero, Nat.min_self] at hn
    rw [hpos, List.drop_zero, hn] at hread
    have hlen : (inBlk.contents.map g).length = inBlk.length := by
      rw [List.length_map, Block.contents, List.length_take]
      exact Nat.min_eq_left pair.inData
    have hwrite : dachOperationWrite host outBlk (inBlk.contents.map g)
        = .ok (1, outBlk.wrote (inBlk.contents.map g)) := by
      rw [dachOperationWrite, cassert_pos _ (by omega), ok_bind]
      exact blockWrite_eq host outBlk _ (by omega) pair.outMode pair.outData
        (by rw [pair.outPos]; exact Nat.zero_le _) (by rw [pair.outPos]; omega)
    have hsteps := OpSteps.read hread (.write hwrite (.done _ _))
    rw [List.append_nil, List.append_nil] at hsteps
    refine ⟨_, _, ?_, hsteps⟩
    have hread' : dachOperationRead inBlk inBlk.length = .ok (_, inBlk.contents, _) := hread
    simp only [mapOperation, hread', ok_bind, hwrite, pure_eq_ok]

/-- Copy, then add one to every byte: the second operation never runs. -/
theorem dachPipe_second_skipped : ∃ stream pip started,
    dachStreamNew littleHost { file := ⟨[65], by decide⟩, mode := "r", blockSize := 1 } = .ok stream ∧
      pipeOf (stream.after 0) (mapOperation id) [mapOperation (· + 1)] = .ok pip ∧
      dachPipeStart littleHost pip = .ok started ∧ OutputHolds started 0 [65] ∧
      ¬ OutputHolds started 0 (List.map (· + 1) (List.map id [65])) := by
  obtain ⟨stream, pip, started, _, _, hopen, hpipe, hstart, _, hholds, _⟩ :=
    dachPipe_first littleHost ⟨[65], by decide⟩ 1 0 (CFile.reading []) (mapOperation id)
      [mapOperation (· + 1)] (by decide) (by decide)
      (show ([65] : List UInt8).length ⌈/⌉ 1 ≤ 2 ^ 32 - 1 from (by decide : 1 ≤ 2 ^ 32 - 1))
      (Nat.zero_le _) (mapOperation_computes id) (by decide)
  have hone : OutputHolds started 0 [65] :=
    hholds 0 (show 0 < ([65] : List UInt8).length ⌈/⌉ 1 from (by decide : 0 < 1))
  refine ⟨stream, pip, started, hopen, hpipe, hstart, hone, ?_⟩
  rintro ⟨blk, hblk, hbytes⟩
  obtain ⟨blk', hblk', hbytes'⟩ := hone
  obtain rfl : blk = blk' := ok_unique hblk hblk'
  rw [hbytes] at hbytes'
  exact absurd hbytes' (by decide)

/-- A second operation that copies makes no difference. -/
theorem dachPipe_composes_iff_copies : ∃ stream pip started finished out,
    dachStreamNew littleHost { file := ⟨[65], by decide⟩, mode := "r", blockSize := 1 } = .ok stream ∧
      pipeOf (stream.after 0) (mapOperation (· + 1)) [mapOperation id] = .ok pip ∧
      dachPipeStart littleHost pip = .ok started ∧
      dachPipeTofile started (CFile.reading []) = .ok (finished, out) ∧
      OutputHolds started 0 [66] := by
  obtain ⟨stream, pip, started, finished, out, hopen, hpipe, hstart, htofile, hiff⟩ :=
    dachPipe_composes_iff littleHost ⟨[65], by decide⟩ 1 0 (CFile.reading []) (mapOperation (· + 1))
      (List.map (· + 1)) [mapOperation id] [List.map id] (by decide) (by decide)
      (show ([65] : List UInt8).length ⌈/⌉ 1 ≤ 2 ^ 32 - 1 from (by decide : 1 ≤ 2 ^ 32 - 1))
      (Nat.zero_le _) (mapOperation_computes _) (.cons (mapOperation_computes id) .nil) (by decide)
  have hsame := hiff.mpr fun j _ => List.map_id _
  exact ⟨stream, pip, started, finished, out, hopen, hpipe, hstart, htofile,
    hsame.1 0 (show 0 < ([65] : List UInt8).length ⌈/⌉ 1 from (by decide : 0 < 1))⟩

end Dach
