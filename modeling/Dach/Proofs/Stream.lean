/-
Module: Dach.Proofs.Stream
Layer: Proofs
Purpose: A freshly opened stream cuts its file into blocks without a gap or an overlap, and hands them
  out one after the other to whoever asks. Releasing them to the output aborts at the first call.
Imports: Dach.Core.Stream, Dach.Lib.Chunks
Trusted boundary: none
Main exports: openedStream, dachStreamNew_eq, OpensInFull, opensInFull_iff, StreamCall, streamCalls,
  Partition, dachStreamNew_partition, ReleasesInOrder, freeBlock_aborts, freeBlocks_never_inOrder
-/
import Dach.Core.Stream
import Dach.Lib.Chunks

namespace Dach

open Chunks

/-! ### The three size computations -/

theorem getBlockCount_eq {infilesize blockSize : Nat} (hfile : 0 < infilesize)
    (hsize : 0 < blockSize) : getBlockCount infilesize blockSize = .ok (infilesize ⌈/⌉ blockSize) := by
  unfold getBlockCount
  by_cases hge : blockSize ≥ infilesize
  · rw [if_pos hge, ceilDiv_eq (k := 0) hsize (by omega) (by omega)]
    rfl
  · have hdiv := Nat.div_add_mod infilesize blockSize
    have hmod := Nat.mod_lt infilesize hsize
    have hquot : 0 < infilesize / blockSize := Nat.div_pos (by omega) hsize
    rw [if_neg hge, if_neg (Nat.ne_of_gt hsize)]
    by_cases hzero : infilesize % blockSize = 0
    · have hmul : infilesize / blockSize * blockSize = infilesize := by
        rw [Nat.mul_comm]
        omega
      have hprev : (infilesize / blockSize - 1) * blockSize + blockSize = infilesize := by
        rw [← Nat.succ_mul, Nat.succ_eq_add_one, Nat.sub_add_cancel hquot, hmul]
      have hceil : infilesize ⌈/⌉ blockSize = infilesize / blockSize := by
        rw [ceilDiv_eq (k := infilesize / blockSize - 1) hsize (by omega)
          (by rw [Nat.succ_mul]; omega)]
        omega
      simp only [if_pos hzero, Nat.add_sub_cancel, cassert_pos _ hquot, hceil, ok_bind, pure_eq_ok]
    · have hceil : infilesize ⌈/⌉ blockSize = infilesize / blockSize + 1 := by
        apply ceilDiv_eq hsize
        · rw [Nat.mul_comm]
          omega
        · rw [Nat.succ_mul, Nat.mul_comm]
          omega
      simp only [if_neg hzero, cassert_pos _ (Nat.succ_pos _), hceil, ok_bind, pure_eq_ok]

theorem getLastBlockSize_eq {infilesize blockSize : Nat} (hfile : 0 < infilesize)
    (hsize : 0 < blockSize) : getLastBlockSize infilesize blockSize = .ok (infilesize % blockSize) := by
  rw [getLastBlockSize, getBlockCount_eq hfile hsize, ok_bind, if_neg (Nat.ne_of_gt hsize)]
  rfl

/-! ### The blocks of a fresh stream -/

section Opened

variable (host : Host) (content : List UInt8) (bs : Nat)

/-- Input block `j`: the mapping from `j * bs` on, with the length of chunk `j`. -/
def inBlockAt (j : Nat) : Block :=
  { id := j, mode := .readable, pos := 0, bytesWritten := 0, data := content.drop (j * bs),
    size := (chunk bs content j).length, length := (chunk bs content j).length }

/-- Output block `j`: fresh memory of the same length. -/
def outBlockAt (j : Nat) : Block :=
  { id := j, mode := .writable, pos := 0, bytesWritten := 0,
    data := malloc (host.heap j) (chunk bs content j).length,
    size := (chunk bs content j).length, length := (chunk bs content j).length }

/-- The stream after the first `k` passes of the loop of `lazy_create_blocks`. -/
def streamAt (k : Nat) : Stream :=
  { mode := .readable, filesize := content.length, mmapData := content,
    blockCount := content.length ⌈/⌉ bs, blocksReturned := 0, blockSizeActual := bs,
    lastBlockSize := content.length % bs
    dblockArray := (List.range k).map fun j => .fresh host j (inBlockAt content bs j)
    dblockArrayOut := (List.range k).map fun j => .fresh host j (outBlockAt host content bs j) }

/-- The stream `dach_stream_new` returns. -/
def openedStream : Stream := streamAt host content bs (content.length ⌈/⌉ bs)

variable {host content bs}

theorem streamAt_succ (k : Nat) :
    { streamAt host content bs k with
      dblockArray := (streamAt host content bs k).dblockArray ++
        [.fresh host k (inBlockAt content bs k)]
      dblockArrayOut := (streamAt host content bs k).dblockArrayOut ++
        [.fresh host k (outBlockAt host content bs k)] } = streamAt host content bs (k + 1) := by
  simp [streamAt, List.range_succ]

/-- One pass of the loop creates the two blocks of one chunk. -/
theorem createBlock_eq (hsize : 0 < bs) {j k : Nat} (hj : j < content.length ⌈/⌉ bs) :
    createBlock host (streamAt host content bs k) j (j * bs)
      = .ok (inBlockAt content bs j, outBlockAt host content bs j) := by
  have hfile : 0 < content.length := by
    have := (lt_ceilDiv_iff hsize _ _).mp hj
    omega
  unfold createBlock
  by_cases hlast : j = content.length ⌈/⌉ bs - 1
  · have hlen := length_chunk_last hsize (show j + 1 = content.length ⌈/⌉ bs by omega)
    simp only [streamAt, if_pos hlast, getLastBlockSize_eq hfile hsize, ok_bind, pure_eq_ok,
      dachBlockNew, ← hlen]
    rfl
  · have hlen := length_chunk_of_succ_lt hsize (show j + 1 < content.length ⌈/⌉ bs by omega)
    simp only [streamAt, if_neg hlast, ok_bind, pure_eq_ok, dachBlockNew, inBlockAt, outBlockAt, hlen]
    rfl

/-- The loop creates the blocks of all chunks. The running offset is a product only while there is a
    block left: past the last one it may have wrapped around. -/
theorem createBlocksLoop_eq (hsize : 0 < bs) (hfile : content.length < 2 ^ 63)
    (hcount : content.length ⌈/⌉ bs < 2 ^ 32) :
    ∀ (fuel bid posPointer : Nat), bid + fuel = content.length ⌈/⌉ bs →
      (bid < content.length ⌈/⌉ bs → posPointer = bid * bs) →
      createBlocksLoop host fuel (streamAt host content bs bid) bid posPointer
        = .ok (openedStream host content bs) := by
  intro fuel
  induction fuel with
  | zero =>
      intro bid posPointer hbid _
      obtain rfl : bid = content.length ⌈/⌉ bs := hbid
      exact if_neg (Nat.lt_irrefl _)
  | succ fuel ih =>
      intro bid posPointer hbid hpos
      have hlt : bid < content.length ⌈/⌉ bs := by omega
      obtain rfl := hpos hlt
      have hnext : bid + 1 < content.length ⌈/⌉ bs →
          u64 (bid * bs + bs) = (bid + 1) * bs := by
        intro h
        rw [lt_ceilDiv_iff hsize, Nat.succ_mul] at h
        rw [Nat.succ_mul]
        exact u64_of_lt (by omega)
      have hstep := ih (bid + 1) (u64 (bid * bs + bs)) (by omega) hnext
      rw [createBlocksLoop, if_pos (show bid < (streamAt host content bs bid).blockCount from hlt),
        createBlock_eq hsize hlt, ok_bind, u32_of_lt (by omega), ← hstep, ← streamAt_succ]
      rfl

/-- A file of at least one byte opens, for every block size that keeps the block ids in a `u32`. -/
theorem dachStreamNew_eq (host : Host) (file : FileContent) (hfile : 0 < file.bytes.length)
    (hsize : 0 < bs) (hcount : file.bytes.length ⌈/⌉ bs < 2 ^ 32) :
    dachStreamNew host { file := file, mode := "r", blockSize := bs }
      = .ok (openedStream host file.bytes bs) := by
  have hpos := ceilDiv_pos hsize hfile
  have hloop : createBlocksLoop host (file.bytes.length ⌈/⌉ bs) (streamAt host file.bytes bs 0) 0 0
      = .ok (openedStream host file.bytes bs) :=
    createBlocksLoop_eq hsize file.size_lt hcount _ 0 0 (Nat.zero_add _)
      fun _ => (Nat.zero_mul bs).symm
  have hlazy : lazyCreateBlocks host (streamAt host file.bytes bs 0)
      = .ok (openedStream host file.bytes bs) := by
    obtain ⟨k, hk⟩ := Nat.exists_eq_add_of_lt hpos
    have harray : (openedStream host file.bytes bs).dblockArray
        = .fresh host 0 (inBlockAt file.bytes bs 0) ::
          (List.range k).map fun j => .fresh host (j + 1) (inBlockAt file.bytes bs (j + 1)) := by
      rw [openedStream, hk, Nat.zero_add]
      simp [streamAt, List.range_succ_eq_map, Function.comp_def]
    rw [lazyCreateBlocks]
    show (createBlocksLoop host (file.bytes.length ⌈/⌉ bs) _ 0 0 >>= _) = _
    rw [hloop, ok_bind, harray]
    rfl
  have htest : testBlockSize (streamAt host file.bytes bs 0)
      = .ok (if file.bytes.length % bs = 0 then 0 else 1) := by
    unfold testBlockSize
    by_cases hzero : file.bytes.length % bs = 0
    · simp [streamAt, hzero, cassert_pos]
    · simp [streamAt, hzero]
  rw [dachStreamNew, if_neg (show ¬ "r" = "w" by decide), if_pos (show "r" = "r" from rfl)]
  simp only [cassert_pos _ hfile, getBlockCount_eq hfile hsize, getLastBlockSize_eq hfile hsize,
    ok_bind]
  show (testBlockSize (streamAt host file.bytes bs 0) >>= fun _ =>
    lazyCreateBlocks host (streamAt host file.bytes bs 0)) = _
  rw [htest, ok_bind, hlazy]

end Opened

/-! ### Which sizes open -/

/-- The stream `dach_stream_new` makes before its blocks are created. -/
def freshStream (file : FileContent) (bs count last : Nat) : Stream :=
  { mode := .readable, filesize := file.bytes.length, mmapData := file.bytes, blockCount := count,
    blocksReturned := 0, blockSizeActual := bs, lastBlockSize := last,
    dblockArray := [], dblockArrayOut := [] }

/-- The ids of the blocks in an array. -/
def blockIds (dblocks : List DBlock) : List Nat := dblocks.map fun dblk => blockId dblk.obj

/-- Neither size computation traps, and the loop of `lazy_create_blocks` ends after as many passes as
    there are blocks, having made the blocks `0` to `count - 1`, each once. -/
def OpensInFull (host : Host) (file : FileContent) (bs : Nat) : Prop :=
  ∃ count last stream, getBlockCount file.bytes.length bs = .ok count ∧
    getLastBlockSize file.bytes.length bs = .ok last ∧
    createBlocksLoop host count (freshStream file bs count last) 0 0 = .ok stream ∧
    blockIds stream.dblockArray = List.range count ∧
    blockIds stream.dblockArrayOut = List.range count ∧ (blockIds stream.dblockArray).Nodup

theorem getBlockCount_zero {infilesize : Nat} (hfile : 0 < infilesize) :
    getBlockCount infilesize 0 = .error .divByZero := by
  rw [getBlockCount, if_neg (Nat.not_le_of_gt hfile), if_pos rfl]

/-- A loop over more blocks than a `u32` counts never ends. -/
theorem createBlocksLoop_wraps (host : Host) {fuel : Nat} : ∀ {stream : Stream} {bid posPointer : Nat},
    2 ^ 32 ≤ stream.blockCount → bid < 2 ^ 32 →
      ∀ stream', createBlocksLoop host fuel stream bid posPointer ≠ .ok stream' := by
  induction fuel with
  | zero =>
      intro stream bid posPointer hcount hbid stream' heq
      rw [createBlocksLoop, if_pos (by omega)] at heq
      cases heq
  | succ fuel ih =>
      intro stream bid posPointer hcount hbid stream' heq
      rw [createBlocksLoop, if_pos (by omega), bind_eq_ok] at heq
      rcases heq with ⟨⟨dbin, dbout⟩, _, hrest⟩
      -- the next id is a `u32` again
      refine ih ?_ (Nat.mod_lt _ (by decide)) stream' hrest
      exact hcount

/-- For every file of at least one byte and every block size: the stream opens with one block for each id
    exactly when the size is not zero and the number of blocks is a `u32`. -/
theorem opensInFull_iff (host : Host) (file : FileContent) (bs : Nat) (hfile : 1 ≤ file.bytes.length) :
    OpensInFull host file bs ↔ 1 ≤ bs ∧ file.bytes.length ⌈/⌉ bs < 2 ^ 32 := by
  constructor
  · rintro ⟨count, last, stream, hcount, _, hloop, _⟩
    have hsize : 0 < bs := by
      apply Nat.pos_of_ne_zero
      rintro rfl
      rw [getBlockCount_zero hfile] at hcount
      cases hcount
    rw [getBlockCount_eq hfile hsize] at hcount
    cases hcount
    refine ⟨hsize, ?_⟩
    by_contra hwide
    exact createBlocksLoop_wraps host (Nat.le_of_not_lt hwide) (by decide) stream hloop
  · rintro ⟨hsize, hcount⟩
    have hin : blockIds (openedStream host file.bytes bs).dblockArray
        = List.range (file.bytes.length ⌈/⌉ bs) := by
      simp [blockIds, openedStream, streamAt, DBlock.fresh, blockId, inBlockAt, Function.comp_def]
    have hout : blockIds (openedStream host file.bytes bs).dblockArrayOut
        = List.range (file.bytes.length ⌈/⌉ bs) := by
      simp [blockIds, openedStream, streamAt, DBlock.fresh, blockId, outBlockAt, Function.comp_def]
    refine ⟨_, _, openedStream host file.bytes bs, getBlockCount_eq hfile hsize,
      getLastBlockSize_eq hfile hsize, ?_, hin, hout, ?_⟩
    · exact createBlocksLoop_eq hsize file.size_lt hcount _ 0 0 (Nat.zero_add _)
        fun _ => (Nat.zero_mul bs).symm
    · rw [hin]
      exact List.nodup_range

theorem opensInFull_iff_three :
    OpensInFull littleHost ⟨[65, 66, 67], by decide⟩ 2 :=
  (opensInFull_iff littleHost ⟨[65, 66, 67], by decide⟩ 2 (by decide)).mpr
    ⟨by decide, Nat.lt_of_le_of_lt
      (show (3 : Nat) ⌈/⌉ 2 ≤ 2 from (ceilDiv_le_iff_le_mul (by decide)).mpr (by decide)) (by decide)⟩

/-- Block size 0, "no blocking is to take place", divides by zero. -/
theorem dachStreamNew_zero : ¬ OpensInFull littleHost ⟨[65], by decide⟩ 0 ∧
    dachStreamNew littleHost { file := ⟨[65], by decide⟩, mode := "r", blockSize := 0 }
      = .error .divByZero := by
  constructor
  · rintro ⟨count, last, stream, hcount, _⟩
    cases hcount
  · rfl

/-! ### Callers -/

/-- The operations a caller may use to take blocks from a stream. -/
inductive StreamCall where
  | newBlock
  | blocks
deriving DecidableEq, Repr

/-- What a call returns: a block pointer, NULL as `none`, or a number of blocks. -/
inductive StreamAnswer where
  | block (ptr : Option Nat)
  | count (n : Nat)
deriving DecidableEq, Repr

/-- One call. -/
def streamCall (stream : Stream) : StreamCall → Except Abort (StreamAnswer × Stream)
  | .newBlock => do
      let (ptr, stream) ← newBlock stream
      return (.block ptr, stream)
  | .blocks => return (.count (blocks stream), stream)

/-- The calls of any number of callers in the order in which they happen, each answered to its
    caller. A call is atomic, so that every interleaving is such an order. -/
def streamCalls {Caller : Type} :
    List (Caller × StreamCall) → Stream → Except Abort (List (Caller × StreamAnswer) × Stream)
  | [], stream => .ok ([], stream)
  | (caller, call) :: calls, stream => do
      let (answer, stream) ← streamCall stream call
      let (answers, stream) ← streamCalls calls stream
      return ((caller, answer) :: answers, stream)

/-- How many of the calls ask for a block. -/
def newBlockCalls {Caller : Type} (calls : List (Caller × StreamCall)) : Nat :=
  calls.countP fun call => call.2 = .newBlock

/-- The answer of a stream of `k` blocks after `m` requests for a block. -/
def answerAfter (k m : Nat) : StreamCall → StreamAnswer
  | .newBlock => .block (if m < k then some m else none)
  | .blocks => .count (k - m)

/-- The stream after `m` requests for a block. -/
def Stream.after (stream : Stream) (m : Nat) : Stream :=
  { stream with blocksReturned := min m stream.blockCount }

/-- What one call does, whatever was called before: it answers from the number of requests and
    counts itself. -/
theorem streamCall_after (stream : Stream) (hcount : stream.blockCount < 2 ^ 64) (m : Nat)
    (call : StreamCall) :
    streamCall (stream.after m) call = .ok (answerAfter stream.blockCount m call,
      stream.after (m + if call = .newBlock then 1 else 0)) := by
  cases call with
  | newBlock =>
      by_cases hm : m < stream.blockCount
      · have hmin : min m stream.blockCount = m := Nat.min_eq_left (Nat.le_of_lt hm)
        have hmin' : min (m + 1) stream.blockCount = m + 1 := Nat.min_eq_left hm
        simp only [streamCall, newBlock, Stream.after, hmin, hmin', if_neg (Nat.ne_of_lt hm),
          cassert_pos _ hm, answerAfter, if_pos hm, if_true, ok_bind, pure_eq_ok]
      · have hle := Nat.le_of_not_lt hm
        have hmin : min m stream.blockCount = stream.blockCount := Nat.min_eq_right hle
        have hmin' : min (m + 1) stream.blockCount = stream.blockCount :=
          Nat.min_eq_right (Nat.le_succ_of_le hle)
        simp only [streamCall, newBlock, Stream.after, hmin, hmin', answerAfter, if_neg hm, if_true,
          ok_bind, pure_eq_ok]
  | blocks =>
      have hsub : u64sub stream.blockCount (min m stream.blockCount) = stream.blockCount - m := by
        rw [u64sub_of_le (Nat.min_le_right _ _) hcount]
        omega
      simp only [streamCall, blocks, Stream.after, hsub, answerAfter, pure_eq_ok]
      rfl

/-- What a run of calls does: every answer depends on the number of requests before it only. -/
theorem streamCalls_after {Caller : Type} (stream : Stream) (hcount : stream.blockCount < 2 ^ 64)
    (calls : List (Caller × StreamCall)) : ∀ m, ∃ answers,
      streamCalls calls (stream.after m) = .ok (answers, stream.after (m + newBlockCalls calls)) ∧
        ∀ i caller call, calls[i]? = some (caller, call) → answers[i]? = some (caller,
          answerAfter stream.blockCount (m + newBlockCalls (calls.take i)) call) := by
  induction calls with
  | nil =>
      intro m
      exact ⟨[], rfl, by simp⟩
  | cons head calls ih =>
      intro m
      obtain ⟨caller, call⟩ := head
      obtain ⟨answers, hrun, hanswers⟩ := ih (m + if call = .newBlock then 1 else 0)
      have hnumber : ∀ later : List (Caller × StreamCall),
          m + newBlockCalls ((caller, call) :: later)
            = (m + if call = .newBlock then 1 else 0) + newBlockCalls later := by
        intro later
        simp only [newBlockCalls, List.countP_cons, decide_eq_true_eq]
        omega
      refine ⟨(caller, answerAfter stream.blockCount m call) :: answers, ?_, ?_⟩
      · rw [streamCalls, streamCall_after stream hcount, ok_bind, hnumber]
        simp only [hrun, ok_bind, pure_eq_ok]
      · intro i caller' call' hcall
        cases i with
        | zero =>
            cases hcall
            rfl
        | succ i =>
            rw [List.take_succ_cons, hnumber]
            exact hanswers i caller' call' hcall

/-! ### The partition -/

/-- The input blocks of a stream are the content in pieces of `bs` bytes. -/
structure Partition (content : List UInt8) (bs : Nat) (stream : Stream) : Prop where
  count : stream.dblockArray.length = stream.blockCount
  block : ∀ j < stream.blockCount, ∃ blk, stream.inBlock j = .ok blk ∧ blockId blk = j ∧
    blk.data = content.drop (j * bs) ∧ blockLength blk ≤ blk.data.length
  full : ∀ j, j + 1 < stream.blockCount → ∀ blk, stream.inBlock j = .ok blk → blockLength blk = bs
  last : ∀ blk, stream.inBlock (stream.blockCount - 1) = .ok blk →
    1 ≤ blockLength blk ∧ blockLength blk ≤ bs
  contents : (stream.dblockArray.map fun db => db.obj.data.take (blockLength db.obj)).flatten = content

section Opened

variable {host : Host} {content : List UInt8} {bs : Nat}

theorem openedStream_inBlock {j : Nat} (hj : j < content.length ⌈/⌉ bs) :
    (openedStream host content bs).inBlock j = .ok (inBlockAt content bs j) := by
  have hget : (openedStream host content bs).dblockArray[j]?
      = some (.fresh host j (inBlockAt content bs j)) := by
    rw [openedStream, streamAt, List.getElem?_map, List.getElem?_range hj]
    rfl
  rw [Stream.inBlock, hget]
  rfl

theorem openedStream_partition (hsize : 0 < bs) (hfile : 0 < content.length) :
    Partition content bs (openedStream host content bs) where
  count := by
    rw [openedStream, streamAt, List.length_map, List.length_range]
  block := by
    intro j hj
    refine ⟨_, openedStream_inBlock hj, rfl, rfl, ?_⟩
    show (chunk bs content j).length ≤ (content.drop (j * bs)).length
    rw [length_chunk, List.length_drop]
    exact Nat.min_le_right _ _
  full := by
    intro j hj blk hblk
    rw [openedStream_inBlock (Nat.lt_of_succ_lt hj)] at hblk
    cases hblk
    exact length_chunk_of_succ_lt hsize hj
  last := by
    intro blk hblk
    have hpos := ceilDiv_pos hsize hfile
    have hlast : content.length ⌈/⌉ bs - 1 < content.length ⌈/⌉ bs := by omega
    rw [show (openedStream host content bs).blockCount = content.length ⌈/⌉ bs from rfl,
      openedStream_inBlock hlast] at hblk
    cases hblk
    exact length_chunk_bounds hsize hlast
  contents := by
    rw [openedStream, streamAt, List.map_map]
    refine Eq.trans (congrArg List.flatten ?_) (flatten_chunks hsize content)
    apply List.map_congr_left
    intro j _
    exact take_length_chunk bs content j

end Opened

/-- A freshly opened stream over a file of at least one byte. Under every interleaving of `new_block`
    and `blocks` calls the blocks are handed out in order, each once, and `blocks` reports how many
    are left; the blocks are the file cut into pieces. -/
theorem dachStreamNew_partition (host : Host) (file : FileContent) (bs : Nat)
    (hfile : 1 ≤ file.bytes.length) (hbs : 1 ≤ bs)
    (hcount : file.bytes.length ⌈/⌉ bs ≤ 2 ^ 32 - 1) :
    ∃ stream, dachStreamNew host { file := file, mode := "r", blockSize := bs } = .ok stream ∧
      stream.blockCount = file.bytes.length ⌈/⌉ bs ∧ blocks stream = file.bytes.length ⌈/⌉ bs ∧
      ∀ (Caller : Type) (calls : List (Caller × StreamCall)), ∃ answers s,
        streamCalls calls stream = .ok (answers, s) ∧ Partition file.bytes bs s ∧
          s.blockCount = file.bytes.length ⌈/⌉ bs ∧
          ∀ i caller call, calls[i]? = some (caller, call) → answers[i]? = some (caller,
            answerAfter (file.bytes.length ⌈/⌉ bs) (newBlockCalls (calls.take i)) call) := by
  have hopen := dachStreamNew_eq host file hfile hbs (Nat.lt_of_le_of_lt hcount (by norm_num))
  have hpartition : Partition file.bytes bs (openedStream host file.bytes bs) :=
    openedStream_partition hbs hfile
  have hcount' : (openedStream host file.bytes bs).blockCount < 2 ^ 64 :=
    Nat.lt_of_le_of_lt hcount (by norm_num)
  refine ⟨_, hopen, rfl, u64sub_of_le (Nat.zero_le _) hcount', ?_⟩
  intro Caller calls
  obtain ⟨answers, hrun, hanswers⟩ := streamCalls_after _ hcount' calls 0
  refine ⟨answers, _, hrun, ?_, rfl, ?_⟩
  · exact ⟨hpartition.count, hpartition.block, hpartition.full, hpartition.last, hpartition.contents⟩
  · intro i caller call hcall
    rw [hanswers i caller call hcall, Nat.zero_add]
    rfl

/-- Three bytes in blocks of two. -/
theorem dachStreamNew_partition_three :
    ∃ stream, dachStreamNew littleHost { file := ⟨[1, 2, 3], by decide⟩, mode := "r", blockSize := 2 }
      = .ok stream ∧ blocks stream = 2 := by
  have hceil : ([1, 2, 3] : List UInt8).length ⌈/⌉ 2 = 2 := rfl
  obtain ⟨stream, hopen, _, hblocks, _⟩ :=
    dachStreamNew_partition littleHost ⟨[1, 2, 3], by decide⟩ 2 (by decide) (by decide)
      (by rw [hceil]; decide)
  exact ⟨stream, hopen, hblocks⟩

/-! ### Releasing blocks -/

/-- Releasing the blocks writes each of them once and in order: the calls return, every flag is 1, and
    the records in the output are those of the blocks by increasing id. -/
def ReleasesInOrder (host : Host) (out : OutStream) (released : List Block) : Prop :=
  ∃ last, freeBlocks host out released = .ok last ∧
    (∀ db ∈ last.stream.dblockArray, db.writtenToStream = 1) ∧
    last.outfile.written = out.outfile.written ++
      (out.stream.dblockArray.map fun db => blockRecord host.order db.obj).flatten

/-- `free_block` never returns while the flag of block 0 is 0. -/
theorem freeBlock_aborts (host : Host) {out : OutStream} {dblk : DBlock}
    (hfirst : out.stream.dblockArray[0]? = some dblk) (hflag : dblk.writtenToStream = 0)
    (block : Block) : ∃ site, freeBlock host out block = .error site := by
  by_cases hbid : blockId block = 0
  · have hcopy : out.dblock 0 = .ok dblk := by rw [OutStream.dblock, hfirst]
    have hwrite : ∃ out', writeToStream host out 0 = .ok out' := by
      rw [writeToStream, hcopy, ok_bind, if_neg (by omega)]
      exact ⟨_, rfl⟩
    obtain ⟨out', hwrite⟩ := hwrite
    by_cases hid : dblk.id = 0
    · -- the copy still says that nothing has been written
      refine ⟨.freeBlockWritten, ?_⟩
      simp only [freeBlock, hbid, cassert_pos _ trivial, hcopy, cassert_pos _ hid, hflag, hwrite,
        ok_bind, and_self, if_true, cassert_neg _ (show ¬ (0 : Nat) = 1 by decide), error_bind]
    · refine ⟨.freeBlockId, ?_⟩
      simp only [freeBlock, hbid, cassert_pos _ trivial, hcopy, cassert_neg _ hid, ok_bind, error_bind]
  · refine ⟨.freeBlockBid, ?_⟩
    simp only [freeBlock, cassert_neg _ hbid, error_bind]

/-- No stream releases its blocks in order, whatever the order of the calls: the first one aborts. -/
theorem freeBlocks_never_inOrder (host : Host) (out : OutStream) (released : List Block)
    (hpos : 1 ≤ out.stream.blockCount)
    (harray : out.stream.dblockArray.length = out.stream.blockCount)
    (hflags : ∀ db ∈ out.stream.dblockArray, db.writtenToStream = 0)
    (horder : (released.map blockId).Perm (List.range out.stream.blockCount)) :
    ¬ ReleasesInOrder host out released := by
  rintro ⟨last, hrun, _⟩
  obtain ⟨dblk, hfirst⟩ : ∃ dblk, out.stream.dblockArray[0]? = some dblk :=
    ⟨_, List.getElem?_eq_getElem (by omega)⟩
  cases released with
  | nil =>
      have hlen := horder.length_eq
      rw [List.length_range] at hlen
      simp only [List.map_nil, List.length_nil] at hlen
      omega
  | cons block released =>
      obtain ⟨site, habort⟩ :=
        freeBlock_aborts host hfirst (hflags dblk (List.mem_of_getElem? hfirst)) block
      rw [freeBlocks, List.foldlM_cons, habort] at hrun
      cases hrun

/-- A stream of two blocks, released in order. -/
theorem freeBlocks_never_inOrder_two : ∃ stream one two,
    dachStreamNew littleHost { file := ⟨[1, 2, 3], by decide⟩, mode := "r", blockSize := 2 }
        = .ok stream ∧
      stream.inBlock 0 = .ok one ∧ stream.inBlock 1 = .ok two ∧
      ¬ ReleasesInOrder littleHost { stream := stream, outfile := CFile.reading [] } [one, two] := by
  have hceil : ([1, 2, 3] : List UInt8).length ⌈/⌉ 2 = 2 := rfl
  have hopen := dachStreamNew_eq littleHost ⟨[1, 2, 3], by decide⟩ (show 0 < 3 by decide)
    (show 0 < 2 by decide) (by rw [hceil]; decide)
  refine ⟨_, _, _, hopen, openedStream_inBlock (by rw [hceil]; decide),
    openedStream_inBlock (by rw [hceil]; decide), ?_⟩
  refine freeBlocks_never_inOrder littleHost _ _ (by decide) (by decide) (by decide) ?_
  exact List.Perm.refl _

/-- The only block of a stream, released once: the assertion reads the copy that `free_block` made
    before the block was written. -/
theorem freeBlock_stale_copy : ∃ stream blk,
    dachStreamNew littleHost { file := ⟨[65], by decide⟩, mode := "r", blockSize := 1 } = .ok stream ∧
      stream.inBlock 0 = .ok blk ∧
      freeBlocks littleHost { stream := stream, outfile := CFile.reading [] } [blk]
        = .error .freeBlockWritten :=
  ⟨_, _, rfl, rfl, rfl⟩

end Dach
