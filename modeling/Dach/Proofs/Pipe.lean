/-
Module: Dach.Proofs.Pipe
Layer: Proofs
Purpose: A pipe runs its operation once on every block of a fresh stream and writes the output blocks in
  the order of the file. With the copying operation the output is the file.
Imports: Dach.Proofs.Block, Dach.Proofs.Stream
Trusted boundary: none
Main exports: dachThreadPipe_eq, pipeTofileLoop_eq, streamTestCopy_eq, dachPipe_copies
-/
import Dach.Proofs.Block
import Dach.Proofs.Stream

namespace Dach

open Chunks

/-! ### Running an operation over a stream -/

theorem modify_map_range {α : Type} (f : Nat → α) (g : α → α) (k m : Nat) :
    ((List.range k).map f).modify m g = (List.range k).map fun j => if j = m then g (f j) else f j := by
  apply List.ext_getElem?
  intro j
  rw [List.getElem?_modify, List.getElem?_map, List.getElem?_map]
  by_cases hj : j < k
  · rw [List.getElem?_range hj]
    by_cases hm : m = j
    · subst hm
      simp
    · simp [hm, Ne.symm hm]
  · rw [List.getElem?_eq_none (by rw [List.length_range]; exact Nat.le_of_not_lt hj)]
    rfl

section ThreadPipe

variable (host : Host) (content : List UInt8) (bs : Nat) (doneIn doneOut : Nat → Block)

/-- The stream after the operation has run on the first `m` blocks. -/
def pipedStream (m : Nat) : Stream :=
  { openedStream host content bs with
    blocksReturned := m
    dblockArray := (List.range (content.length ⌈/⌉ bs)).map fun j =>
      .fresh host j (if j < m then doneIn j else inBlockAt content bs j)
    dblockArrayOut := (List.range (content.length ⌈/⌉ bs)).map fun j =>
      .fresh host j (if j < m then doneOut j else outBlockAt host content bs j) }

variable {host content bs doneIn doneOut}

theorem pipedStream_inBlock {m : Nat} (hm : m < content.length ⌈/⌉ bs) (r : Nat) :
    Stream.inBlock { pipedStream host content bs doneIn doneOut m with blocksReturned := r } m
      = .ok (inBlockAt content bs m) := by
  simp only [Stream.inBlock, pipedStream, List.getElem?_map, List.getElem?_range hm, Option.map_some,
    if_neg (Nat.lt_irrefl m)]
  rfl

theorem pipedStream_outBlock {m : Nat} (hm : m < content.length ⌈/⌉ bs) (r : Nat) :
    Stream.outBlock { pipedStream host content bs doneIn doneOut m with blocksReturned := r } m
      = .ok (outBlockAt host content bs m) := by
  simp only [Stream.outBlock, pipedStream, List.getElem?_map, List.getElem?_range hm, Option.map_some,
    if_neg (Nat.lt_irrefl m)]
  rfl

/-- Storing the two blocks back is the next stream. -/
theorem pipedStream_succ (m : Nat) :
    { pipedStream host content bs doneIn doneOut m with
      blocksReturned := m + 1
      dblockArray := (pipedStream host content bs doneIn doneOut m).dblockArray.modify m
        fun db => { db with obj := doneIn m }
      dblockArrayOut := (pipedStream host content bs doneIn doneOut m).dblockArrayOut.modify m
        fun db => { db with obj := doneOut m } }
      = pipedStream host content bs doneIn doneOut (m + 1) := by
  have hcase : ∀ (done fresh : Nat → Block) (j : Nat),
      (if j = m then
          ({ DBlock.fresh host j (if j < m then done j else fresh j) with obj := done m } : DBlock)
        else DBlock.fresh host j (if j < m then done j else fresh j))
        = DBlock.fresh host j (if j < m + 1 then done j else fresh j) := by
    intro done fresh j
    rcases Nat.lt_trichotomy j m with hlt | rfl | hgt
    · rw [if_neg (Nat.ne_of_lt hlt), if_pos hlt, if_pos (Nat.lt_succ_of_lt hlt)]
    · rw [if_pos rfl, if_pos (Nat.lt_succ_self j)]
      rfl
    · rw [if_neg (Nat.ne_of_gt hgt), if_neg (Nat.not_lt_of_gt hgt), if_neg (Nat.not_lt_of_le hgt)]
  simp only [pipedStream, modify_map_range, hcase]

/-- `dach_thread_pipe` over the blocks that are left of a stream. -/
theorem dachThreadPipe_eq {dop : Operation} (bcount : Nat) : ∀ m,
    (∀ j, m ≤ j → j < content.length ⌈/⌉ bs →
      dop host (inBlockAt content bs j) (outBlockAt host content bs j) = .ok (doneIn j, doneOut j)) →
    m + bcount = content.length ⌈/⌉ bs →
      dachThreadPipe host dop bcount (pipedStream host content bs doneIn doneOut m)
        = .ok (pipedStream host content bs doneIn doneOut (content.length ⌈/⌉ bs)) := by
  induction bcount with
  | zero =>
      intro m _ hm
      obtain rfl : m = content.length ⌈/⌉ bs := hm
      rfl
  | succ bcount ih =>
      intro m hdop hm
      have hlt : m < content.length ⌈/⌉ bs := by omega
      have hnew : newBlock (pipedStream host content bs doneIn doneOut m) = .ok (some m,
          { pipedStream host content bs doneIn doneOut m with blocksReturned := m + 1 }) := by
        have hreturned : (pipedStream host content bs doneIn doneOut m).blocksReturned
            < (pipedStream host content bs doneIn doneOut m).blockCount := hlt
        rw [newBlock, if_neg (Nat.ne_of_lt hreturned), cassert_pos _ hreturned]
        rfl
      have hwrite : newWriteBlock
          { pipedStream host content bs doneIn doneOut m with blocksReturned := m + 1 } m = .ok m := by
        simp only [newWriteBlock, pipedStream_inBlock hlt, ok_bind]
        rw [show blockId (inBlockAt content bs m) = m from rfl, pipedStream_outBlock hlt]
        rfl
      rw [dachThreadPipe, hnew]
      simp only [ok_bind, hwrite, pipedStream_inBlock hlt, pipedStream_outBlock hlt,
        hdop m (Nat.le_refl m) hlt, pipedStream_succ]
      exact ih (m + 1) (fun j hj => hdop j (Nat.le_of_succ_le hj)) (by omega)

/-- Once every block has been returned, an operation has no blocks to run on. -/
theorem pipeStartLoop_done (host : Host) (dops : List Operation) {stream : Stream}
    (hdone : stream.blocksReturned = stream.blockCount) (hcount : stream.blockCount < 2 ^ 64) :
    pipeStartLoop host dops stream = .ok stream := by
  induction dops with
  | nil => rfl
  | cons dop dops ih =>
      have hnone : u32 (blocks stream) = 0 := by
        rw [blocks, hdone, u64sub_of_le (Nat.le_refl _) hcount, Nat.sub_self]
        rfl
      rw [pipeStartLoop, hnone]
      exact ih

/-- `dach_pipe_start` runs the first operation on the blocks that are left, and no other one. -/
theorem dachPipeStart_eq {dop : Operation} (doneIn doneOut : Nat → Block) (dops : List Operation) {m : Nat}
    (hdop : ∀ j, m ≤ j → j < content.length ⌈/⌉ bs →
      dop host (inBlockAt content bs j) (outBlockAt host content bs j) = .ok (doneIn j, doneOut j))
    (hm : m ≤ content.length ⌈/⌉ bs) (hcount : content.length ⌈/⌉ bs < 2 ^ 32) :
    dachPipeStart host
        { source := pipedStream host content bs doneIn doneOut m, operArray := dop :: dops }
      = .ok { source := pipedStream host content bs doneIn doneOut (content.length ⌈/⌉ bs)
              operArray := dop :: dops } := by
  have hblocks : u32 (blocks (pipedStream host content bs doneIn doneOut m))
      = content.length ⌈/⌉ bs - m := by
    rw [show blocks (pipedStream host content bs doneIn doneOut m) = content.length ⌈/⌉ bs - m from
      u64sub_of_le hm (Nat.lt_trans hcount (by norm_num)), u32_of_lt (by omega)]
  have hrest : pipeStartLoop host dops
      (pipedStream host content bs doneIn doneOut (content.length ⌈/⌉ bs))
        = .ok (pipedStream host content bs doneIn doneOut (content.length ⌈/⌉ bs)) :=
    pipeStartLoop_done host dops rfl (Nat.lt_trans hcount (by norm_num))
  have hfirst := dachThreadPipe_eq (content.length ⌈/⌉ bs - m) m hdop (Nat.add_sub_of_le hm)
  simp only [dachPipeStart, pipeStartLoop, hblocks, hfirst, ok_bind, hrest, pure_eq_ok]

/-- A fresh stream has run on no block. -/
theorem openedStream_eq_piped :
    openedStream host content bs = pipedStream host content bs doneIn doneOut 0 := by
  simp [pipedStream, openedStream, streamAt]

end ThreadPipe

/-! ### Writing the output blocks -/

/-- The loop of `dach_pipe_tofile` writes every block up to its length, in order. -/
theorem pipeTofileLoop_eq (dbs : List DBlock) : ∀ (fd : CFile),
    (∀ db ∈ dbs, db.obj.length ≤ db.obj.data.length) →
      pipeTofileLoop dbs.length dbs fd = .ok
        (dbs.map fun db => { db with obj := { db.obj with pos := 0 } },
          fd.fwrite (dbs.map fun db => db.obj.data.take db.obj.length).flatten) := by
  induction dbs with
  | nil =>
      intro fd _
      simp [pipeTofileLoop, CFile.fwrite]
  | cons db dbs ih =>
      intro fd hdata
      have hhead : db.obj.length ≤ db.obj.data.length := hdata db List.mem_cons_self
      have htail := ih (fd.fwrite (db.obj.data.take db.obj.length))
        fun db' hdb' => hdata db' (List.mem_cons_of_mem db hdb')
      simp only [List.length_cons, pipeTofileLoop, blockSeek, blockTofile, blockLength,
        cassert_pos _ (Nat.zero_le _), cassert_pos _ trivial, if_pos hhead, htail, ok_bind,
        pure_eq_ok]
      simp [CFile.fwrite]

/-- `dach_pipe_tofile` after an operation has run on every block. -/
theorem dachPipeTofile_eq (host : Host) (content : List UInt8) (bs : Nat)
    (doneIn doneOut : Nat → Block) (dops : List Operation) (fd : CFile)
    (hdata : ∀ j < content.length ⌈/⌉ bs, (doneOut j).length ≤ (doneOut j).data.length) :
    ∃ finished, dachPipeTofile
        { source := pipedStream host content bs doneIn doneOut (content.length ⌈/⌉ bs)
          operArray := dops } fd
      = .ok (finished, fd.fwrite ((List.range (content.length ⌈/⌉ bs)).map
          fun j => (doneOut j).data.take (doneOut j).length).flatten) := by
  have hblock : ∀ db ∈ (pipedStream host content bs doneIn doneOut
      (content.length ⌈/⌉ bs)).dblockArrayOut, db.obj.length ≤ db.obj.data.length := by
    intro db hdb
    obtain ⟨j, hj, rfl⟩ := List.mem_map.mp hdb
    rw [if_pos (List.mem_range.mp hj)]
    exact hdata j (List.mem_range.mp hj)
  have hout : ((pipedStream host content bs doneIn doneOut (content.length ⌈/⌉ bs)).dblockArrayOut.map
      fun db => db.obj.data.take db.obj.length)
        = (List.range (content.length ⌈/⌉ bs)).map
            fun j => (doneOut j).data.take (doneOut j).length := by
    rw [pipedStream, List.map_map]
    apply List.map_congr_left
    intro j hj
    show (DBlock.fresh _ _ (if j < _ then _ else _)).obj.data.take
      (DBlock.fresh _ _ (if j < _ then _ else _)).obj.length = _
    rw [if_pos (List.mem_range.mp hj)]
    rfl
  have hlength : (pipedStream host content bs doneIn doneOut
      (content.length ⌈/⌉ bs)).dblockArrayOut.length = content.length ⌈/⌉ bs := by
    simp [pipedStream]
  have hfinish := pipeTofileLoop_eq _ fd hblock
  rw [hlength, hout] at hfinish
  have hcount : (pipedStream host content bs doneIn doneOut (content.length ⌈/⌉ bs)).blockCount
      = content.length ⌈/⌉ bs := rfl
  simp only [dachPipeTofile, hcount, hfinish, ok_bind]
  exact ⟨_, rfl⟩

/-! ### The copying operation -/

section Copy

variable (host : Host) (content : List UInt8) (bs j : Nat)

/-- The input block after `t` bytes have been read. -/
def copyIn (t : Nat) : Block := { inBlockAt content bs j with pos := t }

/-- The output block after the first `t` bytes have been written. -/
def copyOut (t : Nat) : Block :=
  { outBlockAt host content bs j with
    pos := t
    bytesWritten := t
    data := overwrite (outBlockAt host content bs j).data 0 ((chunk bs content j).take t) }

/-- What one pass of the copying loop adds to the number of copied bytes. -/
def copyStep (bufSize len t : Nat) : Option Nat :=
  if t < len then some (t + min bufSize (len - t)) else none

variable {host content bs j}

theorem copyStep_eq_some {bufSize len t t' : Nat} (h : copyStep bufSize len t = some t') :
    t < len ∧ t' = t + min bufSize (len - t) := by
  unfold copyStep at h
  split at h
  · cases h
    exact ⟨‹_›, rfl⟩
  · cases h

/-- Reading `n` bytes and writing them moves both blocks on by `n`. -/
theorem copyPass_more {bufSize t : Nat} (hbuf : 0 < bufSize)
    (hwrap : bufSize + (chunk bs content j).length < 2 ^ 64) (ht : t < (chunk bs content j).length) :
    copyPass host bufSize (copyIn content bs j t, copyOut host content bs j t)
      = .ok (some (copyIn content bs j (t + min bufSize ((chunk bs content j).length - t)),
          copyOut host content bs j (t + min bufSize ((chunk bs content j).length - t)))) := by
  have hlen := length_chunk bs content j
  have hdata : (chunk bs content j).length ≤ (content.drop (j * bs)).length := by
    rw [hlen, List.length_drop]
    exact Nat.min_le_right _ _
  obtain ⟨n, hn, hread⟩ := blockRead_eq (copyIn content bs j t) bufSize ht hdata
  have hn' : n = min bufSize ((chunk bs content j).length - t) := hn
  -- the bytes read are bytes `t` to `t + n` of the chunk
  have hbytes : ((content.drop (j * bs)).drop t).take n = ((chunk bs content j).drop t).take n := by
    rw [chunk, List.drop_take, List.take_take]
    congr 1
    omega
  have hcount : (((chunk bs content j).drop t).take n).length = n := by
    rw [List.length_take, List.length_drop]
    omega
  have htaken : ((chunk bs content j).take t).length = t := by
    rw [List.length_take]
    omega
  have hmem : (outBlockAt host content bs j).data.length = (chunk bs content j).length := by
    rw [outBlockAt, malloc, List.length_map, List.length_range]
  have hwrite := blockWrite_eq host (copyOut host content bs j t)
    (((chunk bs content j).drop t).take n) (by omega) rfl
    (by
      show (overwrite _ 0 _).length = (chunk bs content j).length
      rw [length_overwrite (Nat.zero_le _), htaken, hmem]
      omega)
    (show t ≤ (chunk bs content j).length by omega) (show t + _ < 2 ^ 64 by omega)
  have hwrote : (copyOut host content bs j t).wrote (((chunk bs content j).drop t).take n)
      = copyOut host content bs j (t + n) := by
    have hover := overwrite_overwrite (Nat.zero_le (outBlockAt host content bs j).data.length)
      ((chunk bs content j).take t) (((chunk bs content j).drop t).take n)
    rw [htaken, Nat.zero_add, ← List.take_add] at hover
    have hmax : max (chunk bs content j).length (t + n) = (chunk bs content j).length := by omega
    simp only [Block.wrote, copyOut, hcount, hover]
    simp only [outBlockAt, hmax]
  have hread' : blockRead (copyIn content bs j t) bufSize
      = .ok (n, ((chunk bs content j).drop t).take n, copyIn content bs j (t + n)) := by
    rw [← hbytes]
    exact hread
  rw [← hn']
  simp only [copyPass, dachOperationRead, hread', ok_bind, dachOperationWrite, pure_eq_ok]
  rw [if_pos (show (n : Int) ≥ 0 by omega), cassert_pos _ (by omega), ok_bind, hwrite, hwrote]
  rfl

/-- At the end of the input block the read returns -1 and the loop ends. -/
theorem copyPass_end {bufSize : Nat} (hwrap : bufSize + (chunk bs content j).length < 2 ^ 64) :
    copyPass host bufSize (copyIn content bs j (chunk bs content j).length,
      copyOut host content bs j (chunk bs content j).length) = .ok none := by
  have hread : blockRead (copyIn content bs j (chunk bs content j).length) bufSize
      = .ok (-1, [], copyIn content bs j (chunk bs content j).length) :=
    blockRead_atEnd rfl hwrap
  simp [copyPass, dachOperationRead, hread]

/-- The copying operation on the two blocks of a chunk: the output block holds the chunk. -/
theorem streamTestCopy_eq {bufSize : Nat} (hbuf : 0 < bufSize)
    (hwrap : bufSize + (chunk bs content j).length < 2 ^ 64) :
    streamTestCopy bufSize host (inBlockAt content bs j) (outBlockAt host content bs j)
      = .ok (copyIn content bs j (chunk bs content j).length,
          copyOut host content bs j (chunk bs content j).length) := by
  have hgrows : ∀ t t', copyStep bufSize (chunk bs content j).length t = some t' →
      t ≤ (chunk bs content j).length → t' ≤ (chunk bs content j).length ∧ t < t' := by
    intro t t' h _
    obtain ⟨hlt, rfl⟩ := copyStep_eq_some h
    omega
  obtain ⟨k, last, run⟩ := Loop.HaltsIn.exists_of_measure (m := id) (chunk bs content j).length hgrows
    (fun _ h => h) 0 (Nat.zero_le _)
  have hlast : last = (chunk bs content j).length := by
    have hle := run.invariant (fun t t' h ht => (hgrows t t' h ht).1) (Nat.zero_le _)
    have hhalted := run.halted
    unfold copyStep at hhalted
    split at hhalted
    · cases hhalted
    · omega
  subst hlast
  have hfuel : k < (chunk bs content j).length + 1 :=
    Nat.lt_succ_of_le (run.le_of_measure (m := id) hgrows (Nat.zero_le _))
  obtain ⟨t, hloop, rfl⟩ := Loop.forever_of_haltsIn_total
    (R := fun s t => s = (copyIn content bs j t, copyOut host content bs j t))
    Abort.loopForever (copyPass host bufSize)
    (by
      rintro s rfl
      exact copyPass_end hwrap)
    (by
      rintro s t t' _ rfl h _
      obtain ⟨hlt, rfl⟩ := copyStep_eq_some h
      exact ⟨_, copyPass_more hbuf hwrap hlt, rfl⟩)
    run hfuel rfl
  have hstart : (inBlockAt content bs j, outBlockAt host content bs j)
      = (copyIn content bs j 0, copyOut host content bs j 0) := by
    simp [copyIn, copyOut, inBlockAt, outBlockAt, overwrite]
  rw [streamTestCopy, hstart]
  show (Loop.forever _ _ ((chunk bs content j).length + 1) _ >>= _) = _
  rw [hloop]
  rfl

/-- The whole chunk has replaced the fresh memory. -/
theorem copyOut_data :
    (copyOut host content bs j (chunk bs content j).length).data = chunk bs content j := by
  have hmem : (outBlockAt host content bs j).data.length = (chunk bs content j).length := by
    rw [outBlockAt, malloc, List.length_map, List.length_range]
  show overwrite _ 0 _ = _
  rw [overwrite, List.take_length, List.drop_of_length_le (by omega), List.append_nil]
  rfl

/-- What is written of the copied blocks is the file. -/
theorem flatten_copyOut (hbs : 1 ≤ bs) :
    ((List.range (content.length ⌈/⌉ bs)).map fun j =>
      (copyOut host content bs j (chunk bs content j).length).data.take
        (copyOut host content bs j (chunk bs content j).length).length).flatten = content := by
  refine Eq.trans (congrArg List.flatten (List.map_congr_left fun j _ => ?_)) (flatten_chunks hbs content)
  rw [copyOut_data]
  exact List.take_length

end Copy

/-- A pipe that copies every block of a file writes the file, and nothing aborts on the way. -/
theorem dachPipe_copies (host : Host) (file : FileContent) (bs bufSize : Nat) (fd : CFile)
    (hfile : 1 ≤ file.bytes.length) (hbs : 1 ≤ bs)
    (hcount : file.bytes.length ⌈/⌉ bs ≤ 2 ^ 32 - 1) (hbuf : 1 ≤ bufSize)
    (hwrap : bufSize + bs < 2 ^ 64) :
    ∃ stream started finished out,
      dachStreamNew host { file := file, mode := "r", blockSize := bs } = .ok stream ∧
        dachPipeStart host (dachPipeNew stream (streamTestCopy bufSize)) = .ok started ∧
        dachPipeTofile started fd = .ok (finished, out) ∧ out.written = fd.written ++ file.bytes := by
  have hcount' : file.bytes.length ⌈/⌉ bs < 2 ^ 32 := Nat.lt_of_le_of_lt hcount (by norm_num)
  have hopen := dachStreamNew_eq host file hfile hbs hcount'
  have hcopy : ∀ j < file.bytes.length ⌈/⌉ bs, streamTestCopy bufSize host
      (inBlockAt file.bytes bs j) (outBlockAt host file.bytes bs j) = .ok
        (copyIn file.bytes bs j (chunk bs file.bytes j).length,
          copyOut host file.bytes bs j (chunk bs file.bytes j).length) :=
    fun j _ => streamTestCopy_eq hbuf (by
      have hlen := length_chunk bs file.bytes j
      omega)
  have hstart := dachPipeStart_eq _ _ [] (fun j _ hj => hcopy j hj) (Nat.zero_le _) hcount'
  rw [← openedStream_eq_piped] at hstart
  -- every output block holds its chunk
  obtain ⟨finished, htofile⟩ := dachPipeTofile_eq host file.bytes bs
    (fun j => copyIn file.bytes bs j (chunk bs file.bytes j).length)
    (fun j => copyOut host file.bytes bs j (chunk bs file.bytes j).length)
    [streamTestCopy bufSize] fd (fun j _ => by
      rw [copyOut_data]
      exact Nat.le_refl _)
  rw [flatten_copyOut hbs] at htofile
  exact ⟨_, _, finished, _, hopen, hstart, htofile, rfl⟩

/-- Three bytes, in blocks of two and reads of one. -/
theorem dachPipe_copies_three : ∃ stream started finished out,
    dachStreamNew littleHost { file := ⟨[1, 2, 3], by decide⟩, mode := "r", blockSize := 2 }
        = .ok stream ∧
      dachPipeStart littleHost (dachPipeNew stream (streamTestCopy 1)) = .ok started ∧
      dachPipeTofile started (CFile.reading []) = .ok (finished, out) ∧ out.written = [1, 2, 3] :=
  dachPipe_copies littleHost ⟨[1, 2, 3], by decide⟩ 2 1 (CFile.reading []) (by decide) (by decide)
    (show ([1, 2, 3] : List UInt8).length ⌈/⌉ 2 ≤ 2 ^ 32 - 1 from (by decide : 2 ≤ 2 ^ 32 - 1))
    (by decide) (by decide)

end Dach
