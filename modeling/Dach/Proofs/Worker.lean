/-
Module: Dach.Proofs.Worker
Layer: Proofs
Purpose: The workers of the streaming commands never get past their first block. A worker of the pool is not
  the thread that made the block; and in the thread that did, the encoder writes its words to the block it
  reads from, which is refused, and the decoder starts on a code value it has not read and finds the
  reserved symbol.
Imports: Dach.Core.Worker, Dach.Proofs.Decoder, Dach.Proofs.BitPacking, Dach.Proofs.Simulation,
  Dach.Proofs.Stream
Trusted boundary: none
Main exports: bitoutWord_refused, dachStopEncoder_refused, encodeChars_refused, dachDecode_fresh,
  decodeChars_refused, encodeWorkers_stop, decodeWorker_stops
-/
import Dach.Core.Worker
import Dach.Proofs.Decoder
import Dach.Proofs.BitPacking
import Dach.Proofs.Simulation
import Dach.Proofs.Stream

namespace Dach

open Outcome

variable {host : Host} {blk : Block} {arc : Arc} {inp out : CFile}

/-! ### A coder on a block that may only be read -/

/-- The block a worker reads from is not one to write to. -/
theorem bitoutWord_refused (hio : arc.io = .block blk) (hmode : blk.mode ≠ .writable) :
    bitoutWord host arc = .error .blockWriteMode := by
  have hcount : 0 < (u32Bytes host.order arc.ioBuffer).length := by
    rw [length_u32Bytes]
    exact Nat.succ_pos 3
  simp only [bitoutWord, hio, blockWrite, cassert_pos _ hcount, ok_bind, cassert_neg _ hmode, error_bind]

/-- Where a coder on the block stops because of it. -/
def Refused (site : Abort) : Prop := site = .blockWriteMode

/-- On the one side the block, on the other the files of a coder that has not written a word. -/
def Input (blk : Block) (inp out : CFile) (io io' : ArcIo) : Prop :=
  io = .block blk ∧ io' = .files inp out

theorem input_flushes (host : Host) (blk : Block) (inp out : CFile) (hmode : blk.mode ≠ .writable) :
    FlushesAlike host host Refused (Input blk inp out) := by
  intro arc io io' hio
  have hrefused : bitoutWord host { arc with io := io } = .error .blockWriteMode :=
    bitoutWord_refused hio.1 hmode
  have hstop : Refused .blockWriteMode := rfl
  rw [hrefused]
  exact Follows.stopped hstop _

/-- A coder on the block, and the same one with files. -/
theorem input_alike (hio : arc.io = .block blk) (inp out : CFile) :
    ArcAlike (Input blk inp out) arc { arc with io := .files inp out } :=
  .mk arc ⟨hio, rfl⟩

theorem ArcAlike.onInput {arc' : Arc} (h : ArcAlike (Input blk inp out) arc arc') : arc.io = .block blk := by
  cases h with
  | mk a hinput => exact hinput.1

theorem dachWriteStream_input (hio : arc.io = .block blk) (hmode : blk.mode ≠ .writable) {bit : Nat}
    {next : Arc} (h : dachWriteStream host arc bit = .ok next) : next.io = .block blk := by
  have hempty := CFile.reading []
  obtain ⟨next', _, halike⟩ := (dachWriteStream_alike (input_flushes host blk hempty hempty hmode)
    (input_alike hio hempty hempty) bit).of_ok h
  exact halike.onInput

/-- The stop sequence writes at least one word, so it never returns. -/
theorem dachStopEncoder_refused (hio : arc.io = .block blk) (hmode : blk.mode ≠ .writable) (last : Arc) :
    dachStopEncoder host arc ≠ .ok last := by
  intro hrun
  obtain ⟨one, two, hone, htwo, hbits⟩ := dachStopEncoder_completes hrun
  have hstart : { arc with underflow := u32 (arc.underflow + 1) }.io = .block blk := hio
  have hone' : one.io = .block blk := dachWriteStream_input hstart hmode hone
  have htwo' : two.io = .block blk := dachWriteStream_input hone' hmode htwo
  rw [dachStopBits, bind_eq_ok] at hbits
  obtain ⟨⟨k, padded⟩, hloop, hlast⟩ := hbits
  have hpadded : padded.io = .block blk := by
    have hkeeps : Yields (fun _ => True) (Loop.forever .loopForever (padPass host 0) loopFuel two)
        fun r => r.2.io = .block blk := by
      refine Yields.forever_invariant (I := fun a : Arc => a.io = .block blk) trivial ?_ htwo'
      intro s hs
      unfold padPass
      refine Yields.ite (fun _ => ?_) fun _ => ?halt
      case halt =>
        refine Yields.ok ?_
        intro t ht
        cases ht
      rcases hwrite : dachWriteStream host s 0 with e | next
      · exact trivial
      · refine Yields.ok ?_
        rintro t ⟨⟩
        exact dachWriteStream_input hs hmode hwrite
    exact hkeeps.of_ok hloop
  -- the padding has filled the buffer, so the last bit writes it
  have hfull : padded.ioBufferFull = 0 := by
    have hbreak := Loop.forever_ok hloop
    by_contra hne
    rw [padPass, if_pos hne] at hbreak
    rcases hwrite : dachWriteStream host padded 0 with e | next
    · rw [hwrite] at hbreak
      cases hbreak
    · rw [hwrite] at hbreak
      cases hbreak
  have hflush : { padded with ioBufferFull := padded.ioBufferSize }.io = .block blk := hpadded
  have hrefused : dachBitout host padded 0 = .error .blockWriteMode := by
    rw [dachBitout, if_pos hfull, bitoutWord_refused hflush hmode]
    rfl
  have hwrite : dachWriteStream host padded 0 = .ok last := hlast
  unfold dachWriteStream at hwrite
  rw [hrefused] at hwrite
  cases hwrite

/-- What stops a stop sequence that gets through with files is the block. -/
theorem dachStopEncoder_blockWriteMode (hio : arc.io = .block blk) (hmode : blk.mode ≠ .writable) {last : Arc}
    (hfiles : dachStopEncoder host { arc with io := .files inp out } = .ok last) :
    dachStopEncoder host arc = .error .blockWriteMode := by
  have hboth := dachStopEncoder_alike (input_flushes host blk inp out hmode) (input_alike hio inp out)
  rcases hrun : dachStopEncoder host arc with site | next
  · rcases hboth.of_error hrun with hrefused | hother
    · exact congrArg Except.error hrefused
    · rw [hfiles] at hother
      cases hother
  · exact absurd hrun (dachStopEncoder_refused hio hmode next)

/-! ### The bytes of the block -/

theorem arc_getc {pos : Nat} (hpos : pos < blk.data.length) (hio : arc.io = .block { blk with pos := pos }) :
    arc.getc = .ok (blk.data[pos], { arc with io := .block { blk with pos := pos + 1 } }) := by
  simp only [Arc.getc, Arc.onBlock, hio, ok_bind, blockGetc, List.getElem?_eq_getElem hpos, pure_eq_ok]

/-- The loop of the encoder, against that of `encode` over the same bytes: the two stay alike for as long
    as no word is due. -/
theorem encodeChars_alike (hmode : blk.mode ≠ .writable) (left : Nat) : ∀ {pos : Nat} {arc arc' : Arc},
    pos + left ≤ blk.data.length → ArcAlike (Input { blk with pos := pos } inp out) arc arc' →
    Follows Refused (fun a r => ArcAlike (Input { blk with pos := pos + left } inp out) a r.2)
      (encodeChars host left arc) (encodeLoop host ((blk.data.drop pos).take left) arc') := by
  induction left with
  | zero =>
      intro pos arc arc' _ h
      exact Follows.ok h
  | succ left ih =>
      intro pos arc arc' hroom h
      have hpos : pos < blk.data.length := by omega
      have hnext : ArcAlike (Input { blk with pos := pos + 1 } inp out)
          { arc with io := .block { blk with pos := pos + 1 } } arc' := by
        cases h with
        | mk a hinput => exact .mk a ⟨rfl, hinput.2⟩
      rw [List.drop_eq_getElem_cons hpos, List.take_succ_cons, encodeChars, arc_getc hpos h.onInput,
        ok_bind, encodeLoop]
      have hflushes := input_flushes host { blk with pos := pos + 1 } inp out hmode
      refine Follows.bind (dachEncode_alike hflushes hnext _) ?_
      rintro ⟨shifts, a⟩ ⟨shifts', b⟩ ⟨_, hab⟩
      have hroom' : pos + 1 + left ≤ blk.data.length := by omega
      have hrest := ih hroom' hab
      rw [Nat.add_right_comm] at hrest
      show Follows Refused _ (encodeChars host left a) _
      rw [← bind_pure (encodeChars host left a)]
      exact Follows.bind hrest fun a r har => Follows.ok har

/-- A coder over any bytes of the block stops in its loop or when it is stopped; and where `encode` gets
    through, what stops it is the block. -/
theorem encodeChars_refused (host : Host) {mod : Ppm0} (fresh : FreshTables mod)
    (hmode : blk.mode ≠ .writable) (hstart : blk.pos = 0) {left : Nat} (hleft : left ≤ blk.data.length)
    (blocksize : Nat) :
    ∃ site, (encodeChars host left (arcFresh mod (.block blk) blocksize) >>= dachStopEncoder host)
        = .error site ∧
      (left = blocksize → left ≤ 2 ^ 29 - 256 → site = .blockWriteMode) := by
  -- the same coder with files, over the same bytes
  have hio : (arcFresh mod (.block blk) blocksize).io = .block { blk with pos := 0 } := by
    rw [← hstart]
    rfl
  have hroom : 0 + left ≤ blk.data.length := by omega
  have hloop : Follows Refused _ (encodeChars host left (arcFresh mod (.block blk) blocksize)) _ :=
    encodeChars_alike hmode left hroom (input_alike hio (CFile.reading []) (CFile.reading []))
  have hflushes := input_flushes host { blk with pos := 0 + left } (CFile.reading []) (CFile.reading []) hmode
  have hboth := hloop.bind fun a r har => dachStopEncoder_alike hflushes har
  rcases hrun : encodeChars host left (arcFresh mod (.block blk) blocksize) >>= dachStopEncoder host with
    site | last
  · refine ⟨site, rfl, ?_⟩
    rintro rfl hsize
    have hlength : ((blk.data.drop 0).take left).length = left := by
      rw [List.drop_zero, List.length_take_of_le hleft]
    obtain ⟨_, _, _, coded, last, hencode, _, _, hstop, _⟩ :=
      encodeAll_spec (fileSink host (CFile.reading []) []) fresh ((blk.data.drop 0).take left)
        (by rw [hlength]; exact hsize) trivial
    rw [hlength] at hencode
    rcases hboth.of_error hrun with hrefused | hother
    · exact hrefused
    · exfalso
      have hfiles : encodeLoop host ((blk.data.drop 0).take left)
          { arcFresh mod (.block blk) left with io := .files (CFile.reading []) (CFile.reading []) }
          = .ok (_, coded) := hencode
      rw [hfiles, ok_bind, hstop] at hother
      cases hother
  · exfalso
    rw [bind_eq_ok] at hrun
    obtain ⟨a, hchars, hstop⟩ := hrun
    obtain ⟨r, _, halike⟩ := hloop.of_ok hchars
    exact dachStopEncoder_refused halike.onInput hmode last hstop

/-! ### The decoder on a block it has not started on -/

/-- The code value 0 stands for the symbol at the end of the table. -/
theorem dachDecode_fresh (host : Host) {mod : Ppm0} (fresh : FreshTables mod) (io : ArcIo)
    {blocksize : Nat} (hpos : 1 ≤ blocksize) :
    dachDecode host (arcFresh mod io blocksize) =
      if blocksize = 1 then
        .ok (0, { arcFresh mod io blocksize with range := 2 ^ 32, totalSyms := 1, stop := true })
      else
        .error .decodeReserved := by
  have hrange : dachCalcRange (arcFresh mod io blocksize) = .ok (2 ^ 32) := by
    rw [dachCalcRange_eq (arcFresh_registers mod io blocksize) (IntervalCoder.Frame.start_normal (by decide)).valid]
    norm_num [IntervalCoder.Frame.range, IntervalCoder.Frame.start]
  have hcount : decodeCount { arcFresh mod io blocksize with range := 2 ^ 32 } = 0 := by
    simp [decodeCount, arcFresh, u64sub, u64, fresh.scale_eq]
  obtain ⟨sym, hfind, hsym, hsym', hle, _⟩ := dachPpm0FindSym_spec fresh.wf
    (show 0 < mod.scale by rw [fresh.scale_eq]; decide)
  have hlast : sym = 257 := by
    rw [fresh.cum _ (by omega) (by omega)] at hle
    omega
  subst hlast
  have hgt : (arcFresh mod io blocksize).high > (arcFresh mod io blocksize).low := by
    show (0xFFFFFFFF : Nat) > 0
    decide
  have htotal : u64 ((arcFresh mod io blocksize).totalSyms + 1) = 1 := rfl
  have hchr : dachSymToChr (arcFresh mod io blocksize).mod 257 = .ok 256 := by
    rw [dachSymToChr_eq (by decide)]
    exact congrArg Except.ok (fresh.chr 257 (by decide) (by decide))
  have hfind' : dachPpm0FindSym (arcFresh mod io blocksize).mod 0 = .ok 257 := hfind
  have hroom : 1 ≤ (arcFresh mod io blocksize).blocksize := hpos
  simp only [dachDecode, cassert_pos _ hgt, hrange, hcount, hfind', htotal, cassert_pos _ hroom, ok_bind]
  by_cases hone : blocksize = 1
  · have heq : 1 = (arcFresh mod io blocksize).blocksize := hone.symm
    rw [if_pos heq, if_pos hone, hchr]
    rfl
  · have hne : 1 ≠ (arcFresh mod io blocksize).blocksize := Ne.symm hone
    rw [if_neg hne, if_neg hone, cassert_neg _ (by decide), error_bind]

/-- A decoder that has read the one byte of its block stops when it is stopped. -/
theorem dachStopEncoder_decoded (host : Host) {mod : Ppm0} (fresh : FreshTables mod)
    (hmode : blk.mode ≠ .writable) :
    dachStopEncoder host { arcFresh mod (.block blk) 1 with range := 2 ^ 32, totalSyms := 1, stop := true }
      = .error .blockWriteMode := by
  have hplace := (arcFresh_ready (fileSink host (CFile.reading []) []) fresh 1).place
  have hplace' : EncoderAt (fileSink host (CFile.reading []) []) [] (IntervalCoder.Frame.start (2 ^ 30))
      { arcFresh mod ((fileSink host (CFile.reading []) []).io []) 1 with
        range := 2 ^ 32, totalSyms := 1, stop := true } :=
    ⟨⟨hplace.registers.low, hplace.registers.high⟩, hplace.size, hplace.emitted, hplace.behind, hplace.exact⟩
  obtain ⟨last, hstop, _⟩ :=
    dachStopEncoder_spec hplace' (IntervalCoder.Frame.start_normal (by norm_num)) rfl trivial
  exact dachStopEncoder_blockWriteMode rfl hmode hstop

/-- The decoding worker on a block of at least one byte. The second byte would need a symbol, and the first
    one has none unless it is the last. -/
theorem decodeChars_refused (host : Host) {mod : Ppm0} (fresh : FreshTables mod)
    (hmode : blk.mode ≠ .writable) (hstart : blk.pos = 0) {length : Nat} (hpos : 1 ≤ length)
    (hlength : length ≤ blk.data.length) :
    ∃ site, (decodeChars host (u32 length) (arcFresh mod (.block blk) length) >>= dachStopEncoder host)
        = .error site ∧
      (length < 2 ^ 32 → site = if length = 1 then .blockWriteMode else .decodeReserved) := by
  have hio : (arcFresh mod (.block blk) length).io = .block { blk with pos := 0 } := by
    rw [← hstart]
    rfl
  rcases hleft : u32 length with _ | left
  · -- a length that `bsize` cuts to 0
    rcases hstop : dachStopEncoder host (arcFresh mod (.block blk) length) with site | last
    · refine ⟨site, hstop, fun hlt => ?_⟩
      rw [u32_of_lt hlt] at hleft
      omega
    · exact absurd hstop (dachStopEncoder_refused hio hmode last)
  · have hroom : 0 < blk.data.length := Nat.lt_of_lt_of_le hpos hlength
    have hget : (arcFresh mod (.block blk) length).getc
        = .ok (blk.data[0], arcFresh mod (.block { blk with pos := 1 }) length) := arc_getc hroom hio
    rw [decodeChars, hget, ok_bind]
    show ∃ site, ((dachDecode host (arcFresh mod (.block { blk with pos := 1 }) length) >>=
      fun r => decodeChars host left r.2) >>= dachStopEncoder host) = .error site ∧ _
    rw [dachDecode_fresh host fresh _ hpos]
    by_cases hone : length = 1
    · have hlast : left = 0 := by
        rw [hone, u32_of_lt (by norm_num)] at hleft
        omega
      rw [if_pos hone, ok_bind, hlast, decodeChars, ok_bind, hone]
      have hmode' : { blk with pos := 1 }.mode ≠ .writable := hmode
      exact ⟨.blockWriteMode, dachStopEncoder_decoded host fresh hmode', fun _ => (if_pos rfl).symm⟩
    · rw [if_neg hone, error_bind, error_bind]
      exact ⟨.decodeReserved, rfl, fun _ => (if_neg hone).symm⟩

/-! ### A worker on its first block -/

section Worker

variable {stream : Stream} {self maker : Nat} {code : Nat → Arc → Except Abort Arc} {stop : WorkerStop}

namespace WorkerStop

theorem ok_bind {α β : Type} (a : α) (f : α → Except WorkerStop β) : (Except.ok a >>= f) = f a := rfl

theorem error_bind {α β : Type} (stop : WorkerStop) (f : α → Except WorkerStop β) :
    ((Except.error stop : Except WorkerStop α) >>= f) = .error stop := rfl

theorem mapError_ok {α : Type} (a : α) : (Except.ok a : Except Abort α).mapError coder = .ok a := rfl

end WorkerStop

/-- What a worker does with a block before it looks at the stream again. -/
def codeAndStop (host : Host) (self maker : Nat) (code : Nat → Arc → Except Abort Arc) (blk : Block) :
    Except WorkerStop Arc := do
  let arc ← codeBlock self maker code blk
  (dachStopEncoder host arc).mapError .coder

/-- A worker of another thread stops at its first operation on the block. In the thread that made the block
    it does what its coder does over a fresh model. -/
theorem codeAndStop_stops {site : Abort → Prop} (self maker : Nat) (hcode : ∀ mod, FreshTables mod →
      ∃ e, (code (u32 (blockLength blk)) (arcFresh mod (.block blk) (blockLength blk)) >>=
        dachStopEncoder host) = .error e ∧ site e) :
    ∃ stop, codeAndStop host self maker code blk = .error stop ∧ (maker ≠ self → stop = .threadId) ∧
      (maker = self → ∃ e, stop = .coder e ∧ site e) := by
  obtain ⟨mod, hnew, fresh⟩ := dachPpm0New_fresh
  by_cases hother : maker ≠ self
  · refine ⟨.threadId, ?_, fun _ => rfl, fun hsame => absurd hsame hother⟩
    rw [codeAndStop, codeBlock, hnew, WorkerStop.mapError_ok, WorkerStop.ok_bind, if_pos hother]
    rfl
  · obtain ⟨e, hrun, hsite⟩ := hcode mod fresh
    refine ⟨.coder e, ?_, fun hne => absurd hne hother, fun _ => ⟨e, rfl, hsite⟩⟩
    rw [codeAndStop, codeBlock, hnew, WorkerStop.mapError_ok, WorkerStop.ok_bind, if_neg hother,
      dachNewArcoderOnBlock, arcInit_eq fresh, WorkerStop.mapError_ok, WorkerStop.ok_bind]
    rcases hloop : code (u32 (blockLength blk)) (arcFresh mod (.block blk) (blockLength blk)) with e' | arc
    · rw [hloop, error_bind] at hrun
      cases hrun
      rfl
    · rw [hloop, ok_bind] at hrun
      show (dachStopEncoder host arc).mapError WorkerStop.coder = _
      rw [hrun]
      rfl

theorem blocks_after (hcount : stream.blockCount < 2 ^ 64) (m : Nat) :
    blocks (stream.after m) = stream.blockCount - m := by
  rw [blocks, Stream.after, u64sub_of_le (Nat.min_le_right _ _) hcount]
  omega

theorem blocks_after_ne {m : Nat} (hcount : stream.blockCount < 2 ^ 64) (hm : m < stream.blockCount) :
    ¬ blocks (stream.after m) = 0 := by
  rw [blocks_after hcount]
  omega

theorem newBlock_after {m : Nat} (hm : m < stream.blockCount) :
    newBlock (stream.after m) = .ok (some m, { stream with blocksReturned := m + 1 }) := by
  have hmin : min m stream.blockCount = m := Nat.min_eq_left (Nat.le_of_lt hm)
  simp only [newBlock, Stream.after, hmin, if_neg (Nat.ne_of_lt hm), cassert_pos _ hm, ok_bind, pure_eq_ok]

/-- A worker of the pool that stops on the first block it takes. -/
theorem apThreadStream_stops {m : Nat} {first : Block} (hcount : stream.blockCount < 2 ^ 64)
    (hm : m < stream.blockCount) (hfirst : stream.inBlock 0 = .ok first) (hblk : stream.inBlock m = .ok blk)
    (hcode : codeAndStop host self maker code blk = .error stop) (outfile : CFile) :
    apThreadStream host self maker code ⟨stream.after m, outfile⟩ = .error stop := by
  have hsome := blocks_after_ne hcount hm
  have hblk' : { stream with blocksReturned := m + 1 }.inBlock m = .ok blk := hblk
  have hfirst' : (stream.after m).inBlock 0 = .ok first := hfirst
  have hpass : apThreadPass host self maker code ⟨stream.after m, outfile⟩ = .error stop := by
    simp only [apThreadPass, if_neg hsome, newBlock_after hm, WorkerStop.mapError_ok, WorkerStop.ok_bind, hblk']
    unfold codeAndStop at hcode
    rcases hrun : codeBlock self maker code blk with e | arc
    · rw [hrun, WorkerStop.error_bind] at hcode
      cases hcode
      rfl
    · rw [hrun, WorkerStop.ok_bind] at hcode
      rw [WorkerStop.ok_bind, hcode, WorkerStop.error_bind]
  rw [apThreadStream, hfirst', WorkerStop.mapError_ok, WorkerStop.ok_bind, Loop.forever_of_error hpass, WorkerStop.error_bind]

/-- The worker without a pool stops where a worker of the pool does. -/
theorem apNonThreadStream_stops {m : Nat} {first : Block} (hcount : stream.blockCount < 2 ^ 64)
    (hm : m < stream.blockCount) (hfirst : stream.inBlock 0 = .ok first) (hblk : stream.inBlock m = .ok blk)
    (hcode : codeAndStop host self maker (encodeChars host) blk = .error stop) :
    apNonThreadEncodeStream host self maker (stream.after m) = .error stop := by
  have hsome := blocks_after_ne hcount hm
  have hblk' : { stream with blocksReturned := m + 1 }.inBlock m = .ok blk := hblk
  have hfirst' : (stream.after m).inBlock 0 = .ok first := hfirst
  have hpass : apNonThreadPass host self maker (0, stream.after m) = .error stop := by
    simp only [apNonThreadPass, if_neg hsome, newBlock_after hm, WorkerStop.mapError_ok, WorkerStop.ok_bind, hblk']
    unfold codeAndStop at hcode
    rcases hrun : codeBlock self maker (encodeChars host) blk with e | arc
    · rw [hrun, WorkerStop.error_bind] at hcode
      cases hcode
      rfl
    · rw [hrun, WorkerStop.ok_bind] at hcode
      have hloopy : ¬ 0 + 1 ≠ 1 := fun h => h rfl
      rw [WorkerStop.ok_bind, if_neg hloopy, hcode, WorkerStop.error_bind]
  rw [apNonThreadEncodeStream, hfirst', WorkerStop.mapError_ok, WorkerStop.ok_bind, Loop.forever_of_error hpass, WorkerStop.error_bind]

/-- A worker that comes when all blocks are taken has nothing to do. -/
theorem workers_return {m : Nat} {first : Block} (hcount : stream.blockCount < 2 ^ 64)
    (hm : stream.blockCount ≤ m) (hfirst : stream.inBlock 0 = .ok first) (outfile : CFile) :
    apThreadStream host self maker code ⟨stream.after m, outfile⟩ = .ok ⟨stream.after m, outfile⟩ ∧
      apNonThreadEncodeStream host self maker (stream.after m) = .ok (stream.after m) := by
  have hnone : blocks (stream.after m) = 0 := by
    rw [blocks_after hcount]
    omega
  have hfirst' : (stream.after m).inBlock 0 = .ok first := hfirst
  have hpass : apThreadPass host self maker code ⟨stream.after m, outfile⟩ = .ok none := if_pos hnone
  have hpass' : apNonThreadPass host self maker (0, stream.after m) = .ok none := if_pos hnone
  constructor
  · rw [apThreadStream, hfirst', WorkerStop.mapError_ok, WorkerStop.ok_bind, Loop.forever_of_break hpass]
    rfl
  · rw [apNonThreadEncodeStream, hfirst', WorkerStop.mapError_ok, WorkerStop.ok_bind, Loop.forever_of_break hpass']
    rfl

end Worker

/-! ### The pool -/

section Opened

variable {content : List UInt8} {bs : Nat}

theorem inBlockAt_data (content : List UInt8) (bs j : Nat) :
    blockLength (inBlockAt content bs j) ≤ (inBlockAt content bs j).data.length := by
  show (Chunks.chunk bs content j).length ≤ (content.drop (j * bs)).length
  rw [Chunks.length_chunk, List.length_drop]
  exact Nat.min_le_right _ _

theorem inBlockAt_mode (content : List UInt8) (bs j : Nat) : (inBlockAt content bs j).mode ≠ .writable :=
  nofun

theorem openedStream_first (host : Host) (hsize : 0 < bs) (hfile : 0 < content.length) :
    (openedStream host content bs).inBlock 0 = .ok (inBlockAt content bs 0) :=
  openedStream_inBlock (Chunks.ceilDiv_pos hsize hfile)

theorem openedStream_blockCount (host : Host) (hcount : content.length ⌈/⌉ bs ≤ 2 ^ 32 - 1) :
    (openedStream host content bs).blockCount < 2 ^ 64 := by
  show content.length ⌈/⌉ bs < 2 ^ 64
  omega

/-- The stream after any calls, and the block it gives out next. -/
theorem openedStream_calls {Caller : Type} (host : Host) (hcount : content.length ⌈/⌉ bs ≤ 2 ^ 32 - 1)
    (calls : List (Caller × StreamCall)) : ∃ answers,
      streamCalls calls (openedStream host content bs)
        = .ok (answers, (openedStream host content bs).after (newBlockCalls calls)) := by
  obtain ⟨answers, hrun, _⟩ :=
    streamCalls_after (openedStream host content bs) (openedStream_blockCount host hcount) calls 0
  rw [Nat.zero_add] at hrun
  exact ⟨answers, hrun⟩

/-- The encoder on a block of the stream. -/
theorem encode_inBlockAt (host : Host) (self maker : Nat) (hsize : 0 < bs) {j : Nat}
    (hj : j < content.length ⌈/⌉ bs) :
    ∃ stop, codeAndStop host self maker (encodeChars host) (inBlockAt content bs j) = .error stop ∧
      (maker ≠ self → stop = .threadId) ∧ (maker = self → ∃ e, stop = .coder e ∧
        (bs ≤ 2 ^ 29 - 256 → e = .blockWriteMode)) := by
  apply codeAndStop_stops
  intro mod fresh
  have hcut : u32 (blockLength (inBlockAt content bs j)) ≤ (inBlockAt content bs j).data.length :=
    (Nat.mod_le _ _).trans (inBlockAt_data content bs j)
  obtain ⟨e, hrun, hsite⟩ := encodeChars_refused host fresh (inBlockAt_mode content bs j) rfl hcut
    (blockLength (inBlockAt content bs j))
  refine ⟨e, hrun, fun hroom => ?_⟩
  have hlength : blockLength (inBlockAt content bs j) ≤ bs := (Chunks.length_chunk_bounds hsize hj).2
  have hsame : u32 (blockLength (inBlockAt content bs j)) = blockLength (inBlockAt content bs j) :=
    u32_of_lt (by omega)
  exact hsite hsame (by omega)

/-- The decoder on a block of the stream. -/
theorem decode_inBlockAt (host : Host) (self maker : Nat) (hsize : 0 < bs) {j : Nat}
    (hj : j < content.length ⌈/⌉ bs) :
    ∃ stop, codeAndStop host self maker (decodeChars host) (inBlockAt content bs j) = .error stop ∧
      (maker ≠ self → stop = .threadId) ∧ (maker = self → ∃ e, stop = .coder e ∧
        (bs < 2 ^ 32 →
          e = if (Chunks.chunk bs content j).length = 1 then .blockWriteMode else .decodeReserved)) := by
  apply codeAndStop_stops
  intro mod fresh
  obtain ⟨hpos, hle⟩ := Chunks.length_chunk_bounds hsize hj
  obtain ⟨e, hrun, hsite⟩ := decodeChars_refused host fresh (inBlockAt_mode content bs j) rfl hpos
    (inBlockAt_data content bs j)
  exact ⟨e, hrun, fun hlt => hsite (Nat.lt_of_le_of_lt hle hlt)⟩

end Opened

/-- The encoding workers of a stream over a file, whatever any of them has asked the stream for. One that
    comes when all blocks are taken returns; every other one stops on the block it takes, the same with a
    pool and without, in another thread at the first operation on the block and in the thread that made it
    in the coder. Where the coder has room for its bits it is the block that refuses the first word. -/
theorem encodeWorkers_stop (host : Host) (file : FileContent) (bs : Nat) (hfile : 1 ≤ file.bytes.length)
    (hbs : 1 ≤ bs) (hcount : file.bytes.length ⌈/⌉ bs ≤ 2 ^ 32 - 1) :
    ∃ stream, dachStreamNew host { file := file, mode := "r", blockSize := bs } = .ok stream ∧
      ∀ (Caller : Type) (calls : List (Caller × StreamCall)), ∃ answers s,
        streamCalls calls stream = .ok (answers, s) ∧ ∀ (outfile : CFile) (self maker : Nat),
          (file.bytes.length ⌈/⌉ bs ≤ newBlockCalls calls →
            apThreadEncodeStream host self maker ⟨s, outfile⟩ = .ok ⟨s, outfile⟩ ∧
              apNonThreadEncodeStream host self maker s = .ok s) ∧
          (newBlockCalls calls < file.bytes.length ⌈/⌉ bs → ∃ stop,
            apThreadEncodeStream host self maker ⟨s, outfile⟩ = .error stop ∧
              apNonThreadEncodeStream host self maker s = .error stop ∧
              (maker ≠ self → stop = .threadId) ∧
              (maker = self → ∃ site, stop = .coder site ∧
                (bs ≤ 2 ^ 29 - 256 → site = .blockWriteMode))) := by
  refine ⟨_, dachStreamNew_eq host file hfile hbs (by omega), fun Caller calls => ?_⟩
  obtain ⟨answers, hrun⟩ := openedStream_calls host hcount calls
  refine ⟨answers, _, hrun, fun outfile self maker => ⟨fun hdone => ?_, fun hleft => ?_⟩⟩
  · exact workers_return (openedStream_blockCount host hcount) hdone (openedStream_first host hbs hfile) outfile
  · obtain ⟨stop, hcode, hthread, hcoder⟩ := encode_inBlockAt host self maker hbs hleft
    have hpool := apThreadStream_stops (openedStream_blockCount host hcount) hleft
      (openedStream_first host hbs hfile) (openedStream_inBlock hleft) hcode outfile
    have hplain := apNonThreadStream_stops (openedStream_blockCount host hcount) hleft
      (openedStream_first host hbs hfile) (openedStream_inBlock hleft) hcode
    exact ⟨stop, hpool, hplain, hthread, hcoder⟩

theorem encodeWorkers_stop_three : ∃ stream,
    dachStreamNew littleHost { file := ⟨[1, 2, 3], by decide⟩, mode := "r", blockSize := 2 } = .ok stream ∧
      apThreadEncodeStream littleHost 7 7 ⟨stream, CFile.reading []⟩ = .error (.coder .blockWriteMode) ∧
      apThreadEncodeStream littleHost 8 7 ⟨stream, CFile.reading []⟩ = .error .threadId := by
  have hcount : [(1 : UInt8), 2, 3].length ⌈/⌉ 2 = 2 := Chunks.ceilDiv_eq (by decide) (by decide) (by decide)
  obtain ⟨stream, hnew, hworkers⟩ := encodeWorkers_stop littleHost ⟨[1, 2, 3], by decide⟩ 2 (by decide)
    (by decide) (by rw [hcount]; decide)
  obtain ⟨answers, s, hcalls, hstop⟩ := hworkers Unit []
  cases hcalls
  have hleft : newBlockCalls ([] : List (Unit × StreamCall)) < [(1 : UInt8), 2, 3].length ⌈/⌉ 2 := by
    rw [hcount]
    decide
  obtain ⟨stop, hsame, _, _, hcoder⟩ := (hstop (CFile.reading []) 7 7).2 hleft
  obtain ⟨site, rfl, hsite⟩ := hcoder rfl
  obtain ⟨stop', hother, _, hthread, _⟩ := (hstop (CFile.reading []) 8 7).2 hleft
  rw [hsite (by norm_num)] at hsame
  rw [hthread (by decide)] at hother
  exact ⟨stream, hnew, hsame, hother⟩

/-- The decoding workers of a stream over a file. They stop where the encoding ones do, and in the thread
    that made the block most of them for another reason: nobody has read a code value, so the decoder takes
    0 for it, which is the reserved symbol; only a block of one byte is decoded, to one byte that nobody
    sees, and refuses the words of the stop sequence. -/
theorem decodeWorker_stops (host : Host) (file : FileContent) (bs : Nat) (hfile : 1 ≤ file.bytes.length)
    (hbs : 1 ≤ bs) (hcount : file.bytes.length ⌈/⌉ bs ≤ 2 ^ 32 - 1) :
    ∃ stream, dachStreamNew host { file := file, mode := "r", blockSize := bs } = .ok stream ∧
      ∀ (Caller : Type) (calls : List (Caller × StreamCall)), ∃ answers s,
        streamCalls calls stream = .ok (answers, s) ∧ ∀ (outfile : CFile) (self maker : Nat),
          (file.bytes.length ⌈/⌉ bs ≤ newBlockCalls calls →
            apThreadDecodeStream host self maker ⟨s, outfile⟩ = .ok ⟨s, outfile⟩) ∧
          (newBlockCalls calls < file.bytes.length ⌈/⌉ bs → ∃ stop,
            apThreadDecodeStream host self maker ⟨s, outfile⟩ = .error stop ∧
              (maker ≠ self → stop = .threadId) ∧
              (maker = self → ∃ site, stop = .coder site ∧ (bs < 2 ^ 32 → site =
                if (Chunks.chunk bs file.bytes (newBlockCalls calls)).length = 1 then .blockWriteMode
                else .decodeReserved))) := by
  refine ⟨_, dachStreamNew_eq host file hfile hbs (by omega), fun Caller calls => ?_⟩
  obtain ⟨answers, hrun⟩ := openedStream_calls host hcount calls
  refine ⟨answers, _, hrun, fun outfile self maker => ⟨fun hdone => ?_, fun hleft => ?_⟩⟩
  · exact (workers_return (openedStream_blockCount host hcount) hdone (openedStream_first host hbs hfile) outfile).1
  · obtain ⟨stop, hcode, hthread, hcoder⟩ := decode_inBlockAt host self maker hbs hleft
    have hpool := apThreadStream_stops (openedStream_blockCount host hcount) hleft
      (openedStream_first host hbs hfile) (openedStream_inBlock hleft) hcode outfile
    exact ⟨stop, hpool, hthread, hcoder⟩

theorem decodeWorker_stops_three : ∃ stream,
    dachStreamNew littleHost { file := ⟨[1, 2, 3], by decide⟩, mode := "r", blockSize := 2 } = .ok stream ∧
      apThreadDecodeStream littleHost 7 7 ⟨stream, CFile.reading []⟩ = .error (.coder .decodeReserved) ∧
      ∃ answers s, streamCalls [((), .newBlock)] stream = .ok (answers, s) ∧
        apThreadDecodeStream littleHost 7 7 ⟨s, CFile.reading []⟩ = .error (.coder .blockWriteMode) := by
  have hcount : [(1 : UInt8), 2, 3].length ⌈/⌉ 2 = 2 := Chunks.ceilDiv_eq (by decide) (by decide) (by decide)
  obtain ⟨stream, hnew, hworkers⟩ := decodeWorker_stops littleHost ⟨[1, 2, 3], by decide⟩ 2 (by decide)
    (by decide) (by rw [hcount]; decide)
  obtain ⟨_, s, hcalls, hstop⟩ := hworkers Unit []
  cases hcalls
  obtain ⟨answers, s, hcalls, hstop'⟩ := hworkers Unit [((), .newBlock)]
  have hleft : newBlockCalls ([] : List (Unit × StreamCall)) < [(1 : UInt8), 2, 3].length ⌈/⌉ 2 := by
    rw [hcount]
    decide
  have hleft' : newBlockCalls [((), StreamCall.newBlock)] < [(1 : UInt8), 2, 3].length ⌈/⌉ 2 := by
    rw [hcount]
    decide
  obtain ⟨stop, hfirst, _, hcoder⟩ := (hstop (CFile.reading []) 7 7).2 hleft
  obtain ⟨site, rfl, hsite⟩ := hcoder rfl
  obtain ⟨stop', hsecond, _, hcoder'⟩ := (hstop' (CFile.reading []) 7 7).2 hleft'
  obtain ⟨site', rfl, hsite'⟩ := hcoder' rfl
  rw [hsite (by norm_num)] at hfirst
  rw [hsite' (by norm_num)] at hsecond
  exact ⟨stream, hnew, hfirst, answers, s, hcalls, hsecond⟩

end Dach
