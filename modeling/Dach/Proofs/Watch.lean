/-
Module: Dach.Proofs.Watch
Layer: Proofs
Purpose: When the round trip over a block is right, told from the steps of the two runs: no word is
  written past the end of the block, and no symbol depends on bits that nobody has written. The watch
  changes nothing; in terms of the exact code the payload fits into the block, and the block spells a
  code value of its last interval.
Imports: Dach.Core.Watch, Dach.Lib.Outcome, Dach.Proofs.BlockCoder
Trusted boundary: none
Main exports: watchedBlockEncode_projects, Block.Unstretched, WatchedArc.Tells, EncodedBlock.watched,
  settled_iff, settledUntilEof_iff, EncodedBlock.blockSettled_iff, blockDecode_blockEncode_iff
-/
import Dach.Core.Watch
import Dach.Lib.Outcome
import Dach.Proofs.BlockCoder

namespace Dach

open IntervalCoder Outcome

/-! ### The encoder behind the watch -/

section Projections

variable (host : Host)

theorem watchedBitout_projects (w : WatchedArc) (bit : Nat) :
    Projects WatchedArc.arc (watchedBitout host w bit) (dachBitout host w.arc bit) := by
  rw [watchedBitout]
  cases dachBitout host w.arc bit <;> rfl

theorem watchedUnderflow_projects (bit pending : Nat) : ∀ w : WatchedArc,
    Projects WatchedArc.arc (watchedUnderflow host bit pending w)
      (writeUnderflow host bit pending w.arc) := by
  induction pending with
  | zero =>
      intro w
      exact .ok rfl
  | succ pending ih =>
      intro w
      rw [watchedUnderflow, writeUnderflow]
      exact (watchedBitout_projects host w bit).bind fun w => ih _

theorem watchedWriteStream_projects (w : WatchedArc) (bit : Nat) :
    Projects WatchedArc.arc (watchedWriteStream host w bit) (dachWriteStream host w.arc bit) := by
  rw [watchedWriteStream, dachWriteStream]
  refine (Projects.same _).bind fun _ => ?_
  exact (watchedBitout_projects host w bit).bind fun w => watchedUnderflow_projects host _ _ w

theorem watchedPass_projects (w : WatchedArc) :
    Projects (Option.map WatchedArc.arc) (watchedPass host w) (encodePass host w.arc) := by
  rw [watchedPass, encodePass]
  apply Projects.ite
  · exact (watchedWriteStream_projects host w _).bind fun w => .ok rfl
  · exact Projects.ite (.ok rfl) (.ok rfl)

theorem watchedRenorm_projects (w : WatchedArc) :
    Projects (Prod.map id WatchedArc.arc) (watchedRenorm host w) (encodeRenorm host w.arc) :=
  Projects.forever (watchedPass_projects host) loopFuel w

theorem watchedEncode_projects (w : WatchedArc) (chr : Nat) :
    Projects (Prod.map id WatchedArc.arc) (watchedEncode host w chr) (dachEncode host w.arc chr) := by
  rw [watchedEncode, dachEncode]
  refine (Projects.same _).bind fun sym => (Projects.same _).bind fun arc => ?_
  apply (watchedRenorm_projects host _).bind
  rintro ⟨shifts, w⟩
  apply (Projects.same _).bind
  rintro ⟨scale, mod⟩
  exact .ok rfl

theorem watchedEncodeLoop_projects (data : List UInt8) : ∀ w : WatchedArc,
    Projects (Prod.map id WatchedArc.arc) (watchedEncodeLoop host data w)
      (encodeLoop host data w.arc) := by
  induction data with
  | nil =>
      intro w
      exact .ok rfl
  | cons c data ih =>
      intro w
      rw [watchedEncodeLoop, encodeLoop]
      apply (watchedEncode_projects host w c.toNat).bind
      rintro ⟨shifts, w⟩
      apply (ih w).bind
      rintro ⟨later, w⟩
      exact .ok rfl

theorem watchedPadPass_projects (bit : Nat) (w : WatchedArc) :
    Projects (Option.map WatchedArc.arc) (watchedPadPass host bit w) (padPass host bit w.arc) := by
  rw [watchedPadPass, padPass]
  apply Projects.ite
  · exact (watchedWriteStream_projects host w bit).bind fun w => .ok rfl
  · exact .ok rfl

theorem watchedStopEncoder_projects (w : WatchedArc) :
    Projects WatchedArc.arc (watchedStopEncoder host w) (dachStopEncoder host w.arc) := by
  rw [watchedStopEncoder, dachStopEncoder]
  refine (Projects.same _).bind fun _ => (Projects.same _).bind fun _ => ?_
  refine (watchedWriteStream_projects host _ _).bind fun w => ?_
  refine (watchedWriteStream_projects host w _).bind fun w => ?_
  apply (Projects.forever (watchedPadPass_projects host _) loopFuel w).bind
  rintro ⟨passes, w⟩
  exact watchedWriteStream_projects host w _

/-- The watched encoder is the encoder with a flag beside it. -/
theorem watchedBlockEncode_projects (bid : Nat) (data : List UInt8) :
    Projects Prod.fst (watchedBlockEncode host bid data) (blockEncode host bid data) := by
  rw [watchedBlockEncode, blockEncode]
  refine (Projects.same _).bind fun arc => ?_
  apply (watchedEncodeLoop_projects host data _).bind
  rintro ⟨shifts, w⟩
  apply (watchedStopEncoder_projects host w).bind
  intro w
  show Projects Prod.fst (w.arc.onBlock >>= fun blk => .ok (blk, w.room)) w.arc.onBlock
  cases w.arc.onBlock <;> rfl

end Projections

/-! ### Room -/

/-- Every byte that `block_write` copies is counted, whatever the block. -/
theorem blockWriteLoop_bytesWritten {buf : List UInt8} : ∀ {obj obj' : Block},
    blockWriteLoop buf obj = .ok obj' → obj'.bytesWritten = obj.bytesWritten + buf.length := by
  induction buf with
  | nil =>
      intro obj obj' hrun
      cases hrun
      rfl
  | cons byte buf ih =>
      intro obj obj' hrun
      rw [blockWriteLoop] at hrun
      split at hrun
      · rw [ih hrun, List.length_cons, Nat.add_assoc, Nat.add_comm 1]
        dsimp only
        split <;> rfl
      · cases hrun

theorem blockWrite_bytesWritten {host : Host} {obj : Block} {buf : List UInt8} {ret : Int} {obj' : Block}
    (hrun : blockWrite host obj buf = .ok (ret, obj')) :
    obj'.bytesWritten = obj.bytesWritten + buf.length := by
  simp only [blockWrite, bind_eq_ok] at hrun
  rcases hrun with ⟨_, _, _, _, obj₁, hloop, _, _, hret⟩
  cases hret
  rw [blockWriteLoop_bytesWritten hloop]
  split <;> rfl

/-- A fresh block of this length that has only been written to, and every time inside it. -/
structure Block.Unstretched (length : Nat) (blk : Block) : Prop where
  mode : blk.mode = .writable
  data : blk.data.length = length
  length_eq : blk.length = length
  bytesWritten : blk.bytesWritten = blk.pos

/-- One more word inside it. -/
theorem Block.Unstretched.write {host : Host} {length : Nat} {blk : Block} (h : blk.Unstretched length)
    (hlength : length < 2 ^ 63) (hfits : blk.pos + 4 ≤ length) (w : Nat) :
    ∃ ret blk', blockWrite host blk (u32Bytes host.order w) = .ok (ret, blk') ∧
      blk'.Unstretched length := by
  have hfour : (u32Bytes host.order w).length = 4 := length_u32Bytes _ _
  have hdata := h.data
  have hlen := h.length_eq
  have hbytes := h.bytesWritten
  have hwrite := blockWrite_eq host blk (u32Bytes host.order w) (by omega) h.mode
    (hdata.trans hlen.symm) (by omega) (by omega)
  refine ⟨_, _, hwrite, h.mode, ?_, ?_, ?_⟩
  · show (overwrite _ _ _).length = length
    rw [length_overwrite (by omega), hdata, hfour]
    omega
  · show max blk.length (blk.pos + _) = length
    omega
  · show blk.bytesWritten + _ = blk.pos + _
    omega

/-- What the flag says: every word has been written inside the block, or more bytes than it has room
    for. -/
def WatchedArc.Tells (length : Nat) (w : WatchedArc) : Prop :=
  ∃ blk, w.arc.io = .block blk ∧ (w.room = true → blk.Unstretched length) ∧
    (w.room = false → length < blk.bytesWritten)

section Room

variable (host : Host) {length : Nat}

/-- A word of a block: it fits, or the block is overrun. -/
theorem bitoutWord_tells {w : WatchedArc} (h : w.Tells length) (hlength : length < 2 ^ 63) :
    Yields (fun _ => True) (bitoutWord host w.arc) fun arc =>
      WatchedArc.Tells length { arc := arc, room := w.room && w.arc.wordFits } := by
  rcases h with ⟨blk, hio, hroom, hover⟩
  have hword : w.arc.wordFits = decide (blk.pos + 4 ≤ blk.length) := by
    rw [Arc.wordFits, hio]
  have hout : bitoutWord host w.arc = blockWrite host blk (u32Bytes host.order w.arc.ioBuffer) >>=
      fun r => .ok { w.arc with io := .block r.2 } := by
    rw [bitoutWord, hio]
    rfl
  have hfour : (u32Bytes host.order w.arc.ioBuffer).length = 4 := length_u32Bytes _ _
  rw [hout, hword]
  rcases hrun : blockWrite host blk (u32Bytes host.order w.arc.ioBuffer) with e | ⟨ret, blk'⟩
  · exact Yields.error trivial
  have hbytes := blockWrite_bytesWritten hrun
  rw [ok_bind]
  cases hcase : w.room with
  | false =>
      have hbefore := hover hcase
      exact Yields.ok ⟨blk', rfl, Bool.noConfusion, fun _ => by omega⟩
  | true =>
      have hinside := hroom hcase
      have hpos := hinside.bytesWritten
      rw [hinside.length_eq]
      by_cases hfits : blk.pos + 4 ≤ length
      · rcases hinside.write hlength hfits w.arc.ioBuffer with ⟨_, _, hwrite, hinside'⟩
        cases hrun.symm.trans hwrite
        rw [decide_eq_true hfits]
        exact Yields.ok ⟨blk', rfl, fun _ => hinside', Bool.noConfusion⟩
      · rw [decide_eq_false hfits]
        exact Yields.ok ⟨blk', rfl, Bool.noConfusion, fun _ => by omega⟩

theorem watchedBitout_tells {w : WatchedArc} (h : w.Tells length) (hlength : length < 2 ^ 63)
    (bit : Nat) :
    Yields (fun _ => True) (watchedBitout host w bit) (WatchedArc.Tells length) := by
  rw [watchedBitout, dachBitout]
  by_cases hzero : w.arc.ioBufferFull = 0
  · have hfull : WatchedArc.Tells length
        { w with arc := { w.arc with ioBufferFull := w.arc.ioBufferSize } } := h
    have hflag : (w.room && (decide (w.arc.ioBufferFull ≠ 0) || w.arc.wordFits))
        = (w.room && w.arc.wordFits) := by
      simp [hzero]
    simp only [if_pos hzero, hflag, bind_assoc]
    exact (bitoutWord_tells host hfull hlength).bind fun arc harc => Yields.ok harc
  · have hflag : (w.room && (decide (w.arc.ioBufferFull ≠ 0) || w.arc.wordFits)) = w.room := by
      simp [hzero]
    simp only [if_neg hzero, hflag]
    exact Yields.ok h

theorem watchedUnderflow_tells (hlength : length < 2 ^ 63) (bit pending : Nat) : ∀ {w : WatchedArc},
    w.Tells length →
      Yields (fun _ => True) (watchedUnderflow host bit pending w) (WatchedArc.Tells length) := by
  induction pending with
  | zero =>
      intro w h
      exact Yields.ok h
  | succ pending ih =>
      intro w h
      exact (watchedBitout_tells host h hlength bit).bind fun w hw => ih hw

theorem watchedWriteStream_tells {w : WatchedArc} (h : w.Tells length) (hlength : length < 2 ^ 63)
    (bit : Nat) :
    Yields (fun _ => True) (watchedWriteStream host w bit) (WatchedArc.Tells length) := by
  refine (Yields.any _ fun _ => trivial).bind fun _ _ => ?_
  exact (watchedBitout_tells host h hlength bit).bind fun w hw =>
    watchedUnderflow_tells host hlength _ _ hw

theorem watchedPass_tells {w : WatchedArc} (h : w.Tells length) (hlength : length < 2 ^ 63) :
    Yields (fun _ => True) (watchedPass host w) fun next => ∀ w', next = some w' → w'.Tells length := by
  rw [watchedPass]
  refine Yields.ite (fun _ => ?_) fun _ => Yields.ite (fun _ => Yields.ok ?_) fun _ => Yields.ok ?_
  · refine (watchedWriteStream_tells host h hlength _).bind fun w hw => Yields.ok ?_
    rintro _ ⟨⟩
    exact hw
  · rintro _ ⟨⟩
    exact h
  · rintro _ ⟨⟩

theorem dachEncodeStep_io {arc arc' : Arc} {sym : Nat} (hstep : dachEncodeStep arc sym = .ok arc') :
    arc'.io = arc.io := by
  simp only [dachEncodeStep, bind_eq_ok] at hstep
  rcases hstep with ⟨_, _, _, _, range, _, hstep⟩
  split at hstep
  · cases hstep
  · rw [bind_eq_ok] at hstep
    rcases hstep with ⟨hs, _, hstep⟩
    rw [bind_eq_ok] at hstep
    rcases hstep with ⟨ls, _, hstep⟩
    split at hstep
    · cases hstep
    · cases hstep
      rfl

theorem watchedEncode_tells {w : WatchedArc} (h : w.Tells length) (hlength : length < 2 ^ 63)
    (chr : Nat) :
    Yields (fun _ => True) (watchedEncode host w chr) fun r => r.2.Tells length := by
  refine (Yields.any _ fun _ => trivial).bind fun sym _ => ?_
  rcases hstep : dachEncodeStep w.arc sym with e | arc
  · exact Yields.error trivial
  · have hio : arc.io = w.arc.io := dachEncodeStep_io hstep
    have harc : WatchedArc.Tells length
        { w with arc := { arc with totalSyms := u64 (arc.totalSyms + 1) } } := by
      rcases h with ⟨blk, hblk, hrest⟩
      exact ⟨blk, hio.trans hblk, hrest⟩
    have hloop : Yields (fun _ => True) (watchedRenorm host
        { w with arc := { arc with totalSyms := u64 (arc.totalSyms + 1) } })
        fun r => r.2.Tells length :=
      Yields.forever_invariant trivial (fun w hw => watchedPass_tells host hw hlength) harc
    refine hloop.bind ?_
    rintro ⟨shifts, w⟩ hw
    refine (Yields.any _ fun _ => trivial).bind ?_
    rintro ⟨scale, mod⟩ _
    exact Yields.ok hw

theorem watchedEncodeLoop_tells (hlength : length < 2 ^ 63) (data : List UInt8) :
    ∀ {w : WatchedArc}, w.Tells length →
      Yields (fun _ => True) (watchedEncodeLoop host data w) fun r => r.2.Tells length := by
  induction data with
  | nil =>
      intro w h
      exact Yields.ok h
  | cons c data ih =>
      intro w h
      apply (watchedEncode_tells host h hlength c.toNat).bind
      rintro ⟨shifts, w⟩ hw
      apply (ih hw).bind
      rintro ⟨later, w⟩ hw
      exact Yields.ok hw

theorem watchedPadPass_tells {w : WatchedArc} (h : w.Tells length) (hlength : length < 2 ^ 63)
    (bit : Nat) :
    Yields (fun _ => True) (watchedPadPass host bit w) fun next =>
      ∀ w', next = some w' → w'.Tells length := by
  rw [watchedPadPass]
  refine Yields.ite (fun _ => ?_) fun _ => Yields.ok ?_
  · refine (watchedWriteStream_tells host h hlength bit).bind fun w hw => Yields.ok ?_
    rintro _ ⟨⟩
    exact hw
  · rintro _ ⟨⟩

theorem watchedStopEncoder_tells {w : WatchedArc} (h : w.Tells length) (hlength : length < 2 ^ 63) :
    Yields (fun _ => True) (watchedStopEncoder host w) (WatchedArc.Tells length) := by
  refine (Yields.any _ fun _ => trivial).bind fun _ _ => ?_
  refine (Yields.any _ fun _ => trivial).bind fun _ _ => ?_
  have hstart : WatchedArc.Tells length
      { w with arc := { w.arc with underflow := u32 (w.arc.underflow + 1) } } := h
  refine (watchedWriteStream_tells host hstart hlength _).bind fun w hw => ?_
  refine (watchedWriteStream_tells host hw hlength _).bind fun w hw => ?_
  apply (Yields.forever_invariant trivial (fun w hw => watchedPadPass_tells host hw hlength _) hw).bind
  rintro ⟨passes, w⟩ hw
  exact watchedWriteStream_tells host hw hlength _

end Room

theorem watchedBlockEncode_tells {host : Host} {bid : Nat} {data : List UInt8} {blk : Block}
    {room : Bool} (hlength : data.length < 2 ^ 63)
    (hrun : watchedBlockEncode host bid data = .ok (blk, room)) :
    (room = true → blk.length = data.length) ∧ (room = false → data.length < blk.bytesWritten) := by
  obtain ⟨mod, hnew, fresh⟩ := dachPpm0New_fresh
  rw [watchedBlockEncode, blockEncoderNew_eq host bid data.length hnew fresh, ok_bind,
    bind_eq_ok] at hrun
  rcases hrun with ⟨⟨shifts, w⟩, hloop, hrun⟩
  rw [bind_eq_ok] at hrun
  rcases hrun with ⟨last, hstop, hrun⟩
  have hstart : WatchedArc.Tells data.length
      { arc := arcFresh mod ((blockSink host bid data.length).io []) data.length, room := true } := by
    have hdata := (payloadBlock_data_length host bid data.length []).trans (Nat.max_zero _)
    exact ⟨payloadBlock host bid data.length [], rfl,
      fun _ => ⟨rfl, hdata, Nat.max_zero _, rfl⟩, Bool.noConfusion⟩
  have hw := (watchedEncodeLoop_tells host hlength data hstart).of_ok hloop
  rcases (watchedStopEncoder_tells host hw hlength).of_ok hstop with ⟨blk', hio, hroom, hover⟩
  have hblock : last.arc.onBlock = .ok blk' := by
    rw [Arc.onBlock, hio]
  rw [hblock] at hrun
  cases hrun
  exact ⟨fun htrue => (hroom htrue).length_eq, hover⟩

/-- The flag at the end of the encoder tells whether the payload fits into the block. -/
theorem EncodedBlock.watched {host : Host} {bid : Nat} {bs : List UInt8} {mod mod' : Ppm0} {g : Frame}
    {out : List Nat} (h : EncodedBlock host bid bs mod mod' g out) (hlen : bs.length ≤ 2 ^ 27) :
    ∃ room, watchedBlockEncode host bid bs = .ok (payloadBlock host bid bs.length out, room) ∧
      (room = true ↔ 4 * out.length ≤ bs.length) := by
  rcases (watchedBlockEncode_projects host bid bs).exists_ok h.block with ⟨⟨blk, room⟩, hrun, rfl⟩
  refine ⟨room, hrun, ?_⟩
  rcases watchedBlockEncode_tells (by omega) hrun with ⟨htrue, hfalse⟩
  have hblock : (payloadBlock host bid bs.length out).length = max bs.length (4 * out.length) := rfl
  have hbytes : (payloadBlock host bid bs.length out).bytesWritten = 4 * out.length := rfl
  cases room with
  | true =>
      have hlast : (payloadBlock host bid bs.length out).length = bs.length := htrue rfl
      simp only [true_iff]
      omega
  | false =>
      have hlast : bs.length < (payloadBlock host bid bs.length out).bytesWritten := hfalse rfl
      simp only [Bool.false_eq_true, false_iff]
      omega

/-! ### Settled symbols -/

section Settled

variable {host : Host} {src : Source host} {clean : CodeValue} {arc : Arc} {f g : Frame} {s : Slice}
  {c : UInt8} {mod' : Ppm0}

theorem Selected.lookup {sym : Nat} (h : Selected f arc sym) (regs : arc.Registers f)
    (hv : f.Valid (2 ^ 30)) : arc.lookup = .ok sym := by
  rw [Arc.lookup, dachCalcRange_eq regs hv, ok_bind]
  exact h.found

/-- The symbol that is looked up is the one whose slice holds `esym`. -/
theorem lookup_iff (regs : arc.Registers f) (model : arc.Model) (hn : f.Normal (2 ^ 30))
    (hscale : arc.mod.scale < 2 ^ 32) (hlo : f.low ≤ arc.esym) (hhi : arc.esym ≤ f.high) {sym : Nat}
    (hpos : 1 ≤ sym) (hle : sym ≤ 257) :
    arc.lookup = .ok sym ↔ f.low + f.range * arc.mod.cumAt (sym + 1) / arc.mod.scale ≤ arc.esym ∧
      arc.esym < f.low + f.range * arc.mod.cumAt sym / arc.mod.scale := by
  have hwrap : f.range * arc.scale < 2 ^ 64 := by
    rw [model.scale]
    exact range_mul_lt hn.valid hscale
  rcases exists_selected regs model hn hwrap hlo hhi with ⟨t, hsel⟩
  rw [hsel.lookup regs hn.valid]
  constructor
  · rintro ⟨⟩
    exact ⟨hsel.lower, hsel.upper⟩
  · rintro ⟨hlower, hupper⟩
    rw [model.wf.sym_of_bounds hpos hle hsel.pos hsel.le hlower hupper hsel.lower hsel.upper]

/-- Where the written bits are a code value of the slice of a byte, a state is settled if and only if
    the bits that the decoder has seen are one as well. -/
theorem settled_iff (h : DecoderReady src f arc) (hslice : ByteSlice arc.mod c s mod')
    (hfits : 2 * s.scale ≤ 2 ^ 30 + 2) (hclean : clean.Within (f.narrow s))
    (hwritten : arc.writtenEsym + f.base = clean.value f.shifts) :
    arc.settled = true ↔ src.code.Within (f.narrow s) := by
  rcases h.model.sym_of_byte c with ⟨hpos, hle⟩
  have hle' : arc.mod.chrToSym c.toNat ≤ 257 := Nat.le_succ_of_le hle
  obtain rfl := hslice.eq_slice h.model.wf hpos hle'
  have hge := h.normal.range_ge
  have hscale : 2 * arc.mod.scale ≤ 2 ^ 30 + 2 := hfits
  have hwidth := Frame.narrow_width (f := f) (s := h.model.wf.slice hpos hle') (Nat.le_trans hfits hge)
  have hsome := Nat.lt_of_lt_of_le (Nat.lt_add_of_pos_right Nat.zero_lt_two) hwidth
  have hinside := within_of_narrow h.normal.valid.1 hclean
  rw [CodeValue.Within, ← hwritten, Frame.lower, Frame.upper] at hinside
  -- the symbol of the written bits is that of the byte
  have hregs : Arc.Registers { arc with esym := arc.writtenEsym } f :=
    ⟨h.place.registers.low, h.place.registers.high⟩
  have hmodel : Arc.Model { arc with esym := arc.writtenEsym } :=
    ⟨h.model.wf, h.model.reserved, h.model.scale⟩
  have hlow : f.low ≤ arc.writtenEsym := by omega
  have hhigh : arc.writtenEsym ≤ f.high := by omega
  have hsmall : arc.mod.scale < 2 ^ 32 := by omega
  have hbyte : { arc with esym := arc.writtenEsym }.lookup = .ok (arc.mod.chrToSym c.toNat) :=
    (lookup_iff hregs hmodel h.normal hsmall hlow hhigh hpos hle').mpr
      ((within_narrow_iff hsome hwritten).mp hclean)
  rcases h.place.esym_bounds with ⟨hlo, hhi⟩
  rw [Arc.settled, decide_eq_true_iff, hbyte,
    lookup_iff h.place.registers h.model h.normal hsmall hlo hhi hpos hle']
  exact (within_narrow_iff hsome h.place.esym).symm

/-- A run of the decoder on a code whose written bits are a code value of its frame makes its calls in
    settled states if and only if the bits that it sees are one. -/
theorem settledUntilEof_iff (hread : ∀ bits, src.Readable bits) {data : List UInt8} {mod : Ppm0}
    (codes : Codes (2 ^ 30) ByteSlice mod f data mod' g) : clean.Within g →
    (∀ {arc f}, DecoderReady src f arc → 2 ^ 31 ∣ f.base → f.shifts ≤ g.shifts →
      arc.writtenEsym + f.base = clean.value f.shifts) →
    ∀ {arc : Arc}, data ≠ [] → arc.mod = mod → DecoderReady src f arc → 2 ^ 31 ∣ f.base →
    arc.totalSyms + data.length = arc.blocksize → arc.blocksize < 2 ^ 64 → arc.stop = false →
    (settledUntilEof host (data.length + 1) arc = true ↔ src.code.Within g) := by
  induction codes with
  | nil mod f =>
      intro _ _ arc hne
      exact absurd rfl hne
  | @cons mod mid mod' f f' g c data s hslice hfits hencodes tail ih =>
      intro hclean hwritten arc _ hmod h hbase htotal hblock hstop
      subst hmod
      rw [List.length_cons] at htotal ⊢
      have hnormal := hencodes.normal h.normal hfits
      have hle := (tail.shifts_le (m := 31) hnormal (by norm_num)).1
      have hshifts := (hencodes.shifts_le (m := 31) h.normal hfits (by norm_num)).1
      have hcleanHead := (hencodes.within_iff h.normal hfits).mp (tail.within hnormal hclean)
      have hhead := settled_iff h hslice hfits hcleanHead (hwritten h hbase (Nat.le_trans hshifts hle))
      rw [settledUntilEof, dachEof, hstop, Bool.false_or, Bool.and_eq_true_iff, hhead,
        ← hencodes.within_iff h.normal hfits]
      constructor
      · rintro ⟨hin, hrest⟩
        cases data with
        | nil =>
            cases tail
            exact hin
        | cons d data =>
            rw [List.length_cons] at htotal
            rcases dachDecode_codes h hslice hfits hencodes hin (hread _) (by omega) hblock
              with ⟨arc₁, hcall, hready, hmod₁, htotal₁, hblock₁, hstop₁⟩
            rw [hcall] at hrest
            exact (ih hclean hwritten (List.cons_ne_nil d data) hmod₁ hready (hencodes.base_dvd hbase)
              (by rw [List.length_cons]; omega) (by omega) (hstop₁.trans hstop)).mp hrest
      · intro hin
        have hin' := tail.within hnormal hin
        refine ⟨hin', ?_⟩
        cases data with
        | nil =>
            rcases dachDecode_codes_last h hslice hfits ((hencodes.within_iff h.normal hfits).mp hin')
              htotal hblock with ⟨arc₁, hcall, hstop₁⟩
            simp only [hcall, List.length_nil, settledUntilEof, dachEof, hstop₁, Bool.true_or]
        | cons d data =>
            rw [List.length_cons] at htotal
            rcases dachDecode_codes h hslice hfits hencodes hin' (hread _) (by omega) hblock
              with ⟨arc₁, hcall, hready, hmod₁, htotal₁, hblock₁, hstop₁⟩
            rw [hcall]
            exact (ih hclean hwritten (List.cons_ne_nil d data) hmod₁ hready (hencodes.base_dvd hbase)
              (by rw [List.length_cons]; omega) (by omega) (hstop₁.trans hstop)).mpr hin

end Settled

/-! ### The round trip -/

/-- The payload with zeros behind it. -/
def payloadAlone (host : Host) (out : List Nat) : Source host :=
  decodeSource host (wordBytes host out)

theorem blockSettled_eq {host : Host} {blk : Block} {arc : Arc}
    (h : blockDecoderNew host blk = .ok arc) :
    blockSettled host blk = settledUntilEof host (arc.blocksize + 1) arc := by
  rw [blockSettled, h]
  rfl

namespace EncodedBlock

variable {host : Host} {bid : Nat} {bs : List UInt8} {mod mod' : Ppm0} {f g : Frame} {out : List Nat}
  {arc : Arc}

theorem payload_word (h : EncodedBlock host bid bs mod mod' g out) (j : Nat) :
    (payloadAlone host out).word j = out.getD j 0 :=
  wordAt_wordBytes host h.stopped.words_lt j

/-- The decoder's bits are those of the payload up to its end, and all of them if the block ends with
    it. -/
theorem bit_payload (h : EncodedBlock host bid bs mod mod' g out) {i : Nat}
    (hi : i < 32 * out.length ∨ bs.length ≤ 4 * out.length) :
    (payloadBlockSource host bid bs.length out).bit i = (payloadAlone host out).bit i := by
  have hword : (payloadBlockSource host bid bs.length out).word (i / 32)
      = (payloadAlone host out).word (i / 32) := by
    rcases hi with hi | hi
    · rw [h.payload_word]
      exact h.word_payload (by omega)
    · have hnone : (malloc (host.heap bid) bs.length).drop (4 * out.length) = [] := by
        apply List.drop_of_length_le
        rw [malloc, List.length_map, List.length_range]
        exact hi
      rw [payloadBlockSource_word, hnone, List.append_nil]
      rfl
  show Nat.testBit _ _ = Nat.testBit _ _
  rw [hword]

/-- Clearing the bits that nobody has written leaves what the payload alone spells. -/
theorem writtenEsym (h : EncodedBlock host bid bs mod mod' g out) (hfits : 4 * out.length ≤ bs.length)
    (hready : DecoderReady (payloadBlockSource host bid bs.length out) f arc)
    (hbase : 2 ^ 31 ∣ f.base) (hshifts : f.shifts ≤ g.shifts) :
    arc.writtenEsym + f.base = (payloadAlone host out).code.value f.shifts := by
  have hstop := h.stopped.length_ge
  have hesym := hready.place.esym
  have hfull := hready.place.reading.full
  have hunwritten : arc.unwrittenBits = 32 * ((min (4 * ((f.shifts + 32 + 31) / 32))
      (max bs.length (4 * out.length)) + 3) / 4) - arc.ioBufferFull - 8 * (4 * out.length) := by
    rw [Arc.unwrittenBits, hready.place.reading.io]
    rfl
  by_cases hseen : f.shifts + 32 ≤ 32 * out.length ∨ bs.length ≤ 4 * out.length
  · -- no bit behind the payload has been seen, or there is none
    have hnone : arc.unwrittenBits = 0 := by omega
    rw [Arc.writtenEsym, hnone, Nat.shiftRight_zero, Nat.shiftLeft_zero, hesym]
    refine Bits.prefixVal_congr fun i hi => h.bit_payload (hseen.imp_left fun hle => ?_)
    omega
  · have hcount : arc.unwrittenBits = f.shifts + 32 - 32 * out.length := by omega
    have hsplit : f.shifts + 32 = 32 * out.length + (f.shifts + 32 - 32 * out.length) := by omega
    have hdvd : 2 ^ (f.shifts + 32 - 32 * out.length) ∣ f.base :=
      (Nat.pow_dvd_pow 2 (by omega)).trans hbase
    have hzeros := Bits.prefixVal_zeros (k := 32 * out.length)
      (fun i hi => h.bit_payload (Or.inl hi)) (fun i hi => ?_) (f.shifts + 32 - 32 * out.length)
    · rw [Arc.writtenEsym, hcount, Bits.shiftRight_shiftLeft_add hdvd, hesym]
      rw [← hsplit] at hzeros
      exact hzeros.symm
    · show Nat.testBit ((payloadAlone host out).word (i / 32)) _ = false
      rw [h.payload_word, List.getD_eq_default _ _ (by omega), Nat.zero_testBit]

/-- A block that the payload fits into is decoded in settled states if and only if it spells a code value
    of the frame of the bytes. -/
theorem blockSettled_iff (h : EncodedBlock host bid bs mod mod' g out) (hpos : 1 ≤ bs.length)
    (hlen : bs.length ≤ 2 ^ 27) (hfits : 4 * out.length ≤ bs.length) :
    blockSettled host (payloadBlock host bid bs.length out) = true ↔
      (payloadBlockSource host bid bs.length out).code.Within g := by
  obtain ⟨mod₁, arc, hnew, fresh, hdecoder, hready, hmod, htotal, hblock, hstop⟩ :=
    blockDecoderNew_ready host (payloadBlock_length_le host bid bs.length out)
  have hlength : (payloadBlock host bid bs.length out).length = bs.length := Nat.max_eq_left hfits
  rw [blockSettled_eq hdecoder, hblock, hlength]
  exact settledUntilEof_iff (blockSource_readable _) h.codes
    (h.stopped.within h.normal h.payload_word) (fun hready => h.writtenEsym hfits hready)
    (List.ne_nil_of_length_pos hpos) (hmod.trans (ok_unique hnew h.fresh)) hready (Nat.dvd_zero _)
    (by omega) (by omega) hstop

end EncodedBlock

/-- Decoding the block that the encoder has filled gives the bytes back if and only if every word had
    room in the block when it was written, and every symbol was settled when it was decoded. -/
theorem blockDecode_blockEncode_iff (host : Host) (bid : Nat) (bs : List UInt8) (hpos : 1 ≤ bs.length)
    (hlen : bs.length ≤ 2 ^ 27) :
    ∃ blk room, watchedBlockEncode host bid bs = .ok (blk, room) ∧ blockEncode host bid bs = .ok blk ∧
      (blockDecode host blk = .ok bs ↔ room = true ∧ blockSettled host blk = true) := by
  obtain ⟨mod, mod', g, out, h⟩ := blockEncode_spec host bid bs hpos hlen
  obtain ⟨hlength, hiff⟩ := h.blockDecode_spec hpos hlen
  obtain ⟨room, hrun, hroom⟩ := h.watched hlen
  refine ⟨_, room, hrun, h.block, ?_⟩
  constructor
  · intro hdecode
    have hfits : 4 * out.length ≤ bs.length := by
      have hsame := hlength bs hdecode
      omega
    exact ⟨hroom.mpr hfits, (h.blockSettled_iff hpos hlen hfits).mpr ((hiff hfits).mp hdecode)⟩
  · rintro ⟨htrue, hsettled⟩
    have hfits := hroom.mp htrue
    exact (hiff hfits).mpr ((h.blockSettled_iff hpos hlen hfits).mp hsettled)

/-- Four zero bytes: their payload is one word, and the bytes come back. -/
theorem blockDecode_blockEncode_iff_four : ∃ blk,
    watchedBlockEncode littleHost 0 [0, 0, 0, 0] = .ok (blk, true) ∧
      blockEncode littleHost 0 [0, 0, 0, 0] = .ok blk ∧ blockSettled littleHost blk = true ∧
      blockDecode littleHost blk = .ok [0, 0, 0, 0] := by
  obtain ⟨blk, room, hwatched, hencode, hiff⟩ :=
    blockDecode_blockEncode_iff littleHost 0 [0, 0, 0, 0] (by decide) (by decide)
  have hroom : (watchedBlockEncode littleHost 0 [0, 0, 0, 0]).map (fun r => r.2) = .ok true := by
    decide +kernel
  have hsettled : (watchedBlockEncode littleHost 0 [0, 0, 0, 0]).map
      (fun r => blockSettled littleHost r.1) = .ok true := by
    decide +kernel
  rw [hwatched] at hroom hsettled
  have htrue : room = true := Except.ok.inj hroom
  have hstates : blockSettled littleHost blk = true := Except.ok.inj hsettled
  refine ⟨blk, ?_, hencode, hstates, hiff.mpr ⟨htrue, hstates⟩⟩
  rw [hwatched, htrue]

end Dach
