/-
Module: Dach.Proofs.BlockCoder
Layer: Proofs
Purpose: The coder on a block in memory. A block has no header, so its length stands for the number of
  symbols, and what `malloc` left behind the payload stands for the zeros behind a file. A payload that
  outgrows the block never comes back, one that fits does if and only if these bytes do not carry the
  code value out of the last interval; the payload itself is always the one a file gets.
Imports: Dach.Proofs.Block, Dach.Proofs.Lockstep
Trusted boundary: none
Main exports: blockSink, blockSource, EncodedBlock, blockEncode_spec, decodeUntilEof_length,
  within_of_decodeUntilEof, payloadBlockSource, EncodedBlock.blockDecode_spec, blockEncode_encode
-/
import Dach.Proofs.Block
import Dach.Proofs.Lockstep

namespace Dach

open IntervalCoder

/-! ### A block as a sink -/

/-- A block made with this length, after these words have been written from its start. -/
def payloadBlock (host : Host) (bid length : Nat) (words : List Nat) : Block :=
  { id := bid, mode := .writable, pos := 4 * words.length, bytesWritten := 4 * words.length,
    data := overwrite (malloc (host.heap bid) length) 0 (wordBytes host words),
    size := length, length := max length (4 * words.length) }

/-- The payload, and the fresh memory it has not reached. -/
theorem payloadBlock_data (host : Host) (bid length : Nat) (words : List Nat) :
    (payloadBlock host bid length words).data = wordBytes host words ++
      (malloc (host.heap bid) length).drop (4 * words.length) := by
  show overwrite _ _ _ = _
  rw [overwrite, List.take_zero, List.nil_append, length_wordBytes, Nat.zero_add]

theorem payloadBlock_data_length (host : Host) (bid length : Nat) (words : List Nat) :
    (payloadBlock host bid length words).data.length = max length (4 * words.length) := by
  show (overwrite _ _ _).length = _
  rw [length_overwrite (Nat.zero_le _), malloc, List.length_map, List.length_range,
    length_wordBytes, Nat.zero_add]

/-- One more word. -/
theorem payloadBlock_wrote (host : Host) (bid length : Nat) (words : List Nat) (w : Nat) :
    (payloadBlock host bid length words).wrote (u32Bytes host.order w)
      = payloadBlock host bid length (words ++ [w]) := by
  have hover := overwrite_overwrite (Nat.zero_le (malloc (host.heap bid) length).length)
    (wordBytes host words) (u32Bytes host.order w)
  rw [length_wordBytes, Nat.zero_add, ← wordBytes_append] at hover
  have hlength : max (max length (4 * words.length)) (4 * words.length + 4)
      = max length (4 * (words.length + 1)) := by omega
  simp only [Block.wrote, payloadBlock, hover, length_u32Bytes, List.length_append,
    List.length_singleton, hlength, Nat.mul_succ]

/-- The block of `dach_new_arcoder_`, which takes words as long as its length fits a `size_t`. -/
def blockSink (host : Host) (bid length : Nat) : Sink host where
  io := fun words => .block (payloadBlock host bid length words)
  Room := fun bits => bits < 2 ^ 60
  room_mono := fun hle hroom => Nat.lt_of_le_of_lt hle hroom
  write := by
    intro arc words hio hroom
    have hwrite := blockWrite_eq host (payloadBlock host bid length words)
      (u32Bytes host.order arc.ioBuffer) (by rw [length_u32Bytes]; omega) rfl
      (payloadBlock_data_length host bid length words) (Nat.le_max_right _ _) (by
        show 4 * words.length + (u32Bytes _ _).length < 2 ^ 64
        rw [length_u32Bytes]
        omega)
    simp only [bitoutWord, hio, hwrite, payloadBlock_wrote, ok_bind, pure_eq_ok]

/-! ### A block as a source -/

/-- A refill at the end of a block gets no bytes, and no refill raises the flag. -/
theorem bitinWord_block {host : Host} {blk : Block} (hdata : blk.length ≤ blk.data.length) {arc : Arc}
    {j : Nat} (hio : arc.io = .block { blk with pos := min (4 * j) blk.length })
    (heof : arc.eofIn = false) :
    bitinWord host arc = .ok { arc with
      io := .block { blk with pos := min (4 * (j + 1)) blk.length }
      eofIn := false
      ioBuffer := wordAt host (blk.data.take blk.length) j
      ioBufferFull := arc.ioBufferSize } := by
  have hread := @blockRead_spec { blk with pos := min (4 * j) blk.length } (Nat.min_le_right _ _) hdata 4
  have hdrop : (blk.data.take blk.length).drop (4 * j)
      = (blk.data.drop (min (4 * j) blk.length)).take (blk.length - min (4 * j) blk.length) := by
    rw [← List.drop_take, List.drop_eq_drop_iff, List.length_take, Nat.min_eq_left hdata, Nat.min_assoc,
      Nat.min_self]
  have hbytes : u32OfBytes host.order ((blk.data.drop (min (4 * j) blk.length)).take
      (min 4 (blk.length - min (4 * j) blk.length))) = wordAt host (blk.data.take blk.length) j := by
    rw [wordAt, hdrop, ← List.take_take, u32OfBytes_take]
  have hnext : min (4 * j) blk.length + min 4 (blk.length - min (4 * j) blk.length)
      = min (4 * (j + 1)) blk.length := by omega
  simp only [bitinWord, cassert_pos _ heof, ok_bind, hio, hread, pure_eq_ok, hbytes, hnext]
  rw [heof]

/-- The block of a decoder. -/
def blockSource (host : Host) (blk : Block) (hdata : blk.length ≤ blk.data.length) : Source host where
  io := fun j => .block { blk with pos := min (4 * j) blk.length }
  word := wordAt host (blk.data.take blk.length)
  eof := fun _ => false
  word_lt := fun _ => u32OfBytes_lt _ _
  eof_zero := rfl
  refill := fun hio heof _ => bitinWord_block hdata hio heof

theorem blockSource_readable {host : Host} {blk : Block} (hdata : blk.length ≤ blk.data.length)
    (bits : Nat) : (blockSource host blk hdata).Readable bits :=
  fun _ _ => rfl

/-! ### The encoder's block -/

/-- A run of the encoder on a fresh block: the frame the bytes are coded to, and the words of the
    payload. -/
structure EncodedBlock (host : Host) (bid : Nat) (bs : List UInt8) (mod mod' : Ppm0) (g : Frame)
    (out : List Nat) : Prop where
  fresh : dachPpm0New = .ok mod
  codes : Codes (2 ^ 30) ByteSlice mod (Frame.start (2 ^ 30)) bs mod' g
  normal : g.Normal (2 ^ 30)
  stopped : Stopped g out
  shifts_le : g.shifts ≤ 31 * bs.length
  block : blockEncode host bid bs = .ok (payloadBlock host bid bs.length out)

theorem blockEncoderNew_eq (host : Host) (bid length : Nat) {mod : Ppm0}
    (hnew : dachPpm0New = .ok mod) (fresh : FreshTables mod) :
    blockEncoderNew host bid length
      = .ok (arcFresh mod ((blockSink host bid length).io []) length) := by
  have hblock : dachBlockNew host { length := length, bid := bid, mode := .writable, data := none }
      = .ok (payloadBlock host bid length []) := by
    rw [dachBlockNew, cassert_pos _ (Or.inl rfl), ok_bind]
    simp [payloadBlock, overwrite_nil]
  have hlength : blockLength (payloadBlock host bid length []) = length := Nat.max_zero length
  rw [blockEncoderNew, hnew, ok_bind, hblock, ok_bind, dachNewArcoderOnBlock, hlength,
    arcInit_eq fresh]
  rfl

theorem blockEncode_spec (host : Host) (bid : Nat) (bs : List UInt8) (hpos : 1 ≤ bs.length)
    (hlen : bs.length ≤ 2 ^ 27) : ∃ mod mod' g out, EncodedBlock host bid bs mod mod' g out := by
  obtain ⟨mod, hnew, fresh⟩ := dachPpm0New_fresh
  obtain ⟨shifts, words, g, arc, last, hloop, hrun, hshifts, hstop, hwords⟩ :=
    encodeAll_spec (blockSink host bid bs.length) fresh bs (by omega)
      (show 31 * bs.length + 64 < 2 ^ 60 by omega)
  obtain ⟨out, hio, hstopped⟩ := hwords (by omega)
  have hblock : last.onBlock = .ok (payloadBlock host bid bs.length out) := by
    rw [Arc.onBlock, hio]
    rfl
  refine ⟨mod, arc.mod, g, out, hnew, hrun.codes, hrun.ready.normal, hstopped, hshifts, ?_⟩
  simp only [blockEncode, blockEncoderNew_eq host bid bs.length hnew fresh, ok_bind, hloop, hstop,
    hblock]

/-! ### Decoding until the end -/

section UntilEof

variable {host : Host} {src : Source host} {f g : Frame}

/-- A decoder that returns has returned as many symbols as its block size. -/
theorem decodeUntilEof_length {left : Nat} : ∀ {arc : Arc} {f : Frame} {chrs : List UInt8},
    DecoderReady src f arc → arc.mod.scale + left < 2 ^ 32 →
    arc.totalSyms + (left + 1) = arc.blocksize → arc.blocksize < 2 ^ 64 → arc.stop = false →
    decodeUntilEof host (left + 2) arc = .ok chrs → chrs.length = left + 1 := by
  induction left with
  | zero =>
      intro arc f chrs h hscale htotal hblock hstop hrun
      have hprod := h.noWrap_iff.mp (h.noWrap (by omega))
      obtain ⟨sym, hsel⟩ := h.selected hprod
      rw [decodeUntilEof, dachEof, hstop, if_neg (by decide), dachDecode_last h hsel htotal hblock,
        ok_bind] at hrun
      cases hrun
      rfl
  | succ left ih =>
      intro arc f chrs h hscale htotal hblock hstop hrun
      rw [decodeUntilEof, dachEof, hstop, if_neg (by decide), bind_eq_ok] at hrun
      obtain ⟨⟨chr, mid⟩, hcall, hrest⟩ := hrun
      rw [bind_eq_ok] at hrest
      obtain ⟨later, htail, hret⟩ := hrest
      cases hret
      obtain ⟨g, hdec⟩ := dachDecode_ok h (h.noWrap (by omega)) (by omega) (by omega) hblock hcall
      have hscale' := hdec.scale
      have htotal' := hdec.totalSyms
      have hblock' := hdec.blocksize
      have hlater := ih hdec.ready (by omega) (by omega) (by omega) (hdec.stop.trans hstop) htail
      rw [List.length_cons, hlater]

/-- A symbol 1..256 with the character of a byte is the symbol of that byte. -/
theorem Arc.Model.sym_eq {arc : Arc} (model : arc.Model) {sym : Nat} (hpos : 1 ≤ sym)
    (hsym : sym ≤ 256) {c : UInt8} (hchr : UInt8.ofNat (arc.mod.symToChr sym) = c) :
    sym = arc.mod.chrToSym c.toNat := by
  obtain ⟨hcpos, hcle⟩ := model.sym_of_byte c
  have hc := model.wf.chr_sym c.toNat (Nat.le_of_lt (Nat.lt_of_lt_of_le c.toNat_lt (by norm_num)))
  refine model.wf.symToChr_inj hpos (by omega) hcpos (by omega) ?_
  rw [hc, ← hchr, UInt8.toNat_ofNat', Nat.mod_eq_of_lt (model.symToChr_lt hpos hsym)]

/-- The reserved symbol lies below every slice of a byte. -/
theorem Selected.le_256_of_above {arc : Arc} (h : DecoderReady src f arc) {sym t : Nat}
    (hsel : Selected f arc sym) (hpos : 1 ≤ t) (ht : t ≤ 256)
    (habove : src.code.Above (f.narrow (h.model.wf.slice hpos (Nat.le_succ_of_le ht)))) :
    sym ≤ 256 := by
  rw [hsel.le_256_iff h.model]
  have hmono : f.range / arc.mod.scale ≤ f.range * arc.mod.cumAt (t + 1) / arc.mod.scale :=
    Nat.div_le_div_right (Nat.le_mul_of_pos_right _ (h.model.cumAt_pos ht))
  have hesym := h.place.esym
  simp only [CodeValue.Above, Frame.lower, Frame.narrow, Ppm0.WF.slice] at habove
  omega

/-- A decoder that returns the coded bytes has a code value of their frame, unless the code value is
    below it. -/
theorem within_of_decodeUntilEof (hread : ∀ bits, src.Readable bits) {data : List UInt8}
    {mod mod' : Ppm0} (codes : Codes (2 ^ 30) ByteSlice mod f data mod' g) :
    src.code.Above g → ∀ {arc : Arc}, data ≠ [] → arc.mod = mod → DecoderReady src f arc →
    arc.totalSyms + data.length = arc.blocksize → arc.blocksize < 2 ^ 64 → arc.stop = false →
    decodeUntilEof host (data.length + 1) arc = .ok data → src.code.Within g := by
  induction codes with
  | nil mod f =>
      intro _ arc hne
      exact absurd rfl hne
  | @cons mod mid mod' f f' g c data s hslice hfits hencodes tail ih =>
      intro habove arc _ hmod h htotal hblock hstop hrun
      subst hmod
      rw [List.length_cons] at htotal hrun
      obtain ⟨hcpos, hcle⟩ := h.model.sym_of_byte c
      have hcle' : arc.mod.chrToSym c.toNat ≤ 257 := Nat.le_succ_of_le hcle
      obtain rfl := hslice.eq_slice h.model.wf hcpos hcle'
      have hscale : 2 * arc.mod.scale ≤ 2 ^ 30 + 2 := hfits
      have hwrap := h.noWrap (by omega)
      have hprod := h.noWrap_iff.mp hwrap
      -- the symbol of the byte is the one that was found, so its slice holds the code value
      have hfound : ∀ {sym}, Selected f arc sym → sym ≤ 256 →
          UInt8.ofNat (arc.mod.symToChr sym) = c → src.code.Within f' := by
        intro sym hsel hsym hchr
        obtain rfl := h.model.sym_eq hsel.pos hsym hchr
        exact (hencodes.within_iff h.normal hfits).mpr (hsel.within h.place h.model.wf)
      rw [decodeUntilEof, dachEof, hstop, if_neg (by decide), bind_eq_ok] at hrun
      obtain ⟨⟨chr, arc₁⟩, hcall, hrest⟩ := hrun
      rw [bind_eq_ok] at hrest
      obtain ⟨later, htail, hret⟩ := hrest
      have hchr : UInt8.ofNat chr = c ∧ later = data := by
        cases hret
        exact ⟨rfl, rfl⟩
      obtain ⟨hchr, rfl⟩ := hchr
      cases later with
      | nil =>
          cases tail
          obtain ⟨sym, hsel⟩ := h.selected hprod
          rw [dachDecode_last h hsel htotal hblock] at hcall
          have hlast : u8 (arc.mod.symToChr sym) = chr := (Prod.ext_iff.mp (Except.ok.inj hcall)).1
          have hsym : sym ≤ 256 :=
            hsel.le_256_of_above h hcpos hcle ((hencodes.above_iff h.normal hfits).mp habove)
          refine hfound hsel hsym ?_
          rw [← hchr, ← hlast, u8, Nat.mod_eq_of_lt (h.model.symToChr_lt hsel.pos hsym)]
      | cons d data =>
          rw [List.length_cons] at htotal
          obtain ⟨_, hdec⟩ := dachDecode_ok h hwrap (by omega) (by omega) hblock hcall
          obtain ⟨sym, hsel, hsym, rfl⟩ := hdec.sym
          obtain ⟨arc₂, hcall', hready, hmod₂, htotal₂, hblock₂, hstop₂⟩ :=
            dachDecode_codes h hslice hfits hencodes (hfound hsel hsym hchr) (hread _) (by omega)
              hblock
          obtain rfl : arc₁ = arc₂ :=
            (Prod.ext_iff.mp (ok_unique hcall hcall')).2
          exact ih habove (List.cons_ne_nil d data) hmod₂ hready
            (by rw [List.length_cons]; omega) (by omega) (hstop₂.trans hstop) htail

end UntilEof

/-! ### The round trip -/

/-- A fresh decoder on a block. -/
theorem blockDecoderNew_ready (host : Host) {blk : Block} (hdata : blk.length ≤ blk.data.length) :
    ∃ mod arc, dachPpm0New = .ok mod ∧ FreshTables mod ∧ blockDecoderNew host blk = .ok arc ∧
      DecoderReady (blockSource host blk hdata) (Frame.start (2 ^ 30)) arc ∧ arc.mod = mod ∧
      arc.totalSyms = 0 ∧ arc.blocksize = blk.length ∧ arc.stop = false := by
  obtain ⟨mod, hnew, fresh⟩ := dachPpm0New_fresh
  obtain ⟨arc, hstart, hready, hmod, htotal, hblock, hstop⟩ :=
    dachStartDecoder_ready (blockSource host blk hdata) fresh blk.length
  refine ⟨mod, arc, hnew, fresh, ?_, hready, hmod, htotal, hblock, hstop⟩
  have hio : ArcIo.block { blk with pos := 0 } = (blockSource host blk hdata).io 0 := by
    simp [blockSource]
  have hseek : blockSeek blk 0 = .ok (0, { blk with pos := 0 }) := by
    rw [blockSeek, cassert_pos _ (Nat.zero_le _)]
    rfl
  simp only [blockDecoderNew, hseek, hnew, ok_bind, dachNewArcoderOnBlock, blockLength, hio,
    arcInit_eq fresh, hstart]

theorem ByteSlice.functional {mod : Ppm0} {c : UInt8} {s s' : Slice} {mod₁ mod₂ : Ppm0}
    (one : ByteSlice mod c s mod₁) (two : ByteSlice mod c s' mod₂) : s = s' ∧ mod₁ = mod₂ := by
  constructor
  · exact Slice.ext (one.lo.trans two.lo.symm) (one.hi.trans two.hi.symm)
      (one.scale.trans two.scale.symm)
  · exact (Prod.ext_iff.mp (ok_unique one.update two.update)).2

theorem payloadBlock_length_le (host : Host) (bid length : Nat) (words : List Nat) :
    (payloadBlock host bid length words).length ≤ (payloadBlock host bid length words).data.length :=
  Nat.le_of_eq (payloadBlock_data_length host bid length words).symm

/-- The encoder's block as a source. -/
def payloadBlockSource (host : Host) (bid length : Nat) (words : List Nat) : Source host :=
  blockSource host (payloadBlock host bid length words) (payloadBlock_length_le host bid length words)

/-- A decoder of the block reads the payload, and then what `malloc` left behind it. -/
theorem payloadBlockSource_word (host : Host) (bid length : Nat) (out : List Nat) (j : Nat) :
    (payloadBlockSource host bid length out).word j = wordAt host
      (wordBytes host out ++ (malloc (host.heap bid) length).drop (4 * out.length)) j := by
  show wordAt host ((payloadBlock host bid length out).data.take
    (payloadBlock host bid length out).length) j = _
  have hall : (payloadBlock host bid length out).data.length
      ≤ (payloadBlock host bid length out).length :=
    Nat.le_of_eq (payloadBlock_data_length host bid length out)
  rw [List.take_of_length_le hall, payloadBlock_data]

namespace EncodedBlock

variable {host : Host} {bid : Nat} {bs : List UInt8} {mod mod' : Ppm0} {g : Frame} {out : List Nat}

/-- The words of the stop sequence, counted. -/
theorem length_out (h : EncodedBlock host bid bs mod mod' g out) :
    out.length = (g.shifts + 34) / 32 := by
  have hge := h.stopped.length_ge
  have hlt := h.stopped.length_lt
  omega

theorem word_payload (h : EncodedBlock host bid bs mod mod' g out) {j : Nat} (hj : j < out.length) :
    (payloadBlockSource host bid bs.length out).word j = out.getD j 0 := by
  rw [payloadBlockSource_word]
  exact wordAt_append host h.stopped.words_lt _ hj

/-- The code value of the block: the middle of the window, plus what is behind the payload. -/
theorem value (h : EncodedBlock host bid bs mod mod' g out) :
    (payloadBlockSource host bid bs.length out).code.value g.shifts = g.base + 2 ^ 31
      + wordAt host (malloc (host.heap bid) bs.length) out.length
        / 2 ^ (32 * out.length - g.shifts) := by
  have hbehind : (payloadBlockSource host bid bs.length out).word out.length
      = wordAt host (malloc (host.heap bid) bs.length) out.length := by
    rw [payloadBlockSource_word, wordAt, wordAt, List.drop_left' (length_wordBytes host out)]
  rw [h.stopped.value fun j hj => h.word_payload hj, hbehind]

/-- The block is decoded from a fresh state; the bytes come back if and only if the block spells a code
    value of their frame, and whatever comes back has the length of the block. -/
theorem blockDecode_spec (h : EncodedBlock host bid bs mod mod' g out) (hpos : 1 ≤ bs.length)
    (hlen : bs.length ≤ 2 ^ 27) :
    (∀ chrs, blockDecode host (payloadBlock host bid bs.length out) = .ok chrs →
      chrs.length = max bs.length (4 * out.length)) ∧
    (4 * out.length ≤ bs.length →
      (blockDecode host (payloadBlock host bid bs.length out) = .ok bs ↔
        (payloadBlockSource host bid bs.length out).code.Within g)) := by
  have hshifts := h.shifts_le
  have hwords := h.length_out
  have hlength : (payloadBlock host bid bs.length out).length = max bs.length (4 * out.length) := rfl
  obtain ⟨mod₁, arc, hnew, fresh, hdecoder, hready, hmod, htotal, hblock, hstop⟩ :=
    blockDecoderNew_ready host (payloadBlock_length_le host bid bs.length out)
  obtain rfl : mod = mod₁ := ok_unique h.fresh hnew
  have hscale : arc.mod.scale = 257 := by rw [hmod, fresh.scale_eq]
  rw [blockDecode, hdecoder, ok_bind, hblock]
  constructor
  · intro chrs hrun
    obtain ⟨left, hleft⟩ : ∃ left, (payloadBlock host bid bs.length out).length = left + 1 :=
      ⟨max bs.length (4 * out.length) - 1, by omega⟩
    rw [hleft] at hrun
    rw [decodeUntilEof_length hready (by omega) (by omega) (by omega) hstop hrun, ← hleft, hlength]
  · intro hfits
    have hmax : (payloadBlock host bid bs.length out).length = bs.length := by
      rw [hlength, Nat.max_eq_left hfits]
    have hlow := h.normal.1
    have habove : (payloadBlockSource host bid bs.length out).code.Above g := by
      unfold CodeValue.Above Frame.lower
      rw [h.value]
      generalize wordAt host (malloc (host.heap bid) bs.length) out.length / _ = behind
      omega
    have hne : bs ≠ [] := List.ne_nil_of_length_pos hpos
    rw [hmax]
    constructor
    · exact within_of_decodeUntilEof (blockSource_readable _) h.codes habove hne hmod hready (by omega)
        (by omega) hstop
    · intro hin
      exact decodeUntilEof_codes h.codes hne hmod hready hin (blockSource_readable _ _) (by omega)
        (by omega) hstop

end EncodedBlock

/-- The payload of one byte takes a word of four, so the block grows to the length four, and no run of
    the decoder gives the byte back. -/
theorem blockDecode_outgrown : ∃ blk, blockEncode littleHost 0 [65] = .ok blk ∧
    blockDecode littleHost blk ≠ .ok [65] := by
  obtain ⟨mod, mod', g, out, h⟩ := blockEncode_spec littleHost 0 [65] (by decide) (by decide)
  refine ⟨_, h.block, fun hrun => ?_⟩
  have hlength := (h.blockDecode_spec (by decide) (by decide)).1 [65] hrun
  have hwords := h.length_out
  have hone : ([65] : List UInt8).length = 1 := rfl
  omega

/-! ### The two sinks -/

/-- The coder on a fresh block leaves in the first bytes it has written what the coder on a file writes
    behind its header. Both runs return, whether the block has to grow or not. -/
theorem blockEncode_encode (host : Host) (bid : Nat) (bs : List UInt8) (hpos : 1 ≤ bs.length)
    (hlen : bs.length ≤ 2 ^ 27) :
    ∃ blk file, blockEncode host bid bs = .ok blk ∧ encode host bs = .ok file ∧
      file.length = 4 + blk.bytesWritten ∧ blk.data.take blk.bytesWritten = file.drop 4 := by
  obtain ⟨mod, mod', g, out, h⟩ := blockEncode_spec host bid bs hpos hlen
  obtain ⟨mod₁, mod₂, g', words, hnew, hcodes, hstopped, _, hfile⟩ := encode_exact host bs hpos hlen
  -- both coders start from the same model, and the bytes have one exact code
  obtain rfl : mod₁ = mod := ok_unique hnew h.fresh
  obtain ⟨_, rfl⟩ := Codes.deterministic (M := ByteSlice) ByteSlice.functional hcodes h.codes
  obtain rfl := hstopped.unique h.stopped
  have hheader : (u32Bytes host.order bs.length).length = 4 := length_u32Bytes _ _
  refine ⟨_, _, h.block, hfile, ?_, ?_⟩
  · rw [List.length_append, hheader, length_wordBytes]
    rfl
  · rw [List.drop_left' hheader, payloadBlock_data]
    exact List.take_left' (length_wordBytes host words)

/-- Seven bytes of three values: the payload of two words is longer than the block. -/
theorem blockEncode_encode_seven : ∃ blk file,
    blockEncode littleHost 0 [65, 66, 65, 67, 66, 65, 65] = .ok blk ∧
      encode littleHost [65, 66, 65, 67, 66, 65, 65] = .ok file ∧ file.length = 4 + blk.bytesWritten ∧
      blk.data.take blk.bytesWritten = file.drop 4 :=
  blockEncode_encode littleHost 0 [65, 66, 65, 67, 66, 65, 65] (by decide) (by decide)

end Dach
