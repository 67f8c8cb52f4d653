/-
Module: Dach.Proofs.DecodeMeaning
Layer: Proofs
Purpose: What the decode command makes of a file, whoever wrote it: the abstract decoder run on the code
  value of the payload, with the ranking of the bytes decoded so far as its model. With that, exactly
  which bytes may stand behind an encoded file.
Imports: Dach.Lib.IntervalDecoder, Dach.Proofs.Ranking, Dach.Proofs.Readers
Trusted boundary: none
Main exports: charDecoding, decodeLoop_untilEof, decodeUntilEof_of_decodes, decode_refines,
  decode_encode_append_iff
-/
import Dach.Lib.IntervalDecoder
import Dach.Proofs.Ranking
import Dach.Proofs.Readers

namespace Dach

open IntervalCoder Ranking

/-! ### The buffer of the command -/

/-- The buffer of `max_buf` bytes does not show: the loop leaves in the file and the buffer what the calls
    return one after the other, and ends early as they do. -/
theorem decodeLoop_untilEof (host : Host) (fuel : Nat) : ∀ (arc : Arc) (buf : List UInt8) (fdOut : CFile),
    (decodeLoop host fuel arc buf fdOut).map (fun result => (result.2.fwrite result.1).written)
      = (decodeUntilEof host fuel arc).map (fdOut.written ++ buf ++ ·) := by
  induction fuel with
  | zero =>
      intro arc buf fdOut
      rw [decodeLoop, decodeUntilEof]
      split
      · simp [Except.map, CFile.fwrite]
      · rfl
  | succ fuel ih =>
      intro arc buf fdOut
      rw [decodeLoop, decodeUntilEof]
      split
      · simp [Except.map, CFile.fwrite]
      · rcases hcall : dachDecode host arc with e | ⟨chr, next⟩
        · rfl
        · simp only [ok_bind]
          split
          · rw [ih next [] _]
            rcases decodeUntilEof host fuel next with e | chrs
            · rfl
            · simp [Except.map, CFile.fwrite]
          · rw [ih next _ fdOut]
            rcases decodeUntilEof host fuel next with e | chrs
            · rfl
            · simp [Except.map]

/-- The decode command, without its buffer. -/
theorem decode_untilEof (host : Host) (content : List UInt8) :
    decode host content =
      decoderNew host content >>= fun arc => decodeUntilEof host (arc.blocksize + 1) arc := by
  rw [decode]
  rcases decoderNew host content with e | arc
  · rfl
  · have hloop := decodeLoop_untilEof host (arc.blocksize + 1) arc [] (CFile.reading [])
    simp only [ok_bind]
    rcases hrun : decodeLoop host (arc.blocksize + 1) arc [] (CFile.reading []) with e | ⟨buf, fdOut⟩
    · rw [hrun] at hloop
      rcases huntil : decodeUntilEof host (arc.blocksize + 1) arc with e' | chrs
      · rw [huntil] at hloop
        exact congrArg Except.error (Except.error.inj hloop)
      · rw [huntil] at hloop
        cases hloop
    · rw [hrun] at hloop
      rcases huntil : decodeUntilEof host (arc.blocksize + 1) arc with e' | chrs
      · rw [huntil] at hloop
        cases hloop
      · rw [huntil] at hloop
        exact congrArg Except.ok (Except.ok.inj hloop)

/-! ### The abstract decoder -/

theorem reserved_mem_chars : 256 ∈ chars := mem_chars.mpr (Nat.le_refl _)

/-- The decoder over the bytes, whose state is the characters decoded so far. The reserved character is
    its mark, and is given out as a zero byte in the last place. -/
def charDecoding : Decoding (List Nat) UInt8 where
  letter := CharSlice
  mark history s := s = sliceOf chars history reserved_mem_chars
  pad := 0

/-- How the command reports the end of a decoding. -/
def decodeResult : DecodeEnd UInt8 → Except Abort (List UInt8)
  | .letters as => .ok as
  | .reserved => .error .decodeReserved
  | .exhausted => .error .bitinEof

theorem decodeResult_injective : Function.Injective decodeResult := by
  intro a b h
  cases a <;> cases b <;> first | rfl | cases h
  rfl

namespace Ppm0.RankedBy

variable {mod : Ppm0} {history history' : List Nat} {c : UInt8} {s : Slice}

theorem slice_eq (h : mod.RankedBy history) {c : Nat} (hc : c ∈ chars) {sym : Nat} (hsym : 1 ≤ sym)
    (hsym' : sym ≤ 257) (heq : mod.chrToSym c = sym) :
    sliceOf chars history hc = h.wf.slice hsym hsym' := by
  have hle := mem_chars.mp hc
  have hposition := h.chrToSym_eq hle
  rw [heq] at hposition
  subst hposition
  exact Slice.ext (h.cumAt_succ hle).symm (h.cumAt hle).symm h.scale.symm

theorem letter_slice (h : mod.RankedBy history) (letter : CharSlice history c s history')
    (hsym : 1 ≤ mod.chrToSym c.toNat) (hsym' : mod.chrToSym c.toNat ≤ 257) :
    s = h.wf.slice hsym hsym' := by
  obtain ⟨hc, rfl⟩ := letter.slice
  exact h.slice_eq hc hsym hsym' rfl

theorem mark_slice (h : mod.RankedBy history) (mark : charDecoding.mark history s) :
    s = @Ppm0.WF.slice _ h.wf 257 (by decide) (by decide) := by
  have hsym := h.wf.sym_chr 257 (by omega) (by omega)
  rw [h.reserved.1] at hsym
  exact mark.trans (h.slice_eq reserved_mem_chars (by omega) (by omega) hsym)

end Ppm0.RankedBy

section Step

variable {host : Host} {src : Source host} {arc : Arc} {f g : Frame} {history history' : List Nat}
  {c : UInt8} {s : Slice}

/-- A byte whose slice holds the code value is the one that is found. -/
theorem selected_letter (h : DecoderReady src f arc) (ranked : arc.mod.RankedBy history)
    (letter : CharSlice history c s history') (fits : 2 * s.scale ≤ 2 ^ 30 + 2)
    (within : src.code.Within (f.narrow s)) :
    Selected f arc (arc.mod.chrToSym c.toNat) ∧ arc.mod.chrToSym c.toNat ≤ 256 ∧
      arc.mod.symToChr (arc.mod.chrToSym c.toNat) = c.toNat := by
  obtain ⟨hpos, hle⟩ := h.model.sym_of_byte c
  have hslice := ranked.letter_slice letter hpos (by omega)
  rw [hslice] at within fits
  exact ⟨Selected.of_within h fits hpos (by omega) within, hle,
    h.model.wf.chr_sym _ (by have := c.toNat_lt; omega)⟩

/-- The reserved character is found when its slice holds the code value. -/
theorem selected_mark (h : DecoderReady src f arc) (ranked : arc.mod.RankedBy history)
    (mark : charDecoding.mark history s) (fits : 2 * s.scale ≤ 2 ^ 30 + 2)
    (within : src.code.Within (f.narrow s)) : Selected f arc 257 := by
  have hslice := ranked.mark_slice mark
  rw [hslice] at within fits
  exact Selected.of_within h fits (by omega) (by omega) within

/-- What a call before the last one does with a byte whose slice holds the code value: it is returned if
    the bits for the next frame are there. -/
theorem dachDecode_letter (host : Host) {src : Source host} (h : DecoderReady src f arc)
    (ranked : arc.mod.RankedBy history) (letter : CharSlice history c s history')
    (fits : 2 * s.scale ≤ 2 ^ 30 + 2)
    (within : src.code.Within (f.narrow s)) (head : Encodes (2 ^ 30) f s g)
    (hmore : arc.totalSyms + 1 < arc.blocksize) (hblock : arc.blocksize < 2 ^ 64) :
    (src.Readable (g.shifts + 32) → ∃ arc', dachDecode host arc = .ok (c.toNat, arc') ∧
      DecoderReady src g arc' ∧ arc'.mod.RankedBy history' ∧ arc'.mod.scale = arc.mod.scale + 1 ∧
      arc'.totalSyms = arc.totalSyms + 1 ∧ arc'.blocksize = arc.blocksize ∧ arc'.stop = arc.stop) ∧
    (¬ src.Readable (g.shifts + 32) → dachDecode host arc = .error .bitinEof) := by
  obtain ⟨hsel, hsym, hchr⟩ := selected_letter h ranked letter fits within
  have hslice := ranked.letter_slice letter hsel.pos hsel.le
  rw [hslice] at fits head
  obtain ⟨k, run⟩ := head
  have hscale : 2 * arc.mod.scale ≤ 2 ^ 30 + 2 := fits
  have hprod := h.noWrap_iff.mp (h.noWrap (by omega))
  obtain ⟨hok, hshort⟩ := dachDecode_more h hsel hsym hprod (by omega) hmore hblock
    (Frame.narrow_valid_of_normal h.normal fits) run
  refine ⟨fun hread => ?_, hshort⟩
  obtain ⟨arc', hcall, hready, hupdate, hnext, htotal, hblock', hstop⟩ := hok hread
  obtain ⟨mod', hupdate', hranked⟩ := ranked.update hsel.pos hsym (by omega)
  have hmod : arc'.mod = mod' := (Prod.ext_iff.mp (ok_unique hupdate hupdate')).2
  rw [hchr, ← letter.seen, ← hmod] at hranked
  exact ⟨arc', by rw [hcall, hchr], hready, hranked, hnext, htotal, hblock', hstop⟩

/-- The last call. -/
theorem dachDecode_end (h : DecoderReady src f arc) {sym : Nat} (hsel : Selected f arc sym)
    (hlast : arc.totalSyms + 1 = arc.blocksize) (hblock : arc.blocksize < 2 ^ 64)
    (hstop : arc.stop = false) :
    decodeUntilEof host 2 arc = .ok [UInt8.ofNat (arc.mod.symToChr sym)] := by
  rw [decodeUntilEof, dachEof, hstop, if_neg (by decide), dachDecode_last h hsel hlast hblock]
  simp only [ok_bind, decodeUntilEof, dachEof, if_true, pure_eq_ok, u8]
  rw [UInt8.ofNat_mod_size]

/-- The calls follow the abstract decoder. -/
theorem decodeUntilEof_of_decodes {n : Nat} {e : DecodeEnd UInt8}
    (run : charDecoding.Decodes (2 ^ 30) src.code (fun k => src.Readable (k + 32)) history f n e) :
    ∀ {arc : Arc}, DecoderReady src f arc → arc.mod.RankedBy history →
      arc.totalSyms + n = arc.blocksize → arc.blocksize < 2 ^ 64 → arc.stop = false →
        decodeUntilEof host (n + 1) arc = decodeResult e := by
  induction run with
  | @last history history' f c s letter fits within =>
      intro arc h ranked htotal hblock hstop
      obtain ⟨hsel, _, hchr⟩ := selected_letter h ranked letter fits within
      rw [dachDecode_end h hsel htotal hblock hstop, hchr, UInt8.ofNat_toNat]
      rfl
  | @lastMark history f s mark fits within =>
      intro arc h ranked htotal hblock hstop
      rw [dachDecode_end h (selected_mark h ranked mark fits within) htotal hblock hstop,
        ranked.reserved.1]
      rfl
  | @mark history f n s mark fits within =>
      intro arc h ranked htotal hblock hstop
      rw [decodeUntilEof, dachEof, hstop, if_neg (by decide), dachDecode_reserved h
        (selected_mark h ranked mark fits within) (by omega) hblock]
      rfl
  | @short history history' f g n c s letter fits within head unknown =>
      intro arc h ranked htotal hblock hstop
      rw [decodeUntilEof, dachEof, hstop, if_neg (by decide), (dachDecode_letter host h ranked letter fits
        within head (by omega) hblock).2 unknown]
      rfl
  | @more history history' f g n c s e letter fits within head known tail ih =>
      intro arc h ranked htotal hblock hstop
      obtain ⟨arc', hcall, hready, hranked, _, htotal', hblock', hstop'⟩ :=
        (dachDecode_letter host h ranked letter fits within head (by omega) hblock).1 known
      have hrest := ih hready hranked (by omega) (by omega) (hstop'.trans hstop)
      rw [decodeUntilEof, dachEof, hstop, if_neg (by decide), hcall]
      simp only [ok_bind, hrest, UInt8.ofNat_toNat]
      cases e <;> rfl

/-- The symbol that is found is the byte it stands for. -/
theorem selected_slice (h : DecoderReady src f arc) (ranked : arc.mod.RankedBy history) {sym : Nat}
    (hsel : Selected f arc sym) (hsym : sym ≤ 256) :
    ∃ c : UInt8, CharSlice history c (h.model.wf.slice hsel.pos hsel.le) (history ++ [c.toNat]) := by
  have hchr := h.model.symToChr_lt hsel.pos hsym
  have hback := h.model.wf.sym_chr sym hsel.pos hsel.le
  have hbyte : (UInt8.ofNat (arc.mod.symToChr sym)).toNat = arc.mod.symToChr sym :=
    UInt8.toNat_ofNat_of_lt' hchr
  refine ⟨UInt8.ofNat (arc.mod.symToChr sym), ?_, rfl⟩
  exact ⟨toNat_mem_chars _, (ranked.slice_eq (toNat_mem_chars _) hsel.pos hsel.le (by
    rw [hbyte, hback])).symm⟩

/-- The abstract decoder comes to an end on every code value. -/
theorem decodes_exists {n : Nat} : ∀ {arc : Arc} {f : Frame} {history : List Nat},
    DecoderReady src f arc → arc.mod.RankedBy history → 2 * (arc.mod.scale + n) ≤ 2 ^ 30 + 2 →
    arc.totalSyms + (n + 1) = arc.blocksize → arc.blocksize < 2 ^ 64 →
      ∃ e, charDecoding.Decodes (2 ^ 30) src.code (fun k => src.Readable (k + 32)) history f (n + 1) e := by
  induction n with
  | zero =>
      intro arc f history h ranked hfits htotal hblock
      obtain ⟨sym, hsel⟩ := h.selected (h.noWrap_iff.mp (h.noWrap (by omega)))
      have hwithin := hsel.within h.place h.model.wf
      by_cases hsym : sym ≤ 256
      · obtain ⟨c, hslice⟩ := selected_slice h ranked hsel hsym
        exact ⟨_, .last hslice hfits hwithin⟩
      · have hle := hsel.le
        obtain rfl : sym = 257 := by omega
        exact ⟨_, .lastMark (ranked.mark_slice rfl).symm hfits hwithin⟩
  | succ n ih =>
      intro arc f history h ranked hfits htotal hblock
      obtain ⟨sym, hsel⟩ := h.selected (h.noWrap_iff.mp (h.noWrap (by omega)))
      have hwithin := hsel.within h.place h.model.wf
      have hfits' : 2 * (h.model.wf.slice hsel.pos hsel.le).scale ≤ 2 ^ 30 + 2 :=
        le_trans (Nat.mul_le_mul_left 2 (Nat.le_add_right _ _)) hfits
      by_cases hsym : sym ≤ 256
      · obtain ⟨c, hslice⟩ := selected_slice h ranked hsel hsym
        obtain ⟨k, g, hrun⟩ := renorm_exists (Frame.narrow_valid_of_normal h.normal hfits')
        obtain ⟨hok, _⟩ := dachDecode_letter host h ranked hslice hfits' hwithin ⟨k, hrun⟩
          (by omega) hblock
        by_cases hread : src.Readable (g.shifts + 32)
        · obtain ⟨arc', _, hready, hranked, hscale, htotal', hblock', _⟩ := hok hread
          obtain ⟨e, hrest⟩ := ih hready hranked (by omega) (by omega) (by omega)
          exact ⟨_, .more hslice hfits' hwithin ⟨k, hrun⟩ hread hrest⟩
        · exact ⟨_, .short hslice hfits' hwithin ⟨k, hrun⟩ hread⟩
      · have hle := hsel.le
        obtain rfl : sym = 257 := by omega
        exact ⟨_, .mark (ranked.mark_slice rfl).symm hfits' hwithin⟩

end Step

/-! ### The command -/

/-- The calls of the command on a file whose header says `n`. -/
theorem decode_header (host : Host) {n : Nat} (hn : n < 2 ^ 32) (payload : List UInt8) :
    ∃ arc, DecoderReady (decodeSource host payload) (Frame.start (2 ^ 30)) arc ∧
      arc.mod.RankedBy [] ∧ arc.mod.scale = 257 ∧ arc.totalSyms = 0 ∧ arc.blocksize = n ∧
      arc.stop = false ∧
      decode host (withHeader host n payload) = decodeUntilEof host (n + 1) arc := by
  obtain ⟨mod, arc, _, fresh, hdecoder, hready, rfl, htotal, hblock, hstop⟩ :=
    decoderNew_ready host hn payload
  refine ⟨arc, hready, fresh.rankedBy, fresh.scale_eq, htotal, hblock, hstop, ?_⟩
  rw [decode_untilEof, hdecoder, ok_bind, hblock]

/-- For every file whose header says at least 1 and at most `2 ^ 29 - 256`, whatever stands behind the
    header, the decode command does what the abstract decoder does. -/
theorem decode_refines (host : Host) (n : Nat) (hpos : 1 ≤ n) (hlen : n ≤ 2 ^ 29 - 256)
    (payload : List UInt8) (e : DecodeEnd UInt8) :
    decode host (withHeader host n payload) = decodeResult e ↔
      charDecoding.Decodes (2 ^ 30) (decodeSource host payload).code
        (fun k => (decodeSource host payload).Readable (k + 32)) [] (Frame.start (2 ^ 30)) n e := by
  obtain ⟨arc, hready, hranked, hscale, htotal, hblock, hstop, hdecode⟩ :=
    decode_header host (n := n) (by omega) payload
  rw [hdecode]
  constructor
  · intro hresult
    obtain ⟨m, rfl⟩ : ∃ m, n = m + 1 := ⟨n - 1, by omega⟩
    obtain ⟨e', hrun⟩ := decodes_exists (n := m) hready hranked (by omega) (by omega)
      (by omega)
    have he := decodeUntilEof_of_decodes hrun hready hranked (by omega) (by omega) hstop
    rw [decodeResult_injective (hresult.symm.trans he)]
    exact hrun
  · intro hrun
    exact decodeUntilEof_of_decodes hrun hready hranked (by omega) (by omega) hstop

/-! ### Bytes behind an encoded file -/

/-- The reserved character, which no text has, has the lowest slice. -/
theorem mark_below {history history' : List Nat} {c : UInt8} {s r : Slice}
    (letter : CharSlice history c s history') (mark : charDecoding.mark history r)
    (hreserved : 256 ∉ history) : r.hi ≤ s.lo ∧ r.scale = s.scale := by
  obtain ⟨hc, rfl⟩ := letter.slice
  obtain rfl := mark
  have hlt := c.toNat_lt
  exact ⟨sliceOf_hi_le hc reserved_mem_chars (precedes_of_unseen hreserved hlt), rfl⟩

/-- The characters seen while bytes are coded. -/
theorem Codes.seen {history history' : List Nat} {f g : Frame} {data : List UInt8}
    (codes : Codes (2 ^ 30) CharSlice history f data history' g) :
    history' = history ++ data.map UInt8.toNat := by
  induction codes with
  | nil history f => simp
  | cons letter fits head tail ih =>
      rw [ih, letter.seen]
      simp

theorem reserved_not_seen (data : List UInt8) : 256 ∉ data.map UInt8.toNat := by
  intro hmem
  obtain ⟨c, _, hc⟩ := List.mem_map.mp hmem
  have := c.toNat_lt
  omega

/-- The word the decoder reads behind the words of a file is the first of what is appended. -/
theorem wordAt_append_length (host : Host) (words : List Nat) (tail : List UInt8) :
    wordAt host (wordBytes host words ++ tail) words.length = u32OfBytes host.order tail := by
  rw [wordAt, List.drop_left' (length_wordBytes host words)]

section Tail

variable {host : Host} {g : Frame} {words : List Nat}

/-- The appended bytes can only raise the code value, by what the window shows of their first word. -/
theorem Stopped.append_value (h : Stopped g words) (tail : List UInt8) :
    (decodeSource host (wordBytes host words ++ tail)).code.value g.shifts
      = g.base + 2 ^ 31 + u32OfBytes host.order tail / 2 ^ (32 * words.length - g.shifts) := by
  have hbefore : ∀ j < words.length,
      (decodeSource host (wordBytes host words ++ tail)).word j = words.getD j 0 :=
    fun j hj => wordAt_append host h.words_lt tail hj
  have hvalue := h.value hbefore
  have hword : (decodeSource host (wordBytes host words ++ tail)).word words.length
      = u32OfBytes host.order tail := wordAt_append_length host words tail
  rw [hword] at hvalue
  exact hvalue

theorem Stopped.append_above (h : Stopped g words) (hn : g.Normal (2 ^ 30)) (tail : List UInt8) :
    (decodeSource host (wordBytes host words ++ tail)).code.Above g := by
  have hlow := hn.1
  rw [CodeValue.Above, h.append_value, Frame.lower]
  generalize u32OfBytes host.order tail / 2 ^ (32 * words.length - g.shifts) = extra
  omega

theorem Stopped.append_within_iff (h : Stopped g words) (hn : g.Normal (2 ^ 30)) (tail : List UInt8) :
    (decodeSource host (wordBytes host words ++ tail)).code.Within g ↔
      2 ^ 31 + u32OfBytes host.order tail / 2 ^ (32 * words.length - g.shifts) ≤ g.high := by
  have hlow := hn.1
  rw [CodeValue.Within, h.append_value, Frame.lower, Frame.upper]
  generalize u32OfBytes host.order tail / 2 ^ (32 * words.length - g.shifts) = extra
  omega

theorem Stopped.append_readable (h : Stopped g words) (tail : List UInt8) :
    (decodeSource host (wordBytes host words ++ tail)).Readable (g.shifts + 32) := by
  have hlong := h.length_ge
  refine (fileSource_readable_iff host _ (CFile.reading [])).mpr ?_
  rw [List.length_append, length_wordBytes]
  omega

end Tail

/-- Exactly what may stand behind a file `encode` wrote: as much of the first appended word as the
    decoder's window shows after the last shift must not carry the code value out of the last interval.
    The rest of what is appended is not looked at. -/
theorem decode_encode_append_iff (host : Host) (data : List UInt8) (hpos : 1 ≤ data.length)
    (hlen : data.length ≤ 2 ^ 27) :
    ∃ content g words, encode host data = .ok content ∧
      Codes (2 ^ 30) CharSlice [] (Frame.start (2 ^ 30)) data (data.map UInt8.toNat) g ∧
      Stopped g words ∧ ∀ tail, decode host (content ++ tail) = .ok data ↔
        2 ^ 31 + u32OfBytes host.order tail / 2 ^ (32 * words.length - g.shifts) ≤ g.high := by
  obtain ⟨mod, mod', g, words, hnew, hcodes, hstopped, _, hencode⟩ := encode_exact host data hpos hlen
  obtain ⟨mod₀, hnew₀, fresh⟩ := dachPpm0New_fresh
  obtain rfl := ok_unique hnew hnew₀
  obtain ⟨hchars, _⟩ := Codes.rankedBy hcodes fresh.rankedBy
  refine ⟨_, g, words, hencode, hchars, hstopped, ?_⟩
  intro tail
  have hstart : (Frame.start (2 ^ 30)).Normal (2 ^ 30) := Frame.start_normal (by norm_num)
  have hnormal := hchars.normal hstart
  have hcontent : u32Bytes host.order data.length ++ wordBytes host words ++ tail
      = withHeader host data.length (wordBytes host words ++ tail) := List.append_assoc _ _ _
  rw [hcontent, ← hstopped.append_within_iff hnormal tail]
  -- the last byte is the one the code value may miss
  rcases List.eq_nil_or_concat' data with rfl | ⟨pre, c, rfl⟩
  · exact absurd hpos (by decide)
  have hresult : Except.ok (pre ++ [c]) = decodeResult (.letters (pre ++ [c])) := rfl
  have hcount : (pre ++ [c]).length = pre.length + 1 := List.length_append
  rw [hresult, decode_refines host _ hpos (by omega), hcount]
  apply Decoding.decodes_text_iff (m := 31) hstart (by norm_num) _ CharSlice.functional _ hchars
    (hstopped.append_readable tail) (hstopped.append_above hnormal tail)
  · intro k l hkl hread
    exact hread.mono (by omega)
  · intro t g' hpre sl ml letter mark
    apply mark_below letter mark
    rw [Codes.seen hpre]
    exact reserved_not_seen pre

/-- What may stand behind the file of seven bytes of three values. -/
theorem decode_encode_append_iff_seven : ∃ content g words,
    encode littleHost [65, 66, 65, 67, 66, 65, 65] = .ok content ∧
      Codes (2 ^ 30) CharSlice [] (Frame.start (2 ^ 30)) [65, 66, 65, 67, 66, 65, 65]
        [65, 66, 65, 67, 66, 65, 65] g ∧ Stopped g words ∧
      ∀ tail, decode littleHost (content ++ tail) = .ok [65, 66, 65, 67, 66, 65, 65] ↔
        2 ^ 31 + u32OfBytes .little tail / 2 ^ (32 * words.length - g.shifts) ≤ g.high :=
  decode_encode_append_iff littleHost [65, 66, 65, 67, 66, 65, 65] (by decide) (by decide)

end Dach
