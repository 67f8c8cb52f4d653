/-
Module: Dach.Proofs.Preimage
Layer: Proofs
Purpose: All files that decode to given bytes. A file of any kind, also one that ends within its header, is
  decoded like its four header bytes, filled up with zeros, and what stands behind them. So decoding
  succeeds with some bytes exactly when the header counts them, the bits for all but the last are there,
  and the code value picks the last one; and no such file is more than two words shorter than the one
  `encode` writes.
Imports: Dach.Proofs.DecodeMeaning, Dach.Proofs.Termination
Trusted boundary: none
Main exports: decode_normalForm, decode_decodes_iff, decode_length, decode_ok_iff, encode_shortest
-/
import Dach.Proofs.DecodeMeaning
import Dach.Proofs.Termination

namespace Dach

open IntervalCoder Outcome

/-! ### Any file as a header and a payload -/

/-- The file of four header bytes that says what the first bytes of `content` say, and the bytes behind
    them. -/
def normalForm (host : Host) (content : List UInt8) : List UInt8 :=
  withHeader host (headerLength host content) (content.drop 4)

theorem headerLength_lt (host : Host) (content : List UInt8) : headerLength host content < 2 ^ 32 :=
  u32OfBytes_lt _ _

/-- The first refill does not show whether the header was cut short. -/
theorem bitinWord_short (host : Host) (arc : Arc) {short : Bool} {rest : List UInt8} {out : CFile}
    (hio : arc.io = .files { unread := rest, feof := short, written := [] } out)
    (hshort : short = true → rest = []) :
    bitinWord host arc = bitinWord host { arc with io := .files (CFile.reading rest) out } := by
  cases short with
  | false =>
      have hsame : arc = { arc with io := .files (CFile.reading rest) out } := by
        rw [CFile.reading, ← hio]
      exact congrArg (bitinWord host) hsame
  | true =>
      obtain rfl := hshort rfl
      simp [bitinWord, hio, CFile.reading, CFile.fread]

/-- The decoder starts on any file as on its normal form. -/
theorem decoderNew_normalForm (host : Host) (content : List UInt8) :
    decoderNew host content = decoderNew host (normalForm host content) := by
  obtain ⟨mod, hnew, fresh⟩ := dachPpm0New_fresh
  rw [decoderNew, decoderNew, hnew, ok_bind, ok_bind, normalForm,
    dachNewArcoder_decoder host fresh.scale_ne _ (headerLength_lt host content)]
  rw [dachNewArcoder, if_pos rfl]
  simp only [CFile.reading, CFile.fread, arcInit_ok fresh.scale_ne, ok_bind]
  rw [dachStartDecoder, dachStartDecoder, startLoop, startLoop]
  simp only [dachBitin, arcFresh, if_true]
  rw [bitinWord_short host _ rfl]
  · rfl
  · intro hcut
    exact List.drop_of_length_le (by simpa using Nat.le_of_lt (of_decide_eq_true hcut))

theorem decode_normalForm (host : Host) (content : List UInt8) :
    decode host content = decode host (normalForm host content) := by
  rw [decode, decode, decoderNew_normalForm]

/-- The bits a decoder of this file gets: those of the whole words behind the header, and one word more. -/
theorem readable_behind_iff (host : Host) (content : List UInt8) (bits : Nat) :
    (decodeSource host (content.drop 4)).Readable (bits + 32) ↔
      bits ≤ 32 * ((content.length - 4) / 4) := by
  rw [decodeSource, fileSource_readable_iff, List.length_drop]
  omega

/-- For every file whose header says at least 1 and at most `2 ^ 29 - 256`, also one that ends within its
    header, the decode command does what the abstract decoder does with the bytes behind it. -/
theorem decode_decodes_iff (host : Host) (content : List UInt8) (hpos : 1 ≤ headerLength host content)
    (hlen : headerLength host content ≤ 2 ^ 29 - 256) (e : DecodeEnd UInt8) :
    decode host content = decodeResult e ↔
      charDecoding.Decodes (2 ^ 30) (decodeSource host (content.drop 4)).code
        (fun k => k ≤ 32 * ((content.length - 4) / 4)) [] (Frame.start (2 ^ 30))
        (headerLength host content) e := by
  have hknown : (fun k => (decodeSource host (content.drop 4)).Readable (k + 32))
      = fun k => k ≤ 32 * ((content.length - 4) / 4) := by
    funext k
    exact propext (readable_behind_iff host content k)
  rw [decode_normalForm, normalForm, decode_refines host _ hpos hlen, hknown]

/-- A file of two words, decoded to four bytes of three values. -/
theorem decode_decodes_iff_four :
    charDecoding.Decodes (2 ^ 30) (decodeSource littleHost [8, 1, 255, 254, 0, 0, 0, 0]).code
      (fun k => k ≤ 64) [] (Frame.start (2 ^ 30)) 4 (.letters [1, 0, 2, 1]) := by
  have hdecode : decode littleHost [4, 0, 0, 0, 8, 1, 255, 254, 0, 0, 0, 0]
      = decodeResult (.letters [1, 0, 2, 1]) := by
    decide +kernel
  have hiff := decode_decodes_iff littleHost [4, 0, 0, 0, 8, 1, 255, 254, 0, 0, 0, 0] (by decide) (by decide)
    (.letters [1, 0, 2, 1])
  exact hiff.mp hdecode

/-! ### What a decoded file says -/

/-- A file that is decoded is decoded to as many bytes as its header says, and to one at least. -/
theorem decode_length {host : Host} {content data : List UInt8} (h : decode host content = .ok data) :
    data.length = headerLength host content ∧ 1 ≤ headerLength host content := by
  obtain ⟨arc, hnew, h⟩ := bind_eq_ok.mp h
  obtain ⟨⟨buf, fdOut⟩, hloop, h⟩ := bind_eq_ok.mp h
  cases h
  obtain ⟨hblock, hinv⟩ := (decoderNew_ends host content).2 arc hnew
  have hlength := (decodeLoop_ends host hinv (show max arc.blocksize 1 ≤ arc.totalSyms
    + (arc.blocksize + 1) by omega)).2 _ hloop
  refine ⟨hlength.trans hblock, ?_⟩
  by_contra hzero
  -- the first call would count a symbol of none
  have hstop : arc.stop = false := by
    rw [← Bool.not_eq_true, hinv.stop]
    omega
  rw [decodeLoop, dachEof, hstop, if_neg (by decide)] at hloop
  obtain ⟨⟨chr, next⟩, hcall, _⟩ := bind_eq_ok.mp hloop
  have hcounts := (dachDecode_ends arc).2 _ hcall
  have htotal : next.totalSyms = u64 (arc.totalSyms + 1) := hcounts.totalSyms
  have hle : next.totalSyms ≤ arc.blocksize := hcounts.le
  have hnone := hinv.le
  simp only [u64] at htotal
  omega

/-- The files that are decoded to some bytes: the header counts them, the bits are there for the frame of
    all but the last, and the code value picks the last one in it. -/
theorem decode_ok_iff (host : Host) (content data : List UInt8) (hlen : data.length ≤ 2 ^ 29 - 256) :
    decode host content = .ok data ↔ headerLength host content = data.length ∧
      ∃ pre c g, data = pre ++ [c] ∧
        Codes (2 ^ 30) CharSlice [] (Frame.start (2 ^ 30)) pre (pre.map UInt8.toNat) g ∧
        g.shifts ≤ 32 * ((content.length - 4) / 4) ∧
        Decoding.LastSelected charDecoding (2 ^ 30) (decodeSource host (content.drop 4)).code
          (pre.map UInt8.toNat) g c := by
  have hstart : (Frame.start (2 ^ 30)).Normal (2 ^ 30) := Frame.start_normal (by norm_num)
  have hknown := readable_behind_iff host content
  have hmono : ∀ {k l}, k ≤ l → (decodeSource host (content.drop 4)).Readable (l + 32) →
      (decodeSource host (content.drop 4)).Readable (k + 32) :=
    fun hle hread => hread.mono (Nat.add_le_add_right hle 32)
  have hfirst : (decodeSource host (content.drop 4)).Readable ((Frame.start (2 ^ 30)).shifts + 32) :=
    (hknown _).mpr (by simp [Frame.start])
  have hletters := Decoding.decodes_letters_iff (D := charDecoding)
    (d := (decodeSource host (content.drop 4)).code) (s := []) (n := data.length) (m := 31) (w := data)
    hstart (by norm_num) hmono hfirst
  constructor
  · intro h
    obtain ⟨hheader, hpos⟩ := decode_length h
    rw [decode_normalForm, normalForm, ← hheader] at h
    obtain ⟨pre, c, history, g, hdata, _, hcodes, hread, hlast⟩ :=
      hletters.mp ((decode_refines host data.length (by omega) hlen _ (.letters data)).mp h)
    obtain rfl : history = pre.map UInt8.toNat := Codes.seen hcodes
    exact ⟨hheader.symm, pre, c, g, hdata, hcodes, (hknown _).mp hread, hlast⟩
  · rintro ⟨hheader, pre, c, g, hdata, hcodes, hread, hlast⟩
    have hpos : 1 ≤ data.length := by simp [hdata]
    rw [decode_normalForm, normalForm, hheader]
    refine (decode_refines host data.length hpos hlen _ (.letters data)).mpr (hletters.mpr ?_)
    exact ⟨pre, c, _, g, hdata, by simp [hdata], hcodes, (hknown _).mpr hread, hlast⟩

/-! ### The shortest file -/

/-- Whatever file is decoded to the bytes, the one `encode` writes for them is at most two words longer. -/
theorem encode_shortest (host : Host) (file data : List UInt8) (hlen : data.length ≤ 2 ^ 27)
    (h : decode host file = .ok data) :
    ∃ content, encode host data = .ok content ∧ content.length ≤ max 4 file.length + 8 := by
  obtain ⟨hheader, pre, c, g, rfl, hpre, hread, _⟩ := (decode_ok_iff host file data (by omega)).mp h
  obtain ⟨mod, mod', g', words, hnew, hcodes, hstopped, _, hencode⟩ :=
    encode_exact host (pre ++ [c]) (by simp) hlen
  obtain ⟨mod₀, hnew₀, fresh⟩ := dachPpm0New_fresh
  obtain rfl := ok_unique hnew hnew₀
  -- the last byte adds one renormalisation to the frame the decoder has to know
  obtain ⟨hchars, _⟩ := Codes.rankedBy hcodes fresh.rankedBy
  obtain ⟨history, g'', sl, hpre', letter, fits, head⟩ := hchars.concat_inv
  have hstart : (Frame.start (2 ^ 30)).Normal (2 ^ 30) := Frame.start_normal (by norm_num)
  obtain rfl := (Codes.deterministic (M := CharSlice) CharSlice.functional hpre hpre').2
  have hlast := (head.shifts_le (m := 31) (hpre.normal hstart) fits (by norm_num)).2
  have hshort := hstopped.length_lt
  refine ⟨_, hencode, ?_⟩
  rw [length_encoded]
  omega

/-- One zero byte is decoded from a file without a payload. -/
theorem encode_shortest_one : decode littleHost [1] = .ok [0] ∧
    ∃ content, encode littleHost [0] = .ok content ∧ content.length ≤ 12 := by
  have hdecode : decode littleHost [1] = .ok [0] := by decide +kernel
  exact ⟨hdecode, encode_shortest littleHost [1] [0] (by decide) hdecode⟩

end Dach
