/-
Module: Dach.Proofs.Portability
Layer: Proofs
Purpose: What a file means on another host. The coder sees its files as words only, so two hosts that
  hold the same words, each in its own byte order, take the same steps: a file is carried over by
  turning its words around, and only by that.
Imports: Dach.Proofs.Simulation, Dach.Proofs.Output, Dach.Proofs.DecodeMeaning
Trusted boundary: none
Main exports: FileAlike, FilesAlike, filesAlike_refills, filesAlike_flushes, decode_alike, encode_alike
-/
import Dach.Proofs.Simulation
import Dach.Proofs.Output
import Dach.Proofs.DecodeMeaning

namespace Dach

open Outcome

variable {host host' : Host}

/-! ### Files of words -/

/-- The same words are left in the files of two hosts, and the same words were written to them. -/
structure FileAlike (host host' : Host) (f f' : CFile) : Prop where
  unread : ∃ words, (∀ w ∈ words, w < 2 ^ 32) ∧ f.unread = wordBytes host words ∧
    f'.unread = wordBytes host' words
  feof : f'.feof = f.feof
  written : ∃ words, f.written = wordBytes host words ∧ f'.written = wordBytes host' words

theorem FileAlike.reading {words : List Nat} (hlt : ∀ w ∈ words, w < 2 ^ 32) :
    FileAlike host host' (CFile.reading (wordBytes host words))
      (CFile.reading (wordBytes host' words)) where
  unread := ⟨words, hlt, rfl, rfl⟩
  feof := rfl
  written := ⟨[], rfl, rfl⟩

theorem FileAlike.empty : FileAlike host host' (CFile.reading []) (CFile.reading []) where
  unread := ⟨[], by simp, rfl, rfl⟩
  feof := rfl
  written := ⟨[], rfl, rfl⟩

/-- Reading the next word. -/
theorem FileAlike.fread {f f' : CFile} (h : FileAlike host host' f f') :
    u32OfBytes host'.order (f'.fread 4).1 = u32OfBytes host.order (f.fread 4).1 ∧
      FileAlike host host' (f.fread 4).2 (f'.fread 4).2 := by
  obtain ⟨words, hlt, hunread, hunread'⟩ := h.unread
  cases words with
  | nil =>
      constructor
      · simp only [CFile.fread, hunread, hunread', wordBytes_nil, List.take_nil]
        cases host.order <;> cases host'.order <;> rfl
      · refine ⟨⟨[], by simp, ?_, ?_⟩, ?_, h.written⟩
        · simp [CFile.fread, hunread]
        · simp [CFile.fread, hunread']
        · simp [CFile.fread, hunread, hunread', h.feof]
  | cons w words =>
      have hw := hlt w (by simp)
      have hsplit : ∀ host : Host, wordBytes host (w :: words)
          = u32Bytes host.order w ++ wordBytes host words := fun _ => rfl
      have hlen : ∀ host : Host, (u32Bytes host.order w).length = 4 := fun _ => length_u32Bytes _ _
      constructor
      · simp only [CFile.fread, hunread, hunread', hsplit, List.take_left' (hlen _),
          u32OfBytes_u32Bytes]
      · refine ⟨⟨words, fun v hv => hlt v (by simp [hv]), ?_, ?_⟩, ?_, h.written⟩
        · simp only [CFile.fread, hunread, hsplit, List.drop_left' (hlen _)]
        · simp only [CFile.fread, hunread', hsplit, List.drop_left' (hlen _)]
        · simp only [CFile.fread, hunread, hunread', hsplit, List.length_append, hlen, length_wordBytes,
            h.feof]

/-- Writing a word. -/
theorem FileAlike.fwrite {f f' : CFile} (h : FileAlike host host' f f') (w : Nat) :
    FileAlike host host' (f.fwrite (u32Bytes host.order w)) (f'.fwrite (u32Bytes host'.order w)) where
  unread := h.unread
  feof := h.feof
  written := by
    obtain ⟨words, hwritten, hwritten'⟩ := h.written
    refine ⟨words ++ [w], ?_, ?_⟩
    · rw [CFile.fwrite, hwritten, wordBytes_append]
    · rw [CFile.fwrite, hwritten', wordBytes_append]

/-! ### The coder -/

/-- The files of two coders hold the same words. -/
inductive FilesAlike (host host' : Host) : ArcIo → ArcIo → Prop where
  | files {inp out inp' out' : CFile} (hinp : FileAlike host host' inp inp')
      (hout : FileAlike host host' out out') : FilesAlike host host' (.files inp out) (.files inp' out')

/-- Neither host stops before the other. -/
def Never : Abort → Prop := fun _ => False

theorem filesAlike_refills : RefillsAlike host host' Never (FilesAlike host host') := by
  intro arc io io' hio
  cases hio with
  | @files inp out inp' out' hinp hout =>
      obtain ⟨hword, hnext⟩ := hinp.fread
      unfold bitinWord
      refine Follows.bind_same _ fun _ => ?_
      simp only [hword, hnext.feof]
      exact Follows.ok (.mk { arc with
        ioBuffer := u32OfBytes host.order (inp.fread 4).1
        ioBufferFull := arc.ioBufferSize
        eofIn := arc.eofIn || (inp.fread 4).2.feof } (.files hnext hout))

theorem filesAlike_flushes : FlushesAlike host host' Never (FilesAlike host host') := by
  intro arc io io' hio
  cases hio with
  | files hinp hout => exact Follows.ok (.mk arc (.files hinp (hout.fwrite arc.ioBuffer)))

/-! ### The commands -/

/-- The encoder starts with the same header word. -/
theorem dachNewArcoder_alike_encode (mod : Ppm0) {blocksize : Nat} (hpos : blocksize ≠ 0) :
    Follows Never (ArcAlike (FilesAlike host host'))
      (dachNewArcoder host mod (CFile.reading []) (CFile.reading []) blocksize)
      (dachNewArcoder host' mod (CFile.reading []) (CFile.reading []) blocksize) := by
  have hempty : FileAlike host host' (CFile.reading []) (CFile.reading []) := FileAlike.empty
  unfold dachNewArcoder
  rw [if_neg hpos, if_neg hpos]
  refine Follows.bind_same _ fun _ => ?_
  exact Follows.ok (.mk (arcFresh mod (.files (CFile.reading []) (CFile.reading [])) blocksize)
    (.files hempty (hempty.fwrite (u32 blocksize))))

/-- The decoder reads the same header word. -/
theorem dachNewArcoder_alike_decode (mod : Ppm0) {inp inp' : CFile}
    (hinp : FileAlike host host' inp inp') :
    Follows Never (ArcAlike (FilesAlike host host')) (dachNewArcoder host mod inp (CFile.reading []) 0)
      (dachNewArcoder host' mod inp' (CFile.reading []) 0) := by
  have hempty : FileAlike host host' (CFile.reading []) (CFile.reading []) := FileAlike.empty
  obtain ⟨hword, hnext⟩ := hinp.fread
  unfold dachNewArcoder
  rw [if_pos rfl, if_pos rfl]
  simp only [dachReadHdrU32, hword]
  refine Follows.bind_same _ fun _ => ?_
  exact Follows.ok (.mk (arcFresh mod (.files (CFile.reading []) (CFile.reading [])) _)
    (.files hnext hempty))

theorem decodeUntilEof_alike (fuel : Nat) : ∀ {arc arc' : Arc}, ArcAlike (FilesAlike host host') arc arc' →
    Follows Never Eq (decodeUntilEof host fuel arc) (decodeUntilEof host' fuel arc') := by
  induction fuel with
  | zero =>
      intro arc arc' h
      cases h with
      | mk arc hio => exact Follows.same _
  | succ fuel ih =>
      intro arc arc' h
      cases h with
      | mk arc hio =>
          unfold decodeUntilEof
          refine Follows.ite (fun _ => Follows.ok rfl) fun _ => ?_
          refine Follows.bind (dachDecode_alike filesAlike_refills (.mk arc hio)) ?_
          rintro ⟨chr, a⟩ ⟨chr', b⟩ ⟨hchr, hab⟩
          obtain rfl : chr' = chr := hchr
          refine Follows.bind (ih hab) ?_
          rintro chrs _ rfl
          exact Follows.ok rfl

/-- What the decode command makes of a file of whole words, whoever wrote it, is the same on every host
    that holds these words. -/
theorem decode_alike (host host' : Host) (words : List Nat) (hlt : ∀ w ∈ words, w < 2 ^ 32) :
    decode host' (wordBytes host' words) = decode host (wordBytes host words) := by
  have hmatches : Follows Never Eq (decode host (wordBytes host words))
      (decode host' (wordBytes host' words)) := by
    rw [decode_untilEof, decode_untilEof]
    have hdecoder : Follows Never (ArcAlike (FilesAlike host host')) (decoderNew host (wordBytes host words))
        (decoderNew host' (wordBytes host' words)) := by
      unfold decoderNew
      generalize dachPpm0New = new
      refine Follows.bind_same new fun mod => ?_
      refine Follows.bind (dachNewArcoder_alike_decode mod (FileAlike.reading hlt)) ?_
      intro a b hab
      exact dachStartDecoder_alike filesAlike_refills hab
    refine Follows.bind hdecoder ?_
    intro a b hab
    have hblock : b.blocksize = a.blocksize := by
      cases hab
      rfl
    rw [hblock]
    exact decodeUntilEof_alike _ hab
  exact hmatches.matches.eq.symm

/-- A file of one byte, and a payload of two words, on a host of each kind. -/
theorem decode_alike_one :
    decode { littleHost with order := .big } (wordBytes { littleHost with order := .big } [1, 2 ^ 31, 5])
      = decode littleHost (wordBytes littleHost [1, 2 ^ 31, 5]) :=
  decode_alike littleHost { littleHost with order := .big } [1, 2 ^ 31, 5] (by decide)

/-- The files that the encode command writes on two hosts hold the same words, or both runs stop with the
    same error; this needs no bound on the length. -/
theorem encode_alike (host host' : Host) (data : List UInt8) :
    Matches (fun content content' => ∃ words, content = wordBytes host words ∧
      content' = wordBytes host' words) (encode host data) (encode host' data) := by
  refine Follows.matches ?_
  unfold encode
  refine Follows.ite (fun hpos => ?_) fun _ => Follows.ok ⟨[], rfl, rfl⟩
  have hencoder : Follows Never (ArcAlike (FilesAlike host host')) (encoderNew host data.length)
      (encoderNew host' data.length) := by
    unfold encoderNew
    generalize dachPpm0New = new
    refine Follows.bind_same new fun mod => ?_
    exact dachNewArcoder_alike_encode mod (Nat.ne_of_gt hpos)
  refine Follows.bind hencoder fun a b hab => ?_
  refine Follows.bind (encodeLoop_alike filesAlike_flushes data hab) ?_
  rintro ⟨_, a⟩ ⟨_, b⟩ ⟨_, hab⟩
  refine Follows.bind (dachStopEncoder_alike filesAlike_flushes hab) fun a b hab => ?_
  cases hab with
  | mk arc hio =>
      cases hio with
      | files hinp hout => exact Follows.ok hout.written

end Dach
