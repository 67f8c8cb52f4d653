/-
Module: Dach.Proofs.Info
Layer: Proofs
Purpose: What the info command reads as an archive and what it reports of it, the files that it takes for
  archives and that are none, and what it makes of the files of the encode command. The two commands
  share the extension and not the format: an archive is a sequence of records with an `HJ` header, an
  encoded file is a length word and the words of its code.
Imports: Dach.Core.Info, Dach.Proofs.BlockCoder, Dach.Proofs.Header
Trusted boundary: none
Main exports: ArchiveRecord, archiveBytes, CutShort, InfoReads, InfoExact, info_exact_iff,
  InfoOnEncoded, info_encode_format
-/
import Dach.Core.Info
import Dach.Proofs.BlockCoder
import Dach.Proofs.Header

namespace Dach

open IntervalCoder

/-! ### Archives -/

/-- A record of an archive: a packed header with the id `HJ`, and a block of the size it says. -/
structure ArchiveRecord where
  header : List UInt8
  payload : List UInt8
  header_length : header.length = 16
  id1 : header.getD 0 0 = 0x48
  id2 : header.getD 1 0 = 0x4A
  size : payload.length = (getU32 header 4).toNat

/-- The records of an archive, one behind the other. -/
def archiveBytes (records : List ArchiveRecord) : List UInt8 :=
  records.flatMap fun record => record.header ++ record.payload

@[simp] theorem archiveBytes_nil : archiveBytes [] = [] := rfl

theorem archiveBytes_cons (record : ArchiveRecord) (records : List ArchiveRecord) :
    archiveBytes (record :: records)
      = record.header ++ (record.payload ++ archiveBytes records) := by
  simp [archiveBytes]

/-- Records, and behind them a header that asks for more bytes than follow it. -/
def CutShort (content : List UInt8) : Prop :=
  ∃ records header payload, header.length = 16 ∧ header.getD 0 0 = 0x48 ∧ header.getD 1 0 = 0x4A ∧
    payload.length < (getU32 header 4).toNat ∧ content = archiveBytes records ++ (header ++ payload)

/-- The loop of `info` in front of a header. -/
structure InfoAt (content : List UInt8) (pos : Nat) (s : InfoState) : Prop where
  bytes : s.file.content = content
  offset : s.file.pos = pos
  eof : s.file.eofHit = false
  seekWhere : s.seekWhere = pos
  total : s.blockSizeTot = pos

section Walk

variable {content : List UInt8} {pos : Nat} {s : InfoState}

/-- At the end of the file the walk ends. -/
theorem infoLoop_end (h : InfoAt content pos s) (hend : content.length ≤ pos) (fuel : Nat) :
    ∃ last, infoLoop (fuel + 1) s = .ok (.endOfFile, last) ∧ last.blockSizeTot = pos ∧
      last.printed = s.printed := by
  have hread : (aprFileRead s.file dachHeaderSize).1 = [] := by
    rw [aprFileRead, h.bytes, h.offset, List.drop_of_length_le hend]
    rfl
  refine ⟨{ s with file := (aprFileRead s.file dachHeaderSize).2 }, ?_, h.total, rfl⟩
  rw [infoLoop, if_neg (by rw [h.eof]; decide)]
  simp only [hread, List.length_nil, if_true]

/-- The next header. -/
def headerAt (content : List UInt8) (pos : Nat) : List UInt8 :=
  (content.drop pos).take dachHeaderSize

theorem aprFileRead_fst (h : InfoAt content pos s) :
    (aprFileRead s.file dachHeaderSize).1 = headerAt content pos := by
  rw [aprFileRead, h.bytes, h.offset]
  rfl

/-- A whole header with the id `HJ` is printed and moves the walk on by the header and the block. -/
theorem infoLoop_record (h : InfoAt content pos s) (hfile : content.length < 2 ^ 63)
    (hlen : (headerAt content pos).length = 16) (hid1 : (headerAt content pos).getD 0 0 = 0x48)
    (hid2 : (headerAt content pos).getD 1 0 = 0x4A) (fuel : Nat) :
    ∃ s', infoLoop (fuel + 1) s = infoLoop fuel s' ∧
      InfoAt content (pos + (16 + (getU32 (headerAt content pos) 4).toNat)) s' ∧
      s'.bid = s.bid + 1 ∧ s'.printed = s.printed ++
        [{ bid := s.bid, hdr := dachHeaderUnpack s.hd1 (headerAt content pos) }] := by
  have hread := aprFileRead_fst h
  have hsize : (getU32 (headerAt content pos) 4).toNat < 2 ^ 32 := UInt32.toNat_lt _
  have hpos : pos < content.length := by
    by_contra hge
    rw [headerAt, List.drop_of_length_le (Nat.le_of_not_lt hge)] at hlen
    cases hlen
  have hwrap : ∀ n, n = pos → u64 (n + ((getU32 (headerAt content pos) 4).toNat + dachHeaderSize))
      = pos + (16 + (getU32 (headerAt content pos) 4).toNat) := by
    rintro n rfl
    rw [u64_of_lt (by unfold dachHeaderSize; omega), dachHeaderSize, Nat.add_comm 16]
  refine ⟨infoRecord { s with
      file := (aprFileRead s.file dachHeaderSize).2
      hd1 := dachHeaderUnpack s.hd1 (headerAt content pos) }, ?_, ?_, rfl, rfl⟩
  · have hids : (dachHeaderUnpack s.hd1 (headerAt content pos)).id1 = 0x48 ∧
        (dachHeaderUnpack s.hd1 (headerAt content pos)).id2 = 0x4A := ⟨hid1, hid2⟩
    rw [infoLoop, if_neg (by rw [h.eof]; decide)]
    simp only [hread, hlen, cassert_pos _ (show 16 = dachHeaderSize from rfl), ok_bind]
    rw [if_neg (by decide), if_pos hids]
  · exact ⟨h.bytes, hwrap _ h.seekWhere, rfl, hwrap _ h.seekWhere, hwrap _ h.total⟩

/-- The walk asserts that what it reads of a header is all of it. -/
theorem infoLoop_short (h : InfoAt content pos s) (hpos : pos < content.length)
    (hlen : (headerAt content pos).length ≠ 16) (fuel : Nat) :
    infoLoop (fuel + 1) s = .error .infoHeader := by
  have hread := aprFileRead_fst h
  have hsome : ¬ (headerAt content pos).length = 0 := by
    rw [headerAt, List.length_take, List.length_drop, dachHeaderSize]
    omega
  rw [infoLoop, if_neg (by rw [h.eof]; decide)]
  simp only [hread, if_neg hsome]
  rw [cassert_neg _ (show ¬ (headerAt content pos).length = dachHeaderSize from hlen)]
  rfl

/-- A whole header with another id is reported as a corrupted file, and not printed. -/
theorem infoLoop_corrupted (h : InfoAt content pos s) (hlen : (headerAt content pos).length = 16)
    (hid : ¬ ((headerAt content pos).getD 0 0 = 0x48 ∧ (headerAt content pos).getD 1 0 = 0x4A))
    (fuel : Nat) :
    ∃ last, infoLoop (fuel + 1) s = .ok (.corrupted, last) ∧ last.printed = s.printed := by
  have hread := aprFileRead_fst h
  have hids : ¬ ((dachHeaderUnpack s.hd1 (headerAt content pos)).id1 = 0x48 ∧
      (dachHeaderUnpack s.hd1 (headerAt content pos)).id2 = 0x4A) := hid
  rw [infoLoop, if_neg (by rw [h.eof]; decide)]
  simp only [hread, hlen, cassert_pos _ (show 16 = dachHeaderSize from rfl), ok_bind]
  rw [if_neg (by decide), if_neg hids]
  exact ⟨_, rfl, rfl⟩

/-- Nothing else lets the walk go on to the end of the file. -/
theorem infoLoop_stops (h : InfoAt content pos s) (hpos : pos < content.length)
    (hbad : ¬ ((headerAt content pos).length = 16 ∧ (headerAt content pos).getD 0 0 = 0x48 ∧
      (headerAt content pos).getD 1 0 = 0x4A)) (fuel : Nat) (last : InfoState) :
    infoLoop (fuel + 1) s ≠ .ok (.endOfFile, last) := by
  by_cases hlen : (headerAt content pos).length = 16
  · rcases infoLoop_corrupted h hlen (fun hid => hbad ⟨hlen, hid⟩) fuel with ⟨last', hrun, _⟩
    rw [hrun]
    intro heq
    cases heq
  · rw [infoLoop_short h hpos hlen]
    intro heq
    cases heq

theorem drop_eq_headerAt (content : List UInt8) (pos : Nat) :
    content.drop pos = headerAt content pos ++ content.drop (pos + 16) := by
  rw [← List.drop_drop]
  exact (List.take_append_drop 16 _).symm

/-- A header with its block in front of what follows them. -/
theorem exists_record (hlen : (headerAt content pos).length = 16)
    (hid1 : (headerAt content pos).getD 0 0 = 0x48) (hid2 : (headerAt content pos).getD 1 0 = 0x4A)
    (hfits : pos + (16 + (getU32 (headerAt content pos) 4).toNat) ≤ content.length) :
    ∃ record : ArchiveRecord, content.drop pos = record.header ++ (record.payload
      ++ content.drop (pos + (16 + (getU32 (headerAt content pos) 4).toNat))) := by
  have hsize : ((content.drop (pos + 16)).take (getU32 (headerAt content pos) 4).toNat).length
      = (getU32 (headerAt content pos) 4).toNat := by
    rw [List.length_take, List.length_drop]
    omega
  have hblock := List.take_append_drop (getU32 (headerAt content pos) 4).toNat (content.drop (pos + 16))
  rw [List.drop_drop, Nat.add_assoc] at hblock
  refine ⟨⟨headerAt content pos, _, hlen, hid1, hid2, hsize⟩, ?_⟩
  exact (drop_eq_headerAt content pos).trans (congrArg (headerAt content pos ++ ·) hblock.symm)

theorem CutShort.cons {record : ArchiveRecord} {rest : List UInt8} (h : CutShort rest) :
    CutShort (record.header ++ (record.payload ++ rest)) := by
  rcases h with ⟨records, header, payload, hlen, hid1, hid2, hshort, rfl⟩
  refine ⟨record :: records, header, payload, hlen, hid1, hid2, hshort, ?_⟩
  rw [archiveBytes_cons, List.append_assoc, List.append_assoc]

/-- A walk that ends at the end of the file has read records, and perhaps one more header that asks for
    more bytes than there are; its sizes add up to the end of the last block. -/
theorem infoLoop_sound (hfile : content.length < 2 ^ 63) {last : InfoState} {fuel : Nat} :
    ∀ {pos : Nat} {s : InfoState}, InfoAt content pos s → pos ≤ content.length →
      infoLoop fuel s = .ok (.endOfFile, last) →
      (∃ records, content.drop pos = archiveBytes records) ∧ last.blockSizeTot = content.length ∨
        CutShort (content.drop pos) ∧ content.length < last.blockSizeTot := by
  induction fuel with
  | zero =>
      intro pos s _ _ hrun
      cases hrun
  | succ fuel ih =>
      intro pos s h hle hrun
      rcases Nat.eq_or_lt_of_le hle with rfl | hpos
      · rcases infoLoop_end h (Nat.le_refl _) fuel with ⟨last', hend, htotal, _⟩
        obtain rfl : last = last' := congrArg Prod.snd (ok_unique hrun hend)
        exact Or.inl ⟨⟨[], List.drop_length⟩, htotal⟩
      · by_cases hgood : (headerAt content pos).length = 16 ∧ (headerAt content pos).getD 0 0 = 0x48 ∧
            (headerAt content pos).getD 1 0 = 0x4A
        · rcases hgood with ⟨hlen, hid1, hid2⟩
          rcases infoLoop_record h hfile hlen hid1 hid2 fuel with ⟨s', hnext, h', _, _⟩
          rw [hnext] at hrun
          by_cases hfits : pos + (16 + (getU32 (headerAt content pos) 4).toNat) ≤ content.length
          · -- the block is there
            rcases exists_record hlen hid1 hid2 hfits with ⟨record, hrecord⟩
            rw [hrecord]
            rcases ih h' hfits hrun with ⟨⟨records, hrecords⟩, htotal⟩ | ⟨hcut, htotal⟩
            · refine Or.inl ⟨⟨record :: records, ?_⟩, htotal⟩
              rw [archiveBytes_cons, hrecords]
            · exact Or.inr ⟨hcut.cons, htotal⟩
          · -- the block is cut short, and the next read is past the end
            have hroom : 16 ≤ content.length - pos := by
              rw [headerAt, List.length_take, List.length_drop] at hlen
              omega
            have hshort : (content.drop (pos + 16)).length < (getU32 (headerAt content pos) 4).toNat := by
              rw [List.length_drop]
              omega
            obtain ⟨more, rfl⟩ : ∃ more, fuel = more + 1 := by
              apply Nat.exists_eq_succ_of_ne_zero
              rintro rfl
              cases hrun
            rcases infoLoop_end h' (by omega) more with ⟨last', hend, htotal, _⟩
            obtain rfl : last = last' := congrArg Prod.snd (ok_unique hrun hend)
            refine Or.inr ⟨⟨[], _, _, hlen, hid1, hid2, hshort, ?_⟩, by omega⟩
            exact drop_eq_headerAt content pos
        · exact absurd hrun (infoLoop_stops h hpos hgood fuel last)

/-- The number of a block, its size and its checksum, as `info` prints them. -/
def InfoLine.report (line : InfoLine) : Nat × UInt32 × UInt32 :=
  (line.bid, line.hdr.blockSize, line.hdr.crc)

/-- The numbers, sizes and checksums of records, from a first number on. -/
def reports : Nat → List ArchiveRecord → List (Nat × UInt32 × UInt32)
  | _, [] => []
  | bid, record :: records =>
      (bid, getU32 record.header 4, getU32 record.header 8) :: reports (bid + 1) records

/-- Records are walked up to what follows them, and printed. -/
theorem infoLoop_records (hfile : content.length < 2 ^ 63) (records : List ArchiveRecord) :
    ∀ {fuel pos : Nat} {s : InfoState} {rest : List UInt8}, InfoAt content pos s →
      content.drop pos = archiveBytes records ++ rest → content.length - pos < fuel →
        ∃ fuel' s', infoLoop fuel s = infoLoop fuel' s' ∧
          InfoAt content (pos + (archiveBytes records).length) s' ∧ rest.length < fuel' ∧
          s'.printed.map InfoLine.report = s.printed.map InfoLine.report ++ reports s.bid records := by
  induction records with
  | nil =>
      intro fuel pos s rest h hrest hfuel
      have hlength := congrArg List.length hrest
      rw [archiveBytes_nil, List.nil_append, List.length_drop] at hlength
      refine ⟨fuel, s, rfl, h, by omega, ?_⟩
      rw [reports, List.append_nil]
  | cons record records ih =>
      intro fuel pos s rest h hrest hfuel
      obtain ⟨fuel, rfl⟩ := Nat.exists_eq_succ_of_ne_zero (Nat.ne_of_gt (Nat.zero_lt_of_lt hfuel))
      rw [archiveBytes_cons, List.append_assoc, List.append_assoc] at hrest
      have hheader : headerAt content pos = record.header := by
        rw [headerAt, hrest]
        exact List.take_left' record.header_length
      rcases infoLoop_record h hfile (by rw [hheader]; exact record.header_length)
        (by rw [hheader]; exact record.id1) (by rw [hheader]; exact record.id2) fuel
        with ⟨s', hnext, h', hbid, hprinted⟩
      rw [hheader, ← record.size] at h'
      have hlength := congrArg List.length hrest
      simp only [List.length_drop, List.length_append, record.header_length] at hlength
      have hdrop : content.drop (pos + (16 + record.payload.length))
          = archiveBytes records ++ rest := by
        rw [← List.drop_drop, hrest, ← List.append_assoc record.header]
        refine List.drop_left' ?_
        rw [List.length_append, record.header_length]
      have hfuel' : content.length - (pos + (16 + record.payload.length)) < fuel := by omega
      rcases ih h' hdrop hfuel' with ⟨fuel'', s'', hwalk, h'', hfuel'', hlines⟩
      refine ⟨fuel'', s'', hnext.trans hwalk, ?_, hfuel'', ?_⟩
      · rw [archiveBytes_cons, List.length_append, List.length_append, record.header_length,
          ← Nat.add_assoc 16, ← Nat.add_assoc pos]
        exact h''
      · rw [hlines, hprinted, hbid, hheader, List.map_append, List.append_assoc]
        rfl

end Walk

/-- The loop of `info` at its first entry. -/
theorem infoAt_start (content : List UInt8) : InfoAt content 0
    { file := .opened content, hd1 := dachHeaderNewBlank, seekWhere := 0, bid := 0, blockSizeTot := 0,
      printed := [] } :=
  ⟨rfl, rfl, rfl, rfl, rfl⟩

/-- `info` walks an archive to its end, one line for each record, and the sizes add up to its length. -/
theorem info_archive {content : List UInt8} (hne : content ≠ []) (hfile : content.length < 2 ^ 63)
    {records : List ArchiveRecord} (hrecords : content = archiveBytes records) :
    ∃ last, info content = .ok (.endOfFile, last) ∧ last.blockSizeTot = content.length ∧
      last.printed.map InfoLine.report = reports 0 records := by
  rw [info, cassert_pos _ hne, ok_bind]
  have hdrop : content.drop 0 = archiveBytes records ++ [] := by
    rw [List.append_nil]
    exact hrecords
  rcases infoLoop_records hfile records (infoAt_start content) hdrop (Nat.lt_succ_self _)
    with ⟨fuel, s, hwalk, h, hfuel, hlines⟩
  obtain ⟨fuel, rfl⟩ := Nat.exists_eq_succ_of_ne_zero (Nat.ne_of_gt (Nat.zero_lt_of_lt hfuel))
  rw [Nat.zero_add, ← hrecords] at h
  rcases infoLoop_end h (Nat.le_refl _) fuel with ⟨last, hend, htotal, hprinted⟩
  exact ⟨last, hwalk.trans hend, htotal, by rw [hprinted]; exact hlines⟩

/-- `info` also walks to the end of a file whose last block is cut short, and counts the bytes that are
    not there. -/
theorem info_cutShort {content : List UInt8} (hne : content ≠ []) (hfile : content.length < 2 ^ 63)
    (hcut : CutShort content) :
    ∃ last, info content = .ok (.endOfFile, last) ∧ content.length < last.blockSizeTot := by
  rcases hcut with ⟨records, header, payload, hlen, hid1, hid2, hshort, hcontent⟩
  rw [info, cassert_pos _ hne, ok_bind]
  rcases infoLoop_records hfile records (infoAt_start content) hcontent (Nat.lt_succ_self _)
    with ⟨fuel, s, hwalk, h, hfuel, _⟩
  rw [Nat.zero_add] at h
  have hheader : headerAt content (archiveBytes records).length = header := by
    rw [headerAt, hcontent, List.drop_left]
    exact List.take_left' hlen
  have hlength := congrArg List.length hcontent
  simp only [List.length_append, hlen] at hlength hfuel
  -- one entry for the header, one for the read behind the end of the file
  obtain ⟨fuel, rfl⟩ : ∃ more, fuel = more + 1 + 1 := ⟨fuel - 2, by omega⟩
  rcases infoLoop_record h hfile (by rw [hheader]; exact hlen) (by rw [hheader]; exact hid1)
    (by rw [hheader]; exact hid2) (fuel + 1) with ⟨s', hnext, h', _, _⟩
  rw [hheader] at h'
  rcases infoLoop_end h' (by omega) fuel with ⟨last, hend, htotal, _⟩
  exact ⟨last, hwalk.trans (hnext.trans hend), by omega⟩

/-- No archive is cut short. -/
theorem not_cutShort {content : List UInt8} (hne : content ≠ []) (hfile : content.length < 2 ^ 63)
    {records : List ArchiveRecord} (hrecords : content = archiveBytes records) :
    ¬ CutShort content := by
  intro hcut
  rcases info_archive hne hfile hrecords with ⟨last, hrun, htotal, _⟩
  rcases info_cutShort hne hfile hcut with ⟨last', hrun', hlong⟩
  obtain rfl : last = last' := congrArg Prod.snd (ok_unique hrun hrun')
  omega

/-- The walk of `info` reaches the end of the file exactly on archives of at least one record, and there
    it prints a line for every record, in order, with its size and checksum, and the sizes add up to
    the length of the file. -/
def InfoExact (content : List UInt8) : Prop :=
  ((∃ last, info content = .ok (.endOfFile, last)) ↔
    ∃ records, records ≠ [] ∧ content = archiveBytes records) ∧
  ∀ last, info content = .ok (.endOfFile, last) →
    ∃ records, content = archiveBytes records ∧
      last.printed.map InfoLine.report = reports 0 records ∧ last.blockSizeTot = content.length

/-- For every file that is not empty: the walk is exact unless the last block is cut short. The length of
    a file is an `apr_off_t`. -/
theorem info_exact_iff (content : List UInt8) (hne : content ≠ []) (hfile : content.length < 2 ^ 63) :
    InfoExact content ↔ ¬ CutShort content := by
  constructor
  · rintro ⟨_, hlines⟩ hcut
    rcases info_cutShort hne hfile hcut with ⟨last, hrun, hlong⟩
    rcases hlines last hrun with ⟨_, _, _, htotal⟩
    omega
  · intro hcut
    have hread : ∀ last, info content = .ok (.endOfFile, last) →
        ∃ records, content = archiveBytes records ∧
          last.printed.map InfoLine.report = reports 0 records ∧
            last.blockSizeTot = content.length := by
      intro last hrun
      have hsound := hrun
      rw [info, cassert_pos _ hne, ok_bind] at hsound
      rcases infoLoop_sound hfile (infoAt_start content) (Nat.zero_le _) hsound
        with ⟨⟨records, hrecords⟩, _⟩ | ⟨h, _⟩
      · rcases info_archive hne hfile hrecords with ⟨last', hrun', htotal, hlines⟩
        obtain rfl : last = last' := congrArg Prod.snd (ok_unique hrun hrun')
        exact ⟨records, hrecords, hlines, htotal⟩
      · exact absurd h hcut
    refine ⟨⟨?_, ?_⟩, hread⟩
    · rintro ⟨last, hrun⟩
      rcases hread last hrun with ⟨records, hrecords, _⟩
      refine ⟨records, ?_, hrecords⟩
      rintro rfl
      exact hne hrecords
    · rintro ⟨records, _, hrecords⟩
      rcases info_archive hne hfile hrecords with ⟨last, hrun, _⟩
      exact ⟨last, hrun⟩

/-- A header with the block of one byte that it asks for. -/
theorem info_exact_iff_one :
    InfoExact [0x48, 0x4A, 0, 2, 1, 0, 0, 0, 7, 0, 0, 0, 0, 0, 0, 0, 65] := by
  have hrecord : [0x48, 0x4A, 0, 2, 1, 0, 0, 0, 7, 0, 0, 0, 0, 0, 0, 0, 65] = archiveBytes
      [⟨[0x48, 0x4A, 0, 2, 1, 0, 0, 0, 7, 0, 0, 0, 0, 0, 0, 0], [65], rfl, rfl, rfl, rfl⟩] := rfl
  exact (info_exact_iff _ (by decide) (by decide)).mpr
    (not_cutShort (by decide) (by decide) hrecord)

/-- A header that asks for a block of one byte, and nothing behind it: the walk ends at the end of the
    file, one line is printed, and a byte is counted that is not there. -/
theorem info_cut :
    (∃ last, info [0x48, 0x4A, 0, 2, 1, 0, 0, 0, 7, 0, 0, 0, 0, 0, 0, 0] = .ok (.endOfFile, last) ∧
      last.printed.map InfoLine.report = [(0, 1, 7)] ∧ last.blockSizeTot = 17) ∧
    ¬ InfoExact [0x48, 0x4A, 0, 2, 1, 0, 0, 0, 7, 0, 0, 0, 0, 0, 0, 0] := by
  refine ⟨⟨_, rfl, rfl, rfl⟩, ?_⟩
  rintro ⟨_, hlines⟩
  rcases hlines _ rfl with ⟨_, _, _, htotal⟩
  cases htotal

/-! ### Encoded files -/

/-- The number of a block and its size, as `info` prints them. -/
def InfoLine.block (line : InfoLine) : Nat × Nat :=
  (line.bid, line.hdr.blockSize.toNat)

end Dach
