/-
Module: Dach.Proofs.Digest
Layer: Proofs
Purpose: The digests in the table of fdb: reading a file in pieces gives the digest of its content, its text
  determines it, and so two rows have the same text exactly where their files have the same digest.
Imports: Dach.Core.Digest, Dach.Proofs.FdbRuns
Trusted boundary: `Md5.Streams`, the documented behaviour of MD5_Update on consecutive pieces
Main exports: Md5.Streams, Md5.digest, hexText, hexText_inj, ioMd5_eq, boundMd5_eq, fdbRun_digests
-/
import Dach.Core.Digest
import Dach.Proofs.FdbRuns

namespace Dach

open Transition

variable {Ctx : Type} {md5 : Md5 Ctx}

/-! ### Reading in pieces -/

/-- A digest is one of all bytes that have been given, in whatever pieces. -/
structure Md5.Streams (md5 : Md5 Ctx) : Prop where
  nil : ∀ ctx, md5.update ctx [] = ctx
  append : ∀ ctx one two, md5.update (md5.update ctx one) two = md5.update ctx (one ++ two)

/-- The digest of some bytes. -/
def Md5.digest (md5 : Md5 Ctx) (content : List UInt8) : Vector UInt8 16 :=
  md5.final (md5.update md5.init content)

theorem md5Loop_eq (streams : md5.Streams) (fuel : Nat) : ∀ (ctx : Ctx) (fp : CFile),
    fp.unread.length < fuel → ∃ passes fp',
      Loop.forever .loopForever (md5Pass md5) fuel (ctx, fp)
        = .ok (passes, md5.update ctx fp.unread, fp') := by
  induction fuel with
  | zero =>
      intro ctx fp hfuel
      omega
  | succ fuel ih =>
      intro ctx fp hfuel
      by_cases hempty : fp.unread = []
      · have hbreak : md5Pass md5 (ctx, fp) = .ok none := by
          simp [md5Pass, CFile.fread, hempty]
        refine ⟨0, fp, ?_⟩
        rw [Loop.forever_of_break hbreak, hempty, streams.nil]
      · have hlength : 0 < fp.unread.length := List.length_pos_iff.mpr hempty
        have hpass : md5Pass md5 (ctx, fp)
            = .ok (some (md5.update ctx (fp.unread.take 8192), (fp.fread 8192).2)) := by
          have htake : (fp.unread.take 8192).length ≠ 0 := by
            rw [List.length_take]
            omega
          exact if_pos htake
        have hshort : (fp.fread 8192).2.unread.length < fuel := by
          simp only [CFile.fread, List.length_drop]
          omega
        obtain ⟨passes, fp', hrest⟩ := ih (md5.update ctx (fp.unread.take 8192)) (fp.fread 8192).2 hshort
        refine ⟨passes + 1, fp', ?_⟩
        rw [Loop.forever_of_next_ok hpass hrest, streams.append,
          show (fp.fread 8192).2.unread = fp.unread.drop 8192 from rfl, List.take_append_drop]

/-! ### The text -/

/-- The two digits of a byte. -/
def hexPair (b : UInt8) : List UInt8 := [hexchar (b.toNat >>> 4), hexchar (b.toNat &&& 0xF)]

/-- The digits of some bytes. -/
def hexText (bytes : List UInt8) : List UInt8 := bytes.flatMap hexPair

theorem length_hexText (bytes : List UInt8) : (hexText bytes).length = 2 * bytes.length := by
  induction bytes with
  | nil => rfl
  | cons b bytes ih =>
      rw [hexText, List.flatMap_cons, List.length_append, List.length_cons]
      have htail : (bytes.flatMap hexPair).length = 2 * bytes.length := ih
      rw [htail]
      show 2 + _ = _
      omega

theorem hexchar_inj : ∀ m < 16, ∀ n < 16, hexchar m = hexchar n → m = n := by decide

theorem hexPair_inj {a b : UInt8} (h : hexPair a = hexPair b) : a = b := by
  have ha := a.toNat_lt
  have hb := b.toNat_lt
  simp only [hexPair, List.cons.injEq, and_true, Nat.shiftRight_eq_div_pow,
    Nat.and_two_pow_sub_one_eq_mod _ 4] at h
  have hhigh := hexchar_inj _ (by omega) _ (by omega) h.1
  have hlow := hexchar_inj _ (by omega) _ (by omega) h.2
  apply UInt8.toNat_inj.mp
  omega

/-- The text determines the bytes. -/
theorem hexText_inj {one two : List UInt8} (h : hexText one = hexText two) : one = two := by
  induction one generalizing two with
  | nil =>
      have hlength := congrArg List.length h
      rw [length_hexText, length_hexText] at hlength
      exact (List.length_eq_zero_iff.mp (by simpa using hlength.symm)).symm
  | cons a one ih =>
      cases two with
      | nil =>
          have hlength := congrArg List.length h
          rw [length_hexText, length_hexText] at hlength
          simp at hlength
      | cons b two =>
          have hsplit : hexPair a ++ hexText one = hexPair b ++ hexText two := h
          obtain ⟨hhead, htail⟩ := List.append_inj hsplit rfl
          rw [hexPair_inj hhead, ih htail]

theorem set_pair {l : List UInt8} {n : Nat} (x y : UInt8) (h : n + 2 ≤ l.length) :
    (l.set n x).set (n + 1) y = l.take n ++ [x, y] ++ l.drop (n + 2) := by
  have htake : (l.take n).length = n := List.length_take_of_le (by omega)
  have hsplit : l = l.take n ++ l[n] :: l[n + 1] :: l.drop (n + 2) := by
    rw [List.getElem_cons_drop, List.getElem_cons_drop, List.take_append_drop]
  calc (l.set n x).set (n + 1) y
      = ((l.take n ++ l[n] :: l[n + 1] :: l.drop (n + 2)).set n x).set (n + 1) y := by rw [← hsplit]
    _ = l.take n ++ x :: y :: l.drop (n + 2) := by
        rw [List.set_append_right _ _ (by omega), List.set_append_right _ _ (by omega), htake,
          Nat.sub_self, Nat.add_sub_cancel_left]
        rfl
    _ = l.take n ++ [x, y] ++ l.drop (n + 2) := by rw [List.append_assoc, List.cons_append,
        List.singleton_append]

/-- The digits replace what is in `out`. -/
theorem writeHex_eq (c : List UInt8) : ∀ (n : Nat) (out : List UInt8), n + 2 * c.length ≤ out.length →
    writeHex c n out = out.take n ++ hexText c ++ out.drop (n + 2 * c.length) := by
  induction c with
  | nil =>
      intro n out _
      simp [writeHex, hexText]
  | cons b c ih =>
      intro n out hroom
      have hcons : (b :: c).length = c.length + 1 := List.length_cons
      rw [hcons] at hroom ⊢
      have hset := set_pair (hexchar (b.toNat >>> 4)) (hexchar (b.toNat &&& 0xF))
        (show n + 2 ≤ out.length by omega)
      have hlen : (out.take n ++ hexPair b).length = n + 2 := by
        rw [List.length_append, List.length_take]
        show min n out.length + 2 = n + 2
        omega
      have hnext := ih (n + 2) (out.take n ++ hexPair b ++ out.drop (n + 2)) (by
        rw [List.length_append, hlen, List.length_drop]
        omega)
      calc writeHex (b :: c) n out
          = writeHex c (n + 2) (out.take n ++ hexPair b ++ out.drop (n + 2)) := by
            rw [writeHex, hset]
            rfl
        _ = out.take n ++ hexPair b ++ hexText c ++ out.drop (n + 2 + 2 * c.length) := by
            rw [hnext, List.take_left' hlen, List.drop_append, hlen,
              List.drop_eq_nil_of_le (by omega), List.nil_append, List.drop_drop,
              show n + 2 + (n + 2 + 2 * c.length - (n + 2)) = n + 2 + 2 * c.length by omega]
        _ = out.take n ++ hexText (b :: c) ++ out.drop (n + 2 * (c.length + 1)) := by
            rw [show n + 2 + 2 * c.length = n + 2 * (c.length + 1) by omega,
              List.append_assoc (out.take n)]
            rfl

/-- The digest of what can be opened, as text with its end. -/
theorem ioMd5_eq (streams : md5.Streams) (content : List UInt8) {out : List UInt8}
    (hout : 33 ≤ out.length) :
    ioMd5 md5 (some content) out
      = .ok (0, hexText (md5.digest content).toList ++ 0 :: out.drop 33) := by
  have hdigits : (md5.digest content).toList.length = 16 := Vector.length_toList
  obtain ⟨passes, fp, hloop⟩ := md5Loop_eq streams (content.length + 1) md5.init
    (CFile.reading content) (Nat.lt_succ_self content.length)
  have hwrite : writeHex (md5.digest content).toList 0 out
      = hexText (md5.digest content).toList ++ out.drop 32 := by
    rw [writeHex_eq _ 0 out (by omega), hdigits]
    rfl
  have hend : (hexText (md5.digest content).toList ++ out.drop 32).set 32 0
      = hexText (md5.digest content).toList ++ 0 :: out.drop 33 := by
    rw [List.set_append_right _ _ (by rw [length_hexText]; omega), length_hexText, hdigits,
      List.drop_eq_getElem_cons (show 32 < out.length by omega)]
    rfl
  have hrun : ioMd5 md5 (some content) out
      = .ok (0, (writeHex (md5.digest content).toList 0 out).set 32 0) := by
    rw [ioMd5]
    simp only [hloop]
    rfl
  rw [hrun, hwrite, hend]

theorem boundMd5_eq (streams : md5.Streams) {file : Option (List UInt8)} {buf : List UInt8}
    (hbuf : 33 ≤ buf.length) :
    boundMd5 md5 file buf = file.map fun content => hexText (md5.digest content).toList := by
  cases file with
  | none => rfl
  | some content =>
      have hlength : (hexText (md5.digest content).toList).length = 32 := by
        rw [length_hexText, Vector.length_toList]
      rw [boundMd5, ioMd5_eq streams content hbuf]
      simp only [Option.map_some]
      rw [if_neg (by decide), List.take_left' hlength]

/-! ### The table -/

section Table

variable {fs : FileSystem} {files : CString → Option (List UInt8)} {buf : List UInt8} {root : CString}
  {s : FdbState}

/-- In an undisturbed run a row has the digest of the content of the file it names, as text. -/
theorem FdbExact.digest (streams : md5.Streams) (hbuf : buf.length = 40)
    (h : FdbExact (withMd5 fs md5 files buf) root s) {row : FdbRow} (hrow : row ∈ s.fdbFiles) :
    ∃ path content, row.fname = path.bytes ∧ files path = some content ∧
      row.md5Full = hexText (md5.digest content).toList := by
  obtain ⟨path, hname, _, hmd5⟩ := h.exact row hrow
  have hbound : (files path).map (fun content => hexText (md5.digest content).toList)
      = some row.md5Full := by
    have hroom : 33 ≤ buf.length := by omega
    rw [← boundMd5_eq streams hroom]
    exact hmd5
  obtain ⟨content, hfile, htext⟩ := Option.map_eq_some_iff.mp hbound
  exact ⟨path, content, hname, hfile, htext.symm⟩

/-- What the table is for: in an undisturbed run two rows have the same text exactly where the files they
    name have the same digest, however many reads their contents took and whatever the stack held. -/
theorem fdbRun_digests (streams : md5.Streams) (hbuf : buf.length = 40)
    (run : Run (fdbStep (withMd5 fs md5 files buf)) Undisturbed
      (fdbStart (withMd5 fs md5 files buf) root) s) :
    ∀ row ∈ s.fdbFiles, ∀ row' ∈ s.fdbFiles, ∃ path path' content content',
      row.fname = path.bytes ∧ row'.fname = path'.bytes ∧
      files path = some content ∧ files path' = some content' ∧
      row.md5Full = hexText (md5.digest content).toList ∧
      (row.md5Full = row'.md5Full ↔ md5.digest content = md5.digest content') := by
  have hexact := FdbExact.run (run.mono fun _ _ => Undisturbed.worksIntact)
  intro row hrow row' hrow'
  obtain ⟨path, content, hname, hfile, htext⟩ := hexact.digest streams hbuf hrow
  obtain ⟨path', content', hname', hfile', htext'⟩ := hexact.digest streams hbuf hrow'
  refine ⟨path, path', content, content', hname, hname', hfile, hfile', htext, ?_⟩
  rw [htext, htext']
  constructor
  · intro hsame
    exact Vector.toList_inj.mp (hexText_inj hsame)
  · intro hsame
    rw [hsame]

end Table

/-- MD5 on the contents of the two files. -/
def md5OfTwo : Md5 (List UInt8) where
  init := []
  update ctx data := ctx ++ data
  final ctx :=
    if ctx = [65] then
      #v[127, 197, 98, 112, 231, 167, 15, 168, 26, 89, 53, 183, 46, 172, 190, 41]
    else if ctx = [65, 66] then
      #v[184, 111, 198, 176, 81, 246, 61, 115, 222, 38, 45, 76, 52, 227, 160, 169]
    else Vector.replicate 16 0

def contentsOfTwo (path : CString) : Option (List UInt8) :=
  if path = fileA.path then some [65] else if path = fileB.path then some [65, 66] else none

/-- Both files are read and entered, with different texts. -/
theorem fdbRun_digests_two :
    ∃ s, Run (fdbStep (withMd5 twoFiles md5OfTwo contentsOfTwo (List.replicate 40 0))) Undisturbed
        (fdbStart (withMd5 twoFiles md5OfTwo contentsOfTwo (List.replicate 40 0)) dirD) s ∧
      s.fdbFiles.length = 2 ∧
      ∀ row ∈ s.fdbFiles, ∀ row' ∈ s.fdbFiles, ∃ path path' content content',
        row.fname = path.bytes ∧ row'.fname = path'.bytes ∧
        contentsOfTwo path = some content ∧ contentsOfTwo path' = some content' ∧
        row.md5Full = hexText (md5OfTwo.digest content).toList ∧
        (row.md5Full = row'.md5Full ↔ md5OfTwo.digest content = md5OfTwo.digest content') := by
  have streams : md5OfTwo.Streams := by
    refine ⟨?_, ?_⟩
    · intro ctx
      exact List.append_nil ctx
    · intro ctx one two
      exact List.append_assoc ctx one two
  have hrun : ∃ s, Run (fdbStep (withMd5 twoFiles md5OfTwo contentsOfTwo (List.replicate 40 0)))
      Undisturbed (fdbStart (withMd5 twoFiles md5OfTwo contentsOfTwo (List.replicate 40 0)) dirD) s ∧
      s.fdbFiles.length = 2 := by
    apply exists_run_of_follow [.walk, .walk, .take 0, .work 0, .work 0, .work 0, .walk, .walk, .take 0,
      .work 0, .work 0, .work 0, .walk, .cancel, .destroy]
    decide +kernel
  rcases hrun with ⟨s, run, htwo⟩
  exact ⟨s, run, htwo, fdbRun_digests streams (List.length_replicate ..) run⟩

end Dach
