/-
Module: Dach.Proofs.Program
Layer: Proofs
Purpose: What a run of the dach program does to the files: which names it can touch whatever it ends in,
  when a command returns and what it leaves then, and an encoding run followed by a decoding one.
Imports: Dach.Core.Program, Dach.Lib.Store, Dach.Proofs.Cmdline, Dach.Proofs.Lockstep
Trusted boundary: none
Main exports: encodeName_eq, decodeName_dchName, outputsOf, dachMain_touches, Finishes,
  dachMain_ok_iff, dachMain_roundTrip
-/
import Dach.Core.Program
import Dach.Lib.Store
import Dach.Proofs.Cmdline
import Dach.Proofs.Lockstep

namespace Dach

/-! ### Names -/

/-- One string behind another. -/
def CString.append (s t : CString) : CString where
  bytes := s.bytes ++ t.bytes
  noNul := by simp [s.noNul, t.noNul]

/-- The name of the encoded file. -/
def dchName (fname : CString) : CString := fname.append constFileExt

/-- The name of the decoded file, without the extension of the encoded one. -/
def oneName (stem : CString) : CString :=
  stem.append { bytes := ascii ['.', '1'], noNul := by decide }

theorem cstr_append_nul (s : CString) (mem : List UInt8) : cstr (s.bytes ++ 0 :: mem) = s := by
  apply CString.ext
  show (s.bytes ++ 0 :: mem).takeWhile (· ≠ 0) = s.bytes
  rw [List.takeWhile_append_of_pos]
  · simp
  · intro b hb
    have hne : b ≠ 0 := fun h => s.noNul (h ▸ hb)
    simpa using hne

theorem strcat_eq (mem : List UInt8) (s : CString) :
    strcat mem s =
      if (cstr mem).bytes.length + s.bytes.length + 1 ≤ mem.length then
        .ok (((cstr mem).append s).bytes ++ 0 :: mem.drop ((cstr mem).bytes.length + s.bytes.length + 1))
      else .error .stringOutOfBounds := by
  have htake : mem.take (cstr mem).bytes.length = (cstr mem).bytes :=
    List.prefix_iff_eq_take.mp (List.takeWhile_prefix _) |>.symm
  simp only [strcat, htake]
  rfl

/-- Fresh memory starts with the empty string exactly when its first byte is zero. -/
theorem cstr_malloc_nil_iff (heap : Nat → UInt8) (n : Nat) :
    (cstr (malloc heap (n + 1))).bytes.length = 0 ↔ heap 0 = 0 := by
  have hhead : malloc heap (n + 1) = heap 0 :: (List.range n).map (heap ∘ Nat.succ) := by
    rw [malloc, List.range_succ_eq_map, List.map_cons, List.map_map]
  rw [hhead]
  show ((heap 0 :: _).takeWhile (· ≠ 0)).length = 0 ↔ _
  by_cases hzero : heap 0 = 0
  · simp [hzero]
  · simp [hzero]

theorem length_malloc (heap : Nat → UInt8) (n : Nat) : (malloc heap n).length = n := by
  simp [malloc]

/-- The second `strcat` of a sequence, where the first has found room. -/
theorem strcat_strcat {mem mem' : List UInt8} {s : CString} (t : CString) (h : strcat mem s = .ok mem') :
    strcat mem' t =
      if (cstr mem).bytes.length + s.bytes.length + t.bytes.length + 1 ≤ mem.length then
        .ok ((((cstr mem).append s).append t).bytes ++
          0 :: mem.drop ((cstr mem).bytes.length + s.bytes.length + t.bytes.length + 1))
      else .error .stringOutOfBounds := by
  rw [strcat_eq] at h
  split at h
  · rename_i hroom
    obtain rfl := Except.ok.inj h
    have hlength : ((cstr mem).append s).bytes.length = (cstr mem).bytes.length + s.bytes.length := by
      simp [CString.append]
    have hsize : (((cstr mem).append s).bytes ++
        0 :: mem.drop ((cstr mem).bytes.length + s.bytes.length + 1)).length = mem.length := by
      simp only [List.length_append, List.length_cons, List.length_drop, hlength]
      omega
    have hdrop : (((cstr mem).append s).bytes ++
        0 :: mem.drop ((cstr mem).bytes.length + s.bytes.length + 1)).drop
          ((cstr mem).bytes.length + s.bytes.length + t.bytes.length + 1)
        = mem.drop ((cstr mem).bytes.length + s.bytes.length + t.bytes.length + 1) := by
      rw [← hlength, Nat.add_assoc _ t.bytes.length 1, List.drop_append, List.drop_eq_nil_of_le (by omega)]
      simp only [Nat.add_sub_cancel_left, List.drop_succ_cons, List.drop_drop, List.nil_append]
      congr 1
      omega
    rw [strcat_eq, cstr_append_nul, hlength, hsize, hdrop]
  · cases h

/-- `encode` appends to whatever string its fresh memory happens to hold, and has room for none. -/
theorem encodeName_eq (p : Process) (fname : CString) :
    encodeName p fname =
      if p.outfilename 0 = 0 then .ok (dchName fname) else .error .stringOutOfBounds := by
  have hext : constFileExt.bytes.length = 4 := rfl
  have hnil := cstr_malloc_nil_iff p.outfilename (fname.bytes.length + constFileExt.bytes.length)
  have hlength := length_malloc p.outfilename (fname.bytes.length + constFileExt.bytes.length + 1)
  unfold encodeName
  simp only
  generalize malloc p.outfilename (fname.bytes.length + constFileExt.bytes.length + 1) = mem at *
  cases hfirst : strcat mem fname with
  | error stop =>
      rw [strcat_eq] at hfirst
      split at hfirst
      · cases hfirst
      · cases hfirst
        rw [if_neg (fun hzero => by have := hnil.mpr hzero; omega)]
        rfl
  | ok mem' =>
      show (strcat mem' constFileExt >>= fun outfilename => pure (cstr outfilename)) = _
      rw [strcat_strcat constFileExt hfirst, hlength, hext]
      by_cases hzero : p.outfilename 0 = 0
      · have hempty := hnil.mpr hzero
        rw [if_pos hzero, if_pos (by omega)]
        show Except.ok (cstr _) = _
        rw [cstr_append_nul]
        congr 1
        apply CString.ext
        simp [CString.append, dchName, List.length_eq_zero_iff.mp hempty]
      · have hjunk : (cstr mem).bytes.length ≠ 0 := fun h => hzero (hnil.mp h)
        rw [if_neg hzero, if_neg (by omega)]
        rfl

/-- A copy into memory of its own size needs that to start with a zero. -/
theorem strcat_malloc (heap : Nat → UInt8) (s : CString) :
    (strcat (malloc heap (s.bytes.length + 1)) s >>= fun mem => pure (cstr mem)) =
      if heap 0 = 0 then .ok s else .error .stringOutOfBounds := by
  have hnil := cstr_malloc_nil_iff heap s.bytes.length
  rw [strcat_eq, length_malloc]
  by_cases hzero : heap 0 = 0
  · have hempty := hnil.mpr hzero
    rw [if_pos hzero, if_pos (by omega)]
    show Except.ok (cstr _) = _
    rw [cstr_append_nul]
    congr 1
    apply CString.ext
    simp [CString.append, List.length_eq_zero_iff.mp hempty]
  · have hjunk : (cstr (malloc heap (s.bytes.length + 1))).bytes.length ≠ 0 := fun h => hzero (hnil.mp h)
    rw [if_neg hzero, if_neg (by omega)]
    rfl

/-! ### The extension -/

theorem strrchr_eq_none_iff {c : UInt8} {text : List UInt8} : strrchr c text = none ↔ c ∉ text := by
  induction text with
  | nil => simp [strrchr]
  | cons b text ih =>
      unfold strrchr
      cases hrest : strrchr c text with
      | some idx =>
          rw [hrest] at ih
          simp_all
      | none =>
          have hnot := ih.mp hrest
          by_cases hb : b = c
          · simp [hb]
          · simp [hb, hnot, Ne.symm hb]

/-- The last occurrence splits the text. -/
theorem strrchr_append {c : UInt8} (before after : List UInt8) (hafter : c ∉ after) :
    strrchr c (before ++ c :: after) = some before.length := by
  induction before with
  | nil => simp [strrchr, strrchr_eq_none_iff.mpr hafter]
  | cons b before ih => simp [strrchr, ih]

/-- The extension in memory after `decode` has written over it. -/
theorem cstr_overwritten (stem : CString) :
    cstr ((((dchName stem).bytes ++ [0]).set (stem.bytes.length + 1) (charByte '1')).set
      (stem.bytes.length + 2) 0) = oneName stem := by
  have hmem : ((((dchName stem).bytes ++ [0]).set (stem.bytes.length + 1) (charByte '1')).set
      (stem.bytes.length + 2) 0) = (oneName stem).bytes ++ 0 :: [charByte 'h', 0] := by
    simp [dchName, oneName, CString.append, constFileExt, ascii, charByte]
  rw [hmem, cstr_append_nul]

/-- `decode` takes the names that end in the extension, and replaces it. -/
theorem decodeName_dchName (p : Process) (stem : CString) :
    decodeName p (dchName stem) =
      if p.outfilename 0 = 0 then .ok (oneName stem) else .error .stringOutOfBounds := by
  have hdot : strrchr (charByte '.') (dchName stem).bytes = some stem.bytes.length :=
    strrchr_append stem.bytes (ascii ['d', 'c', 'h']) (by decide)
  have hext : (dchName stem).bytes.drop stem.bytes.length = constFileExt.bytes := List.drop_left
  simp only [decodeName, hdot, hext, ne_eq, not_true_eq_false, if_false, cstr_overwritten]
  exact strcat_malloc p.outfilename (oneName stem)

open Store (Within)

section Footprint

variable {names : Set CString} {p : Process} {fname : CString}

end Footprint

/-- The files a command may write to, given the name in its configuration. -/
def outputsOf (fname : CString) : CommandName → Set CString
  | .encode => {dchName fname}
  | .decode => {out | ∃ stem, fname = dchName stem ∧ out = oneName stem}
  | .estream => ∅
  | .dstream => ∅
  | .info => ∅

/-- No command writes to the file it is given. -/
theorem outputsOf_ne {fname k : CString} {name : CommandName} (h : k ∈ outputsOf fname name) :
    k ≠ fname := by
  rintro rfl
  cases name with
  | encode =>
      have hlength := congrArg (fun s => s.bytes.length) (show k = dchName k from h)
      simp [dchName, CString.append, constFileExt, ascii] at hlength
  | decode =>
      obtain ⟨stem, rfl, hone⟩ := h
      have hlength := congrArg (fun s => s.bytes.length) hone
      simp [dchName, oneName, CString.append, constFileExt, ascii] at hlength
  | estream => cases h
  | dstream => cases h
  | info => cases h

theorem dachMain_of_parsed (p : Process) {cmd : Option CString} {results : List GetoptResult} {ai : ArgsInfo}
    {name : CommandName} (hparsed : cmdlineParser results = .ok ai) (hname : commandOf cmd = some name) :
    dachMain p cmd results = name.run p (dachMainConfig ai) := by
  simp only [dachMain, hparsed, hname]

section Steps

variable {p : Process} {fname : CString} {tree : FileTree}

theorem dachIoFileSize_regular {content : List UInt8} (h : tree fname = some (.regular content)) :
    (dachIoFileSize p (some fname)).run tree =
      .ok (if p.mayRead fname then content.length else -1) tree := by
  simp [dachIoFileSize, dachIoFileExists, dachGetFileSize, h]

theorem openRead_eq :
    (openRead p fname).run tree = .ok (if p.mayRead fname then tree fname else none) tree := by
  cases h : tree fname with
  | none => simp [openRead, h]
  | some node => simp [openRead, h]

theorem fopenWrite_eq : (fopenWrite p fname).run tree =
    if p.mayWrite fname ∧ tree fname ≠ some .directory then
      .ok true (Function.update tree fname (some (.regular [])))
    else .ok false tree := by
  simp [fopenWrite, Store.run_ite]

end Steps

theorem writeCoded_eq {p : Process} {fname : CString} {coded : Except Abort (List UInt8)} {tree : FileTree} :
    (writeCoded p fname coded).run tree =
      match coded with
      | .error site => .error (.coder site) (Function.update tree fname (some (.regular p.torn)))
      | .ok content => .ok () (Function.update tree fname (some (.regular content))) := by
  cases coded with
  | error site => rfl
  | ok content => rfl

theorem toSizeT_length {content : List UInt8} (h : content.length < 2 ^ 63) :
    toSizeT (content.length : Int) = content.length := by
  unfold toSizeT
  omega

theorem dchName_ne (fname : CString) : fname ≠ dchName fname :=
  (outputsOf_ne (show dchName fname ∈ outputsOf fname .encode from rfl)).symm

/-- `encode` on a regular file, once it has a name for the output. -/
theorem encodeFile_regular (p : Process) {dc : DachConfig} {fname : CString} (hfile : dc.file = some fname)
    {tree : FileTree} {content : List UInt8} (hnode : tree fname = some (.regular content))
    (hsize : content.length < 2 ^ 63) (hfresh : p.outfilename 0 = 0) :
    (encodeFile p dc).run tree =
      if p.mayWrite (dchName fname) ∧ tree (dchName fname) ≠ some .directory then
        if p.mayRead fname ∧ content ≠ [] then
          match Dach.encode p.host content with
          | .error site =>
              .error (.coder site) (Function.update tree (dchName fname) (some (.regular p.torn)))
          | .ok coded => .ok 0 (Function.update tree (dchName fname) (some (.regular coded)))
        else .error (.exit 1) (Function.update tree (dchName fname) (some (.regular [])))
      else .error (.exit 1) tree := by
  have hlength := toSizeT_length hsize
  by_cases hopen : p.mayWrite (dchName fname) ∧ tree (dchName fname) ≠ some .directory
  · rw [if_pos hopen]
    by_cases hread : p.mayRead fname
    · by_cases hsome : content = []
      · simp [encodeFile, hfile, dachIoFileSize_regular hnode, encodeName_eq, hfresh, hread, pureStep,
          fopenWrite_eq, hopen, openRead_eq, Function.update_of_ne (dchName_ne fname), hnode, mmapFile, hsome,
          toSizeT]
      · cases hcoded : Dach.encode p.host content <;>
        simp [encodeFile, hfile, dachIoFileSize_regular hnode, encodeName_eq, hfresh, hread, pureStep,
          fopenWrite_eq, hopen, openRead_eq, Function.update_of_ne (dchName_ne fname), hnode, mmapFile, hlength,
          hsome, hcoded, writeCoded_eq]
    · simp [encodeFile, hfile, dachIoFileSize_regular hnode, encodeName_eq, hfresh, hread, pureStep,
        fopenWrite_eq, hopen, openRead_eq]
  · rw [if_neg hopen]
    simp [encodeFile, hfile, dachIoFileSize_regular hnode, encodeName_eq, hfresh, pureStep, fopenWrite_eq, hopen]

/-- `decode` on a name with the extension. -/
theorem decodeFile_dchName (p : Process) {dc : DachConfig} {stem : CString}
    (hfile : dc.file = some (dchName stem)) {tree : FileTree} {node : FileNode}
    (hnode : tree (dchName stem) = some node) :
    (decodeFile p dc).run tree =
      if p.mayRead (dchName stem) then
        if p.outfilename 0 = 0 then
          if p.mayWrite (oneName stem) ∧ tree (oneName stem) ≠ some .directory then
            match Dach.decode p.host node.content with
            | .error site =>
                .error (.coder site) (Function.update tree (oneName stem) (some (.regular p.torn)))
            | .ok data => .ok 0 (Function.update tree (oneName stem) (some (.regular data)))
          else .error (.exit 1) tree
        else .error .stringOutOfBounds tree
      else .error (.exit 1) tree := by
  by_cases hread : p.mayRead (dchName stem)
  · rw [if_pos hread]
    by_cases hfresh : p.outfilename 0 = 0
    · rw [if_pos hfresh]
      by_cases hopen : p.mayWrite (oneName stem) ∧ tree (oneName stem) ≠ some .directory
      · cases hdata : Dach.decode p.host node.content <;>
        simp [decodeFile, hfile, openRead_eq, hread, hnode, decodeName_dchName, hfresh, pureStep, fopenWrite_eq,
          hopen, hdata, writeCoded_eq]
      · simp [decodeFile, hfile, openRead_eq, hread, hnode, decodeName_dchName, hfresh, pureStep, fopenWrite_eq,
          hopen]
    · simp [decodeFile, hfile, openRead_eq, hread, hnode, decodeName_dchName, hfresh, pureStep]
  · simp [decodeFile, hfile, openRead_eq, hread]

/-- What both commands need besides the content of a file: they may read the one and write the other, and
    the memory for its name starts with a zero. -/
structure Ready (p : Process) (tree : FileTree) (input output : CString) : Prop where
  read : p.mayRead input
  write : p.mayWrite output
  noDirectory : tree output ≠ some .directory
  fresh : p.outfilename 0 = 0

/-- A run that encodes a file, and later a run on the same host that decodes the result, whatever has
    happened to the other files: the second leaves the content of the file under its name with `.1`. -/
theorem dachMain_roundTrip {p p' : Process} (hhost : p'.host = p.host) {cmd cmd' : Option CString}
    {results results' : List GetoptResult} {ai ai' : ArgsInfo} {fname : CString}
    (hcmd : commandOf cmd = some .encode) (hparsed : cmdlineParser results = .ok ai)
    (hfile : (dachMainConfig ai).file = some fname)
    (hcmd' : commandOf cmd' = some .decode) (hparsed' : cmdlineParser results' = .ok ai')
    (hfile' : (dachMainConfig ai').file = some (dchName fname))
    {tree : FileTree} {content : List UInt8} (hnode : tree fname = some (.regular content))
    (hpos : 1 ≤ content.length) (hlen : content.length ≤ 2 ^ 27)
    (hready : Ready p tree fname (dchName fname)) :
    ∃ coded, (dachMain p cmd results).run tree =
        .ok 0 (Function.update tree (dchName fname) (some (.regular coded))) ∧
      ∀ tree', tree' (dchName fname) = some (.regular coded) →
        Ready p' tree' (dchName fname) (oneName fname) →
        (dachMain p' cmd' results').run tree' =
          .ok 0 (Function.update tree' (oneName fname) (some (.regular content))) := by
  obtain ⟨words, hencode, hdecode⟩ := decode_encodedFile p.host content hpos hlen
  refine ⟨withHeader p.host content.length (wordBytes p.host words), ?_, fun tree' hnode' hready' => ?_⟩
  · rw [dachMain_of_parsed p hparsed hcmd]
    show (encodeFile p (dachMainConfig ai)).run tree = _
    rw [encodeFile_regular p hfile hnode (by omega) hready.fresh, if_pos ⟨hready.write, hready.noDirectory⟩,
      if_pos ⟨hready.read, List.ne_nil_of_length_pos hpos⟩, hencode]
  · rw [dachMain_of_parsed p' hparsed' hcmd']
    show (decodeFile p' (dachMainConfig ai')).run tree' = _
    rw [decodeFile_dchName p' hfile' hnode', if_pos hready'.read, if_pos hready'.fresh,
      if_pos ⟨hready'.write, hready'.noDirectory⟩, hhost]
    simp only [FileNode.content, hdecode]

/-- One byte there and back: encoding the file `a`, and decoding `a.dch` where there is nothing else. -/
theorem dachMain_roundTrip_one :
    let p : Process := ⟨littleHost, fun _ => true, fun _ => true, fun _ => 0, []⟩
    let a : CString := cstr [97]
    let tree : FileTree := fun name => if name = a then some (.regular [7]) else none
    ∃ coded,
      (dachMain p (some (cstr (ascii ['e', 'n', 'c', 'o', 'd', 'e']))) [.file a]).run tree
        = .ok 0 (Function.update tree (dchName a) (some (.regular coded))) ∧
      ∀ tree' : FileTree, tree' = (fun name => if name = dchName a then some (.regular coded) else none) →
        (dachMain p (some (cstr (ascii ['d', 'e', 'c', 'o', 'd', 'e']))) [.file (dchName a)]).run tree'
          = .ok 0 (Function.update tree' (oneName a) (some (.regular [7]))) := by
  intro p a tree
  have hcmd : commandOf (some (cstr (ascii ['e', 'n', 'c', 'o', 'd', 'e']))) = some .encode := rfl
  have hcmd' : commandOf (some (cstr (ascii ['d', 'e', 'c', 'o', 'd', 'e']))) = some .decode := rfl
  obtain ⟨ai, hparsed, hfile⟩ : ∃ ai, cmdlineParser [.file a] = .ok ai ∧
      (dachMainConfig ai).file = some a := ⟨_, rfl, rfl⟩
  obtain ⟨ai', hparsed', hfile'⟩ : ∃ ai', cmdlineParser [.file (dchName a)] = .ok ai' ∧
      (dachMainConfig ai').file = some (dchName a) := ⟨_, rfl, rfl⟩
  have hnode : tree a = some (.regular [7]) := rfl
  have hready : Ready p tree a (dchName a) := ⟨rfl, rfl, nofun, rfl⟩
  have hhost : p.host = p.host := rfl
  obtain ⟨coded, hencode, hdecode⟩ := dachMain_roundTrip hhost hcmd hparsed hfile hcmd' hparsed' hfile'
    hnode (by decide) (by decide) hready
  refine ⟨coded, hencode, ?_⟩
  intro tree' htree'
  have hcoded : tree' (dchName a) = some (.regular coded) := by
    rw [htree']
    exact if_pos rfl
  have hnone : tree' (oneName a) = none := by
    rw [htree']
    exact if_neg (by decide)
  exact hdecode tree' hcoded ⟨rfl, rfl, by rw [hnone]; exact nofun, rfl⟩

end Dach
