/-
Module: Dach.Proofs.BlockOps
Layer: Proofs
Purpose: Sequences of calls on one block. The position stays inside the block as long as no single byte
  is taken at its end; a block that was written in full goes to the file as it was written; reads in any
  pieces deliver the block once; a seek goes to the start.
Imports: Dach.Proofs.Block
Trusted boundary: none
Main exports: Block.Made, Block.Sound, Always, blockCalls_inRange_iff, blockTofile_written_iff,
  blockSeek_positions_iff, blockReads_chunked_iff
-/
import Dach.Proofs.Block

namespace Dach

/-! ### Blocks as their users get them -/

/-- A block of at least one byte from `dach_block_new`: a buffer of its own, or a window on memory that
    reaches at least to its end. -/
structure Block.Made (host : Host) (dbi : BlockInit) (obj : Block) : Prop where
  made : dachBlockNew host dbi = .ok obj
  nonempty : 1 ≤ dbi.length
  memory : dbi.mode = .writable ∨
    dbi.mode = .readable ∧ ∃ data, dbi.data = some data ∧ dbi.length ≤ data.length

/-- The position is inside the block, and the block has memory up to its length. The buffer of a writable
    block ends there. -/
structure Block.Sound (obj : Block) : Prop where
  pos_le : obj.pos ≤ obj.length
  length_le : obj.length ≤ obj.data.length
  own : obj.mode = .writable → obj.data.length = obj.length

theorem Block.Made.eq {host : Host} {dbi : BlockInit} {obj : Block} (h : obj.Made host dbi) :
    obj = { id := dbi.bid, mode := dbi.mode, pos := 0, bytesWritten := 0,
            data := if dbi.mode = .writable then malloc (host.heap dbi.bid) dbi.length
              else dbi.data.getD []
            size := dbi.length, length := dbi.length } := by
  have hmade := h.made
  unfold dachBlockNew cassert at hmade
  split at hmade
  · cases hmade
    rfl
  · cases hmade

theorem Block.Made.sound {host : Host} {dbi : BlockInit} {obj : Block} (h : obj.Made host dbi) :
    obj.Sound := by
  have hmalloc : ∀ heap : Nat → UInt8, (malloc heap dbi.length).length = dbi.length := by
    intro heap
    rw [malloc, List.length_map, List.length_range]
  rw [h.eq]
  rcases h.memory with hmode | ⟨hmode, data, hdata, hlen⟩
  · constructor
    · exact Nat.zero_le _
    · simp [hmode, hmalloc]
    · simp [hmode, hmalloc]
  · constructor
    · exact Nat.zero_le _
    · simpa [hmode, hdata] using hlen
    · simp [hmode]

theorem Block.Sound.contents_length {obj : Block} (h : obj.Sound) :
    obj.contents.length = obj.length := by
  rw [Block.contents, List.length_take]
  exact Nat.min_eq_left h.length_le

theorem Block.Sound.contents_own {obj : Block} (h : obj.Sound) (hmode : obj.mode = .writable) :
    obj.contents = obj.data := List.take_of_length_le (Nat.le_of_eq (h.own hmode))

/-- What is left to read. -/
def Block.unread (obj : Block) : List UInt8 := obj.contents.drop obj.pos

/-- The block after a read: it has moved past the bytes the read took. -/
def Block.afterRead (obj : Block) (count : Nat) : Block :=
  { obj with pos := obj.pos + min count (obj.length - obj.pos) }

/-! ### What one call does -/

theorem Block.Sound.read {obj : Block} (h : obj.Sound) (host : Host) (count : Nat) :
    blockCall host obj (.read count)
      = .ok (.read (obj.readRet count) (obj.unread.take count), obj.afterRead count) := by
  have hbytes : (obj.data.drop obj.pos).take (min count (obj.length - obj.pos))
      = obj.unread.take count := by
    rw [Block.unread, Block.contents, List.drop_take, List.take_take]
  simp only [blockCall, blockRead_spec h.pos_le h.length_le, ok_bind, pure_eq_ok, hbytes]
  rfl

theorem Block.Sound.write {obj : Block} (h : obj.Sound) (host : Host) {buf : List UInt8}
    (hmode : obj.mode = .writable) (hbuf : 0 < buf.length) (hwrap : obj.pos + buf.length < 2 ^ 64) :
    blockCall host obj (.write buf) = .ok (.write 1, obj.wrote buf) := by
  simp only [blockCall, blockWrite_eq host obj buf hbuf hmode (h.own hmode) h.pos_le hwrap, ok_bind,
    pure_eq_ok]

theorem Block.Sound.tofile {obj : Block} (h : obj.Sound) (host : Host) (fd : CFile) :
    blockCall host obj (.tofile fd) = .ok (.tofile obj.length (fd.fwrite obj.contents), obj) := by
  simp only [blockCall, blockTofile, if_pos h.length_le, ok_bind, pure_eq_ok, Block.contents]

theorem blockCall_seek (host : Host) (obj : Block) {pos : Nat} (hpos : pos ≤ obj.length) :
    blockCall host obj (.seek pos) = .ok (.number 0, { obj with pos := 0 }) := by
  simp only [blockCall, blockSeek, cassert_pos _ hpos, ok_bind, pure_eq_ok]

theorem blockCall_getC (host : Host) {obj : Block} (h : obj.pos < obj.data.length) :
    blockCall host obj .getC = .ok (.char obj.data[obj.pos], { obj with pos := obj.pos + 1 }) := by
  simp only [blockCall, blockGetc, List.getElem?_eq_getElem h, ok_bind, pure_eq_ok]

/-- A sound block at another of its positions. -/
theorem Block.Sound.moved {obj : Block} (h : obj.Sound) {pos : Nat} (hpos : pos ≤ obj.length) :
    ({ obj with pos := pos } : Block).Sound := ⟨hpos, h.length_le, h.own⟩

theorem Block.Sound.afterRead {obj : Block} (h : obj.Sound) (count : Nat) :
    (obj.afterRead count).Sound := by
  have hpos := h.pos_le
  exact h.moved (by omega)

/-- What a read took is no longer left to read. -/
theorem Block.Sound.unread_afterRead {obj : Block} (h : obj.Sound) (count : Nat) :
    (obj.afterRead count).unread = obj.unread.drop count := by
  have hlen := h.contents_length
  show obj.contents.drop (obj.pos + min count (obj.length - obj.pos)) = _
  rw [Block.unread, List.drop_drop]
  rcases Nat.le_total count (obj.length - obj.pos) with hle | hle
  · rw [Nat.min_eq_left hle]
  · rw [List.drop_of_length_le (by omega), List.drop_of_length_le (by omega)]

theorem Block.Sound.wrote {obj : Block} (h : obj.Sound) (hmode : obj.mode = .writable)
    (buf : List UInt8) : (obj.wrote buf).Sound := by
  have hpos := h.pos_le
  have hown := h.own hmode
  have hdata : (obj.wrote buf).data.length = (obj.wrote buf).length := by
    show (overwrite _ _ _).length = max _ _
    rw [length_overwrite (by omega), hown]
  exact ⟨Nat.le_max_right _ _, Nat.le_of_eq hdata.symm, fun _ => hdata⟩

/-! ### Every call of a sequence -/

/-- Every call of the sequence meets `P` in the block it is made on. -/
def Always (host : Host) (P : Block → BlockCall → Prop) : List BlockCall → Block → Prop
  | [], _ => True
  | call :: calls, obj =>
      P obj call ∧ match blockCall host obj call with
        | .ok (_, obj') => Always host P calls obj'
        | .error _ => True

instance Always.decidable (host : Host) (P : Block → BlockCall → Prop)
    [∀ obj call, Decidable (P obj call)] : ∀ calls obj, Decidable (Always host P calls obj)
  | [], _ => .isTrue trivial
  | call :: calls, obj =>
      have : Decidable (match blockCall host obj call with
          | .ok (_, obj') => Always host P calls obj'
          | .error _ => True) :=
        match blockCall host obj call with
        | .ok (_, obj') => Always.decidable host P calls obj'
        | .error _ => .isTrue trivial
      inferInstanceAs (Decidable (P obj call ∧ _))

theorem always_cons_iff {host : Host} {P : Block → BlockCall → Prop} {obj obj' : Block}
    {call : BlockCall} {reply : BlockReply} (hcall : blockCall host obj call = .ok (reply, obj'))
    (calls : List BlockCall) :
    Always host P (call :: calls) obj ↔ P obj call ∧ Always host P calls obj' := by
  rw [Always, hcall]

/-- What callers keep to: a write goes to a writable block, has at least one byte, and ends inside the
    address space; a seek names a position of the block. -/
def Admitted (obj : Block) : BlockCall → Prop
  | .write buf => obj.mode = .writable ∧ 0 < buf.length ∧ obj.pos + buf.length < 2 ^ 64
  | .seek pos => pos ≤ obj.length
  | _ => True

instance (obj : Block) : DecidablePred (Admitted obj)
  | .write buf => inferInstanceAs (Decidable (obj.mode = .writable ∧ 0 < buf.length ∧ _))
  | .seek pos => inferInstanceAs (Decidable (pos ≤ obj.length))
  | .read _ | .tofile _ | .bytesWritten | .id | .length | .getC => .isTrue trivial

/-- The block with no memory past its length. -/
def Block.cut (obj : Block) : Block := { obj with data := obj.contents }

/-- A call that stays inside the block: no assertion fails, the position ends inside, and the same
    happens when there is no memory outside `[0, length)`. -/
def InRange (host : Host) (obj : Block) (call : BlockCall) : Prop :=
  ∃ reply obj', blockCall host obj call = .ok (reply, obj') ∧
    blockCall host obj.cut call = .ok (reply, obj'.cut) ∧ obj'.pos ≤ obj'.length

/-- A single byte is taken before the end of the block. -/
def GetcInside (obj : Block) (call : BlockCall) : Prop := call = .getC → obj.pos < obj.length

instance (obj : Block) (call : BlockCall) : Decidable (GetcInside obj call) :=
  inferInstanceAs (Decidable (call = .getC → obj.pos < obj.length))

theorem Block.Sound.cut {obj : Block} (h : obj.Sound) : obj.cut.Sound := by
  have hlen : obj.cut.data.length = obj.cut.length := h.contents_length
  exact ⟨h.pos_le, Nat.le_of_eq hlen.symm, fun _ => hlen⟩

theorem Block.Sound.cut_contents {obj : Block} (h : obj.Sound) : obj.cut.contents = obj.contents :=
  List.take_of_length_le (Nat.le_of_eq h.contents_length)

/-- A buffer has no memory past its length. -/
theorem Block.Sound.cut_own {obj : Block} (h : obj.Sound) (hmode : obj.mode = .writable) :
    obj.cut = obj := by
  rw [Block.cut, h.contents_own hmode]

/-- One admitted call that takes no byte at the end stays inside the block, and leaves a block of the same
    kind. -/
theorem Block.Sound.step (host : Host) {obj : Block} {call : BlockCall} (h : obj.Sound)
    (admitted : Admitted obj call) (inside : GetcInside obj call) :
    ∃ reply obj', blockCall host obj call = .ok (reply, obj') ∧
      blockCall host obj.cut call = .ok (reply, obj'.cut) ∧ obj'.Sound := by
  cases call with
  | read count =>
      have hcut := h.cut.read host count
      rw [Block.unread, h.cut_contents] at hcut
      exact ⟨_, _, h.read host count, hcut, h.afterRead count⟩
  | write buf =>
      rcases admitted with ⟨hmode, hbuf, hwrap⟩
      have hcall := h.write host hmode hbuf hwrap
      have hwrote := h.wrote hmode buf
      refine ⟨_, _, hcall, ?_, hwrote⟩
      rw [h.cut_own hmode, hwrote.cut_own hmode]
      exact hcall
  | tofile fd =>
      have hcut := h.cut.tofile host fd
      rw [h.cut_contents] at hcut
      exact ⟨_, _, h.tofile host fd, hcut, h⟩
  | bytesWritten => exact ⟨_, _, rfl, rfl, h⟩
  | id => exact ⟨_, _, rfl, rfl, h⟩
  | length => exact ⟨_, _, rfl, rfl, h⟩
  | getC =>
      have hpos : obj.pos < obj.length := inside rfl
      have hdata := h.length_le
      have hlt : obj.cut.pos < obj.cut.data.length := by
        rw [show obj.cut.data.length = obj.length from h.contents_length]
        exact hpos
      have hbyte : obj.cut.data[obj.cut.pos] = obj.data[obj.pos] := List.getElem_take ..
      have hcut := blockCall_getC host hlt
      rw [hbyte] at hcut
      exact ⟨_, _, blockCall_getC host (by omega), hcut, h.moved hpos⟩
  | seek pos =>
      exact ⟨_, _, blockCall_seek host obj admitted, blockCall_seek host obj.cut admitted,
        h.moved (Nat.zero_le _)⟩

/-- A byte taken at the end of the block lies outside it. -/
theorem Block.Sound.getcInside {host : Host} {obj : Block} {call : BlockCall} (h : obj.Sound)
    (inRange : InRange host obj call) : GetcInside obj call := by
  rintro rfl
  rcases inRange with ⟨reply, obj', _, hcut, _⟩
  by_contra hend
  have hnone : obj.cut.data[obj.cut.pos]? = none := by
    apply List.getElem?_eq_none
    rw [show obj.cut.data.length = obj.length from h.contents_length]
    exact Nat.le_of_not_lt hend
  simp only [blockCall, blockGetc, hnone, error_bind] at hcut
  cases hcut

/-- For every block and every admitted sequence of its operations: all of them stay inside the block
    exactly when no `get_c` is made at its end. -/
theorem blockCalls_inRange_iff (host : Host) (dbi : BlockInit) (obj : Block) (calls : List BlockCall)
    (new : obj.Made host dbi) (admitted : Always host Admitted calls obj) :
    Always host (InRange host) calls obj ↔ Always host GetcInside calls obj := by
  have main : ∀ (calls : List BlockCall) (obj : Block), obj.Sound → Always host Admitted calls obj →
      (Always host (InRange host) calls obj ↔ Always host GetcInside calls obj) := by
    intro calls
    induction calls with
    | nil =>
        intro obj _ _
        exact Iff.rfl
    | cons call calls ih =>
        intro obj h admitted
        constructor
        · intro all
          have inside := h.getcInside all.1
          rcases h.step host admitted.1 inside with ⟨reply, obj', hcall, _, h'⟩
          rw [always_cons_iff hcall] at all admitted ⊢
          exact ⟨inside, (ih obj' h' admitted.2).mp all.2⟩
        · intro all
          rcases h.step host admitted.1 all.1 with ⟨reply, obj', hcall, hcut, h'⟩
          rw [always_cons_iff hcall] at all admitted ⊢
          exact ⟨⟨reply, obj', hcall, hcut, h'.pos_le⟩, (ih obj' h' admitted.2).mpr all.2⟩
  exact main calls obj new.sound admitted

theorem blockCalls_inRange_iff_two : ∃ obj,
    dachBlockNew littleHost { length := 2, bid := 0, mode := .readable, data := some [65, 66] }
      = .ok obj ∧
    Always littleHost (InRange littleHost) [.getC, .seek 1, .read 1, .getC, .read 3] obj := by
  have new : Block.Made littleHost
      { length := 2, bid := 0, mode := .readable, data := some [65, 66] } _ :=
    ⟨rfl, by decide, .inr ⟨rfl, _, rfl, by decide⟩⟩
  exact ⟨_, rfl, (blockCalls_inRange_iff _ _ _ _ new (by decide)).mpr (by decide)⟩

/-- A block of one byte in front of another byte of the mapping: the second `get_c` takes that one, and
    the read after it aborts. -/
theorem blockCalls_getC_past_end : ∃ obj,
    dachBlockNew littleHost { length := 1, bid := 0, mode := .readable, data := some [65, 66] }
      = .ok obj ∧
    Always littleHost Admitted [.getC, .getC] obj ∧
    ¬ Always littleHost (InRange littleHost) [.getC, .getC] obj ∧
    blockCalls littleHost [.getC, .getC] obj
      = .ok ([.char 65, .char 66], { obj with pos := 2 }) ∧
    blockCalls littleHost [.getC, .getC, .read 1] obj = .error .blockReadPos := by
  refine ⟨_, rfl, by decide, ?_, rfl, rfl⟩
  rintro ⟨_, ⟨reply, obj', _, hcut, _⟩, _⟩
  cases hcut

/-! ### Tofile after writes -/

/-- The calls that write the buffers in turn. -/
def writes (bufs : List (List UInt8)) : List BlockCall := bufs.map .write

/-- Buffers that are written in turn end up behind each other. -/
theorem Block.Sound.writes (host : Host) {bufs : List (List UInt8)} : ∀ {obj : Block}, obj.Sound →
    obj.mode = .writable → (∀ buf ∈ bufs, buf ≠ []) → obj.pos + bufs.flatten.length < 2 ^ 64 →
    blockCalls host (writes bufs) obj = .ok (bufs.map fun _ => .write 1, obj.wrote bufs.flatten) := by
  induction bufs with
  | nil =>
      intro obj h _ _ _
      rw [List.flatten_nil, Block.wrote_nil h.pos_le]
      rfl
  | cons buf bufs ih =>
      intro obj h hmode hne hwrap
      rw [List.flatten_cons, List.length_append] at hwrap
      have hbuf : 0 < buf.length := List.length_pos_iff.mpr (hne buf (List.mem_cons_self ..))
      have hcall := h.write host hmode hbuf (by omega)
      have hrest := ih (h.wrote hmode buf) hmode
        (fun buf hmem => hne buf (List.mem_cons_of_mem _ hmem)) (by show _ + _ + _ < _; omega)
      have hpos := h.pos_le
      have hown := h.own hmode
      rw [Block.wrote_wrote (by omega)] at hrest
      simp only [Dach.writes, List.map_cons, blockCalls, hcall, ok_bind, pure_eq_ok]
      rw [Dach.writes] at hrest
      rw [hrest, List.flatten_cons]
      rfl

/-- After the writes `bytes_written` is the number of bytes written, and `tofile` appends exactly these
    bytes to any file. -/
def TofileEmits (host : Host) (bid length : Nat) (bufs : List (List UInt8)) : Prop :=
  ∃ obj replies obj',
    dachBlockNew host { length := length, bid := bid, mode := .writable, data := none } = .ok obj ∧
    blockCalls host (writes bufs) obj = .ok (replies, obj') ∧
    blockBytesWritten obj' = bufs.flatten.length ∧
    ∀ fd, blockTofile obj' fd = .ok (bufs.flatten.length, fd.fwrite bufs.flatten)

/-- Writing from the start of a fresh buffer keeps what the heap holds past the bytes written. -/
theorem Block.wrote_fresh {obj : Block} (h : obj.Sound) (hmode : obj.mode = .writable)
    (hpos : obj.pos = 0) (buf : List UInt8) :
    (obj.wrote buf).contents = buf ++ obj.data.drop buf.length := by
  rw [(h.wrote hmode buf).contents_own hmode]
  show overwrite _ _ _ = _
  rw [overwrite, hpos, List.take_zero, List.nil_append, Nat.zero_add]

/-- For every fresh writable block and every sequence of non-empty buffers written to it: `tofile` emits
    exactly what was written when and only when the writes fill the block. -/
theorem blockTofile_written_iff (host : Host) (bid length : Nat) (bufs : List (List UInt8))
    (hlen : 1 ≤ length) (hne : ∀ buf ∈ bufs, buf ≠ []) (hsize : bufs.flatten.length < 2 ^ 64) :
    TofileEmits host bid length bufs ↔ length ≤ bufs.flatten.length := by
  rcases hnew : dachBlockNew host { length := length, bid := bid, mode := .writable, data := none }
    with _ | obj
  · cases hnew
  have new : obj.Made host { length := length, bid := bid, mode := .writable, data := none } :=
    ⟨hnew, hlen, .inl rfl⟩
  have hobj := new.eq
  have hmode : obj.mode = .writable := by rw [hobj]
  have hpos : obj.pos = 0 := by rw [hobj]
  have hlength : obj.length = length := by rw [hobj]
  have hcount : obj.bytesWritten = 0 := by rw [hobj]
  have h := new.sound
  have hcalls := h.writes host hmode hne (by rw [hpos, Nat.zero_add]; exact hsize)
  have hwrote := h.wrote hmode bufs.flatten
  have hfile : ∀ fd, blockTofile (obj.wrote bufs.flatten) fd
      = .ok (max length bufs.flatten.length,
          fd.fwrite (bufs.flatten ++ obj.data.drop bufs.flatten.length)) := by
    intro fd
    rw [blockTofile, if_pos hwrote.length_le, ← Block.wrote_fresh h hmode hpos, ← hlength]
    simp only [Block.wrote, hpos, Nat.zero_add, Block.contents]
  constructor
  · rintro ⟨obj₁, replies, obj', hnew', hcalls', _, hemits⟩
    rw [hnew] at hnew'
    cases hnew'
    rw [hcalls] at hcalls'
    cases hcalls'
    have hret := (hfile (CFile.reading [])).symm.trans (hemits _)
    have hmax : max length bufs.flatten.length = bufs.flatten.length :=
      congrArg Prod.fst (Except.ok.inj hret)
    omega
  · intro hle
    refine ⟨obj, _, _, hnew, hcalls, ?_, fun fd => ?_⟩
    · show obj.bytesWritten + _ = _
      rw [hcount, Nat.zero_add]
    · have hdrop : obj.data.drop bufs.flatten.length = [] := by
        apply List.drop_of_length_le
        rw [h.own hmode, hlength]
        exact hle
      rw [hfile, hdrop, List.append_nil, Nat.max_eq_right hle]

theorem blockTofile_written_iff_two : TofileEmits littleHost 0 2 [[65], [66, 67]] :=
  (blockTofile_written_iff littleHost 0 2 [[65], [66, 67]] (by decide) (by decide) (by decide)).mpr
    (by decide)

/-- One byte written to a block of two: `tofile` emits a byte of the heap behind it. -/
theorem blockTofile_short : ¬ TofileEmits littleHost 0 2 [[65]] ∧ ∃ obj obj',
    dachBlockNew littleHost { length := 2, bid := 0, mode := .writable, data := none } = .ok obj ∧
    blockCalls littleHost (writes [[65]]) obj = .ok ([.write 1], obj') ∧
    blockBytesWritten obj' = 1 ∧
    blockTofile obj' (CFile.reading []) = .ok (2, (CFile.reading []).fwrite [65, 0]) := by
  refine ⟨?_, _, _, rfl, rfl, rfl, rfl⟩
  rintro ⟨obj, replies, obj', hnew, hcalls, _, hemits⟩
  cases hnew
  cases hcalls
  have hret := hemits (CFile.reading [])
  cases hret

/-! ### Reads in a row -/

/-- The calls that read with the counts in turn. -/
def reads (counts : List Nat) : List BlockCall := counts.map .read

/-- The bytes that reads stored, one after the other. -/
def delivered : List BlockReply → List UInt8
  | [] => []
  | .read _ buf :: replies => buf ++ delivered replies
  | _ :: replies => delivered replies

/-- One read, and the reads after it. -/
theorem Block.Sound.reads_cons {host : Host} {obj : Block} (h : obj.Sound) {count : Nat}
    {counts : List Nat} {replies : List BlockReply} {obj' : Block}
    (rest : blockCalls host (reads counts) (obj.afterRead count) = .ok (replies, obj')) :
    blockCalls host (reads (count :: counts)) obj
      = .ok (.read (obj.readRet count) (obj.unread.take count) :: replies, obj') := by
  have rest' : blockCalls host (counts.map .read) _ = .ok (replies, obj') := rest
  simp only [reads, List.map_cons, blockCalls, h.read host count, ok_bind, rest', pure_eq_ok]

/-- Reads in a row deliver what is left, as far as they ask for it together. -/
theorem Block.Sound.reads_delivered (host : Host) {counts : List Nat} : ∀ {obj : Block}, obj.Sound →
    ∃ replies obj', blockCalls host (reads counts) obj = .ok (replies, obj') ∧
      delivered replies = obj.unread.take counts.sum := by
  induction counts with
  | nil =>
      intro obj _
      refine ⟨_, _, rfl, ?_⟩
      rw [List.sum_nil, List.take_zero]
      rfl
  | cons count counts ih =>
      intro obj h
      rcases ih (h.afterRead count) with ⟨replies, obj', hrest, hbytes⟩
      refine ⟨_, obj', h.reads_cons hrest, ?_⟩
      rw [delivered, hbytes, h.unread_afterRead, List.sum_cons, List.take_add]

/-! ### Seek -/

/-- Reads and writes. -/
def Transfers : BlockCall → Prop
  | .read _ | .write _ => True
  | _ => False

/-- The state after a run of admitted reads and writes is sound. -/
theorem Block.Sound.transfers {host : Host} {calls : List BlockCall} : ∀ {obj : Block}, obj.Sound →
    (∀ call ∈ calls, Transfers call) → Always host Admitted calls obj →
    ∀ {replies obj'}, blockCalls host calls obj = .ok (replies, obj') → obj'.Sound := by
  induction calls with
  | nil =>
      intro obj h _ _ replies obj' hcalls
      cases hcalls
      exact h
  | cons call calls ih =>
      intro obj h hall admitted replies obj' hcalls
      have inside : GetcInside obj call := by
        rintro rfl
        cases hall _ (List.mem_cons_self ..)
      rcases h.step host admitted.1 inside with ⟨reply, obj₁, hcall, _, h₁⟩
      rw [always_cons_iff hcall] at admitted
      simp only [blockCalls, hcall, ok_bind, bind_eq_ok, pure_eq_ok] at hcalls
      rcases hcalls with ⟨⟨replies₁, obj₂⟩, hrest, hend⟩
      cases hend
      exact ih h₁ (fun call hmem => hall call (List.mem_cons_of_mem _ hmem)) admitted.2 hrest

/-- Seek to `pos` returns `pos`; reads after it deliver the bytes from there on; a write after it replaces
    the bytes there and no others. -/
def SeekPositions (host : Host) (obj : Block) (pos : Nat) : Prop :=
  ∃ obj', blockSeek obj pos = .ok (pos, obj') ∧
    (∀ counts, ∃ replies obj'', blockCalls host (reads counts) obj' = .ok (replies, obj'') ∧
      delivered replies = (obj.contents.drop pos).take counts.sum) ∧
    (obj.mode = .writable → ∀ buf, buf ≠ [] → pos + buf.length < 2 ^ 64 →
      ∃ obj'', blockWrite host obj' buf = .ok (1, obj'') ∧
        obj''.contents = overwrite obj.contents pos buf)

/-- For every block reached by reads and writes and every position in it: a seek does what it says exactly
    when the position is the start. -/
theorem blockSeek_positions_iff (host : Host) (dbi : BlockInit) (made obj : Block)
    (calls : List BlockCall) (replies : List BlockReply) (pos : Nat) (new : made.Made host dbi)
    (transfers : ∀ call ∈ calls, Transfers call) (admitted : Always host Admitted calls made)
    (run : blockCalls host calls made = .ok (replies, obj)) (hpos : pos ≤ obj.length) :
    SeekPositions host obj pos ↔ pos = 0 := by
  have hseek : blockSeek obj pos = .ok (0, { obj with pos := 0 }) := by
    simp only [blockSeek, cassert_pos _ hpos, ok_bind, pure_eq_ok]
  constructor
  · rintro ⟨obj', hcall, _, _⟩
    rw [hseek] at hcall
    exact (congrArg Prod.fst (Except.ok.inj hcall)).symm
  · rintro rfl
    have h : ({ obj with pos := 0 } : Block).Sound :=
      (new.sound.transfers transfers admitted run).moved (Nat.zero_le _)
    refine ⟨_, hseek, fun counts => h.reads_delivered host, fun hmode buf hbuf hwrap => ?_⟩
    have hlen : 0 < buf.length := List.length_pos_iff.mpr hbuf
    refine ⟨_, blockWrite_eq host _ buf hlen hmode (h.own hmode) h.pos_le hwrap, ?_⟩
    rw [(h.wrote hmode buf).contents_own hmode]
    show overwrite obj.data 0 buf = overwrite obj.contents 0 buf
    rw [show obj.contents = obj.data from h.contents_own hmode]

theorem blockSeek_positions_iff_zero : ∃ made obj,
    dachBlockNew littleHost { length := 2, bid := 0, mode := .writable, data := none } = .ok made ∧
    blockCalls littleHost [.write [65, 66, 67], .read 1] made
      = .ok ([.write 1, .read (-1) []], obj) ∧
    SeekPositions littleHost obj 0 := by
  have new : Block.Made littleHost { length := 2, bid := 0, mode := .writable, data := none } _ :=
    ⟨rfl, by decide, .inl rfl⟩
  have transfers : ∀ call ∈ [BlockCall.write [65, 66, 67], .read 1], Transfers call := by
    simp [Transfers]
  exact ⟨_, _, rfl, rfl, (blockSeek_positions_iff littleHost _ _ _ _ _ 0 new transfers (by decide) rfl
    (Nat.zero_le _)).mpr rfl⟩

/-- Seek to 1 in a block of two bytes: it returns 0, and the next read delivers the first byte. -/
theorem blockSeek_start : ∃ obj obj',
    dachBlockNew littleHost { length := 2, bid := 0, mode := .readable, data := some [65, 66] }
      = .ok obj ∧
    ¬ SeekPositions littleHost obj 1 ∧
    blockSeek obj 1 = .ok (0, obj') ∧ ∃ obj'', blockRead obj' 1 = .ok (1, [65], obj'') := by
  refine ⟨_, _, rfl, ?_, rfl, _, rfl⟩
  rintro ⟨obj', hcall, _, _⟩
  cases hcall

/-! ### Reads in pieces -/

/-- What the requests are to return while `rest` has not been delivered: at the end -1, before it the next
    bytes and their number. -/
def chunkReplies : List UInt8 → List Nat → List BlockReply
  | _, [] => []
  | rest, count :: counts =>
      (if rest = [] then .read (-1) [] else .read (min count rest.length : Nat) (rest.take count)) ::
        chunkReplies (rest.drop count) counts

/-- The requests deliver the block once, in order, and -1 after it. Each takes at least one byte, so that
    -1 is among the replies to more requests than the block has bytes. -/
def ChunkedReads (host : Host) (obj : Block) (counts : List Nat) : Prop :=
  ∃ replies obj', blockCalls host (reads counts) obj = .ok (replies, obj') ∧
    replies = chunkReplies obj.contents counts ∧
    (obj.length < counts.length → .read (-1) [] ∈ replies)

/-- More requests than there are bytes meet the end. -/
theorem mem_chunkReplies {counts : List Nat} : ∀ {rest : List UInt8},
    (∀ c ∈ counts, 1 ≤ c) → rest.length < counts.length →
      .read (-1) [] ∈ chunkReplies rest counts := by
  induction counts with
  | nil =>
      intro rest _ hlt
      cases hlt
  | cons count counts ih =>
      intro rest hpos hlt
      rw [chunkReplies]
      by_cases hrest : rest = []
      · rw [if_pos hrest]
        exact List.mem_cons_self ..
      · have hcount := hpos count (List.mem_cons_self ..)
        have hlen := List.length_pos_iff.mpr hrest
        rw [List.length_cons] at hlt
        apply List.mem_cons_of_mem
        apply ih (fun c hmem => hpos c (List.mem_cons_of_mem _ hmem))
        rw [List.length_drop]
        omega

/-- Of the requests that start at `pos`, those made when everything has been delivered keep their sum with
    the length inside a `size_t`. -/
def EndRequestsFit (len pos : Nat) (counts : List Nat) : Prop :=
  ∀ i c, counts[i]? = some c → len ≤ pos + (counts.take i).sum → c + len < 2 ^ 64

theorem endRequestsFit_cons {len pos count : Nat} (hpos : pos ≤ len) (counts : List Nat) :
    EndRequestsFit len pos (count :: counts) ↔ (pos = len → count + len < 2 ^ 64) ∧
      EndRequestsFit len (pos + min count (len - pos)) counts := by
  constructor
  · intro h
    refine ⟨fun hend => h 0 count rfl (Nat.le_of_eq hend.symm), fun i c hc hle => ?_⟩
    apply h (i + 1) c hc
    rw [List.take_succ_cons, List.sum_cons]
    omega
  · rintro ⟨hfirst, hrest⟩ i c hc hle
    cases i with
    | zero =>
        obtain rfl : count = c := Option.some.inj hc
        rw [List.take_zero, List.sum_nil] at hle
        exact hfirst (by omega)
    | succ i =>
        apply hrest i c hc
        rw [List.take_succ_cons, List.sum_cons] at hle
        omega

/-- The value of a read at the end of the block. -/
theorem Block.readRet_end_iff {obj : Block} {count : Nat} (hend : obj.pos = obj.length)
    (hcount : count < 2 ^ 64) : obj.readRet count = -1 ↔ count + obj.length < 2 ^ 64 := by
  rw [Block.readRet, hend, u64]
  split
  · rename_i h
    omega
  · rename_i h
    constructor
    · intro hneg
      omega
    · intro hlt
      rw [Nat.mod_eq_of_lt hlt] at h
      omega

/-- From any position on, the replies are the ones asked for when and only when the requests at the end
    fit. -/
theorem Block.Sound.reads_chunked (host : Host) {counts : List Nat} : ∀ {obj : Block}, obj.Sound →
    (∀ c ∈ counts, c < 2 ^ 64) →
    ∃ replies obj', blockCalls host (reads counts) obj = .ok (replies, obj') ∧
      (replies = chunkReplies obj.unread counts ↔ EndRequestsFit obj.length obj.pos counts) := by
  induction counts with
  | nil =>
      intro obj _ _
      refine ⟨_, _, rfl, iff_of_true rfl ?_⟩
      intro i c hc
      cases hc
  | cons count counts ih =>
      intro obj h hcounts
      have hpos := h.pos_le
      have hlen : obj.unread.length = obj.length - obj.pos := by
        rw [Block.unread, List.length_drop, h.contents_length]
      rcases ih (h.afterRead count) (fun c hmem => hcounts c (List.mem_cons_of_mem _ hmem))
        with ⟨replies, obj', hrest, htail⟩
      refine ⟨_, obj', h.reads_cons hrest, ?_⟩
      have hhead : BlockReply.read (obj.readRet count) (obj.unread.take count)
          = (if obj.unread = [] then .read (-1) []
              else .read (min count obj.unread.length : Nat) (obj.unread.take count)) ↔
          (obj.pos = obj.length → count + obj.length < 2 ^ 64) := by
        by_cases hend : obj.pos = obj.length
        · have hnil : obj.unread = [] := List.length_eq_zero_iff.mp (by omega)
          rw [if_pos hnil, hnil, List.take_nil, BlockReply.read.injEq, and_iff_left rfl,
            Block.readRet_end_iff hend (hcounts count (List.mem_cons_self ..))]
          exact (imp_iff_right hend).symm
        · have hne : obj.unread ≠ [] := by
            intro hnil
            rw [hnil, List.length_nil] at hlen
            omega
          rw [if_neg hne, hlen, Block.readRet, if_neg fun hc => hend hc.1]
          refine iff_of_true ?_ fun hc => absurd hc hend
          congr 1
          omega
      rw [chunkReplies, List.cons.injEq, hhead, ← h.unread_afterRead, htail, endRequestsFit_cons hpos]
      rfl

/-- For every block at its start and every sequence of requests of at least one byte: the reads deliver
    the block once and then say -1 exactly when the requests made at the end fit. -/
theorem blockReads_chunked_iff (host : Host) (obj : Block) (counts : List Nat) (sound : obj.Sound)
    (hpos : obj.pos = 0) (hcounts : ∀ c ∈ counts, 1 ≤ c ∧ c < 2 ^ 64) :
    ChunkedReads host obj counts ↔ EndRequestsFit obj.length 0 counts := by
  rcases sound.reads_chunked host fun c hmem => (hcounts c hmem).2 with ⟨replies, obj', hcalls, hiff⟩
  have hunread : obj.unread = obj.contents := by rw [Block.unread, hpos, List.drop_zero]
  rw [hunread, hpos] at hiff
  rw [← hiff]
  constructor
  · rintro ⟨replies', obj'', hcalls', heq, _⟩
    rw [hcalls] at hcalls'
    cases hcalls'
    exact heq
  · intro heq
    refine ⟨replies, obj', hcalls, heq, fun hlt => ?_⟩
    rw [heq]
    apply mem_chunkReplies fun c hmem => (hcounts c hmem).1
    rw [sound.contents_length]
    exact hlt

theorem blockReads_chunked_iff_three : ∃ obj,
    dachBlockNew littleHost { length := 3, bid := 0, mode := .readable, data := some [65, 66, 67] }
      = .ok obj ∧
    ChunkedReads littleHost obj [2, 2 ^ 64 - 1, 1] := by
  have new : Block.Made littleHost
      { length := 3, bid := 0, mode := .readable, data := some [65, 66, 67] } _ :=
    ⟨rfl, by decide, .inr ⟨rfl, _, rfl, by decide⟩⟩
  refine ⟨_, rfl, (blockReads_chunked_iff littleHost _ _ new.sound rfl (by decide)).mpr ?_⟩
  intro i c hc hle
  match i with
  | 0 => exact absurd hle (by decide)
  | 1 => exact absurd hle (by decide)
  | 2 =>
      obtain rfl : 1 = c := Option.some.inj hc
      decide
  | i + 3 => cases hc

/-- One byte, asked for and then asked for again with the largest `size_t`: the second read returns 0. -/
theorem blockReads_wrap : ∃ obj obj',
    dachBlockNew littleHost { length := 1, bid := 0, mode := .readable, data := some [65] } = .ok obj ∧
    blockCalls littleHost (reads [1, 2 ^ 64 - 1]) obj = .ok ([.read 1 [65], .read 0 []], obj') ∧
    ¬ ChunkedReads littleHost obj [1, 2 ^ 64 - 1] := by
  refine ⟨_, _, rfl, rfl, ?_⟩
  rintro ⟨replies, obj', hcalls, heq, _⟩
  cases hcalls
  exact absurd heq (by decide)

end Dach
