/-
Module: Dach.Proofs.Block
Layer: Proofs
Purpose: What one operation of a block does: a read takes the bytes at the position, a write replaces
  them and grows the block when it reaches the end.
Imports: Dach.Core.Block
Trusted boundary: none
Main exports: Block.contents, blockRead_spec, blockRead_atEnd, overwrite, Block.wrote, blockWrite_eq
-/
import Dach.Core.Block

namespace Dach

/-- The bytes of a block. -/
def Block.contents (blk : Block) : List UInt8 := blk.data.take blk.length

/-! ### Reading -/

/-- The copy loop of `block_read` takes what is left in the block, at most `count` bytes. -/
theorem blockReadLoop_eq (count : Nat) : ∀ (obj : Block), obj.pos ≤ obj.length →
    obj.length ≤ obj.data.length →
    blockReadLoop count obj = .ok ((obj.data.drop obj.pos).take (min count (obj.length - obj.pos)),
      { obj with pos := obj.pos + min count (obj.length - obj.pos) }) := by
  induction count with
  | zero =>
      intro obj _ _
      simp [blockReadLoop]
  | succ count ih =>
      intro obj hpos hdata
      rw [blockReadLoop]
      by_cases hend : obj.pos = obj.length
      · have hzero : min (count + 1) (obj.length - obj.pos) = 0 := by omega
        rw [if_pos hend, hzero]
        rfl
      · have hlt : obj.pos < obj.data.length := by omega
        have hrest := ih { obj with pos := obj.pos + 1 } (show obj.pos + 1 ≤ obj.length by omega) hdata
        have hmin : min (count + 1) (obj.length - obj.pos)
            = min count (obj.length - (obj.pos + 1)) + 1 := by omega
        rw [if_neg hend, List.getElem?_eq_getElem hlt, hmin, List.drop_eq_getElem_cons hlt,
          List.take_succ_cons]
        simp only [hrest, ok_bind, pure_eq_ok]
        congr 3
        omega

/-- What `block_read` returns: the number of bytes it takes, but -1 when there are none left and the
    sum of the count and the position, as a `size_t`, reaches the length. -/
def Block.readRet (obj : Block) (count : Nat) : Int :=
  if obj.pos = obj.length ∧ obj.length ≤ u64 (count + obj.pos) then -1
  else min count (obj.length - obj.pos)

/-- `block_read` takes what is left in the block, at most `count` bytes. Where the sum of the count
    and the position wraps around, the copy loop still stops at the length. -/
theorem blockRead_spec {obj : Block} (hpos : obj.pos ≤ obj.length)
    (hdata : obj.length ≤ obj.data.length) (count : Nat) :
    blockRead obj count
      = .ok (obj.readRet count, (obj.data.drop obj.pos).take (min count (obj.length - obj.pos)),
          { obj with pos := obj.pos + min count (obj.length - obj.pos) }) := by
  have hloop := fun count => blockReadLoop_eq count obj hpos hdata
  have hwrap : u64 (count + obj.pos) ≤ count + obj.pos := Nat.mod_le _ _
  by_cases hend : u64 (count + obj.pos) ≥ obj.length ∧ obj.pos = obj.length
  · obtain ⟨hge, hlast⟩ := hend
    have hzero : obj.length - obj.pos = 0 := by omega
    have hret : obj.readRet count = -1 := if_pos ⟨hlast, hge⟩
    rw [hret, hzero, Nat.min_zero, List.take_zero, Nat.add_zero]
    simp only [blockRead, cassert_pos _ hpos, ok_bind, hzero, hge, and_self, if_true,
      pure_eq_ok]
  · -- the clamped count and the given one take the same bytes
    have hclamp : min (if u64 (count + obj.pos) ≥ obj.length then obj.length - obj.pos else count)
        (obj.length - obj.pos) = min count (obj.length - obj.pos) := by
      split <;> omega
    have hmore : ¬ (u64 (count + obj.pos) ≥ obj.length ∧
        (if u64 (count + obj.pos) ≥ obj.length then obj.length - obj.pos else count) = 0) := by
      intro h
      rw [if_pos h.1] at h
      omega
    have hret : obj.readRet count = (min count (obj.length - obj.pos) : Nat) := by
      rw [Block.readRet, if_neg fun h => hend ⟨h.2, h.1⟩]
      omega
    have hbytes : ((obj.data.drop obj.pos).take (min count (obj.length - obj.pos))).length
        = min count (obj.length - obj.pos) := by
      rw [List.length_take, List.length_drop]
      omega
    have hafter : obj.pos + min count (obj.length - obj.pos) ≤ obj.length := by omega
    simp only [blockRead, cassert_pos _ hpos, hmore, if_false, hloop, hclamp, cassert_pos _ hafter,
      hbytes, hret, ok_bind, pure_eq_ok]

/-- `block_read` before the end of the block. -/
theorem blockRead_eq (obj : Block) (count : Nat) (hpos : obj.pos < obj.length)
    (hdata : obj.length ≤ obj.data.length) :
    ∃ n, n = min count (obj.length - obj.pos) ∧
      blockRead obj count = .ok (n, (obj.data.drop obj.pos).take n,
        { obj with pos := obj.pos + n }) := by
  have hret : obj.readRet count = (min count (obj.length - obj.pos) : Nat) := by
    rw [Block.readRet, if_neg fun h => absurd h.1 (Nat.ne_of_lt hpos)]
    omega
  refine ⟨_, rfl, ?_⟩
  rw [blockRead_spec (Nat.le_of_lt hpos) hdata, hret]

/-- `block_read` at the end of the block. -/
theorem blockRead_atEnd {obj : Block} {count : Nat} (hpos : obj.pos = obj.length)
    (hwrap : count + obj.pos < 2 ^ 64) : blockRead obj count = .ok (-1, [], obj) := by
  have hge : count + obj.pos ≥ obj.length := by omega
  have hzero : obj.length - obj.pos = 0 := by omega
  simp [blockRead, cassert_pos _ (Nat.le_of_eq hpos), u64_of_lt hwrap, hge, hzero]

/-! ### Writing -/

/-- The memory with `buf` written over it at the offset `pos`, longer when `buf` reaches past it. -/
def overwrite (data : List UInt8) (pos : Nat) (buf : List UInt8) : List UInt8 :=
  data.take pos ++ buf ++ data.drop (pos + buf.length)

theorem length_overwrite {data : List UInt8} {pos : Nat} (hpos : pos ≤ data.length)
    (buf : List UInt8) :
    (overwrite data pos buf).length = max data.length (pos + buf.length) := by
  simp only [overwrite, List.length_append, List.length_take, List.length_drop]
  omega

theorem overwrite_nil (data : List UInt8) (pos : Nat) : overwrite data pos [] = data := by
  simp [overwrite]

/-- Writing byte by byte. -/
theorem overwrite_cons {data : List UInt8} {pos : Nat} (hpos : pos < data.length) (byte : UInt8)
    (buf : List UInt8) :
    overwrite (data.set pos byte) (pos + 1) buf = overwrite data pos (byte :: buf) := by
  have htake : (data.set pos byte).take (pos + 1) = data.take pos ++ [byte] := by
    rw [List.take_add_one, List.take_set_of_le (Nat.le_refl pos), List.getElem?_set_self hpos]
    rfl
  have hdrop : (data.set pos byte).drop (pos + 1 + buf.length)
      = data.drop (pos + (byte :: buf).length) := by
    rw [List.drop_set_of_lt (by omega), List.length_cons]
    congr 1
    omega
  rw [overwrite, overwrite, htake, hdrop]
  simp

/-- Writing twice in a row. -/
theorem overwrite_overwrite {data : List UInt8} {pos : Nat} (hpos : pos ≤ data.length)
    (one two : List UInt8) :
    overwrite (overwrite data pos one) (pos + one.length) two = overwrite data pos (one ++ two) := by
  have hfront : (data.take pos ++ one).length = pos + one.length := by
    rw [List.length_append, List.length_take]
    omega
  have htake : (overwrite data pos one).take (pos + one.length) = data.take pos ++ one :=
    List.take_left' hfront
  have hdrop : (overwrite data pos one).drop (pos + one.length + two.length)
      = data.drop (pos + (one ++ two).length) := by
    rw [← List.drop_drop, overwrite, List.drop_left' hfront, List.drop_drop, List.length_append,
      Nat.add_assoc]
  rw [overwrite, htake, hdrop, overwrite]
  simp

/-- Growing the memory first does not change what is written. -/
theorem overwrite_realloc (heap : Nat → UInt8) (data : List UInt8) (pos : Nat) (buf : List UInt8)
    (hpos : pos ≤ data.length) (hgrow : data.length ≤ pos + buf.length) :
    overwrite (realloc heap data (pos + buf.length)) pos buf = overwrite data pos buf := by
  have hlen : (realloc heap data (pos + buf.length)).length = pos + buf.length := by
    simp only [realloc, List.length_append, List.length_take, List.length_drop, List.length_map,
      List.length_range]
    omega
  have htake : (realloc heap data (pos + buf.length)).take pos = data.take pos := by
    rw [realloc, List.take_of_length_le hgrow, List.take_append_of_le_length hpos]
  rw [overwrite, overwrite, htake, List.drop_of_length_le (Nat.le_of_eq hlen),
    List.drop_of_length_le hgrow]

/-- The block after a write of `buf`. -/
def Block.wrote (obj : Block) (buf : List UInt8) : Block :=
  { obj with
    pos := obj.pos + buf.length
    bytesWritten := obj.bytesWritten + buf.length
    data := overwrite obj.data obj.pos buf
    length := max obj.length (obj.pos + buf.length) }

theorem Block.wrote_nil {blk : Block} (hpos : blk.pos ≤ blk.length) : blk.wrote [] = blk := by
  simp [Block.wrote, overwrite_nil, Nat.max_eq_left hpos]

theorem Block.wrote_wrote {blk : Block} (hpos : blk.pos ≤ blk.data.length) (one two : List UInt8) :
    (blk.wrote one).wrote two = blk.wrote (one ++ two) := by
  simp only [Block.wrote, overwrite_overwrite hpos, List.length_append, Nat.add_assoc]
  congr 1
  omega

/-- The copy loop of `block_write`, inside the memory. -/
theorem blockWriteLoop_eq (buf : List UInt8) : ∀ (obj : Block),
    obj.pos + buf.length ≤ obj.data.length → obj.pos ≤ obj.length →
    blockWriteLoop buf obj = .ok (obj.wrote buf) := by
  induction buf with
  | nil =>
      intro obj _ hpos
      simp [blockWriteLoop, Block.wrote, overwrite_nil, Nat.max_eq_left hpos]
  | cons byte buf ih =>
      intro obj hmem hpos
      rw [List.length_cons] at hmem
      have hlt : obj.pos < obj.data.length := by omega
      have hlength : (if obj.pos + 1 > obj.length then
          ({ obj with data := obj.data.set obj.pos byte, pos := obj.pos + 1, length := obj.pos + 1 }
            : Block)
          else { obj with data := obj.data.set obj.pos byte, pos := obj.pos + 1 })
          = { obj with
              data := obj.data.set obj.pos byte, pos := obj.pos + 1
              length := max obj.length (obj.pos + 1) } := by
        split
        · congr 1
          omega
        · congr 1
          omega
      have hrest := ih
        { obj with
          data := obj.data.set obj.pos byte, pos := obj.pos + 1
          length := max obj.length (obj.pos + 1), bytesWritten := obj.bytesWritten + 1 }
        (by show obj.pos + 1 + buf.length ≤ (obj.data.set obj.pos byte).length
            rw [List.length_set]
            omega)
        (Nat.le_max_right _ _)
      rw [blockWriteLoop, if_pos hlt]
      simp only [hlength, hrest]
      simp only [Block.wrote, overwrite_cons hlt, List.length_cons]
      congr 2 <;> omega

/-- `block_write` on a writable block whose memory is as long as its length: the bytes go to the
    position, and the block grows when they reach past its end. -/
theorem blockWrite_eq (host : Host) (obj : Block) (buf : List UInt8) (hbuf : 0 < buf.length)
    (hmode : obj.mode = .writable) (hdata : obj.data.length = obj.length)
    (hpos : obj.pos ≤ obj.length) (hwrap : obj.pos + buf.length < 2 ^ 64) :
    blockWrite host obj buf = .ok (1, obj.wrote buf) := by
  have hcomm : buf.length + obj.pos = obj.pos + buf.length := Nat.add_comm _ _
  have hwrote : (obj.wrote buf).pos ≤ (obj.wrote buf).length := Nat.le_max_right _ _
  simp only [blockWrite, cassert_pos _ hbuf, cassert_pos _ hmode, ok_bind, hcomm, u64_of_lt hwrap]
  by_cases hgrow : obj.pos + buf.length ≥ obj.length
  · have hloop := blockWriteLoop_eq buf
      { obj with
        data := realloc (host.heap obj.id) obj.data (obj.pos + buf.length)
        length := obj.pos + buf.length }
      (by
        show obj.pos + buf.length ≤ (realloc _ _ _).length
        simp only [realloc, List.length_append, List.length_take, List.length_drop, List.length_map,
          List.length_range]
        omega)
      (Nat.le_add_right _ _)
    have hsame : Block.wrote
        { obj with
          data := realloc (host.heap obj.id) obj.data (obj.pos + buf.length)
          length := obj.pos + buf.length } buf = obj.wrote buf := by
      have hover := overwrite_realloc (host.heap obj.id) obj.data obj.pos buf (by omega)
        (by omega)
      simp only [Block.wrote, hover, Nat.max_self, Nat.max_eq_right hgrow]
    simp only [if_pos hgrow, hloop, hsame, ok_bind, cassert_pos _ hwrote, pure_eq_ok]
  · have hloop := blockWriteLoop_eq buf obj (by omega) hpos
    simp only [if_neg hgrow, hloop, ok_bind, cassert_pos _ hwrote, pure_eq_ok]

end Dach
