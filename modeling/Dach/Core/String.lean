/-
Module: Dach.Core.String
Layer: Core
Purpose: The search of `dach_string.c` for the longest earlier occurrence of what starts at a position.
Imports: Dach.Core.Machine, Dach.Lib.Loop
Trusted boundary: human-reviewed model of src/dach/dach_string.c
Main exports: Substr, PrevSearch, matchPass, slidePass, dachFindPrevSubstr
-/
import Dach.Core.Machine
import Dach.Lib.Loop

namespace Dach

/-- `struct substr` -/
structure Substr where
  pos : Nat
  len : Nat
deriving DecidableEq, Repr

/-- `slab[i]` -/
def slabAt (slab : List UInt8) (i : Nat) : Except Abort UInt8 :=
  match slab[i]? with
  | none => .error .findPrevSubstrSlab
  | some c => .ok c

/-- The variables of `dach_find_prev_substr`: `b` goes through the back, `f` through the front, and
    `slide` is where the back has started. -/
structure PrevSearch where
  sub : Substr
  b : Nat
  f : Nat
  n : Nat
  slide : Nat
deriving DecidableEq, Repr

/-- One entry of the inner loop of `dach_find_prev_substr`. Its condition reads `slab` only where both
    indices are below their limits. -/
def matchPass (slab : List UInt8) (size pos : Nat) (s : PrevSearch) :
    Except Abort (Option PrevSearch) :=
  if s.b < pos ∧ s.f < size then do
    let back ← slabAt slab s.b
    let front ← slabAt slab s.f
    if back = front then
      return some { s with b := u32 (s.b + 1), f := u32 (s.f + 1), n := u32 (s.n + 1) }
    else
      return none
  else
    return none

/-- One entry of the outer loop. No pass of either loop is made with `b` at `pos`, and each moves it or
    `slide` up, so `pos + 1` entries are enough. -/
def slidePass (slab : List UInt8) (size pos : Nat) (s : PrevSearch) :
    Except Abort (Option PrevSearch) :=
  if s.b < pos then do
    let (_, s) ← Loop.forever .loopForever (matchPass slab size pos) (pos + 1) { s with n := 0 }
    let sub := if s.n > s.sub.len then { len := s.n, pos := s.slide } else s.sub
    let slide := u32 (s.slide + 1)
    return some { s with sub := sub, slide := slide, b := slide, f := pos }
  else
    return none

/-- `dach_find_prev_substr`: the value it returns, and what it leaves in `sub`. -/
def dachFindPrevSubstr (slab : List UInt8) (size pos dist : Nat) : Except Abort (Nat × Substr) := do
  let b := if dist > pos then 0 else pos - dist
  let (_, s) ← Loop.forever .loopForever (slidePass slab size pos) (pos + 1)
    { sub := { pos := 0, len := 0 }, b := b, f := pos, n := 0, slide := b }
  return (0, s.sub)

end Dach
