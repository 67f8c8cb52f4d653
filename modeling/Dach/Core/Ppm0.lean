/-
Module: Dach.Core.Ppm0
Layer: Core
Purpose: The order-0 adaptive model of `dach_ppm0.c`. A symbol is a position 1..257 in the table, a
  character is a byte or the reserved 256; the model keeps the characters sorted by frequency and
  keeps the cumulative frequency of every position incrementally.
Imports: Dach.Core.Machine
Trusted boundary: human-reviewed model of src/dach/dach_ppm0.c
Main exports: Ppm0, dachPpm0New, dachPpm0Cumfreq, dachPpm0FindSym, dachSymSwap, dachPpm0Update
-/
import Dach.Core.Machine

namespace Dach

/-- `DACH_SYM_COUNT` -/
def dachSymCount : Nat := 258

/-- The tables of `struct DACH_MODEL_PPM0`. `freq` and `cumfreq` are indexed by character. -/
structure Ppm0 where
  cumfreq : Nat → Nat
  scale : Nat
  chrToSym : Nat → Nat
  symToChr : Nat → Nat
  freq : Nat → Nat

/-- `calloc` of every table. -/
def Ppm0.zeroed : Ppm0 :=
  { cumfreq := fun _ => 0, scale := 0, chrToSym := fun _ => 0, symToChr := fun _ => 0,
    freq := fun _ => 0 }

/-- `dach_add_sym_chr` -/
def dachAddSymChr (ppm : Ppm0) (sym chr : Nat) : Except Abort Ppm0 := do
  cassert (chr ≤ dachSymCount) .addSymChrChr
  cassert (sym < dachSymCount) .addSymChrSym
  return { ppm with
    symToChr := Function.update ppm.symToChr sym chr
    chrToSym := Function.update ppm.chrToSym chr sym }

/-- `dach_get_freq` -/
def dachGetFreq (ppm : Ppm0) (sym : Nat) : Nat :=
  ppm.freq (ppm.symToChr sym)

/-- `dach_inc_freq` on the `u32` counter of the symbol's character. -/
def dachIncFreq (ppm : Ppm0) (sym : Nat) : Ppm0 :=
  let chr := ppm.symToChr sym
  { ppm with freq := Function.update ppm.freq chr (u32 (ppm.freq chr + 1)) }

/-- `dach_inc_cumfreq` -/
def dachIncCumfreq (ppm : Ppm0) (sym : Nat) : Ppm0 :=
  let chr := ppm.symToChr sym
  { ppm with cumfreq := Function.update ppm.cumfreq chr (u64 (ppm.cumfreq chr + 1)) }

/-- `dach_set_cumfreq` -/
def dachSetCumfreq (ppm : Ppm0) (sym cf : Nat) : Except Abort Ppm0 := do
  cassert (sym < dachSymCount) .setCumfreqSym
  let chr := ppm.symToChr sym
  return { ppm with cumfreq := Function.update ppm.cumfreq chr cf }

/-- `dach_ppm0_cumfreq` -/
def dachPpm0Cumfreq (ppm : Ppm0) (sym : Nat) : Except Abort Nat := do
  cassert (sym ≤ dachSymCount) .cumfreqSym
  if sym = dachSymCount then
    return 0
  else
    let chr := ppm.symToChr sym
    return ppm.cumfreq chr

/-- The loop of `dach_ppm0_new_` over the symbols `DACH_SYM_COUNT - 1` down to 1, each standing for
    the character one below it. -/
def ppm0NewLoop : Nat → Ppm0 → Nat → Except Abort (Ppm0 × Nat)
  | 0, ppm, sum => .ok (ppm, sum)
  | chr + 1, ppm, sum => do
      let sym := chr + 1
      let ppm ← dachAddSymChr ppm sym chr
      let ppm := dachIncFreq ppm sym
      let sum := u64 (sum + dachGetFreq ppm sym)
      let ppm ← dachSetCumfreq ppm sym sum
      ppm0NewLoop chr ppm sum

/-- `dach_ppm0_new_` -/
def dachPpm0New : Except Abort Ppm0 := do
  let ppm ← dachAddSymChr Ppm0.zeroed 0 dachSymCount
  let (ppm, sum) ← ppm0NewLoop (dachSymCount - 1) ppm 0
  cassert (sum > 255) .ppm0NewSum
  let ppm := { ppm with scale := sum }
  let cf0 ← dachPpm0Cumfreq ppm 0
  cassert (cf0 = 0) .ppm0NewCumfreq0
  let cf1 ← dachPpm0Cumfreq ppm 1
  cassert (cf1 = ppm.scale) .ppm0NewScale
  cassert (cf1 = dachSymCount - 1) .ppm0NewSymCount
  return ppm

/-- `sym_to_chr` of the model's interface, and the `dach_sym_to_chr` it repeats. -/
def dachSymToChr (ppm : Ppm0) (sym : Nat) : Except Abort Nat := do
  cassert (sym ≤ dachSymCount) .symToChrSym
  return ppm.symToChr sym

/-- `chr_to_sym` of the model's interface. -/
def dachChrToSym (ppm : Ppm0) (chr : Nat) : Except Abort Nat := do
  cassert (chr ≤ 255) .chrToSymChr
  return ppm.chrToSym chr

/-- The search loop of `dach_ppm0_find_sym` from `sym` on, with `left` symbols below
    `DACH_SYM_COUNT` still to look at. -/
def findSymLoop (ppm : Ppm0) (cumfreq : Nat) : Nat → Nat → Except Abort Nat
  | 0, sym => .ok sym
  | left + 1, sym => do
      let cf ← dachPpm0Cumfreq ppm sym
      if cf > cumfreq then findSymLoop ppm cumfreq left (sym + 1) else return sym

/-- `dach_ppm0_find_sym`: the last symbol whose cumulative frequency is above `cumfreq`. -/
def dachPpm0FindSym (ppm : Ppm0) (cumfreq : Nat) : Except Abort Nat := do
  let stopped ← findSymLoop ppm cumfreq (dachSymCount - 1) 1
  let sym := stopped - 1
  cassert (sym ≠ 0) .findSymZero
  return sym

/-- The table writes of `dach_sym_swap` once `freq1 > freq2`: the characters trade places, `chr1`
    takes over the cumulative frequency of `chr2`, and `chr2` gets `--cfreq1`. -/
def symSwapTables (ppm : Ppm0) (sym1 sym2 chr1 chr2 : Nat) : Ppm0 :=
  let cfreq1 := ppm.cumfreq chr1
  let cfreq2 := ppm.cumfreq chr2
  { ppm with
    symToChr := Function.update (Function.update ppm.symToChr sym1 chr2) sym2 chr1
    chrToSym := Function.update (Function.update ppm.chrToSym chr1 sym2) chr2 sym1
    cumfreq := Function.update (Function.update ppm.cumfreq chr1 cfreq2) chr2 (u64sub cfreq1 1) }

/-- `dach_sym_swap`: swap upwards while the frequencies are out of order. Returns `sym_ret` with the
    tables. -/
def dachSymSwap (ppm : Ppm0) (sym1 : Nat) : Nat → Except Abort (Nat × Ppm0)
  | 0 => do
      let chr1 ← dachSymToChr ppm sym1
      let chr2 ← dachSymToChr ppm 0
      if ppm.freq chr1 > ppm.freq chr2 then
        return (0, symSwapTables ppm sym1 0 chr1 chr2)
      else
        return (sym1, ppm)
  | above + 1 => do
      let sym2 := above + 1
      let chr1 ← dachSymToChr ppm sym1
      let chr2 ← dachSymToChr ppm sym2
      if ppm.freq chr1 > ppm.freq chr2 then
        let ppm := symSwapTables ppm sym1 sym2 chr1 chr2
        if sym2 > 1 then
          let (_, ppm) ← dachSymSwap ppm sym2 above
          return (sym2, ppm)
        else
          return (sym2, ppm)
      else
        return (sym1, ppm)

/-- The loop of `dach_ppm0_update` that counts the new occurrence in at `sym` and every symbol
    before it. -/
def incCumfreqLoop (ppm : Ppm0) : Nat → Ppm0
  | 0 => ppm
  | sym + 1 => incCumfreqLoop (dachIncCumfreq ppm (sym + 1)) sym

/-- The swap of `dach_ppm0_update`, which symbol 1 does not need. -/
def updateSwap (ppm : Ppm0) (sym : Nat) : Except Abort Ppm0 :=
  if sym > 1 then do
    let (_, ppm) ← dachSymSwap ppm sym (sym - 1)
    return ppm
  else
    return ppm

/-- `dach_ppm0_update`: returns the new scale with the tables. -/
def dachPpm0Update (ppm : Ppm0) (sym : Nat) : Except Abort (Nat × Ppm0) := do
  cassert (sym > 0 ∧ sym < dachSymCount) .updateSym
  let ppm ← updateSwap (dachIncFreq ppm sym) sym
  let ppm := incCumfreqLoop ppm sym
  let sum ← dachPpm0Cumfreq ppm 1
  let ppm := { ppm with scale := sum }
  let cf0 ← dachPpm0Cumfreq ppm 0
  cassert (cf0 = 0) .updateCumfreq0
  let cf1 ← dachPpm0Cumfreq ppm 1
  cassert (ppm.scale = cf1) .updateScale
  return (ppm.scale, ppm)

end Dach
