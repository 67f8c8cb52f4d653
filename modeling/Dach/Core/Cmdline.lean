/-
Module: Dach.Core.Cmdline
Layer: Core
Purpose: The options of the dach program: the parser of `dach_cmdline.c` over what `getopt_long` returns,
  and the configuration that `main` makes of them.
Imports: Dach.Core.Fdb
Trusted boundary: human-reviewed model of cmdline_parser and of the start of main in src/dach. What
  `getopt_long` returns, one value after the other up to -1, is the input; the copies of the original
  option texts and the help texts are left out
Main exports: strtol, GetoptResult, OptionSlot, ArgsInfo, updateArg, parseOption, cmdlineParser, DachConfig,
  dachDefaultConfig, dachMainConfig
-/
import Dach.Core.Fdb

namespace Dach

/-! ### Numbers -/

/-- `isspace` -/
def isSpace (c : UInt8) : Bool := c = 32 ∨ (9 ≤ c ∧ c ≤ 13)

/-- The value of a digit in any base: 0 to 9, and the letters from 10 on. -/
def digitValue (c : UInt8) : Nat :=
  if 48 ≤ c ∧ c ≤ 57 then c.toNat - 48
  else if 97 ≤ c ∧ c ≤ 122 then c.toNat - 87
  else if 65 ≤ c ∧ c ≤ 90 then c.toNat - 55
  else 36

/-- The digits at the start of a text, and what is behind them. -/
def strtolDigits (base : Nat) (text : List UInt8) : List Nat × List UInt8 :=
  ((text.takeWhile (digitValue · < base)).map digitValue, text.dropWhile (digitValue · < base))

/-- The base that the text after the sign asks for, and its digits. -/
def strtolBase : List UInt8 → Nat × List UInt8
  | 48 :: x :: c :: text =>
      if (x = 120 ∨ x = 88) ∧ digitValue c < 16 then (16, c :: text) else (8, 48 :: x :: c :: text)
  | 48 :: text => (8, 48 :: text)
  | text => (10, text)

/-- The sign of a number, and what follows it. -/
def strtolSign : List UInt8 → Int × List UInt8
  | 45 :: text => (-1, text)
  | 43 :: text => (1, text)
  | text => (1, text)

/-- `strtol(text, &stop_char, 0)`: the value, kept within a `long`, and the text from `stop_char` on. -/
def strtol (text : List UInt8) : Int × List UInt8 :=
  let (sign, rest) := strtolSign (text.dropWhile isSpace)
  let (base, rest) := strtolBase rest
  let (digits, stopChar) := strtolDigits base rest
  if digits = [] then
    (0, text)
  else
    let value := sign * Nat.ofDigits base digits.reverse
    (max (-2 ^ 63) (min (2 ^ 63 - 1) value), stopChar)

/-- Conversion of a `long` to an `int`. -/
def toInt (n : Int) : Int := Int.bmod n (2 ^ 32)

/-- Conversion of an `int` to a `size_t`. -/
def toSizeT (n : Int) : Nat := (n % 2 ^ 64).toNat

/-! ### The parser -/

/-- What a call of `getopt_long` can return before -1, with `optarg`. -/
inductive GetoptResult where
  | help
  | version
  | file (optarg : CString)
  | threads (optarg : CString)
  | blockSize (optarg : CString)
  | console
  /-- `'?'` -/
  | invalid
deriving DecidableEq

/-- An option as `update_arg` sees it: the field in `args_info`, how often it counts as given there, and
    the count in `local_args_info`. -/
structure OptionSlot (α : Type) where
  arg : α
  given : Nat
  prevGiven : Nat
deriving DecidableEq

/-- The options of a call of the parser: `args_info` and `local_args_info`. -/
structure ArgsInfo where
  file : OptionSlot (Option CString)
  threads : OptionSlot Int
  blockSize : OptionSlot Int
  console : OptionSlot Bool
deriving DecidableEq

/-- `cmdline_parser_init` -/
def cmdlineParserInit : ArgsInfo :=
  { file := { arg := none, given := 0, prevGiven := 0 }
    threads := { arg := 16, given := 0, prevGiven := 0 }
    blockSize := { arg := 1000000, given := 0, prevGiven := 0 }
    console := { arg := false, given := 0, prevGiven := 0 } }

/-- `update_arg` with `check_ambiguity`, `override` and `multiple_option` zero; `none` is a failure.
    `convert` gives the new value of the field when the text is one. -/
def updateArg {α : Type} (slot : OptionSlot α) (convert : Option α) : Option (OptionSlot α) :=
  if slot.prevGiven ≠ 0 then
    none
  else if slot.given ≠ 0 then
    some slot
  else
    match convert with
    | none => none
    | some arg => some { arg := arg, given := slot.given + 1, prevGiven := slot.prevGiven + 1 }

/-- The conversion of `ARG_INT`: nothing may be left behind the number. -/
def argInt (val : CString) : Option Int :=
  let (value, stopChar) := strtol val.bytes
  if stopChar = [] then some (toInt value) else none

/-- One entry of the loop of `cmdline_parser_internal`. An error is the status of the `exit` it leads
    to. -/
def parseOption (ai : ArgsInfo) : GetoptResult → Except Nat ArgsInfo
  | .help => .error 0
  | .version => .error 0
  | .file optarg =>
      match updateArg ai.file (some (some optarg)) with
      | none => .error 1
      | some slot => .ok { ai with file := slot }
  | .threads optarg =>
      match updateArg ai.threads (argInt optarg) with
      | none => .error 1
      | some slot => .ok { ai with threads := slot }
  | .blockSize optarg =>
      match updateArg ai.blockSize (argInt optarg) with
      | none => .error 1
      | some slot => .ok { ai with blockSize := slot }
  | .console =>
      match updateArg ai.console (some !ai.console.arg) with
      | none => .error 1
      | some slot => .ok { ai with console := slot }
  | .invalid => .error 1

/-- `cmdline_parser`, with `cmdline_parser_required2` at the end. -/
def cmdlineParser (results : List GetoptResult) : Except Nat ArgsInfo := do
  let ai ← results.foldlM parseOption cmdlineParserInit
  if ai.file.given = 0 then .error 1 else return ai

/-! ### The configuration -/

/-- `DACH_CONFIG`; the `source` and `sink` of a pipe are left out. -/
structure DachConfig where
  file : Option CString
  mode : String
  blockSize : Nat
  threads : Int
deriving DecidableEq

/-- `dach_default_config`. Its four values are those of the first four members: the third is
    `block_size`, the fourth is in the union `source`, and `threads` is zero. -/
def dachDefaultConfig : DachConfig :=
  { file := none, mode := "r", blockSize := 4, threads := 0 }

/-- The configuration of `main`. -/
def dachMainConfig (ai : ArgsInfo) : DachConfig :=
  let dc := dachDefaultConfig
  let dc := if ai.file.given ≠ 0 then { dc with file := ai.file.arg } else dc
  let dc := { dc with
    threads := if ai.threads.given ≠ 0 ∧ ai.threads.arg > dc.threads then ai.threads.arg else dc.threads }
  { dc with
    blockSize :=
      if ai.blockSize.given ≠ 0 ∧ toSizeT ai.blockSize.arg > dc.blockSize then toSizeT ai.blockSize.arg
      else dc.blockSize }

end Dach
