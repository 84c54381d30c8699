import ItxLlama.Lib.Word
import Mathlib.Data.BitVec
import Mathlib.Logic.Function.Basic

/-!
# `bvprintf`

The directives of SeaBIOS's format strings, printed character by character
through a callback, and `snprintf`, whose callback stops at the end of its
buffer. A string is the list of its characters in front of the terminator.
-/

namespace ItxLlama.Seabios.Printf

open Lib.Signed

/-- What `va_arg` finds: a 32-bit word, or the address of a string. -/
inductive Arg where
  | word (w : BitVec 32)
  | str (s : List Char)
  | null
  deriving DecidableEq, Repr

def vaWord : List Arg → Option (BitVec 32 × List Arg)
  | .word w :: args => some (w, args)
  | _ => none

/-- The second word of a 64-bit argument. -/
def vaUpper (is64 : Bool) (args : List Arg) : Option (BitVec 32 × List Arg) :=
  if is64 then vaWord args else some (0, args)

section

-- what the callback of `putc` keeps
variable {σ : Type} (putc : σ → Char → σ)

def puts (s : List Char) (st : σ) : σ := s.foldl putc st

/-- The digits are those of `Nat.toDigits`, which runs the same loop. -/
def putuint (val : BitVec 32) (st : σ) : σ := puts putc (Nat.toDigits 10 val.toNat) st

def singlehex (val : BitVec 32) : Char :=
  let val := val.toNat
  Char.ofNat (if val ≤ 9 then '0'.toNat + val else 'a'.toNat + val - 10)

/-- How many cases of the switch are fallen through. -/
def puthexCases (width : Int) : Nat := if 1 ≤ width ∧ width ≤ 7 then width.toNat else 8

def puthex (val : BitVec 32) (width : Int) (st : σ) : σ :=
  puts putc ((List.range (puthexCases width)).reverse.map fun i =>
    singlehex ((val >>> (4 * i)) &&& 0xf)) st

/-- `while (tmp >>= 4) count++;` -/
def countHex : (fuel : Nat) → (tmp : BitVec 32) → (count : Nat) → Nat
  | 0, _, count => count
  | fuel + 1, tmp, count =>
    let tmp := tmp >>> 4
    if tmp = 0 then count else countHex fuel tmp (count + 1)

def putprettyhex (val : BitVec 32) (width : Int) (padchar : Char) (st : σ) : σ :=
  let count := countHex 8 val 1
  let width := int32 (width - count)
  puthex putc val count (puts putc (List.replicate width.toNat padchar) st)

/-- The loop over the width; the flag for leading zeros is part of it. -/
def scanWidth : (fieldWidth : Int) → (padchar : Char) → List Char → Int × Char × List Char
  | fieldWidth, padchar, [] => (fieldWidth, padchar, [])
  | fieldWidth, padchar, c :: n =>
    if c.isDigit then
      if fieldWidth = 0 ∧ c = '0' then scanWidth fieldWidth '0' n
      else scanWidth (int32 (fieldWidth * 10 + (c.toNat - '0'.toNat : Nat))) padchar n
    else (fieldWidth, padchar, c :: n)

def scanLong : List Char → Bool × List Char
  | 'l' :: 'l' :: n => (true, n)
  | 'l' :: n => (false, n)
  | n => (false, n)

def putint (val : BitVec 32) (st : σ) : σ :=
  if val.toInt < 0 then putuint putc (-val) (putc st '-') else putuint putc val st

/-- The switch of `bvprintf` over `n`; the format behind the `%` is `s`. The
result has the arguments and the format that are left, `none` where the
arguments do not match. -/
def printConv (fieldWidth : Int) (padchar : Char) (is64 : Bool) (n s : List Char) (args : List Arg)
    (st : σ) : Option (σ × List Arg × List Char) :=
  match n with
  | '%' :: n => some (putc st '%', args, n)
  | 'd' :: n => do
    let (val, args) ← vaWord args
    let (_, args) ← vaUpper is64 args
    some (putint putc val st, args, n)
  | 'u' :: n => do
    let (val, args) ← vaWord args
    let (_, args) ← vaUpper is64 args
    some (putuint putc val st, args, n)
  | 'p' :: n => do
    let (val, args) ← vaWord args
    some (puthex putc val 8 (putc (putc st '0') 'x'), args, n)
  | 'x' :: n => do
    let (val, args) ← vaWord args
    let (upper, args) ← vaUpper is64 args
    if upper ≠ 0 then
      some (puthex putc val 8 (putprettyhex putc upper (int32 (fieldWidth - 8)) padchar st), args,
        n)
    else some (putprettyhex putc val fieldWidth padchar st, args, n)
  | 'c' :: n => do
    let (val, args) ← vaWord args
    some (putc st (Char.ofNat (val.toNat % 0x100)), args, n)
  | '.' :: n =>
    -- hack to support "%.s"
    match n, args with
    | 's' :: n, .str sarg :: args => some (puts putc sarg st, args, n)
    | 's' :: n, .null :: args => some (puts putc "(NULL)".toList st, args, n)
    | 's' :: _, _ => none
    | n, args => some (st, args, n)
  | 's' :: n =>
    match args with
    | .str sarg :: args => some (puts putc sarg st, args, n)
    | _ => none
  | _ => some (putc st '%', args, s)

/-- The directive behind a `%`. -/
def convert (s : List Char) (args : List Arg) (st : σ) : Option (σ × List Arg × List Char) :=
  let (fieldWidth, padchar, n) := scanWidth 0 ' ' s
  let (is64, n) := scanLong n
  printConv putc fieldWidth padchar is64 n s args st

def bvprintfLoop : (fuel : Nat) → (s : List Char) → (args : List Arg) → σ → Option σ
  | 0, _, _, _ => none
  | _ + 1, [], _, st => some st
  | fuel + 1, c :: s, args, st =>
    if c ≠ '%' then bvprintfLoop fuel s args (putc st c)
    else
      match convert putc s args st with
      | none => none
      | some (st, args, s) => bvprintfLoop fuel s args st

def bvprintf (fmt : List Char) (args : List Arg) (st : σ) : Option σ :=
  bvprintfLoop putc (fmt.length + 1) fmt args st

end

/-- The memory with the place of the next character and the end of the buffer. -/
structure SnprintfInfo where
  mem : Nat → Char
  str : Nat
  stop : Nat

def putcStr (sinfo : SnprintfInfo) (c : Char) : SnprintfInfo :=
  if sinfo.str ≥ sinfo.stop then sinfo
  else { sinfo with mem := Function.update sinfo.mem sinfo.str c, str := sinfo.str + 1 }

/-- The memory afterwards and the `int` returned. -/
def snprintf (mem : Nat → Char) (str size : Nat) (fmt : List Char) (args : List Arg) :
    Option ((Nat → Char) × Int) :=
  if size = 0 then some (mem, 0)
  else
    match bvprintf putcStr fmt args ⟨mem, str, str + size⟩ with
    | none => none
    | some sinfo =>
      let stop := if sinfo.str ≥ sinfo.stop then sinfo.stop - 1 else sinfo.str
      some (Function.update sinfo.mem stop '\x00', int32 (stop - str : Nat))

end ItxLlama.Seabios.Printf
