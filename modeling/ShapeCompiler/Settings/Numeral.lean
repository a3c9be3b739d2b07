/-!
Numerals in settings text.

An integer is a decimal numeral with an optional sign and no leading zeros, or a hexadecimal, octal
or binary numeral behind `0x`, `0o` or `0b`. Underscores may stand between digits. A numeral with a
fraction or an exponent is no integer. An integer has to fit into 128 bits, and a numeral with a
fraction must not be larger than every floating-point number of 64 bits.
-/

namespace ShapeCompiler.Settings

def digit? (base : Nat) (c : Char) : Option Nat :=
  let v :=
    if '0' ≤ c ∧ c ≤ '9' then c.toNat - '0'.toNat
    else if 'a' ≤ c ∧ c ≤ 'f' then 10 + (c.toNat - 'a'.toNat)
    else if 'A' ≤ c ∧ c ≤ 'F' then 10 + (c.toNat - 'A'.toNat)
    else base
  if v < base then some v else none

/-- Reads on behind a digit: further digits, each with at most one underscore in front. -/
def digitsFrom (base : Nat) : Nat → List Char → Option Nat
  | n, [] => some n
  | n, '_' :: c :: rest => (digit? base c).bind fun d => digitsFrom base (base * n + d) rest
  | n, c :: rest => (digit? base c).bind fun d => digitsFrom base (base * n + d) rest

/-- The number written by digits of a base, with underscores between them. -/
def digits? (base : Nat) : List Char → Option Nat
  | [] => none
  | c :: rest => (digit? base c).bind fun d => digitsFrom base d rest

/-- A decimal numeral without leading zeros. -/
def plain? (cs : List Char) : Option Nat :=
  match cs with
  | '0' :: _ :: _ => none
  | _ => digits? 10 cs

/-! ### Integers -/

/-- The integer written by a word, of any size. -/
def unbounded? (cs : List Char) : Option Int :=
  match cs with
  | '0' :: 'x' :: rest => (digits? 16 rest).map Int.ofNat
  | '0' :: 'o' :: rest => (digits? 8 rest).map Int.ofNat
  | '0' :: 'b' :: rest => (digits? 2 rest).map Int.ofNat
  | '-' :: rest => (plain? rest).map fun n => -Int.ofNat n
  | '+' :: rest => (plain? rest).map Int.ofNat
  | _ => (plain? cs).map Int.ofNat

/-- The integer written by a word, if 128 bits hold it with or without a sign. -/
def integer? (cs : List Char) : Option Int :=
  (unbounded? cs).filter fun n => -Int.pow 2 127 ≤ n && n < Int.pow 2 128

/-! ### Fractions -/

/-- The word without its sign. -/
def unsigned (cs : List Char) : List Char :=
  match cs with
  | '-' :: rest => rest
  | '+' :: rest => rest
  | _ => cs

/-- The least number that floating-point numbers of 64 bits round to infinity. -/
def floatBound : Nat := Nat.pow 2 1024 - Nat.pow 2 970

/-- Whether `m` times ten to the power of `e` stays below the bound of floating-point numbers.

The number of digits decides unless the number is near the bound, so that no power is formed for a
large exponent. -/
def isFinite (m : Nat) (e : Int) : Bool :=
  let size := (Nat.toDigits 10 m).length + e
  if m = 0 then true
  else if size < 309 then true
  else if 309 < size then false
  else m * Nat.pow 10 e.toNat < floatBound * Nat.pow 10 (-e).toNat

def isExponentMark (c : Char) : Bool := c == 'e' || c == 'E'

/-- The exponent of ten that a numeral ends with, in front of it the letter e; none is zero. -/
def exponent? (cs : List Char) : Option Int :=
  match cs with
  | [] => some 0
  | _ :: '-' :: rest => (digits? 10 rest).map fun n => -Int.ofNat n
  | _ :: rest => (digits? 10 (unsigned rest)).map Int.ofNat

/-- Whether a word is a numeral with a fraction, an exponent or both that is not too large. -/
def isScientific (body : List Char) : Bool :=
  let mantissa := body.takeWhile (!isExponentMark ·)
  let exponent := body.dropWhile (!isExponentMark ·)
  let whole := mantissa.takeWhile (· != '.')
  let fraction := mantissa.dropWhile (· != '.')
  let places := (fraction.drop 1).filter (· != '_')
  if fraction.isEmpty && exponent.isEmpty then false
  else
    let decimals? := if fraction.isEmpty then some 0 else digits? 10 (fraction.drop 1)
    match plain? whole, decimals?, exponent? exponent with
    | some w, some f, some e => isFinite (w * Nat.pow 10 places.length + f) (e - places.length)
    | _, _, _ => false

/-- Whether a word is a numeral that is no integer, or names infinity or no number. -/
def isFraction (cs : List Char) : Bool :=
  let body := unsigned cs
  body == ['i', 'n', 'f'] || body == ['n', 'a', 'n'] || isScientific body

end ShapeCompiler.Settings
