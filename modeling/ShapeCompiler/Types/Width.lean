import ShapeCompiler.Ident

/-!
Names of the scalar types: the letter u and the width in decimal.

Scalars are stored under their canonical name; reading a name also accepts a plus sign and leading
zeros in front of the digits.
-/

namespace ShapeCompiler

def scalarName (bits : Nat) : Ident := "u" ++ toString bits

/-- The number written by decimal digits, of which there is at least one. -/
def decimal? (digits : List Char) : Option Nat :=
  if digits.isEmpty then none
  else if digits.all Char.isDigit then
    some (digits.foldl (fun n c => 10 * n + (c.toNat - '0'.toNat)) 0)
  else none

/-- The number as a width, if it lies between 1 and 64. -/
def width? (n : Nat) : Option Nat := if 1 ≤ n ∧ n ≤ 64 then some n else none

def scalarWidth (name : Ident) : Option Nat :=
  match name.toList with
  | 'u' :: '+' :: digits => (decimal? digits).bind width?
  | 'u' :: digits => (decimal? digits).bind width?
  | _ => none

end ShapeCompiler
