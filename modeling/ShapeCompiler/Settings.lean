import ShapeCompiler.Settings.Line
import ShapeCompiler.Settings.Quoted
import ShapeCompiler.Settings.Numeral

/-!
Settings text: lines of a key, an equals sign and a value, with comments behind a hash mark.

Values are integers, other numerals, truth values, strings, and lists of values between square
brackets. A reader of settings asks for integers only, so all other values are kept as one. No key
may be given twice.
-/

namespace ShapeCompiler.Settings

/-- The value of a key. -/
inductive Setting where
  | integer (n : Int)
  /-- A numeral with a fraction, a truth value, a string or a list. -/
  | other
  deriving DecidableEq

/-- Whether a character may stand in a key without quotation marks. -/
def isKeyChar (c : Char) : Bool := c.isAlphanum || c == '_' || c == '-'

def key? (cs : List Char) : Option (String × List Char) :=
  match cs.head?.bind Quote.ofChar? with
  | some quote => (quote.line? cs.length [] cs.tail).map fun (k, rest) => (String.ofList k, rest)
  | none =>
    let key := cs.takeWhile isKeyChar
    if key.isEmpty then none else some (String.ofList key, cs.dropWhile isKeyChar)

/-- Whether a character ends a value without quotation marks. -/
def endsWord (c : Char) : Bool :=
  isBlank c || c == '\n' || c == '\x0d' || c == ',' || c == ']' || c == '#'

/-- Reads a numeral or a truth value. -/
def word? (cs : List Char) : Option (Setting × List Char) :=
  let word := cs.takeWhile (!endsWord ·)
  let rest := cs.dropWhile (!endsWord ·)
  match integer? word with
  | some n => some (.integer n, rest)
  | none =>
    if word == "true".toList || word == "false".toList || isFraction word then some (.other, rest)
    else none

/-- How many lists may stand within one another. -/
def maxListDepth : Nat := 80

mutual

/-- Reads a value with at most `depth` lists within one another. -/
def value? (depth : Nat) : Nat → List Char → Option (Setting × List Char)
  | 0, _ => none
  | fuel + 1, cs =>
    match cs with
    | [] => none
    | '[' :: rest =>
      match depth with
      | 0 => none
      | depth + 1 => (elements? depth fuel rest).map fun rest => (.other, rest)
    | c :: rest =>
      match Quote.ofChar? c with
      | some quote => (quote.string? rest).map fun rest => (.other, rest)
      | none => word? cs

/-- Reads the values of a list up to its closing bracket; a comma may follow the last. -/
def elements? (depth : Nat) : Nat → List Char → Option (List Char)
  | 0, _ => none
  | fuel + 1, cs =>
    match skipLines cs.length cs with
    | ']' :: rest => some rest
    | cs =>
      (value? depth fuel cs).bind fun (_, rest) =>
        match skipLines rest.length rest with
        | ',' :: rest => elements? depth fuel rest
        | ']' :: rest => some rest
        | _ => none

end

def lines? : Nat → List (String × Setting) → List Char → Option (List (String × Setting))
  | _, done, [] => some done
  | 0, _, _ => none
  | fuel + 1, done, cs =>
    let cs := skipBlanks cs
    match endOfLine? (skipComment cs) with
    | some rest => lines? fuel done rest
    | none =>
      (key? cs).bind fun (key, rest) =>
        match skipBlanks rest with
        | '=' :: rest =>
          (value? maxListDepth (rest.length + 1) (skipBlanks rest)).bind fun (value, rest) =>
            match endOfLine? (skipComment (skipBlanks rest)) with
            | some rest =>
              if done.any (·.1 == key) then none else lines? fuel (done ++ [(key, value)]) rest
            | none => none
        | _ => none

/-- The keys and values of a settings text, in order. A byte order mark in front is no part of
it. -/
def parse? (text : String) : Option (List (String × Setting)) :=
  let cs := text.toList
  let cs := if cs.head? = some '\ufeff' then cs.tail else cs
  lines? (cs.length + 1) [] cs

end ShapeCompiler.Settings
