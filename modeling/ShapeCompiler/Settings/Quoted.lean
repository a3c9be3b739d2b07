import ShapeCompiler.Settings.Line
import ShapeCompiler.Settings.Numeral

/-!
Strings in settings text.

A string stands between single or double quotation marks, three on each side if it has several
lines. Between double ones a backslash opens an escape, and in front of the end of a line it joins
the lines.
-/

namespace ShapeCompiler.Settings

/-- The quotation marks of a string. -/
inductive Quote where
  | single
  | double
  deriving DecidableEq

def Quote.mark : Quote → Char
  | single => '\x27'
  | double => '\x22'

def Quote.ofChar? (c : Char) : Option Quote :=
  if c = '\x27' then some .single else if c = '\x22' then some .double else none

/-- Reads the hexadecimal digits of an escape, which name a character. -/
def escapedCode? (digits : Nat) (cs : List Char) : Option (Char × List Char) :=
  let hex := cs.take digits
  if hex.length = digits then
    match digits? 16 hex with
    | some n => if n.isValidChar ∧ !hex.contains '_' then some (Char.ofNat n, cs.drop digits) else none
    | none => none
  else none

/-- Reads the character behind a backslash. -/
def escaped? : List Char → Option (Char × List Char)
  | 'b' :: rest => some ('\x08', rest)
  | 't' :: rest => some ('\t', rest)
  | 'n' :: rest => some ('\n', rest)
  | 'f' :: rest => some ('\x0c', rest)
  | 'r' :: rest => some ('\x0d', rest)
  | 'e' :: rest => some ('\x1b', rest)
  | '\x22' :: rest => some ('\x22', rest)
  | '\x5c' :: rest => some ('\x5c', rest)
  | 'x' :: rest => escapedCode? 2 rest
  | 'u' :: rest => escapedCode? 4 rest
  | 'U' :: rest => escapedCode? 8 rest
  | _ => none

/-- Reads a character of a string, which may be escaped between double quotation marks. -/
def Quote.char? (q : Quote) : List Char → Option (Char × List Char)
  | [] => none
  | c :: rest =>
    if q = double ∧ c = '\x5c' then escaped? rest
    else if isPrintable c then some (c, rest)
    else none

/-- Reads a string of one line from behind its opening quotation mark, behind the characters
`done`; at most `fuel` characters. -/
def Quote.line? (q : Quote) : Nat → List Char → List Char → Option (List Char × List Char)
  | 0, _, _ => none
  | fuel + 1, done, cs =>
    if cs.head? = some q.mark then some (done.reverse, cs.tail)
    else (q.char? cs).bind fun (c, rest) => line? q fuel (c :: done) rest

/-- The text behind a line break of a string of several lines, with or without a backslash that
joins the lines. -/
def Quote.lineBreak? (q : Quote) (cs : List Char) : Option (List Char) :=
  match cs with
  | '\x5c' :: rest => if q = double then Settings.lineBreak? (skipBlanks rest) else none
  | _ => Settings.lineBreak? cs

/-- The text behind a string of several lines, from behind its opening quotation marks; at most
`fuel` characters. In front of the three closing marks two more may stand as characters. -/
def Quote.block? (q : Quote) : Nat → List Char → Option (List Char)
  | 0, _ => none
  | fuel + 1, cs =>
    let marks := (cs.takeWhile (· == q.mark)).length
    if 3 ≤ marks then if marks ≤ 5 then some (cs.drop marks) else none
    else
      match q.lineBreak? cs with
      | some rest => block? q fuel rest
      | none => (q.char? cs).bind fun (_, rest) => block? q fuel rest

/-- The text behind a string of one or of several lines, from behind its first quotation mark. -/
def Quote.string? (q : Quote) (cs : List Char) : Option (List Char) :=
  if cs.take 2 = [q.mark, q.mark] then q.block? cs.length (cs.drop 2)
  else (q.line? cs.length [] cs).map Prod.snd

end ShapeCompiler.Settings
