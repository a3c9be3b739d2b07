/-!
The parts of settings text between keys and values: blanks, comments and ends of lines.

Each function takes the text that is left and gives the text behind what it has read.
-/

namespace ShapeCompiler.Settings

def isBlank (c : Char) : Bool := c == ' ' || c == '\t'

/-- The text behind blanks. -/
def skipBlanks (cs : List Char) : List Char := cs.dropWhile isBlank

/-- Whether a character may stand in a string or in a comment. -/
def isPrintable (c : Char) : Bool := c == '\t' || (0x20 ≤ c.toNat && c.toNat != 0x7F)

/-- The text from the end of a comment on. -/
def skipComment (cs : List Char) : List Char :=
  match cs with
  | '#' :: rest => rest.dropWhile isPrintable
  | _ => cs

/-- The text behind a line break; a carriage return counts only in front of a line feed. -/
def lineBreak? (cs : List Char) : Option (List Char) :=
  match cs with
  | '\n' :: rest => some rest
  | '\x0d' :: '\n' :: rest => some rest
  | _ => none

/-- The text behind a line break, or nothing behind the end of the text. -/
def endOfLine? (cs : List Char) : Option (List Char) :=
  if cs.isEmpty then some [] else lineBreak? cs

/-- The text behind blanks, comments and line breaks; at most `fuel` lines. -/
def skipLines : Nat → List Char → List Char
  | 0, cs => cs
  | fuel + 1, cs =>
    let cs := skipComment (skipBlanks cs)
    match lineBreak? cs with
    | some rest => skipLines fuel rest
    | none => cs

end ShapeCompiler.Settings
