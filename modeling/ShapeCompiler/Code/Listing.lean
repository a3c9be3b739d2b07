import ShapeCompiler.Code

/-!
The text of code: the name of the function, then a line for each instruction with its position.
-/

namespace ShapeCompiler

def Reg.text (r : Reg) : String := "r" ++ toString r

def commaSeparated (texts : List String) : String := String.intercalate ", " texts

def FieldAccess.text : FieldAccess → String
  | packed slot => s!"Packed(PackedField \x7b shift: {slot.shift}, bits: {slot.bits} \x7d)"
  | boxed index => s!"Boxed({index})"

def Reg.listText (rs : List Reg) : String := commaSeparated (rs.map Reg.text)

def Op.text : Op → String
  | const dst value => s!"{Reg.text dst} = const {value}"
  | move dst src => s!"{Reg.text dst} = {Reg.text src}"
  | incomplete dst => s!"{Reg.text dst} = incomplete"
  | binary dst op bits lhs rhs =>
    s!"{Reg.text dst} = {Reg.text lhs} {op.symbol} {Reg.text rhs} as u{bits}"
  | construct dst tag _ args => s!"{Reg.text dst} = construct #{tag}({Reg.listText args})"
  | switchTag subject table default =>
    s!"switch tag {Reg.text subject} [{commaSeparated (table.map toString)}] else {default}"
  | switchScalar subject cases default =>
    let texts := cases.map fun (value, target) => s!"({value}, {target})"
    s!"switch {Reg.text subject} [{commaSeparated texts}] else {default}"
  | unpack subject fields => s!"{Reg.listText (fields.map Prod.fst)} = unpack {Reg.text subject}"
  | field dst subject access => s!"{Reg.text dst} = {Reg.text subject}.{access.text}"
  | call dst site args => s!"{Reg.text dst} = call @{site}({Reg.listText args})"
  | callSelf dst args => s!"{Reg.text dst} = call self({Reg.listText args})"
  | callHost dst site args => s!"{Reg.text dst} = call host @{site}({Reg.listText args})"
  | jump target => s!"jump {target}"
  | ret src => s!"return {Reg.text src}"

/-- A number with blanks in front up to a width of four. -/
def padded (n : Nat) : String :=
  let digits := toString n
  String.ofList (List.replicate (4 - digits.length) ' ') ++ digits

/-- The lines of a text that are each ended by a line feed, a carriage return in front of which is
no part of the line; `line` holds the characters before, the last one first. -/
def endedLines (line : List Char) : List Char → List String
  | [] => if line.isEmpty then [] else [String.ofList line.reverse]
  | '\n' :: rest =>
    let line := if line.head? = some '\x0d' then line.tail else line
    String.ofList line.reverse :: endedLines [] rest
  | c :: rest => endedLines (c :: line) rest

namespace Artifact

/-- The listing of a specialisation, each entry ended by a line feed. -/
def listing (a : Artifact) : String :=
  a.code.toList.zipIdx.foldl (fun text (op, pc) => text ++ padded pc ++ "  " ++ op.text ++ "\n")
    (a.signature.function ++ ":\n")

/-- The lines of the listing of a specialisation; a name with line feeds takes several. -/
def lines (a : Artifact) : List String := endedLines [] a.listing.toList

end Artifact

end ShapeCompiler
