import ShapeCompiler.Types

/-!
Signatures: a function and the types of its arguments, the key of one specialisation.
-/

namespace ShapeCompiler

/-- A function with the types that it is specialised on. -/
structure Signature where
  function : Ident
  args : List TypeId
  deriving DecidableEq

namespace Signature

def text (s : Signature) : String :=
  s.function ++ "(" ++ String.intercalate ", " (s.args.map TypeId.text) ++ ")"

def describe (s : Signature) (t : TypeTable) : String :=
  s.function ++ "(" ++ String.intercalate ", " (s.args.map t.name) ++ ")"

end Signature

end ShapeCompiler
