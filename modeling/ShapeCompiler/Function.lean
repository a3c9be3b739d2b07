import ShapeCompiler.Assoc
import ShapeCompiler.Native

/-!
What a name that is no record constructor can stand for.
-/

namespace ShapeCompiler

inductive Function where
  /-- Decorated: calls are specialised and compiled. -/
  | decorated (definition : FunctionDef)
  /-- Undecorated: always interpreted. -/
  | interpreted (definition : FunctionDef)
  | native (function : Native)

def Function.arity : Function → Nat
  | decorated d => d.arity
  | interpreted d => d.arity
  | native n => n.params.length

/-- The registered functions by name. -/
abbrev Functions := Assoc Ident Function

/-- A function that compiled code does not enter itself. -/
inductive HostFunction where
  | interpreted (definition : FunctionDef)
  | native (function : Native)

end ShapeCompiler
