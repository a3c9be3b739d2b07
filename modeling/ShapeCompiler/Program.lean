import ShapeCompiler.Ident
import ShapeCompiler.Operator

/-!
Function definitions: patterns, expressions, statements.

One definition serves both the interpreter and the compiler.
-/

namespace ShapeCompiler

/-- What a match arm tests for and binds. -/
inductive Pattern where
  /-- A record of the named type; binds every field, or none if there are no binders. -/
  | ctor (name : Ident) (binders : List Ident)
  /-- An integer, compared at the width of the subject. -/
  | lit (n : UInt64)
  /-- Matches everything and binds it. -/
  | bind (name : Ident)
  /-- Matches everything and binds nothing. -/
  | wildcard
  deriving DecidableEq

namespace Pattern

/-- Whether the pattern matches every value. -/
def isCatchAll : Pattern → Bool
  | bind _ => true
  | wildcard => true
  | _ => false

def text : Pattern → String
  | ctor name binders => name ++ "(" ++ String.intercalate ", " binders ++ ")"
  | lit n => toString n
  | bind name => name
  | wildcard => "_"

end Pattern

/-- An arm of a match over bodies of type `β`. -/
structure Arm (β : Type) where
  pattern : Pattern
  body : β

inductive Expr where
  /-- An integer literal, of the default width. -/
  | lit (n : UInt64)
  | var (name : Ident)
  | binary (op : Operator) (lhs rhs : Expr)
  /-- A call of a function or of a record constructor. -/
  | call (name : Ident) (args : List Expr)
  /-- A field of a record. -/
  | field (subject : Expr) (name : Ident)
  /-- The value of the first arm that matches the subject, else the sentinel. -/
  | branch (subject : Expr) (arms : List (Arm Expr))
  /-- The sentinel. -/
  | incomplete

inductive Stmt where
  /-- Binds or rebinds a variable. -/
  | assign (name : Ident) (value : Expr)
  /-- Ends the function. -/
  | ret (value : Expr)
  /-- Evaluates for the effect alone. -/
  | eval (value : Expr)
  /-- Runs the first arm that matches the subject; without one, goes on behind the match. -/
  | branch (subject : Expr) (arms : List (Arm (List Stmt)))
  /-- Repeats the body while the condition is not zero; only interpreted functions may loop. -/
  | loop (condition : Expr) (body : List Stmt)

/-- A sequence of statements. -/
abbrev Block := List Stmt

/-- A named function with its parameters and its body. -/
structure FunctionDef where
  name : Ident
  params : List Ident
  body : Block

def FunctionDef.arity (f : FunctionDef) : Nat := f.params.length

end ShapeCompiler
