/-!
Names of functions, types, fields and variables.
-/

namespace ShapeCompiler

/-- The name of a function, type, field or variable. -/
abbrev Ident := String

/-- The underscore, which binds nothing in a constructor pattern. -/
def Ident.isPlaceholder (name : Ident) : Bool := name == "_"

end ShapeCompiler
