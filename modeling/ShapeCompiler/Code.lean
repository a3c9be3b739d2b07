import ShapeCompiler.Function
import ShapeCompiler.Signature
import ShapeCompiler.Types.Access

/-!
Register code and the artifacts that hold it.

Jumps are absolute. Registers are numbered from the base of a frame, the parameters first. Calls to
other specialisations and to host functions go through numbered sites, so that the code of one
function does not hold the code of another.
-/

namespace ShapeCompiler

/--
A register, counted from the base of its frame.

Registers, positions in the code and the numbers of call sites are held in words of 32 bits, to which
they are narrowed unchecked. Here they have no bound, which is the same for a function that has fewer
than `2 ^ 32` registers, instructions and call sites.
-/
abbrev Reg := Nat

/-- The representation that a constructor builds. -/
inductive Shape where
  | packed (slots : List Slot)
  /-- The width that each field wraps to; none for a field that is no scalar. -/
  | boxed (widths : List (Option Nat))
  deriving DecidableEq

inductive Op where
  | const (dst : Reg) (value : UInt64)
  | move (dst src : Reg)
  | incomplete (dst : Reg)
  | binary (dst : Reg) (op : Operator) (bits : Nat) (lhs rhs : Reg)
  | construct (dst : Reg) (tag : UInt8) (shape : Shape) (args : List Reg)
  /-- Jumps by the tag; other tags and values without a tag take the default. -/
  | switchTag (subject : Reg) (table : List Nat) (default : Nat)
  /-- Jumps by the number; other numbers and values that are none take the default. -/
  | switchScalar (subject : Reg) (cases : List (UInt64 × Nat)) (default : Nat)
  | unpack (subject : Reg) (fields : List (Reg × FieldAccess))
  | field (dst subject : Reg) (access : FieldAccess)
  | call (dst : Reg) (site : Nat) (args : List Reg)
  | callSelf (dst : Reg) (args : List Reg)
  | callHost (dst : Reg) (site : Nat) (args : List Reg)
  | jump (target : Nat)
  | ret (src : Reg)
  deriving DecidableEq

/-- A call from compiled code to a host function. -/
structure HostSite where
  name : Ident
  function : HostFunction
  /-- The static types of the arguments; none for those that are always the sentinel. -/
  params : List (Option TypeId)
  /-- The type of the result; none if it is always the sentinel. -/
  returns : Option TypeId

/-- The code of a specialisation. -/
structure Artifact where
  signature : Signature
  code : Array Op
  /-- The size of a frame, parameters included. -/
  registers : Nat
  /-- The specialisations called, each bound when it is first called. -/
  callSites : List Signature
  hostSites : List HostSite
  /-- The type of the result; none if it is always the sentinel. -/
  returns : Option TypeId

end ShapeCompiler
