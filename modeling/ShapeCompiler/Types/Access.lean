import ShapeCompiler.Types

/-!
How a field is read out of a record, given the layout of its type.
-/

namespace ShapeCompiler

inductive FieldAccess where
  /-- The bits of a packed word. -/
  | packed (slot : Slot)
  /-- A position in a boxed record, kept in 16 bits. -/
  | boxed (index : UInt16)
  deriving DecidableEq

/-- The way to the field at a position; behind the slots of a packed record, a slot of no bits. -/
def RecordType.access (r : RecordType) (index : Nat) : FieldAccess :=
  match r.layout with
  | .packed slots => .packed (slots.getD index ⟨0, 0⟩)
  | .boxed => .boxed (UInt16.ofNat index)

end ShapeCompiler
