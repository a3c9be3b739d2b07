import ShapeCompiler.Error
import ShapeCompiler.TreeView
import ShapeCompiler.Types

/-!
Values as compiled code holds them.

A scalar and a record of few small scalars are one word; any other record is a tag with its fields.
Comparison works off a list of what is still to be compared, so its recursion does not follow the
depth of a value.
-/

namespace ShapeCompiler

/-- A value in a register or in a boxed record. -/
inductive Compiled where
  | scalar (n : UInt64)
  /-- A record in one word, the tag in the low byte. -/
  | packed (word : UInt64)
  | boxed (tag : UInt8) (fields : List Compiled)
  | incomplete

namespace Compiled

/-- The variant tag of a record. -/
def tag? : Compiled → Option UInt8
  | packed word => some word.toUInt8
  | boxed tag _ => some tag
  | _ => none

def scalar? : Compiled → Option UInt64
  | scalar n => some n
  | _ => none

/-- Whether the value is the sentinel. -/
def isIncomplete : Compiled → Bool
  | incomplete => true
  | _ => false

def kind : Compiled → String
  | scalar _ => "scalar"
  | packed _ => "packed record"
  | boxed _ _ => "boxed record"
  | incomplete => "incomplete"

/-- What a value is to an operation that cannot use it. -/
def found : Compiled → Found
  | incomplete => .sentinel
  | scalar n => .integer (scalar n).kind
  | c => .record c.kind

/-- Compiled values as a comparison sees them: boxed records are the nodes, labelled with their tags. -/
def view : TreeView Compiled UInt8 where
  node?
    | boxed tag fields => some ⟨tag, fields⟩
    | _ => none
  sameLeaf
    | scalar m, scalar n => m == n
    | packed w, packed w' => w == w'
    | incomplete, incomplete => true
    | _, _ => false
  exists_size := ⟨sizeOf, fun {x a} h => by
    cases x with
    | boxed tag fields =>
      cases h
      have hlt := WorkList.weigh_sizeOf_lt fields
      show WorkList.weigh sizeOf fields < sizeOf (boxed tag fields)
      rw [boxed.sizeOf_spec]
      omega
    | scalar _ | packed _ | incomplete => cases h⟩
  node?_inj {x y a} hx hy := by
    cases x with
    | boxed =>
      cases y with
      | boxed => cases hx; cases hy; rfl
      | scalar _ | packed _ | incomplete => cases hy
    | scalar _ | packed _ | incomplete => cases hx
  sameLeaf_iff {x y} h := by
    cases x <;> cases y <;> simp_all

instance : BEq Compiled := ⟨view.same⟩

end Compiled

end ShapeCompiler
