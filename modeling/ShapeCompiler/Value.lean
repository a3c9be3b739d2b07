import ShapeCompiler.Ident
import ShapeCompiler.TreeView
import ShapeCompiler.Uint

/-!
Values as host code sees them.

Lists and trees of values grow deep, so comparison works off a list of what is still to be
compared, and its recursion does not follow the depth of a value.
-/

namespace ShapeCompiler

/-- A host value. -/
inductive Value where
  /-- An integer without a declared width. -/
  | int (n : UInt64)
  /-- An integer of a fixed width. -/
  | uint (u : Uint)
  /-- An instance of a record type, its fields in declared order. -/
  | record (type : Ident) (fields : List Value)
  /-- The sentinel that stands for a match without a matching arm. -/
  | incomplete

namespace Value

def u24 (n : UInt64) : Value := .uint (Uint.u24 n)

def isIncomplete : Value → Bool
  | incomplete => true
  | _ => false

def isRecord : Value → Bool
  | record _ _ => true
  | _ => false

/-- The number held by an integer, an untyped one being read at `defaultBits`. -/
def asUint (defaultBits : Nat) : Value → Option Uint
  | int n => some (Uint.wrap defaultBits n)
  | uint u => some u
  | _ => none

def typeName : Value → String
  | int _ => "int"
  | uint u => "u" ++ toString u.bits
  | record type _ => type
  | incomplete => "incomplete"

/-- Values as a comparison sees them: records are the nodes, labelled with their types. -/
def view : TreeView Value Ident where
  node?
    | record type fields => some ⟨type, fields⟩
    | _ => none
  sameLeaf
    | int m, int n => m == n
    | uint u, uint v => u == v
    | incomplete, incomplete => true
    | _, _ => false
  exists_size := ⟨sizeOf, fun {x a} h => by
    cases x with
    | record type fields =>
      cases h
      have hlt := WorkList.weigh_sizeOf_lt fields
      show WorkList.weigh sizeOf fields < sizeOf (record type fields)
      rw [record.sizeOf_spec]
      omega
    | int _ | uint _ | incomplete => cases h⟩
  node?_inj {x y a} hx hy := by
    cases x with
    | record =>
      cases y with
      | record => cases hx; cases hy; rfl
      | int _ | uint _ | incomplete => cases hy
    | int _ | uint _ | incomplete => cases hx
  sameLeaf_iff {x y} h := by
    cases x <;> cases y <;> simp_all

instance : BEq Value := ⟨view.same⟩

end Value

end ShapeCompiler
