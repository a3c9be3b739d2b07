import ShapeCompiler.Value

/-!
The text of a value.

A record is written as its type name and its fields between round brackets, separated by a comma
and a blank. The writer works off a list of pieces, so its recursion does not follow the depth of
a value.
-/

namespace ShapeCompiler.Value

/-- What is still to be written: a value or a text. -/
inductive Piece where
  | value (v : Value)
  | text (s : String)

namespace Piece

/-- The pieces of a record's fields, with the separators and the closing bracket. -/
def ofFields : List Value → List Piece
  | [] => [.text ")"]
  | [v] => [.value v, .text ")"]
  | v :: rest => .value v :: .text ", " :: ofFields rest

/-- A bound on the steps that a piece takes. -/
noncomputable def weight : Piece → Nat
  | .value v => 2 * sizeOf v
  | .text _ => 1

theorem weigh_ofFields (vs : List Value) :
    WorkList.weigh weight (ofFields vs) < 2 * sizeOf vs := by
  induction vs with
  | nil => simp [ofFields, weight]
  | cons v rest ih =>
    cases rest with
    | nil => simp [ofFields, weight]; omega
    | cons w rest => simp [ofFields, weight] at ih ⊢; omega

def write (done : String) : List Piece → String
  | [] => done
  | .text s :: rest => write (done ++ s) rest
  | .value (.int n) :: rest => write (done ++ toString n) rest
  | .value (.uint u) :: rest => write (done ++ u.text) rest
  | .value .incomplete :: rest => write (done ++ "<incomplete>") rest
  | .value (.record type fields) :: rest =>
    write (done ++ type ++ "(") (ofFields fields ++ rest)
termination_by pieces => WorkList.weigh weight pieces
decreasing_by
  all_goals simp only [WorkList.weigh_cons, WorkList.weigh_append, weight,
    int.sizeOf_spec, uint.sizeOf_spec, incomplete.sizeOf_spec, record.sizeOf_spec]
  any_goals omega
  have := weigh_ofFields fields
  omega

end Piece

def text (v : Value) : String := Piece.write "" [.value v]

end ShapeCompiler.Value
