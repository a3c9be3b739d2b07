import ShapeCompiler.Compiled

/-!
From host values to compiled values.

Integers of any width are accepted where a scalar is declared and wrap to its width. The sentinel
is accepted under every type, but not inside a record. The conversion works off a list of tasks, so
its recursion does not follow the depth of a value.
-/

namespace ShapeCompiler

/-- The number held by an integer, wrapped to a width. -/
def Value.wordAt? (bits : Nat) : Value → Option UInt64
  | int n => some (n &&& mask bits)
  | uint u => some (u.value &&& mask bits)
  | _ => none

namespace TypeTable

/-- The record type of an instance with a given name and number of fields under a static type. -/
def instanceType (t : TypeTable) (name : Ident) (fields : Nat) (type : TypeId) :
    Except TypeError RecordType :=
  match (t.lookup name).filter (fun id => id = type ∨ t.widen id = type) with
  | none => .error (.notValueOf name (t.name type))
  | some id =>
    match t.record? id with
    | none => .error (.notRecord name)
    | some r =>
      if r.fields.length = fields then .ok r
      else .error (.fieldCount name r.fields.length fields)

/-- Adds integers to a word, each in its slot. -/
def packFields (t : TypeTable) :
    UInt64 → List Value → List Slot → List Field → Except TypeError UInt64
  | word, v :: vs, s :: ss, f :: fs =>
    match v.wordAt? s.bits with
    | none => .error (.wrongValue (t.name f.type) v.typeName)
    | some n => t.packFields (word ||| (n <<< UInt64.ofNat s.shift)) vs ss fs
  | word, _, _, _ => .ok word

end TypeTable

/-- What an encoding still has to do. -/
inductive EncodeTask where
  | value (v : Value) (type : TypeId)
  /-- Build a boxed record from the values encoded last. -/
  | build (tag : UInt8) (arity : Nat)

namespace EncodeTask

def ofFields (vs : List Value) (fields : List Field) : List EncodeTask :=
  List.zipWith (fun v f => value v f.type) vs fields

/-- A bound on the steps that a task takes. -/
noncomputable def weight : EncodeTask → Nat
  | value v _ => sizeOf v
  | build _ _ => 1

theorem weigh_ofFields (vs : List Value) (fields : List Field) :
    WorkList.weigh weight (ofFields vs fields) < sizeOf vs := by
  induction vs generalizing fields with
  | nil => simp [ofFields]
  | cons v rest ih =>
    cases fields with
    | nil =>
      simp only [ofFields, List.zipWith_nil_right, WorkList.weigh_nil, List.cons.sizeOf_spec]
      omega
    | cons f fields =>
      have := ih fields
      simp only [ofFields] at this
      simp [ofFields, weight]
      omega

/-- Works off the tasks; the last encoded value stands first in `out`. -/
def run (t : TypeTable) : List EncodeTask → List Compiled → Except TypeError (List Compiled)
  | [], out => .ok out
  | build tag arity :: rest, out =>
    run t rest (.boxed tag (out.take arity).reverse :: out.drop arity)
  | value .incomplete _ :: rest, out => run t rest (.incomplete :: out)
  | value (.record name vs) type :: rest, out =>
    match t.get? type with
    | some (.record _) | some (.sum _) =>
      match t.instanceType name vs.length type with
      | .error e => .error e
      | .ok r =>
        if vs.any (·.isIncomplete) then .error (.sentinelInRecord name)
        else
          match r.layout with
          | .packed slots =>
            match t.packFields (UInt64.ofNat r.tag.toNat) vs slots r.fields with
            | .error e => .error e
            | .ok word => run t rest (.packed word :: out)
          | .boxed => run t (ofFields vs r.fields ++ build r.tag vs.length :: rest) out
    | _ => .error (.wrongValue (t.name type) name)
  | value (.int n) type :: rest, out =>
    match t.get? type with
    | some (.scalar bits) => run t rest (.scalar (n &&& mask bits) :: out)
    | _ => .error (.wrongValue (t.name type) (Value.int n).typeName)
  | value (.uint u) type :: rest, out =>
    match t.get? type with
    | some (.scalar bits) => run t rest (.scalar (u.value &&& mask bits) :: out)
    | _ => .error (.wrongValue (t.name type) (Value.uint u).typeName)
termination_by tasks => WorkList.weigh weight tasks
decreasing_by
  all_goals simp only [WorkList.weigh_cons, WorkList.weigh_append, weight,
    Value.int.sizeOf_spec, Value.uint.sizeOf_spec, Value.incomplete.sizeOf_spec,
    Value.record.sizeOf_spec]
  any_goals omega
  all_goals
    have := weigh_ofFields vs r.fields
    omega

end EncodeTask

def TypeTable.encode (t : TypeTable) (v : Value) (type : TypeId) : Except TypeError Compiled :=
  match EncodeTask.run t [.value v type] [] with
  | .error e => .error e
  | .ok (c :: _) => .ok c
  | .ok [] => .error (.noValue "encoding")

end ShapeCompiler
