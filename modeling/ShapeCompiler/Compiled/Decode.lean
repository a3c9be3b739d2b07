import ShapeCompiler.Compiled

/-!
From compiled values back to host values.

Every integer of the result has the width that its type declares. The conversion works off a list
of tasks, so its recursion does not follow the depth of a value.
-/

namespace ShapeCompiler

def Slot.read (s : Slot) (word : UInt64) : UInt64 := (word >>> UInt64.ofNat s.shift) &&& mask s.bits

/-- What a decoding still has to do. -/
inductive DecodeTask where
  | value (c : Compiled) (type : TypeId)
  /-- Build a record from the values decoded last. -/
  | build (name : Ident) (arity : Nat)

namespace DecodeTask

def ofFields (cs : List Compiled) (fields : List Field) : List DecodeTask :=
  List.zipWith (fun c f => value c f.type) cs fields

/-- A bound on the steps that a task takes. -/
noncomputable def weight : DecodeTask → Nat
  | value c _ => sizeOf c
  | build _ _ => 1

theorem weigh_ofFields (cs : List Compiled) (fields : List Field) :
    WorkList.weigh weight (ofFields cs fields) < sizeOf cs := by
  induction cs generalizing fields with
  | nil => simp [ofFields]
  | cons c rest ih =>
    cases fields with
    | nil =>
      simp only [ofFields, List.zipWith_nil_right, WorkList.weigh_nil, List.cons.sizeOf_spec]
      omega
    | cons f fields =>
      have := ih fields
      simp only [ofFields] at this
      simp [ofFields, weight]
      omega

/-- Works off the tasks; the last decoded value stands first in `out`. -/
def run (t : TypeTable) : List DecodeTask → List Value → Except TypeError (List Value)
  | [], out => .ok out
  | build name arity :: rest, out =>
    run t rest (.record name (out.take arity).reverse :: out.drop arity)
  | value .incomplete _ :: rest, out => run t rest (.incomplete :: out)
  | value (.scalar n) type :: rest, out =>
    match t.scalarBits? type with
    | some bits => run t rest (.uint (Uint.wrap bits n) :: out)
    | none => .error (.undecodable (Compiled.scalar n).kind (t.name type))
  | value (.packed word) type :: rest, out =>
    match t.variant? type word.toUInt8 with
    | some (_, ⟨name, _, _, _, .packed slots⟩) =>
      run t rest
        (.record name (slots.map fun s => .uint (Uint.wrap s.bits (s.read word))) :: out)
    | _ => .error (.undecodable (Compiled.packed word).kind (t.name type))
  | value (.boxed tag cs) type :: rest, out =>
    match t.variant? type tag with
    | some (_, ⟨name, fields, _, _, .boxed⟩) =>
      if cs.length = fields.length then
        run t (ofFields cs fields ++ build name cs.length :: rest) out
      else .error (.undecodable (Compiled.boxed tag cs).kind (t.name type))
    | _ => .error (.undecodable (Compiled.boxed tag cs).kind (t.name type))
termination_by tasks => WorkList.weigh weight tasks
decreasing_by
  all_goals simp only [WorkList.weigh_cons, WorkList.weigh_append, weight,
    Compiled.scalar.sizeOf_spec, Compiled.packed.sizeOf_spec, Compiled.incomplete.sizeOf_spec,
    Compiled.boxed.sizeOf_spec]
  any_goals omega
  have := weigh_ofFields cs fields
  omega

end DecodeTask

def TypeTable.decode (t : TypeTable) (c : Compiled) (type : TypeId) : Except TypeError Value :=
  match DecodeTask.run t [.value c type] [] with
  | .error e => .error e
  | .ok (v :: _) => .ok v
  | .ok [] => .error (.noValue "decoding")

end ShapeCompiler
