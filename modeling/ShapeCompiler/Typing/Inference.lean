import ShapeCompiler.Typing.Walk

/-!
Return types of all specialisations that a signature can reach.

Starting from the signature alone, every pass walks the specialisations known so far under the
return types found so far, raises these and adds newly called specialisations. The passes end when
one of them changes nothing.
-/

namespace ShapeCompiler

/-- The order in which a pass visits the known specialisations; it may differ from pass to pass. -/
abbrev VisitOrder := Nat → List Signature → List Signature

/-- The order visits every known specialisation, and only these. -/
def VisitOrder.Complete (order : VisitOrder) : Prop := ∀ pass l s, s ∈ order pass l ↔ s ∈ l

def VisitOrder.calleesFirst : VisitOrder := fun _ discovered => discovered.reverse

theorem VisitOrder.complete_calleesFirst : VisitOrder.calleesFirst.Complete := fun _ _ _ =>
  List.mem_reverse

/-- A complete visiting order. It may look at the numbers of the types in a signature, as the order of
a hash table does. -/
structure Schedule where
  order : VisitOrder
  complete : order.Complete

def Schedule.calleesFirst : Schedule := ⟨.calleesFirst, VisitOrder.complete_calleesFirst⟩

/-- The return types found, by signature; none stands for the sentinel. -/
abbrev ReturnTypes := Assoc Signature (Option TypeId)

namespace Typing

variable (c : Typing)

/-- The passes allowed for each known specialisation. -/
def passesPerInstance : Nat := 4

/-- The definition that a specialisation belongs to, and whether it must not loop. -/
def instance? (s : Signature) : Except CompileError (FunctionDef × Bool) :=
  match c.functions.get? s.function with
  | some (.decorated d) => .ok (d, true)
  | some (.interpreted d) => .ok (d, false)
  | _ => .error (.undefinedFunction s.function)

/-- Walks one specialisation under the return types assumed so far. -/
def walk (assumed : Assumptions) (s : Signature) : Except CompileError (StaticType × List Signature) := do
  let (d, strict) ← c.instance? s
  let w : Walker := { c with assumed, function := s.function, strict }
  let (t, f) ← (w.returnType d s.args).run {}
  pure (t, f.discovered)

/-- Visits specialisations in order; what one visit finds is assumed by the next. -/
def visit :
    Assumptions → List Signature → Except CompileError (Assumptions × List Signature)
  | assumed, [] => .ok (assumed, [])
  | assumed, s :: rest => do
    let (t, discovered) ← c.walk assumed s
    let old := (assumed.get? s).getD .unknown
    let joined ← c.join old t
    let (assumed, later) ← visit (if joined = old then assumed else assumed.insert s joined) rest
    pure (assumed, discovered ++ later)

def assumeNothing (assumed : Assumptions) (signatures : List Signature) : Assumptions :=
  signatures.foldl (fun m s => if m.contains s then m else m.insert s .unknown) assumed

/-- One pass over the known specialisations. -/
def pass (order : List Signature → List Signature) (assumed : Assumptions) :
    Except CompileError Assumptions := do
  let (raised, discovered) ← c.visit assumed (order assumed.keys)
  pure (assumeNothing raised discovered)

/-- Passes until nothing changes, as long as their number stays within its bound. -/
def settle (order : VisitOrder) (root : Ident) :
    Nat → Nat → Assumptions → Except CompileError ReturnTypes
  | 0, passes, _ => .error (.type (.unsettled root passes))
  | fuel + 1, passes, assumed =>
    if passes ≤ passesPerInstance * assumed.size then do
      let next ← c.pass (order passes) assumed
      if next = assumed then
        pure ⟨assumed.entries.map fun (s, t) => (s, t.known?)⟩
      else settle order root fuel (passes + 1) next
    else .error (.type (.unsettled root passes))

/--
A bound on the specialisations that can ever be known, the root included: each argument has a type of
the table or one that an argument of the root has.
-/
def instanceBound (root : Signature) : Nat :=
  1 + WorkList.weigh (fun (_, f) => Nat.pow (c.types.size + root.args.length) f.arity)
    c.functions.entries

def infer (order : VisitOrder) (root : Signature) : Except CompileError ReturnTypes :=
  c.settle order root.function (passesPerInstance * c.instanceBound root + 2) 0
    (Assoc.empty.insert root .unknown)

end Typing

end ShapeCompiler
