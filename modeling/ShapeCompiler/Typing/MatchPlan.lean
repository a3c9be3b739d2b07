import ShapeCompiler.Typing
import ShapeCompiler.Types.Access

/-!
Match plans: which arm runs for which tag or literal.

The first arm that matches wins, so an arm whose tag or literal is taken, or that stands behind a
catch-all, never runs and is left out of the plan.
-/

namespace ShapeCompiler

/-- How a match finds its arm; arms are given by their position. -/
inductive Dispatch where
  /-- By the tag: the arm for each variant of a type. -/
  | tags (type : TypeId) (table : List (Option Nat))
  /-- By the number: the arm for each literal. -/
  | scalars (cases : List (UInt64 × Nat))
  /-- No test at all. -/
  | direct
  deriving DecidableEq

structure MatchPlan where
  dispatch : Dispatch
  /-- The arms that can run, in order. -/
  reachable : List Nat := []
  /-- The first catch-all arm. -/
  default : Option Nat := none
  deriving DecidableEq

namespace MatchPlan

/-- Whether some arm runs for every value but the sentinel. -/
def isExhaustive (p : MatchPlan) : Bool :=
  p.default.isSome ||
    match p.dispatch with
    | .tags _ table => table.all Option.isSome
    | _ => false

end MatchPlan

/-- A name bound by an arm. -/
structure Binder where
  name : Ident
  type : StaticType
  /-- The way to the field; none binds the subject itself. -/
  access : Option FieldAccess

namespace Pattern

/-- Whether the pattern names a record type. -/
def isCtor : Pattern → Bool
  | ctor _ _ => true
  | _ => false

def isLit : Pattern → Bool
  | lit _ => true
  | _ => false

end Pattern

namespace Typing

variable (c : Typing)

/-- The type with its variants that constructor patterns on a type choose from. -/
def variantsOf (id : TypeId) : Except MatchFault (TypeId × List TypeId) :=
  match c.types.get? id with
  | some (.sum s) => .ok (id, s.variants)
  | some (.record r) =>
    match r.home with
    | some home => .ok (home, ((c.types.sum? home).map (·.variants)).getD [])
    | none => .ok (id, [id])
  | _ => .error (.constructorOnScalar (c.types.name id))

def firstNamed (patterns : List Pattern) : Except MatchFault TypeId :=
  let first := patterns.findSome? fun
    | .ctor name _ => some name
    | _ => none
  match first.bind c.types.recordNamed? with
  | some (id, _) => .ok id
  | none => .error .noRecordNamed

/-- The tag of the variant that a constructor pattern tests for. -/
def tagOf (type : TypeId) (variants : List TypeId) (name : Ident) : Except MatchFault Nat :=
  match (c.types.lookup name).bind fun id => variants.findIdx? (· == id) with
  | some tag => .ok tag
  | none => .error (.notVariant name (c.types.name type))

def variantArity (variants : List TypeId) (tag : Nat) : Nat :=
  ((variants[tag]?.bind c.types.record?).map (·.fields.length)).getD 0

/-- Adds arms to a table of tags, the first of which has position `index`. -/
def planTags (type : TypeId) (variants : List TypeId) :
    Nat → List (Option Nat) → List Nat → List Pattern → Except MatchFault MatchPlan
  | _, table, reachable, [] => .ok { dispatch := .tags type table, reachable }
  | index, table, reachable, .ctor name binders :: rest => do
    let tag ← c.tagOf type variants name
    let arity := c.variantArity variants tag
    if !binders.isEmpty && binders.length != arity then
      .error (.binderCount (.ctor name binders) binders.length name arity)
    else if (table[tag]?.bind id).isNone then
      planTags type variants (index + 1) (table.set tag (some index)) (reachable ++ [index]) rest
    else planTags type variants (index + 1) table reachable rest
  | index, table, reachable, _ :: _ =>
    .ok { dispatch := .tags type table, reachable := reachable ++ [index], default := some index }

/-- Adds arms to a list of literals of a width, the first of which has position `index`. -/
def planScalars (bits : Nat) : Nat → List (UInt64 × Nat) → List Nat → List Pattern → MatchPlan
  | _, cases, reachable, [] => { dispatch := .scalars cases, reachable }
  | index, cases, reachable, .lit n :: rest =>
    let n := n &&& mask bits
    if cases.any (·.1 == n) then planScalars bits (index + 1) cases reachable rest
    else planScalars bits (index + 1) (cases ++ [(n, index)]) (reachable ++ [index]) rest
  | index, cases, reachable, _ :: _ =>
    { dispatch := .scalars cases, reachable := reachable ++ [index], default := some index }

/-- The width at which literals are compared with a subject. -/
def literalBits (subject : StaticType) : Except MatchFault Nat :=
  match subject.known? with
  | none => .ok c.defaultBits
  | some id =>
    match c.types.scalarBits? id with
    | some bits => .ok bits
    | none => .error (.literalOnRecord (c.types.name id))

def planDirect (patterns : List Pattern) : MatchPlan :=
  match patterns.findIdx? (·.isCatchAll) with
  | some index => { dispatch := .direct, reachable := [index], default := some index }
  | none => { dispatch := .direct }

def planArms (subject : StaticType) (patterns : List Pattern) : Except MatchFault MatchPlan :=
  if patterns.any (·.isCtor) then
    if patterns.any (·.isLit) then .error .mixedPatterns
    else do
      let named ←
        match subject.known? with
        | some id => pure id
        | none => c.firstNamed patterns
      let (type, variants) ← c.variantsOf named
      c.planTags type variants 0 (List.replicate variants.length none) [] patterns
  else if patterns.any (·.isLit) then do
    let bits ← c.literalBits subject
    pure (planScalars bits 0 [] [] patterns)
  else .ok (planDirect patterns)

def plan (function : Ident) (subject : StaticType) (patterns : List Pattern) :
    Except CompileError MatchPlan :=
  (c.planArms subject patterns).mapError (.matching function)

def fieldBinders (r : RecordType) : Nat → List Ident → List Field → List Binder
  | index, name :: names, f :: fields =>
    let rest := fieldBinders r (index + 1) names fields
    if Ident.isPlaceholder name then rest else ⟨name, .known f.type, some (r.access index)⟩ :: rest
  | _, _, _ => []

def binders (pattern : Pattern) (subject : StaticType) : List Binder :=
  match pattern with
  | .bind name => if Ident.isPlaceholder name then [] else [⟨name, subject, none⟩]
  | .ctor name names =>
    match c.types.recordNamed? name with
    | some (_, r) => fieldBinders r 0 names r.fields
    | none => []
  | _ => []

end Typing

end ShapeCompiler
