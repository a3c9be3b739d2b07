import ShapeCompiler.Function
import ShapeCompiler.Signature

/-!
Static types and the rules that inference and code generation share.

Static types are ordered: unknown, then the sentinel, then a record, then its home. Joining two of
them goes up in this order as little as possible; scalars of different widths do not join.
-/

namespace ShapeCompiler

/-- What is known of the values that an expression can have. -/
inductive StaticType where
  /-- Nothing yet; only seen while inference still iterates. -/
  | unknown
  /-- Only the sentinel. -/
  | incomplete
  /-- Values of a type, or the sentinel. -/
  | known (type : TypeId)
  deriving DecidableEq

namespace StaticType

def known? : StaticType → Option TypeId
  | known id => some id
  | _ => none

/-- The static type of a call whose return type is given; none stands for the sentinel. -/
def ofReturn : Option TypeId → StaticType
  | some id => known id
  | none => incomplete

end StaticType

/-- What a call by name means. -/
inductive Callee where
  | constructor (id : TypeId) (type : RecordType)
  | decorated
  | host (function : HostFunction)

/-- The surroundings in which a function body is typed. -/
structure Typing where
  functions : Functions
  types : TypeTable
  /-- The width of literals. -/
  defaultBits : Nat
  /-- The type of literals. -/
  defaultScalar : TypeId

namespace Typing

def of (functions : Functions) (types : TypeTable) (defaultBits : Nat) :
    Except CompileError Typing :=
  match types.scalar? defaultBits with
  | some id => .ok ⟨functions, types, defaultBits, id⟩
  | none => .error (.type (.scalarNotRegistered defaultBits))

variable (c : Typing)

def decorated? (name : Ident) : Except CompileError FunctionDef :=
  match c.functions.get? name with
  | some (.decorated d) => .ok d
  | _ => .error (.undefinedFunction name)

def expectArgs (name : Ident) (expected got : Nat) (callee : Callee) :
    Except CompileError Callee :=
  if expected = got then .ok callee else .error (.arityMismatch name expected got)

/-- What a call by name with a number of arguments means; constructors hide functions. -/
def resolve (name : Ident) (args : Nat) : Except CompileError Callee :=
  match c.types.recordNamed? name with
  | some (id, r) => expectArgs name r.fields.length args (.constructor id r)
  | none =>
    match c.functions.get? name with
    | none => .error (.undefinedFunction name)
    | some f =>
      expectArgs name f.arity args <|
        match f with
        | .decorated _ => .decorated
        | .interpreted d => .host (.interpreted d)
        | .native n => .host (.native n)

def join : StaticType → StaticType → Except CompileError StaticType
  | .unknown, t => .ok t
  | t, .unknown => .ok t
  | .incomplete, t => .ok t
  | t, .incomplete => .ok t
  | .known a, .known b =>
    if a = b then .ok (.known a)
    else if c.types.widen a = c.types.widen b ∧
        (c.types.scalarBits? (c.types.widen a)).isNone then
      .ok (.known (c.types.widen a))
    else .error (.type (.cannotUnify (c.types.name a) (c.types.name b)))

/-- The width of a scalar type, and the default width for every other type. -/
def scalarBits (id : TypeId) : Nat := (c.types.scalarBits? id).getD c.defaultBits

def expectScalar (op : Operator) (t : StaticType) : Except CompileError Unit :=
  match t.known? with
  | none => .ok ()
  | some id =>
    if (c.types.scalarBits? id).isSome then .ok ()
    else .error (.type (.scalarOperands op (c.types.name id)))

/-- The type of an operation: the wider of the operands. -/
def widerOf : StaticType → StaticType → StaticType
  | .unknown, _ => .unknown
  | _, .unknown => .unknown
  | .known a, .known b =>
    .known ((c.types.scalar? (max (c.scalarBits a) (c.scalarBits b))).getD a)
  | .known a, .incomplete => .known a
  | .incomplete, .known b => .known b
  | .incomplete, .incomplete => .known c.defaultScalar

def binary (op : Operator) (lhs rhs : StaticType) : Except CompileError StaticType := do
  c.expectScalar op lhs
  c.expectScalar op rhs
  pure (c.widerOf lhs rhs)

/-- Whether a value of one type may stand where another is declared; widths do not matter. -/
def fits (expected actual : TypeId) : Bool :=
  match c.types.get? expected, c.types.get? actual with
  | some (.scalar _), some (.scalar _) => true
  | some (.scalar _), _ => false
  | _, some (.scalar _) => false
  | _, _ => actual == expected || c.types.widen actual == expected

/-- Checks an argument against the type that its position declares. -/
def expectType (position : Position) (expected : TypeId) (actual : StaticType) :
    Except CompileError Unit :=
  match actual.known? with
  | none => .ok ()
  | some id =>
    if c.fits expected id then .ok ()
    else .error (.type (.unfit position (c.types.name expected) (c.types.name id)))

/-- Checks the arguments of a constructor against its fields. -/
def checkFields (record : Ident) : List Field → List StaticType → Except CompileError Unit
  | f :: fs, t :: ts => do
    c.expectType (.field record f.name) f.type t
    checkFields record fs ts
  | _, _ => .ok ()

/-- Checks the arguments of a native function, the first of which has position `index`. -/
def checkParams (function : Ident) :
    Nat → List TypeId → List StaticType → Except CompileError Unit
  | index, p :: ps, t :: ts => do
    c.expectType (.argument index function) p t
    checkParams function (index + 1) ps ts
  | _, _, _ => .ok ()

/-- The type of a field access, and the record with the position of the field if both are known. -/
def field (subject : StaticType) (name : Ident) :
    Except CompileError (StaticType × Option (RecordType × Nat)) :=
  match subject with
  | .known id =>
    match c.types.record? id with
    | some r =>
      match r.fieldIndex? name with
      | none => .error (.type (.noField r.name name))
      | some i =>
        match r.fields[i]? with
        | none => .error (.type (.noField r.name name))
        | some f => .ok (.known f.type, some (r, i))
    | none => .error (.type (.fieldOfNonRecord name (c.types.name id)))
  | t => .ok (t, none)

/--
The types of the arguments of a call, the first of which has position `index`; none while one of
them is unknown.
-/
def argTypes (function : Ident) :
    Nat → List StaticType → Except CompileError (Option (List TypeId))
  | _, [] => .ok (some [])
  | _, .unknown :: _ => .ok none
  | index, .incomplete :: _ => .error (.type (.sentinelArgument index function))
  | index, .known id :: rest =>
    match argTypes function (index + 1) rest with
    | .ok ids => .ok (ids.map (id :: ·))
    | .error e => .error e

/-- The signature of a call; none while the type of an argument is unknown. -/
def signature? (function : Ident) (args : List StaticType) :
    Except CompileError (Option Signature) :=
  (argTypes function 0 args).map (·.map (⟨function, ·⟩))

end Typing

end ShapeCompiler
