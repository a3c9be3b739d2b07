import ShapeCompiler.Engine.Run
import ShapeCompiler.Operator.Arithmetic

/-!
The interpreter of function bodies.

It is given what a call by name does, so its recursion is on the program alone; loops take fuel. It
works in any monad with errors in which a run can be stopped.
Integers keep their widths: an operation is as wide as its wider operand, and a constructor fits
its arguments to the declared widths.
-/

namespace ShapeCompiler

/-- How the interpreter treats a call of a decorated function. -/
inductive Mode where
  /-- It interprets the function too. -/
  | reference
  /-- It has the function compiled. -/
  | host
  deriving DecidableEq

abbrev Env := Assoc Ident Value

/-- How a block went. -/
inductive Flow where
  /-- It goes on behind its end. -/
  | next (env : Env)
  | returned (v : Value)

/-- The surroundings of an interpretation. -/
structure Interpreter where
  types : TypeTable
  mode : Mode
  /-- The width of literals and of untyped integers. -/
  defaultBits : Nat

namespace Interpreter

variable (i : Interpreter)

def bindings (pattern : Pattern) (subject : Value) :
    Except RuntimeError (Option (List (Ident × Value))) :=
  match pattern with
  | .wildcard => .ok (some [])
  | .bind name => .ok (some [(name, subject)])
  | .lit n =>
    match subject.asUint i.defaultBits with
    | some u => .ok (if n &&& mask u.bits = u.value then some [] else none)
    | none => .ok none
  | .ctor name binders =>
    match subject with
    | .record type fields =>
      if type ≠ name then .ok none
      else if binders.isEmpty then .ok (some [])
      else if binders.length ≠ fields.length then
        .error (.arityMismatch name fields.length binders.length)
      else .ok (some ((binders.zip fields).filter fun (b, _) => !Ident.isPlaceholder b))
    | _ => .ok none

/-- The first pattern that matches, counted from `index`, and what it binds. -/
def selectFrom (subject : Value) :
    Nat → List Pattern → Except RuntimeError (Option (Nat × List (Ident × Value)))
  | _, [] => .ok none
  | index, p :: rest =>
    match i.bindings p subject with
    | .error e => .error e
    | .ok (some bound) => .ok (some (index, bound))
    | .ok none => selectFrom subject (index + 1) rest

/-- The position of the first pattern that matches, and what it binds. -/
def selectArm (subject : Value) (patterns : List Pattern) :
    Except RuntimeError (Option (Nat × List (Ident × Value))) :=
  i.selectFrom subject 0 patterns

/-- Whether a record is an instance of a type or of one of its variants. -/
def isInstance (name : Ident) (type : TypeId) : Bool :=
  match i.types.lookup name with
  | some id => id == type || i.types.widen id == type
  | none => false

def coerce (record : Ident) (f : Field) (v : Value) : Except RuntimeError Value :=
  let unfit := .error (.typeMismatch (.argument record f.name) [.ofValue v])
  match i.types.scalarBits? f.type with
  | some bits =>
    match v.asUint i.defaultBits with
    | some u => .ok (.uint (Uint.wrap bits u.value))
    | none => unfit
  | none =>
    match v with
    | .record name _ => if i.isInstance name f.type then .ok v else unfit
    | _ => unfit

/-- Fits constructor arguments to the types of their fields. -/
def coerceAll (record : Ident) : List Field → List Value → Except RuntimeError (List Value)
  | f :: fs, v :: vs => do
    let v ← i.coerce record f v
    let vs ← coerceAll record fs vs
    pure (v :: vs)
  | _, _ => .ok []

def construct (r : RecordType) (args : List Value) : Except RuntimeError Value :=
  if args.length ≠ r.fields.length then
    .error (.arityMismatch r.name r.fields.length args.length)
  else (i.coerceAll r.name r.fields args).map (.record r.name)

def binary (op : Operator) (lhs rhs : Value) : Except RuntimeError Value :=
  match lhs.asUint i.defaultBits, rhs.asUint i.defaultBits with
  | some a, some b =>
    let bits := max a.bits b.bits
    (op.apply a.value b.value bits).map fun n => .uint (Uint.wrap bits n)
  | _, _ => .error (.typeMismatch (.operator op) [.ofValue lhs, .ofValue rhs])

def field (subject : Value) (name : Ident) : Except RuntimeError Value :=
  match subject with
  | .record type fields =>
    let found := do
      let (_, r) ← i.types.recordNamed? type
      let index ← r.fieldIndex? name
      fields[index]?
    match found with
    | some v => .ok v
    | none => .error (.typeMismatch (.access name) [.record type])
  | v => .error (.typeMismatch (.access name) [.ofValue v])

/-- Whether a loop goes on. -/
def holds (condition : Value) : Except RuntimeError Bool :=
  match condition.asUint i.defaultBits with
  | some u => .ok (u.value != 0)
  | none => .error (.typeMismatch .condition [.ofValue condition])

/-- A step of a program as an action that can fail. -/
def step {m : Type → Type} [Monad m] [MonadExceptOf Error m] {α : Type} :
    Except RuntimeError α → m α
  | .ok a => pure a
  | .error e => throw (.runtime e)

variable {m : Type → Type} [Monad m] [MonadExceptOf Error m] [MonadHalt m]
variable (call : Ident → List Value → m Value)

mutual

def expr (env : Env) : Expr → m Value
  | .lit n => pure (.uint (Uint.wrap i.defaultBits n))
  | .var name =>
    match env.get? name with
    | some v => pure v
    | none => throw (.runtime (.undefinedVariable name))
  | .binary op lhs rhs => do
    let a ← expr env lhs
    let b ← expr env rhs
    step (i.binary op a b)
  | .call name args => do
    let vs ← exprs env args
    call name vs
  | .field subject name => do
    let v ← expr env subject
    step (i.field v name)
  | .branch subject arms => do
    let v ← expr env subject
    match ← step (i.selectArm v (arms.map (·.pattern))) with
    | some (index, bound) => exprArm (env.insertAll bound) index arms
    | none => pure .incomplete
  | .incomplete => pure .incomplete

def exprs (env : Env) : List Expr → m (List Value)
  | [] => pure []
  | e :: rest => do
    let v ← expr env e
    let vs ← exprs env rest
    pure (v :: vs)

def exprArm (env : Env) : Nat → List (Arm Expr) → m Value
  | _, [] => pure .incomplete
  | 0, ⟨_, body⟩ :: _ => expr env body
  | index + 1, _ :: rest => exprArm env index rest

end

def repeatWhile (condition : Env → m Value) (body : Env → m Flow) : Nat → Env → m Flow
  | 0, _ => MonadHalt.halt .outOfFuel
  | fuel + 1, env => do
    let v ← condition env
    if ← step (i.holds v) then
      match ← body env with
      | .returned v => pure (.returned v)
      | .next env => repeatWhile condition body fuel env
    else pure (.next env)

mutual

/-- Runs a block; a loop in it runs at most `fuel` rounds. -/
def block (fuel : Nat) (env : Env) : List Stmt → m Flow
  | [] => pure (.next env)
  | .assign name value :: rest => do
    let v ← i.expr call env value
    block fuel (env.insert name v) rest
  | .eval value :: rest => do
    let _ ← i.expr call env value
    block fuel env rest
  | .ret value :: _ => do
    let v ← i.expr call env value
    pure (.returned v)
  | .branch subject arms :: rest => do
    let v ← i.expr call env subject
    let picked ← step (i.selectArm v (arms.map (·.pattern)))
    let flow ← picked.elim (pure (.next env)) fun arm =>
      blockArm fuel (env.insertAll arm.2) arm.1 arms
    match flow with
    | .returned v => pure (.returned v)
    | .next _ => block fuel env rest
  | .loop condition body :: rest => do
    let flow ← i.repeatWhile (fun env => i.expr call env condition)
      (fun env => block fuel env body) fuel env
    match flow with
    | .returned v => pure (.returned v)
    | .next env => block fuel env rest

def blockArm (fuel : Nat) (env : Env) : Nat → List (Arm (List Stmt)) → m Flow
  | _, [] => pure (.next env)
  | 0, ⟨_, body⟩ :: _ => block fuel env body
  | index + 1, _ :: rest => blockArm fuel env index rest

end

/-- Runs the body of a function; without a return it yields the sentinel. -/
def body (fuel : Nat) (d : FunctionDef) (args : List Value) : m Value := do
  match ← i.block call fuel (Assoc.ofList (d.params.zip args)) d.body with
  | .returned v => pure v
  | .next _ => pure .incomplete

end Interpreter

end ShapeCompiler
