import ShapeCompiler.Code
import ShapeCompiler.Typing.Inference

/-!
From a function body to register code.

The code of a part is a list whose position in the whole is known beforehand, so the targets of its
jumps follow from the lengths of the parts before it. Every expression gets a register of its own;
a variable is the register of the expression that it was bound to.
-/

namespace ShapeCompiler

/-- What lowering has handed out so far. -/
structure Pool where
  registers : Nat := 0
  callSites : List Signature := []
  hostSites : List HostSite := []

abbrev LowerM := StateT Pool (Except CompileError)

namespace Pool

def fresh : LowerM Reg := do
  let p ← get
  set { p with registers := p.registers + 1 }
  pure p.registers

/-- The site for calls of a specialisation, one for all calls of the same. -/
def callSite (s : Signature) : LowerM Nat := do
  let p ← get
  match p.callSites.findIdx? (· == s) with
  | some site => pure site
  | none => do
    set { p with callSites := p.callSites ++ [s] }
    pure p.callSites.length

/-- A new site for one call of a host function. -/
def hostSite (h : HostSite) : LowerM Nat := do
  let p ← get
  set { p with hostSites := p.hostSites ++ [h] }
  pure p.hostSites.length

end Pool

abbrev RegEnv := Assoc Ident (Reg × StaticType)

/-- The code of an expression, and where it leaves its value. -/
structure LoweredExpr where
  code : List Op
  reg : Reg
  type : StaticType

/-- The code of some arguments, and where it leaves their values. -/
structure LoweredArgs where
  code : List Op
  args : List (Reg × StaticType)

/-- The code of an arm without the jump behind it. -/
structure LoweredArm where
  /-- The position of the arm in its match. -/
  index : Nat
  /-- The position of its first instruction. -/
  start : Nat
  code : List Op
  /-- Whether the code goes on behind the match. -/
  exits : Bool

namespace LoweredArm

/-- The length of the arm with the jump behind it. -/
def size (a : LoweredArm) : Nat := a.code.length + if a.exits then 1 else 0

def totalSize : List LoweredArm → Nat
  | [] => 0
  | a :: rest => a.size + totalSize rest

/-- The arms one after another, each followed by a jump to `target` if it exits. -/
def joinTo (target : Nat) (arms : List LoweredArm) : List Op :=
  arms.flatMap fun a => a.code ++ if a.exits then [.jump target] else []

/-- The first instruction of an arm given by its position in the match. -/
def startOf (arms : List LoweredArm) (index : Nat) : Option Nat :=
  (arms.find? (·.index == index)).map (·.start)

end LoweredArm

/-- The instruction that picks the arm of a match; without a matching arm it goes to `miss`. -/
def MatchPlan.switch (p : MatchPlan) (subject : Reg) (arms : List LoweredArm) (miss : Nat) : Op :=
  let default := (p.default.bind (LoweredArm.startOf arms)).getD miss
  let target (index : Nat) : Nat := (LoweredArm.startOf arms index).getD default
  match p.dispatch with
  | .tags _ table => .switchTag subject (table.map fun arm => (arm.map target).getD default) default
  | .scalars cases => .switchScalar subject (cases.map fun (n, arm) => (n, target arm)) default
  | .direct => .jump default

/-- The surroundings in which one specialisation is lowered. -/
structure Lowerer extends Typing where
  returnTypes : ReturnTypes
  signature : Signature
  definition : FunctionDef

namespace Lowerer

variable (l : Lowerer)

def calleeSignature (name : Ident) (types : List StaticType) : Except CompileError Signature := do
  match ← Typing.signature? name types with
  | some s => pure s
  | none => .error (.type (.unresolvedArguments name))

/-- The return type that inference found for a specialisation. -/
def returned (s : Signature) : Except CompileError StaticType :=
  match l.returnTypes.get? s with
  | some t => .ok (.ofReturn t)
  | none => .error (.type (.noReturnType s.function))

/-- The representation that the constructor of a record builds. -/
def shapeOf (r : RecordType) : Shape :=
  match r.layout with
  | .packed slots => .packed slots
  | .boxed => .boxed (r.fields.map fun f => l.types.scalarBits? f.type)

def matchPlan (subject : StaticType) (patterns : List Pattern) : Except CompileError MatchPlan :=
  l.plan l.definition.name subject patterns

def call (name : Ident) (args : List (Reg × StaticType)) : LowerM LoweredExpr := do
  let regs := args.map Prod.fst
  let types := args.map Prod.snd
  let dst ← Pool.fresh
  match ← l.resolve name args.length with
  | .constructor id r => do
    l.checkFields r.name r.fields types
    pure ⟨[.construct dst r.tag (l.shapeOf r) regs], dst, .known id⟩
  | .decorated => do
    let s ← calleeSignature name types
    let t ← l.returned s
    if s = l.signature then pure ⟨[.callSelf dst regs], dst, t⟩
    else do
      let site ← Pool.callSite s
      pure ⟨[.call dst site regs], dst, t⟩
  | .host (.native n) => do
    l.checkParams name 0 n.params types
    let site ← Pool.hostSite ⟨name, .native n, types.map (·.known?), some n.returns⟩
    pure ⟨[.callHost dst site regs], dst, .known n.returns⟩
  | .host (.interpreted d) => do
    let s ← calleeSignature name types
    let t ← l.returned s
    let site ← Pool.hostSite ⟨name, .interpreted d, types.map (·.known?), t.known?⟩
    pure ⟨[.callHost dst site regs], dst, .ofReturn t.known?⟩

def bindFields (subject : Reg) :
    RegEnv → List (Reg × FieldAccess) → List Binder → LowerM (RegEnv × List (Reg × FieldAccess))
  | env, fields, [] => pure (env, fields)
  | env, fields, ⟨name, t, none⟩ :: rest => bindFields subject (env.insert name (subject, t)) fields rest
  | env, fields, ⟨name, t, some access⟩ :: rest => do
    let reg ← Pool.fresh
    bindFields subject (env.insert name (reg, t)) (fields ++ [(reg, access)]) rest

/-- The scope of an arm, and the code that reads the fields which the arm binds. -/
def bindPattern (env : RegEnv) (pattern : Pattern) (subject : Reg) (type : StaticType) :
    LowerM (RegEnv × List Op) := do
  let (env, fields) ← bindFields subject env [] (l.binders pattern type)
  pure (env, if fields.isEmpty then [] else [.unpack subject fields])

mutual

def expr (start : Nat) (env : RegEnv) : Expr → LowerM LoweredExpr
  | .lit n => do
    let dst ← Pool.fresh
    pure ⟨[.const dst (n &&& mask l.defaultBits)], dst, .known l.defaultScalar⟩
  | .var name =>
    match env.get? name with
    | some (reg, t) => pure ⟨[], reg, t⟩
    | none => throw (.undefinedVariable l.definition.name name)
  | .binary op lhs rhs => do
    let a ← expr start env lhs
    let b ← expr (start + a.code.length) env rhs
    let t ← l.binary op a.type b.type
    let bits := (t.known?.map l.scalarBits).getD l.defaultBits
    let dst ← Pool.fresh
    pure ⟨a.code ++ b.code ++ [.binary dst op bits a.reg b.reg], dst, t⟩
  | .call name args => do
    let as ← exprs start env args
    let c ← l.call name as.args
    pure ⟨as.code ++ c.code, c.reg, c.type⟩
  | .field subject name => do
    let s ← expr start env subject
    let (t, location) ← l.field s.type name
    let access := (location.map fun (r, index) => r.access index).getD (.boxed 0)
    let dst ← Pool.fresh
    pure ⟨s.code ++ [.field dst s.reg access], dst, t⟩
  | .branch subject arms => do
    let s ← expr start env subject
    let plan ← l.matchPlan s.type (arms.map (·.pattern))
    let dst ← Pool.fresh
    let first := start + s.code.length + 1
    let (t, lowered) ← exprArms first env s.reg s.type dst plan.reachable 0 .unknown arms
    let t ← if plan.isExhaustive then pure t else l.join t .incomplete
    let miss := first + LoweredArm.totalSize lowered
    let code := s.code ++ [plan.switch s.reg lowered miss]
      ++ LoweredArm.joinTo (miss + 1) lowered ++ [.incomplete dst]
    pure ⟨code, dst, t⟩
  | .incomplete => do
    let dst ← Pool.fresh
    pure ⟨[.incomplete dst], dst, .incomplete⟩

def exprs (start : Nat) (env : RegEnv) : List Expr → LowerM LoweredArgs
  | [] => pure ⟨[], []⟩
  | e :: rest => do
    let a ← expr start env e
    let as ← exprs (start + a.code.length) env rest
    pure ⟨a.code ++ as.code, (a.reg, a.type) :: as.args⟩

/--
The code of the reachable arms of a match whose value goes to `dst`, the first of which has
position `index`, and the join of their types with `joined`.
-/
def exprArms (start : Nat) (env : RegEnv) (subject : Reg) (type : StaticType) (dst : Reg)
    (reachable : List Nat) (index : Nat) (joined : StaticType) :
    List (Arm Expr) → LowerM (StaticType × List LoweredArm)
  | [] => pure (joined, [])
  | ⟨pattern, body⟩ :: rest =>
    if index ∈ reachable then do
      let (scope, unpack) ← l.bindPattern env pattern subject type
      let b ← expr (start + unpack.length) scope body
      let joined ← l.join joined b.type
      let arm : LoweredArm := ⟨index, start, unpack ++ b.code ++ [.move dst b.reg], true⟩
      let (t, arms) ←
        exprArms (start + arm.size) env subject type dst reachable (index + 1) joined rest
      pure (t, arm :: arms)
    else exprArms start env subject type dst reachable (index + 1) joined rest

end

mutual

def block (start : Nat) (env : RegEnv) : List Stmt → LowerM (List Op × Bool)
  | [] => pure ([], false)
  | .assign name value :: rest => do
    let v ← l.expr start env value
    let (code, returns) ← block (start + v.code.length) (env.insert name (v.reg, v.type)) rest
    pure (v.code ++ code, returns)
  | .ret value :: _ => do
    let v ← l.expr start env value
    pure (v.code ++ [.ret v.reg], true)
  | .eval value :: rest => do
    let v ← l.expr start env value
    let (code, returns) ← block (start + v.code.length) env rest
    pure (v.code ++ code, returns)
  | .branch subject arms :: rest => do
    let s ← l.expr start env subject
    let plan ← l.matchPlan s.type (arms.map (·.pattern))
    let first := start + s.code.length + 1
    let lowered ← blockArms first env s.reg s.type plan.reachable 0 arms
    let finish := first + LoweredArm.totalSize lowered
    let (code, returns) ← block finish env rest
    pure (s.code ++ [plan.switch s.reg lowered finish]
      ++ LoweredArm.joinTo finish lowered ++ code, returns)
  | .loop _ _ :: _ => throw (.loop l.definition.name)

/-- The code of the reachable arms of a match, the first of which has position `index`. -/
def blockArms (start : Nat) (env : RegEnv) (subject : Reg) (type : StaticType)
    (reachable : List Nat) (index : Nat) : List (Arm (List Stmt)) → LowerM (List LoweredArm)
  | [] => pure []
  | ⟨pattern, body⟩ :: rest =>
    if index ∈ reachable then do
      let (scope, unpack) ← l.bindPattern env pattern subject type
      let (code, returns) ← block (start + unpack.length) scope body
      let arm : LoweredArm := ⟨index, start, unpack ++ code, !returns⟩
      let arms ← blockArms (start + arm.size) env subject type reachable (index + 1) rest
      pure (arm :: arms)
    else blockArms start env subject type reachable (index + 1) rest

end

def bindParams : RegEnv → List (Ident × TypeId) → LowerM RegEnv
  | env, [] => pure env
  | env, (name, t) :: rest => do
    let reg ← Pool.fresh
    bindParams (env.insert name (reg, .known t)) rest

/-- The code of the body; where it does not always return, it returns the sentinel. -/
def body : LowerM (List Op) := do
  let env ← bindParams .empty (l.definition.params.zip l.signature.args)
  let (code, returns) ← l.block 0 env l.definition.body
  if returns then pure code
  else do
    let dst ← Pool.fresh
    pure (code ++ [.incomplete dst, .ret dst])

def artifact : Except CompileError Artifact := do
  if l.definition.arity ≠ l.signature.args.length then
    .error (.arityMismatch l.definition.name l.definition.arity l.signature.args.length)
  let (code, pool) ← l.body.run {}
  let t ← l.returned l.signature
  pure {
    signature := l.signature
    code := code.toArray
    registers := pool.registers
    callSites := pool.callSites
    hostSites := pool.hostSites
    returns := t.known? }

end Lowerer

/-- Compiles one specialisation: infers the return types it depends on, then lowers its body. -/
def Typing.compile (c : Typing) (order : VisitOrder) (s : Signature) : Except CompileError Artifact := do
  let definition ← c.decorated? s.function
  let returnTypes ← c.infer order s
  Lowerer.artifact { c with returnTypes, signature := s, definition }

end ShapeCompiler
