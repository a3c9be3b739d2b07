import ShapeCompiler.Typing.MatchPlan

/-!
Walking a function body over static types.

A walk types every expression that can run, given the return types assumed so far, and collects
the return type of the body and the signatures called that have no assumption yet. The body of a
loop is walked until the types of its variables no longer change, since it may run any number of
times.
-/

namespace ShapeCompiler

abbrev TypeEnv := Assoc Ident StaticType

/-- The return types assumed for specialisations, by signature. -/
abbrev Assumptions := Assoc Signature StaticType

/-- What a walk has found so far. -/
structure Findings where
  /-- The join of the types returned. -/
  returns : StaticType := .unknown
  /-- The called signatures without an assumption, in order. -/
  discovered : List Signature := []

abbrev WalkM := StateT Findings (Except CompileError)

/-- The surroundings of one walk. -/
structure Walker extends Typing where
  assumed : Assumptions
  function : Ident
  /-- Whether the body is to be compiled, and so must not loop. -/
  strict : Bool

namespace TypeEnv

/-- The scope of an arm. -/
def bind (env : TypeEnv) (binders : List Binder) : TypeEnv :=
  env.insertAll (binders.map fun b => (b.name, b.type))

end TypeEnv

/-- A bound on the variables that a block can add to its scope. -/
def Stmt.assignments : List Stmt → Nat
  | [] => 0
  | .assign _ _ :: rest => 1 + assignments rest
  | .loop _ body :: rest => assignments body + assignments rest
  | _ :: rest => assignments rest
termination_by stmts => sizeOf stmts

namespace Walker

variable (w : Walker)

def matchPlan (subject : StaticType) (patterns : List Pattern) : Except CompileError MatchPlan :=
  w.plan w.function subject patterns

/-- The assumed return type of a call; a call without an assumption is noted. -/
def called (name : Ident) (args : List StaticType) : WalkM StaticType := do
  match ← Typing.signature? name args with
  | none => pure .unknown
  | some signature =>
    match w.assumed.get? signature with
    | some t => pure t
    | none => do
      modify fun f => { f with discovered := f.discovered ++ [signature] }
      pure .unknown

def call (name : Ident) (args : List StaticType) : WalkM StaticType := do
  match ← w.resolve name args.length with
  | .constructor id r => do
    w.checkFields r.name r.fields args
    pure (.known id)
  | .host (.native n) => do
    w.checkParams name 0 n.params args
    pure (.known n.returns)
  | .host (.interpreted _) => w.called name args
  | .decorated => w.called name args

mutual

def expr (env : TypeEnv) : Expr → WalkM StaticType
  | .lit _ => pure (.known w.defaultScalar)
  | .var name =>
    match env.get? name with
    | some t => pure t
    | none => throw (.undefinedVariable w.function name)
  | .binary op lhs rhs => do
    let a ← expr env lhs
    let b ← expr env rhs
    w.binary op a b
  | .call name args => do
    let ts ← exprs env args
    w.call name ts
  | .field subject name => do
    let s ← expr env subject
    let (t, _) ← w.field s name
    pure t
  | .branch subject arms => do
    let s ← expr env subject
    let plan ← w.matchPlan s (arms.map (·.pattern))
    let t ← exprArms env s plan.reachable 0 .unknown arms
    if plan.isExhaustive then pure t else w.join t .incomplete
  | .incomplete => pure .incomplete

def exprs (env : TypeEnv) : List Expr → WalkM (List StaticType)
  | [] => pure []
  | e :: rest => do
    let t ← expr env e
    let ts ← exprs env rest
    pure (t :: ts)

/-- Joins the types of the reachable arms, the first of which has position `index`, to `joined`. -/
def exprArms (env : TypeEnv) (subject : StaticType) (reachable : List Nat) (index : Nat)
    (joined : StaticType) : List (Arm Expr) → WalkM StaticType
  | [] => pure joined
  | ⟨pattern, body⟩ :: rest =>
    if index ∈ reachable then do
      let t ← expr (env.bind (w.binders pattern subject)) body
      let joined ← w.join joined t
      exprArms env subject reachable (index + 1) joined rest
    else exprArms env subject reachable (index + 1) joined rest

end

/-- Joins the types after a round of a loop to those before it. -/
def mergeRound (before : TypeEnv) : List (Ident × StaticType) → Except CompileError TypeEnv
  | [] => .ok before
  | (name, t) :: rest => do
    let joined ←
      match before.get? name with
      | some old => w.join old t
      | none => pure t
    mergeRound (before.insert name joined) rest

/-- Repeats a round of a loop until it leaves the types of the variables alone. -/
def settleLoop (round : TypeEnv → WalkM TypeEnv) : Nat → TypeEnv → WalkM TypeEnv
  | 0, _ => throw (.type (.unsettledLoop w.function))
  | fuel + 1, env => do
    let after ← round env
    let merged ← w.mergeRound env after.entries
    if merged = env then pure env else settleLoop round fuel merged

/--
The rounds after which the types in a loop have settled: every variable enters the scope at most
once and its type goes up at most three times.
-/
def loopRounds (env : TypeEnv) (body : Block) : Nat :=
  4 * (env.size + Stmt.assignments body) + 1

mutual

def block (env : TypeEnv) : List Stmt → WalkM TypeEnv
  | [] => pure env
  | .assign name value :: rest => do
    let t ← w.expr env value
    block (env.insert name t) rest
  | .ret value :: _ => do
    let t ← w.expr env value
    let f ← get
    let joined ← w.join f.returns t
    set { f with returns := joined }
    pure env
  | .eval value :: rest => do
    let _ ← w.expr env value
    block env rest
  | .branch subject arms :: rest => do
    let s ← w.expr env subject
    let plan ← w.matchPlan s (arms.map (·.pattern))
    blockArms env s plan.reachable 0 arms
    block env rest
  | .loop condition body :: rest => do
    if w.strict then throw (.loop w.function)
    let _ ← w.expr env condition
    let env ← w.settleLoop (fun env => block env body) (loopRounds env body) env
    block env rest

/-- Types the reachable arms of a match, the first of which has position `index`. -/
def blockArms (env : TypeEnv) (subject : StaticType) (reachable : List Nat) (index : Nat) :
    List (Arm (List Stmt)) → WalkM Unit
  | [] => pure ()
  | ⟨pattern, body⟩ :: rest => do
    let _ ← (if index ∈ reachable then block (env.bind (w.binders pattern subject)) body else pure env)
    blockArms env subject reachable (index + 1) rest

end

/-- The return type of a function for the given argument types; without a return, the sentinel. -/
def returnType (d : FunctionDef) (args : List TypeId) : WalkM StaticType := do
  if d.arity ≠ args.length then throw (.arityMismatch d.name d.arity args.length)
  let _ ← w.block (Assoc.ofList (d.params.zip (args.map .known))) d.body
  let f ← get
  w.join f.returns .incomplete

end Walker

end ShapeCompiler
