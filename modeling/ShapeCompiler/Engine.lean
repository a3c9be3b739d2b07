import ShapeCompiler.Compiled.Decode
import ShapeCompiler.Compiled.Encode
import ShapeCompiler.Lowering
import ShapeCompiler.Options
import ShapeCompiler.Types.Declare

/-!
The engine: registered types and functions, the compiled specialisations and some counts.

Each signature is compiled once. What came out, an artifact or an error, is kept and answered from
then on, also when the function is registered anew. A request that fails may still have changed the
engine, so a failure keeps the engine that it leaves behind.
-/

namespace ShapeCompiler

structure Stats where
  /-- Specialisations compiled, failures included. -/
  compilations : Nat := 0
  /-- Requests for a specialisation that was there already. -/
  cacheHits : Nat := 0
  /-- Entries of the host into compiled code. -/
  executions : Nat := 0
  deriving DecidableEq

/-- The activations of the interpreter. -/
structure Activations where
  /-- Those alive now. -/
  alive : Nat := 0
  /-- The most that were ever alive at once. -/
  peak : Nat := 0
  deriving DecidableEq

structure Engine where
  options : Options
  /-- The order in which passes of inference visit what they know. -/
  schedule : Schedule := .calleesFirst
  types : TypeTable := {}
  functions : Functions := .empty
  /-- The outcome of compiling each signature that was asked for. -/
  compiled : Assoc Signature (Except CompileError Artifact) := .empty
  /-- The artifact bound to a call site, given by its caller and its number there. -/
  bound : Assoc (Signature × Nat) Artifact := .empty
  stats : Stats := {}
  activations : Activations := {}

/-- A request that always ends; it leaves an engine behind also when it fails. -/
abbrev Update := ExceptT Error (StateM Engine)

namespace Engine

/-- An engine without functions that compiles by a schedule; its default scalar is its only type. -/
def createWith (schedule : Schedule) (o : Options) : Except Error Engine :=
  match o.validate with
  | .error fault => .error (.options fault)
  | .ok () => .ok { options := o, schedule, types := (({} : TypeTable).ensureScalar o.defaultBits).2 }

def create (o : Options) : Except Error Engine := createWith .calleesFirst o

def default : Engine :=
  { options := {}, types := (({} : TypeTable).ensureScalar Uint.defaultBits).2 }

/-- The answer of a request and the engine that it leaves behind. -/
def update {α : Type} (e : Engine) (request : Update α) : Except Error α × Engine := request.run.run e

def typing (e : Engine) : Except CompileError Typing :=
  Typing.of e.functions e.types e.options.defaultBits

end Engine

namespace Update

/-- A conversion or compilation step as a request. -/
def ofCompile {α : Type} : Except CompileError α → Update α
  | .ok a => pure a
  | .error e => throw (.compile e)

/-- A step on types as a request. -/
def ofType {α : Type} : Except TypeError α → Update α
  | .ok a => pure a
  | .error e => throw (.compile (.type e))

def declareTypes (group : List TypeDecl) : Update (List TypeId) := do
  let e ← get
  let (ids, types) ← ofType (e.types.declare group)
  set { e with types }
  pure ids

def declareScalar (bits : Nat) : Update TypeId := do
  let e ← get
  let (id, types) ← ofType (e.types.declareScalar bits)
  set { e with types }
  pure id

def register (name : Ident) (f : Function) : Update Unit := do
  let e ← get
  if (e.types.lookup name).isSome then ofType (.error (.nameIsType name))
  else set { e with functions := e.functions.insert name f }

/-- Registers a function whose calls are compiled. -/
def decorate (d : FunctionDef) : Update Unit := register d.name (.decorated d)

def define (d : FunctionDef) : Update Unit := register d.name (.interpreted d)

/-- The type that a native function names; a scalar is registered where it is missing. -/
def nativeType (function : Ident) (type : Ident) : Update TypeId := do
  let e ← get
  match e.types.lookup type with
  | some id => pure id
  | none =>
    match scalarWidth type with
    | some bits => declareScalar bits
    | none => ofType (.error (.unknownNativeType function type))

def defineNative (n : NativeDef) : Update Unit := do
  let params ← n.params.mapM (nativeType n.name)
  let returns ← nativeType n.name n.returns
  register n.name (.native ⟨n.name, params, returns, n.run⟩)

/-- The type that an argument specialises on; `types` are those before the call. -/
def argumentType (types : TypeTable) (function : Ident) : Value → Update TypeId
  | .int _ => do
    let e ← get
    declareScalar e.options.defaultBits
  | .uint u => declareScalar u.bits
  | .record name _ =>
    match types.lookup name with
    | some id => pure id
    | none => ofType (.error (.undeclared name))
  | .incomplete => ofType (.error (.sentinelSpecialization function))

/-- The signature of a call: records by their own type, integers by width. -/
def signatureOf (function : Ident) (args : List Value) : Update Signature := do
  let e ← get
  let ids ← args.mapM (argumentType e.types function)
  pure ⟨function, ids⟩

/-- Compiles a signature with what is registered now. -/
def compile (s : Signature) : Update (Except CompileError Artifact) := do
  let e ← get
  let outcome := do
    let c ← e.typing
    c.compile e.schedule.order s
  set { e with
    compiled := e.compiled.insert s outcome
    stats := { e.stats with compilations := e.stats.compilations + 1 } }
  pure outcome

/-- The artifact of a signature, compiled unless that was done before. -/
def artifactOf (s : Signature) : Update Artifact := do
  let e ← get
  match e.compiled.get? s with
  | some outcome => do
    set { e with stats := { e.stats with cacheHits := e.stats.cacheHits + 1 } }
    ofCompile outcome
  | none => do
    let outcome ← compile s
    ofCompile outcome

def specialize (function : Ident) (args : List Value) : Update Artifact := do
  let s ← signatureOf function args
  artifactOf s

/-- The artifact behind a call site, which is bound to it at the first request. -/
def bindSite (caller : Signature) (site : Nat) (callee : Signature) : Update Artifact := do
  let e ← get
  match e.bound.get? (caller, site) with
  | some a => pure a
  | none => do
    let a ← artifactOf callee
    modify fun e => { e with bound := e.bound.insert (caller, site) a }
    pure a

def encode (v : Value) (type : TypeId) : Update Compiled := do
  let e ← get
  ofType (e.types.encode v type)

def decode (c : Compiled) (type : TypeId) : Update Value := do
  let e ← get
  ofType (e.types.decode c type)

end Update

end ShapeCompiler
