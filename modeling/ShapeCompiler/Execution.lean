import ShapeCompiler.Interpreter
import ShapeCompiler.Machine

/-!
Calls between the host, the interpreter, the machine and native functions.

These call each other, each with one unit of fuel less. Values are encoded on the way into compiled
code and decoded on the way out, in both directions.
-/

namespace ShapeCompiler

/-- Encodes arguments, each under its type. -/
def TypeTable.encodeAll (t : TypeTable) :
    List Value → List TypeId → Except TypeError (List Compiled)
  | v :: vs, id :: ids => do
    let c ← t.encode v id
    let cs ← t.encodeAll vs ids
    pure (c :: cs)
  | _, _ => .ok []

/-- Decodes arguments, each under its type; without a type it is the sentinel. -/
def TypeTable.decodeAll (t : TypeTable) :
    List Compiled → List (Option TypeId) → Except TypeError (List Value)
  | c :: cs, type :: types => do
    let v ←
      match type with
      | some id => t.decode c id
      | none => pure .incomplete
    let vs ← t.decodeAll cs types
    pure (v :: vs)
  | _, _ => .ok []

/-- A value as a type declares it: every integer has its declared width. -/
def TypeTable.normalize (t : TypeTable) (v : Value) (type : TypeId) : Except TypeError Value := do
  let c ← t.encode v type
  t.decode c type

/-- Normalises arguments, each under its type. -/
def TypeTable.normalizeAll (t : TypeTable) :
    List Value → List TypeId → Except TypeError (List Value)
  | v :: vs, id :: ids => do
    let v ← t.normalize v id
    let vs ← t.normalizeAll vs ids
    pure (v :: vs)
  | _, _ => .ok []

/-- An error of a value that a host function yields. -/
def TypeError.inHost (function : Ident) (fault : TypeError) : Error :=
  .runtime (.hostFunction function (CompileError.type fault).message)

def Callback.perform (call : Ident → List Value → Run Value) :
    Callback → Run (Except String Value)
  | .finish result => pure result
  | .enter function args resume => do
    let answer ← Run.attempt (call function args)
    perform call (resume answer)

namespace Run

/-- The interpreter with the types registered now. -/
def interpreter (mode : Mode) : Run Interpreter := do
  let e ← get
  pure ⟨e.types, mode, e.options.defaultBits⟩

mutual

def interpret : Nat → Interpreter → FunctionDef → List Value → Run Value
  | 0, _, _, _ => halt .outOfFuel
  | fuel + 1, i, d, args =>
    if args.length ≠ d.arity then throw (.runtime (.arityMismatch d.name d.arity args.length))
    else activation (i.body (callFrom fuel i) fuel d args)

/-- A call by name in an interpreted body; constructors hide functions. -/
def callFrom : Nat → Interpreter → Ident → List Value → Run Value
  | 0, _, _, _ => halt .outOfFuel
  | fuel + 1, i, name, args =>
    match i.types.recordNamed? name with
    | some (_, r) => ofRuntime (i.construct r args)
    | none => do
      match ← function? name with
      | none => throw (.runtime (.notDefined name))
      | some (.decorated d) =>
        match i.mode with
        | .host => callDecorated fuel name args
        | .reference => interpret fuel i d args
      | some (.interpreted d) => interpret fuel i d args
      | some (.native n) => callNative fuel n args

/-- A call of a decorated function: specialises it on the arguments and runs the artifact. -/
def callDecorated : Nat → Ident → List Value → Run Value
  | 0, _, _ => halt .outOfFuel
  | fuel + 1, name, args => do
    let a ← Update.specialize name args
    countExecution
    runArtifact fuel a args

def runArtifact : Nat → Artifact → List Value → Run Value
  | 0, _, _ => halt .outOfFuel
  | fuel + 1, a, args => do
    let t ← types
    let cs ← Update.ofType (t.encodeAll args a.signature.args)
    let c ← a.execute (callHost fuel) fuel cs
    match a.returns with
    | some type => Update.ofType (t.decode c type)
    | none =>
      if c.isIncomplete then pure .incomplete
      else throw (.runtime (.typeMismatch .result [c.found]))

def callHost : Nat → HostSite → List Compiled → Run Compiled
  | 0, _, _ => halt .outOfFuel
  | fuel + 1, site, cs => do
    let t ← types
    let vs ← Update.ofType (t.decodeAll cs site.params)
    let v ←
      match site.function with
      | .native n => callNative fuel n vs
      | .interpreted d => do
        let i ← interpreter .host
        interpret fuel i d vs
    match site.returns with
    | some type =>
      match t.encode v type with
      | .ok c => pure c
      | .error fault => throw (fault.inHost site.name)
    | none =>
      if v.isIncomplete then pure .incomplete
      else throw (.runtime (.typeMismatch (.hostResult site.name) [.ofValue v]))

/-- A call of a native function, whose result is normalised to its declared type. -/
def callNative : Nat → Native → List Value → Run Value
  | 0, _, _ => halt .outOfFuel
  | fuel + 1, n, args =>
    if args.length ≠ n.params.length then
      throw (.runtime (.arityMismatch n.name n.params.length args.length))
    else do
      match ← (n.run args).perform (call fuel) with
      | .error message => throw (.runtime (.hostFunction n.name message))
      | .ok v => do
        let t ← types
        match t.normalize v n.returns with
        | .ok v => pure v
        | .error fault => throw (fault.inHost n.name)

def call : Nat → Ident → List Value → Run Value
  | 0, _, _ => halt .outOfFuel
  | fuel + 1, name, args => do
    match ← function? name with
    | none => throw (.runtime (.notDefined name))
    | some (.decorated _) => callDecorated fuel name args
    | some (.interpreted d) => do
      let i ← interpreter .host
      interpret fuel i d args
    | some (.native n) => callNative fuel n args

end

/--
Calls a decorated function twice, compiled and interpreted, and fails if the results differ. The
interpreter gets the arguments as compiled code sees them. Other functions are just called.
-/
def verify (fuel : Nat) (name : Ident) (args : List Value) : Run Value := do
  match ← function? name with
  | none => throw (.runtime (.notDefined name))
  | some (.decorated d) => do
    let compiled ← callDecorated fuel name args
    let s ← Update.signatureOf name args
    let t ← types
    let normalized ← Update.ofType (t.normalizeAll args s.args)
    let i ← interpreter .reference
    let reference ← interpret fuel i d normalized
    if compiled == reference then pure compiled
    else throw (.mismatch name compiled reference)
  | some _ => call fuel name args

end Run

end ShapeCompiler
