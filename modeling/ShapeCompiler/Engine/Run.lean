import ShapeCompiler.Engine

/-!
Requests that run code.

A run may be stopped from outside because its fuel is used up, or because code names a register or
a site that does not exist. A stopped run leaves no engine behind; an error of the program does.
-/

namespace ShapeCompiler

/-- Why a run was stopped. -/
inductive Halt where
  | outOfFuel
  /-- Code names a register or a site that does not exist. -/
  | outOfRange
  deriving DecidableEq

/-- Monads in which a run can be stopped from outside. -/
class MonadHalt (m : Type → Type) where
  /-- Stops the run. -/
  halt {α : Type} : Halt → m α

/-- A request that runs code. -/
abbrev Run := ExceptT Error (StateT Engine (Except Halt))

/-- The answer of a run and the engine that it leaves behind, unless it was stopped. -/
def Engine.run {α : Type} (e : Engine) (request : Run α) : Except Halt (Except Error α × Engine) :=
  StateT.run (ExceptT.run request) e

namespace Run

/-- A request that always ends as a run. -/
def ofUpdate {α : Type} (request : Update α) : Run α :=
  ExceptT.mk fun e => .ok (e.update request)

instance : MonadLift Update Run := ⟨ofUpdate⟩

/-- Stops the run. -/
def halt {α : Type} (h : Halt) : Run α := ExceptT.mk fun _ => .error h

instance : MonadHalt Run := ⟨halt⟩

def ofRuntime {α : Type} : Except RuntimeError α → Run α
  | .ok a => pure a
  | .error e => throw (.runtime e)

/-- Goes on with the answer of a request, be it an error. -/
def attempt {α : Type} (request : Run α) : Run (Except Error α) :=
  ExceptT.mk fun e =>
    match e.run request with
    | .ok (answer, e) => .ok (.ok answer, e)
    | .error h => .error h

def answer {α : Type} : Except Error α → Run α
  | .ok a => pure a
  | .error e => throw e

/-- Notes that an activation of the interpreter begins, if one more is allowed. -/
def enterActivation : Run Unit := do
  let e ← get
  let limit := e.options.maxHostDepth
  let alive := e.activations.alive
  if limit ≤ alive then throw (.runtime (.recursionLimit limit))
  else set { e with activations := ⟨alive + 1, max e.activations.peak (alive + 1)⟩ }

/-- Notes that an activation of the interpreter has ended. -/
def leaveActivation : Run Unit :=
  modify fun e => { e with activations := { e.activations with alive := e.activations.alive - 1 } }

/-- Runs an activation of the interpreter; it has ended afterwards, also if it fails. -/
def activation {α : Type} (body : Run α) : Run α := do
  enterActivation
  let r ← attempt body
  leaveActivation
  answer r

/-- Counts an entry into compiled code. -/
def countExecution : Run Unit :=
  modify fun e => { e with stats := { e.stats with executions := e.stats.executions + 1 } }

def function? (name : Ident) : Run (Option Function) := do
  let e ← get
  pure (e.functions.get? name)

/-- The types registered now. -/
def types : Run TypeTable := do
  let e ← get
  pure e.types

end Run

end ShapeCompiler
