import ShapeCompiler.Error
import ShapeCompiler.Types

/-!
Native functions: callbacks of the host.

A callback either finishes with a value or a message, or asks the engine to call a function and
goes on with the answer. So a callback that never asks is a function of its arguments alone.
-/

namespace ShapeCompiler

/--
What a native function does once it has its arguments.

It enters the engine again by calling a function by name, and in no other way. A closure that holds an
engine can also specialise and verify functions on it, declare types and register functions; such closures
are left out.
-/
inductive Callback where
  /-- Ends with a value, or fails with a message. -/
  | finish (result : Except String Value)
  /-- Has a function called and goes on with what the call answers. -/
  | enter (function : Ident) (args : List Value) (resume : Except Error Value → Callback)

/-- A native function as it is handed over, its types given by name. -/
structure NativeDef where
  name : Ident
  params : List Ident
  returns : Ident
  run : List Value → Callback

/-- A native function with its types resolved. -/
structure Native where
  name : Ident
  params : List TypeId
  returns : TypeId
  run : List Value → Callback

namespace Callback

def value (v : Value) : Callback := .finish (.ok v)

def fail (message : String) : Callback := .finish (.error message)

def argument (index : Nat) (args : List Value) : Callback :=
  match args[index]? with
  | some v => value v
  | none => fail s!"no argument {index}"

/-- Ends with the first argument times a factor plus a summand, in words of 64 bits. -/
def scale (factor summand : UInt64) (args : List Value) : Callback :=
  match args with
  | [] => fail "no argument 0"
  | v :: _ =>
    match v.asUint 64 with
    | some u => value (.int (u.value * factor + summand))
    | none => fail s!"expected an integer, got {v.typeName}"

def inspect (args : List Value) : Callback :=
  fail (String.intercalate ", " (args.map fun v => v.typeName ++ ":" ++ v.text))

def forward (function : Ident) (args : List Value) : Callback :=
  .enter function args fun
    | .ok v => value v
    | .error e => fail e.message

end Callback

end ShapeCompiler
