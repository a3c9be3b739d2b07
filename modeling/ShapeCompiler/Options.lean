import ShapeCompiler.Error
import ShapeCompiler.Settings

/-!
The options of an engine, given directly or as settings text.
-/

namespace ShapeCompiler

structure Options where
  /-- The width of integer literals and of untyped integers. -/
  defaultBits : Nat := Uint.defaultBits
  /-- The number of registers to make room for at first. -/
  registerCapacity : Nat := 1024
  /-- How many activations of the interpreter may be alive at once. -/
  maxHostDepth : Nat := 256
  deriving DecidableEq

namespace Options

/-- Refuses a default width that is no width and a limit that allows nothing. -/
def validate (o : Options) : Except OptionsError Unit :=
  if o.defaultBits < 1 ∨ 64 < o.defaultBits then .error (.width o.defaultBits)
  else if o.maxHostDepth = 0 then .error .depth
  else .ok ()

def natBelow? (bound : Nat) : Settings.Setting → Option Nat
  | .integer n => if 0 ≤ n ∧ n < bound then some n.toNat else none
  | .other => none

/-- The options with one setting applied; unknown keys are ignored. -/
def withSetting? (o : Options) (key : String) (value : Settings.Setting) : Option Options :=
  if key = "default_scalar_bits" then
    (natBelow? UInt8.size value).map fun n => { o with defaultBits := n }
  else if key = "initial_register_capacity" then
    (natBelow? UInt64.size value).map fun n => { o with registerCapacity := n }
  else if key = "max_host_depth" then
    (natBelow? UInt32.size value).map fun n => { o with maxHostDepth := n }
  else some o

/-- The options that a settings text describes; they are not validated. -/
def ofSettings (text : String) : Except OptionsError Options :=
  match Settings.parse? text with
  | none => .error .unreadable
  | some entries =>
    match entries.foldlM (fun o (key, value) => withSetting? o key value) ({} : Options) with
    | none => .error .unreadable
    | some o => .ok o

end Options

end ShapeCompiler
