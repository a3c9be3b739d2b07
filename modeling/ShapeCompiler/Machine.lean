import ShapeCompiler.Engine.Run
import ShapeCompiler.Operator.Arithmetic

/-!
The register machine.

The registers of all frames lie in one array, the frame of the running function at its end; the
frames of its callers wait in a list. So recursion of the program is not recursion of the machine.
-/

namespace ShapeCompiler

/-- A caller that waits for its callee. -/
structure Frame where
  function : Artifact
  /-- Where it goes on. -/
  pc : Nat
  /-- Its first register. -/
  base : Nat
  /-- The register for the result of its callee. -/
  dst : Reg

structure Machine where
  /-- The function that runs. -/
  function : Artifact
  pc : Nat
  /-- The first register of the running function. -/
  base : Nat
  registers : Array Compiled
  /-- The waiting callers, the last one first. -/
  frames : List Frame

/-- What one instruction leads to. -/
inductive Step where
  | next (m : Machine)
  /-- The outermost function has returned. -/
  | done (c : Compiled)

namespace Artifact

/-- The size of a frame, which has room for all arguments. -/
def frameSize (a : Artifact) : Nat := max a.registers a.signature.args.length

/-- The registers of a fresh frame. -/
def frame (a : Artifact) (args : List Compiled) : Array Compiled :=
  args.toArray ++ Array.replicate (a.frameSize - args.length) .incomplete

end Artifact

/-- The value in a field of a record. -/
def FieldAccess.read (access : FieldAccess) (subject : Compiled) : Except RuntimeError Compiled :=
  match access, subject with
  | .packed slot, .packed word => .ok (.scalar (slot.read word))
  | .boxed index, .boxed tag fields =>
    match fields[index.toNat]? with
    | some c => .ok c
    | none => .error (.typeMismatch .readField [(Compiled.boxed tag fields).found])
  | _, c => .error (.typeMismatch .readField [c.found])

namespace Shape

def packInto : UInt64 → List Slot → List Compiled → Except RuntimeError UInt64
  | word, s :: slots, c :: cs =>
    match c.scalar? with
    | none => .error (.typeMismatch .construct [c.found])
    | some n => packInto (word ||| ((n &&& mask s.bits) <<< UInt64.ofNat s.shift)) slots cs
  | word, _, _ => .ok word

def boxFields : List (Option Nat) → List Compiled → Except RuntimeError (List Compiled)
  | width :: widths, c :: cs =>
    if c.isIncomplete then .error (.typeMismatch .construct [c.found])
    else do
      let stored :=
        match width, c with
        | some bits, .scalar n => .scalar (n &&& mask bits)
        | _, c => c
      let rest ← boxFields widths cs
      pure (stored :: rest)
  | _, _ => .ok []

/-- The record that a constructor builds; it cannot hold the sentinel. -/
def build (shape : Shape) (tag : UInt8) (args : List Compiled) : Except RuntimeError Compiled :=
  match shape with
  | .packed slots => (packInto (UInt64.ofNat tag.toNat) slots args).map .packed
  | .boxed widths => (boxFields widths args).map (.boxed tag)

end Shape

/-- The value of an operation on registers. -/
def Operator.onCompiled (op : Operator) (bits : Nat) (lhs rhs : Compiled) :
    Except RuntimeError Compiled :=
  match lhs, rhs with
  | .scalar a, .scalar b => (op.apply a b bits).map .scalar
  | a, b => .error (.typeMismatch (.operator op) [a.found, b.found])

namespace Machine

def start (a : Artifact) (args : List Compiled) : Machine :=
  ⟨a, 0, 0, a.frame args, []⟩

variable (m : Machine)

def read (r : Reg) : Run Compiled :=
  match m.registers[m.base + r]? with
  | some c => pure c
  | none => Run.halt .outOfRange

def readAll : List Reg → Run (List Compiled)
  | [] => pure []
  | r :: rest => do
    let c ← m.read r
    let cs ← readAll rest
    pure (c :: cs)

def write (r : Reg) (c : Compiled) : Run Machine :=
  if h : m.base + r < m.registers.size then
    pure { m with registers := m.registers.set (m.base + r) c h }
  else Run.halt .outOfRange

/-- The machine at its next instruction. -/
def advance : Machine := { m with pc := m.pc + 1 }

def goto (target : Nat) : Machine := { m with pc := target }

def writeNext (r : Reg) (c : Compiled) : Run Step := do
  let m ← m.write r c
  pure (.next m.advance)

def unpack (subject : Reg) : Machine → List (Reg × FieldAccess) → Run Machine
  | m, [] => pure m
  | m, (dst, access) :: rest => do
    let s ← m.read subject
    let c ← Run.ofRuntime (access.read s)
    let m ← m.write dst c
    unpack subject m rest

/-- The machine at the start of a callee whose result goes to `dst`. -/
def enter (callee : Artifact) (dst : Reg) (args : List Compiled) : Machine where
  function := callee
  pc := 0
  base := m.registers.size
  registers := m.registers ++ callee.frame args
  frames := ⟨m.function, m.pc + 1, m.base, dst⟩ :: m.frames

/-- Ends the running function with a value. -/
def leave (c : Compiled) : Run Step :=
  match m.frames with
  | [] => pure (.done c)
  | f :: rest => do
    let caller : Machine := ⟨f.function, f.pc, f.base, m.registers.shrink m.base, rest⟩
    let caller ← caller.write f.dst c
    pure (.next caller)

variable (host : HostSite → List Compiled → Run Compiled)

def exec : Op → Run Step
  | .const dst value => m.writeNext dst (.scalar value)
  | .move dst src => do
    let c ← m.read src
    m.writeNext dst c
  | .incomplete dst => m.writeNext dst .incomplete
  | .binary dst op bits lhs rhs => do
    let a ← m.read lhs
    let b ← m.read rhs
    let c ← Run.ofRuntime (op.onCompiled bits a b)
    m.writeNext dst c
  | .construct dst tag shape args => do
    let cs ← m.readAll args
    let c ← Run.ofRuntime (shape.build tag cs)
    m.writeNext dst c
  | .switchTag subject table default => do
    let c ← m.read subject
    pure (.next (m.goto ((c.tag?.bind fun tag => table[tag.toNat]?).getD default)))
  | .switchScalar subject cases default => do
    let c ← m.read subject
    let target := c.scalar?.bind fun n => (cases.find? (·.1 == n)).map Prod.snd
    pure (.next (m.goto (target.getD default)))
  | .unpack subject fields => do
    let m ← unpack subject m fields
    pure (.next m.advance)
  | .field dst subject access => do
    let s ← m.read subject
    let c ← Run.ofRuntime (access.read s)
    m.writeNext dst c
  | .call dst site args =>
    match m.function.callSites[site]? with
    | none => Run.halt .outOfRange
    | some callee => do
      let a ← Update.bindSite m.function.signature site callee
      let cs ← m.readAll args
      pure (.next (m.enter a dst cs))
  | .callSelf dst args => do
    let cs ← m.readAll args
    pure (.next (m.enter m.function dst cs))
  | .callHost dst site args => do
    let cs ← m.readAll args
    match m.function.hostSites[site]? with
    | none => Run.halt .outOfRange
    | some h => do
      let c ← host h cs
      m.writeNext dst c
  | .jump target => pure (.next (m.goto target))
  | .ret src => do
    let c ← m.read src
    m.leave c

/-- Executes the next instruction. -/
def step : Run Step :=
  match m.function.code[m.pc]? with
  | some op => m.exec host op
  | none => throw (.runtime (.missingReturn m.function.signature.function))

/-- Runs until the outermost function returns, for at most `fuel` instructions. -/
def run : Nat → Machine → Run Compiled
  | 0, _ => Run.halt .outOfFuel
  | fuel + 1, m => do
    match ← m.step host with
    | .done c => pure c
    | .next m => run fuel m

end Machine

def Artifact.execute (host : HostSite → List Compiled → Run Compiled) (fuel : Nat) (a : Artifact)
    (args : List Compiled) : Run Compiled :=
  if args.length ≠ a.signature.args.length then
    throw (.runtime (.arityMismatch a.signature.function a.signature.args.length args.length))
  else Machine.run host fuel (Machine.start a args)

end ShapeCompiler
