import ShapeCompiler.Execution
import ShapeCompiler.Proofs.Placeholder.Interpretation
import ShapeCompiler.Proofs.Placeholder.Machines

/-!
All ways to run code, in an engine in whose functions patterns are replaced.

Interpreted functions must be replaced where their arms do not read the placeholder only, and so must
decorated ones wherever they are interpreted. Main statements: whatever runs code has the same answer
(`Likeness.all`), and so has a verification (`RunsSame.verify`).
-/

namespace ShapeCompiler

open Run

variable {r : Replacement}

/-- Where decorated functions are interpreted too, arms in them that read the placeholder are spared. -/
def Replacement.Suits (r : Replacement) (mode : Mode) : Prop := mode = .reference → r.decorated = .unread

/-- Every way to run code with some fuel has the same answer. -/
structure Likeness (r : Replacement) (fuel : Nat) : Prop where
  interpret : ∀ i : Interpreter, r.Suits i.mode → ∀ d args,
    RunsSame r Eq (interpret fuel i d args) (interpret fuel i (d.replace .unread) args)
  callFrom : ∀ i : Interpreter, r.Suits i.mode → ∀ name args,
    RunsSame r Eq (callFrom fuel i name args) (callFrom fuel i name args)
  callDecorated : ∀ name args,
    RunsSame r Eq (callDecorated fuel name args) (callDecorated fuel name args)
  runArtifact : ∀ a args, RunsSame r Eq (runArtifact fuel a args) (runArtifact fuel (a.replace r) args)
  callHost : ∀ site cs, RunsSame r Eq (callHost fuel site cs) (callHost fuel (site.replace r) cs)
  callNative : ∀ n args, RunsSame r Eq (callNative fuel n args) (callNative fuel n args)
  call : ∀ name args, RunsSame r Eq (call fuel name args) (call fuel name args)

namespace Likeness

variable {fuel : Nat} (ih : Likeness r fuel)
include ih

theorem interpret_succ (i : Interpreter) (hi : r.Suits i.mode) (d : FunctionDef) (args : List Value) :
    RunsSame r Eq (Run.interpret (fuel + 1) i d args)
      (Run.interpret (fuel + 1) i (d.replace .unread) args) := by
  rw [Run.interpret, Run.interpret, FunctionDef.arity_replace]
  split
  · exact .throw _
  · exact .activation (.body (ih.callFrom i hi) fuel d args)

theorem callDecorated_succ (name : Ident) (args : List Value) :
    RunsSame r Eq (Run.callDecorated (fuel + 1) name args) (Run.callDecorated (fuel + 1) name args) := by
  rw [Run.callDecorated]
  refine (RunsSame.specialize name args).bind fun a _ h => ?_
  subst h
  exact RunsSame.countExecution.andThen fun _ => ih.runArtifact a args

omit ih in
theorem artifactResult (t : TypeTable) (a : Artifact) (c : Compiled) :
    RunsSame r Eq (Run.artifactResult t a c) (Run.artifactResult t (a.replace r) c) := by
  show RunsSame r Eq (Run.artifactResult t a c) (Run.artifactResult t a c)
  unfold Run.artifactResult
  split
  · exact .ofType _
  · split
    · exact .pure rfl
    · exact .throw _

theorem runArtifact_succ (a : Artifact) (args : List Value) :
    RunsSame r Eq (Run.runArtifact (fuel + 1) a args) (Run.runArtifact (fuel + 1) (a.replace r) args) := by
  rw [Run.runArtifact_succ, Run.runArtifact_succ]
  refine RunsSame.types.andThen fun t => (RunsSame.ofType _).andThen fun cs => ?_
  exact (RunsSame.execute ih.callHost fuel a cs).andThen fun c => artifactResult t a c

omit ih in
theorem hostResult (t : TypeTable) (site : HostSite) (v : Value) :
    RunsSame r Eq (Run.hostResult t site v) (Run.hostResult t (site.replace r) v) := by
  show RunsSame r Eq (Run.hostResult t site v) (Run.hostResult t site v)
  unfold Run.hostResult
  split
  · split
    · exact .pure rfl
    · exact .throw _
  · split
    · exact .pure rfl
    · exact .throw _

theorem callNative_succ (n : Native) (args : List Value) :
    RunsSame r Eq (Run.callNative (fuel + 1) n args) (Run.callNative (fuel + 1) n args) := by
  have hperform : ∀ c : Callback,
      RunsSame r Eq (c.perform (Run.call fuel)) (c.perform (Run.call fuel)) := by
    intro c
    induction c with
    | finish result => exact .pure rfl
    | enter function args resume ihc =>
      rw [Callback.perform]
      exact (ih.call function args).attempt.andThen fun answer => ihc answer
  rw [Run.callNative]
  split
  · exact .throw _
  · refine (hperform _).andThen fun result => ?_
    cases result with
    | error message => exact .throw _
    | ok v =>
      refine RunsSame.types.andThen fun t => ?_
      cases t.normalize v n.returns with
      | ok v => exact .pure rfl
      | error fault => exact .throw _

variable (hr : r.interpreted = .unread)
include hr

theorem callFrom_succ (i : Interpreter) (hi : r.Suits i.mode) (name : Ident) (args : List Value) :
    RunsSame r Eq (Run.callFrom (fuel + 1) i name args) (Run.callFrom (fuel + 1) i name args) := by
  rw [Run.callFrom]
  split
  · exact .ofRuntime _
  · refine (RunsSame.function? name).bind fun f _ h => ?_
    subst h
    cases f with
    | none => exact .throw _
    | some f =>
      cases f with
      | decorated d =>
        simp only [Option.map_some, Function.replace]
        cases hm : i.mode with
        | host => exact ih.callDecorated name args
        | reference =>
          rw [hi hm]
          exact ih.interpret i hi d args
      | interpreted d =>
        simp only [Option.map_some, Function.replace, hr]
        exact ih.interpret i hi d args
      | native n => exact ih.callNative n args

omit ih hr in
theorem suits_host : r.Suits .host := fun h => by cases h

theorem interpret_host (d : FunctionDef) (args : List Value) :
    RunsSame r Eq (do
        let i ← Run.interpreter .host
        Run.interpret fuel i d args)
      (do
        let i ← Run.interpreter .host
        Run.interpret fuel i (d.replace r.interpreted) args) := by
  refine (RunsSame.interpreter .host).bind fun i _ h => ?_
  obtain ⟨rfl, hmode⟩ := h
  rw [hr]
  exact ih.interpret i (hmode ▸ suits_host) d args

theorem callHost_succ (site : HostSite) (cs : List Compiled) :
    RunsSame r Eq (Run.callHost (fuel + 1) site cs) (Run.callHost (fuel + 1) (site.replace r) cs) := by
  have hvalue : ∀ vs, RunsSame r Eq (Run.hostValue fuel site.function vs)
      (Run.hostValue fuel (site.function.replace r) vs) := by
    intro vs
    cases site.function with
    | native n => exact ih.callNative n vs
    | interpreted d => exact ih.interpret_host hr d vs
  rw [Run.callHost_succ, Run.callHost_succ]
  refine RunsSame.types.andThen fun t => (RunsSame.ofType _).andThen fun vs => ?_
  exact (hvalue vs).andThen fun v => hostResult t site v

theorem call_succ (name : Ident) (args : List Value) :
    RunsSame r Eq (Run.call (fuel + 1) name args) (Run.call (fuel + 1) name args) := by
  rw [Run.call]
  refine (RunsSame.function? name).bind fun f _ h => ?_
  subst h
  cases f with
  | none => exact .throw _
  | some f =>
    cases f with
    | decorated d => exact ih.callDecorated name args
    | interpreted d => exact ih.interpret_host hr d args
    | native n => exact ih.callNative n args

omit ih in
/-- Whatever runs code has the same answer. -/
theorem all (fuel : Nat) : Likeness r fuel := by
  induction fuel with
  | zero =>
    exact ⟨fun _ _ _ _ => .halt _, fun _ _ _ _ => .halt _, fun _ _ => .halt _, fun _ _ => .halt _,
      fun _ _ => .halt _, fun _ _ => .halt _, fun _ _ => .halt _⟩
  | succ fuel ih =>
    exact {
      interpret := ih.interpret_succ
      callFrom := ih.callFrom_succ hr
      callDecorated := ih.callDecorated_succ
      runArtifact := ih.runArtifact_succ
      callHost := ih.callHost_succ hr
      callNative := ih.callNative_succ
      call := ih.call_succ hr }

end Likeness

/-- A verification interprets decorated functions too. -/
theorem RunsSame.verify (hr : r = ⟨.unread, .unread⟩) (fuel : Nat) (name : Ident) (args : List Value) :
    RunsSame r Eq (Run.verify fuel name args) (Run.verify fuel name args) := by
  have hall : Likeness r fuel := .all (by rw [hr]) fuel
  unfold Run.verify
  refine (RunsSame.function? name).bind fun f _ h => ?_
  subst h
  cases f with
  | none => exact .throw _
  | some f =>
    cases f with
    | decorated d =>
      refine (hall.callDecorated name args).andThen fun v => ?_
      refine (RunsSame.signatureOf name args).andThen fun s => RunsSame.types.andThen fun t => ?_
      refine (RunsSame.ofType _).andThen fun vs => (RunsSame.interpreter .reference).bind fun i _ h => ?_
      obtain ⟨rfl, -⟩ := h
      have hd : d.replace r.decorated = d.replace .unread := by rw [hr]
      simp only [hd]
      refine (hall.interpret i (fun _ => by rw [hr]) d vs).andThen fun w => ?_
      split
      · exact .pure rfl
      · exact .throw _
    | interpreted d => exact hall.call name args
    | native n => exact hall.call name args

end ShapeCompiler
