import ShapeCompiler.Proofs.Natives

/-!
The errors that runs end with.

Main statement: code only ever fails to compile or fails as a program (`Run.Plainness.all`); that two
results differ is an answer of verification alone.
-/

namespace ShapeCompiler

namespace Run

variable {α β : Type}

/-- In every engine, the request only fails with errors of compilation or of a program. -/
def Plain (x : Run α) : Prop := ∀ (e : Engine) err e', e.run x = .ok (.error err, e') → err.IsPlain

/-! ### Requests -/

namespace Plain

theorem pure (a : α) : Plain (pure a : Run α) := by
  intro e err e' h
  cases h

theorem throw {err : Error} (h : err.IsPlain) : Plain (throw err : Run α) := by
  intro e err' e' he
  cases he
  exact h

theorem halt (h : Halt) : Plain (halt h : Run α) := by
  intro e err e' he
  cases he

/-- A sequence fails with such an error or behind its first part. -/
theorem of_bind {x : Run α} {f : α → Run β} (hx : Plain x) {e e' : Engine} {err : Error}
    (h : e.run (x >>= f) = .ok (.error err, e')) :
    err.IsPlain ∨ ∃ a e₁, e.run x = .ok (.ok a, e₁) ∧ e₁.run (f a) = .ok (.error err, e') := by
  rcases Engine.run_bind_eq_ok.1 h with ⟨a, e₁, ha, h⟩ | ⟨err₁, h, herr⟩
  · exact .inr ⟨a, e₁, ha, h⟩
  · cases herr
    exact .inl (hx e err e' h)

theorem bind {x : Run α} {f : α → Run β} (hx : Plain x) (hf : ∀ a, Plain (f a)) : Plain (x >>= f) := by
  intro e err e' h
  rcases hx.of_bind h with h | ⟨a, e₁, -, h⟩
  · exact h
  · exact hf a e₁ err e' h

theorem get : Plain (MonadState.get : Run Engine) := by
  intro e err e' h
  cases h

theorem modify (f : Engine → Engine) : Plain (modify f : Run PUnit) := by
  intro e err e' h
  cases h

theorem of_still {x : Run α} {R : α → Prop} (hx : Still x R) : Plain x := by
  intro e err e' h
  obtain ⟨-, -, herr⟩ := hx e _ e' h
  exact (herr err rfl).plain

theorem activation {x : Run α} (hx : Plain x) : Plain (activation x) := by
  intro e err e' h
  rcases Engine.run_activation_eq_ok.1 h with ⟨-, herr, -⟩ | ⟨-, e₁, h, -⟩
  · cases herr
    trivial
  · exact hx _ err e₁ h

/-! ### Requests that always end -/

/-- A request that always ends, as a run. -/
abbrev OfUpdate (x : Update α) : Prop := Plain (ofUpdate x)

theorem bind_update {x : Update α} {f : α → Update β} (hx : OfUpdate x) (hf : ∀ a, OfUpdate (f a)) :
    OfUpdate (x >>= f) := by
  rw [OfUpdate, ofUpdate_bind]
  exact hx.bind hf

theorem pure_update (a : α) : OfUpdate (Pure.pure a) := .pure a

theorem get_update : OfUpdate (MonadState.get : Update Engine) := .get

theorem set_update (e : Engine) : OfUpdate (MonadState.set e : Update PUnit) := .modify fun _ => e

theorem ofType (x : Except TypeError α) : OfUpdate (Update.ofType x) := by
  cases x with
  | ok a => exact .pure a
  | error err => exact .throw (show (Error.compile (.type err)).IsPlain from trivial)

theorem ofCompile (x : Except CompileError α) : OfUpdate (Update.ofCompile x) := by
  cases x with
  | ok a => exact .pure a
  | error err => exact .throw (show (Error.compile err).IsPlain from trivial)

theorem declareScalar (bits : Nat) : OfUpdate (Update.declareScalar bits) :=
  get_update.bind_update fun _ => (ofType _).bind_update fun _ =>
    (set_update _).bind_update fun _ => .pure_update _

theorem argumentType (types : TypeTable) (function : Ident) (v : Value) :
    OfUpdate (Update.argumentType types function v) := by
  cases v with
  | int n => exact get_update.bind_update fun e => .declareScalar _
  | uint u => exact .declareScalar _
  | record name vs =>
    simp only [Update.argumentType]
    split
    · exact .pure_update _
    · exact .ofType _
  | incomplete => exact ofType (.error (.sentinelSpecialization function))

theorem signatureOf (function : Ident) (args : List Value) :
    OfUpdate (Update.signatureOf function args) := by
  have hall : ∀ types, OfUpdate (args.mapM (Update.argumentType types function)) := by
    intro types
    induction args with
    | nil => exact .pure_update _
    | cons v rest ih =>
      rw [List.mapM_cons]
      exact (argumentType types function v).bind_update fun id =>
        ih.bind_update fun ids => .pure_update _
  exact get_update.bind_update fun e => (hall e.types).bind_update fun ids => .pure_update _

theorem artifactOf (s : Signature) : OfUpdate (Update.artifactOf s) := by
  refine get_update.bind_update fun e => ?_
  simp only
  split
  · exact (set_update _).bind_update fun _ => .ofCompile _
  · refine bind_update ?_ fun outcome => .ofCompile outcome
    exact get_update.bind_update fun e => (set_update _).bind_update fun _ => .pure_update _

theorem specialize (function : Ident) (args : List Value) : OfUpdate (Update.specialize function args) :=
  (signatureOf function args).bind_update fun s => .artifactOf s

theorem bindSite (caller : Signature) (site : Nat) (callee : Signature) :
    OfUpdate (Update.bindSite caller site callee) := by
  refine get_update.bind_update fun e => ?_
  split
  · exact .pure_update _
  · exact (artifactOf callee).bind_update fun a =>
      bind_update (.modify _) fun _ => .pure_update a

/-! ### The machine -/

variable {host : HostSite → List Compiled → Run Compiled} (hhost : ∀ site cs, Plain (host site cs))
include hhost

theorem exec (m : Machine) (op : Op) : Plain (m.exec host op) := by
  cases op with
  | call dst site args =>
    simp only [Machine.exec]
    split
    · exact .halt _
    · exact (bindSite _ _ _).bind fun a => (of_still (m.readAll_still args)).bind fun cs => .pure _
  | callHost dst site args =>
    refine (of_still (m.readAll_still args)).bind fun cs => ?_
    split
    · exact .halt _
    · exact (hhost _ cs).bind fun c => .of_still (m.writeNext_still _ c)
  | _ => exact .of_still (Machine.exec_still trivial)

theorem step (m : Machine) : Plain (m.step host) := by
  unfold Machine.step
  split
  · exact exec hhost m _
  · exact .throw trivial

theorem run (fuel : Nat) (m : Machine) : Plain (Machine.run host fuel m) := by
  induction fuel generalizing m with
  | zero => exact .halt _
  | succ fuel ih =>
    refine (step hhost m).bind fun s => ?_
    cases s with
    | next m' => exact ih m'
    | done c => exact .pure c

theorem execute (fuel : Nat) (a : Artifact) (cs : List Compiled) : Plain (a.execute host fuel cs) := by
  unfold Artifact.execute
  split
  · exact .throw trivial
  · exact run hhost fuel _

end Plain

/-! ### All ways to run code -/

def plainness : Relation Run Run where
  rel Q x _ := ∀ (e : Engine) y e', e.run x = .ok (y, e') →
    (∀ a, y = .ok a → Q a) ∧ ∀ err, y = .error err → err.IsPlain
  pure := by
    intro α Q a hQ e y e' h
    cases h
    refine ⟨fun b hb => ?_, fun err herr => (by cases herr)⟩
    cases hb
    exact hQ
  bind := by
    intro α β Q Q' x y f g hx hf e r e' h
    rcases Engine.run_bind_eq_ok.1 h with ⟨a, e₁, ha, h⟩ | ⟨err, hfail, rfl⟩
    · exact hf a ((hx e _ e₁ ha).1 a rfl) e₁ r e' h
    · refine ⟨fun b hb => (by cases hb), fun err' herr => ?_⟩
      cases herr
      exact (hx e _ e' hfail).2 err rfl
  throw := by
    intro α Q f _ e y e' h
    cases h
    refine ⟨fun b hb => (by cases hb), fun err herr => ?_⟩
    cases herr
    trivial
  halt := by
    intro α Q e y e' h
    cases h

namespace Plain

theorem body {i : Interpreter} {call : Ident → List Value → Run Value}
    (h : ∀ name args, Plain (call name args)) (fuel : Nat) (d : FunctionDef) (args : List Value) :
    Plain (i.body call fuel d args) := by
  have hcall : ∀ name args, (∀ v ∈ args, True) →
      plainness.rel (fun _ : Value => True) (call name args) (call name args) := by
    intro name args _ e y e' hy
    refine ⟨fun _ _ => trivial, fun err herr => ?_⟩
    cases herr
    exact h name args e err e' hy
  have hbody : plainness.rel (fun _ : Value => True) (i.body call fuel d args) (i.body call fuel d args) :=
    plainness.body i.closed_true hcall (.inl rfl) d fun _ _ => trivial
  exact fun e err e' he => (hbody e _ e' he).2 err rfl

theorem perform {call : Ident → List Value → Run Value} (cb : Callback) : Plain (cb.perform call) := by
  intro e err e' h
  rcases cb.run_perform e with ⟨stop, hstop⟩ | ⟨result, e₁, hok⟩
  · rw [hstop] at h
    cases h
  · rw [hok] at h
    cases h

end Plain

/-- Every way to run code with some fuel only fails to compile or as a program. -/
structure Plainness (fuel : Nat) : Prop where
  interpret : ∀ i d args, Plain (interpret fuel i d args)
  callFrom : ∀ i name args, Plain (callFrom fuel i name args)
  callDecorated : ∀ name args, Plain (callDecorated fuel name args)
  runArtifact : ∀ a args, Plain (runArtifact fuel a args)
  callHost : ∀ site cs, Plain (callHost fuel site cs)
  callNative : ∀ n args, Plain (callNative fuel n args)
  call : ∀ name args, Plain (call fuel name args)

namespace Plainness

variable {fuel : Nat} (ih : Plainness fuel)
include ih

theorem interpret_succ (i : Interpreter) (d : FunctionDef) (args : List Value) :
    Plain (Run.interpret (fuel + 1) i d args) := by
  rw [Run.interpret]
  split
  · exact .throw trivial
  · exact (Plain.body (ih.callFrom i) fuel d args).activation

theorem callFrom_succ (i : Interpreter) (name : Ident) (args : List Value) :
    Plain (Run.callFrom (fuel + 1) i name args) := by
  rw [Run.callFrom]
  split
  · exact .of_still (.ofRuntime _)
  · refine (Plain.of_still (.function? name)).bind fun f => ?_
    rcases f with _ | (d | d | n)
    · exact .throw trivial
    · simp only
      split
      · exact ih.callDecorated name args
      · exact ih.interpret i d args
    · exact ih.interpret i d args
    · exact ih.callNative n args

theorem callDecorated_succ (name : Ident) (args : List Value) :
    Plain (Run.callDecorated (fuel + 1) name args) := by
  rw [Run.callDecorated]
  exact (Plain.specialize name args).bind fun a => (Plain.modify _).bind fun _ =>
    ih.runArtifact a args

theorem runArtifact_succ (a : Artifact) (args : List Value) : Plain (Run.runArtifact (fuel + 1) a args) := by
  rw [Run.runArtifact_succ]
  exact (Plain.of_still .types).bind fun t => (Plain.ofType _).bind fun cs =>
    (Plain.execute ih.callHost fuel a cs).bind fun c =>
      .of_still (artifactResult_still t a c)

theorem callHost_succ (site : HostSite) (cs : List Compiled) : Plain (Run.callHost (fuel + 1) site cs) := by
  rw [Run.callHost_succ]
  refine (Plain.of_still .types).bind fun t => (Plain.ofType _).bind fun vs => Plain.bind ?_ fun v =>
    .of_still (hostResult_still t site v)
  unfold hostValue
  cases site.function with
  | native n => exact ih.callNative n vs
  | interpreted d => exact (Plain.of_still (.interpreter .host)).bind fun i => ih.interpret i d vs

omit ih in
theorem callNative_succ (n : Native) (args : List Value) : Plain (Run.callNative (fuel + 1) n args) := by
  rw [Run.callNative]
  split
  · exact .throw trivial
  · refine (Plain.perform _).bind fun r => ?_
    cases r with
    | error message => exact .throw trivial
    | ok v =>
      refine (Plain.of_still .types).bind fun t => ?_
      split
      · exact .pure _
      · exact .throw trivial

theorem call_succ (name : Ident) (args : List Value) : Plain (Run.call (fuel + 1) name args) := by
  rw [Run.call]
  refine (Plain.of_still (.function? name)).bind fun f => ?_
  rcases f with _ | (d | d | n)
  · exact .throw trivial
  · exact ih.callDecorated name args
  · exact (Plain.of_still (.interpreter .host)).bind fun i => ih.interpret i d args
  · exact ih.callNative n args

end Plainness

/-- Every way to run code only fails to compile or as a program. -/
theorem Plainness.all (fuel : Nat) : Plainness fuel := by
  induction fuel with
  | zero => exact ⟨fun _ _ _ => .halt _, fun _ _ _ => .halt _, fun _ _ => .halt _, fun _ _ => .halt _,
      fun _ _ => .halt _, fun _ _ => .halt _, fun _ _ => .halt _⟩
  | succ fuel ih =>
    exact {
      interpret := ih.interpret_succ
      callFrom := ih.callFrom_succ
      callDecorated := ih.callDecorated_succ
      runArtifact := ih.runArtifact_succ
      callHost := ih.callHost_succ
      callNative := Plainness.callNative_succ
      call := ih.call_succ }

end Run

end ShapeCompiler
