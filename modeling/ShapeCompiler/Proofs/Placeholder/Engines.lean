import ShapeCompiler.Proofs.Engine.Sessions
import ShapeCompiler.Proofs.Placeholder.Lowering

/-!
Requests on an engine in whose functions patterns are replaced.

What such an engine keeps of earlier requests has patterns replaced too. Main statements: signatures are
the same (`RunsSame.signatureOf`), and the specialiser answers with the same code or the same error
(`RunsSame.specialize`, `RunsSame.bindSite`).
-/

namespace ShapeCompiler

variable {r : Replacement} {α β γ δ : Type}

/-- The engine with patterns replaced in its functions, and in the definitions that its artifacts hold. -/
def Engine.replace (r : Replacement) (e : Engine) : Engine :=
  { e with
    functions := e.functions.replace r
    compiled := e.compiled.mapValues (Except.map (Artifact.replace r))
    bound := e.bound.mapValues (Artifact.replace r) }

/-- Two runs, the second one begun in the engine with patterns replaced, are both stopped for the same
reason, or end with related answers and with engines that are the same up to the replacement. -/
def RunsSame (r : Replacement) (Q : α → β → Prop) (x : Run α) (y : Run β) : Prop :=
  ∀ e : Engine, Parallel (fun p q => Parallel Q p.1 q.1 ∧ q.2 = p.2.replace r) (e.run x)
    ((e.replace r).run y)

namespace RunsSame

variable {Q : α → β → Prop} {Q' : γ → δ → Prop} {x : Run α} {y : Run β}

theorem pure {a : α} {b : β} (h : Q a b) : RunsSame r Q (Pure.pure a) (Pure.pure b) :=
  fun _ => .ok ⟨.ok h, rfl⟩

theorem throw (err : Error) : RunsSame r Q (throw err) (throw err) := fun _ => .ok ⟨.error err, rfl⟩

theorem halt (why : Halt) : RunsSame r Q (Run.halt why) (Run.halt why) := fun _ => .error why

theorem bind {f : α → Run γ} {g : β → Run δ} (hx : RunsSame r Q x y)
    (hf : ∀ a b, Q a b → RunsSame r Q' (f a) (g b)) : RunsSame r Q' (x >>= f) (y >>= g) := by
  intro e
  rw [Engine.run_bind, Engine.run_bind]
  refine (hx e).bind ?_
  rintro ⟨a, e₁⟩ ⟨b, _⟩ ⟨ha, rfl⟩
  cases ha with
  | error err => exact .ok ⟨.error err, rfl⟩
  | ok hQ => exact hf _ _ hQ e₁

theorem mono {R : α → β → Prop} (hx : RunsSame r Q x y) (h : ∀ a b, Q a b → R a b) : RunsSame r R x y :=
  fun e => (hx e).mono fun _ _ hp => ⟨hp.1.mono h, hp.2⟩

/-- Sequences whose first runs have the same answer. -/
theorem andThen {x y : Run α} {f : α → Run γ} {g : α → Run δ} (hx : RunsSame r Eq x y)
    (hf : ∀ a, RunsSame r Q' (f a) (g a)) : RunsSame r Q' (x >>= f) (y >>= g) :=
  hx.bind fun a _ hab => hab ▸ hf a

/-- A step of a program that is the same on both sides. -/
theorem ofRuntime (x : Except RuntimeError α) : RunsSame r Eq (Run.ofRuntime x) (Run.ofRuntime x) := by
  cases x with
  | ok a => exact .pure rfl
  | error err => exact .throw _

/-- A step on types that is the same on both sides. -/
theorem ofType (x : Except TypeError α) :
    RunsSame r Eq (Run.ofUpdate (Update.ofType x)) (Run.ofUpdate (Update.ofType x)) := by
  cases x with
  | ok a => exact .pure rfl
  | error err => exact .throw _

theorem function? (name : Ident) :
    RunsSame r (fun a b => b = a.map (Function.replace r)) (Run.function? name) (Run.function? name) :=
  fun e => .ok ⟨.ok (Functions.get?_replace e.functions name), rfl⟩

theorem types : RunsSame r Eq Run.types Run.types := fun _ => .ok ⟨.ok rfl, rfl⟩

theorem interpreter (mode : Mode) : RunsSame r (fun i i' => i = i' ∧ i.mode = mode)
    (Run.interpreter mode) (Run.interpreter mode) := fun _ => .ok ⟨.ok ⟨rfl, rfl⟩, rfl⟩

theorem countExecution : RunsSame r Eq Run.countExecution Run.countExecution :=
  fun _ => .ok ⟨.ok rfl, rfl⟩

/-- An activation is refused on both sides or on none. -/
theorem activation {x : Run α} {y : Run β} (hx : RunsSame r Q x y) :
    RunsSame r Q (Run.activation x) (Run.activation y) := by
  intro e
  have hlimit : (e.replace r).options.maxHostDepth = e.options.maxHostDepth := rfl
  have halive : (e.replace r).activations.alive = e.activations.alive := rfl
  rw [Engine.run_activation, Engine.run_activation, hlimit, halive]
  split
  · exact .ok ⟨.error _, rfl⟩
  · exact (hx e.entered).map fun p q hp => ⟨hp.1, congrArg Engine.left hp.2⟩

/-- Going on with the answer, be it an error. -/
theorem attempt {x y : Run α} (hx : RunsSame r Eq x y) :
    RunsSame r Eq (Run.attempt x) (Run.attempt y) := by
  intro e
  rw [Engine.run_attempt, Engine.run_attempt]
  exact (hx e).map fun p q hp => ⟨.ok hp.1.eq.symm, hp.2⟩

/-! ### Requests that always end -/

theorem bind_update {x : Update α} {y : Update β} {f : α → Update γ} {g : β → Update δ}
    (hx : RunsSame r Q (Run.ofUpdate x) (Run.ofUpdate y))
    (hf : ∀ a b, Q a b → RunsSame r Q' (Run.ofUpdate (f a)) (Run.ofUpdate (g b))) :
    RunsSame r Q' (Run.ofUpdate (x >>= f)) (Run.ofUpdate (y >>= g)) := by
  rw [Run.ofUpdate_bind, Run.ofUpdate_bind]
  exact hx.bind hf

theorem bind_get {f : Engine → Update γ} {g : Engine → Update δ}
    (hf : ∀ e, RunsSame r Q' (Run.ofUpdate (f e)) (Run.ofUpdate (g (e.replace r)))) :
    RunsSame r Q' (Run.ofUpdate (get >>= f)) (Run.ofUpdate (get >>= g)) := fun e => hf e e

theorem bind_set {e e' : Engine} (he : e' = e.replace r) {x : Update γ} {y : Update δ}
    (h : RunsSame r Q' (Run.ofUpdate x) (Run.ofUpdate y)) :
    RunsSame r Q' (Run.ofUpdate (do set e; x)) (Run.ofUpdate (do set e'; y)) := fun _ => he ▸ h e

theorem declareScalar (bits : Nat) : RunsSame r Eq (Run.ofUpdate (Update.declareScalar bits))
    (Run.ofUpdate (Update.declareScalar bits)) :=
  bind_get fun e => bind_update (ofType (e.types.declareScalar bits)) fun _ _ h =>
    h ▸ bind_set rfl (pure rfl)

theorem argumentType (t : TypeTable) (function : Ident) (v : Value) :
    RunsSame r Eq (Run.ofUpdate (Update.argumentType t function v))
      (Run.ofUpdate (Update.argumentType t function v)) := by
  cases v with
  | int n => exact bind_get fun e => declareScalar _
  | uint u => exact declareScalar u.bits
  | record name fields =>
    simp only [Update.argumentType]
    cases t.lookup name with
    | some id => exact pure rfl
    | none => exact throw _
  | incomplete => exact throw _

/-- Calls are specialised on the same signatures. -/
theorem signatureOf (function : Ident) (args : List Value) :
    RunsSame r Eq (Run.ofUpdate (Update.signatureOf function args))
      (Run.ofUpdate (Update.signatureOf function args)) := by
  have hargs : ∀ (t : TypeTable) (vs : List Value),
      RunsSame r Eq (Run.ofUpdate (vs.mapM (Update.argumentType t function)))
        (Run.ofUpdate (vs.mapM (Update.argumentType t function))) := by
    intro t vs
    induction vs with
    | nil => exact pure rfl
    | cons v rest ih =>
      rw [List.mapM_cons]
      refine bind_update (argumentType t function v) fun id _ h => ?_
      refine bind_update ih fun ids _ h' => ?_
      rw [h, h']
      exact pure rfl
  exact bind_get fun e => bind_update (hargs e.types args) fun _ _ h => h ▸ pure rfl

/-! ### The specialiser -/

/-- Artifacts that are the same up to the definitions at their host sites. -/
abbrev SameCode (r : Replacement) (a a' : Artifact) : Prop := a' = a.replace r

theorem ofCompile (x : Except CompileError Artifact) :
    RunsSame r (SameCode r) (Run.ofUpdate (Update.ofCompile x))
      (Run.ofUpdate (Update.ofCompile (x.map (Artifact.replace r)))) := by
  cases x with
  | ok a => exact pure rfl
  | error err => exact throw _

/-- Compiling a signature comes to the same code or the same error. -/
theorem compile (s : Signature) : RunsSame r (fun x y => y = x.map (Artifact.replace r))
    (Run.ofUpdate (Update.compile s)) (Run.ofUpdate (Update.compile s)) := by
  refine bind_get fun e => ?_
  have htyping : (e.replace r).typing = e.typing.map (Typing.replace r) := by
    unfold Engine.typing Typing.of
    have hscalar : (e.replace r).types.scalar? (e.replace r).options.defaultBits =
        e.types.scalar? e.options.defaultBits := rfl
    rw [hscalar]
    cases e.types.scalar? e.options.defaultBits <;> rfl
  have houtcome : (do
      let c ← (e.replace r).typing
      c.compile (e.replace r).schedule.order s) = (do
        let c ← e.typing
        c.compile e.schedule.order s).map (Artifact.replace r) := by
    rw [htyping]
    cases e.typing with
    | error err => rfl
    | ok c => exact c.compile_replace e.schedule.order s
  dsimp only
  rw [houtcome]
  refine bind_set ?_ (pure rfl)
  unfold Engine.replace
  rw [Assoc.mapValues_insert]

/-- The artifact of a signature is found or compiled on both sides. -/
theorem artifactOf (s : Signature) : RunsSame r (SameCode r) (Run.ofUpdate (Update.artifactOf s))
    (Run.ofUpdate (Update.artifactOf s)) := by
  refine bind_get fun e => ?_
  have hget : (e.replace r).compiled.get? s = (e.compiled.get? s).map (Except.map (Artifact.replace r)) :=
    Assoc.get?_mapValues _ _ _
  rw [hget]
  cases e.compiled.get? s with
  | some outcome => exact bind_set rfl (ofCompile outcome)
  | none => exact bind_update (compile s) fun outcome _ h => h ▸ ofCompile outcome

theorem specialize (function : Ident) (args : List Value) :
    RunsSame r (SameCode r) (Run.ofUpdate (Update.specialize function args))
      (Run.ofUpdate (Update.specialize function args)) :=
  bind_update (signatureOf function args) fun s _ h => h ▸ artifactOf s

theorem bindSite (caller : Signature) (site : Nat) (callee : Signature) :
    RunsSame r (SameCode r) (Run.ofUpdate (Update.bindSite caller site callee))
      (Run.ofUpdate (Update.bindSite caller site callee)) := by
  refine bind_get fun e => ?_
  have hget : (e.replace r).bound.get? (caller, site) =
      (e.bound.get? (caller, site)).map (Artifact.replace r) := Assoc.get?_mapValues _ _ _
  rw [hget]
  cases e.bound.get? (caller, site) with
  | some a => exact pure rfl
  | none =>
    refine bind_update (artifactOf callee) fun a _ h => ?_
    subst h
    intro e
    refine .ok ⟨.ok rfl, congrArg (fun bound => { e.replace r with bound }) ?_⟩
    exact (Assoc.mapValues_insert _ e.bound (caller, site) a).symm

end RunsSame

end ShapeCompiler
