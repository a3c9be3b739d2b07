import ShapeCompiler.Proofs.Engine.Coherence

/-!
The steps of running code.

Code takes steps of seven kinds (`Event.Takes`). Where it fails to compile, its notes say why
(`History.Blames`): a value is not of a type, a call site cannot be bound, or the host asks for what does not
compile. Main statements: steps keep bindings and, if all definitions stay fixed, the whole engine in order
(`Event.Takes.ready`), and what lies between two moments of a run is a run (`History.RunsTo.of_precedes`).
-/

namespace ShapeCompiler

variable {α β : Type}

/-! ### Runs that leave the specialiser alone -/

/-- The engines differ at most in their types and definitions. -/
structure Engine.Rests (e e' : Engine) : Prop extends e.Alike e' where
  options : e'.options = e.options
  activations : e'.activations = e.activations

theorem Engine.Rests.refl (e : Engine) : e.Rests e := ⟨.refl e, rfl, rfl⟩

theorem Engine.Rests.trans {e e' e'' : Engine} (h : e.Rests e') (h' : e'.Rests e'') : e.Rests e'' :=
  ⟨h.toAlike.trans h'.toAlike, h'.options.trans h.options, h'.activations.trans h.activations⟩

/-- The run does nothing but to register types and definitions, and its answers satisfy a condition. -/
def Run.Quiet (x : Run α) (Q : α → Prop) : Prop :=
  ∀ (e : Engine) y e', e.run x = .ok (y, e') → e.Rests e' ∧ ∀ a, y = .ok a → Q a

namespace Run.Quiet

variable {x : Run α} {f : α → Run β} {Q R : α → Prop} {Q' : β → Prop}

theorem pure {a : α} (h : Q a) : Quiet (pure a) Q := by
  intro e y e' hr
  cases hr
  exact ⟨.refl e, fun b hb => by cases hb; exact h⟩

theorem throw (err : Error) : Quiet (throw err) Q := by
  intro e y e' hr
  cases hr
  exact ⟨.refl e, fun b hb => by cases hb⟩

theorem bind (hx : Quiet x Q) (hf : ∀ a, Q a → Quiet (f a) Q') : Quiet (x >>= f) Q' := by
  intro e y e' hr
  rcases Engine.run_bind_eq_ok.1 hr with ⟨a, e₁, h₁, h₂⟩ | ⟨err, h₁, rfl⟩
  · obtain ⟨ha, hq⟩ := hx e _ _ h₁
    obtain ⟨ha', hq'⟩ := hf a (hq a rfl) e₁ _ _ h₂
    exact ⟨ha.trans ha', hq'⟩
  · exact ⟨(hx e _ _ h₁).1, fun a ha => by cases ha⟩

theorem bind_update {x : Update α} {f : α → Update β} (hx : Quiet (ofUpdate x) Q)
    (hf : ∀ a, Q a → Quiet (ofUpdate (f a)) Q') : Quiet (ofUpdate (x >>= f)) Q' := by
  rw [ofUpdate_bind]
  exact hx.bind hf

theorem of_still (hx : Still x Q) : Quiet x Q := by
  intro e y e' hr
  obtain ⟨rfl, hq, -⟩ := hx e y e' hr
  exact ⟨.refl e', hq⟩

/-! ### Types and definitions -/

theorem declareScalar (bits : Nat) : Quiet (ofUpdate (Update.declareScalar bits)) fun _ => True := by
  intro e y e' hr
  refine ⟨?_, fun _ _ => trivial⟩
  change Except.ok (e.update (Update.declareScalar bits)) = _ at hr
  cases hd : e.types.declareScalar bits with
  | ok p =>
    rw [Engine.update_declareScalar hd] at hr
    cases hr
    exact ⟨⟨rfl, rfl, rfl⟩, rfl, rfl⟩
  | error fault =>
    change Except.ok ((Update.ofType (e.types.declareScalar bits) >>= _ : Update TypeId) e) = _ at hr
    rw [hd] at hr
    cases hr
    exact .refl e

theorem mapM {γ : Type} {f : γ → Update α} (hf : ∀ c, Quiet (ofUpdate (f c)) fun _ => True)
    (cs : List γ) : Quiet (ofUpdate (cs.mapM f)) fun _ => True := by
  induction cs with
  | nil => exact .pure trivial
  | cons c rest ih =>
    rw [List.mapM_cons]
    exact (hf c).bind_update fun _ _ => ih.bind_update fun _ _ => .pure trivial

theorem argumentType (t : TypeTable) (function : Ident) (v : Value) :
    Quiet (ofUpdate (Update.argumentType t function v)) fun _ => True := by
  cases v with
  | int n => exact .bind_update (.of_still .get) fun e _ => .declareScalar _
  | uint u => exact .declareScalar _
  | record name vs =>
    simp only [Update.argumentType]
    split
    · exact .pure trivial
    · exact .throw _
  | incomplete => exact .throw _

theorem signatureOf (function : Ident) (args : List Value) :
    Quiet (ofUpdate (Update.signatureOf function args)) fun s => s.function = function := by
  unfold Update.signatureOf
  exact .bind_update (.of_still .get) fun e _ => .bind_update (.mapM (.argumentType e.types function) args)
    fun ids _ => .pure rfl

theorem register (name : Ident) (f : Function) :
    Quiet (ofUpdate (Update.register name f)) fun _ => True := by
  intro e y e' hr
  refine ⟨?_, fun _ _ => trivial⟩
  rcases Engine.register_cases hr with rfl | ⟨-, rfl⟩
  · exact .refl e'
  · exact ⟨⟨rfl, rfl, rfl⟩, rfl, rfl⟩

theorem declareTypes (group : List TypeDecl) :
    Quiet (ofUpdate (Update.declareTypes group)) fun _ => True := by
  intro e y e' hr
  refine ⟨?_, fun _ _ => trivial⟩
  rcases Engine.declareTypes_cases hr with rfl | ⟨ids, t, -, rfl⟩
  · exact .refl e'
  · exact ⟨⟨rfl, rfl, rfl⟩, rfl, rfl⟩

theorem nativeType (function type : Ident) :
    Quiet (ofUpdate (Update.nativeType function type)) fun _ => True := by
  unfold Update.nativeType
  refine .bind_update (.of_still .get) fun e _ => ?_
  split
  · exact .pure trivial
  · split
    · exact .declareScalar _
    · exact .throw _

theorem defineNative (n : NativeDef) : Quiet (ofUpdate (Update.defineNative n)) fun _ => True :=
  .bind_update (.mapM (.nativeType n.name) n.params) fun _ _ =>
    .bind_update (.nativeType n.name n.returns) fun _ _ => .register _ _

end Run.Quiet

def Request.Registers : Request → Prop
  | declareTypes _ | declareScalar _ | decorate _ | define _ | defineNative _ => True
  | _ => False

/-- Definitions compile nothing, bind nothing and count nothing. -/
theorem Request.registers_quiet {r : Request} (h : r.Registers) (fuel : Nat) :
    (r.perform fuel).Quiet fun _ => True := by
  cases r with
  | declareTypes group => exact (Run.Quiet.declareTypes group).bind fun _ _ => .pure trivial
  | declareScalar bits => exact (Run.Quiet.declareScalar bits).bind fun _ _ => .pure trivial
  | decorate d => exact .register _ _
  | define d => exact .register _ _
  | defineNative n => exact .defineNative n
  | specialize _ _ | call _ _ | callHandle _ _ | verify _ _ => exact h.elim

/-! ### Why a signature is not found -/

namespace Engine

variable {e e' : Engine} {t : TypeTable} {function : Ident} {err : Error}

theorem declareScalar_error {bits : Nat} (h : e.update (Update.declareScalar bits) = (.error err, e')) :
    err.OfRun := by
  cases hd : e.types.declareScalar bits with
  | ok p =>
    rw [update_declareScalar hd] at h
    cases h
  | error fault =>
    change ((Update.ofType (e.types.declareScalar bits) >>= _ : Update TypeId) e) = _ at h
    rw [hd] at h
    cases h
    unfold TypeTable.declareScalar at hd
    split at hd
    · cases hd
    · cases hd
      trivial

theorem argumentType_error {v : Value} (h : e.update (Update.argumentType t function v) = (.error err, e')) :
    err = .compile (.type (.sentinelSpecialization function)) ∨ err.OfRun := by
  cases v with
  | int n => exact .inr (declareScalar_error h)
  | uint u => exact .inr (declareScalar_error h)
  | record name vs =>
    simp only [Update.argumentType] at h
    split at h
    · cases h
    · cases h
      exact .inr trivial
  | incomplete =>
    cases h
    exact .inl rfl

theorem argumentTypes_error {args : List Value}
    (h : e.update (args.mapM (Update.argumentType t function)) = (.error err, e')) :
    err = .compile (.type (.sentinelSpecialization function)) ∨ err.OfRun := by
  induction args generalizing e with
  | nil => cases h
  | cons v rest ih =>
    rw [List.mapM_cons] at h
    rcases update_bind_eq_error h with hv | ⟨id, e₁, -, h⟩
    · exact argumentType_error hv
    · rcases update_bind_eq_error h with hrest | ⟨ids, e₂, -, h⟩
      · exact ih hrest
      · cases h

/-- A call has no signature if one of its arguments is the sentinel or not of a type. -/
theorem signatureOf_error {args : List Value}
    (h : e.update (Update.signatureOf function args) = (.error err, e')) :
    err = .compile (.type (.sentinelSpecialization function)) ∨ err.OfRun := by
  rw [Update.signatureOf, update_get] at h
  rcases update_bind_eq_error h with hargs | ⟨ids, e₁, -, h⟩
  · exact argumentTypes_error hargs
  · cases h

theorem artifactOf_ok {s : Signature} {a : Artifact} (h : e.update (Update.artifactOf s) = (.ok a, e')) :
    e'.compiled.get? s = some (.ok a) :=
  (@Run.artifactOf_ensures False s e (·.elim) _ _ (congrArg Except.ok h)).2 a rfl

end Engine

/-! ### Steps of code -/

/-- The name stands for a decorated function. -/
def Engine.Decorates (e : Engine) (name : Ident) : Prop := ∃ d, e.functions.get? name = some (.decorated d)

/-- The bindings of an engine are in order, and if all definitions stay fixed the whole engine is. -/
structure Engine.Ready (fixed : Prop) (e : Engine) : Prop extends e.Bindings where
  inOrder : e.InOrder fixed

/-- What a step of running code does to an engine, by the event that it is about. If all definitions stay
`fixed`, only signatures of registered types are requested. -/
inductive Event.Takes (fixed : Prop) (e : Engine) : Event → Engine → Prop
  | requested {s : Signature} {r : Except Error Artifact} {e' : Engine} (hs : fixed → s.Registered e.types)
      (hr : e.update (Update.artifactOf s) = (r, e')) : Takes fixed e (.requested s) e'
  | bound {caller callee : Signature} {site : Nat} {a b : Artifact}
      (ha : e.compiled.get? caller = some (.ok a)) (hk : a.callSites[site]? = some callee)
      (hb : e.compiled.get? callee = some (.ok b)) :
      Takes fixed e (.bound caller site callee) (e.withBound caller site b)
  | entered {a : Artifact} (ha : e.Keeps a) : Takes fixed e (.entered (.ok a)) e.counted
  | refused {err : Error} : Takes fixed e (.entered (.error err)) e
  /-- Scalars may have been registered. -/
  | rested {e' : Engine} (hx : e.Extends fixed e') (hr : e.Rests e') : Takes fixed e .other e'
  /-- An activation of the interpreter begins. -/
  | began (hroom : e.activations.alive < e.options.maxHostDepth) : Takes fixed e .other e.entered
  /-- An activation of the interpreter ends. -/
  | ended : Takes fixed e .other e.left

namespace Event.Takes

variable {fixed : Prop} {e e' : Engine} {event : Event}

theorem leads (h : Takes fixed e event e') : event.Leads e e' := by
  cases h with
  | requested _ hr => exact (congrArg Prod.snd hr).symm
  | bound ha hk hb => exact ⟨_, _, ha, hk, hb, rfl⟩
  | entered ha => exact ⟨ha, rfl⟩
  | refused => rfl
  | rested _ hr => exact hr.toAlike
  | began _ | ended => exact ⟨rfl, rfl, rfl⟩

/-- A step that neither begins nor ends an activation extends an engine in order. -/
theorem extension (h : Takes fixed e event e') (he : e.InOrder fixed) :
    e.Extends fixed e' ∨ e' = e.entered ∨ e' = e.left := by
  cases h with
  | requested hs hr => exact .inl (Run.artifactOf_ensures _ e hs _ _ (congrArg Except.ok hr)).1
  | bound ha hk hb =>
    refine .inl (.bind fun hf => ?_)
    obtain ⟨hkeeps, rfl⟩ := (he hf).keeps hb
    exact ⟨hkeeps, _, ha, hk⟩
  | entered _ => exact .inl (.of_eq rfl rfl rfl rfl rfl rfl rfl)
  | refused => exact .inl (.refl e)
  | rested hx _ => exact .inl hx
  | began _ => exact .inr (.inl rfl)
  | ended => exact .inr (.inr rfl)

theorem ready (h : Takes fixed e event e') (he : e.Ready fixed) : e'.Ready fixed where
  toBindings := he.toBindings.leads h.leads
  inOrder hf := by
    have hc := he.inOrder hf
    rcases h.extension he.inOrder with hx | rfl | rfl
    · exact hx.coherent hf hc
    · exact hc.of_eq rfl rfl rfl rfl rfl rfl
    · exact hc.of_eq rfl rfl rfl rfl rfl rfl

end Event.Takes

namespace History

/-- Code that ran from the first history on has led to the second one. -/
inductive RunsTo (fixed : Prop) (h : History) : History → Prop
  | refl : RunsTo fixed h h
  | step {h' : History} {event : Event} {e : Engine} (hto : RunsTo fixed h h')
      (ht : event.Takes fixed h'.now e) : RunsTo fixed h (h'.push event e)

namespace RunsTo

variable {fixed : Prop} {h h' h'' : History}

theorem trans (hto : h.RunsTo fixed h') (hto' : h'.RunsTo fixed h'') : h.RunsTo fixed h'' := by
  induction hto' with
  | refl => exact hto
  | step _ ht ih => exact ih.step ht

theorem remembers (hto : h.RunsTo fixed h') : h.now.Remembers h'.now := by
  induction hto with
  | refl => exact .refl _
  | step _ ht ih => exact ih.trans ht.leads.remembers

theorem ready (hto : h.RunsTo fixed h') (hr : h.now.Ready fixed) : h'.now.Ready fixed := by
  induction hto with
  | refl => exact hr
  | step _ ht ih => exact ht.ready ih

theorem lawful (hto : h.RunsTo fixed h') (hl : h.Lawful) : h'.Lawful := by
  induction hto with
  | refl => exact hl
  | step _ ht ih => exact ih.push ht.leads

/-- Every moment since a history is one of the run that led on from it. -/
theorem of_precedes (hto : h.RunsTo fixed h') (hp : h.Precedes h'') (hp' : h''.Precedes h') :
    h.RunsTo fixed h'' ∧ h''.RunsTo fixed h' := by
  induction hto with
  | refl =>
    obtain rfl := hp.antisymm hp'
    exact ⟨.refl, .refl⟩
  | step hto ht ih =>
    rcases precedes_push_iff.1 hp' with rfl | hp'
    · exact ⟨hto.step ht, .refl⟩
    · exact ⟨(ih hp').1, (ih hp').2.step ht⟩

end RunsTo

/-- Why code that began to run at the first history has failed to compile at the second one. -/
inductive Blames (fixed : Prop) (h : History) (err : CompileError) (h' : History) : Prop
  /-- A value was not of a type. -/
  | value {fault : TypeError} (herr : err = .type fault) (hf : fault.OfValue)
  /-- A call site of an artifact could not be bound. -/
  | binding {h₁ : History} {caller callee : Signature} {site : Nat} {a : Artifact} {e : Engine}
      (hto : h.RunsTo fixed h₁) (ha : h₁.now.compiled.get? caller = some (.ok a))
      (hk : a.callSites[site]? = some callee)
      (herr : h₁.now.update (Update.artifactOf callee) = (.error (.compile err), e))
      (hto' : (h₁.push (.requested callee) e).RunsTo fixed h')
  /-- The host did not enter compiled code, for an argument was the sentinel. -/
  | sentinel {h₁ : History} {function : Ident} (hto : h.RunsTo fixed h₁)
      (herr : err = .type (.sentinelSpecialization function))
      (hto' : (h₁.push (.entered (.error (.compile err))) h₁.now).RunsTo fixed h')
  /-- The host did not enter compiled code, for the signature does not compile. -/
  | outcome {h₁ : History} {s : Signature} {e : Engine} (hto : h.RunsTo fixed h₁)
      (hs : h₁.now.Decorates s.function)
      (herr : h₁.now.update (Update.artifactOf s) = (.error (.compile err), e))
      (hto' : ((h₁.push (.requested s) e).push (.entered (.error (.compile err))) e).RunsTo fixed h')

theorem Blames.trans {fixed : Prop} {h₀ h h' h'' : History} {err : CompileError} (hb : h.Blames fixed err h')
    (hto : h₀.RunsTo fixed h) (hto' : h'.RunsTo fixed h'') : h₀.Blames fixed err h'' := by
  cases hb with
  | value herr hf => exact .value herr hf
  | binding h₁ ha hk herr h₂ => exact .binding (hto.trans h₁) ha hk herr (h₂.trans hto')
  | sentinel h₁ herr h₂ => exact .sentinel (hto.trans h₁) herr (h₂.trans hto')
  | outcome h₁ hs herr h₂ => exact .outcome (hto.trans h₁) hs herr (h₂.trans hto')

end History

end ShapeCompiler
