import ShapeCompiler.Proofs.Independence.Histories
import ShapeCompiler.Proofs.Machine.Evaluation

/-!
Calls that have a result.

Main statements: a call of a decorated function returns what the code of its specialisation evaluates to
(`Engine.returns_of_evaluates`), and what a prepared engine returns is returned whatever has been served
before (`Engine.Prepared.returns`).
-/

namespace ShapeCompiler

open TypeTable

/-- Given enough fuel, the call returns the value. -/
def Engine.Returns (e : Engine) (name : Ident) (args : List Value) (v : Value) : Prop :=
  ∃ n, ∀ fuel, n ≤ fuel → ∃ e', e.run (Run.call fuel name args) = .ok (.ok v, e')

namespace Engine

variable {e e₁ e₂ e' : Engine} {s caller callee : Signature} {a : Artifact} {name : Ident} {args : List Value}
  {v : Value} {c : Compiled} {site : Nat}

/-! ### Requests for artifacts -/

/-- What of an artifact can be compared: its code, the size of its frame, the specialisations that it calls
and the type of its result. -/
abbrev Parts : Type := List Op × Nat × List Signature × Option TypeId

instance : DecidableEq Parts := inferInstance

def parts? (e : Engine) (s : Signature) : Option Parts :=
  match e.outcomeWith e.types s with
  | .ok a => some (a.code.toList, a.registers, a.callSites, a.returns)
  | .error _ => none

/-- In the surroundings of the engine the signature is compiled to the artifact. -/
def Compiles (e : Engine) (s : Signature) (a : Artifact) : Prop := e.outcomeWith e.types s = .ok a

theorem Compiles.signature (h : e.Compiles s a) : a.signature = s := by
  obtain ⟨_, -, hcompile⟩ := bind_eq_ok.1 h
  exact Typing.compile_signature hcompile

theorem exists_of_parts? {code : List Op} {registers : Nat} {sites : List Signature} {returns : Option TypeId}
    (h : e.parts? s = some (code, registers, sites, returns)) : ∃ a, e.Compiles s a ∧ a.signature = s ∧
      a.Lists code registers s.args.length ∧ a.callSites = sites ∧ a.returns = returns := by
  unfold parts? at h
  split at h
  · rename_i a ha
    have hsig := Compiles.signature ha
    cases h
    exact ⟨a, ha, hsig, ⟨rfl, rfl, congrArg (List.length ∘ Signature.args) hsig⟩, rfl, rfl⟩
  · cases h

theorem parts?_of_compiles (ha : e.Compiles s a) :
    e.parts? s = some (a.code.toList, a.registers, a.callSites, a.returns) := by
  unfold parts?
  rw [show e.outcomeWith e.types s = .ok a from ha]

/-- The first request for a signature compiles it. -/
theorem update_artifactOf_new (hs : e.compiled.get? s = none) (ha : e.Compiles s a) :
    e.update (Update.artifactOf s) = (.ok a, e.withOutcome s) := by
  unfold Update.artifactOf
  rw [update_get, hs]
  refine (update_bind_ok (update_compile e s)).trans ?_
  rw [show e.outcomeWith e.types s = .ok a from ha]
  rfl

theorem update_bindSite_bound (hb : e.bound.get? (caller, site) = some a) :
    e.update (Update.bindSite caller site callee) = (.ok a, e) := by
  unfold Update.bindSite
  rw [update_get, hb]
  rfl

theorem update_bindSite_new (hb : e.bound.get? (caller, site) = none)
    (ha : e.update (Update.artifactOf callee) = (.ok a, e₁)) :
    e.update (Update.bindSite caller site callee) = (.ok a, e₁.withBound caller site a) := by
  unfold Update.bindSite
  rw [update_get, hb]
  exact (update_bind_ok ha).trans rfl

/-- The first call on a prepared engine compiles the signature of its arguments. -/
theorem Prepared.update_specialize (he : e.Prepared) (hs : List.Forall₂ e.Specialises args s.args)
    (ha : e.Compiles s a) : e.update (Update.specialize s.function args) = (.ok a, e.withOutcome s) := by
  have hnone : e.compiled.get? s = none := by
    rw [he.compiled]
    rfl
  exact (update_bind_ok (update_signatureOf_again (Reached.wellFormed he).types hs)).trans
    (update_artifactOf_new hnone ha)

/-- Its code then compiles another signature behind the first call site that it comes to. -/
theorem Prepared.update_bindSite (he : e.Prepared) (hne : s ≠ callee) (ha : e.Compiles callee a)
    (caller : Signature) (site : Nat) :
    ((e.withOutcome s).counted).update (Update.bindSite caller site callee) =
      (.ok a, (((e.withOutcome s).counted).withOutcome callee).withBound caller site a) := by
  have hnone : (e.withOutcome s).counted.compiled.get? callee = none := by
    show (e.compiled.insert s _).get? callee = none
    rw [Assoc.get?_insert, if_neg hne, he.compiled]
    rfl
  have hunbound : (e.withOutcome s).counted.bound.get? (caller, site) = none := by
    show e.bound.get? _ = none
    rw [he.bound]
    rfl
  exact update_bindSite_new hunbound (update_artifactOf_new hnone ha)

/-! ### Calls by the host -/

/-- Given enough fuel, an artifact answers the host with what its code evaluates to on encoded arguments. -/
theorem run_runArtifact_of_evaluates {cs : List Compiled} {type : TypeId}
    (hcs : e.types.encodeAll args a.signature.args = .ok cs) (hlen : cs.length = a.signature.args.length)
    (hc : (Machine.start a cs).Evaluates e c e') (hr : a.returns = some type)
    (hv : e.types.decode c type = .ok v) :
    ∃ n, ∀ fuel, n ≤ fuel → e.run (Run.runArtifact (fuel + 1) a args) = .ok (.ok v, e') := by
  obtain ⟨n, hn⟩ := hc.run
  refine ⟨n, fun fuel hle => ?_⟩
  have hexecute : e.run (a.execute (Run.callHost fuel) fuel cs) = .ok (.ok c, e') := by
    unfold Artifact.execute
    rw [if_neg (fun h => h hlen)]
    exact hn _ fuel hle
  have hresult : e'.run (Run.artifactResult e.types a c) = .ok (.ok v, e') := by
    unfold Run.artifactResult
    rw [hr]
    simp only [hv]
    rfl
  rw [Run.runArtifact_succ, run_types]
  show e.run (Run.ofUpdate (Update.ofType (e.types.encodeAll args a.signature.args)) >>= _) = _
  rw [hcs]
  refine run_bind_eq_ok.2 (.inl ⟨cs, e, rfl, ?_⟩)
  exact run_bind_eq_ok.2 (.inl ⟨c, e', hexecute, hresult⟩)

/-- Where the arguments are encoded, and the code of their specialisation evaluates to the form of a
value, the call returns the value. -/
theorem returns_of_evaluates {d : FunctionDef} {cs : List Compiled} {type : TypeId}
    (hd : e.functions.get? name = some (.decorated d))
    (ha : e.update (Update.specialize name args) = (.ok a, e₁))
    (hcs : e₁.types.encodeAll args a.signature.args = .ok cs) (hlen : cs.length = a.signature.args.length)
    (hc : (Machine.start a cs).Evaluates e₁.counted c e') (hr : a.returns = some type)
    (hv : e₁.types.decode c type = .ok v) : e.Returns name args v := by
  obtain ⟨n, hn⟩ := run_runArtifact_of_evaluates (e := e₁.counted) hcs hlen hc hr hv
  refine ⟨n + 3, fun fuel hle => ⟨e', ?_⟩⟩
  obtain ⟨k, rfl⟩ := Nat.exists_eq_add_of_le' (Nat.le_of_add_left_le hle)
  rw [Run.call, run_function?, hd]
  exact run_bind_eq_ok.2 (.inl ⟨a, e₁, congrArg Except.ok ha, hn k (by omega)⟩)

/-- What one engine that has served requests returns, every other one returns, if the records in the
arguments have names of types that were defined. -/
theorem Onward.returns (he : e.Prepared) (hpure : e.functions.Pure) (huniform : e.Uniform) (h₁ : e.Onward e₁)
    (h₂ : e.Onward e₂) (hargs : ∀ v ∈ args, v.RecordsIn fun n => (e.types.lookup n).isSome) (hr : e₁.Returns name args v) :
    e₂.Returns name args v := by
  obtain ⟨n, hn⟩ := hr
  obtain ⟨hd₁, ha₁⟩ := h₁.descends he.descends
  obtain ⟨hd₂, ha₂⟩ := h₂.descends he.descends
  have hground : Ground (fun n => (e.types.lookup n).isSome) e :=
    he.ground hpure huniform fun hr => lookup_isSome_of_get? (record?_eq_some.1 hr)
  have htwin := Descends.twins hd₁ hd₂ (ha₁.trans ha₂.symm)
  refine ⟨n, fun fuel hle => ?_⟩
  obtain ⟨e', hrun⟩ := hn fuel hle
  have hsame := ((Alikeness.all hground fuel).call name args hargs e₁ e₂ htwin).answers fun _ _ _ _ h => h.1
  rw [hrun] at hsame
  obtain ⟨⟨y, e₃⟩, hrun₂, hy⟩ := map_eq_ok.1 hsame.symm
  obtain rfl : y = .ok v := hy
  exact ⟨e₃, hrun₂⟩

/-- What a prepared engine returns is returned whatever has been served before. -/
theorem Prepared.returns (he : e.Prepared) (hpure : e.functions.Pure) (huniform : e.Uniform) (h : e.Onward e₁)
    (hargs : ∀ v ∈ args, v.RecordsIn fun n => (e.types.lookup n).isSome) (hr : e.Returns name args v) :
    e₁.Returns name args v :=
  Onward.returns he hpure huniform .start h hargs hr

end Engine

end ShapeCompiler
