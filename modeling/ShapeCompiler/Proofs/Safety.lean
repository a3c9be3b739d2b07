import ShapeCompiler.Proofs.Agreement

/-!
Type soundness of compiled runs.

Main statement: an artifact that runs on arguments of its signature never leaves its registers and
sites, never yields what its return type cannot describe, and its instructions only ever fail over the
sentinel (`Engine.Regular.run_sound`).
-/

namespace ShapeCompiler

open TypeTable

/-- The machine gets from one instruction to another one, while the engine changes along. -/
inductive Machine.GoesTo (host : HostSite → List Compiled → Run Compiled) :
    Engine → Machine → Engine → Machine → Prop
  | refl (e : Engine) (m : Machine) : GoesTo host e m e m
  | step {e e' e'' : Engine} {m m' m'' : Machine}
      (h : e.run (m.step host) = .ok (.ok (.next m'), e')) (hrest : GoesTo host e' m' e'' m'') :
      GoesTo host e m e'' m''

variable {host : HostSite → List Compiled → Run Compiled} {e e' e₁ : Engine} {m m₁ : Machine}

theorem Machine.run_error {n : Nat} {err : Error}
    (h : e.run (Machine.run host n m) = .ok (.error err, e')) :
    ∃ e₁ m₁, GoesTo host e m e₁ m₁ ∧ e₁.run (m₁.step host) = .ok (.error err, e') := by
  induction n generalizing e m with
  | zero => cases h
  | succ n ih =>
    rcases Engine.run_bind_eq_ok.1 h with ⟨s, e₂, hs, h⟩ | ⟨err', hs, herr⟩
    · cases s with
      | done c => cases h
      | next m' =>
        obtain ⟨e₁, m₁, hgo, herr⟩ := ih h
        exact ⟨e₁, m₁, .step hs hgo, herr⟩
    · cases herr
      exact ⟨e, m, .refl e m, hs⟩

/-- A machine that goes on as answers say for any number of steps still does so where it gets to. -/
theorem Comparison.Drives.goesTo {C : Comparison} {p : Answers Value}
    (h : ∀ n, C.Drives host p n e m) (hgo : Machine.GoesTo host e m e₁ m₁) :
    ∀ n, C.Drives host p n e₁ m₁ := by
  induction hgo with
  | refl => exact h
  | step hs _ ih =>
    refine ih fun n => ?_
    have := h (n + 1)
    unfold Drives at this
    rw [hs] at this
    exact this

namespace Engine

/-- Runs of the engine beside a reference whose activations are not limited. -/
def unlimited (e : Engine) : Comparison := ⟨e.world (Native.outcome e.types), False, True⟩

/-- An artifact of the engine, the function that it was compiled from, and arguments of its signature
with their forms. -/
structure Starts (e : Engine) (a : Artifact) (d : FunctionDef) (vs : List Value) (cs : List Compiled) :
    Prop where
  keeps : e.Keeps a
  function : e.functions.get? a.signature.function = some (.decorated d)
  forms : Forms e.types vs cs
  args : ArgsHave e.types a.signature.args vs

variable {a : Artifact} {d : FunctionDef} {args vs : List Value} {c : Compiled} {cs : List Compiled}
  {fuel : Nat} {err : Error}

theorem Coherent.unlimited_runs (he : e.Coherent) : e.unlimited.Runs none e :=
  ⟨he.toWellFormed.hosts, he, fun h => h⟩

/-- Arguments that can be encoded are those of a start. -/
theorem Coherent.starts (he : e.Coherent) (ha : e.Keeps a) (hlen : args.length = a.signature.args.length)
    (hencode : e.types.encodeAll args a.signature.args = .ok cs) : ∃ d vs, e.Starts a d vs cs := by
  obtain ⟨l, pool, hl, -⟩ := he.unlimited_runs.lowered ha
  obtain ⟨vs, -, hforms, hargs⟩ := he.types.normalizeAll_of_encodeAll hlen hencode
  refine ⟨l.definition, vs, ha, ?_, hforms, hargs⟩
  rw [hl.compiled.signature]
  exact hl.function

namespace Starts

variable (hs : e.Starts a d vs cs) (he : e.Regular) (hpure : e.functions.Pure)
include hs he hpure

omit hs in
theorem conformance (fuel : Nat) : e.unlimited.Conformance fuel :=
  .all he.proper_outcome (natives_conform_outcome he.coherent.toWellFormed hpure) fuel

theorem execute_conforms (fuel : Nat) :
    e.unlimited.Conforms e.types.Form (e.unlimited.world.apply true e.unlimited.world.calls none d vs) e
      (a.execute (Run.callHost fuel) fuel cs) :=
  Comparison.execute_conforms (C := e.unlimited) he.proper_outcome (conformance he hpure fuel).callHost
    he.coherent.unlimited_runs hs.keeps hs.function hs.forms hs.args (Run.Growth.all fuel).callHost fuel

/-- The machine never leaves its registers and sites. -/
theorem execute_halt {stop : Halt} (h : e.run (a.execute (Run.callHost fuel) fuel cs) = .error stop) :
    stop = .outOfFuel := by
  rcases hs.execute_conforms he hpure fuel with ⟨⟨hf, -⟩, -⟩ | hends
  · exact hf.elim
  · rw [h] at hends
    exact hends trivial

/-- What the machine returns is the form of a value of the return type. -/
theorem execute_ok (h : e.run (a.execute (Run.callHost fuel) fuel cs) = .ok (.ok c, e')) :
    ∃ v, (StaticType.ofReturn a.returns).Has e.types v ∧ e.types.Form v c := by
  rcases hs.execute_conforms he hpure fuel with ⟨⟨hf, -⟩, -⟩ | hends
  · exact hf.elim
  · rw [h] at hends
    obtain ⟨-, v, hv, hform⟩ := hends
    exact ⟨v, he.coherent.unlimited_runs.returns_has hs.keeps hs.function hs.args he.proper_outcome hv, hform⟩

/-- The machine fails at an instruction, over the sentinel unless it calls a host function. -/
theorem execute_error (h : e.run (a.execute (Run.callHost fuel) fuel cs) = .ok (.error err, e')) :
    (∀ f, err = .runtime f → f.Ordinary) ∧
    ∃ e₁ m, Machine.GoesTo (Run.callHost fuel) e (Machine.start a cs) e₁ m ∧
      e₁.run (m.step (Run.callHost fuel)) = .ok (.error err, e') ∧ (m.CallsHost ∨ err.OverSentinel) := by
  refine ⟨fun f hf => ?_, ?_⟩
  · subst hf
    rcases hs.execute_conforms he hpure fuel with ⟨⟨hf, -⟩, -⟩ | hends
    · exact hf.elim
    · rw [h] at hends
      obtain ⟨-, ⟨-, rfl⟩ | ⟨f₀, -, hordinary, -⟩⟩ := hends
      · trivial
      · exact hordinary
  · rw [Comparison.execute_eq _ _ hs.forms hs.args] at h
    obtain ⟨e₁, m, hgo, hstep⟩ := Machine.run_error h
    refine ⟨e₁, m, hgo, hstep, ?_⟩
    have hdrives := Comparison.start_drives (C := e.unlimited) he.proper_outcome
      (conformance he hpure fuel).callHost he.coherent.unlimited_runs hs.keeps hs.function hs.forms hs.args
      (fun h => h.1.1)
    have hone := Comparison.Drives.goesTo hdrives hgo 1
    unfold Comparison.Drives at hone
    rw [hstep] at hone
    by_cases hm : m.CallsHost
    · exact .inl hm
    · exact .inr (hone.2 hm)

end Starts

/-- Running an artifact ends as its execution does; nothing fails on the way in or out. -/
theorem Regular.run_artifact (he : e.Regular) (hpure : e.functions.Pure) (hs : e.Starts a d vs cs)
    (hencode : e.types.encodeAll args a.signature.args = .ok cs) :
    (∀ stop, e.run (Run.runArtifact (fuel + 1) a args) = .error stop →
      e.run (a.execute (Run.callHost fuel) fuel cs) = .error stop) ∧
    ∀ err e', e.run (Run.runArtifact (fuel + 1) a args) = .ok (.error err, e') →
      e.run (a.execute (Run.callHost fuel) fuel cs) = .ok (.error err, e') := by
  have hrun : e.run (Run.runArtifact (fuel + 1) a args) =
      e.run (a.execute (Run.callHost fuel) fuel cs >>= Run.artifactResult e.types a) := by
    rw [Run.runArtifact_succ, run_types, hencode]
    rfl
  rw [hrun, run_bind]
  cases hx : e.run (a.execute (Run.callHost fuel) fuel cs) with
  | error stop =>
    refine ⟨fun stop' h => ?_, fun err e' h => ?_⟩
    · cases h
      rfl
    · cases h
  | ok p =>
    obtain ⟨y, e₁⟩ := p
    cases y with
    | error err =>
      refine ⟨fun stop h => ?_, fun err' e' h => ?_⟩
      · cases h
      · cases h
        rfl
    | ok c =>
      obtain ⟨v, hhas, hf⟩ := hs.execute_ok he hpure hx
      have hresult := Comparison.run_artifactResult he.coherent.types hhas hf e₁
      refine ⟨fun stop h => ?_, fun err e' h => ?_⟩
      · cases hresult.symm.trans h
      · cases hresult.symm.trans h

/-- What an engine compiled, run on arguments of its signature, is type sound: the machine never leaves
its registers and sites, nothing fails but an instruction, which without a call of a host function
fails over the sentinel, and what is returned can be decoded and encoded again. -/
theorem Regular.run_sound (he : e.Regular) (hpure : e.functions.Pure) (ha : e.Keeps a)
    (hlen : args.length = a.signature.args.length)
    (hencode : e.types.encodeAll args a.signature.args = .ok cs) (fuel : Nat) :
    (∀ stop, e.run (Run.runArtifact (fuel + 1) a args) = .error stop → stop = .outOfFuel) ∧
    (∀ err e', e.run (Run.runArtifact (fuel + 1) a args) = .ok (.error err, e') →
      (∀ f, err = .runtime f → f.Ordinary) ∧
      ∃ e₁ m, Machine.GoesTo (Run.callHost fuel) e (Machine.start a cs) e₁ m ∧
        e₁.run (m.step (Run.callHost fuel)) = .ok (.error err, e') ∧
        (m.CallsHost ∨ err.OverSentinel)) ∧
    ∀ c e', e.run (a.execute (Run.callHost fuel) fuel cs) = .ok (.ok c, e') →
      (∀ t, a.returns = some t → ∃ v, e.types.decode c t = .ok v ∧ e.types.encode v t = .ok c) ∧
      (a.returns = none → c = .incomplete) := by
  obtain ⟨d, vs, hs⟩ := he.coherent.starts ha hlen hencode
  obtain ⟨hhalt, herror⟩ := he.run_artifact hpure hs hencode
  refine ⟨fun stop h => hs.execute_halt he hpure (hhalt stop h),
    fun err e' h => hs.execute_error he hpure (herror err e' h), fun c e' h => ?_⟩
  obtain ⟨v, hhas, hf⟩ := hs.execute_ok he hpure h
  refine ⟨fun t ht => ?_, fun hnone => ?_⟩
  · rw [ht] at hhas
    exact ⟨v, he.coherent.types.decode_eq hhas hf, he.coherent.types.encode_eq hhas hf⟩
  · rw [hnone] at hhas
    obtain rfl : v = .incomplete := hhas.1
    exact hf.of_incomplete

end Engine

/-! ### A test of parity -/

namespace Catalog

def specializedParity : Engine := parityEngine.after 0 (.specialize "is_even" [.int 3])

theorem specializedParity_regular : specializedParity.Regular := parityEngine_regular.after trivial

theorem specializedParity_pure : specializedParity.functions.Pure := by
  have hx : parityEngine.Extends False specializedParity := Engine.after_extends trivial fun h => h.elim
  rw [hx.functions]
  exact parityEngine_pure

theorem compiled_specializedParity : specializedParity.compiled.get? ⟨"is_even", [⟨0⟩]⟩ =
    some (parityTyping.compile .calleesFirst ⟨"is_even", [⟨0⟩]⟩) :=
  Engine.compiled_after_specialize typing_parityEngine parity_signature rfl

/-- The test runs to a number, which can be decoded and encoded again. -/
theorem run_sound_parity :
    ∃ a c e', specializedParity.Keeps a ∧
      specializedParity.run (a.execute (Run.callHost 60) 60 [.scalar 3]) = .ok (.ok c, e') ∧
      c.scalar? = some 0 ∧ a.returns = some ⟨0⟩ ∧
      (∃ v, specializedParity.types.decode c ⟨0⟩ = .ok v ∧ specializedParity.types.encode v ⟨0⟩ = .ok c) ∧
      ∀ stop, specializedParity.run (Run.runArtifact 61 a [.int 3]) = .error stop → stop = .outOfFuel := by
  have hrun : ((parityTyping.compile .calleesFirst ⟨"is_even", [⟨0⟩]⟩).toOption.bind fun a =>
      (specializedParity.run (a.execute (Run.callHost 60) 60 [.scalar 3])).toOption.bind fun p =>
        p.1.toOption.bind fun c => c.scalar?.map fun n => (n, a.returns)) = some (0, some ⟨0⟩) := by
    decide +kernel
  have hkept := compiled_specializedParity
  cases ha : parityTyping.compile .calleesFirst ⟨"is_even", [⟨0⟩]⟩ with
  | error err =>
    rw [ha] at hrun
    cases hrun
  | ok a =>
    rw [ha] at hrun hkept
    obtain ⟨hk, hsig⟩ := specializedParity_regular.coherent.keeps hkept
    have hencode : specializedParity.types.encodeAll [.int 3] a.signature.args = .ok [.scalar 3] := by
      rw [hsig]
      with_unfolding_all rfl
    obtain ⟨hstop, -, hreturn⟩ := Engine.Regular.run_sound specializedParity_regular specializedParity_pure hk
      (by rw [hsig]; rfl) hencode 60
    change ((specializedParity.run (a.execute (Run.callHost 60) 60 [.scalar 3])).toOption.bind fun p =>
      p.1.toOption.bind fun c => c.scalar?.map fun n => (n, a.returns)) = _ at hrun
    cases hx : specializedParity.run (a.execute (Run.callHost 60) 60 [.scalar 3]) with
    | error stop =>
      rw [hx] at hrun
      cases hrun
    | ok p =>
      obtain ⟨y, e'⟩ := p
      rw [hx] at hrun
      cases y with
      | error err => cases hrun
      | ok c =>
        obtain ⟨n, hn, hrun⟩ := Option.map_eq_some_iff.1 hrun
        obtain ⟨rfl, hreturns⟩ := Prod.mk.inj hrun
        exact ⟨a, c, e', hk, hx, hn, hreturns, (hreturn c e' hx).1 ⟨0⟩ hreturns, hstop⟩

end Catalog

end ShapeCompiler
