import ShapeCompiler.Proofs.Equality
import ShapeCompiler.Proofs.Faults

/-!
Compiled code agrees with the reference interpreter.

Main statement: the call of a decorated function and the reference evaluation of the same function on
the normalised arguments end alike, so verification never answers that they do not
(`Engine.Regular.agrees`).
-/

namespace ShapeCompiler

open TypeTable

/-- How the end of a compiled call may stand beside the end of a reference evaluation. -/
inductive Agree : Except Error Value → Except Error Value → Prop
  /-- Something could not be compiled. -/
  | compile (err : CompileError) (y : Except Error Value) : Agree (.error (.compile err)) y
  /-- The reference ran into the limit of its activations. -/
  | limit (y : Except Error Value) (limit : Nat) : Agree y (.error (.runtime (.recursionLimit limit)))
  | value (v : Value) : Agree (.ok v) (.ok v)
  /-- Both failed with errors of the same kind. -/
  | fault {f f₀ : RuntimeError} (h : f.code = f₀.code) :
    Agree (.error (.runtime f)) (.error (.runtime f₀))

namespace Comparison

variable {C : Comparison} {e e' : Engine}

/-- Where the activations of the reference are limited, a run that conforms ends as a reference answer says,
unless that limit is reached or something cannot be compiled. -/
theorem Conforms.answered {α β : Type} {R : α → β → Prop} {p : Answers α} {x : Run β} {y : Except Error β}
    (h : C.Conforms R p e x) (hb : C.bounded) (hx : e.run x = .ok (y, e')) :
    C.Limited p ∨ (∃ err, y = .error (.compile err)) ∨ (∃ a b, y = .ok b ∧ p (.ok a) ∧ R a b) ∨
    ∃ f₀ f, y = .error (.runtime f) ∧ p (.error (.runtime f₀)) ∧ f.code = f₀.code := by
  rcases h with hlim | h
  · exact .inl hlim
  · rw [hx] at h
    refine .inr ?_
    cases y with
    | ok b =>
      obtain ⟨-, a, ha, hR⟩ := h
      exact .inr (.inl ⟨a, b, rfl, ha, hR⟩)
    | error err =>
      obtain ⟨-, hf⟩ := h
      cases err with
      | compile err => exact .inl ⟨err, rfl⟩
      | runtime f =>
        rcases hf with ⟨hnot, -⟩ | ⟨f₀, hf₀, -, hcode⟩
        · exact absurd hb hnot
        · exact .inr (.inr ⟨f₀, f, rfl, hf₀, hcode⟩)
      | options _ => exact hf.elim
      | mismatch _ _ _ => exact hf.elim

/-- A run that conforms to the only answer of the reference agrees with it. -/
theorem Conforms.agree {Q : Value → Prop} {p : Answers Value} {x : Run Value}
    {y y₀ : Except Error Value} (h : C.Conforms (Same Q) p e x) (hb : C.bounded)
    (hx : e.run x = .ok (y, e')) (hp : ∀ z, p z → z = y₀) : Agree y y₀ := by
  rcases h.answered hb hx with ⟨-, hlim⟩ | ⟨err, rfl⟩ | ⟨v, w, rfl, hv, rfl, -⟩ | ⟨f₀, f, rfl, hf₀, hcode⟩
  · rw [← hp _ hlim]
    exact .limit y _
  · exact .compile err y₀
  · rw [← hp _ hv]
    exact .value v
  · rw [← hp _ hf₀]
    exact .fault hcode

end Comparison

namespace Engine

variable {e e' e₁ e₂ e₃ : Engine} {name : Ident} {args ws : List Value} {s : Signature} {d : FunctionDef}
  {fuel fuel₀ : Nat} {y y₀ : Except Error Value}

theorem WellFormed.reference_unique (he : e.WellFormed) (hproper : (e.world (Native.outcome e.types)).Proper)
    (hpure : e.functions.Pure) (hx : e.Extends True e₂) (hws : ∀ v ∈ ws, e.types.Normal v)
    (hrun : e₂.run (do
      let i ← Run.interpreter .reference
      Run.interpret fuel₀ i d ws) = .ok (y₀, e₃)) {z : Except Error Value}
    (hz : (e.world (Native.outcome e.types)).apply true (e.world (Native.outcome e.types)).calls
      (some (e.options.maxHostDepth - e.activations.alive)) d ws z) : z = y₀ := by
  let w := e.world (Native.outcome e.types)
  let w₂ := w.withTypes e₂.types
  obtain ⟨hw₂, hg⟩ := hx.types he.types
  have hhosts : w₂.Hosts e₂ :=
    ⟨hx.functions, hw₂, .refl _, congrArg Options.maxHostDepth hx.options,
      congrArg Options.defaultBits hx.options⟩
  have hinterp : e₂.run (Run.interpret fuel₀ w₂.interpreter d ws) = .ok (y₀, e₃) := by
    rw [← hrun]
    show _ = e₂.run (Run.interpret fuel₀ ⟨e₂.types, .reference, e₂.options.defaultBits⟩ d ws)
    rw [hx.options]
    rfl
  have hy := ((World.interpret_answers (nativesIn_outcome he hpure hg) rfl fuel₀).1 _ d ws e₂ hhosts hx.alive
    y₀ e₃ hinterp).2.1
  have hz₂ := (World.apply_grows hproper hg hw₂ (fun depth name args hargs =>
    World.calls_grows hproper hg hw₂ hargs) d hws z hz).1
  exact World.apply_calls_unique (fun _ _ _ _ => Native.outcome_unique) hz₂ hy

namespace Tidy

/-- The compiled call of a decorated function and its reference evaluation on the normalised arguments
agree, also if the reference is run in a later engine. -/
theorem call_agrees (he : e.Tidy) (hpure : e.functions.Pure)
    (hd : e.functions.get? name = some (.decorated d))
    (hcall : e.run (Run.callDecorated fuel name args) = .ok (y, e'))
    (hs : e.update (Update.signatureOf name args) = (.ok s, e₁))
    (hnorm : e₁.types.normalizeAll args s.args = .ok ws) (hx : e.Extends True e₂)
    (href : e₂.run (do
      let i ← Run.interpreter .reference
      Run.interpret fuel₀ i d ws) = .ok (y₀, e₃)) : Agree y y₀ := by
  have hcoherent := he.coherent
  obtain ⟨-, hspec, hx₁⟩ := update_signatureOf_eq_ok hcoherent.types hs
  obtain ⟨hw₁, hg₁⟩ := hx₁.types hcoherent.types
  obtain ⟨cs, hcs⟩ := encodeAll_of_normalizeAll hnorm
  obtain ⟨ws', hws, -, hargs⟩ := hw₁.normalizeAll_of_encodeAll hspec.length_eq hcs
  obtain rfl : ws' = ws := Except.ok.inj (hws.symm.trans hnorm)
  have hnormal : ∀ v ∈ ws', e.types.Normal v := fun v hv =>
    (normal_iff hg₁ hcoherent.types hw₁).1 (hargs.normal v hv)
  let C : Comparison := ⟨e.world (Native.outcome e.types), True, True⟩
  have hruns : C.Runs (some (e.options.maxHostDepth - e.activations.alive)) e :=
    ⟨hcoherent.toWellFormed.hosts, hcoherent, trivial, Nat.le_refl _, fun h => by cases h⟩
  refine (Comparison.Conformance.callDecorated_normalized (C := C) he.proper_outcome
    (natives_conform_outcome hcoherent.toWellFormed hpure) hruns hd hs hnorm fuel).agree trivial hcall ?_
  exact fun z hz => hcoherent.toWellFormed.reference_unique he.proper_outcome hpure hx hnormal href hz

/-- A call that returned a value was specialised on a signature that its arguments still have. -/
theorem signatureOf_again (he : e.Tidy) {v : Value}
    (hcall : e.run (Run.callDecorated fuel name args) = .ok (.ok v, e')) :
    ∃ s e₁, e.update (Update.signatureOf name args) = (.ok s, e₁) ∧
      e'.update (Update.signatureOf name args) = (.ok s, e') ∧ e.Extends True e' ∧
      e'.types.normalizeAll args s.args = e₁.types.normalizeAll args s.args := by
  have hcoherent := he.coherent
  obtain ⟨s, a, e₁, hs, hx, -⟩ := run_callDecorated_eq_ok hcoherent hcall
  obtain ⟨rfl, hspec, hx₁⟩ := update_signatureOf_eq_ok hcoherent.types hs
  obtain ⟨hw₁, hg⟩ := hx₁.types hcoherent.types
  obtain ⟨hw', hg'⟩ := hx.types hw₁
  refine ⟨s, e₁, hs, ?_, hx₁.trans hx, ?_⟩
  · exact update_signatureOf_again hw' (hspec.imp fun _ _ h => h.extends hx hw₁)
  · exact hg'.normalizeAll_eq hw₁ hw' (Specialises.all_registered hspec)

/-- Verification only fails to compile or as a program. -/
theorem verify_plain (he : e.Tidy) (hpure : e.functions.Pure) {err : Error}
    (h : e.run (Run.verify fuel name args) = .ok (.error err, e')) : err.IsPlain := by
  rw [Run.verify, Engine.run_function?] at h
  cases hf : e.functions.get? name with
  | none => rw [hf] at h; cases h; trivial
  | some f =>
    rw [hf] at h
    cases f with
    | interpreted _ => exact (Run.Plainness.all fuel).call name args e err e' h
    | native _ => exact (Run.Plainness.all fuel).call name args e err e' h
    | decorated d =>
      have plain := Run.Plainness.all fuel
      have hreference : ∀ ws, (do
          let i ← Run.interpreter .reference
          Run.interpret fuel i d ws).Plain := fun ws =>
        (Run.Plain.get.bind fun _ => .pure _).bind fun i => plain.interpret i d ws
      rcases (plain.callDecorated name args).of_bind h with h | ⟨v, e₁, hcall, h⟩
      · exact h
      rcases (Run.Plain.signatureOf name args).of_bind h with h | ⟨s, e₂, hs₁, h⟩
      · exact h
      rw [run_types] at h
      rcases (Run.Plain.ofType _).of_bind h with h | ⟨ws, e₃, hws, h⟩
      · exact h
      rw [← bind_assoc] at h
      rcases (hreference ws).of_bind h with h | ⟨v₀, e₄, href, h⟩
      · exact h
      obtain ⟨s', e₅, hs, hagain, hx, hnorm⟩ := he.signatureOf_again hcall
      obtain ⟨rfl, rfl⟩ : s = s' ∧ e₂ = e₁ := by
        have := (Except.ok.inj hs₁).symm.trans hagain
        cases this
        exact ⟨rfl, rfl⟩
      cases hn : e₂.types.normalizeAll args s.args with
      | error fault =>
        rw [hn] at hws
        cases hws
      | ok ws' =>
        rw [hn] at hws
        cases hws
        have hagree := he.call_agrees hpure hf hcall hs (hnorm.symm.trans hn) hx href
        cases hagree
        rw [if_pos (beq_self_eq_true v)] at h
        cases h

end Tidy

namespace Regular

/-- Whatever is asked of a decorated function, compiled code and the reference interpreter agree, so
verification never answers that the results differ. -/
theorem agrees (he : e.Regular) (hpure : e.functions.Pure) :
    (∀ {name d args s ws fuel fuel₀ y y₀ e₁ e₂ e' e₃}, e.functions.get? name = some (.decorated d) →
      e.run (Run.callDecorated fuel name args) = .ok (y, e') →
      e.update (Update.signatureOf name args) = (.ok s, e₁) →
      e₁.types.normalizeAll args s.args = .ok ws → e.Extends True e₂ →
      e₂.run (do
        let i ← Run.interpreter .reference
        Run.interpret fuel₀ i d ws) = .ok (y₀, e₃) → Agree y y₀) ∧
    ∀ {name args fuel f compiled reference e'},
      e.run (Run.verify fuel name args) ≠ .ok (.error (.mismatch f compiled reference), e') :=
  ⟨fun hd hcall hs hnorm hx href => he.tidy.call_agrees hpure hd hcall hs hnorm hx href,
    fun h => he.tidy.verify_plain hpure h⟩

end Regular

end Engine

/-! ### Two functions that call each other -/

theorem Engine.default_record? (id : TypeId) : Engine.default.types.record? id = none := by
  have hgrows : ({} : TypeTable).GrowsByScalars Engine.default.types := ensureScalar_grows {} Uint.defaultBits
  rw [hgrows.record?_eq]
  simp [TypeTable.record?, TypeTable.get?]

namespace Catalog

theorem parityEngine_regular : parityEngine.Regular where
  session := (Engine.reached_default.decorate isEven (.inl rfl) (by with_unfolding_all rfl)).decorate isOdd
    (.inl rfl) (by with_unfolding_all rfl)
  clean := parityEngine_clean
  fields hr := by cases (Engine.default_record? _).symm.trans hr

theorem parityEngine_pure : parityEngine.functions.Pure :=
  (Functions.pure_empty.decorated isEven).decorated isOdd

theorem parity_signature : parityEngine.update (Update.signatureOf "is_even" [.int 3]) =
    (.ok ⟨"is_even", [⟨0⟩]⟩, parityEngine) :=
  Engine.update_signatureOf_again (s := ⟨"is_even", [⟨0⟩]⟩) parityEngine_regular.coherent.types
    (.cons (by with_unfolding_all rfl : parityEngine.types.scalarBits? ⟨0⟩ = some 24) .nil)

/-- A run that ends with a number leaves an engine behind. -/
theorem exists_of_number {x : Except Halt (Except Error Value × Engine)} {u : Uint}
    (h : (x.toOption.bind fun p => p.1.toOption.bind (Value.asUint 24)) = some u) :
    ∃ v e', x = .ok (.ok v, e') ∧ v.asUint 24 = some u := by
  cases x with
  | error stop => cases h
  | ok p =>
    obtain ⟨y, e'⟩ := p
    cases y with
    | error err => cases h
    | ok v => exact ⟨v, e', rfl, h⟩

/-- The failure to compile that a run ends with. -/
def compileError? (x : Except Halt (Except Error Value × Engine)) : Option CompileError :=
  match x with
  | .ok (.error (.compile err), _) => some err
  | _ => none

theorem exists_of_compileError? {x : Except Halt (Except Error Value × Engine)} {err : CompileError}
    (h : compileError? x = some err) : ∃ e', x = .ok (.error (.compile err), e') := by
  unfold compileError? at h
  split at h
  · cases h
    exact ⟨_, rfl⟩
  · cases h

/-- Three is not even, compiled or interpreted. -/
theorem agrees_parity :
    ∃ v v₀ e' e₃, parityEngine.run (Run.callDecorated 60 "is_even" [.int 3]) = .ok (.ok v, e') ∧
      parityEngine.run (do
        let i ← Run.interpreter .reference
        Run.interpret 60 i isEven [.uint (Uint.u24 3)]) = .ok (.ok v₀, e₃) ∧
      v.asUint 24 = some (Uint.u24 0) ∧ Agree (.ok v) (.ok v₀) ∧
      ∀ {args fuel f compiled reference e'}, parityEngine.run (Run.verify fuel "is_even" args) ≠
        .ok (.error (.mismatch f compiled reference), e') := by
  obtain ⟨v, e', hcall, hv⟩ : ∃ v e', parityEngine.run (Run.callDecorated 60 "is_even" [.int 3]) =
      .ok (.ok v, e') ∧ v.asUint 24 = some (Uint.u24 0) := exists_of_number (by decide +kernel)
  obtain ⟨v₀, e₃, href, -⟩ : ∃ v₀ e₃, parityEngine.run (do
      let i ← Run.interpreter .reference
      Run.interpret 60 i isEven [.uint (Uint.u24 3)]) = .ok (.ok v₀, e₃) ∧
      v₀.asUint 24 = some (Uint.u24 0) := exists_of_number (by decide +kernel)
  have hnorm : parityEngine.types.normalizeAll [.int 3] [⟨0⟩] = .ok [.uint (Uint.u24 3)] := by
    with_unfolding_all rfl
  obtain ⟨hagree, hverify⟩ := Engine.Regular.agrees parityEngine_regular parityEngine_pure
  exact ⟨v, v₀, e', e₃, hcall, href, hv, hagree rfl hcall parity_signature hnorm (.refl _) href, hverify⟩

end Catalog

end ShapeCompiler
