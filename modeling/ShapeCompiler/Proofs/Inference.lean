import ShapeCompiler.Catalog.Programs
import ShapeCompiler.Proofs.Engine.Sessions
import ShapeCompiler.Proofs.Reference
import ShapeCompiler.Proofs.Typing.Description

/-!
Inference is sound for the reference interpreter, and always ends.

Main statements: what inference says of a signature holds of every value that the reference
interpreter of the engine yields for arguments of these types (`Typing.infer_sound`), and neither its
passes nor the rounds of a loop are ever used up (`Typing.infer_ends`). Native functions may answer what
they like, also after they have entered the engine again.
-/

namespace ShapeCompiler

open TypeTable

variable {t t' : TypeTable} {id : TypeId} {v w : Value} {e e' : Engine}

theorem TypeTable.WellFormed.normalize_has (hw : t.WellFormed) (h : t.normalize v id = .ok w) :
    (StaticType.known id).Has t w := by
  unfold normalize at h
  obtain ⟨c, hc, h⟩ := bind_eq_ok.1 h
  rcases hw.encodes_of_encode hc with ⟨-, rfl⟩ | ⟨-, v', he, ha⟩
  · rw [decode_incomplete] at h
    cases h
    exact .sentinel (by simp)
  · rw [hw.decode_of_encodes he ha] at h
    cases h
    exact ⟨.inr ha, he.normal⟩

/-- What native functions can answer whatever they do: values of the type that they declare. -/
def Native.declared (t : TypeTable) (n : Native) (_ : List Value) : Answers Value :=
  fun y => ∀ v, y = .ok v → (StaticType.known n.returns).Has t v

/-- The world of an engine, given what native functions answer. -/
def Engine.world (e : Engine) (native : Native → List Value → Answers Value) : World :=
  ⟨e.functions, e.types, e.options.defaultBits, e.options.maxHostDepth, true, native⟩

theorem Engine.WellFormed.hosts (h : e.WellFormed) {native : Native → List Value → Answers Value} :
    (e.world native).Hosts e :=
  ⟨rfl, h.types, .refl _, rfl, rfl⟩

theorem Engine.WellFormed.nativesIn_declared (h : e.WellFormed) :
    (e.world (Native.declared e.types)).NativesIn := by
  intro fuel n name args e₁ y e' he hf hlen hr v hy
  subst hy
  cases fuel with
  | zero => cases hr
  | succ fuel =>
    simp only [Run.callNative, hlen, ne_eq, not_true, if_false] at hr
    rcases Engine.run_bind_eq_ok.1 hr with ⟨r, e₂, hp, hr⟩ | ⟨err, -, hy⟩
    · have hg : Run.Growth False fuel := .all fuel
      have hext := (Run.Orderly.perform hg.call (n.run args) e₁ (fun h => h.elim) _ _ hp).1
      have he₂ := he.extends hext
      cases r with
      | error message => cases hr
      | ok v₀ =>
        simp only [Engine.run_types] at hr
        split at hr
        · rename_i v₁ hv₁
          cases hr
          exact (StaticType.has_known_iff he₂.grows h.types he₂.types (h.natives hf)).1
            (he₂.types.normalize_has hv₁)
        · cases hr
    · cases hy

theorem Typing.Serves.describes {c : Typing} (h : c.Serves e) (hclean : e.functions.Clean)
    {native : Native → List Value → Answers Value}
    (hn : ∀ n args y, native n args y → Native.declared e.types n args y) :
    c.Describes (e.world native) where
  fits := h.fits
  bits := h.bits.symm
  tidy name f hf := (hclean name f (h.functions hf).1).tidy
  functions := h.functions
  native _ hv := hn _ _ _ hv _ rfl

namespace Typing

/-- The values that a return type found by inference allows: the sentinel, and what inhabits the
type, if there is one. -/
def ReturnAllows (t : TypeTable) (r : Option TypeId) (v : Value) : Prop :=
  v = .incomplete ∨ ∃ id, r = some id ∧ t.Inhabits id v

theorem returnAllows_of_has (hw : t.WellFormed) {r : Option TypeId}
    (h : (StaticType.ofReturn r).Has t v) : ReturnAllows t r v := by
  cases r with
  | none => exact .inl h.1
  | some id => exact h.1.imp_right fun ha => ⟨id, rfl, hw.inhabits_iff.2 ⟨ha, h.2⟩⟩

/-- Values that inhabit the types of some arguments, the sentinel being allowed. -/
def ArgumentsInhabit (t : TypeTable) (ids : List TypeId) (vs : List Value) : Prop :=
  List.Forall₂ (fun id v => v = .incomplete ∨ t.Inhabits id v) ids vs

theorem argsHave_of_inhabit (hw : t.WellFormed) {ids : List TypeId} {vs : List Value}
    (h : ArgumentsInhabit t ids vs) : ArgsHave t ids vs := by
  refine h.imp fun id v hv => ?_
  rcases hv with rfl | hv
  · exact .sentinel (by simp)
  · obtain ⟨ha, hn⟩ := hw.inhabits_iff.1 hv
    exact ⟨.inr ha, hn⟩

/-- A return type in settled assumptions allows every value that the reference interpreter yields. -/
theorem Serves.returnAllows {c : Typing} (hc : c.Serves e) (he : e.WellFormed)
    (hclean : e.functions.Clean) {T : ReturnTypes} (hset : c.Settled (assumptionsOf T))
    {s : Signature} {r : Option TypeId} (hs : T.get? s = some r) {f : Function} {d : FunctionDef}
    (hf : c.functions.get? s.function = some f) (hfd : f.definition? = some d) {fuel : Nat}
    {args : List Value} (hargs : ArgumentsInhabit e.types s.args args)
    (hrun : e.run (do
      let i ← Run.interpreter .reference
      Run.interpret fuel i d args) = .ok (.ok v, e')) : ReturnAllows e.types r v := by
  have hA : (assumptionsOf T).get? s = some (.ofReturn r) := by
    rw [get?_assumptionsOf, hs]
    rfl
  have hanswer : (e.world (Native.declared e.types)).apply true
      (e.world (Native.declared e.types)).calls _ d args (.ok v) :=
    ((World.interpret_answers he.nativesIn_declared rfl fuel).1 e.activations.alive d args e he.hosts rfl
      (.ok v) e' hrun).2.1
  exact returnAllows_of_has he.types (Describes.apply_has (hc.describes hclean fun _ _ _ h => h) hset hA hf hfd
    (argsHave_of_inhabit he.types hargs) hanswer)

/-- Inference is sound: its result contains the root and every signature that is met when one of its
own is walked under it, and what it says of a signature holds of every value that the reference
interpreter yields for arguments of this signature. -/
theorem infer_sound {e : Engine} (he : e.Reachable) (hclean : e.functions.Clean) {c : Typing}
    (hc : e.typing = .ok c) {order : VisitOrder} (ho : order.Complete) {root : Signature}
    {T : ReturnTypes} (hT : c.infer order root = .ok T) :
    (T.get? root).isSome ∧ ∀ s r, T.get? s = some r →
      (∃ s', c.walk (assumptionsOf T) s = .ok (s', [])) ∧
      ∃ f d, e.functions.get? s.function = some f ∧ f.definition? = some d ∧
        ∀ fuel args v e', ArgumentsInhabit e.types s.args args →
          e.run (do
            let i ← Run.interpreter .reference
            Run.interpret fuel i d args) = .ok (.ok v, e') →
          ReturnAllows e.types r v := by
  have hw := he.wellFormed
  have hserves := hw.typing_serves hc
  obtain ⟨hset, hroot⟩ := infer_settled hserves.fits.wellFormed ho hT
  refine ⟨hroot, fun s r hs => ?_⟩
  have hA : (assumptionsOf T).get? s = some (.ofReturn r) := by
    rw [get?_assumptionsOf, hs]
    rfl
  obtain ⟨-, s', hwalk, -⟩ := hset s _ hA
  obtain ⟨f, d, -, -, hf, hfd, -⟩ := walk_eq_ok hwalk
  exact ⟨⟨s', hwalk⟩, f, d, (hserves.functions hf).1, hfd, fun fuel args v e' hargs hrun =>
    hserves.returnAllows hw hclean hset hs hf hfd hargs hrun⟩

/--
In every engine and for every root, whatever order the passes visit the known specialisations in,
inference ends by itself: neither its passes nor the rounds of a loop are ever used up.
-/
theorem infer_ends {e : Engine} (he : e.Reachable) {c : Typing} (hc : e.typing = .ok c)
    {order : VisitOrder} (ho : order.Complete) (root : Signature) :
    (∀ function passes, c.infer order root ≠ .error (.type (.unsettled function passes))) ∧
    ∀ function, c.infer order root ≠ .error (.type (.unsettledLoop function)) :=
  have hg := he.wellFormed.grounded hc
  ⟨fun _ _ h => infer_ofTyping hg ho h, fun _ h => infer_ofTyping hg ho h⟩

end Typing

/-! ### Two functions that call each other -/

namespace Catalog

def parityEngine : Engine :=
  (Engine.default.withFunction isEven.name (.decorated isEven)).withFunction isOdd.name
    (.decorated isOdd)

/-- The surroundings in which this engine compiles. -/
def parityTyping : Typing := ⟨parityEngine.functions, parityEngine.types, 24, ⟨0⟩⟩

/-- What inference finds from the first of them: each yields a number of 24 bits. -/
def parityReturns : ReturnTypes :=
  ⟨[(⟨"is_even", [⟨0⟩]⟩, some ⟨0⟩), (⟨"is_odd", [⟨0⟩]⟩, some ⟨0⟩)]⟩

theorem parityEngine_reachable : parityEngine.Reachable :=
  (Engine.reached_default.decorate isEven trivial (by with_unfolding_all rfl)).decorate isOdd trivial
    (by with_unfolding_all rfl)

theorem parity_clean (name other : Ident) (atZero : UInt64) :
    Block.Clean (parity name other atZero).body := by
  simp [parity, returning, minus, Block.Clean, Block.ArmsClean, Expr.Clean, Expr.AllClean, placeholder]

theorem parityEngine_clean : parityEngine.functions.Clean := by
  intro name f h
  simp only [parityEngine, Engine.withFunction, Assoc.get?_insert] at h
  split at h
  · cases h
    exact parity_clean _ _ _
  · split at h
    · cases h
      exact parity_clean _ _ _
    · cases h

theorem typing_parityEngine : parityEngine.typing = .ok parityTyping :=
  Engine.typing_of_scalar (by with_unfolding_all rfl)

theorem infer_parity :
    parityTyping.infer .calleesFirst ⟨"is_even", [⟨0⟩]⟩ = .ok parityReturns := by
  with_unfolding_all rfl

/-- Both tests yield the sentinel or a number of 24 bits, however often they call each other. -/
theorem infer_sound_parity :
    (parityReturns.get? ⟨"is_even", [⟨0⟩]⟩).isSome ∧ ∀ s r, parityReturns.get? s = some r →
      (∃ s', parityTyping.walk (Typing.assumptionsOf parityReturns) s = .ok (s', [])) ∧
      ∃ f d, parityEngine.functions.get? s.function = some f ∧ f.definition? = some d ∧
        ∀ fuel args v e', Typing.ArgumentsInhabit parityEngine.types s.args args →
          parityEngine.run (do
            let i ← Run.interpreter .reference
            Run.interpret fuel i d args) = .ok (.ok v, e') →
          Typing.ReturnAllows parityEngine.types r v :=
  Typing.infer_sound parityEngine_reachable parityEngine_clean typing_parityEngine
    VisitOrder.complete_calleesFirst infer_parity

theorem infer_ends_parity :
    parityEngine.Reachable ∧ parityEngine.typing = .ok parityTyping ∧
    VisitOrder.calleesFirst.Complete ∧
    (∀ function passes, parityTyping.infer .calleesFirst ⟨"is_even", [⟨0⟩]⟩ ≠
      .error (.type (.unsettled function passes))) ∧
    ∀ function, parityTyping.infer .calleesFirst ⟨"is_even", [⟨0⟩]⟩ ≠
      .error (.type (.unsettledLoop function)) :=
  ⟨parityEngine_reachable, typing_parityEngine, VisitOrder.complete_calleesFirst,
    Typing.infer_ends parityEngine_reachable typing_parityEngine VisitOrder.complete_calleesFirst _⟩

end Catalog

end ShapeCompiler
