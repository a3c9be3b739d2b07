import ShapeCompiler.Proofs.Calls
import ShapeCompiler.Proofs.Typing.Settled
import ShapeCompiler.Proofs.Typing.Soundness

/-!
Settled assumptions describe every answer of an interpreted program.

Main statement: in a world that the surroundings of inference describe, every value that a function
answers for arguments of a signature is of the type assumed for this signature
(`Describes.apply_has`). The induction is on interpretations, so recursion needs no argument of its
own.
-/

namespace ShapeCompiler

/-- The surroundings of typing describe a world, whose types may be more: what a name means to
typing it also means in the world. -/
structure Typing.Describes (c : Typing) (w : World) : Prop where
  fits : c.Fits w.types
  bits : w.defaultBits = c.defaultBits
  tidy : c.functions.Tidy
  functions : ∀ {name f}, c.functions.get? name = some f → w.functions.get? name = some f ∧
    (c.types.recordNamed? name = none → w.types.recordNamed? name = none)
  native : ∀ {name n args v}, c.functions.get? name = some (.native n) → w.native n args (.ok v) →
    (StaticType.known n.returns).Has w.types v

namespace Typing

variable {c : Typing} {w : World} {A : Assumptions} {sig : Signature} {st : StaticType} {counted : Bool}

/-- What calls answer is of the types that settled assumptions give to it. -/
structure Trusts (c : Typing) (w : World) (A : Assumptions)
    (call : Ident → List Value → Answers Value) : Prop where
  constructor : ∀ {name id r vs v}, c.types.recordNamed? name = some (id, r) →
    (∀ v ∈ vs, w.types.Normal v) → call name vs (.ok v) → (StaticType.known id).Has w.types v
  native : ∀ {name n vs v}, c.types.recordNamed? name = none →
    c.functions.get? name = some (.native n) → call name vs (.ok v) →
      (StaticType.known n.returns).Has w.types v
  function : ∀ {s st vs v}, c.types.recordNamed? s.function = none → A.get? s = some st →
    ArgsHave w.types s.args vs → call s.function vs (.ok v) → st.Has w.types v

theorem Trusts.of_le {call call' : Ident → List Value → Answers Value} (h : c.Trusts w A call)
    (hle : ∀ name vs y, call' name vs y → call name vs y) : c.Trusts w A call' :=
  ⟨fun hr hn hv => h.constructor hr hn (hle _ _ _ hv), fun hr hf hv => h.native hr hf (hle _ _ _ hv),
    fun hr hs hvs hv => h.function hr hs hvs (hle _ _ _ hv)⟩

variable (hd : c.Describes w) (hA : c.Settled A)
include hd hA

theorem Trusts.sound {call : Ident → List Value → Answers Value} (h : c.Trusts w A call)
    (function : Ident) (strict : Bool) :
    Walker.Sound { c with assumed := A, function, strict } w.types w.interpreter call where
  fits := hd.fits
  assumed s st hs := (hA s st hs).1
  records := rfl
  bits := hd.bits
  constructor := h.constructor
  native := h.native
  function := h.function

/-- If calls can be trusted, so can a function that is applied to arguments of a signature. -/
theorem Trusts.apply {C : Meaning} (hC : ∀ depth, c.Trusts w A (C depth)) (hs : A.get? sig = some st)
    {f : Function} {d : FunctionDef} (hf : c.functions.get? sig.function = some f)
    (hfd : f.definition? = some d) {depth : Option Nat} {vs : List Value} {v : Value}
    (hvs : ArgsHave w.types sig.args vs) (h : w.apply counted C depth d vs (.ok v)) : st.Has w.types v := by
  obtain ⟨-, h⟩ | h | ⟨k, fuel, hv⟩ := World.apply_cases h
  · cases h
  · cases h
  obtain ⟨-, s', hwalk, hj⟩ := hA sig st hs
  obtain ⟨f', d', strict, F, hf', hfd', hr, hfound⟩ := walk_eq_ok hwalk
  obtain rfl : f = f' := Option.some.inj (hf.symm.trans hf')
  obtain rfl : d = d' := Option.some.inj (hfd.symm.trans hfd')
  have htidy : Block.Tidy True d.body := by
    have := hd.tidy _ _ hf
    cases f with
    | decorated d => cases hfd; exact this
    | interpreted d => cases hfd; exact this
    | native n => cases hfd
  have hsound := (hC k).sound hd hA sig.function strict
  obtain ⟨-, hh⟩ := hsound.returnType htidy hr hfound.symm
  obtain ⟨hs', hn⟩ := hh fuel vs v hvs hv
  exact ⟨hd.fits.join_right hj hs', hn⟩

/-- If calls in bodies can be trusted, so can calls. -/
theorem Trusts.step {C : Meaning} (hC : ∀ depth, c.Trusts w A (C depth)) (depth : Option Nat) :
    c.Trusts w A (w.step C depth) := by
  constructor
  · intro name id r vs v hr hn h
    have hr' := hd.fits.grows.recordNamed? hd.fits.target hr
    unfold World.step at h
    simp only [hr'] at h
    have hname := TypeTable.name_of_recordNamed? hr'
    obtain ⟨ha, hnv⟩ := Interpreter.construct_ok (i := w.interpreter) hd.fits.target
      (hname.symm ▸ hr') hn (Answers.step_iff.1 h)
    exact ⟨.inr ha, hnv⟩
  · intro name n vs v hrec hf h
    obtain ⟨hf', hrec'⟩ := hd.functions hf
    have hrec' := hrec' hrec
    unfold World.step at h
    simp only [hrec', hf'] at h
    split at h
    · cases h
    · exact hd.native hf h
  · intro s st vs v hrec hs hvs h
    obtain ⟨-, s', hwalk, -⟩ := hA s st hs
    obtain ⟨f, d, -, -, hf, hfd, -⟩ := walk_eq_ok hwalk
    obtain ⟨hf', hrec'⟩ := hd.functions hf
    have hrec' := hrec' hrec
    unfold World.step at h
    simp only [hrec', hf'] at h
    cases f with
    | decorated d => cases hfd; exact Trusts.apply hd hA hC hs hf rfl hvs h
    | interpreted d => cases hfd; exact Trusts.apply hd hA hC hs hf rfl hvs h
    | native n => cases hfd

theorem trusts_calls (depth : Option Nat) : c.Trusts w A (w.calls depth) := by
  -- an answer comes from calls whose answers can all be trusted
  have answer : ∀ {depth name vs y}, w.calls depth name vs y →
      c.Trusts w A fun name' vs' y' => name' = name ∧ vs' = vs ∧ y' = y := by
    intro depth name vs y h
    induction h with
    | @intro C hC depth name vs y h ih =>
      have hC' : ∀ depth, c.Trusts w A (C depth) := fun depth =>
        ⟨fun hr hn h => (ih _ _ _ _ h).constructor hr hn ⟨rfl, rfl, rfl⟩,
          fun hr hf h => (ih _ _ _ _ h).native hr hf ⟨rfl, rfl, rfl⟩,
          fun hr hs hvs h => (ih _ _ _ _ h).function hr hs hvs ⟨rfl, rfl, rfl⟩⟩
      have hstep := Trusts.step hd hA hC' depth
      constructor
      · rintro name' id r vs' v hr hn ⟨rfl, rfl, rfl⟩
        exact hstep.constructor hr hn h
      · rintro name' n vs' v hr hf ⟨rfl, rfl, rfl⟩
        exact hstep.native hr hf h
      · rintro s st vs' v hr hs hvs ⟨rfl, rfl, rfl⟩
        exact hstep.function hr hs hvs h
  exact ⟨fun hr hn h => (answer h).constructor hr hn ⟨rfl, rfl, rfl⟩,
    fun hr hf h => (answer h).native hr hf ⟨rfl, rfl, rfl⟩,
    fun hr hs hvs h => (answer h).function hr hs hvs ⟨rfl, rfl, rfl⟩⟩

theorem Describes.apply_has (hs : A.get? sig = some st) {f : Function} {d : FunctionDef}
    (hf : c.functions.get? sig.function = some f) (hfd : f.definition? = some d)
    {depth : Option Nat} {vs : List Value} {v : Value} (hvs : ArgsHave w.types sig.args vs)
    (h : w.apply counted w.calls depth d vs (.ok v)) : st.Has w.types v :=
  Trusts.apply hd hA (trusts_calls hd hA) hs hf hfd hvs h

end Typing

end ShapeCompiler
