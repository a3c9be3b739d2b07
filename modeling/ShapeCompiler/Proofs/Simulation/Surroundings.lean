import ShapeCompiler.Proofs.Reference
import ShapeCompiler.Proofs.Typing.Description

/-!
What compiled code may rely on in an engine that has gained scalars since a world was looked at.

Main statements: calls answer the same in a world with more scalars (`World.calls_grows`), so the
surroundings in which an artifact was compiled type the calls of the world in every later engine
(`World.Proper.sound`).
-/

namespace ShapeCompiler

open TypeTable

theorem Interpreter.Closed.symm {V : Value → Prop} {i i' : Interpreter} (h : i.Closed V i') :
    i'.Closed V i :=
  ⟨h.bits.symm, h.uint, h.incomplete, h.fields, fun hv => (h.field hv).symm⟩

/-- A world whose programs compiled code can be compared with. -/
structure World.Proper (w : World) : Prop where
  types : w.types.WellFormed
  tidy : w.functions.Tidy
  /-- Positions of fields fit into 16 bits. -/
  fields : ∀ {id r}, w.types.record? id = some r → r.fields.length ≤ 65536
  nativeType : ∀ {name n}, w.functions.get? name = some (.native n) →
    (w.types.get? n.returns).isSome
  native : ∀ {name n args v}, w.functions.get? name = some (.native n) → w.native n args (.ok v) →
    (StaticType.known n.returns).Has w.types v

namespace World

variable {w : World} {t : TypeTable} {e : Engine} {c : Typing} {depth : Option Nat} {name : Ident}
  {args : List Value} {y : Except Error Value}

def withTypes (w : World) (t : TypeTable) : World := { w with types := t }

section Grows

variable (hp : w.Proper) (hg : w.types.GrowsByScalars t) (hw : t.WellFormed)
include hp hg hw

theorem closed_withTypes : w.interpreter.Closed w.types.Normal (w.withTypes t).interpreter := by
  have hbits : w.interpreter.defaultBits = (w.withTypes t).interpreter.defaultBits := rfl
  exact (Interpreter.closed_normal hg hp.types hw hbits).symm

/-- If calls answer the same with more scalars, so does a function that makes them. -/
theorem apply_grows {C C' : Meaning} {counted : Bool}
    (h : ∀ depth name args, (∀ v ∈ args, w.types.Normal v) →
      Relation.inclusion.rel w.types.Normal (C depth name args) (C' depth name args))
    (d : FunctionDef) (hargs : ∀ v ∈ args, w.types.Normal v) :
    Relation.inclusion.rel w.types.Normal (w.apply counted C depth d args)
      ((w.withTypes t).apply counted C' depth d args) := by
  have hV := closed_withTypes hp hg hw
  have body : ∀ depth, Relation.inclusion.rel w.types.Normal (w.body (C depth) d args)
      ((w.withTypes t).body (C' depth) d args) := by
    rintro depth a ⟨fuel, ha⟩
    obtain ⟨ha', hn⟩ := Relation.inclusion.body hV (h depth) (.inl rfl) d hargs a ha
    exact ⟨⟨fuel, ha'⟩, hn⟩
  unfold World.apply
  split
  · exact Relation.inclusion.throw trivial
  · cases counted with
    | false => exact body depth
    | true =>
      rcases depth with _ | _ | depth
      · exact body none
      · exact Relation.inclusion.throw trivial
      · exact body (some depth)

/-- If calls in bodies answer the same with more scalars, so do calls. -/
theorem step_grows {C C' : Meaning}
    (h : ∀ depth name args, (∀ v ∈ args, w.types.Normal v) →
      Relation.inclusion.rel w.types.Normal (C depth name args) (C' depth name args))
    (hargs : ∀ v ∈ args, w.types.Normal v) :
    Relation.inclusion.rel w.types.Normal (w.step C depth name args)
      ((w.withTypes t).step C' depth name args) := by
  unfold World.step
  have hrec : (w.withTypes t).types.recordNamed? name = w.types.recordNamed? name :=
    hg.recordNamed?_eq hp.types hw name
  rw [hrec]
  cases hr : w.types.recordNamed? name with
  | some p =>
    have hname := name_of_recordNamed? hr
    have hco : (w.withTypes t).interpreter.construct p.2 args = w.interpreter.construct p.2 args :=
      Interpreter.construct_congr hg hp.types hw rfl (recordNamed?_eq_some.1 hr).2 hargs
    simp only [hco]
    refine Relation.inclusion.step (fun v hv => ?_) fun f hf => Interpreter.construct_ordinary hf
    exact (Interpreter.construct_ok (i := w.interpreter) hp.types (hname.symm ▸ hr) hargs hv).2
  | none =>
    have hfun : (w.withTypes t).functions = w.functions := rfl
    rw [hfun]
    cases hf : w.functions.get? name with
    | none => exact Relation.inclusion.throw trivial
    | some f =>
      cases f with
      | decorated d => exact apply_grows hp hg hw h d hargs
      | interpreted d => exact apply_grows hp hg hw h d hargs
      | native n =>
        simp only
        split
        · exact Relation.inclusion.throw trivial
        · intro a ha
          refine ⟨ha, ?_⟩
          rintro v rfl
          exact (hp.native hf ha).2

/-- A call on values with declared widths answers the same in a world with more scalars. -/
theorem calls_grows (hargs : ∀ v ∈ args, w.types.Normal v) :
    Relation.inclusion.rel w.types.Normal (w.calls depth name args)
      ((w.withTypes t).calls depth name args) := by
  have answer : ∀ {depth name args y}, w.calls depth name args y →
      (∀ v ∈ args, w.types.Normal v) → (w.withTypes t).calls depth name args y ∧
        ∀ v, y = .ok v → w.types.Normal v := by
    intro depth name args y h
    induction h with
    | @intro C hC depth name args y h ih =>
      intro hargs
      obtain ⟨hy, hn⟩ := step_grows hp hg hw
        (fun depth name args hargs a ha => ih depth name args a ha hargs) hargs y h
      exact ⟨calls_iff.2 hy, hn⟩
  exact fun a ha => answer ha hargs

end Grows

/-! ### Typing -/

section Typing

variable (hp : w.Proper) (hh : w.Hosts e) (hc : c.Serves e)
include hp hh hc

/-- Surroundings that an engine still has describe the world with the types of the engine. -/
theorem Proper.describes : c.Describes (w.withTypes e.types) where
  fits := hc.fits
  bits := by rw [hc.bits, hh.bits]; rfl
  tidy name f hf := by
    have := (hc.functions hf).1
    rw [hh.functions] at this
    exact hp.tidy name f this
  functions hf := by
    obtain ⟨hf', hr⟩ := hc.functions hf
    rw [hh.functions] at hf'
    exact ⟨hf', hr⟩
  native {name n args v} hf hv := by
    have hf' := (hc.functions hf).1
    rw [hh.functions] at hf'
    exact (StaticType.has_known_iff hh.grows hp.types hh.types (hp.nativeType hf')).2
      (hp.native hf' hv)

theorem Proper.trusts {A : Assumptions} (hA : c.Settled A) (depth : Option Nat) :
    c.Trusts (w.withTypes e.types) A (w.calls depth) := by
  have hd := hp.describes hh hc
  have htrust := Typing.trusts_calls hd hA depth
  have grows : ∀ {name vs v}, (∀ v ∈ vs, e.types.Normal v) → w.calls depth name vs (.ok v) →
      (w.withTypes e.types).calls depth name vs (.ok v) := by
    intro name vs v hvs h
    exact (calls_grows hp hh.grows hh.types
      (fun x hx => (normal_iff hh.grows hp.types hh.types).1 (hvs x hx)) _ h).1
  constructor
  · exact fun hr hvs h => htrust.constructor hr hvs (grows hvs h)
  · intro name n vs v hr hf h
    obtain ⟨hf', hr'⟩ := hd.functions hf
    have hf'' : w.functions.get? name = some (.native n) := hf'
    have hr'' : w.types.recordNamed? name = none := by
      rw [← hh.grows.recordNamed?_eq hp.types hh.types]
      exact hr' hr
    rw [calls_iff] at h
    unfold World.step at h
    simp only [hr'', hf''] at h
    split at h
    · cases h
    · exact hd.native hf h
  · exact fun hr hs hvs h => htrust.function hr hs hvs (grows hvs.normal h)

/-- A walk under settled assumptions types what the interpreter of the world computes. -/
theorem Proper.sound {A : Assumptions} (hA : c.Settled A) (function : Ident) (strict : Bool)
    (depth : Option Nat) :
    Walker.Sound { c with assumed := A, function, strict } e.types w.interpreter (w.calls depth) where
  fits := hc.fits
  assumed s st hs := (hA s st hs).1
  records := by
    funext name
    exact (hh.grows.recordNamed?_eq hp.types hh.types name).symm
  bits := (hp.describes hh hc).bits
  constructor := (hp.trusts hh hc hA depth).constructor
  native := (hp.trusts hh hc hA depth).native
  function := (hp.trusts hh hc hA depth).function

end Typing

end World

end ShapeCompiler
