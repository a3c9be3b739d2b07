import ShapeCompiler.Execution
import ShapeCompiler.Proofs.Lowering.Sites
import ShapeCompiler.Proofs.Types.Registration
import ShapeCompiler.Proofs.Typing.Termination

/-!
How an engine grows while it serves requests.

A request may register scalars, compile signatures and bind call sites; it never takes anything back,
and it compiles with the types that the engine has at the time. Main statements: growth is an order
(`Engine.Extends.trans`), and what surroundings were compiled in goes on being true of an engine that
grows (`Typing.Serves.extends`).
-/

namespace ShapeCompiler

open TypeTable

/-- Surroundings whose types and functions an engine still has, no constructor hiding one that was
not hidden. -/
structure Typing.Serves (c : Typing) (e : Engine) : Prop where
  fits : c.Fits e.types
  bits : c.defaultBits = e.options.defaultBits
  functions : ∀ {name f}, c.functions.get? name = some f →
    e.functions.get? name = some f ∧
      (c.types.recordNamed? name = none → e.types.recordNamed? name = none)

namespace Engine

/-- The artifact is the one that the engine keeps for its signature. -/
def Keeps (e : Engine) (a : Artifact) : Prop := e.compiled.get? a.signature = some (.ok a)

/-- An engine whose types are in order, and which has the types that its natives return. -/
structure WellFormed (e : Engine) : Prop where
  types : e.types.WellFormed
  defaultScalar : ∃ id, e.types.scalarBits? id = some e.options.defaultBits
  natives : ∀ {name n}, e.functions.get? name = some (.native n) → (e.types.get? n.returns).isSome

/-- An engine whose artifacts come from definitions that it still has. -/
structure Coherent (e : Engine) : Prop extends WellFormed e where
  compiled : ∀ {s a}, e.compiled.get? s = some (.ok a) →
    a.signature = s ∧ ∃ c : Typing, c.Serves e ∧ c.compile e.schedule.order s = .ok a
  /-- The types in the signatures that an artifact calls are registered. -/
  sites : ∀ {s a}, e.compiled.get? s = some (.ok a) → ∀ x ∈ a.callSites, x.Registered e.types
  /-- Behind a call site of an artifact stands the artifact of the signature listed there. -/
  bound : ∀ {s k b}, e.bound.get? (s, k) = some b →
    e.Keeps b ∧ ∃ a, e.compiled.get? s = some (.ok a) ∧ a.callSites[k]? = some b.signature

def outcomeWith (e : Engine) (t : TypeTable) (s : Signature) : Except CompileError Artifact := do
  let c ← Typing.of e.functions t e.options.defaultBits
  c.compile e.schedule.order s

/-- What no request takes back. If all definitions stay `fixed`, the artifacts also stay in order. -/
structure Extends (fixed : Prop) (e e' : Engine) : Prop where
  functions : e'.functions = e.functions
  options : e'.options = e.options
  schedule : e'.schedule = e.schedule
  /-- Every activation that a request begins has ended with it. -/
  alive : e'.activations.alive = e.activations.alive
  types : e.types.WellFormed → e'.types.WellFormed ∧ e.types.GrowsByScalars e'.types
  compiled : ∀ {s r}, e.compiled.get? s = some r → e'.compiled.get? s = some r
  /-- What is new was compiled with the types of some time in between, those of the signature included. -/
  outcome : fixed → e.Coherent → ∀ {s r}, e'.compiled.get? s = some r → e.compiled.get? s = some r ∨
    ∃ t : TypeTable, t.WellFormed ∧ e.types.GrowsByScalars t ∧ t.GrowsByScalars e'.types ∧
      s.Registered t ∧ r = e.outcomeWith t s
  coherent : fixed → e.Coherent → e'.Coherent

variable {e e' e'' : Engine} {fixed : Prop}

theorem outcomeWith_congr (hf : e'.functions = e.functions) (ho : e'.options = e.options)
    (hs : e'.schedule = e.schedule) (t : TypeTable) (s : Signature) :
    e'.outcomeWith t s = e.outcomeWith t s := by
  unfold outcomeWith
  rw [hf, ho, hs]

theorem Extends.outcomeWith_eq (h : e.Extends fixed e') (t : TypeTable) (s : Signature) :
    e'.outcomeWith t s = e.outcomeWith t s :=
  outcomeWith_congr h.functions h.options h.schedule t s

theorem Extends.refl (e : Engine) : e.Extends fixed e :=
  ⟨rfl, rfl, rfl, rfl, fun h => ⟨h, .refl _⟩, id, fun _ _ => .inl, fun _ => id⟩

theorem Extends.trans (h : e.Extends fixed e') (h' : e'.Extends fixed e'') : e.Extends fixed e'' where
  functions := h'.functions.trans h.functions
  options := h'.options.trans h.options
  schedule := h'.schedule.trans h.schedule
  alive := h'.alive.trans h.alive
  types hw := by
    obtain ⟨hw', hg⟩ := h.types hw
    obtain ⟨hw'', hg'⟩ := h'.types hw'
    exact ⟨hw'', hg.trans hg'⟩
  compiled he := h'.compiled (h.compiled he)
  outcome hf he s r hr := by
    have he' := h.coherent hf he
    have hg := (h.types he.types).2
    have hg' := (h'.types he'.types).2
    rcases h'.outcome hf he' hr with hr | ⟨t, hw, ht, ht', hargs, rfl⟩
    · rcases h.outcome hf he hr with hr | ⟨t, hw, ht, ht', hargs, rfl⟩
      · exact .inl hr
      · exact .inr ⟨t, hw, ht, ht'.trans hg', hargs, rfl⟩
    · exact .inr ⟨t, hw, hg.trans ht, ht', hargs, h.outcomeWith_eq t s⟩
  coherent hf he := h'.coherent hf (h.coherent hf he)

/-- If all definitions are fixed, the engine is in order and keeps the artifact. -/
def Holds (fixed : Prop) (a : Artifact) (e : Engine) : Prop := fixed → e.Coherent ∧ e.Keeps a

/-- A condition that growth does not break. -/
def Stable (fixed : Prop) (P : Engine → Prop) : Prop := ∀ e e', e.Extends fixed e' → P e → P e'

theorem Keeps.extends {a : Artifact} (hk : e.Keeps a) (h : e.Extends fixed e') : e'.Keeps a :=
  h.compiled hk

theorem stable_holds (a : Artifact) : Stable fixed (Holds fixed a) := fun _ _ h he hf =>
  ⟨h.coherent hf (he hf).1, (he hf).2.extends h⟩

theorem stable_coherent : Stable fixed fun e => fixed → e.Coherent := fun _ _ h he hf =>
  h.coherent hf (he hf)

theorem Coherent.keeps (h : e.Coherent) {s : Signature} {a : Artifact}
    (ha : e.compiled.get? s = some (.ok a)) : e.Keeps a ∧ a.signature = s := by
  have hs := (h.compiled ha).1
  unfold Engine.Keeps
  rw [hs]
  exact ⟨ha, rfl⟩

end Engine

theorem Signature.Registered.grows {t t' : TypeTable} {s : Signature} (h : s.Registered t)
    (hg : t.Grows t') : s.Registered t' := fun id hid => hg.get?_isSome (h id hid)

theorem Typing.compile_sites {c : Typing} (hg : c.Grounded) {order : VisitOrder} (ho : order.Complete)
    {s : Signature} {a : Artifact} (hs : s.Registered c.types) (h : c.compile order s = .ok a) :
    ∀ x ∈ a.callSites, x.Registered c.types := by
  intro x hx
  obtain ⟨_, T, _, -, hT, ha⟩ := compile_eq_ok h
  obtain ⟨-, r, hr⟩ := ha.callable x hx
  exact infer_registered hg ho hs hT (by rw [hr]; rfl)

variable {e e' : Engine} {c : Typing} {fixed : Prop}

/-- Surroundings go on being true of an engine that only gains scalars. -/
theorem Typing.Serves.of_types (hc : c.Serves e) (hf : e'.functions = e.functions)
    (ho : e'.options = e.options) (hw : e'.types.WellFormed)
    (hg : e.types.GrowsByScalars e'.types) : c.Serves e' where
  fits :=
    { wellFormed := hc.fits.wellFormed
      grows := hc.fits.grows.trans hg.toGrows
      target := hw
      defaultScalar := hc.fits.defaultScalar }
  bits := by rw [hc.bits, ho]
  functions hn := by
    rw [hg.recordNamed?_eq hc.fits.target hw, hf]
    exact hc.functions hn

theorem Typing.Serves.extends (hc : c.Serves e) (h : e.Extends fixed e') : c.Serves e' := by
  obtain ⟨hw, hg⟩ := h.types hc.fits.target
  exact hc.of_types h.functions h.options hw hg

/-- The surroundings in which an engine compiles are those that it has. -/
theorem Engine.typing_eq_ok (h : e.typing = .ok c) :
    c.functions = e.functions ∧ c.types = e.types ∧ c.defaultBits = e.options.defaultBits := by
  unfold Engine.typing Typing.of at h
  split at h
  · cases h; exact ⟨rfl, rfl, rfl⟩
  · cases h

theorem Engine.typing_of_scalar {id : TypeId} (h : e.types.scalar? e.options.defaultBits = some id) :
    e.typing = .ok ⟨e.functions, e.types, e.options.defaultBits, id⟩ := by
  unfold Engine.typing Typing.of
  rw [h]

theorem Engine.WellFormed.typing_serves (h : e.WellFormed) (hc : e.typing = .ok c) : c.Serves e := by
  obtain ⟨id, hid⟩ := h.defaultScalar
  unfold Engine.typing Typing.of at hc
  rw [h.types.scalar?_of_scalarBits? hid] at hc
  cases hc
  exact ⟨⟨h.types, .refl _, h.types, hid⟩, rfl, fun hf => ⟨hf, fun hr => hr⟩⟩

theorem Engine.WellFormed.grounded {e : Engine} (he : e.WellFormed) (hc : e.typing = .ok c) :
    c.Grounded where
  wellFormed := (he.typing_serves hc).fits.wellFormed
  defaultScalar := by
    rw [scalarBits?_eq_some.1 (he.typing_serves hc).fits.defaultScalar]
    rfl
  natives hn := by
    obtain ⟨hf, ht, -⟩ := Engine.typing_eq_ok hc
    rw [hf] at hn
    rw [ht]
    exact he.natives hn

/-! ### Steps that change the engine -/

namespace Engine

theorem WellFormed.of_types (h : e.WellFormed) (hf : e'.functions = e.functions)
    (ho : e'.options = e.options) (hw : e'.types.WellFormed) (hg : e.types.Grows e'.types) :
    e'.WellFormed where
  types := hw
  defaultScalar := by
    obtain ⟨id, hid⟩ := h.defaultScalar
    exact ⟨id, by rw [ho]; exact hg.scalarBits? hid⟩
  natives hn := by
    rw [hf] at hn
    obtain ⟨d, hd⟩ := Option.isSome_iff_exists.1 (h.natives hn)
    exact Option.isSome_iff_exists.2 ⟨d, hg.get? hd⟩

theorem WellFormed.extends (h : e.WellFormed) (hx : e.Extends fixed e') : e'.WellFormed := by
  obtain ⟨hw, hg⟩ := hx.types h.types
  exact h.of_types hx.functions hx.options hw hg.toGrows

/-- Order is a matter of definitions and artifacts alone. -/
theorem Coherent.of_eq (h : e.Coherent) (hf : e'.functions = e.functions)
    (ho : e'.options = e.options) (hs : e'.schedule = e.schedule) (ht : e'.types = e.types)
    (hc : e'.compiled = e.compiled) (hb : e'.bound = e.bound) : e'.Coherent := by
  refine ⟨⟨?_, ?_, ?_⟩, ?_, ?_, ?_⟩
  · rw [ht]; exact h.types
  · rw [ht, ho]; exact h.defaultScalar
  · rw [ht, hf]; exact h.natives
  · intro s a ha
    rw [hc] at ha
    obtain ⟨hsig, c, hserves, hcomp⟩ := h.compiled ha
    exact ⟨hsig, c, hserves.of_types hf ho (by rw [ht]; exact h.types) (by rw [ht]; exact .refl _),
      by rw [hs]; exact hcomp⟩
  · rw [hc, ht]
    exact h.sites
  · unfold Keeps
    rw [hc, hb]
    exact h.bound

theorem Extends.of_eq (hf : e'.functions = e.functions) (ho : e'.options = e.options)
    (hs : e'.schedule = e.schedule) (hl : e'.activations.alive = e.activations.alive)
    (ht : e'.types = e.types) (hc : e'.compiled = e.compiled) (hb : e'.bound = e.bound) :
    e.Extends fixed e' where
  functions := hf
  options := ho
  schedule := hs
  alive := hl
  types hw := by
    rw [ht]
    exact ⟨hw, .refl _⟩
  compiled h := by rwa [hc]
  outcome _ _ _ _ h := .inl (by rwa [hc] at h)
  coherent _ h := h.of_eq hf ho hs ht hc hb

/-- What happens within an activation, seen from outside. -/
theorem Extends.activation {a a' : Activations} (h : Extends fixed { e with activations := a } e')
    (ha : a'.alive = e.activations.alive) : e.Extends fixed { e' with activations := a' } where
  functions := h.functions
  options := h.options
  schedule := h.schedule
  alive := ha
  types hw := h.types hw
  compiled he := h.compiled he
  outcome hf he := h.outcome hf (he.of_eq rfl rfl rfl rfl rfl rfl)
  coherent hf he :=
    (h.coherent hf (he.of_eq rfl rfl rfl rfl rfl rfl)).of_eq rfl rfl rfl rfl rfl rfl

theorem Extends.scalar {bits : Nat} (h₁ : 1 ≤ bits) (h₂ : bits ≤ 64) :
    e.Extends fixed { e with types := (e.types.ensureScalar bits).2 } where
  functions := rfl
  options := rfl
  schedule := rfl
  alive := rfl
  types hw := ⟨hw.ensureScalar h₁ h₂, ensureScalar_grows _ bits⟩
  compiled h := h
  outcome _ _ _ _ h := .inl h
  coherent _ h := by
    have hw := h.types.ensureScalar h₁ h₂
    have hg := ensureScalar_grows (t := e.types) bits
    refine ⟨h.toWellFormed.of_types rfl rfl hw hg.toGrows, ?_, ?_, ?_⟩
    · intro s a ha
      obtain ⟨hsig, c, hs, hcomp⟩ := h.compiled ha
      exact ⟨hsig, c, hs.of_types rfl rfl hw hg, hcomp⟩
    · exact fun ha x hx => (h.sites ha x hx).grows hg.toGrows
    · exact h.bound

def withOutcome (e : Engine) (s : Signature) : Engine :=
  { e with
    compiled := e.compiled.insert s (e.outcomeWith e.types s)
    stats := { e.stats with compilations := e.stats.compilations + 1 } }

theorem WellFormed.typing_of_outcome (h : e.WellFormed) {s : Signature} {a : Artifact}
    (ha : e.outcomeWith e.types s = .ok a) :
    ∃ c : Typing, e.typing = .ok c ∧ c.types = e.types ∧ c.Serves e ∧ c.Grounded ∧
      c.compile e.schedule.order s = .ok a := by
  obtain ⟨c, hc, ha⟩ := bind_eq_ok.1 ha
  exact ⟨c, hc, (typing_eq_ok hc).2.1, h.typing_serves hc, h.grounded hc, ha⟩

theorem Extends.compile {s : Signature} (hs : e.compiled.get? s = none)
    (hargs : fixed → s.Registered e.types) : e.Extends fixed (e.withOutcome s) := by
  have hold : ∀ {s' r}, e.compiled.get? s' = some r → (e.withOutcome s).compiled.get? s' = some r := by
    intro s' r h
    unfold withOutcome
    rw [Assoc.get?_insert, if_neg, h]
    rintro rfl
    rw [hs] at h
    cases h
  have hnew : ∀ {s' r}, (e.withOutcome s).compiled.get? s' = some r →
      s' = s ∧ r = e.outcomeWith e.types s ∨ e.compiled.get? s' = some r := by
    intro s' r h
    unfold withOutcome at h
    rw [Assoc.get?_insert] at h
    split at h
    · rename_i he
      exact .inl ⟨he.symm, (Option.some.inj h).symm⟩
    · exact .inr h
  refine ⟨rfl, rfl, rfl, rfl, fun hw => ⟨hw, .refl _⟩, hold, fun hf h s' r hr => ?_, fun hf h => ?_⟩
  · rcases hnew hr with ⟨rfl, rfl⟩ | hr
    · exact .inr ⟨e.types, h.types, .refl _, .refl _, hargs hf, rfl⟩
    · exact .inl hr
  refine ⟨⟨h.types, h.defaultScalar, h.natives⟩, ?_, ?_, ?_⟩
  · intro s' a ha
    have hserves : ∀ {c : Typing}, c.Serves e → c.Serves (e.withOutcome s) := fun hc =>
      hc.of_types rfl rfl h.types (.refl _)
    rcases hnew ha with ⟨rfl, ha⟩ | ha
    · obtain ⟨c, -, -, hc, -, hcomp⟩ := h.typing_of_outcome ha.symm
      exact ⟨Typing.compile_signature hcomp, c, hserves hc, hcomp⟩
    · obtain ⟨hsig, c, hc, hcomp⟩ := h.compiled ha
      exact ⟨hsig, c, hserves hc, hcomp⟩
  · intro s' a ha
    rcases hnew ha with ⟨rfl, ha⟩ | ha
    · obtain ⟨c, -, ht, -, hg, hcomp⟩ := h.typing_of_outcome ha.symm
      rw [← ht] at hargs
      show ∀ x ∈ a.callSites, x.Registered e.types
      rw [← ht]
      exact Typing.compile_sites hg e.schedule.complete (hargs hf) hcomp
    · exact h.sites ha
  · intro s' k b hb
    obtain ⟨hkeep, a, ha, hsite⟩ := h.bound hb
    exact ⟨hold hkeep, a, hold ha, hsite⟩

theorem Extends.bind {s : Signature} {k : Nat} {b : Artifact}
    (h : fixed → e.Keeps b ∧
      ∃ a, e.compiled.get? s = some (.ok a) ∧ a.callSites[k]? = some b.signature) :
    e.Extends fixed { e with bound := e.bound.insert (s, k) b } := by
  refine ⟨rfl, rfl, rfl, rfl, fun hw => ⟨hw, .refl _⟩, id, fun _ _ => .inl, fun hfix he => ?_⟩
  refine ⟨⟨he.types, he.defaultScalar, he.natives⟩, ?_, he.sites, ?_⟩
  · intro s' a ha
    obtain ⟨hsig, c, hc, hcomp⟩ := he.compiled ha
    exact ⟨hsig, c, hc.of_types rfl rfl he.types (.refl _), hcomp⟩
  · intro s' k' b' hb'
    rw [Assoc.get?_insert] at hb'
    split at hb'
    · rename_i heq
      cases heq
      cases hb'
      exact h hfix
    · exact he.bound hb'

end Engine

end ShapeCompiler
