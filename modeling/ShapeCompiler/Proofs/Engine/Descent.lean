import ShapeCompiler.Proofs.Engine.Steps

/-!
Engines on which everything is defined before anything else is asked for.

Main statement: whatever is then served, the engine descends from the one that the definitions led to
(`Engine.Onward.descends`), so every outcome that it keeps was compiled with those definitions, and with
the scalars that it had at some time.
-/

namespace ShapeCompiler

open TypeTable

variable {e e₀ e' e₁ e₂ : Engine} {fuel : Nat} {r : Request}

namespace Engine

/-- An engine of which nothing has been asked but definitions. -/
abbrev Prepared : Engine → Prop := Reached fun _ r => r.Registers

/-- The engines that served requests lead to from an engine. -/
inductive Onward (e : Engine) : Engine → Prop
  | start : Onward e e
  | serve {e₁ e₂ : Engine} {r : Request} {fuel y} (h : Onward e e₁) (hr : r.IsServed)
      (hrun : e₁.run (r.perform fuel) = .ok (y, e₂)) : Onward e e₂

/-- The second engine has the definitions of the first one and further scalars, and keeps outcomes of
compiling with the types of some time in between, which had the types of the signature. -/
structure Descends (e₀ e : Engine) : Prop extends Coherent e where
  functions : e.functions = e₀.functions
  options : e.options = e₀.options
  schedule : e.schedule = e₀.schedule
  grows : e₀.types.GrowsByScalars e.types
  outcome : ∀ {s r}, e.compiled.get? s = some r → ∃ t : TypeTable, t.WellFormed ∧
    e₀.types.GrowsByScalars t ∧ t.GrowsByScalars e.types ∧ s.Registered t ∧ r = e₀.outcomeWith t s

/-! ### Prepared engines -/

theorem Prepared.compiled (h : e.Prepared) : e.compiled = .empty := by
  induction h with
  | create h =>
    unfold Engine.createWith at h
    split at h
    · cases h
    · cases h
      rfl
  | request _ hr hrun ih => exact (Request.registers_quiet hr _ _ _ _ hrun).1.compiled.trans ih

theorem Prepared.bound (h : e.Prepared) : e.bound = .empty := by
  induction h with
  | create h =>
    unfold Engine.createWith at h
    split at h
    · cases h
    · cases h
      rfl
  | request _ hr hrun ih => exact (Request.registers_quiet hr _ _ _ _ hrun).1.bound.trans ih

theorem Prepared.session (h : e.Prepared) : e.Session := by
  induction h with
  | create h => exact .create h
  | @request e e' r _ _ h hr hrun ih =>
    have hc := Prepared.compiled h
    refine .request ih ?_ hrun
    cases r with
    | declareTypes _ | decorate _ | define _ | defineNative _ => exact .inl hc
    | _ => trivial

theorem Prepared.withDecorated {ds : List FunctionDef} (he : e.Prepared)
    (h : ∀ d ∈ ds, e.types.lookup d.name = none) : (e.withDecorated ds).Prepared := by
  induction ds generalizing e with
  | nil => exact he
  | cons d rest ih =>
    obtain ⟨hd, hrest⟩ := List.forall_mem_cons.1 h
    exact ih (he.decorate d trivial hd) hrest

/-! ### Descent -/

namespace Descends

theorem refl (hco : e.Coherent) (hc : e.compiled = .empty) : e.Descends e where
  toCoherent := hco
  functions := rfl
  options := rfl
  schedule := rfl
  grows := .refl _
  outcome hs := by
    rw [hc] at hs
    cases hs

theorem outcomeWith_eq (h : e₀.Descends e) (t : TypeTable) (s : Signature) :
    e.outcomeWith t s = e₀.outcomeWith t s :=
  outcomeWith_congr h.functions h.options h.schedule t s

theorem onward (h : e₀.Descends e) (hx : e.Extends True e') : e₀.Descends e' where
  toCoherent := hx.coherent trivial h.toCoherent
  functions := hx.functions.trans h.functions
  options := hx.options.trans h.options
  schedule := hx.schedule.trans h.schedule
  grows := h.grows.trans (hx.types h.types).2
  outcome hs := by
    have hg := (hx.types h.types).2
    rcases hx.outcome trivial h.toCoherent hs with hold | ⟨t, hw, hgt, hgt', hargs, rfl⟩
    · obtain ⟨t, hw, hg₀, hgt, hargs, rfl⟩ := h.outcome hold
      exact ⟨t, hw, hg₀, hgt.trans hg, hargs, rfl⟩
    · exact ⟨t, hw, h.grows.trans hgt, hgt', hargs, h.outcomeWith_eq t _⟩

/-- Counts do not matter. -/
theorem of_eq (h : e₀.Descends e) (hf : e'.functions = e.functions) (ho : e'.options = e.options)
    (hs : e'.schedule = e.schedule) (ht : e'.types = e.types) (hc : e'.compiled = e.compiled)
    (hb : e'.bound = e.bound) : e₀.Descends e' where
  toCoherent := h.toCoherent.of_eq hf ho hs ht hc hb
  functions := hf.trans h.functions
  options := ho.trans h.options
  schedule := hs.trans h.schedule
  grows := by
    rw [ht]
    exact h.grows
  outcome hr := by
    rw [hc] at hr
    rw [ht]
    exact h.outcome hr

/-- The bindings of an engine in order are, too. -/
theorem ready (h : e₀.Descends e) (fixed : Prop) : e.Ready fixed where
  signature ha := (h.toCoherent.keeps ha).2
  bound hb := by
    obtain ⟨hkeeps, a, ha, hsite⟩ := h.toCoherent.bound hb
    exact ⟨a, _, ha, hsite, hkeeps⟩
  inOrder _ := h.toCoherent

end Descends

theorem Prepared.descends (h : e.Prepared) : e.Descends e :=
  .refl (Reached.coherent (Prepared.session h)) (Prepared.compiled h)

/-! ### What served requests lead to -/

theorem Onward.after (h : e.Onward e₁) (hr : r.IsServed) : e.Onward (e₁.after fuel r) := by
  unfold Engine.after
  split
  · rename_i hrun
    exact .serve h hr hrun
  · exact h

/-- Whatever is served, the engine descends from the one that it was before, with as many activations
alive. -/
theorem Onward.descends (he : e.Descends e) (h : e.Onward e₁) :
    e.Descends e₁ ∧ e₁.activations.alive = e.activations.alive := by
  induction h with
  | start => exact ⟨he, rfl⟩
  | serve _ hr hrun ih =>
    have hx := (@perform_orderly True _ _ hr _ (fun _ => ih.1.toCoherent) _ _ hrun).1
    exact ⟨ih.1.onward hx, hx.alive.trans ih.2⟩

end Engine

end ShapeCompiler
