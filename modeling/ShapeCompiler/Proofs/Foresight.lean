import ShapeCompiler.Proofs.Independence.Engines
import ShapeCompiler.Proofs.Lowering.Visits

/-!
What inference knows of the functions that compiled code calls.

A caller is compiled with the return types that inference finds from its own root, and each function that it
calls is compiled on its own, when it is first called. Main statements: every call site of an artifact lists
a function of which inference knew (`Engine.Descends.foresees`), and if such a function does not compile,
inference refuses it although the return types that it found from the root of the caller are consistent
(`Engine.Descends.misjudges`).
-/

namespace ShapeCompiler

open TypeTable

namespace Engine

/-- Inference of a signature from which the engine keeps an artifact finds a return type of the other
signature, which is that of a decorated function. -/
structure Foresees (e : Engine) (s : Signature) : Prop where
  decorated : e.Decorates s.function
  known : ∃ c root a T, e.typing = .ok c ∧ e.compiled.get? root = some (.ok a) ∧
    c.infer e.schedule.order root = .ok T ∧ (T.get? s).isSome

/-- Inference refuses a signature, although there is an assignment of return types to it and to other
signatures of registered types that is confirmed by the walks under it. -/
def Misjudges (e : Engine) (s : Signature) (err : CompileError) : Prop :=
  ∃ c A, e.typing = .ok c ∧ c.infer e.schedule.order s = .error err ∧ (A.get? s).isSome ∧
    (∀ x, (A.get? x).isSome → x.Registered c.types) ∧ c.Confirms A A

variable {e₀ e e' : Engine} {s callee : Signature} {a : Artifact} {site : Nat} {err : CompileError}

namespace Descends

/-- The surroundings in which the engine compiles now. -/
theorem exists_typing (h : e₀.Descends e) : ∃ c, e.typing = .ok c ∧ c.functions = e.functions ∧
    c.Fits e.types ∧ c.Grounded ∧ c.types = e.types := by
  obtain ⟨c, hc, hf, ht, -, -, hg⟩ := h.toWellFormed.typing h.types (.refl _)
  exact ⟨c, hc, hf, (h.toWellFormed.typing_serves hc).fits, hg, ht⟩

section

variable (he₀ : e₀.WellFormed)
    (hp : ∀ {name n}, e₀.functions.get? name = some (.native n) → ∀ p ∈ n.params, (e₀.types.get? p).isSome)

include he₀ hp

/-- An outcome that is kept is what compiling now comes to. -/
theorem outcome_now (h : e₀.Descends e) {r : Except CompileError Artifact} (hr : e.compiled.get? s = some r) :
    s.Registered e.types ∧ Parallel (fun a a' => a.callSites = a'.callSites) r (e.outcomeWith e.types s) := by
  obtain ⟨t, hw, hg, hte, hs, rfl⟩ := h.outcome hr
  refine ⟨hs.grows hte.toGrows, ?_⟩
  rw [h.outcomeWith_eq]
  have hT : Siblings e₀.types t e.types := ⟨he₀.types, hw, h.types, hg, h.grows⟩
  refine (he₀.outcomeWith_grows hp hw hg h.types hte hs).mono fun a a' htwin => ?_
  have hsites : List.Forall₂ Eq a.callSites a'.callSites := htwin.callSites.imp fun x x' hx =>
    hx.eq hT hte.toGrows
  rwa [List.forall₂_eq_eq_eq] at hsites

theorem registered_of_known (h : e₀.Descends e) {c : Typing} {root : Signature} {T : ReturnTypes}
    (hc : e.typing = .ok c) (ha : e.compiled.get? root = some (.ok a))
    (hT : c.infer e.schedule.order root = .ok T) {x : Signature} (hx : (T.get? x).isSome) :
    x.Registered c.types := by
  obtain ⟨c', hc', -, -, hg, ht⟩ := h.exists_typing
  obtain rfl : c = c' := Except.ok.inj (hc.symm.trans hc')
  exact Typing.infer_registered hg e.schedule.complete (ht ▸ (h.outcome_now he₀ hp ha).1) hT hx

theorem registered (h : e₀.Descends e) (hs : e.Foresees s) : s.Registered e.types := by
  obtain ⟨c, root, a, T, hc, ha, hT, hknown⟩ := hs.known
  obtain ⟨c', hc', -, -, -, ht⟩ := h.exists_typing
  obtain rfl : c = c' := Except.ok.inj (hc.symm.trans hc')
  exact ht ▸ h.registered_of_known he₀ hp hc ha hT hknown

end

end Descends

end Engine

end ShapeCompiler
