import ShapeCompiler.Proofs.Calls
import ShapeCompiler.Proofs.Engine.Runs

/-!
What the reference interpreter of an engine answers, as answers of a world without an engine.

Main statement: if native functions answer in engines as they do in a world, then so does every
interpretation (`World.interpret_answers`); the activations that are alive count against the limit.
-/

namespace ShapeCompiler

open TypeTable

namespace World

variable {w : World} {e e' : Engine} {fixed : Prop}

/-- The engine has what the world has, and perhaps more scalars. -/
structure Hosts (w : World) (e : Engine) : Prop where
  functions : e.functions = w.functions
  types : e.types.WellFormed
  grows : w.types.GrowsByScalars e.types
  limit : e.options.maxHostDepth = w.limit
  bits : e.options.defaultBits = w.defaultBits

theorem Hosts.extends (h : w.Hosts e) (hx : e.Extends fixed e') : w.Hosts e' := by
  obtain ⟨hw, hg⟩ := hx.types h.types
  exact ⟨hx.functions.trans h.functions, hw, h.grows.trans hg, by rw [hx.options, h.limit],
    by rw [hx.options, h.bits]⟩

theorem Hosts.entered (h : w.Hosts e) : w.Hosts e.entered :=
  ⟨h.functions, h.types, h.grows, h.limit, h.bits⟩

/-- Native functions that are called in engines of a world answer as they do in the world. -/
def NativesIn (w : World) : Prop :=
  ∀ {fuel n name args e y e'}, w.Hosts e → w.functions.get? name = some (.native n) →
    args.length = n.params.length → e.run (Run.callNative fuel n args) = .ok (y, e') →
    w.native n args y

/-- Answers of runs in engines of a world, with a number of activations alive, are in a set. -/
def answering (w : World) (alive : Nat) : Relation Run Answers where
  rel Q x p := ∀ e, w.Hosts e → e.activations.alive = alive → ∀ y e', e.run x = .ok (y, e') →
    e.Extends False e' ∧ p y ∧ ∀ v, y = .ok v → Q v
  pure := by
    intro α Q a hQ e _ _ y e' hr
    cases hr
    exact ⟨.refl _, rfl, fun v hv => by cases hv; exact hQ⟩
  bind := by
    intro α β Q Q' x p f g hx hf e he hl y e' hr
    rcases Engine.run_bind_eq_ok.1 hr with ⟨a, e₁, h₁, h₂⟩ | ⟨err, h₁, rfl⟩
    · obtain ⟨hext, hp, hQ⟩ := hx e he hl _ _ h₁
      obtain ⟨hext', hp', hQ'⟩ :=
        hf a (hQ a rfl) e₁ (he.extends hext) (hext.alive.trans hl) _ _ h₂
      exact ⟨hext.trans hext', Answers.bind_ok hp hp', hQ'⟩
    · obtain ⟨hext, hp, -⟩ := hx e he hl _ _ h₁
      exact ⟨hext, Answers.bind_error hp, fun v hv => by cases hv⟩
  throw := by
    intro α Q err _ e _ _ y e' hr
    cases hr
    exact ⟨.refl _, rfl, fun v hv => by cases hv⟩
  halt := by
    intro α Q e _ _ y e' hr
    cases hr

variable {fuel alive : Nat}

/-- One activation, given what calls in its body answer. -/
theorem apply_answers
    (ih : ∀ alive name args, (w.answering alive).rel (fun _ => True)
      (Run.callFrom fuel w.interpreter name args) (w.calls (some (w.limit - alive)) name args))
    (d : FunctionDef) (args : List Value) :
    (w.answering alive).rel (fun _ => True) (Run.interpret (fuel + 1) w.interpreter d args)
      (w.apply true w.calls (some (w.limit - alive)) d args) := by
  rw [Run.interpret]
  unfold World.apply
  split
  · exact (w.answering alive).throw trivial
  · rw [if_pos rfl]
    intro e he hl y e' hr
    rcases Engine.run_activation_eq_ok.1 hr with ⟨hlim, rfl, rfl⟩ | ⟨hlim, e₁, hbody, rfl⟩
    · rw [he.limit] at hlim ⊢
      rw [show w.limit - alive = 0 by omega]
      exact ⟨.refl _, rfl, fun v hv => by cases hv⟩
    · rw [he.limit] at hlim
      rw [show w.limit - alive = w.limit - (alive + 1) + 1 by omega]
      obtain ⟨hext, hp, -⟩ := (w.answering (alive + 1)).body w.interpreter.closed_true
        (fun name args _ => ih (alive + 1) name args) (.inl rfl) d (fun _ _ => trivial) e.entered
        he.entered (by rw [← hl]; rfl) _ _ hbody
      refine ⟨hext.activation ?_, ⟨fuel, hp⟩, fun _ _ => trivial⟩
      show e₁.activations.alive - 1 = _
      rw [hext.alive]
      rfl

/-- What the reference interpreter of an engine answers, the world answers. -/
theorem interpret_answers (hn : w.NativesIn) (hc : w.counts = true) (fuel : Nat) :
    (∀ alive d args, (w.answering alive).rel (fun _ => True)
      (Run.interpret fuel w.interpreter d args)
      (w.apply true w.calls (some (w.limit - alive)) d args)) ∧
    ∀ alive name args, (w.answering alive).rel (fun _ => True)
      (Run.callFrom fuel w.interpreter name args) (w.calls (some (w.limit - alive)) name args) := by
  induction fuel with
  | zero =>
    constructor
    · intro alive d args e _ _ y e' hr; cases hr
    · intro alive name args e _ _ y e' hr; cases hr
  | succ fuel ih =>
    refine ⟨fun alive d args => apply_answers ih.2 d args, fun alive name args => ?_⟩
    intro e he hl y e' hr
    rw [calls_iff]
    rw [Run.callFrom] at hr
    unfold World.step
    cases hrec : w.types.recordNamed? name with
    | some p =>
      have hr' : e.run (Interpreter.step (w.interpreter.construct p.2 args)) = .ok (y, e') := by
        have : w.interpreter.types.recordNamed? name = some p := hrec
        rw [this] at hr
        exact hr
      exact (w.answering alive).step (fun _ _ => trivial)
        (fun _ h => Interpreter.construct_ordinary h) e he hl y e' hr'
    | none =>
      have : w.interpreter.types.recordNamed? name = none := hrec
      rw [this] at hr
      simp only [Engine.run_function?] at hr
      rw [he.functions] at hr
      cases hf : w.functions.get? name with
      | none =>
        rw [hf] at hr
        cases hr
        exact ⟨.refl _, rfl, fun v hv => by cases hv⟩
      | some f =>
        rw [hf] at hr
        cases f with
        | decorated d =>
          rw [hc]
          exact ih.1 alive d args e he hl y e' hr
        | interpreted d => exact ih.1 alive d args e he hl y e' hr
        | native n =>
          have hg : Run.Growth False fuel := .all fuel
          have hext := (hg.callNative n args e (fun h => h.elim) _ _ hr).1
          refine ⟨hext, ?_, fun _ _ => trivial⟩
          simp only
          split
          · rename_i hlen
            cases fuel with
            | zero => cases hr
            | succ fuel =>
              simp only [Run.callNative, if_pos hlen] at hr
              cases hr
              rfl
          · rename_i hlen
            exact hn he hf (not_not.1 hlen) hr

end World

end ShapeCompiler
