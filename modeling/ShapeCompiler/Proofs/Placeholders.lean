import ShapeCompiler.Catalog.Programs
import ShapeCompiler.Proofs.Agreement
import ShapeCompiler.Proofs.Placeholder.Runs

/-!
A pattern that binds the placeholder, and a wildcard in its place.

The interpreter binds the placeholder where a pattern does so; nothing else does. Main statement: two
engines that are the same up to such patterns compile to the same code, wherever the patterns stand; they
have the same answers if, in what can be interpreted, no arm of such a pattern reads the placeholder; then
compiled code and the reference interpreter agree too (`Engine.placeholder_binds_nothing`). An arm that
reads it tells the interpreter apart from the compiler (`Catalog.placeholder_bound`).
-/

namespace ShapeCompiler

variable {α β : Type} {r : Replacement} {e e' : Engine}

namespace Engine

/-- Two runs in two engines are stopped for the same reason, or end with related answers and with engines
that are the same up to a replacement. -/
def EndAlike (r : Replacement) (e e' : Engine) (Q : α → α → Prop) (x y : Run α) : Prop :=
  Parallel (fun p q => Parallel Q p.1 q.1 ∧ p.2.replace r = q.2.replace r) (e.run x) (e'.run y)

/-- Two runs end alike if both end like one and the same run in the engine that the replacement leads to. -/
theorem endAlike_of_same {Q : α → α → Prop} {R : α → β → Prop} (h : e.replace r = e'.replace r)
    {x y : Run α} {z : Run β} (hx : RunsSame r R x z) (hy : RunsSame r R y z)
    (hQ : ∀ a b c, R a c → R b c → Q a b) : EndAlike r e e' Q x y := by
  have hx := hx e
  rw [h] at hx
  exact hx.join (hy e') fun p q s hp hq => ⟨hp.1.join hq.1 hQ, hp.2.symm.trans hq.2⟩

/-- Runs that have the same answer in an engine with patterns replaced have it in both engines. -/
theorem endAlike_of_eq (h : e.replace r = e'.replace r) {x y z : Run α} (hx : RunsSame r Eq x z)
    (hy : RunsSame r Eq y z) : EndAlike r e e' Eq x y :=
  endAlike_of_same h hx hy fun _ _ _ hac hbc => hac.trans hbc.symm

theorem EndAlike.ok {x y : Run α} {v : α} {q : Engine} (h : EndAlike r e e' Eq x y)
    (hy : e'.run y = .ok (.ok v, q)) : ∃ p, e.run x = .ok (.ok v, p) := by
  unfold EndAlike at h
  rw [hy] at h
  generalize e.run x = z at h ⊢
  cases h with
  | @ok p q hp =>
    have hanswer : .ok v = p.1 := hp.1.eq
    exact ⟨p.2, by rw [hanswer]⟩

/-- A pattern that binds the placeholder binds nothing: with a wildcard in its place, a program compiles
to the same code or to the same error. It also has the same results if arms of such patterns do not read
the placeholder in functions that are interpreted; decorated functions are interpreted by the reference
interpreter and by a verification. If no arm at all reads what its pattern binds to the placeholder,
compiled code and the reference interpreter agree, also on programs that read the placeholder as a
parameter or as a variable. -/
theorem placeholder_binds_nothing (h : e.replace r = e'.replace r) :
    (∀ name args, EndAlike r e e' (fun a a' => a.replace r = a'.replace r) (Update.specialize name args)
      (Update.specialize name args)) ∧
    (r.interpreted = .unread → ∀ fuel,
      (∀ name args, EndAlike r e e' Eq (Run.call fuel name args) (Run.call fuel name args)) ∧
      (∀ a a' args, a.replace r = a'.replace r →
        EndAlike r e e' Eq (Run.runArtifact fuel a args) (Run.runArtifact fuel a' args)) ∧
      (∀ i d d' args, r.Suits i.mode → d.replace .unread = d'.replace .unread →
        EndAlike r e e' Eq (Run.interpret fuel i d args) (Run.interpret fuel i d' args)) ∧
      (r.decorated = .unread → ∀ name args,
        EndAlike r e e' Eq (Run.verify fuel name args) (Run.verify fuel name args))) ∧
    (e.Tidy → e.functions.Pure →
      (∀ {name d args s ws fuel fuel₀ y y₀ e₁ e₂ p q}, e.functions.get? name = some (.decorated d) →
        e.run (Run.callDecorated fuel name args) = .ok (y, p) →
        e.update (Update.signatureOf name args) = (.ok s, e₁) →
        e₁.types.normalizeAll args s.args = .ok ws → e.Extends True e₂ →
        e₂.run (do
          let i ← Run.interpreter .reference
          Run.interpret fuel₀ i d ws) = .ok (y₀, q) → Agree y y₀) ∧
      ∀ {name args fuel f compiled reference p},
        e.run (Run.verify fuel name args) ≠ .ok (.error (.mismatch f compiled reference), p)) := by
  refine ⟨fun name args => ?_, fun hr fuel => ?_, fun he hpure => ?_⟩
  · have hcode := RunsSame.specialize (r := r) name args
    exact endAlike_of_same h hcode hcode fun a b c hac hbc => hac.symm.trans hbc
  · have hall : Likeness r fuel := .all hr fuel
    refine ⟨fun name args => ?_, fun a a' args ha => ?_, fun i d d' args hi hd => ?_,
      fun hdec name args => ?_⟩
    · exact endAlike_of_eq h (hall.call name args) (hall.call name args)
    · exact endAlike_of_eq h (hall.runArtifact a args) (ha ▸ hall.runArtifact a' args)
    · exact endAlike_of_eq h (hall.interpret i hi d args) (hd ▸ hall.interpret i hi d' args)
    · obtain rfl : r = ⟨.unread, .unread⟩ := by
        cases r
        cases hr
        cases hdec
        rfl
      exact endAlike_of_eq h (.verify rfl fuel name args) (.verify rfl fuel name args)
  · exact ⟨fun hd hcall hs hnorm hx href => he.call_agrees hpure hd hcall hs hnorm hx href,
      fun hmismatch => he.verify_plain hpure hmismatch⟩

end Engine

/-! ### Two functions with the placeholder as a parameter -/

namespace Catalog

/-- A function whose match sees one more than the placeholder, and answers with another number. -/
def around (p : Pattern) : FunctionDef where
  name := "around"
  params := ["_"]
  body := [
    .assign "y" (.branch (plus (.var "_") (.lit 1)) [⟨p, .lit 5⟩]),
    .ret (plus (.var "_") (.var "y"))]

/-- A function whose match sees one more than the placeholder, and answers with the placeholder. -/
def within (p : Pattern) : FunctionDef where
  name := "within"
  params := ["_"]
  body := [.branch (plus (.var "_") (.lit 1)) [⟨p, returning (.var "_")⟩]]

def withDecorated (d : FunctionDef) : Engine := Engine.default.withFunction d.name (.decorated d)

/-- The reference interpreter of the default engine. -/
def reference : Interpreter := ⟨Engine.default.types, .reference, Uint.defaultBits⟩

theorem withDecorated_around_tidy : (withDecorated (around (.bind "_"))).Tidy where
  session := Engine.reached_default.decorate (around (.bind "_")) (.inl rfl) (by with_unfolding_all rfl)
  tidy := by
    intro name f h
    simp only [withDecorated, Engine.withFunction, Assoc.get?_insert] at h
    split at h
    · cases h
      simp [Function.Tidy, around, plus, Block.Tidy, Expr.Tidy, Expr.ArmsTidy]
    · cases h
  fields hr := by cases (Engine.default_record? _).symm.trans hr

theorem withDecorated_around_pure : (withDecorated (around (.bind "_"))).functions.Pure :=
  Functions.pure_empty.decorated (around (.bind "_"))

/-- Around a match that binds the placeholder, its parameter is still seen, compiled and interpreted. -/
theorem placeholder_binds_nothing_around :
    (withDecorated (around (.bind "_"))).replace ⟨.unread, .unread⟩ =
      (withDecorated (around .wildcard)).replace ⟨.unread, .unread⟩ ∧
    (∃ v w p q, v.asUint 24 = some (Uint.u24 8) ∧ w.asUint 24 = some (Uint.u24 8) ∧
      (withDecorated (around (.bind "_"))).run (Run.call 60 "around" [.int 3]) = .ok (.ok v, p) ∧
      (withDecorated (around (.bind "_"))).run
        (Run.interpret 60 reference (around (.bind "_")) [.int 3]) = .ok (.ok w, q)) ∧
    ∀ {args fuel f compiled reference p}, (withDecorated (around (.bind "_"))).run
      (Run.verify fuel "around" args) ≠ .ok (.error (.mismatch f compiled reference), p) := by
  have h : (withDecorated (around (.bind "_"))).replace ⟨.unread, .unread⟩ =
      (withDecorated (around .wildcard)).replace ⟨.unread, .unread⟩ := by with_unfolding_all rfl
  obtain ⟨v, p, hcall, hv⟩ : ∃ v p, (withDecorated (around .wildcard)).run
      (Run.call 60 "around" [.int 3]) = .ok (.ok v, p) ∧ v.asUint 24 = some (Uint.u24 8) :=
    exists_of_number (by decide +kernel)
  obtain ⟨w, q, href, hw⟩ : ∃ w q, (withDecorated (around .wildcard)).run
      (Run.interpret 60 reference (around .wildcard) [.int 3]) = .ok (.ok w, q) ∧
        w.asUint 24 = some (Uint.u24 8) :=
    exists_of_number (by decide +kernel)
  obtain ⟨-, hruns, hpaths⟩ := Engine.placeholder_binds_nothing h
  obtain ⟨hcalls, -, hinterprets, -⟩ := hruns rfl 60
  obtain ⟨p', hcall'⟩ := (hcalls "around" [.int 3]).ok hcall
  obtain ⟨q', href'⟩ := (hinterprets reference (around (.bind "_")) (around .wildcard) [.int 3]
    (fun _ => rfl) (by with_unfolding_all rfl)).ok href
  exact ⟨h, ⟨v, w, p', q', hv, hw, hcall', href'⟩,
    (hpaths withDecorated_around_tidy withDecorated_around_pure).2⟩

/-- An arm that reads the placeholder: interpreted, it reads what the pattern bound, and compiled, the
parameter. -/
theorem placeholder_bound :
    (withDecorated (within (.bind "_"))).replace ⟨.all, .all⟩ =
      (withDecorated (within .wildcard)).replace ⟨.all, .all⟩ ∧
    (∃ v e', (withDecorated (within (.bind "_"))).run
      (Run.interpret 60 reference (within (.bind "_")) [.int 5]) = .ok (.ok v, e') ∧
        v.asUint 24 = some (Uint.u24 6)) ∧
    (∃ v e', (withDecorated (within .wildcard)).run
      (Run.interpret 60 reference (within .wildcard) [.int 5]) = .ok (.ok v, e') ∧
        v.asUint 24 = some (Uint.u24 5)) ∧
    ∃ v e', (withDecorated (within (.bind "_"))).run (Run.call 60 "within" [.int 5]) =
      .ok (.ok v, e') ∧ v.asUint 24 = some (Uint.u24 5) :=
  ⟨by with_unfolding_all rfl, exists_of_number (by decide +kernel),
    exists_of_number (by decide +kernel), exists_of_number (by decide +kernel)⟩

end Catalog

end ShapeCompiler
