import Mathlib.Tactic.Common
import ShapeCompiler.Interpreter

/-!
The answers that a request can give, as a set.

A request that is stopped gives no answer. So the interpreter, run on sets of answers, says what a
program can answer, without an engine and whatever the fuel.
-/

namespace ShapeCompiler

/-- A set of answers. -/
def Answers (α : Type) : Type := Except Error α → Prop

namespace Answers

variable {α β γ : Type}

instance : Monad Answers where
  pure a := fun y => y = .ok a
  bind p f := fun y => (∃ a, p (.ok a) ∧ f a y) ∨ ∃ e, p (.error e) ∧ y = .error e

instance : MonadExceptOf Error Answers where
  throw e := fun y => y = .error e
  tryCatch p f := fun y => (∃ a, p (.ok a) ∧ y = .ok a) ∨ ∃ e, p (.error e) ∧ f e y

instance : MonadHalt Answers := ⟨fun _ _ => False⟩

theorem pure_iff {a : α} {y : Except Error α} : (pure a : Answers α) y ↔ y = .ok a := Iff.rfl

theorem throw_iff {e : Error} {y : Except Error α} : (throw e : Answers α) y ↔ y = .error e := Iff.rfl

theorem bind_ok {p : Answers α} {f : α → Answers β} {a : α} {y : Except Error β}
    (h : p (.ok a)) (h' : f a y) : (p >>= f) y := .inl ⟨a, h, h'⟩

theorem bind_error {p : Answers α} {f : α → Answers β} {e : Error} (h : p (.error e)) :
    (p >>= f) (.error e) := .inr ⟨e, h, rfl⟩

/-- An answer of two requests in a row is an answer of the second one after one of the first. -/
theorem of_bind_ok {p : Answers α} {f : α → Answers β} {b : β} (h : (p >>= f) (.ok b)) :
    ∃ a, p (.ok a) ∧ f a (.ok b) := by
  rcases h with h | ⟨e, -, h⟩
  · exact h
  · cases h

/-- A failure of two requests in a row is one of the first or, after an answer of it, of the second. -/
theorem of_bind_error {p : Answers α} {f : α → Answers β} {e : Error} (h : (p >>= f) (.error e)) :
    p (.error e) ∨ ∃ a, p (.ok a) ∧ f a (.error e) := by
  rcases h with h | ⟨e', h, he⟩
  · exact .inr h
  · cases he
    exact .inl h

@[simp] theorem pure_bind (a : α) (f : α → Answers β) : (pure a >>= f) = f a := by
  funext y
  refine propext ⟨?_, fun h => .inl ⟨a, rfl, h⟩⟩
  rintro (⟨b, h, h'⟩ | ⟨e, h, -⟩)
  · cases h; exact h'
  · cases h

@[simp] theorem bind_pure (p : Answers α) : (p >>= pure) = p := by
  funext y
  refine propext ⟨?_, ?_⟩
  · rintro (⟨a, ha, rfl⟩ | ⟨e, he, rfl⟩)
    · exact ha
    · exact he
  · intro h
    cases y with
    | ok a => exact .inl ⟨a, h, rfl⟩
    | error e => exact .inr ⟨e, h, rfl⟩

@[simp] theorem step_ok (a : α) : (Interpreter.step (.ok a) : Answers α) = pure a := rfl

@[simp] theorem step_error (e : RuntimeError) :
    (Interpreter.step (.error e) : Answers α) = throw (.runtime e) := rfl

theorem step_iff {x : Except RuntimeError α} {a : α} :
    (Interpreter.step x : Answers α) (.ok a) ↔ x = .ok a := by
  cases x with
  | ok b => rw [step_ok, pure_iff]; constructor <;> (intro h; cases h; rfl)
  | error e => rw [step_error, throw_iff]; constructor <;> (intro h; cases h)

theorem step_error_iff {x : Except RuntimeError α} {e : Error} :
    (Interpreter.step x : Answers α) (.error e) ↔ ∃ r, e = .runtime r ∧ x = .error r := by
  cases x with
  | ok b =>
    constructor
    · intro h; cases h
    · rintro ⟨_, -, h⟩; cases h
  | error r =>
    constructor
    · intro h; cases h; exact ⟨r, rfl, rfl⟩
    · rintro ⟨_, rfl, h⟩; cases h; rfl

end Answers

end ShapeCompiler
