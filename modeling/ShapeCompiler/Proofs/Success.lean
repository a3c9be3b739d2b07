import Mathlib.Tactic.Common

/-!
A step made of two steps succeeds when both of them do.

Main statements: what success says of a sequence of steps that may fail (`bind_eq_ok`), and of one
whose steps also change a state (`run_bind_eq_ok`); steps whose state only goes up make a sequence
whose state only goes up (`Increasing.bind`).
-/

namespace ShapeCompiler

variable {ε σ α β : Type}

theorem bind_eq_ok {x : Except ε α} {f : α → Except ε β} {b : β} :
    (x >>= f) = .ok b ↔ ∃ a, x = .ok a ∧ f a = .ok b := by
  cases x with
  | error e =>
    constructor
    · intro h; cases h
    · rintro ⟨a, h, -⟩; cases h
  | ok a =>
    constructor
    · intro h; exact ⟨a, rfl, h⟩
    · rintro ⟨a', h, h'⟩; cases h; exact h'

theorem map_eq_ok {x : Except ε α} {f : α → β} {b : β} :
    x.map f = .ok b ↔ ∃ a, x = .ok a ∧ f a = b := by
  cases x with
  | error e =>
    constructor
    · intro h; cases h
    · rintro ⟨a, h, -⟩; cases h
  | ok a =>
    constructor
    · intro h; cases h; exact ⟨a, rfl, rfl⟩
    · rintro ⟨a', h, rfl⟩; cases h; rfl

theorem mapError_eq_ok {ε' : Type} {x : Except ε α} {f : ε → ε'} {a : α} :
    x.mapError f = .ok a ↔ x = .ok a := by
  cases x with
  | error e =>
    constructor
    · intro h; cases h
    · intro h; cases h
  | ok b =>
    constructor
    · intro h; cases h; rfl
    · intro h; cases h; rfl

theorem toOption_eq_of_ok_iff {x y : Except ε α} (h : ∀ a, x = .ok a ↔ y = .ok a) :
    x.toOption = y.toOption := by
  cases x with
  | ok a => rw [(h a).1 rfl]
  | error e =>
    cases y with
    | ok a => cases (h a).2 rfl
    | error e' => rfl

theorem run_bind_eq_ok {x : StateT σ (Except ε) α} {f : α → StateT σ (Except ε) β} {s s' : σ}
    {b : β} : (x >>= f).run s = .ok (b, s') ↔
      ∃ a s₁, x.run s = .ok (a, s₁) ∧ (f a).run s₁ = .ok (b, s') := by
  show (x.run s >>= fun p => (f p.1).run p.2) = .ok (b, s') ↔ _
  rw [bind_eq_ok]
  constructor
  · rintro ⟨⟨a, s₁⟩, h, h'⟩; exact ⟨a, s₁, h, h'⟩
  · rintro ⟨a, s₁, h, h'⟩; exact ⟨(a, s₁), h, h'⟩

theorem run_pure_eq_ok {a b : α} {s s' : σ} :
    (pure a : StateT σ (Except ε) α).run s = .ok (b, s') ↔ a = b ∧ s = s' := by
  constructor
  · intro h; cases h; exact ⟨rfl, rfl⟩
  · rintro ⟨rfl, rfl⟩; rfl

theorem run_lift_eq_ok {x : Except ε α} {a : α} {s s' : σ} :
    (liftM x : StateT σ (Except ε) α).run s = .ok (a, s') ↔ x = .ok a ∧ s = s' := by
  cases x with
  | error e =>
    constructor
    · intro h; cases h
    · rintro ⟨h, -⟩; cases h
  | ok b =>
    constructor
    · intro h; cases h; exact ⟨rfl, rfl⟩
    · rintro ⟨h, rfl⟩; cases h; rfl

theorem run_throw_ne_ok {e : ε} {s : σ} {p : α × σ} :
    (throw e : StateT σ (Except ε) α).run s ≠ .ok p := by
  intro h
  cases h

/-! ### States that only go up -/

/-- The relation compares states as an order does, up to antisymmetry. -/
structure Ordered (le : σ → σ → Prop) : Prop where
  refl : ∀ s, le s s
  trans : ∀ {a b c}, le a b → le b c → le a c

/-- The state after a step is above the state before. -/
def Increasing (le : σ → σ → Prop) (x : StateT σ (Except ε) α) : Prop :=
  ∀ s a s', x.run s = .ok (a, s') → le s s'

namespace Increasing

variable {le : σ → σ → Prop} (ho : Ordered le)
include ho

theorem pure (a : α) : Increasing le (pure a : StateT σ (Except ε) α) := by
  intro s b s' h
  obtain ⟨-, rfl⟩ := run_pure_eq_ok.1 h
  exact ho.refl s

theorem lift (x : Except ε α) : Increasing le (liftM x : StateT σ (Except ε) α) := by
  intro s b s' h
  obtain ⟨-, rfl⟩ := run_lift_eq_ok.1 h
  exact ho.refl s

theorem bind {x : StateT σ (Except ε) α} {f : α → StateT σ (Except ε) β} (hx : Increasing le x)
    (hf : ∀ a, Increasing le (f a)) : Increasing le (x >>= f) := by
  intro s b s' h
  obtain ⟨a, s₁, h₁, h₂⟩ := run_bind_eq_ok.1 h
  exact ho.trans (hx s a s₁ h₁) (hf a s₁ b s' h₂)

omit ho in
theorem throw (e : ε) : Increasing le (throw e : StateT σ (Except ε) α) :=
  fun _ _ _ h => absurd h run_throw_ne_ok

end Increasing

end ShapeCompiler
