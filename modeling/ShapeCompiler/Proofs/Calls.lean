import ShapeCompiler.Function
import ShapeCompiler.Proofs.Answers
import ShapeCompiler.Proofs.Interpretation

/-!
What a call by name can answer when everything is interpreted.

The answers are the least ones that are closed under interpreting a body, so each of them comes from
a finite interpretation. Calls may be limited to a number of nested activations.

Main statements: a call answers what one step of it answers (`calls_iff`), and it has at most one
answer if native functions have (`calls_unique`).
-/

namespace ShapeCompiler

/-- What the meaning of a program depends on. -/
structure World where
  functions : Functions
  types : TypeTable
  defaultBits : Nat
  /-- The number of activations that an error of the limit reports. -/
  limit : Nat
  /-- Whether decorated functions count against the limit, as they do when they are interpreted. -/
  counts : Bool
  /-- The answers of a native function that has as many arguments as it takes. -/
  native : Native → List Value → Answers Value

/-- What calls by name mean, given how many more activations may begin; none for any number. -/
abbrev Meaning := Option Nat → Ident → List Value → Answers Value

namespace World

variable (w : World)

/-- The interpreter of the world. -/
def interpreter : Interpreter := ⟨w.types, .reference, w.defaultBits⟩

def body (call : Ident → List Value → Answers Value) (d : FunctionDef) (args : List Value) :
    Answers Value :=
  fun y => ∃ fuel, w.interpreter.body call fuel d args y

/-- The answers of a function, as an activation that counts against the limit or not. -/
def apply (counted : Bool) (C : Meaning) (depth : Option Nat) (d : FunctionDef) (args : List Value) :
    Answers Value :=
  if args.length ≠ d.arity then throw (.runtime (.arityMismatch d.name d.arity args.length))
  else if counted then
    match depth with
    | none => w.body (C none) d args
    | some 0 => throw (.runtime (.recursionLimit w.limit))
    | some (depth + 1) => w.body (C (some depth)) d args
  else w.body (C depth) d args

/-- The answers of a call if calls in bodies mean `C`. -/
def step (C : Meaning) : Meaning := fun depth name args =>
  match w.types.recordNamed? name with
  | some (_, r) => Interpreter.step (w.interpreter.construct r args)
  | none =>
    match w.functions.get? name with
    | none => throw (.runtime (.notDefined name))
    | some (.decorated d) => w.apply w.counts C depth d args
    | some (.interpreted d) => w.apply true C depth d args
    | some (.native n) =>
      if args.length ≠ n.params.length then
        throw (.runtime (.arityMismatch n.name n.params.length args.length))
      else w.native n args

/-- The least meaning that contains what its own steps answer. -/
inductive Calls : Option Nat → Ident → List Value → Except Error Value → Prop
  | intro {C : Meaning} (hC : ∀ depth name args y, C depth name args y → Calls depth name args y)
      {depth name args y} (h : w.step C depth name args y) : Calls depth name args y

/-- What calls mean. -/
def calls : Meaning := fun depth name args y => w.Calls depth name args y

end World

/-! ### Relations between sets of answers -/

namespace Relation

/-- One set of answers is within another. -/
def inclusion : Relation Answers Answers where
  rel Q x y := ∀ a, x a → y a ∧ ∀ v, a = .ok v → Q v
  pure := by
    rintro α Q a hQ _ rfl
    exact ⟨rfl, fun v h => by cases h; exact hQ⟩
  bind := by
    rintro α β Q Q' x y f g hx hf b (⟨a, ha, hb⟩ | ⟨e, he, rfl⟩)
    · obtain ⟨hy, hQ⟩ := hx _ ha
      obtain ⟨hg, hQ'⟩ := hf a (hQ a rfl) b hb
      exact ⟨Answers.bind_ok hy hg, hQ'⟩
    · exact ⟨Answers.bind_error (hx _ he).1, fun v h => by cases h⟩
  throw := by
    rintro α Q e - _ rfl
    exact ⟨rfl, fun v h => by cases h⟩
  halt := fun _ h => h.elim

def agreement : Relation Answers Answers where
  rel Q x y := ∀ a b, x a → y b → a = b ∧ ∀ v, a = .ok v → Q v
  pure := by
    rintro α Q a hQ _ _ rfl rfl
    exact ⟨rfl, fun v h => by cases h; exact hQ⟩
  bind := by
    rintro α β Q Q' x y f g hx hf b b' (⟨a, ha, hb⟩ | ⟨e, he, rfl⟩) (⟨a', ha', hb'⟩ | ⟨e', he', rfl⟩)
    · obtain ⟨h, hQ⟩ := hx _ _ ha ha'
      cases h
      exact hf a (hQ a rfl) _ _ hb hb'
    · cases (hx _ _ ha he').1
    · cases (hx _ _ he ha').1
    · cases (hx _ _ he he').1
      exact ⟨rfl, fun v h => by cases h⟩
  throw := by
    rintro α Q e - _ _ rfl rfl
    exact ⟨rfl, fun v h => by cases h⟩
  halt := fun _ _ h => h.elim

theorem agreement_lax : agreement.Lax := fun {_ _} =>
  ⟨fun _ _ _ _ h => h.elim, fun _ _ _ h => h.elim⟩

end Relation

namespace World

variable {w : World} {C C' : Meaning} {depth : Option Nat} {name : Ident} {args : List Value}
  {y y' : Except Error Value} {counted : Bool}

theorem body_mono {call call' : Ident → List Value → Answers Value}
    (h : ∀ name args y, call name args y → call' name args y) {d : FunctionDef}
    (hy : w.body call d args y) : w.body call' d args y := by
  obtain ⟨fuel, hy⟩ := hy
  exact ⟨fuel, (Relation.inclusion.body w.interpreter.closed_true
    (fun name args _ a ha => ⟨h name args a ha, fun _ _ => trivial⟩) (.inl rfl) d
    (fun _ _ => trivial) y hy).1⟩

theorem apply_mono (h : ∀ depth name args y, C depth name args y → C' depth name args y)
    {d : FunctionDef} (hy : w.apply counted C depth d args y) : w.apply counted C' depth d args y := by
  unfold World.apply at hy ⊢
  split at hy
  · rename_i hn
    rw [if_pos hn]
    exact hy
  · rename_i hn
    rw [if_neg hn]
    cases counted with
    | false => exact body_mono (h depth) hy
    | true =>
      rcases depth with _ | _ | depth
      · exact body_mono (h none) hy
      · exact hy
      · exact body_mono (h (some depth)) hy

theorem apply_cases {d : FunctionDef} (h : w.apply counted C depth d args y) :
    (args.length ≠ d.arity ∧ y = .error (.runtime (.arityMismatch d.name d.arity args.length))) ∨
    y = .error (.runtime (.recursionLimit w.limit)) ∨ ∃ k, w.body (C k) d args y := by
  unfold World.apply at h
  split at h
  · rename_i hn
    exact .inl ⟨hn, h⟩
  · cases counted with
    | false => exact .inr (.inr ⟨depth, h⟩)
    | true =>
      rcases depth with _ | _ | depth
      · exact .inr (.inr ⟨none, h⟩)
      · exact .inr (.inl h)
      · exact .inr (.inr ⟨some depth, h⟩)

theorem step_mono (h : ∀ depth name args y, C depth name args y → C' depth name args y)
    (hy : w.step C depth name args y) : w.step C' depth name args y := by
  unfold World.step at hy ⊢
  cases hr : w.types.recordNamed? name with
  | some p => rw [hr] at hy; exact hy
  | none =>
    rw [hr] at hy
    cases hf : w.functions.get? name with
    | none => rw [hf] at hy; exact hy
    | some f =>
      rw [hf] at hy
      cases f with
      | decorated d => exact apply_mono h hy
      | interpreted d => exact apply_mono h hy
      | native n => exact hy

/-- A call answers what one step of it answers. -/
theorem calls_iff : w.calls depth name args y ↔ w.step w.calls depth name args y := by
  constructor
  · rintro ⟨hC, h⟩
    exact step_mono hC h
  · exact fun h => .intro (fun _ _ _ _ h => h) h

theorem calls_constructor {id : TypeId} {r : RecordType}
    (hr : w.types.recordNamed? name = some (id, r)) :
    w.calls depth name args y ↔
      (Interpreter.step (w.interpreter.construct r args) : Answers Value) y := by
  rw [calls_iff]
  unfold World.step
  simp only [hr]

theorem calls_decorated {d : FunctionDef} (hr : w.types.recordNamed? name = none)
    (hf : w.functions.get? name = some (.decorated d)) :
    w.calls depth name args y ↔ w.apply w.counts w.calls depth d args y := by
  rw [calls_iff]
  unfold World.step
  simp only [hr, hf]

theorem calls_interpreted {d : FunctionDef} (hr : w.types.recordNamed? name = none)
    (hf : w.functions.get? name = some (.interpreted d)) :
    w.calls depth name args y ↔ w.apply true w.calls depth d args y := by
  rw [calls_iff]
  unfold World.step
  simp only [hr, hf]

theorem body_unique {call call' : Ident → List Value → Answers Value}
    (h : ∀ name args y y', call name args y → call' name args y' → y = y') {d : FunctionDef}
    (hy : w.body call d args y) (hy' : w.body call' d args y') : y = y' := by
  obtain ⟨fuel, hy⟩ := hy
  obtain ⟨fuel', hy'⟩ := hy'
  exact (Relation.agreement.body w.interpreter.closed_true
    (fun name args _ a b ha hb => ⟨h name args a b ha hb, fun _ _ => trivial⟩)
    (.inr Relation.agreement_lax) d (fun _ _ => trivial) y y' hy hy').1

theorem apply_unique (h : ∀ depth name args y y', C depth name args y → C' depth name args y' → y = y')
    {d : FunctionDef} (hy : w.apply counted C depth d args y) (hy' : w.apply counted C' depth d args y') :
    y = y' := by
  unfold World.apply at hy hy'
  split at hy
  · rename_i hn
    rw [if_pos hn] at hy'
    exact Eq.trans hy (Eq.symm hy')
  · rename_i hn
    rw [if_neg hn] at hy'
    cases counted with
    | false => exact body_unique (h depth) hy hy'
    | true =>
      rcases depth with _ | _ | depth
      · exact body_unique (h none) hy hy'
      · exact Eq.trans hy (Eq.symm hy')
      · exact body_unique (h (some depth)) hy hy'

theorem step_unique (hn : ∀ n args y y', w.native n args y → w.native n args y' → y = y')
    (h : ∀ depth name args y y', C depth name args y → C' depth name args y' → y = y')
    (hy : w.step C depth name args y) (hy' : w.step C' depth name args y') : y = y' := by
  unfold World.step at hy hy'
  cases hr : w.types.recordNamed? name with
  | some p =>
    rw [hr] at hy hy'
    cases hc : w.interpreter.construct p.2 args with
    | ok v => simp only [hc] at hy hy'; exact Eq.trans hy (Eq.symm hy')
    | error e => simp only [hc] at hy hy'; exact Eq.trans hy (Eq.symm hy')
  | none =>
    rw [hr] at hy hy'
    cases hf : w.functions.get? name with
    | none => rw [hf] at hy hy'; exact Eq.trans hy (Eq.symm hy')
    | some f =>
      rw [hf] at hy hy'
      cases f with
      | decorated d => exact apply_unique h hy hy'
      | interpreted d => exact apply_unique h hy hy'
      | native n =>
        simp only at hy hy'
        split at hy
        · rename_i hl
          rw [if_pos hl] at hy'
          exact Eq.trans hy (Eq.symm hy')
        · rename_i hl
          rw [if_neg hl] at hy'
          exact hn n args y y' hy hy'

/-- A call has at most one answer if native functions have. -/
theorem calls_unique (hn : ∀ n args y y', w.native n args y → w.native n args y' → y = y')
    (hy : w.calls depth name args y) (hy' : w.calls depth name args y') : y = y' := by
  induction hy generalizing y' with
  | intro hC h ih =>
    exact step_unique hn (fun depth name args y y' h h' => ih depth name args y h h') h
      (calls_iff.1 hy')

/-- A function has at most one answer if native functions have. -/
theorem apply_calls_unique (hn : ∀ n args y y', w.native n args y → w.native n args y' → y = y')
    {d : FunctionDef} (hy : w.apply counted w.calls depth d args y)
    (hy' : w.apply counted w.calls depth d args y') : y = y' := by
  have h : ∀ depth name args y y', w.calls depth name args y → w.calls depth name args y' → y = y' :=
    fun _ _ _ _ _ => calls_unique hn
  exact apply_unique h hy hy'

end World

end ShapeCompiler
