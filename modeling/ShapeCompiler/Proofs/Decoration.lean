import ShapeCompiler.Catalog.Programs
import ShapeCompiler.Proofs.Simulation.Readings
import ShapeCompiler.Proofs.Widening

/-!
Decorating a function.

Whether a function is decorated decides only how its calls are run. The interpreted call follows what
the reference answers on the values that the arguments read as, the compiled one conforms to it, and
without a limit the reference does not look at the decoration. Main statement: if both calls yield a
value, the compiled one yields the interpreted one as the return type declares it
(`Engine.Regular.decorate_agrees`).
-/

namespace ShapeCompiler

open TypeTable

/-! ### Worlds of one program -/

/-- The same function, but perhaps decorated on one side only. -/
inductive Function.Alike : Function → Function → Prop
  | native (n : Native) : Alike (.native n) (.native n)
  | defined {f g : Function} {d : FunctionDef} (hf : f.definition? = some d)
      (hg : g.definition? = some d) : Alike f g

theorem Function.alike_self (f : Function) : f.Alike f := by
  cases f with
  | decorated d => exact .defined rfl rfl
  | interpreted d => exact .defined rfl rfl
  | native n => exact .native n

namespace World

variable {w : World} {C C' : Meaning} {counted : Bool} {d : FunctionDef} {name : Ident}
  {args : List Value} {y : Except Error Value} {fs : Functions}

def withFunctions (w : World) (fs : Functions) : World := { w with functions := fs }

/-- Without a limit it does not matter whether an activation counts. -/
theorem apply_none (counted : Bool) : w.apply counted C none d args = w.apply true C none d args := by
  unfold World.apply
  cases counted <;> rfl

theorem apply_none_mono (h : ∀ name args y, C none name args y → C' none name args y)
    (hy : w.apply true C none d args y) : w.apply true C' none d args y := by
  unfold World.apply at hy ⊢
  split at hy
  · rename_i harity
    rw [if_pos harity]
    exact hy
  · rename_i harity
    rw [if_neg harity]
    exact body_mono h hy

/-- Without a limit, a call of a function that is no native one applies it. -/
theorem step_defined {f : Function} (hr : w.types.recordNamed? name = none)
    (hf : w.functions.get? name = some f) (hd : f.definition? = some d) :
    w.step C none name args = w.apply true C none d args := by
  unfold World.step
  simp only [hr, hf]
  cases f with
  | decorated d' =>
    cases hd
    exact apply_none _
  | interpreted d' =>
    cases hd
    rfl
  | native n => cases hd

/-- If calls in bodies answer the same, so do calls, whatever is decorated. -/
theorem step_redecorated (hfs : ∀ name, Option.Rel Function.Alike (w.functions.get? name) (fs.get? name))
    (h : ∀ name args y, C none name args y → C' none name args y) (hy : w.step C none name args y) :
    (w.withFunctions fs).step C' none name args y := by
  cases hr : w.types.recordNamed? name with
  | some p =>
    unfold World.step at hy ⊢
    have hr' : (w.withFunctions fs).types.recordNamed? name = some p := hr
    simp only [hr] at hy
    simp only [hr']
    exact hy
  | none =>
    have hrel := hfs name
    have hr' : (w.withFunctions fs).types.recordNamed? name = none := hr
    cases hf : w.functions.get? name with
    | none =>
      rw [hf] at hrel
      have hf' : (w.withFunctions fs).functions.get? name = none := by
        cases hg : fs.get? name with
        | none => exact hg
        | some g => rw [hg] at hrel; cases hrel
      unfold World.step at hy ⊢
      simp only [hr, hf] at hy
      simp only [hr', hf']
      exact hy
    | some f =>
      rw [hf] at hrel
      obtain ⟨g, hg, halike⟩ : ∃ g, fs.get? name = some g ∧ f.Alike g := by
        cases hg : fs.get? name with
        | none => rw [hg] at hrel; cases hrel
        | some g =>
          rw [hg] at hrel
          cases hrel with
          | some halike => exact ⟨g, rfl, halike⟩
      have hf' : (w.withFunctions fs).functions.get? name = some g := hg
      cases halike with
      | native n =>
        unfold World.step at hy ⊢
        simp only [hr, hf] at hy
        simp only [hr', hf']
        exact hy
      | defined hd hd' =>
        rw [step_defined hr hf hd] at hy
        rw [step_defined hr' hf' hd']
        exact apply_none_mono h hy

/-- Without a limit, calls answer the same whatever is decorated. -/
theorem calls_redecorated
    (hfs : ∀ name, Option.Rel Function.Alike (w.functions.get? name) (fs.get? name))
    (hy : w.calls none name args y) : (w.withFunctions fs).calls none name args y := by
  have answer : ∀ {depth name args y}, w.calls depth name args y → depth = none →
      (w.withFunctions fs).calls none name args y := by
    intro depth name args y h
    induction h with
    | @intro C hC depth name args y h ih =>
      rintro rfl
      exact calls_iff.2 (step_redecorated hfs (fun name args y hy => ih none name args y hy rfl) h)
  exact answer hy rfl

theorem apply_redecorated
    (hfs : ∀ name, Option.Rel Function.Alike (w.functions.get? name) (fs.get? name))
    (hy : w.apply true w.calls none d args y) :
    (w.withFunctions fs).apply true (w.withFunctions fs).calls none d args y :=
  apply_none_mono (w := w.withFunctions fs) (fun _ _ _ => calls_redecorated hfs) hy

end World

namespace Engine

variable {e e₁ e₂ e₁' e₂' : Engine} {d : FunctionDef} {args : List Value} {v w : Value} {fuel : Nat}

/-! ### The two calls -/

/-- Native functions of an engine see no difference between arguments and what they read as. -/
def SeesNoReading (e : Engine) (args : List Value) : Prop :=
  args.map (Value.readAt e.options.defaultBits) = args ∨
    ∀ name n, e.functions.get? name = some (.native n) → n.Blind e.types e.options.defaultBits

/-- The interpreted call follows the reference on what the arguments read as. -/
theorem Regular.call_interpreted (he : e.Regular) (hpure : e.functions.Pure)
    (hd : e.functions.get? d.name = some (.interpreted d))
    (hwidths : ∀ v ∈ args, e.types.Normal (v.readAt e.options.defaultBits)) (hsee : e.SeesNoReading args)
    (hcall : e.run (Run.call fuel d.name args) = .ok (.ok v, e')) :
    ∃ w, e.types.Reads e.options.defaultBits v w ∧
      e.unlimited.world.apply true e.unlimited.world.calls none d
        (args.map (Value.readAt e.options.defaultBits)) (.ok w) := by
  have hcoherent := he.coherent
  cases fuel with
  | zero => cases hcall
  | succ fuel =>
    rw [Run.call, run_function?, hd] at hcall
    have hrun : e.run (Run.interpret fuel ⟨e.types, .host, e.options.defaultBits⟩ d args) =
        .ok (.ok v, e') := hcall
    have hinterprets : e.unlimited.world.Interprets ⟨e.types, .host, e.options.defaultBits⟩ :=
      hcoherent.unlimited_runs.hosts.interprets
    have hn : e.unlimited.NativesConform := natives_conform_outcome hcoherent.toWellFormed hpure
    have hfollow : Follows e.unlimited.world.Reads
        (e.unlimited.world.apply true e.unlimited.world.calls none d
          (args.map (Value.readAt e.options.defaultBits))) e
        (Run.interpret fuel ⟨e.types, .host, e.options.defaultBits⟩ d args) := by
      rcases hsee with hplain | hblind
      · have hargs : ∀ v ∈ args, e.types.Normal v := by
          intro v hv
          rw [← hplain] at hv
          obtain ⟨u, hu, rfl⟩ := List.mem_map.1 hv
          exact hwidths u hu
        rw [hplain]
        refine ((Comparison.Conformance.all he.proper_outcome hn fuel).interpret
          hcoherent.unlimited_runs hinterprets hargs).follows (fun h => h) ?_
        rintro a b ⟨rfl, hnormal⟩
        exact hcoherent.types.reads_self hnormal
      · exact (Comparison.Readings.all he.proper_outcome hn
          (natives_follow_outcome hcoherent.toWellFormed hpure hblind) fuel).interpret
          hcoherent.unlimited_runs hinterprets (reads_all hwidths)
    obtain ⟨-, w, hw, hR⟩ := hfollow v e' hrun
    exact ⟨w, hR, hw⟩

/-- The compiled call yields what the reference yields on what the arguments read as, and that is of the
return type of the specialisation. -/
theorem Regular.call_compiled (he : e.Regular) (hpure : e.functions.Pure)
    (hd : e.functions.get? d.name = some (.decorated d))
    (hwidths : ∀ v ∈ args, e.types.Normal (v.readAt e.options.defaultBits))
    (hcall : e.run (Run.call fuel d.name args) = .ok (.ok w, e')) :
    e.unlimited.world.apply true e.unlimited.world.calls none d
        (args.map (Value.readAt e.options.defaultBits)) (.ok w) ∧
      ∃ s a e₁, e.update (Update.signatureOf d.name args) = (.ok s, e₁) ∧ e.Extends True e' ∧
        e'.compiled.get? s = some (.ok a) ∧ (StaticType.ofReturn a.returns).Has e'.types w := by
  have hcoherent := he.coherent
  cases fuel with
  | zero => cases hcall
  | succ fuel =>
    rw [Run.call, run_function?, hd] at hcall
    have hrun : e.run (Run.callDecorated fuel d.name args) = .ok (.ok w, e') := hcall
    obtain ⟨s, a, e₁, hs, hx, hget⟩ := run_callDecorated_eq_ok hcoherent hrun
    obtain ⟨hname, hspec, hx₁⟩ := update_signatureOf_eq_ok hcoherent.types hs
    have hruns := hcoherent.unlimited_runs
    have hn : e.unlimited.NativesConform := natives_conform_outcome hcoherent.toWellFormed hpure
    have hR : List.Forall₂ e.unlimited.world.Reads args (args.map (Value.readAt e.options.defaultBits)) :=
      reads_all hwidths
    have hconforms := Comparison.callDecorated_reads he.proper_outcome hn hruns hd hR hs fuel
    rcases hconforms with ⟨⟨hb, -⟩, -⟩ | hends
    · exact hb.elim
    · rw [hrun] at hends
      obtain ⟨hx', w', hw, rfl, hnormal⟩ := hends
      refine ⟨hw, s, a, e₁, hs, hx', hget, ?_⟩
      have hruns' := hruns.extends hx'
      obtain ⟨hk, rfl⟩ := hruns'.coherent.keeps hget
      have hruns₁ := hruns.extends hx₁
      obtain ⟨-, hargs⟩ := normalizeAll_reads hruns₁.hosts.types rfl hspec
        (hR.imp fun _ _ h => (hruns₁.reads_iff he.proper_outcome).1 h)
      exact hruns'.returns_has hk (hname ▸ hd) (hargs.imp fun _ _ h => h.extends hx hruns₁.hosts.types)
        he.proper_outcome hw

/-! ### The decorated function -/

theorem alike_insert (fs : Functions) (name : Ident) {f g : Function} (h : f.Alike g) (other : Ident) :
    Option.Rel Function.Alike ((fs.insert name f).get? other) ((fs.insert name g).get? other) := by
  rw [Assoc.get?_insert, Assoc.get?_insert]
  split
  · exact .some h
  · cases fs.get? other with
    | none => exact .none
    | some f => exact .some f.alike_self

/-- A native function that is found beside a registered definition was there before. -/
theorem native_of_insert {fs : Functions} {name other : Ident} {f : Function} {n : Native}
    (hf : f.definition? = some d) (h : (fs.insert name f).get? other = some (.native n)) :
    fs.get? other = some (.native n) := by
  rw [Assoc.get?_insert] at h
  split at h
  · cases h
    cases hf
  · exact h

theorem SeesNoReading.withFunction (h : e.SeesNoReading args) {name : Ident} {f : Function}
    (hf : f.definition? = some d) : (e.withFunction name f).SeesNoReading args :=
  h.imp_right fun hblind other n hn => hblind other n (native_of_insert hf hn)

/-- If a function yields a value where it is interpreted, and one where it is decorated and nothing else
is different, then the second one is the first one as the return type of the specialisation declares
it: if nothing is registered anew over compiled code, bodies read no placeholder, records have no more
fields than 16 bits can number, native functions never enter the engine and see no difference between
the arguments and what they read as, and the integers in the arguments, an untyped one being read at the
default width, have the widths declared for them. -/
theorem Regular.decorate_agrees (he : e.Regular) (hpure : e.functions.Pure) (hclean : Block.Clean d.body)
    (hnew : e.compiled = .empty ∨ e.functions.get? d.name = none)
    (hwidths : ∀ v ∈ args, e.types.Normal (v.readAt e.options.defaultBits)) (hsee : e.SeesNoReading args)
    (hdefine : e.update (Update.define d) = (.ok (), e₁))
    (hdecorate : e.update (Update.decorate d) = (.ok (), e₂)) {fuel₁ fuel₂ : Nat}
    (hinterpreted : e₁.run (Run.call fuel₁ d.name args) = .ok (.ok v, e₁'))
    (hcompiled : e₂.run (Run.call fuel₂ d.name args) = .ok (.ok w, e₂')) :
    ∃ s a e₃, e₂.update (Update.signatureOf d.name args) = (.ok s, e₃) ∧
      e₂'.compiled.get? s = some (.ok a) ∧
      (∀ id, a.returns = some id → e₂'.types.normalize v id = .ok w) ∧
      (a.returns = none → v = .incomplete ∧ w = .incomplete) := by
  obtain ⟨he₁, rfl⟩ := he.register (r := .define d) rfl hnew hclean hdefine
  obtain ⟨he₂, rfl⟩ := he.register (r := .decorate d) rfl hnew hclean hdecorate
  have hf₁ : (Function.interpreted d).definition? = some d := rfl
  have hf₂ : (Function.decorated d).definition? = some d := rfl
  obtain ⟨w₀, hR, hw₀⟩ := he₁.call_interpreted (fun _ n hn => hpure _ n (native_of_insert hf₁ hn))
    (Assoc.get?_insert_self _ _ _) hwidths (hsee.withFunction hf₁) hinterpreted
  obtain ⟨hw, s, a, e₃, hs, hx, hget, hhas⟩ := he₂.call_compiled
    (fun _ n hn => hpure _ n (native_of_insert hf₂ hn)) (Assoc.get?_insert_self _ _ _) hwidths hcompiled
  -- Both are answers of one world, which has but one.
  have hw₀' := World.apply_redecorated
    (alike_insert e.functions d.name (.defined hf₁ hf₂)) hw₀
  obtain rfl : w₀ = w :=
    Except.ok.inj (World.apply_calls_unique (fun _ _ _ _ => Native.outcome_unique) hw₀' hw)
  have hruns := he₂.coherent.unlimited_runs.extends hx
  have hreads := (hruns.reads_iff he₂.proper_outcome).1 hR
  refine ⟨s, a, e₃, hs, hget, fun id hid => ?_, fun hnone => ?_⟩
  · rw [hid] at hhas
    exact hruns.hosts.types.normalize_reads hreads hhas
  · rw [hnone] at hhas
    obtain rfl : w₀ = .incomplete := hhas.1
    exact ⟨hreads.incomplete, rfl⟩

end Engine

/-! ### Sums of trees -/

namespace Catalog

def boxesEngine : Engine := { Engine.default with types := boxTable }

theorem boxesEngine_regular : boxesEngine.Regular where
  session := boxTypes_session
  clean := Functions.clean_empty
  fields := boxTable_fields

def untypedNode : Value := .record "Node" [.record "Leaf" [.int 1], .record "Leaf" [.int 2]]

theorem untypedNode_normal : boxesEngine.types.Normal (untypedNode.readAt 24) := by
  have hnorm : boxTable.normalize (untypedNode.readAt 24) ⟨3⟩ = .ok (untypedNode.readAt 24) := by
    with_unfolding_all rfl
  exact (boxesEngine_regular.coherent.types.normalize_has hnorm).2

/-- The sum of a tree of untyped integers is the same, whether it is decorated or not. -/
theorem decorate_agrees_sum : ∃ e₁ e₂ e₁' e₂' v w s a,
    boxesEngine.update (Update.define sumTree) = (.ok (), e₁) ∧
    boxesEngine.update (Update.decorate sumTree) = (.ok (), e₂) ∧
    e₁.run (Run.call 60 "sum_tree" [untypedNode]) = .ok (.ok v, e₁') ∧
    e₂.run (Run.call 60 "sum_tree" [untypedNode]) = .ok (.ok w, e₂') ∧
    v.asUint 24 = some (Uint.u24 3) ∧ w.asUint 24 = some (Uint.u24 3) ∧
    e₂'.compiled.get? s = some (.ok a) ∧
    ∀ id, a.returns = some id → e₂'.types.normalize v id = .ok w := by
  have hfree : boxesEngine.types.lookup "sum_tree" = none := by with_unfolding_all rfl
  have hdefine : boxesEngine.update (Update.define sumTree) =
      (.ok (), boxesEngine.withFunction "sum_tree" (.interpreted sumTree)) :=
    Engine.update_register _ hfree
  have hdecorate : boxesEngine.update (Update.decorate sumTree) =
      (.ok (), boxesEngine.withFunction "sum_tree" (.decorated sumTree)) :=
    Engine.update_register _ hfree
  have hclean : Block.Clean sumTree.body := by
    simp [sumTree, plus, returning, Block.Clean, Block.ArmsClean, Expr.Clean, Expr.AllClean, placeholder]
  obtain ⟨v, e₁', h₁, hv⟩ : ∃ v e', (boxesEngine.withFunction "sum_tree" (.interpreted sumTree)).run
      (Run.call 60 "sum_tree" [untypedNode]) = .ok (.ok v, e') ∧ v.asUint 24 = some (Uint.u24 3) :=
    exists_of_number (by decide +kernel)
  obtain ⟨w, e₂', h₂, hw⟩ : ∃ v e', (boxesEngine.withFunction "sum_tree" (.decorated sumTree)).run
      (Run.call 60 "sum_tree" [untypedNode]) = .ok (.ok v, e') ∧ v.asUint 24 = some (Uint.u24 3) :=
    exists_of_number (by decide +kernel)
  obtain ⟨s, a, -, -, hget, hreturns, -⟩ := Engine.Regular.decorate_agrees boxesEngine_regular
    (fun _ _ h => by cases h) hclean (.inl rfl) (List.forall_mem_singleton.2 untypedNode_normal)
    (.inr fun _ _ h => by cases h) hdefine hdecorate h₁ h₂
  exact ⟨_, _, e₁', e₂', v, w, s, a, hdefine, hdecorate, h₁, h₂, hv, hw, hget, hreturns⟩

/-! ### Functions that are not the same when decorated -/

/-- A function that reads no placeholder is called in both ways and yields values, but the compiled call
another one than the return type declares for the interpreted one. -/
def DecorationDiffers (e : Engine) (d : FunctionDef) (args : List Value) : Prop :=
  Block.Clean d.body ∧ ∃ e₁ e₂ e₃ e₁' e₂' v w s a id, e.update (Update.define d) = (.ok (), e₁) ∧
    e.update (Update.decorate d) = (.ok (), e₂) ∧
    e₁.run (Run.call 60 d.name args) = .ok (.ok v, e₁') ∧
    e₂.run (Run.call 60 d.name args) = .ok (.ok w, e₂') ∧
    e₂.update (Update.signatureOf d.name args) = (.ok s, e₃) ∧ e₂'.compiled.get? s = some (.ok a) ∧
    a.returns = some id ∧ e₂'.types.normalize v id ≠ .ok w

/-- The compiled number differs from the interpreted one under the return type. -/
def decorationDiffers (e : Engine) (d : FunctionDef) (args : List Value) : Bool :=
  match e.update (Update.define d), e.update (Update.decorate d) with
  | (.ok (), e₁), (.ok (), e₂) =>
    match e₁.run (Run.call 60 d.name args), e₂.run (Run.call 60 d.name args),
      e₂.update (Update.signatureOf d.name args) with
    | .ok (.ok v, _), .ok (.ok w, e₂'), (.ok s, _) =>
      match e₂'.compiled.get? s with
      | some (.ok a) =>
        match a.returns with
        | some id =>
          match e₂'.types.normalize v id with
          | .ok u => u.asUint 64 != w.asUint 64
          | .error _ => true
        | none => false
      | _ => false
    | _, _, _ => false
  | _, _ => false

theorem differs_of_check {e : Engine} {d : FunctionDef} {args : List Value} (hd : Block.Clean d.body)
    (h : decorationDiffers e d args = true) : DecorationDiffers e d args := by
  unfold decorationDiffers at h
  split at h
  · rename_i e₁ e₂ h₁ h₂
    split at h
    · rename_i v e₁' w e₂' s e₃ hv hw hs
      split at h
      · rename_i a ha
        split at h
        · rename_i id hid
          refine ⟨hd, e₁, e₂, e₃, e₁', e₂', v, w, s, a, id, h₁, h₂, hv, hw, hs, ha, hid, fun hn => ?_⟩
          rw [hn] at h
          simp at h
        · cases h
      · cases h
    · cases h
  · cases h

/-- A record with a number of 32 bits. -/
def wideTypes : List TypeDecl := [.record "P" [("n", "u32")]]

/-- An engine with this record. -/
def wideEngine : Engine := (Engine.default.update (Update.declareTypes wideTypes)).2

def numberOf : FunctionDef := ⟨"number", ["p"], returning (plus (.field (.var "p") "n") (.lit 0))⟩

/-- Has a native function answer. -/
def consult : FunctionDef := ⟨"consult", ["x"], returning (.call "oracle" [.var "x"])⟩

/-- A native function that hands back its argument, as a number of 32 bits. -/
def wideOracle : NativeDef :=
  ⟨"oracle", ["u32"], "u32", fun args => (args.head?.map Callback.value).getD (.fail "no argument")⟩

/-- A native function that has a function called, and makes do with another number if it fails. -/
def patientOracle : NativeDef :=
  ⟨"oracle", ["u24"], "u24", fun args => .enter "inner" args fun
    | .ok v => .value v
    | .error _ => .value (.u24 7)⟩

/-- An engine with the native function and an interpreted one, of which one activation may be alive. -/
def oracleEngine : Engine :=
  (Engine.default.update do
    modify fun e => { e with options := { e.options with maxHostDepth := 1 } }
    Update.define ⟨"inner", ["x"], returning (.lit 1)⟩
    Update.defineNative patientOracle).2

def constant (n : UInt64) : FunctionDef := ⟨"constant", ["x"], returning (.lit n)⟩

/-- Reads a placeholder that a pattern has bound to a number of 32 bits, which inference takes for the
first argument. -/
def unseen : FunctionDef :=
  ⟨"unseen", ["x", "p"], [.assign "_" (.var "x"),
    .branch (.field (.var "p") "n") [⟨.bind "_", returning (.var "_")⟩]]⟩

/-- The upper bits of what that function yields. -/
def upperBits : FunctionDef :=
  ⟨"upper", ["x", "p"],
    returning (.binary .div (.call "unseen" [.var "x", .var "p"]) (.lit 1048576))⟩

/-- A decorated function differs from the same one interpreted on an untyped integer in a field that is
wider than the default, with a native function that keeps an untyped integer, with one that enters the
engine again, over compiled code of an older definition, and with another function that reads a
placeholder. -/
theorem decorate_differs :
    DecorationDiffers wideEngine numberOf [.record "P" [.int 1073741824]] ∧
    DecorationDiffers (Engine.default.update (Update.defineNative wideOracle)).2 consult
      [.int 1073741824] ∧
    DecorationDiffers oracleEngine consult [.int 0] ∧
    DecorationDiffers ((Engine.default.update (Update.decorate (constant 1))).2.after 60
      (.call "constant" [.int 0])) (constant 2) [.int 0] ∧
    DecorationDiffers (wideEngine.update (Update.define unseen)).2 upperBits
      [.u24 0, .record "P" [.uint (Uint.wrap 32 1073741824)]] := by
  have hnumber : Block.Clean numberOf.body := by
    simp [numberOf, plus, returning, Block.Clean, Expr.Clean, placeholder]
  have hconsult : Block.Clean consult.body := by
    simp [consult, returning, Block.Clean, Expr.Clean, Expr.AllClean, placeholder]
  have hconstant : Block.Clean (constant 2).body := by
    simp [constant, returning, Block.Clean, Expr.Clean]
  have hupper : Block.Clean upperBits.body := by
    simp [upperBits, returning, Block.Clean, Expr.Clean, Expr.AllClean, placeholder]
  exact ⟨differs_of_check hnumber (by decide +kernel), differs_of_check hconsult (by decide +kernel),
    differs_of_check hconsult (by decide +kernel), differs_of_check hconstant (by decide +kernel),
    differs_of_check hupper (by decide +kernel)⟩

end Catalog

end ShapeCompiler
