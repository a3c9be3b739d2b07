import ShapeCompiler.Proofs.Independence.Machines

/-!
All ways to run code, in two engines that descend from one.

Main statements: whatever runs code has the same answers in both, be it values, errors of the program,
errors of compilation, or a stop (`Alikeness.all`), and so has a verification
(`Engine.Ground.verify`).
-/

namespace ShapeCompiler

open TypeTable

variable {α β : Type} {N : Ident → Prop} {e₀ e e' e₁ e₁' : Engine}

/-- The interpreter does to twins what the calls in a body do to them. -/
def sameness (N : Ident → Prop) (e₀ : Engine) : Relation Run Run where
  rel Q x y := ∀ e e', Engine.Twin N e₀ e e' → YieldsSame N e₀ Q e e' x y
  pure hQ := fun _ _ h => .pure h ⟨rfl, hQ⟩
  bind hx hf := fun e e' h => YieldsSame.bind (hx e e' h) fun a e₁ e₁' h₁ _ _ hQ => hf a hQ e₁ e₁' h₁
  throw _ := fun _ _ h => .throw h _
  halt := fun _ _ _ => .halt _

/-- Both runs have the same answer in all twins, of which something holds. -/
abbrev SameAnswers (N : Ident → Prop) (e₀ : Engine) (Q : α → Prop) (x y : Run α) : Prop :=
  (sameness N e₀).rel Q x y

namespace Engine

theorem Ground.recordsIn (hground : Ground N e₀) (h : e₀.Descends e) {id : TypeId} {r : RecordType}
    (hr : e.types.record? id = some r) : N r.name := by
  rw [h.grows.record?_eq] at hr
  exact hground.records hr

theorem Twin.interpreter (hground : Ground N e₀) (h : Twin N e₀ e e') (mode : Mode) :
    RunsAlike N e₀ (fun _ _ i i' => Interpreter.Twin e₀.types i i') e e' (Run.interpreter mode)
      (Run.interpreter mode) := by
  refine .ok ⟨h, .refl e, .refl e', .ok ⟨h.siblings hground, rfl, ?_⟩⟩
  show e'.options.defaultBits = e.options.defaultBits
  rw [h.left.options, h.right.options]

end Engine

open Engine

/-- Every way to run code with some fuel has the same answers in twins. -/
structure Alikeness (N : Ident → Prop) (e₀ : Engine) (fuel : Nat) : Prop where
  interpret : ∀ {i i'}, Interpreter.Twin e₀.types i i' → ∀ d args, (∀ v ∈ args, v.RecordsIn N) →
    SameAnswers N e₀ (Value.RecordsIn N) (Run.interpret fuel i d args) (Run.interpret fuel i' d args)
  callFrom : ∀ {i i'}, Interpreter.Twin e₀.types i i' → ∀ name args, (∀ v ∈ args, v.RecordsIn N) →
    SameAnswers N e₀ (Value.RecordsIn N) (Run.callFrom fuel i name args) (Run.callFrom fuel i' name args)
  callDecorated : ∀ name args, (∀ v ∈ args, v.RecordsIn N) →
    SameAnswers N e₀ (Value.RecordsIn N) (Run.callDecorated fuel name args)
      (Run.callDecorated fuel name args)
  runArtifact : ∀ {e e'}, Engine.Twin N e₀ e e' → ∀ {a a'}, Held e₀ e e' a a' → ∀ args,
    YieldsSame N e₀ (Value.RecordsIn N) e e' (Run.runArtifact fuel a args) (Run.runArtifact fuel a' args)
  callHost : HostsAlike N e₀ (Run.callHost fuel)
  callNative : ∀ {name n}, e₀.functions.get? name = some (.native n) → ∀ args,
    SameAnswers N e₀ (Value.RecordsIn N) (Run.callNative fuel n args) (Run.callNative fuel n args)
  call : ∀ name args, (∀ v ∈ args, v.RecordsIn N) →
    SameAnswers N e₀ (Value.RecordsIn N) (Run.call fuel name args) (Run.call fuel name args)

namespace Alikeness

variable {fuel : Nat}

/-! ### The interpreter -/

theorem body {i i' : Interpreter} (hi : Interpreter.Twin e₀.types i i') (ih : Alikeness N e₀ fuel)
    (d : FunctionDef) {args : List Value} (hargs : ∀ v ∈ args, v.RecordsIn N) :
    SameAnswers N e₀ (Value.RecordsIn N) (i.body (Run.callFrom fuel i) fuel d args)
      (i'.body (Run.callFrom fuel i') fuel d args) :=
  (sameness N e₀).body hi.closed (ih.callFrom hi) (.inl rfl) d hargs

theorem interpret_succ {i i' : Interpreter} (hi : Interpreter.Twin e₀.types i i') (ih : Alikeness N e₀ fuel)
    (d : FunctionDef) (args : List Value) (hargs : ∀ v ∈ args, v.RecordsIn N) :
    SameAnswers N e₀ (Value.RecordsIn N) (Run.interpret (fuel + 1) i d args)
      (Run.interpret (fuel + 1) i' d args) := by
  intro e e' h
  rw [Run.interpret, Run.interpret]
  split
  · exact .throw h _
  · exact h.activation (fun _ _ _ _ hQ => hQ) (body hi ih d hargs _ _)

variable (hground : Ground N e₀)
include hground

theorem callFrom_succ {i i' : Interpreter} (hi : Interpreter.Twin e₀.types i i') (ih : Alikeness N e₀ fuel)
    (name : Ident) (args : List Value) (hargs : ∀ v ∈ args, v.RecordsIn N) :
    SameAnswers N e₀ (Value.RecordsIn N) (Run.callFrom (fuel + 1) i name args)
      (Run.callFrom (fuel + 1) i' name args) := by
  intro e e' h
  rw [Run.callFrom, Run.callFrom, hi.types.recordNamed?_eq]
  split
  · rename_i id r hr
    obtain ⟨-, hr⟩ := recordNamed?_eq_some.1 hr
    rw [hi.construct_eq hr]
    refine (RunsAlike.ofRuntime h _).mono fun _ _ v w _ hvw => ⟨hvw.1, ?_⟩
    rw [hi.types.growsLeft.record?_eq] at hr
    exact Interpreter.construct_recordsIn (hground.records hr) hargs hvw.2
  · refine h.function? name ?_
    cases hf : e₀.functions.get? name with
    | none => exact .throw h _
    | some f =>
      cases f with
      | decorated d =>
        simp only [hi.mode]
        split
        · exact ih.callDecorated name args hargs e e' h
        · exact ih.interpret hi d args hargs e e' h
      | interpreted d => exact ih.interpret hi d args hargs e e' h
      | native n => exact ih.callNative hf args e e' h

/-! ### Compiled code -/

theorem callDecorated_succ (ih : Alikeness N e₀ fuel) (name : Ident) (args : List Value)
    (hargs : ∀ v ∈ args, v.RecordsIn N) :
    SameAnswers N e₀ (Value.RecordsIn N) (Run.callDecorated (fuel + 1) name args)
      (Run.callDecorated (fuel + 1) name args) := by
  intro e e' h
  rw [Run.callDecorated]
  refine (h.specialize hground name hargs).bind fun a a' e₁ e₁' h₁ _ _ ha => ?_
  exact h₁.countExecution.bind fun _ _ e₂ e₂' h₂ hg hg' _ => ih.runArtifact h₂ (ha.gains hg hg') args

omit hground in
/-- Results are decoded alike. -/
theorem artifactResult (h : Engine.Twin N e₀ e e') {a a' : Artifact} {t t' : TypeTable}
    (hT : Siblings e₀.types t t') (ha : Option.Rel (t.Twin t') a.returns a'.returns)
    (hN : ∀ {id r}, t.record? id = some r → N r.name) (c : Compiled) :
    YieldsSame N e₀ (Value.RecordsIn N) e e' (Run.artifactResult t a c) (Run.artifactResult t' a' c) := by
  unfold Run.artifactResult
  generalize a.returns = r at ha ⊢
  generalize a'.returns = r' at ha ⊢
  cases ha with
  | none =>
    dsimp only
    split
    · exact .pure h ⟨rfl, .incomplete⟩
    · exact .throw h _
  | some hid =>
    dsimp only
    rw [hT.decode_eq hid]
    exact (RunsAlike.ofType h _).mono fun _ _ v w _ hvw => ⟨hvw.1, decode_recordsIn hN hvw.2⟩

theorem runArtifact_succ (ih : Alikeness N e₀ fuel) (h : Engine.Twin N e₀ e e') {a a' : Artifact}
    (ha : Held e₀ e e' a a') (args : List Value) :
    YieldsSame N e₀ (Value.RecordsIn N) e e' (Run.runArtifact (fuel + 1) a args)
      (Run.runArtifact (fuel + 1) a' args) := by
  have hT := h.siblings hground
  rw [Run.runArtifact_succ, Run.runArtifact_succ]
  refine types_alike ?_
  rw [hT.encodeAll_eq ha.twin.signature.args]
  refine YieldsSame.bind (.ofType h _) fun cs e₁ e₁' h₁ hg hg' _ => ?_
  refine ((ha.gains hg hg').execute hground ih.callHost fuel h₁ cs).bind fun c e₂ e₂' h₂ _ _ _ => ?_
  exact artifactResult h₂ hT ha.twin.returns (hground.recordsIn h.left) c

theorem hostValue (ih : Alikeness N e₀ fuel) (h : Engine.Twin N e₀ e e') {site : HostSite}
    (hsite : e₀.functions.get? site.name = some site.function.toFunction) {vs : List Value}
    (hvs : ∀ v ∈ vs, v.RecordsIn N) :
    YieldsSame N e₀ (Value.RecordsIn N) e e' (Run.hostValue fuel site.function vs)
      (Run.hostValue fuel site.function vs) := by
  cases hf : site.function with
  | native n =>
    rw [hf] at hsite
    exact ih.callNative hsite vs e e' h
  | interpreted d =>
    refine (h.interpreter hground .host).bind fun i i' e₁ e₁' h₁ _ _ hi => ?_
    exact ih.interpret hi d vs hvs e₁ e₁' h₁

omit hground in
/-- Answers of host functions are encoded alike. -/
theorem hostResult (h : Engine.Twin N e₀ e e') {site site' : HostSite} {t t' : TypeTable}
    (hT : Siblings e₀.types t t') (hsite : site.Twin e₀.functions t t' site') (v : Value) :
    YieldsSame N e₀ (fun _ => True) e e' (Run.hostResult t site v) (Run.hostResult t' site' v) := by
  have hret := hsite.returns
  unfold Run.hostResult
  rw [← hsite.name]
  generalize site.returns = r at hret ⊢
  generalize site'.returns = r' at hret ⊢
  cases hret with
  | none =>
    dsimp only
    split
    · exact .pure h ⟨rfl, trivial⟩
    · exact .throw h _
  | some hid =>
    dsimp only
    rw [hT.encode_eq hid]
    split
    · exact .pure h ⟨rfl, trivial⟩
    · exact .throw h _

theorem callHost_succ (ih : Alikeness N e₀ fuel) : HostsAlike N e₀ (Run.callHost (fuel + 1)) := by
  intro e e' h site site' hsite cs
  have hT := h.siblings hground
  rw [Run.callHost_succ, Run.callHost_succ]
  refine types_alike ?_
  rw [hT.decodeAll_eq hsite.params, ← hsite.function]
  refine YieldsSame.bind (.ofType h _) fun vs e₁ e₁' h₁ _ _ hvs => ?_
  have hin := decodeAll_recordsIn (hground.recordsIn h.left) hvs
  refine (hostValue hground ih h₁ hsite.registered hin).bind fun v e₂ e₂' h₂ _ _ _ => ?_
  exact hostResult h₂ hT hsite v

/-! ### Native functions -/

/-- A native function that never enters the engine answers from its arguments and from the type that it
declares. -/
theorem callNative_succ {name : Ident} {n : Native} (hn : e₀.functions.get? name = some (.native n))
    (args : List Value) :
    SameAnswers N e₀ (Value.RecordsIn N) (Run.callNative (fuel + 1) n args)
      (Run.callNative (fuel + 1) n args) := by
  intro e e' h
  obtain ⟨result, hr⟩ := hground.pure name n hn args
  rw [Run.callNative, hr, Callback.perform, pure_bind]
  split
  · exact .throw h _
  · cases result with
    | error message => exact .throw h _
    | ok v =>
      have hT := h.siblings hground
      have hret : Twin e.types e'.types n.returns n.returns := hT.common (hground.natives hn)
      refine types_alike ?_
      rw [hT.normalize_eq hret]
      split
      · rename_i w hw
        exact .pure h ⟨rfl, normalize_recordsIn (hground.recordsIn h.left) hw⟩
      · exact .throw h _

/-! ### Calls -/

theorem call_succ (ih : Alikeness N e₀ fuel) (name : Ident) (args : List Value)
    (hargs : ∀ v ∈ args, v.RecordsIn N) :
    SameAnswers N e₀ (Value.RecordsIn N) (Run.call (fuel + 1) name args)
      (Run.call (fuel + 1) name args) := by
  intro e e' h
  rw [Run.call]
  refine h.function? name ?_
  cases hf : e₀.functions.get? name with
  | none => exact .throw h _
  | some f =>
    cases f with
    | decorated d => exact ih.callDecorated name args hargs e e' h
    | interpreted d =>
      refine (h.interpreter hground .host).bind fun i i' e₁ e₁' h₁ _ _ hi => ?_
      exact ih.interpret hi d args hargs e₁ e₁' h₁
    | native n => exact ih.callNative hf args e e' h

/-- Whatever runs code has the same answers in twins. -/
theorem all (fuel : Nat) : Alikeness N e₀ fuel := by
  induction fuel with
  | zero =>
    exact ⟨fun _ _ _ _ _ _ _ => .halt _, fun _ _ _ _ _ _ _ => .halt _, fun _ _ _ _ _ _ => .halt _,
      fun _ _ _ _ _ => .halt _, fun _ _ _ _ _ _ _ => .halt _, fun _ _ _ _ _ => .halt _,
      fun _ _ _ _ _ _ => .halt _⟩
  | succ fuel ih =>
    exact {
      interpret := fun hi => interpret_succ hi ih
      callFrom := fun hi => callFrom_succ hground hi ih
      callDecorated := callDecorated_succ hground ih
      runArtifact := fun h _ _ ha => runArtifact_succ hground ih h ha
      callHost := callHost_succ hground ih
      callNative := fun hn => callNative_succ hground hn
      call := call_succ hground ih }

end Alikeness

/-- A verification has the same answer in twins. -/
theorem Engine.Ground.verify (hground : Ground N e₀) (fuel : Nat) (name : Ident) {args : List Value}
    (hargs : ∀ v ∈ args, v.RecordsIn N) :
    SameAnswers N e₀ (Value.RecordsIn N) (Run.verify fuel name args) (Run.verify fuel name args) := by
  intro e e' h
  have hall : Alikeness N e₀ fuel := .all hground fuel
  unfold Run.verify
  refine h.function? name ?_
  cases hf : e₀.functions.get? name with
  | none => exact .throw h _
  | some f =>
    cases f with
    | decorated d =>
      refine (hall.callDecorated name args hargs e e' h).bind fun v e₁ e₁' h₁ _ _ hv => ?_
      refine (h₁.signatureOf name hargs).bind fun s s' e₂ e₂' h₂ _ _ hs => types_alike ?_
      rw [(h₂.siblings hground).normalizeAll_eq hs.args]
      refine YieldsSame.bind (.ofType h₂ _) fun vs e₃ e₃' h₃ _ _ hvs => ?_
      have hin := normalizeAll_recordsIn (hground.recordsIn h₂.left) hvs
      refine (h₃.interpreter hground .reference).bind fun i i' e₄ e₄' h₄ _ _ hi => ?_
      refine (hall.interpret hi d vs hin e₄ e₄' h₄).bind fun w e₅ e₅' h₅ _ _ _ => ?_
      split
      · exact .pure h₅ ⟨rfl, hv⟩
      · exact .throw h₅ _
    | interpreted d => exact hall.call name args hargs e e' h
    | native n => exact hall.call name args hargs e e' h

end ShapeCompiler
