import ShapeCompiler.Proofs.Simulation.Outcome

/-!
Interpretations of one program on two sides with different values.

If every step of the interpreter takes related values to related values, and so do calls, then whatever
a run on one side yields, the reference yields a related value on the other (`Follows.body`). Unlike
with `Relation`, the values need not be the same, and failures are not compared.
-/

namespace ShapeCompiler

variable {α β γ δ : Type} {e e' : Engine}

/-- Where a run yields a value, a related one is among the answers. -/
def Follows (R : α → β → Prop) (p : Answers β) (e : Engine) (x : Run α) : Prop :=
  ∀ a e', e.run x = .ok (.ok a, e') → e.Extends True e' ∧ ∃ b, p (.ok b) ∧ R a b

namespace Follows

variable {R : α → β → Prop} {S : γ → δ → Prop} {p q : Answers β} {x : Run α}

theorem pure {a : α} {b : β} (h : R a b) : Follows R (Pure.pure b) e (Pure.pure a) := by
  intro a' e' hr
  cases hr
  exact ⟨.refl e, b, rfl, h⟩

theorem throw (err : Error) : Follows R p e (MonadExceptOf.throw err) := fun _ _ hr => by cases hr

theorem halt (why : Halt) : Follows R p e (MonadHalt.halt why) := fun _ _ hr => by cases hr

theorem bind {f : α → Run γ} {g : β → Answers δ} (hx : Follows R p e x)
    (hf : ∀ a b e', e.Extends True e' → R a b → Follows S (g b) e' (f a)) :
    Follows S (p >>= g) e (x >>= f) := by
  intro c e₂ hr
  rcases Engine.run_bind_eq_ok.1 hr with ⟨a, e₁, h₁, h₂⟩ | ⟨err, -, herr⟩
  · obtain ⟨hext, b, hb, hR⟩ := hx a e₁ h₁
    obtain ⟨hext', d, hd, hS⟩ := hf a b e₁ hext hR c e₂ h₂
    exact ⟨hext.trans hext', d, Answers.bind_ok hb hd, hS⟩
  · cases herr

theorem of_answers (h : ∀ b, p (.ok b) → q (.ok b)) (hx : Follows R p e x) : Follows R q e x := by
  intro a e' hr
  obtain ⟨hext, b, hb, hR⟩ := hx a e' hr
  exact ⟨hext, b, h b hb, hR⟩

theorem step {y : Except RuntimeError α} {z : Except RuntimeError β}
    (h : ∀ a, y = .ok a → ∃ b, z = .ok b ∧ R a b) :
    Follows R (Interpreter.step z) e (Interpreter.step y) := by
  cases y with
  | error f => exact .throw _
  | ok a =>
    obtain ⟨b, rfl, hR⟩ := h a rfl
    exact .pure hR

end Follows

namespace Interpreter

/-! ### Related scopes -/

/-- Bindings of the same names to related values, in the same order. -/
def BoundWith (R : Value → Value → Prop) : List (Ident × Value) → List (Ident × Value) → Prop :=
  List.Forall₂ fun b b' => b.1 = b'.1 ∧ R b.2 b'.2

/-- What has a value on one side has a related one on the other. -/
def EnvWith (R : Value → Value → Prop) (env env' : Env) : Prop :=
  ∀ name v, env.get? name = some v → ∃ w, env'.get? name = some w ∧ R v w

/-- Blocks that both go on, or that both end the function, with related values. -/
inductive FlowWith (R : Value → Value → Prop) : Flow → Flow → Prop
  | next {env env' : Env} (h : EnvWith R env env') : FlowWith R (.next env) (.next env')
  | returned {v w : Value} (h : R v w) : FlowWith R (.returned v) (.returned w)

variable {R : Value → Value → Prop} {env env' : Env}

theorem EnvWith.insert (h : EnvWith R env env') {name : Ident} {v w : Value} (hv : R v w) :
    EnvWith R (env.insert name v) (env'.insert name w) := by
  intro other x hx
  rw [Assoc.get?_insert] at hx ⊢
  split at hx
  · rename_i hname
    cases hx
    exact ⟨w, if_pos hname, hv⟩
  · rename_i hname
    rw [if_neg hname]
    exact h other x hx

theorem EnvWith.insertAll (h : EnvWith R env env') {bound bound' : List (Ident × Value)}
    (hb : BoundWith R bound bound') : EnvWith R (env.insertAll bound) (env'.insertAll bound') := by
  unfold Assoc.insertAll
  induction hb generalizing env env' with
  | nil => exact h
  | @cons p p' _ _ hp _ ih =>
    refine ih ?_
    show EnvWith R (env.insert p.1 p.2) (env'.insert p'.1 p'.2)
    rw [← hp.1]
    exact h.insert hp.2

theorem boundWith_zip {vs ws : List Value} (h : List.Forall₂ R vs ws) (names : List Ident) :
    BoundWith R (names.zip vs) (names.zip ws) := by
  induction h generalizing names with
  | nil => simp [BoundWith]
  | cons hv _ ih =>
    cases names with
    | nil => exact .nil
    | cons name names => exact .cons ⟨rfl, hv⟩ (ih names)

/-- Arms that are picked alike, with related bindings. -/
def PickedWith (R : Value → Value → Prop) : Option (Nat × List (Ident × Value)) →
    Option (Nat × List (Ident × Value)) → Prop :=
  Option.Rel fun p p' => p.1 = p'.1 ∧ BoundWith R p.2 p'.2

/-- What steps of one interpreter yield for some values, steps of the other one yield for related ones,
with related results. -/
structure Carries (R : Value → Value → Prop) (i i' : Interpreter) : Prop where
  literal : ∀ n, R (.uint (Uint.wrap i.defaultBits n)) (.uint (Uint.wrap i'.defaultBits n))
  incomplete : R .incomplete .incomplete
  binary : ∀ {op a a' b b' v}, R a a' → R b b' → i.binary op a b = .ok v →
    ∃ w, i'.binary op a' b' = .ok w ∧ R v w
  field : ∀ {name a a' v}, R a a' → i.field a name = .ok v → ∃ w, i'.field a' name = .ok w ∧ R v w
  selectArm : ∀ {patterns a a' s}, R a a' → i.selectArm a patterns = .ok s →
    ∃ s', i'.selectArm a' patterns = .ok s' ∧ PickedWith R s s'
  holds : ∀ {a a' go}, R a a' → i.holds a = .ok go → i'.holds a' = .ok go

end Interpreter

namespace Follows

open Interpreter

variable {i i' : Interpreter} {R : Value → Value → Prop} {P : Engine → Prop}
  {call : Ident → List Value → Run Value} {call' : Ident → List Value → Answers Value} {fuel : Nat}

/-! ### Expressions -/

section Given

variable (hP : Engine.Stable True P)
include hP

theorem exprs_of {es : List Expr}
    (ih : ∀ ex ∈ es, ∀ env env' e, P e → EnvWith R env env' →
      Follows R (i'.expr call' env' ex) e (i.expr call env ex))
    {env env' : Env} {e : Engine} (he : P e) (henv : EnvWith R env env') :
    Follows (List.Forall₂ R) (i'.exprs call' env' es) e (i.exprs call env es) := by
  induction es generalizing e with
  | nil =>
    rw [Interpreter.exprs, Interpreter.exprs]
    exact .pure .nil
  | cons ex rest ihs =>
    rw [Interpreter.exprs, Interpreter.exprs]
    refine .bind (ih ex (by simp) env env' e he henv) fun v w e₁ hx₁ hv => ?_
    have he₁ := hP _ _ hx₁ he
    refine .bind (ihs (fun x hx => ih x (List.mem_cons_of_mem _ hx)) he₁) fun vs ws e₂ _ hvs => ?_
    exact .pure (.cons hv hvs)

variable (hi : Carries R i i')
include hi

omit hP in
theorem exprArm_of {arms : List (Arm Expr)}
    (ih : ∀ a ∈ arms, ∀ env env' e, P e → EnvWith R env env' →
      Follows R (i'.expr call' env' a.body) e (i.expr call env a.body))
    {env env' : Env} {e : Engine} (he : P e) (henv : EnvWith R env env') (index : Nat) :
    Follows R (i'.exprArm call' env' index arms) e (i.exprArm call env index arms) := by
  induction arms generalizing index with
  | nil =>
    rw [Interpreter.exprArm, Interpreter.exprArm]
    exact .pure hi.incomplete
  | cons a rest ihs =>
    cases index with
    | zero => exact ih a (by simp) env env' e he henv
    | succ index => exact ihs (fun x hx => ih x (List.mem_cons_of_mem _ hx)) index

variable (hcall : ∀ name vs ws e, P e → List.Forall₂ R vs ws →
  Follows R (call' name ws) e (call name vs))
include hcall

theorem expr (ex : Expr) : ∀ env env' e, P e → EnvWith R env env' →
    Follows R (i'.expr call' env' ex) e (i.expr call env ex) := by
  induction ex using Expr.ind with
  | lit n =>
    intro env env' e _ _
    rw [Interpreter.expr, Interpreter.expr]
    exact .pure (hi.literal n)
  | var name =>
    intro env env' e _ henv
    rw [Interpreter.expr, Interpreter.expr]
    cases hv : env.get? name with
    | none => exact .throw _
    | some v =>
      obtain ⟨w, hw, hR⟩ := henv name v hv
      rw [hw]
      exact .pure hR
  | binary op lhs rhs ihl ihr =>
    intro env env' e he henv
    rw [Interpreter.expr, Interpreter.expr]
    refine .bind (ihl env env' e he henv) fun a a' e₁ hx₁ ha => ?_
    refine .bind (ihr env env' e₁ (hP _ _ hx₁ he) henv) fun b b' e₂ _ hb => ?_
    exact .step fun v hv => hi.binary ha hb hv
  | call name args ih =>
    intro env env' e he henv
    rw [Interpreter.expr, Interpreter.expr]
    refine .bind (exprs_of hP ih he henv) fun vs ws e₁ hx₁ hvs => ?_
    exact hcall name vs ws e₁ (hP _ _ hx₁ he) hvs
  | field subject name ih =>
    intro env env' e he henv
    rw [Interpreter.expr, Interpreter.expr]
    refine .bind (ih env env' e he henv) fun a a' e₁ _ ha => ?_
    exact .step fun v hv => hi.field ha hv
  | branch subject arms ihs iha =>
    intro env env' e he henv
    rw [Interpreter.expr, Interpreter.expr]
    refine .bind (ihs env env' e he henv) fun v w e₁ hx₁ hv => ?_
    refine .bind (.step fun s hs => hi.selectArm hv hs) fun s s' e₂ hx₂ hs => ?_
    have he₂ := hP _ _ (hx₁.trans hx₂) he
    cases hs with
    | none => exact .pure hi.incomplete
    | @some p p' hp =>
      show Follows R (i'.exprArm call' (env'.insertAll p'.2) p'.1 arms) e₂
        (i.exprArm call (env.insertAll p.2) p.1 arms)
      rw [← hp.1]
      exact exprArm_of hi iha he₂ (henv.insertAll hp.2) p.1
  | incomplete =>
    intro env env' e _ _
    rw [Interpreter.expr, Interpreter.expr]
    exact .pure hi.incomplete

/-! ### Blocks -/

omit hcall in
theorem repeatWhile {condition : Env → Run Value} {condition' : Env → Answers Value}
    {body : Env → Run Flow} {body' : Env → Answers Flow}
    (hc : ∀ env env' e, P e → EnvWith R env env' → Follows R (condition' env') e (condition env))
    (hb : ∀ env env' e, P e → EnvWith R env env' → Follows (FlowWith R) (body' env') e (body env)) :
    ∀ env env' e, P e → EnvWith R env env' → Follows (FlowWith R)
      (i'.repeatWhile condition' body' fuel env') e (i.repeatWhile condition body fuel env) := by
  induction fuel with
  | zero => exact fun _ _ _ _ _ => .halt _
  | succ fuel ih =>
    intro env env' e he henv
    rw [Interpreter.repeatWhile, Interpreter.repeatWhile]
    refine .bind (hc env env' e he henv) fun v w e₁ hx₁ hv => ?_
    refine .bind (R := Eq) (.step fun go hgo => ⟨go, hi.holds hv hgo, rfl⟩) fun go go' e₂ hx₂ hgo => ?_
    subst hgo
    have he₂ := hP _ _ (hx₁.trans hx₂) he
    cases go with
    | false => exact .pure (.next henv)
    | true =>
      refine .bind (hb env env' e₂ he₂ henv) fun flow flow' e₃ hx₃ hflow => ?_
      cases hflow with
      | returned h => exact .pure (.returned h)
      | next h => exact ih _ _ e₃ (hP _ _ hx₃ he₂) h

omit hP hi hcall in
theorem blockArm_of {arms : List (Arm (List Stmt))}
    (ih : ∀ a ∈ arms, ∀ env env' e, P e → EnvWith R env env' →
      Follows (FlowWith R) (i'.block call' fuel env' a.body) e (i.block call fuel env a.body))
    {env env' : Env} {e : Engine} (he : P e) (henv : EnvWith R env env') (index : Nat) :
    Follows (FlowWith R) (i'.blockArm call' fuel env' index arms) e
      (i.blockArm call fuel env index arms) := by
  induction arms generalizing index with
  | nil =>
    rw [Interpreter.blockArm, Interpreter.blockArm]
    exact .pure (.next henv)
  | cons a rest ihs =>
    cases index with
    | zero =>
      rw [Interpreter.blockArm, Interpreter.blockArm]
      exact ih a (by simp) env env' e he henv
    | succ index =>
      rw [Interpreter.blockArm, Interpreter.blockArm]
      exact ihs (fun x hx => ih x (List.mem_cons_of_mem _ hx)) index

theorem block (stmts : List Stmt) : ∀ env env' e, P e → EnvWith R env env' →
    Follows (FlowWith R) (i'.block call' fuel env' stmts) e (i.block call fuel env stmts) := by
  induction stmts using Block.ind with
  | nil =>
    intro env env' e _ henv
    rw [Interpreter.block, Interpreter.block]
    exact .pure (.next henv)
  | assign name value rest ih =>
    intro env env' e he henv
    rw [Interpreter.block, Interpreter.block]
    refine .bind (expr hP hi hcall value env env' e he henv) fun v w e₁ hx₁ hv => ?_
    exact ih _ _ e₁ (hP _ _ hx₁ he) (henv.insert hv)
  | ret value rest =>
    intro env env' e he henv
    rw [Interpreter.block, Interpreter.block]
    exact .bind (expr hP hi hcall value env env' e he henv) fun v w e₁ _ hv => .pure (.returned hv)
  | eval value rest ih =>
    intro env env' e he henv
    rw [Interpreter.block, Interpreter.block]
    refine .bind (expr hP hi hcall value env env' e he henv) fun _ _ e₁ hx₁ _ => ?_
    exact ih env env' e₁ (hP _ _ hx₁ he) henv
  | branch subject arms rest iha ih =>
    intro env env' e he henv
    rw [Interpreter.block, Interpreter.block]
    refine .bind (expr hP hi hcall subject env env' e he henv) fun v w e₁ hx₁ hv => ?_
    refine .bind (.step fun s hs => hi.selectArm hv hs) fun s s' e₂ hx₂ hs => ?_
    have he₂ := hP _ _ (hx₁.trans hx₂) he
    refine .bind (R := FlowWith R) ?_ fun flow flow' e₃ hx₃ hflow => ?_
    · cases hs with
      | none => exact .pure (.next henv)
      | @some p p' hp =>
        show Follows (FlowWith R) (i'.blockArm call' fuel (env'.insertAll p'.2) p'.1 arms) e₂
          (i.blockArm call fuel (env.insertAll p.2) p.1 arms)
        rw [← hp.1]
        exact blockArm_of iha he₂ (henv.insertAll hp.2) p.1
    · cases hflow with
      | returned h => exact .pure (.returned h)
      | next _ => exact ih env env' e₃ (hP _ _ hx₃ he₂) henv
  | loop condition body rest ihb ih =>
    intro env env' e he henv
    rw [Interpreter.block, Interpreter.block]
    refine .bind (repeatWhile hP hi (expr hP hi hcall condition) ihb env env' e he henv)
      fun flow flow' e₁ hx₁ hflow => ?_
    cases hflow with
    | returned h => exact .pure (.returned h)
    | next h => exact ih _ _ e₁ (hP _ _ hx₁ he) h

/-- If calls go alike on related arguments, so do bodies. -/
theorem body (d : FunctionDef) {vs ws : List Value} {e : Engine} (he : P e)
    (hvs : List.Forall₂ R vs ws) :
    Follows R (i'.body call' fuel d ws) e (i.body call fuel d vs) := by
  unfold Interpreter.body
  have henv : EnvWith R (Assoc.ofList (d.params.zip vs)) (Assoc.ofList (d.params.zip ws)) :=
    EnvWith.insertAll (fun _ _ h => by cases h) (boundWith_zip hvs d.params)
  refine .bind (block hP hi hcall d.body _ _ e he henv) fun flow flow' e₁ _ hflow => ?_
  cases hflow with
  | returned h => exact .pure h
  | next _ => exact .pure hi.incomplete

end Given

end Follows

end ShapeCompiler
