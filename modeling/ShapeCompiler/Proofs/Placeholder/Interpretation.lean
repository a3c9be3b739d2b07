import ShapeCompiler.Proofs.Placeholder.Engines
import ShapeCompiler.Proofs.Typing.Plan

/-!
The interpreter sees no replacement that spares the arms which read the placeholder.

Two scopes are compared up to the placeholder, unless what runs in them reads it. An arm whose pattern is
replaced runs in scopes that differ in the placeholder only, and does not read it. Main statements: an
expression has the same answer (`RunsSame.expr`), a block goes on alike (`RunsSame.block`), and so the body
of a function has the same answer (`RunsSame.body`).
-/

namespace ShapeCompiler

variable {r : Replacement} {env env' : Env} {b b' : Bool}

/-- The scopes bind every name to the same value; the placeholder only if it can be read. -/
def Env.Same (b : Bool) (env env' : Env) : Prop :=
  ∀ name, (name = placeholder → b = true) → env'.get? name = env.get? name

/-- A block goes on in scopes that are the same, or ends the function with the same value. -/
inductive Flow.Same (b : Bool) : Flow → Flow → Prop
  | next {env env' : Env} (h : Env.Same b env env') : Flow.Same b (.next env) (.next env')
  | returned (v : Value) : Flow.Same b (.returned v) (.returned v)

namespace Env.Same

theorem refl (b : Bool) (env : Env) : Env.Same b env env := fun _ _ => rfl

theorem mono (h : Env.Same b env env') (hb : b' = true → b = true) : Env.Same b' env env' :=
  fun name hn => h name fun hp => hb (hn hp)

theorem insert (h : Env.Same b env env') (name : Ident) (v : Value) :
    Env.Same b (env.insert name v) (env'.insert name v) := by
  intro n hn
  rw [Assoc.get?_insert, Assoc.get?_insert]
  split
  · rfl
  · exact h n hn

theorem insertAll (h : Env.Same b env env') (bound : List (Ident × Value)) :
    Env.Same b (env.insertAll bound) (env'.insertAll bound) := by
  unfold Assoc.insertAll
  induction bound generalizing env env' with
  | nil => exact h
  | cons p rest ih => exact ih (h.insert p.1 p.2)

/-- After the placeholder is bound on both sides, the scopes are the same in full. -/
theorem insert_placeholder (h : Env.Same b env env') (v : Value) :
    Env.Same true (env.insert placeholder v) (env'.insert placeholder v) := by
  intro n _
  rw [Assoc.get?_insert, Assoc.get?_insert]
  split
  · rfl
  · rename_i hn
    exact h n fun hp => absurd hp.symm hn

/-- Binding the placeholder on one side makes no difference where it is not read. -/
theorem insert_left (h : Env.Same b env env') (v : Value) :
    Env.Same false (env.insert placeholder v) env' := by
  intro n hn
  have hp : placeholder ≠ n := fun hp => Bool.false_ne_true (hn hp.symm)
  rw [Assoc.get?_insert, if_neg hp]
  exact h n fun hp' => absurd hp'.symm hp

end Env.Same

theorem Flow.Same.mono {flow flow' : Flow} (h : Flow.Same b flow flow') (hb : b' = true → b = true) :
    Flow.Same b' flow flow' := by
  cases h with
  | next h => exact .next (h.mono hb)
  | returned v => exact .returned v

/-! ### Picking an arm -/

/-- What a pattern binds on both sides leaves scopes that are the same, as far as the arm reads them. -/
def SameScope (p : Pattern) (reads : Bool) (bound bound' : List (Ident × Value)) : Prop :=
  ∀ b env env', ((!p.binds_ && reads) = true → b = true) → Env.Same b env env' →
    Env.Same reads (env.insertAll bound) (env'.insertAll bound')

theorem SameScope.refl {p : Pattern} (hp : p.binds_ = false) (reads : Bool) (bound : List (Ident × Value)) :
    SameScope p reads bound bound := by
  intro b env env' hb h
  rw [hp] at hb
  exact (h.mono hb).insertAll bound

namespace Interpreter

variable (i : Interpreter)

theorem bindings_replace (p : Pattern) (reads : Bool) (v : Value) :
    Parallel (Option.Rel (SameScope p reads)) (i.bindings p v) (i.bindings (p.replace .unread reads) v) := by
  rcases p.replace_cases reads with h | ⟨rfl, h, hreads⟩
  · rw [h]
    cases hp : p.binds_ with
    | false =>
      refine .of_eq rfl fun bound _ => ?_
      cases bound with
      | none => exact .none
      | some bound => exact .some (.refl hp reads bound)
    | true =>
      obtain rfl := p.eq_of_binds_ hp
      exact .ok (.some fun b env env' _ h => (h.insert_placeholder v).mono fun _ => rfl)
  · rw [h, hreads rfl]
    exact .ok (.some fun b env env' _ h => h.insert_left v)

/-- Both sides pick the arm at the same position. -/
theorem selectFrom_replace (v : Value) (index : Nat) (ps : List (Pattern × Bool)) :
    Parallel (Option.Rel fun q q' => q'.1 = q.1 ∧ ∃ j p, q.1 = index + j ∧ ps[j]? = some p ∧
        SameScope p.1 p.2 q.2 q'.2)
      (i.selectFrom v index (ps.map Prod.fst))
      (i.selectFrom v index (ps.map fun p => p.1.replace .unread p.2)) := by
  induction ps generalizing index with
  | nil => exact .ok .none
  | cons p rest ih =>
    have hb := i.bindings_replace p.1 p.2 v
    rw [List.map_cons, List.map_cons, selectFrom, selectFrom]
    generalize i.bindings p.1 v = x at hb ⊢
    generalize i.bindings (p.1.replace .unread p.2) v = y at hb ⊢
    cases hb with
    | error e => exact .error e
    | ok hb =>
      cases hb with
      | some hb => exact .ok (.some ⟨rfl, 0, p, rfl, rfl, hb⟩)
      | none =>
        refine (ih (index + 1)).mono fun q q' hq => ?_
        cases hq with
        | none => exact .none
        | some hq =>
          obtain ⟨he, j, p', hj, hp', hscope⟩ := hq
          exact .some ⟨he, j + 1, p', by omega, hp', hscope⟩

end Interpreter

/-! ### Expressions -/

namespace RunsSame

variable {i : Interpreter} {call call' : Ident → List Value → Run Value}

theorem step {x : Except RuntimeError α} {y : Except RuntimeError β} {Q : α → β → Prop} (h : Parallel Q x y) :
    RunsSame r Q (Interpreter.step x) (Interpreter.step y) := by
  cases h with
  | ok h => exact .pure h
  | error e => exact .throw _

/-- An expression has the same answer in scopes that are the same as far as it reads them. -/
def ExprSame (r : Replacement) (i : Interpreter) (call call' : Ident → List Value → Run Value)
    (e : Expr) : Prop :=
  ∀ b env env', (e.reads = true → b = true) → Env.Same b env env' →
    RunsSame r Eq (i.expr call env e) (i.expr call' env' (e.replace .unread))

theorem exprs {es : List Expr} (ih : ∀ e ∈ es, ExprSame r i call call' e) {b : Bool} {env env' : Env}
    (hb : Expr.anyReads es = true → b = true) (h : Env.Same b env env') :
    RunsSame r Eq (i.exprs call env es) (i.exprs call' env' (Expr.replaceAll .unread es)) := by
  induction es with
  | nil => exact .pure rfl
  | cons e rest ihs =>
    rw [Expr.replaceAll, Interpreter.exprs, Interpreter.exprs]
    rw [Expr.anyReads, Bool.or_eq_true] at hb
    refine (ih e (by simp) b env env' (fun he => hb (.inl he)) h).andThen fun v => ?_
    refine (ihs (fun x hx => ih x (List.mem_cons_of_mem e hx)) fun he => hb (.inr he)).andThen fun vs => ?_
    exact .pure rfl

/-- The picked arms stand at the same position, and their scopes are the same as far as they are read. -/
theorem selectArm {β : Type} (reads : β → Bool) (v : Value) (arms : List (Arm β)) :
    RunsSame r (Option.Rel fun q q' => q'.1 = q.1 ∧ ∃ a, arms[q.1]? = some a ∧
        SameScope a.pattern (reads a.body) q.2 q'.2)
      (Interpreter.step (i.selectArm v (arms.map (·.pattern))))
      (Interpreter.step (i.selectArm v (arms.map fun a => a.pattern.replace .unread (reads a.body)))) := by
  have h := i.selectFrom_replace v 0 (arms.map fun a => (a.pattern, reads a.body))
  rw [List.map_map, List.map_map] at h
  refine (step h).mono fun q q' hq => ?_
  cases hq with
  | none => exact .none
  | some hq =>
    obtain ⟨he, j, p, hj, hp, hscope⟩ := hq
    obtain ⟨a, ha, rfl⟩ : ∃ a, arms[j]? = some a ∧ (a.pattern, reads a.body) = p := by simpa using hp
    exact .some ⟨he, a, by rwa [hj, Nat.zero_add], hscope⟩

variable (hcall : ∀ name args, RunsSame r Eq (call name args) (call' name args))
include hcall

theorem expr (e : Expr) : ExprSame r i call call' e := by
  induction e using Expr.ind with
  | lit n => exact fun b env env' _ _ => .pure rfl
  | var name =>
    intro b env env' hb h
    rw [Expr.replace, Interpreter.expr, Interpreter.expr,
      h name fun hn => hb (isPlaceholder_iff.2 hn)]
    cases env.get? name with
    | some v => exact .pure rfl
    | none => exact .throw _
  | binary op lhs rhs ihl ihr =>
    intro b env env' hb h
    rw [Expr.reads, Bool.or_eq_true] at hb
    rw [Expr.replace, Interpreter.expr, Interpreter.expr]
    refine (ihl b env env' (fun he => hb (.inl he)) h).andThen fun v => ?_
    refine (ihr b env env' (fun he => hb (.inr he)) h).andThen fun w => ?_
    exact .step (.of_eq rfl fun _ _ => rfl)
  | call name args ih =>
    intro b env env' hb h
    rw [Expr.replace, Interpreter.expr, Interpreter.expr]
    exact (exprs ih hb h).andThen fun vs => hcall name vs
  | field subject name ih =>
    intro b env env' hb h
    rw [Expr.replace, Interpreter.expr, Interpreter.expr]
    exact (ih b env env' hb h).andThen fun v => .step (.of_eq rfl fun _ _ => rfl)
  | branch subject arms ihs iha =>
    intro b env env' hb h
    rw [Expr.reads, Bool.or_eq_true] at hb
    rw [Expr.replace, Interpreter.expr, Interpreter.expr, Expr.replaceArms_eq_map, List.map_map]
    refine (ihs b env env' (fun he => hb (.inl he)) h).andThen fun v => ?_
    refine (selectArm Expr.reads v arms).bind fun q q' hq => ?_
    cases hq with
    | none => exact .pure rfl
    | some hq =>
      obtain ⟨he, a, ha, hscope⟩ := hq
      have hmem := List.mem_of_getElem? ha
      have harm := hscope b env env' (fun h => hb (.inr (Expr.armsRead_of_mem hmem h))) h
      dsimp only
      rw [he, Interpreter.exprArm_eq _ ha, Interpreter.exprArm_eq _ (by rw [List.getElem?_map, ha]; rfl)]
      exact iha a hmem a.body.reads _ _ id harm
  | incomplete => exact fun b env env' _ _ => .pure rfl

/-! ### Blocks -/

/-- A block goes on alike in scopes that are the same as far as it reads them. -/
def BlockSame (r : Replacement) (i : Interpreter) (call call' : Ident → List Value → Run Value)
    (fuel : Nat) (stmts : List Stmt) : Prop :=
  ∀ b env env', (Block.reads stmts = true → b = true) → Env.Same b env env' →
    RunsSame r (Flow.Same b) (i.block call fuel env stmts)
      (i.block call' fuel env' (Block.replace .unread stmts))

omit hcall in
/-- A loop goes on alike if its condition and its body do. -/
theorem repeatWhile {b : Bool} {condition condition' : Env → Run Value} {body body' : Env → Run Flow}
    (hc : ∀ env env', Env.Same b env env' → RunsSame r Eq (condition env) (condition' env'))
    (hbody : ∀ env env', Env.Same b env env' → RunsSame r (Flow.Same b) (body env) (body' env'))
    (fuel : Nat) {env env' : Env} (h : Env.Same b env env') :
    RunsSame r (Flow.Same b) (i.repeatWhile condition body fuel env)
      (i.repeatWhile condition' body' fuel env') := by
  induction fuel generalizing env env' with
  | zero => exact .halt _
  | succ fuel ih =>
    rw [Interpreter.repeatWhile, Interpreter.repeatWhile]
    refine (hc env env' h).andThen fun v => ?_
    refine (step (.of_eq rfl fun _ _ => rfl)).andThen fun go => ?_
    cases go with
    | false => exact .pure (.next h)
    | true =>
      refine (hbody env env' h).bind fun flow flow' hflow => ?_
      cases hflow with
      | next h => exact ih h
      | returned v => exact .pure (.returned v)

theorem block (fuel : Nat) (stmts : List Stmt) : BlockSame r i call call' fuel stmts := by
  induction stmts using Block.ind with
  | nil =>
    intro b env env' _ h
    rw [Block.replace, Interpreter.block, Interpreter.block]
    exact .pure (.next h)
  | assign name value rest ih =>
    intro b env env' hb h
    rw [Block.reads, Bool.or_eq_true] at hb
    rw [Block.replace, Interpreter.block, Interpreter.block]
    refine (expr hcall value b env env' (fun he => hb (.inl he)) h).andThen fun v => ?_
    cases hp : Ident.isPlaceholder name with
    | true =>
      -- both sides bind the placeholder anew, so the rest may read it
      obtain rfl := isPlaceholder_iff.1 hp
      refine (ih true _ _ (fun _ => rfl) (h.insert_placeholder v)).mono fun _ _ hflow => ?_
      exact hflow.mono fun _ => rfl
    | false =>
      refine ih b _ _ (fun he => hb (.inr ?_)) (h.insert name v)
      rw [hp, he]
      rfl
  | ret value rest =>
    intro b env env' hb h
    rw [Block.replace, Interpreter.block, Interpreter.block]
    refine (expr hcall value b env env' (fun he => hb ?_) h).andThen fun v => .pure (.returned v)
    rwa [Block.reads]
  | eval value rest ih =>
    intro b env env' hb h
    rw [Block.reads, Bool.or_eq_true] at hb
    rw [Block.replace, Interpreter.block, Interpreter.block]
    refine (expr hcall value b env env' (fun he => hb (.inl he)) h).andThen fun _ => ?_
    exact ih b env env' (fun he => hb (.inr he)) h
  | branch subject arms rest iha ih =>
    intro b env env' hb h
    rw [Block.reads, Bool.or_eq_true, Bool.or_eq_true] at hb
    rw [Block.replace, Interpreter.block, Interpreter.block, Block.replaceArms_eq_map, List.map_map]
    refine (expr hcall subject b env env' (fun he => hb (.inl (.inl he))) h).andThen fun v => ?_
    refine (selectArm Block.reads v arms).bind fun q q' hq => ?_
    refine RunsSame.bind (Q := Flow.Same false) ?_ fun flow flow' hflow => ?_
    · cases hq with
      | none => exact .pure (.next (h.mono fun he => absurd he Bool.false_ne_true))
      | some hq =>
        obtain ⟨he, a, ha, hscope⟩ := hq
        have hmem := List.mem_of_getElem? ha
        have harm := hscope b env env' (fun h => hb (.inl (.inr (Block.armsRead_of_mem hmem h)))) h
        rw [Option.elim_some, Option.elim_some, he, Interpreter.blockArm_eq _ _ ha,
          Interpreter.blockArm_eq _ _ (by rw [List.getElem?_map, ha]; rfl)]
        refine (iha a hmem _ _ _ id harm).mono fun _ _ hflow => ?_
        exact hflow.mono fun he => absurd he Bool.false_ne_true
    · cases hflow with
      | next _ => exact ih b env env' (fun he => hb (.inr he)) h
      | returned v => exact .pure (.returned v)
  | loop condition body rest ihb ih =>
    intro b env env' hb h
    rw [Block.reads, Bool.or_eq_true, Bool.or_eq_true] at hb
    rw [Block.replace, Interpreter.block, Interpreter.block]
    refine (repeatWhile (fun env env' h => expr hcall condition b env env' (fun he => hb (.inl (.inl he))) h)
      (fun env env' h => ihb b env env' (fun he => hb (.inl (.inr he))) h) fuel h).bind
        fun flow flow' hflow => ?_
    cases hflow with
    | next h => exact ih b _ _ (fun he => hb (.inr he)) h
    | returned v => exact .pure (.returned v)

theorem body (fuel : Nat) (d : FunctionDef) (args : List Value) :
    RunsSame r Eq (i.body call fuel d args) (i.body call' fuel (d.replace .unread) args) := by
  unfold Interpreter.body
  refine (block hcall fuel d.body true _ _ (fun _ => rfl) (.refl true _)).bind fun flow flow' hflow => ?_
  cases hflow with
  | next _ => exact .pure rfl
  | returned v => exact .pure rfl

end RunsSame

end ShapeCompiler
