import ShapeCompiler.Interpreter
import ShapeCompiler.Proofs.Success
import ShapeCompiler.Proofs.Syntax

/-!
One theorem about the interpreter for every relation between two ways to run it.

The interpreter works in any monad and is given what a call means. Main statement: if two meanings
of calls are related on certain values, by a relation that sequences of requests keep, then so are
the two interpretations of a body (`Relation.body`), and both stay within these values.
-/

namespace ShapeCompiler

/-! ### Errors of the interpreter -/

/-- Errors that some step of the interpreter or of a machine instruction can raise. -/
def RuntimeError.Ordinary : RuntimeError → Prop
  | missingReturn _ => False
  | typeMismatch .result _ => False
  | typeMismatch (.hostResult _) _ => False
  | _ => True

/-- Where a value did not fit, it was the sentinel; numbers are only listed beside it. -/
def RuntimeError.OverSentinel : RuntimeError → Prop
  | .typeMismatch place found => .sentinel ∈ found ∧ ∀ x ∈ found,
      x = .sentinel ∨ (∃ op, place = .operator op) ∧ ∃ description, x = .integer description
  | _ => True

theorem overSentinel_single (place : Place) : (RuntimeError.typeMismatch place [.sentinel]).OverSentinel :=
  ⟨by simp, fun x hx => .inl (List.mem_singleton.1 hx)⟩

namespace Interpreter

variable {i i' : Interpreter} {e : RuntimeError}

theorem binary_ordinary {op : Operator} {a b : Value} (h : i.binary op a b = .error e) :
    e.Ordinary := by
  unfold binary at h
  split at h
  · rename_i u v _ _
    unfold Operator.apply at h
    cases hw : op.onWords u.value v.value with
    | none => simp only [hw, Except.map] at h; cases h; trivial
    | some n => simp only [hw, Except.map] at h; cases h
  · cases h
    trivial

theorem field_ordinary {v : Value} {name : Ident} (h : i.field v name = .error e) : e.Ordinary := by
  unfold field at h
  split at h
  · simp only at h
    split at h
    · cases h
    · cases h; trivial
  · cases h
    trivial

theorem bindings_ordinary {p : Pattern} {v : Value} (h : i.bindings p v = .error e) :
    e.Ordinary := by
  unfold bindings at h
  split at h
  · cases h
  · cases h
  · split at h <;> cases h
  · split at h
    · split at h
      · cases h
      · split at h
        · cases h
        · split at h
          · cases h; trivial
          · cases h
    · cases h

theorem selectFrom_ordinary {v : Value} {index : Nat} {patterns : List Pattern}
    (h : i.selectFrom v index patterns = .error e) : e.Ordinary := by
  induction patterns generalizing index with
  | nil => cases h
  | cons p rest ih =>
    rw [selectFrom] at h
    split at h
    · rename_i hb
      cases h
      exact bindings_ordinary hb
    · cases h
    · exact ih h

theorem holds_ordinary {v : Value} (h : i.holds v = .error e) : e.Ordinary := by
  unfold holds at h
  split at h
  · cases h
  · cases h
    trivial

theorem coerce_ordinary {record : Ident} {f : Field} {v : Value}
    (h : i.coerce record f v = .error e) : e.Ordinary := by
  unfold coerce at h
  simp only at h
  split at h
  · split at h
    · cases h
    · cases h; trivial
  · split at h
    · split at h
      · cases h
      · cases h; trivial
    · cases h; trivial

theorem coerceAll_ordinary {record : Ident} {fs : List Field} {vs : List Value}
    (h : i.coerceAll record fs vs = .error e) : e.Ordinary := by
  induction fs generalizing vs with
  | nil => cases h
  | cons f fs ih =>
    cases vs with
    | nil => cases h
    | cons v vs =>
      rw [coerceAll] at h
      cases hv : i.coerce record f v with
      | error e' =>
        rw [hv] at h
        cases h
        exact coerce_ordinary hv
      | ok w =>
        rw [hv] at h
        cases hvs : i.coerceAll record fs vs with
        | error e' =>
          rw [hvs] at h
          cases h
          exact ih hvs
        | ok ws =>
          rw [hvs] at h
          cases h

theorem construct_ordinary {r : RecordType} {vs : List Value} (h : i.construct r vs = .error e) :
    e.Ordinary := by
  unfold construct at h
  split at h
  · cases h
    trivial
  · cases hc : i.coerceAll r.name r.fields vs with
    | error e' =>
      rw [hc] at h
      cases h
      exact coerceAll_ordinary hc
    | ok ws =>
      rw [hc] at h
      cases h

/-! ### Steps that only depend on the default width -/

theorem binary_congr (h : i.defaultBits = i'.defaultBits) (op : Operator) (a b : Value) :
    i.binary op a b = i'.binary op a b := by
  unfold binary
  rw [h]

theorem bindings_congr (h : i.defaultBits = i'.defaultBits) (p : Pattern) (v : Value) :
    i.bindings p v = i'.bindings p v := by
  unfold bindings
  rw [h]

theorem selectFrom_congr (h : i.defaultBits = i'.defaultBits) (v : Value) (index : Nat)
    (patterns : List Pattern) : i.selectFrom v index patterns = i'.selectFrom v index patterns := by
  induction patterns generalizing index with
  | nil => rfl
  | cons p rest ih =>
    rw [selectFrom, selectFrom, bindings_congr h]
    cases i'.bindings p v with
    | error e => rfl
    | ok bound =>
      cases bound with
      | none => exact ih (index + 1)
      | some bound => rfl

theorem holds_congr (h : i.defaultBits = i'.defaultBits) (v : Value) : i.holds v = i'.holds v := by
  unfold holds
  rw [h]

/-! ### The arm at a position -/

section Arms

variable {m : Type → Type} [Monad m] [MonadExceptOf Error m] {call : Ident → List Value → m Value}

theorem exprArm_eq (env : Env) {k : Nat} {arms : List (Arm Expr)} {a : Arm Expr}
    (h : arms[k]? = some a) : i.exprArm call env k arms = i.expr call env a.body := by
  induction arms generalizing k with
  | nil => cases h
  | cons b rest ih =>
    cases k with
    | zero => cases h; rfl
    | succ k => exact ih h

theorem blockArm_eq [MonadHalt m] (fuel : Nat) (env : Env) {k : Nat} {arms : List (Arm (List Stmt))}
    {a : Arm (List Stmt)} (h : arms[k]? = some a) :
    i.blockArm call fuel env k arms = i.block call fuel env a.body := by
  induction arms generalizing k with
  | nil => cases h
  | cons b rest ih =>
    cases k with
    | zero => cases h; rw [blockArm]
    | succ k => rw [blockArm]; exact ih h

end Arms

/-! ### What steps keep of values -/

/-- A class of values that no step of an interpretation leaves, and on which two agree. -/
structure Closed (V : Value → Prop) (i i' : Interpreter) : Prop where
  bits : i.defaultBits = i'.defaultBits
  uint : ∀ u, V (.uint u)
  incomplete : V .incomplete
  fields : ∀ {name vs}, V (.record name vs) → ∀ v ∈ vs, V v
  field : ∀ {v name}, V v → i.field v name = i'.field v name

theorem closed_true (i : Interpreter) : Closed (fun _ => True) i i :=
  ⟨rfl, fun _ => trivial, trivial, fun _ _ _ => trivial, fun _ => rfl⟩

/-- All variables have values of a class. -/
def EnvIn (V : Value → Prop) (env : Env) : Prop := ∀ name v, env.get? name = some v → V v

/-- A block goes on, or ends the function, with values of a class. -/
def FlowIn (V : Value → Prop) : Flow → Prop
  | .next env => EnvIn V env
  | .returned v => V v

variable {V : Value → Prop}

theorem EnvIn.insert {env : Env} (h : EnvIn V env) {name : Ident} {v : Value} (hv : V v) :
    EnvIn V (env.insert name v) := by
  intro n w hw
  rw [Assoc.get?_insert] at hw
  split at hw
  · cases hw; exact hv
  · exact h n w hw

theorem EnvIn.insertAll {env : Env} (h : EnvIn V env) {bound : List (Ident × Value)}
    (hb : ∀ p ∈ bound, V p.2) : EnvIn V (env.insertAll bound) := by
  unfold Assoc.insertAll
  induction bound generalizing env with
  | nil => exact h
  | cons p rest ih =>
    exact ih (h.insert (hb p (by simp))) fun q hq => hb q (List.mem_cons_of_mem _ hq)

theorem EnvIn.ofList {pairs : List (Ident × Value)} (hb : ∀ p ∈ pairs, V p.2) :
    EnvIn V (Assoc.ofList pairs) :=
  EnvIn.insertAll (fun _ _ h => by cases h) hb

variable (hV : Closed V i i')
include hV

theorem Closed.binary {op : Operator} {a b v : Value} (h : i.binary op a b = .ok v) : V v := by
  unfold Interpreter.binary at h
  split at h
  · obtain ⟨n, -, rfl⟩ := map_eq_ok.1 h
    exact hV.uint _
  · cases h

theorem Closed.field_ok {v w : Value} {name : Ident} (hv : V v) (h : i.field v name = .ok w) :
    V w := by
  unfold Interpreter.field at h
  split at h
  · simp only at h
    split at h
    · rename_i type fields x hx
      cases h
      simp only [Option.bind_eq_bind, Option.bind_eq_some_iff] at hx
      obtain ⟨p, -, index, -, hx⟩ := hx
      exact hV.fields hv _ (List.mem_of_getElem? hx)
    · cases h
  · cases h

theorem Closed.bindings {p : Pattern} {v : Value} (hv : V v) {bound : List (Ident × Value)}
    (h : i.bindings p v = .ok (some bound)) : ∀ q ∈ bound, V q.2 := by
  unfold Interpreter.bindings at h
  split at h
  · cases h; simp
  · cases h; simpa using hv
  · split at h
    · split at h
      · cases h; simp
      · cases h
    · cases h
  · split at h
    · split at h
      · cases h
      · split at h
        · cases h; simp
        · split at h
          · cases h
          · cases h
            intro q hq
            exact hV.fields hv _ (List.of_mem_zip (List.mem_filter.1 hq).1).2
    · cases h

theorem Closed.selectFrom {v : Value} (hv : V v) {patterns : List Pattern} {index k : Nat}
    {bound : List (Ident × Value)} (h : i.selectFrom v index patterns = .ok (some (k, bound))) :
    ∀ q ∈ bound, V q.2 := by
  induction patterns generalizing index with
  | nil => cases h
  | cons p rest ih =>
    rw [Interpreter.selectFrom] at h
    split at h
    · cases h
    · rename_i hb
      cases h
      exact hV.bindings hv hb
    · exact ih h

end Interpreter

/-! ### Relations between requests -/

/-- A relation between requests in two monads that sequences of requests keep; it also says what
holds of the values they yield. -/
structure Relation (m n : Type → Type) [Monad m] [MonadExceptOf Error m] [MonadHalt m]
    [Monad n] [MonadExceptOf Error n] [MonadHalt n] where
  rel : {α : Type} → (α → Prop) → m α → n α → Prop
  pure : ∀ {α : Type} {Q : α → Prop} {a : α}, Q a → rel Q (pure a) (pure a)
  bind : ∀ {α β : Type} {Q : α → Prop} {Q' : β → Prop} {x : m α} {y : n α} {f : α → m β}
    {g : α → n β}, rel Q x y → (∀ a, Q a → rel Q' (f a) (g a)) → rel Q' (x >>= f) (y >>= g)
  throw : ∀ {α : Type} {Q : α → Prop} {e : RuntimeError}, e.Ordinary →
    rel Q (throw (.runtime e)) (throw (.runtime e))
  halt : ∀ {α : Type} {Q : α → Prop},
    rel Q (MonadHalt.halt .outOfFuel) (MonadHalt.halt .outOfFuel)

namespace Relation

variable {m n : Type → Type} [Monad m] [MonadExceptOf Error m] [MonadHalt m]
  [Monad n] [MonadExceptOf Error n] [MonadHalt n]

/-- A request that is stopped is related to every other. -/
def Lax (r : Relation m n) : Prop :=
  ∀ {α : Type} {Q : α → Prop}, (∀ x, r.rel Q x (MonadHalt.halt .outOfFuel)) ∧
    ∀ y, r.rel Q (MonadHalt.halt .outOfFuel) y

variable (r : Relation m n) {i i' : Interpreter} {V : Value → Prop}

theorem step {α : Type} {Q : α → Prop} {x : Except RuntimeError α} (hok : ∀ a, x = .ok a → Q a)
    (herr : ∀ e, x = .error e → e.Ordinary) :
    r.rel Q (Interpreter.step x) (Interpreter.step x) := by
  cases x with
  | ok a => exact r.pure (hok a rfl)
  | error e => exact r.throw (herr e rfl)

variable {call : Ident → List Value → m Value} {call' : Ident → List Value → n Value}

theorem exprs_of {es : List Expr}
    (ih : ∀ e ∈ es, ∀ env, Interpreter.EnvIn V env → r.rel V (i.expr call env e) (i'.expr call' env e))
    {env : Env} (henv : Interpreter.EnvIn V env) :
    r.rel (fun vs => ∀ v ∈ vs, V v) (i.exprs call env es) (i'.exprs call' env es) := by
  induction es with
  | nil => rw [Interpreter.exprs, Interpreter.exprs]; exact r.pure (by simp)
  | cons e rest ihs =>
    rw [Interpreter.exprs, Interpreter.exprs]
    refine r.bind (ih e (by simp) env henv) fun v hv => ?_
    refine r.bind (ihs fun x hx => ih x (List.mem_cons_of_mem _ hx)) fun vs hvs => r.pure ?_
    intro w hw
    rcases List.mem_cons.1 hw with rfl | hw
    · exact hv
    · exact hvs w hw

variable (hV : Interpreter.Closed V i i')
include hV

theorem exprArm_of {arms : List (Arm Expr)}
    (ih : ∀ a ∈ arms, ∀ env, Interpreter.EnvIn V env →
      r.rel V (i.expr call env a.body) (i'.expr call' env a.body))
    {env : Env} (henv : Interpreter.EnvIn V env) (index : Nat) :
    r.rel V (i.exprArm call env index arms) (i'.exprArm call' env index arms) := by
  induction arms generalizing index with
  | nil => rw [Interpreter.exprArm, Interpreter.exprArm]; exact r.pure hV.incomplete
  | cons a rest ihs =>
    cases index with
    | zero => exact ih a (by simp) env henv
    | succ index => exact ihs (fun x hx => ih x (List.mem_cons_of_mem _ hx)) index

/-- Selecting an arm is the same step on both sides and binds values of the class. -/
theorem selectArm {v : Value} (hv : V v) (patterns : List Pattern) :
    r.rel (fun s => ∀ p, s = some p → ∀ q ∈ p.2, V q.2) (Interpreter.step (i.selectArm v patterns))
      (Interpreter.step (i'.selectArm v patterns)) := by
  unfold Interpreter.selectArm
  rw [← Interpreter.selectFrom_congr hV.bits]
  refine r.step ?_ fun e h => Interpreter.selectFrom_ordinary h
  rintro s h ⟨k, bound⟩ rfl
  exact hV.selectFrom hv h

theorem repeatWhile {condition : Env → m Value}
    {condition' : Env → n Value} {body : Env → m Flow} {body' : Env → n Flow}
    (hc : ∀ env, Interpreter.EnvIn V env → r.rel V (condition env) (condition' env))
    (hb : ∀ env, Interpreter.EnvIn V env → r.rel (Interpreter.FlowIn V) (body env) (body' env))
    {fuel fuel' : Nat} (hf : fuel = fuel' ∨ r.Lax) :
    ∀ env, Interpreter.EnvIn V env → r.rel (Interpreter.FlowIn V)
      (i.repeatWhile condition body fuel env) (i'.repeatWhile condition' body' fuel' env) := by
  induction fuel generalizing fuel' with
  | zero =>
    intro env henv
    rcases hf with rfl | hf
    · exact r.halt
    · exact hf.2 _
  | succ fuel ih =>
    intro env henv
    cases fuel' with
    | zero =>
      rcases hf with h | hf
      · cases h
      · exact hf.1 _
    | succ fuel' =>
      rw [Interpreter.repeatWhile, Interpreter.repeatWhile]
      refine r.bind (hc env henv) fun v _ => ?_
      rw [← Interpreter.holds_congr hV.bits]
      refine r.bind (Q := fun _ => True) (r.step (fun _ _ => trivial)
        fun e h => Interpreter.holds_ordinary h) fun go _ => ?_
      cases go with
      | false => exact r.pure henv
      | true =>
        refine r.bind (hb env henv) fun flow hflow => ?_
        cases flow with
        | returned v => exact r.pure hflow
        | next env => exact ih (hf.imp (fun h => by omega) id) env hflow

omit hV in
theorem blockArm_of {fuel fuel' : Nat} {arms : List (Arm (List Stmt))}
    (ih : ∀ a ∈ arms, ∀ env, Interpreter.EnvIn V env → r.rel (Interpreter.FlowIn V)
      (i.block call fuel env a.body) (i'.block call' fuel' env a.body))
    {env : Env} (henv : Interpreter.EnvIn V env) (index : Nat) :
    r.rel (Interpreter.FlowIn V) (i.blockArm call fuel env index arms)
      (i'.blockArm call' fuel' env index arms) := by
  induction arms generalizing index with
  | nil => rw [Interpreter.blockArm, Interpreter.blockArm]; exact r.pure henv
  | cons a rest ihs =>
    cases index with
    | zero =>
      rw [Interpreter.blockArm, Interpreter.blockArm]
      exact ih a (by simp) env henv
    | succ index =>
      rw [Interpreter.blockArm, Interpreter.blockArm]
      exact ihs (fun x hx => ih x (List.mem_cons_of_mem _ hx)) index

variable (hcall : ∀ name args, (∀ v ∈ args, V v) → r.rel V (call name args) (call' name args))
include hcall

theorem expr (e : Expr) : ∀ env, Interpreter.EnvIn V env →
    r.rel V (i.expr call env e) (i'.expr call' env e) := by
  induction e using Expr.ind with
  | lit n =>
    intro env _
    rw [Interpreter.expr, Interpreter.expr, hV.bits]
    exact r.pure (hV.uint _)
  | var name =>
    intro env henv
    rw [Interpreter.expr, Interpreter.expr]
    cases h : env.get? name with
    | none => exact r.throw trivial
    | some v => exact r.pure (henv name v h)
  | binary op lhs rhs ihl ihr =>
    intro env henv
    rw [Interpreter.expr, Interpreter.expr]
    refine r.bind (ihl env henv) fun a _ => r.bind (ihr env henv) fun b _ => ?_
    rw [← Interpreter.binary_congr hV.bits]
    exact r.step (fun v h => hV.binary h) fun e h => Interpreter.binary_ordinary h
  | call name args ih =>
    intro env henv
    rw [Interpreter.expr, Interpreter.expr]
    exact r.bind (r.exprs_of ih henv) fun vs hvs => hcall name vs hvs
  | field subject name ih =>
    intro env henv
    rw [Interpreter.expr, Interpreter.expr]
    refine r.bind (ih env henv) fun v hv => ?_
    rw [← hV.field hv]
    exact r.step (fun w h => hV.field_ok hv h) fun e h => Interpreter.field_ordinary h
  | branch subject arms ihs iha =>
    intro env henv
    rw [Interpreter.expr, Interpreter.expr]
    refine r.bind (ihs env henv) fun v hv => r.bind (r.selectArm hV hv _) fun s hs => ?_
    cases s with
    | none => exact r.pure hV.incomplete
    | some p => exact r.exprArm_of hV iha (henv.insertAll (hs p rfl)) p.1
  | incomplete =>
    intro env _
    rw [Interpreter.expr, Interpreter.expr]
    exact r.pure hV.incomplete

theorem block {fuel fuel' : Nat} (hf : fuel = fuel' ∨ r.Lax) (stmts : List Stmt) :
    ∀ env, Interpreter.EnvIn V env → r.rel (Interpreter.FlowIn V) (i.block call fuel env stmts)
      (i'.block call' fuel' env stmts) := by
  induction stmts using Block.ind with
  | nil =>
    intro env henv
    rw [Interpreter.block, Interpreter.block]
    exact r.pure henv
  | assign name value rest ih =>
    intro env henv
    rw [Interpreter.block, Interpreter.block]
    exact r.bind (r.expr hV hcall value env henv) fun v hv => ih _ (henv.insert hv)
  | ret value rest =>
    intro env henv
    rw [Interpreter.block, Interpreter.block]
    exact r.bind (r.expr hV hcall value env henv) fun v hv => r.pure hv
  | eval value rest ih =>
    intro env henv
    rw [Interpreter.block, Interpreter.block]
    exact r.bind (r.expr hV hcall value env henv) fun _ _ => ih env henv
  | branch subject arms rest iha ih =>
    intro env henv
    rw [Interpreter.block, Interpreter.block]
    refine r.bind (r.expr hV hcall subject env henv) fun v hv =>
      r.bind (r.selectArm hV hv _) fun s hs =>
        r.bind (Q := Interpreter.FlowIn V) ?_ fun flow hflow => ?_
    · cases s with
      | none => exact r.pure henv
      | some p => exact r.blockArm_of iha (henv.insertAll (hs p rfl)) p.1
    · cases flow with
      | returned v => exact r.pure hflow
      | next _ => exact ih env henv
  | loop condition body rest ihb ih =>
    intro env henv
    rw [Interpreter.block, Interpreter.block]
    refine r.bind (r.repeatWhile hV (r.expr hV hcall condition) ihb hf env henv) fun flow hflow => ?_
    cases flow with
    | returned v => exact r.pure hflow
    | next env => exact ih env hflow

theorem body {fuel fuel' : Nat} (hf : fuel = fuel' ∨ r.Lax) (d : FunctionDef) {args : List Value}
    (hargs : ∀ v ∈ args, V v) :
    r.rel V (i.body call fuel d args) (i'.body call' fuel' d args) := by
  unfold Interpreter.body
  have henv : Interpreter.EnvIn V (Assoc.ofList (d.params.zip args)) :=
    Interpreter.EnvIn.ofList fun p hp => hargs _ (List.of_mem_zip hp).2
  refine r.bind (r.block hV hcall hf d.body _ henv) fun flow hflow => ?_
  cases flow with
  | returned v => exact r.pure hflow
  | next _ => exact r.pure hV.incomplete

end Relation

end ShapeCompiler
