import ShapeCompiler.Proofs.Placeholder.Replacement
import ShapeCompiler.Typing.Inference

/-!
Inference does not see a replacement.

Planning takes a pattern that binds the placeholder for a wildcard, and typing binds nothing under the
placeholder. Main statements: a walk over a body with patterns replaced, among functions with patterns
replaced, finds the same (`Walker.expr_replace`, `Walker.block_replace`), and so does inference
(`Typing.infer_replace`).
-/

namespace ShapeCompiler

variable {x : Extent} {r : Replacement}

/-! ### Surroundings with functions replaced -/

def HostFunction.replace (r : Replacement) : HostFunction → HostFunction
  | .interpreted d => .interpreted (d.replace r.interpreted)
  | .native n => .native n

def Callee.replace (r : Replacement) : Callee → Callee
  | .constructor id type => .constructor id type
  | .decorated => .decorated
  | .host function => .host (function.replace r)

def Typing.replace (r : Replacement) (c : Typing) : Typing := { c with functions := c.functions.replace r }

/-- The surroundings of a walk with patterns replaced in the functions. -/
def Walker.replace (r : Replacement) (w : Walker) : Walker := { w with toTyping := w.toTyping.replace r }

theorem Functions.get?_replace (functions : Functions) (name : Ident) :
    (functions.replace r).get? name = (functions.get? name).map (Function.replace r) :=
  Assoc.get?_mapValues _ _ _

namespace Typing

variable (c : Typing)

theorem resolve_replace (name : Ident) (args : Nat) :
    (c.replace r).resolve name args = (c.resolve name args).map (Callee.replace r) := by
  have hexpect : ∀ n callee, expectArgs name n args (Callee.replace r callee) =
      (expectArgs name n args callee).map (Callee.replace r) := by
    intro n callee
    unfold expectArgs
    split <;> rfl
  have htypes : (c.replace r).types.recordNamed? name = c.types.recordNamed? name := rfl
  have hfunctions : (c.replace r).functions.get? name = (c.functions.get? name).map (Function.replace r) :=
    Functions.get?_replace c.functions name
  unfold resolve
  rw [htypes, hfunctions]
  cases c.types.recordNamed? name with
  | some p => exact hexpect _ (.constructor p.1 p.2)
  | none =>
    cases c.functions.get? name with
    | none => rfl
    | some f =>
      cases f with
      | decorated d => exact hexpect _ .decorated
      | interpreted d => exact hexpect _ (.host (.interpreted d))
      | native n => exact hexpect _ (.host (.native n))

theorem checkFields_replace (record : Ident) (fs : List Field) (ts : List StaticType) :
    (c.replace r).checkFields record fs ts = c.checkFields record fs ts := by
  induction fs generalizing ts with
  | nil => rfl
  | cons f fs ih =>
    cases ts with
    | nil => rfl
    | cons t ts =>
      rw [checkFields, checkFields, ih]
      rfl

theorem checkParams_replace (function : Ident) (index : Nat) (ps : List TypeId) (ts : List StaticType) :
    (c.replace r).checkParams function index ps ts = c.checkParams function index ps ts := by
  induction ps generalizing index ts with
  | nil => rfl
  | cons p ps ih =>
    cases ts with
    | nil => rfl
    | cons t ts =>
      rw [checkParams, checkParams, ih]
      rfl

end Typing

/-! ### Match plans -/

/-- The pattern is kept, or it binds the placeholder and becomes a wildcard. -/
def Pattern.Like (p p' : Pattern) : Prop := p' = p ∨ p = .bind placeholder ∧ p' = .wildcard

theorem Pattern.replace_like (p : Pattern) (reads : Bool) : p.Like (p.replace x reads) :=
  (p.replace_cases reads).imp_right fun h => ⟨h.1, h.2.1⟩

theorem Expr.patterns_replace (arms : List (Arm Expr)) :
    List.Forall₂ Pattern.Like (arms.map (·.pattern)) ((Expr.replaceArms x arms).map (·.pattern)) := by
  rw [Expr.replaceArms_eq_map, List.map_map, List.forall₂_map_left_iff, List.forall₂_map_right_iff]
  exact List.forall₂_same.2 fun a _ => a.pattern.replace_like _

theorem Block.patterns_replace (arms : List (Arm (List Stmt))) :
    List.Forall₂ Pattern.Like (arms.map (·.pattern)) ((Block.replaceArms x arms).map (·.pattern)) := by
  rw [Block.replaceArms_eq_map, List.map_map, List.forall₂_map_left_iff, List.forall₂_map_right_iff]
  exact List.forall₂_same.2 fun a _ => a.pattern.replace_like _

namespace Typing

variable {c : Typing} {ps ps' : List Pattern}

section Like

variable (h : List.Forall₂ Pattern.Like ps ps')
include h

theorem any_like {f : Pattern → Bool} (hf : f .wildcard = f (.bind placeholder)) :
    ps'.any f = ps.any f := by
  induction h with
  | nil => rfl
  | cons hp _ ih =>
    rw [List.any_cons, List.any_cons, ih]
    rcases hp with rfl | ⟨rfl, rfl⟩
    · rfl
    · rw [hf]

theorem firstNamed_like : (c.replace r).firstNamed ps' = c.firstNamed ps := by
  have hfind : ∀ {f : Pattern → Option Ident}, f .wildcard = f (.bind placeholder) →
      ps'.findSome? f = ps.findSome? f := by
    intro f hf
    induction h with
    | nil => rfl
    | cons hp _ ih =>
      rw [List.findSome?_cons, List.findSome?_cons, ih]
      rcases hp with rfl | ⟨rfl, rfl⟩
      · rfl
      · rw [hf]
  unfold firstNamed
  rw [hfind rfl]
  rfl

theorem planTags_like (type : TypeId) (variants : List TypeId) (index : Nat) (table : List (Option Nat))
    (reachable : List Nat) : (c.replace r).planTags type variants index table reachable ps' =
      c.planTags type variants index table reachable ps := by
  induction h generalizing index table reachable with
  | nil => rfl
  | @cons p p' _ _ hp _ ih =>
    rcases hp with rfl | ⟨rfl, rfl⟩
    · cases p' with
      | ctor name binders =>
        rw [planTags, planTags]
        simp only [ih]
        rfl
      | _ => rfl
    · rfl

theorem planScalars_like (bits index : Nat) (cases' : List (UInt64 × Nat)) (reachable : List Nat) :
    planScalars bits index cases' reachable ps' = planScalars bits index cases' reachable ps := by
  induction h generalizing index cases' reachable with
  | nil => rfl
  | @cons p p' _ _ hp _ ih =>
    rcases hp with rfl | ⟨rfl, rfl⟩
    · cases p' with
      | lit n =>
        rw [planScalars, planScalars]
        simp only [ih]
      | _ => rfl
    · rfl

theorem planDirect_like : planDirect ps' = planDirect ps := by
  have hfind : ps'.findIdx? (·.isCatchAll) = ps.findIdx? (·.isCatchAll) := by
    induction h with
    | nil => rfl
    | cons hp _ ih =>
      rw [List.findIdx?_cons, List.findIdx?_cons, ih]
      rcases hp with rfl | ⟨rfl, rfl⟩ <;> rfl
  unfold planDirect
  rw [hfind]

theorem plan_like (function : Ident) (subject : StaticType) :
    (c.replace r).plan function subject ps' = c.plan function subject ps := by
  have hctor : ps'.any (·.isCtor) = ps.any (·.isCtor) := any_like h rfl
  have hlit : ps'.any (·.isLit) = ps.any (·.isLit) := any_like h rfl
  unfold plan planArms
  simp only [hctor, hlit, firstNamed_like h, planTags_like h, planScalars_like h, planDirect_like h]
  rfl

end Like

/-- A pattern binds alike in compiled code, where the placeholder is never bound. -/
theorem binders_replace (p : Pattern) (reads : Bool) (subject : StaticType) :
    (c.replace r).binders (p.replace x reads) subject = c.binders p subject := by
  rcases p.replace_cases reads with h | ⟨rfl, h, -⟩ <;> rw [h] <;> rfl

end Typing

/-! ### Walks -/

namespace Walker

variable {w : Walker}

theorem call_replace (name : Ident) (args : List StaticType) :
    (w.replace r).call name args = w.call name args := by
  have hresolve : (w.replace r).resolve name args.length =
      (w.resolve name args.length).map (Callee.replace r) := w.toTyping.resolve_replace name args.length
  have hfields : (w.replace r).checkFields = w.checkFields := by
    funext record fs ts
    exact w.toTyping.checkFields_replace record fs ts
  have hparams : (w.replace r).checkParams = w.checkParams := by
    funext function index ps ts
    exact w.toTyping.checkParams_replace function index ps ts
  unfold call
  rw [hresolve]
  simp only [hfields, hparams]
  cases w.resolve name args.length with
  | error e => rfl
  | ok callee => rcases callee with ⟨id, type⟩ | _ | (d | n) <;> rfl

theorem matchPlan_replace {ps ps' : List Pattern} (h : List.Forall₂ Pattern.Like ps ps')
    (subject : StaticType) : (w.replace r).matchPlan subject ps' = w.matchPlan subject ps :=
  Typing.plan_like h w.function subject

theorem exprs_replace {es : List Expr}
    (ih : ∀ e ∈ es, ∀ env, (w.replace r).expr env (e.replace x) = w.expr env e) (env : TypeEnv) :
    (w.replace r).exprs env (Expr.replaceAll x es) = w.exprs env es := by
  induction es with
  | nil => rfl
  | cons e rest ihs =>
    rw [Expr.replaceAll, exprs, exprs, ih e (by simp), ihs fun x hx => ih x (List.mem_cons_of_mem e hx)]

theorem exprArms_replace {arms : List (Arm Expr)}
    (ih : ∀ a ∈ arms, ∀ env, (w.replace r).expr env (a.body.replace x) = w.expr env a.body) (env : TypeEnv)
    (subject : StaticType) (reachable : List Nat) (index : Nat) (joined : StaticType) :
    (w.replace r).exprArms env subject reachable index joined (Expr.replaceArms x arms) =
      w.exprArms env subject reachable index joined arms := by
  induction arms generalizing index joined with
  | nil => rfl
  | cons a rest ihs =>
    have hrest := ihs fun x hx => ih x (List.mem_cons_of_mem a hx)
    have hbinders : (w.replace r).binders (a.pattern.replace x a.body.reads) subject =
        w.binders a.pattern subject := Typing.binders_replace a.pattern a.body.reads subject
    rw [Expr.replaceArms, exprArms, exprArms, hbinders, ih a (by simp)]
    simp only [hrest]
    rfl

theorem expr_replace (e : Expr) (env : TypeEnv) : (w.replace r).expr env (e.replace x) = w.expr env e := by
  induction e using Expr.ind generalizing env with
  | lit n => rfl
  | var name => rfl
  | binary op lhs rhs ihl ihr =>
    rw [Expr.replace, expr, expr, ihl, ihr]
    rfl
  | call name args ih =>
    rw [Expr.replace, expr, expr, exprs_replace ih]
    simp only [call_replace]
  | field subject name ih =>
    rw [Expr.replace, expr, expr, ih]
    rfl
  | branch subject arms ihs iha =>
    rw [Expr.replace, expr, expr, ihs]
    simp only [matchPlan_replace (Expr.patterns_replace arms), exprArms_replace iha]
    rfl
  | incomplete => rfl

theorem mergeRound_replace (before : TypeEnv) (after : List (Ident × StaticType)) :
    (w.replace r).mergeRound before after = w.mergeRound before after := by
  induction after generalizing before with
  | nil => rfl
  | cons p rest ih =>
    rw [mergeRound, mergeRound]
    simp only [ih]
    rfl

theorem settleLoop_replace (round : TypeEnv → WalkM TypeEnv) (fuel : Nat) (env : TypeEnv) :
    (w.replace r).settleLoop round fuel env = w.settleLoop round fuel env := by
  induction fuel generalizing env with
  | zero => rfl
  | succ fuel ih =>
    rw [settleLoop, settleLoop]
    simp only [ih, mergeRound_replace]

/-- A replacement adds no variables, behind a return either. -/
theorem assignments_replace :
    ∀ stmts : List Stmt, Stmt.assignments (Block.replace x stmts) = Stmt.assignments stmts
  | [] => by rw [Block.replace]
  | .assign name value :: rest => by
    rw [Block.replace, Stmt.assignments, Stmt.assignments, assignments_replace rest]
  | .ret value :: rest => by simp only [Block.replace, Stmt.assignments, assignments_replace rest]
  | .eval value :: rest => by simp only [Block.replace, Stmt.assignments, assignments_replace rest]
  | .branch subject arms :: rest => by
    simp only [Block.replace, Stmt.assignments, assignments_replace rest]
  | .loop condition body :: rest => by
    rw [Block.replace, Stmt.assignments, Stmt.assignments, assignments_replace body,
      assignments_replace rest]

theorem blockArms_replace {arms : List (Arm (List Stmt))}
    (ih : ∀ a ∈ arms, ∀ env, (w.replace r).block env (Block.replace x a.body) = w.block env a.body)
    (env : TypeEnv) (subject : StaticType) (reachable : List Nat) (index : Nat) :
    (w.replace r).blockArms env subject reachable index (Block.replaceArms x arms) =
      w.blockArms env subject reachable index arms := by
  induction arms generalizing index with
  | nil => rw [Block.replaceArms, blockArms, blockArms]
  | cons a rest ihs =>
    have hbinders : (w.replace r).binders (a.pattern.replace x (Block.reads a.body)) subject =
        w.binders a.pattern subject := Typing.binders_replace a.pattern (Block.reads a.body) subject
    rw [Block.replaceArms, blockArms, blockArms, hbinders, ih a (by simp),
      ihs fun x hx => ih x (List.mem_cons_of_mem a hx)]

theorem block_replace (stmts : List Stmt) (env : TypeEnv) :
    (w.replace r).block env (Block.replace x stmts) = w.block env stmts := by
  induction stmts using Block.ind generalizing env with
  | nil => rw [Block.replace, block, block]
  | assign name value rest ih =>
    rw [Block.replace, block, block, expr_replace]
    simp only [ih]
  | ret value rest =>
    rw [Block.replace, block, block, expr_replace]
    rfl
  | eval value rest ih =>
    rw [Block.replace, block, block, expr_replace]
    simp only [ih]
  | branch subject arms rest iha ih =>
    rw [Block.replace, block, block, expr_replace]
    simp only [matchPlan_replace (Block.patterns_replace arms), blockArms_replace iha, ih]
  | loop condition body rest ihb ih =>
    have hrounds : ∀ env, loopRounds env (Block.replace x body) = loopRounds env body := by
      intro env
      unfold loopRounds
      rw [assignments_replace]
    rw [Block.replace, block, block, expr_replace, settleLoop_replace, hrounds]
    simp only [ihb, ih]
    rfl

theorem returnType_replace (d : FunctionDef) (args : List TypeId) :
    (w.replace r).returnType (d.replace x) args = w.returnType d args := by
  unfold returnType FunctionDef.replace
  rw [block_replace]
  rfl

end Walker

/-! ### Passes -/

namespace Typing

variable (c : Typing)

/-- A specialisation belongs to the definition with patterns replaced. -/
theorem instance?_replace (s : Signature) : (c.replace r).instance? s = (c.instance? s).map fun q =>
    (q.1.replace (if q.2 then r.decorated else r.interpreted), q.2) := by
  have hfunctions : (c.replace r).functions.get? s.function =
      (c.functions.get? s.function).map (Function.replace r) := Functions.get?_replace c.functions s.function
  unfold instance?
  rw [hfunctions]
  cases c.functions.get? s.function with
  | none => rfl
  | some f => cases f <;> rfl

/-- A walk over a specialisation finds the same. -/
theorem walk_replace (assumed : Assumptions) (s : Signature) :
    (c.replace r).walk assumed s = c.walk assumed s := by
  unfold walk
  rw [instance?_replace]
  cases c.instance? s with
  | error e => rfl
  | ok q =>
    have hwalk := @Walker.returnType_replace (if q.2 then r.decorated else r.interpreted) r
      { c with assumed, function := s.function, strict := q.2 } q.1 s.args
    exact congrArg (fun y => do
      let p ← StateT.run y {}
      pure (p.1, p.2.discovered)) hwalk

theorem visit_replace (assumed : Assumptions) (signatures : List Signature) :
    (c.replace r).visit assumed signatures = c.visit assumed signatures := by
  induction signatures generalizing assumed with
  | nil => rfl
  | cons s rest ih =>
    rw [visit, visit, walk_replace]
    simp only [ih]
    rfl

theorem settle_replace (order : VisitOrder) (root : Ident) (fuel passes : Nat) (assumed : Assumptions) :
    (c.replace r).settle order root fuel passes assumed = c.settle order root fuel passes assumed := by
  induction fuel generalizing passes assumed with
  | zero => rfl
  | succ fuel ih =>
    rw [settle, settle]
    unfold pass
    simp only [visit_replace, ih]

/-- Inference finds the same return types. -/
theorem infer_replace (order : VisitOrder) (root : Signature) :
    (c.replace r).infer order root = c.infer order root := by
  have hweigh : ∀ (n : Nat) (l : List (Ident × Function)),
      WorkList.weigh (fun p : Ident × Function => Nat.pow n p.2.arity)
        (l.map fun p => (p.1, p.2.replace r)) =
          WorkList.weigh (fun p : Ident × Function => Nat.pow n p.2.arity) l := by
    intro n l
    induction l with
    | nil => rfl
    | cons p rest ih =>
      rw [List.map_cons, WorkList.weigh_cons, WorkList.weigh_cons, ih, Function.arity_replace]
  have hbound : (c.replace r).instanceBound root = c.instanceBound root :=
    congrArg (1 + ·) (hweigh _ c.functions.entries)
  unfold infer
  rw [hbound, settle_replace]

end Typing

end ShapeCompiler
