import ShapeCompiler.Lowering
import ShapeCompiler.Proofs.Independence.Parallel
import ShapeCompiler.Proofs.Placeholder.Inference

/-!
Lowering does not see a replacement.

What is handed out differs in the definitions at host sites only, in which patterns are replaced too.
Main statements: the code of an expression and of a block is the same (`Lowerer.expr_replace`,
`Lowerer.block_replace`), so a specialisation compiles to the same code with other definitions at its host
sites, or fails with the same error (`Typing.compile_replace`).
-/

namespace ShapeCompiler

variable {x : Extent} {r : Replacement} {α β : Type}

def HostSite.replace (r : Replacement) (site : HostSite) : HostSite :=
  { site with function := site.function.replace r }

def Artifact.replace (r : Replacement) (a : Artifact) : Artifact :=
  { a with hostSites := a.hostSites.map (HostSite.replace r) }

/-- What was handed out with patterns replaced in the definitions at sites. -/
def Pool.replace (r : Replacement) (p : Pool) : Pool :=
  { p with hostSites := p.hostSites.map (HostSite.replace r) }

/-- The surroundings of a lowering with patterns replaced in all functions. -/
def Lowerer.replace (r : Replacement) (l : Lowerer) : Lowerer :=
  { l with toTyping := l.toTyping.replace r, definition := l.definition.replace r.decorated }

/-- Two steps of lowering that yield the same, and hand out the same up to the replacement. -/
def LowersSame (r : Replacement) (u v : LowerM α) : Prop :=
  ParallelIn (fun p p' => p' = Pool.replace r p) Eq u v

namespace LowersSame

theorem pure (a : α) : LowersSame r (Pure.pure a) (Pure.pure a) := ParallelIn.pure rfl

theorem throw (e : CompileError) : LowersSame r (α := α) (throw e) (throw e) := ParallelIn.throw e

theorem lift (y : Except CompileError α) : LowersSame r (liftM y) (liftM y) :=
  ParallelIn.lift (.of_eq rfl fun _ _ => rfl)

theorem bind {u v : LowerM α} {f g : α → LowerM β} (h : LowersSame r u v)
    (hf : ∀ a, LowersSame r (f a) (g a)) : LowersSame r (u >>= f) (v >>= g) :=
  ParallelIn.bind h fun a _ hab => hab ▸ hf a

/-- The second step begins with the image of what the first one begins with. -/
theorem bind_map {y : Except CompileError α} {h : α → α} {f g : α → LowerM β}
    (hf : ∀ a, LowersSame r (f a) (g (h a))) : LowersSame r (liftM y >>= f) (liftM (y.map h) >>= g) := by
  cases y with
  | error e => exact .throw e
  | ok a => exact hf a

theorem bind_get {f g : Pool → LowerM α} (hf : ∀ p, LowersSame r (f p) (g (p.replace r))) :
    LowersSame r (get >>= f) (get >>= g) :=
  ParallelIn.get.bind fun p _ hp => hp ▸ hf p

theorem bind_set {p p' : Pool} (hp : p' = p.replace r) {u v : LowerM α} (h : LowersSame r u v) :
    LowersSame r (do set p; u) (do set p'; v) := by
  have hset : ParallelIn (fun p p' => p' = Pool.replace r p) (fun _ _ => True)
      (set p : LowerM PUnit) (set p' : LowerM PUnit) := .set hp
  exact hset.bind fun _ _ _ => h

theorem fresh : LowersSame r Pool.fresh Pool.fresh :=
  bind_get fun p => bind_set rfl (pure p.registers)

theorem callSite (s : Signature) : LowersSame r (Pool.callSite s) (Pool.callSite s) := by
  refine bind_get fun p => ?_
  have hsites : (p.replace r).callSites = p.callSites := rfl
  rw [hsites]
  cases p.callSites.findIdx? (· == s) with
  | some site => exact pure site
  | none => exact bind_set rfl (pure p.callSites.length)

theorem hostSite (h : HostSite) : LowersSame r (Pool.hostSite h) (Pool.hostSite (h.replace r)) := by
  refine bind_get fun p => ?_
  have hlength : (p.replace r).hostSites.length = p.hostSites.length := List.length_map _
  rw [hlength]
  refine bind_set ?_ (pure p.hostSites.length)
  simp only [Pool.replace, List.map_append, List.map_cons, List.map_nil]

end LowersSame

/-! ### Calls and binders -/

namespace Lowerer

variable {l : Lowerer}

theorem call_replace (name : Ident) (args : List (Reg × StaticType)) :
    LowersSame r (l.call name args) ((l.replace r).call name args) := by
  have hresolve : (l.replace r).resolve name args.length =
      (l.resolve name args.length).map (Callee.replace r) := l.toTyping.resolve_replace name args.length
  have hfields : (l.replace r).checkFields = l.checkFields := by
    funext record fs ts
    exact l.toTyping.checkFields_replace record fs ts
  have hparams : (l.replace r).checkParams = l.checkParams := by
    funext function index ps ts
    exact l.toTyping.checkParams_replace function index ps ts
  unfold call
  refine .bind .fresh fun dst => ?_
  rw [hresolve]
  simp only [hfields, hparams]
  refine .bind_map fun callee => ?_
  rcases callee with ⟨id, type⟩ | _ | (d | n)
  · exact .bind (.lift _) fun _ => .pure _
  · refine .bind (.lift _) fun s => .bind (.lift _) fun t => ?_
    have hsignature : (l.replace r).signature = l.signature := rfl
    rw [hsignature]
    by_cases hs : s = l.signature
    · rw [if_pos hs]
      exact .pure _
    · rw [if_neg hs]
      exact .bind (.callSite s) fun site => .pure _
  · refine .bind (.lift _) fun s => .bind (.lift _) fun t => ?_
    exact .bind (.hostSite _) fun site => .pure _
  · exact .bind (.lift _) fun _ => .bind (.hostSite _) fun site => .pure _

theorem bindFields_replace (subject : Reg) (binders : List Binder) (env : RegEnv)
    (fields : List (Reg × FieldAccess)) :
    LowersSame r (bindFields subject env fields binders) (bindFields subject env fields binders) := by
  induction binders generalizing env fields with
  | nil => exact .pure _
  | cons b rest ih =>
    obtain ⟨name, t, access⟩ := b
    cases access with
    | none => exact ih _ _
    | some access => exact LowersSame.fresh.bind fun reg => ih _ _

theorem bindPattern_replace (env : RegEnv) (pattern : Pattern) (reads : Bool) (subject : Reg)
    (type : StaticType) : LowersSame r (l.bindPattern env pattern subject type)
      ((l.replace r).bindPattern env (pattern.replace x reads) subject type) := by
  have hbinders : (l.replace r).binders (pattern.replace x reads) type = l.binders pattern type :=
    Typing.binders_replace pattern reads type
  unfold bindPattern
  rw [hbinders]
  exact (bindFields_replace _ _ _ _).bind fun q => .pure _

theorem matchPlan_replace {ps ps' : List Pattern} (h : List.Forall₂ Pattern.Like ps ps')
    (subject : StaticType) : (l.replace r).matchPlan subject ps' = l.matchPlan subject ps :=
  Typing.plan_like h l.definition.name subject

/-! ### Expressions -/

theorem exprs_replace {es : List Expr}
    (ih : ∀ e ∈ es, ∀ start env,
      LowersSame r (l.expr start env e) ((l.replace r).expr start env (e.replace x)))
    (start : Nat) (env : RegEnv) :
    LowersSame r (l.exprs start env es) ((l.replace r).exprs start env (Expr.replaceAll x es)) := by
  induction es generalizing start with
  | nil => exact .pure _
  | cons e rest ihs =>
    rw [Expr.replaceAll, exprs, exprs]
    refine (ih e (by simp) start env).bind fun a => ?_
    exact (ihs (fun x hx => ih x (List.mem_cons_of_mem e hx)) _).bind fun as => .pure _

theorem exprArms_replace {arms : List (Arm Expr)}
    (ih : ∀ a ∈ arms, ∀ start env,
      LowersSame r (l.expr start env a.body) ((l.replace r).expr start env (a.body.replace x)))
    (start : Nat) (env : RegEnv) (subject : Reg) (type : StaticType) (dst : Reg) (reachable : List Nat)
    (index : Nat) (joined : StaticType) :
    LowersSame r (l.exprArms start env subject type dst reachable index joined arms)
      ((l.replace r).exprArms start env subject type dst reachable index joined
        (Expr.replaceArms x arms)) := by
  induction arms generalizing start index joined with
  | nil => exact .pure _
  | cons a rest ihs =>
    have hrest := ihs fun x hx => ih x (List.mem_cons_of_mem a hx)
    rw [Expr.replaceArms, exprArms, exprArms]
    split
    · refine (bindPattern_replace env a.pattern _ subject type).bind fun q => ?_
      refine (ih a (by simp) _ _).bind fun b => (LowersSame.lift _).bind fun joined => ?_
      exact (hrest _ _ _).bind fun q => .pure _
    · exact hrest _ _ _

theorem expr_replace (e : Expr) (start : Nat) (env : RegEnv) :
    LowersSame r (l.expr start env e) ((l.replace r).expr start env (e.replace x)) := by
  induction e using Expr.ind generalizing start env with
  | lit n =>
    rw [Expr.replace, expr, expr]
    exact LowersSame.fresh.bind fun dst => .pure _
  | var name =>
    rw [Expr.replace, expr, expr]
    cases env.get? name with
    | some p => exact .pure _
    | none => exact .throw _
  | binary op lhs rhs ihl ihr =>
    rw [Expr.replace, expr, expr]
    refine (ihl start env).bind fun a => (ihr _ env).bind fun b => (LowersSame.lift _).bind fun t => ?_
    exact LowersSame.fresh.bind fun dst => .pure _
  | call name args ih =>
    rw [Expr.replace, expr, expr]
    exact (exprs_replace ih start env).bind fun as => (call_replace name as.args).bind fun c => .pure _
  | field subject name ih =>
    rw [Expr.replace, expr, expr]
    refine (ih start env).bind fun s => (LowersSame.lift _).bind fun q => ?_
    exact LowersSame.fresh.bind fun dst => .pure _
  | branch subject arms ihs iha =>
    rw [Expr.replace, expr, expr]
    refine (ihs start env).bind fun s => ?_
    rw [matchPlan_replace (Expr.patterns_replace arms)]
    refine (LowersSame.lift _).bind fun plan => LowersSame.fresh.bind fun dst => ?_
    refine (exprArms_replace iha _ _ _ _ _ _ _ _).bind fun q => ?_
    obtain ⟨t, lowered⟩ := q
    dsimp only
    split
    · exact (LowersSame.pure _).bind fun t => .pure _
    · exact (LowersSame.lift _).bind fun t => .pure _
  | incomplete =>
    rw [Expr.replace, expr, expr]
    exact LowersSame.fresh.bind fun dst => .pure _

/-! ### Blocks -/

theorem blockArms_replace {arms : List (Arm (List Stmt))}
    (ih : ∀ a ∈ arms, ∀ start env,
      LowersSame r (l.block start env a.body) ((l.replace r).block start env (Block.replace x a.body)))
    (start : Nat) (env : RegEnv) (subject : Reg) (type : StaticType) (reachable : List Nat)
    (index : Nat) :
    LowersSame r (l.blockArms start env subject type reachable index arms)
      ((l.replace r).blockArms start env subject type reachable index (Block.replaceArms x arms)) := by
  induction arms generalizing start index with
  | nil =>
    rw [Block.replaceArms, blockArms, blockArms]
    exact .pure _
  | cons a rest ihs =>
    have hrest := ihs fun x hx => ih x (List.mem_cons_of_mem a hx)
    rw [Block.replaceArms, blockArms, blockArms]
    split
    · refine (bindPattern_replace env a.pattern _ subject type).bind fun q => ?_
      exact (ih a (by simp) _ _).bind fun b => (hrest _ _).bind fun arms => .pure _
    · exact hrest _ _

theorem block_replace (stmts : List Stmt) (start : Nat) (env : RegEnv) :
    LowersSame r (l.block start env stmts) ((l.replace r).block start env (Block.replace x stmts)) := by
  induction stmts using Block.ind generalizing start env with
  | nil =>
    rw [Block.replace, block, block]
    exact .pure _
  | assign name value rest ih =>
    rw [Block.replace, block, block]
    exact (expr_replace value start env).bind fun v => (ih _ _).bind fun q => .pure _
  | ret value rest =>
    rw [Block.replace, block, block]
    exact (expr_replace value start env).bind fun v => .pure _
  | eval value rest ih =>
    rw [Block.replace, block, block]
    exact (expr_replace value start env).bind fun v => (ih _ _).bind fun q => .pure _
  | branch subject arms rest iha ih =>
    rw [Block.replace, block, block]
    refine (expr_replace subject start env).bind fun s => ?_
    rw [matchPlan_replace (Block.patterns_replace arms)]
    refine (LowersSame.lift _).bind fun plan => (blockArms_replace iha _ _ _ _ _ _).bind fun lowered => ?_
    exact (ih _ _).bind fun q => .pure _
  | loop condition body rest _ _ =>
    rw [Block.replace, block, block]
    exact .throw _

theorem bindParams_replace (params : List (Ident × TypeId)) (env : RegEnv) :
    LowersSame r (bindParams env params) (bindParams env params) := by
  induction params generalizing env with
  | nil => exact .pure _
  | cons p rest ih => exact LowersSame.fresh.bind fun reg => ih _

theorem body_replace : LowersSame r l.body (l.replace r).body := by
  unfold body
  refine (bindParams_replace _ _).bind fun env => (block_replace _ _ _).bind fun q => ?_
  obtain ⟨code, returns⟩ := q
  dsimp only
  split
  · exact .pure _
  · exact LowersSame.fresh.bind fun dst => .pure _

/-! ### Artifacts -/

/-- The artifact is the same up to the definitions at its host sites. -/
theorem artifact_replace : (l.replace r).artifact = l.artifact.map (Artifact.replace r) := by
  have hbody := @body_replace r l {} {} rfl
  have harity : (l.replace r).definition.arity = l.definition.arity := rfl
  have hsignature : (l.replace r).signature = l.signature := rfl
  have hreturned : (l.replace r).returned l.signature = l.returned l.signature := rfl
  unfold artifact
  rw [harity, hsignature, hreturned]
  generalize l.body.run {} = u at hbody ⊢
  generalize (l.replace r).body.run {} = v at hbody ⊢
  by_cases ha : l.definition.arity ≠ l.signature.args.length
  · simp only [if_pos ha]
    rfl
  · simp only [if_neg ha]
    cases hbody with
    | error e => rfl
    | @ok p q hpq =>
      obtain ⟨code, pool⟩ := p
      obtain ⟨_, _⟩ := q
      obtain ⟨rfl, rfl⟩ := hpq
      cases l.returned l.signature <;> rfl

end Lowerer

/-- Compiling a specialisation yields the same code, or the same error. -/
theorem Typing.compile_replace (c : Typing) (order : VisitOrder) (s : Signature) :
    (c.replace r).compile order s = (c.compile order s).map (Artifact.replace r) := by
  have hfunctions : (c.replace r).functions.get? s.function =
      (c.functions.get? s.function).map (Function.replace r) := Functions.get?_replace c.functions s.function
  unfold compile decorated?
  rw [hfunctions, infer_replace]
  cases c.functions.get? s.function with
  | none => rfl
  | some f =>
    cases f with
    | decorated d =>
      cases c.infer order s with
      | error e => rfl
      | ok returnTypes =>
        exact @Lowerer.artifact_replace r { c with returnTypes, signature := s, definition := d }
    | interpreted d => rfl
    | native n => rfl

end ShapeCompiler
