import ShapeCompiler.Proofs.Inference
import ShapeCompiler.Proofs.Lowering.Completeness

/-!
Lowering after inference.

Inference and lowering traverse a body separately, each with scopes of its own. Main statement: once
inference has found return types, lowering succeeds, and each expression that it reaches has the static
type that the last pass of inference gave it (`Typing.compile_of_infer`).
-/

namespace ShapeCompiler

structure Traversal where
  /-- What is known of variables. -/
  Scope : Type
  /-- What is known of an expression. -/
  Result : Type
  type : Result → StaticType
  /-- In a scope, the traversal gets through an expression with a result. -/
  visit : Scope → Expr → Result → Prop
  /-- The scope behind an assignment, given the result of the value. -/
  assign : Scope → Ident → Result → Scope
  /-- The scope of an arm, given the result of the subject. -/
  arm : Scope → Pattern → Result → Scope → Prop
  plan : StaticType → List Pattern → Except CompileError MatchPlan

namespace Traversal

/-- The traversal gets to the arm at a position of a match, in a scope. -/
def Enters {β : Type} (T : Traversal) (env : T.Scope) (subject : Expr) (arms : List (Arm β)) (k : Nat)
    (a : Arm β) (scope : T.Scope) : Prop :=
  ∃ r plan, T.visit env subject r ∧ T.plan (T.type r) (arms.map (·.pattern)) = .ok plan ∧
    k ∈ plan.reachable ∧ arms[k]? = some a ∧ T.arm env a.pattern r scope

/-- The traversal of an expression gives a static type to the expression at a path within it. -/
inductive TypesAt (T : Traversal) : T.Scope → Expr → List Nat → Expr → StaticType → Prop
  | here {env e r} (h : T.visit env e r) : TypesAt T env e [] e (T.type r)
  | lhs {env op a b path x t} (h : TypesAt T env a path x t) : TypesAt T env (.binary op a b) (0 :: path) x t
  | rhs {env op a b path x t} (h : TypesAt T env b path x t) : TypesAt T env (.binary op a b) (1 :: path) x t
  | arg {env name args k a path x t} (ha : args[k]? = some a) (h : TypesAt T env a path x t) :
    TypesAt T env (.call name args) (k :: path) x t
  | subject {env s name path x t} (h : TypesAt T env s path x t) :
    TypesAt T env (.field s name) (0 :: path) x t
  | matched {env s arms path x t} (h : TypesAt T env s path x t) :
    TypesAt T env (.branch s arms) (0 :: path) x t
  | arm {env s arms k a scope path x t} (ha : T.Enters env s arms k a scope)
    (h : TypesAt T scope a.body path x t) : TypesAt T env (.branch s arms) ((k + 1) :: path) x t

/-- The traversal of a block gives a static type to the expression at a path within it. Blocks that are
compiled do not loop. -/
inductive BlockTypesAt (T : Traversal) : T.Scope → List Stmt → List Nat → Expr → StaticType → Prop
  | assign {env name v rest path x t} (h : T.TypesAt env v path x t) :
    BlockTypesAt T env (.assign name v :: rest) (0 :: path) x t
  | assigned {env name v r rest path x t} (hv : T.visit env v r)
    (h : BlockTypesAt T (T.assign env name r) rest path x t) :
    BlockTypesAt T env (.assign name v :: rest) (1 :: path) x t
  | ret {env v rest path x t} (h : T.TypesAt env v path x t) :
    BlockTypesAt T env (.ret v :: rest) (0 :: path) x t
  | eval {env v rest path x t} (h : T.TypesAt env v path x t) :
    BlockTypesAt T env (.eval v :: rest) (0 :: path) x t
  | evaluated {env v rest path x t} (h : BlockTypesAt T env rest path x t) :
    BlockTypesAt T env (.eval v :: rest) (1 :: path) x t
  | matched {env s arms rest path x t} (h : T.TypesAt env s path x t) :
    BlockTypesAt T env (.branch s arms :: rest) (0 :: path) x t
  | behind {env s arms rest path x t} (h : BlockTypesAt T env rest path x t) :
    BlockTypesAt T env (.branch s arms :: rest) (1 :: path) x t
  | arm {env s arms rest k a scope path x t} (ha : T.Enters env s arms k a scope)
    (h : BlockTypesAt T scope a.body path x t) :
    BlockTypesAt T env (.branch s arms :: rest) ((k + 2) :: path) x t

/-- In related scopes one traversal gets as far as another, with the same types. -/
structure Simulates (T T' : Traversal) (R : T.Scope → T'.Scope → Prop) : Prop where
  visit : ∀ {env env' e r}, R env env' → T.visit env e r → ∃ r', T'.visit env' e r' ∧
    T'.type r' = T.type r ∧ (∀ name, R (T.assign env name r) (T'.assign env' name r')) ∧
    ∀ p scope, T.arm env p r scope → ∃ scope', T'.arm env' p r' scope' ∧ R scope scope'
  plan : ∀ {s patterns p}, T.plan s patterns = .ok p → T'.plan s patterns = .ok p

namespace Simulates

variable {T T' : Traversal} {R : T.Scope → T'.Scope → Prop} {env : T.Scope} {env' : T'.Scope}
  {path : List Nat} {x : Expr} {t : StaticType} (h : Simulates T T' R)
include h

theorem enters {β : Type} {subject : Expr} {arms : List (Arm β)} {k : Nat} {a : Arm β} {scope : T.Scope}
    (hR : R env env') (ha : T.Enters env subject arms k a scope) :
    ∃ scope', T'.Enters env' subject arms k a scope' ∧ R scope scope' := by
  obtain ⟨r, plan, hv, hplan, hk, hget, harm⟩ := ha
  obtain ⟨r', hv', htype, -, harm'⟩ := h.visit hR hv
  obtain ⟨scope', harm', hR'⟩ := harm' _ _ harm
  exact ⟨scope', ⟨r', plan, hv', by rw [htype]; exact h.plan hplan, hk, hget, harm'⟩, hR'⟩

theorem typesAt {e : Expr} (hR : R env env') (ht : T.TypesAt env e path x t) :
    T'.TypesAt env' e path x t := by
  induction ht generalizing env' with
  | here hv =>
    obtain ⟨r', hv', htype, -⟩ := h.visit hR hv
    rw [← htype]
    exact .here hv'
  | lhs _ ih => exact .lhs (ih hR)
  | rhs _ ih => exact .rhs (ih hR)
  | arg ha _ ih => exact .arg ha (ih hR)
  | subject _ ih => exact .subject (ih hR)
  | matched _ ih => exact .matched (ih hR)
  | arm ha _ ih =>
    obtain ⟨scope', ha', hR'⟩ := h.enters hR ha
    exact .arm ha' (ih hR')

theorem blockTypesAt {stmts : List Stmt} (hR : R env env') (ht : T.BlockTypesAt env stmts path x t) :
    T'.BlockTypesAt env' stmts path x t := by
  induction ht generalizing env' with
  | assign ht => exact .assign (h.typesAt hR ht)
  | assigned hv _ ih =>
    obtain ⟨r', hv', -, hassign, -⟩ := h.visit hR hv
    exact .assigned hv' (ih (hassign _))
  | ret ht => exact .ret (h.typesAt hR ht)
  | eval ht => exact .eval (h.typesAt hR ht)
  | evaluated _ ih => exact .evaluated (ih hR)
  | matched ht => exact .matched (h.typesAt hR ht)
  | behind _ ih => exact .behind (ih hR)
  | arm ha _ ih =>
    obtain ⟨scope', ha', hR'⟩ := h.enters hR ha
    exact .arm ha' (ih hR')

end Simulates

end Traversal

/-! ### The two traversals -/

/-- A walk that discovers nothing. -/
def Walker.traversal (w : Walker) : Traversal where
  Scope := TypeEnv
  Result := StaticType
  type := id
  visit env e s := ∃ f : Findings, f.discovered = [] ∧ (w.expr env e).run f = .ok (s, f)
  assign env name s := env.insert name s
  arm env p s scope := scope = env.bind (w.binders p s)
  plan := w.matchPlan

/-- Lowering, wherever the code of an expression starts and whatever has been handed out before. -/
def Lowerer.traversal (l : Lowerer) : Traversal where
  Scope := RegEnv
  Result := LoweredExpr
  type := LoweredExpr.type
  visit env e r := ∃ start p p', (l.expr start env e).run p = .ok (r, p')
  assign env name r := env.insert name (r.reg, r.type)
  arm env p r scope := ∃ code q q', (l.bindPattern env p r.reg r.type).run q = .ok ((scope, code), q')
  plan := l.matchPlan

namespace Lowerer.Mirrors

variable {t : TypeTable} {w : Walker} {l : Lowerer} (hm : Mirrors w l t)
include hm

theorem walked : l.traversal.Simulates w.traversal fun env env' => env.types = env' ∧ EnvKnown env' where
  visit := by
    rintro env _ e r ⟨rfl, hknown⟩ ⟨start, p, p', hr⟩
    have hwalk := expr_types hm.follows {} e _ _ _ _ _ hr
    have hne := (hm.expr e start env _ _ _ hknown hwalk rfl).1
    refine ⟨r.type, ⟨{}, rfl, hwalk⟩, rfl, fun name => ⟨RegEnv.types_insert _ _ _ _, hknown.insert hne⟩, ?_⟩
    rintro pattern scope ⟨code, q, q', hb⟩
    refine ⟨_, rfl, ?_, hknown.bind (binders_known hne)⟩
    rw [hm.typing]
    exact bindPattern_types hb
  plan := matchPlan_eq_ok hm.follows

theorem lowered : w.traversal.Simulates l.traversal fun env' env => env.types = env' ∧ EnvKnown env' where
  visit := by
    rintro _ env e s ⟨rfl, hknown⟩ ⟨f, hf, hwalk⟩
    obtain ⟨hne, hlower⟩ := hm.expr e 0 env _ _ _ hknown hwalk hf
    obtain ⟨r, p', hr, rfl⟩ := hlower {}
    refine ⟨r, ⟨0, {}, p', hr⟩, rfl, fun name => ⟨RegEnv.types_insert _ _ _ _, hknown.insert hne⟩, ?_⟩
    rintro pattern _ rfl
    obtain ⟨⟨scope, code⟩, q', hb, hscope⟩ := bindPattern_yields env pattern r.reg r.type {}
    refine ⟨scope, ⟨code, {}, q', hb⟩, ?_, hknown.bind (binders_known hne)⟩
    rw [hm.typing]
    exact hscope
  plan := hm.matchPlan

/-- Lowering and a walk that discovers nothing give the same types at the same places. -/
theorem blockTypesAt_iff {env : RegEnv} (hknown : EnvKnown env.types) {stmts : List Stmt} {path : List Nat}
    {x : Expr} {s : StaticType} : l.traversal.BlockTypesAt env stmts path x s ↔
      w.traversal.BlockTypesAt env.types stmts path x s :=
  ⟨hm.walked.blockTypesAt ⟨rfl, hknown⟩, hm.lowered.blockTypesAt ⟨rfl, hknown⟩⟩

end Lowerer.Mirrors

/-! ### Compiling -/

namespace Lowerer

/-- The registers of the parameters are handed out with the types that a walk starts with. -/
theorem bindParams_ok (params : List Ident) (ids : List TypeId) (env : RegEnv) (p : Pool) :
    ∃ scope p', (bindParams env (params.zip ids)).run p = .ok (scope, p') ∧
      scope.types = env.types.insertAll (params.zip (ids.map .known)) := by
  induction params generalizing ids env p with
  | nil => exact ⟨env, p, rfl, rfl⟩
  | cons name params ih =>
    cases ids with
    | nil => exact ⟨env, p, rfl, rfl⟩
    | cons id ids =>
      obtain ⟨scope, p', h, htypes⟩ := ih ids (env.insert name (p.registers, .known id))
        { p with registers := p.registers + 1 }
      refine ⟨scope, p', run_bind_eq_ok.2 ⟨_, _, rfl, h⟩, ?_⟩
      rw [htypes, RegEnv.types_insert]
      rfl

theorem Mirrors.artifact_ok {t : TypeTable} {w : Walker} {l : Lowerer} (hm : Mirrors w l t)
    (hstrict : w.strict = true) {s : StaticType} {f : Findings}
    (h : (w.returnType l.definition l.signature.args).run {} = .ok (s, f)) (hf : f.discovered = [])
    (hroot : (l.returnTypes.get? l.signature).isSome) : ∃ a, l.artifact = .ok a := by
  obtain ⟨harity, scope, hblock, -⟩ := Walker.returnType_ok h
  obtain ⟨r, hr⟩ := Option.isSome_iff_exists.1 hroot
  have hbody : Yields l.body fun _ => True := by
    intro p
    obtain ⟨env, p₁, hparams, htypes⟩ :=
      bindParams_ok l.definition.params l.signature.args .empty p
    have hknown : EnvKnown env.types := htypes ▸ Walker.Sound.envKnown_params
    have hwalk : (w.block env.types l.definition.body).run {} = .ok (scope, f) := htypes ▸ hblock
    obtain ⟨⟨code, returns⟩, p₂, hcode, -⟩ := hm.block hstrict _ 0 env _ _ _ hknown hwalk hf p₁
    have hend : Yields (if returns then pure code else do
        let dst ← Pool.fresh
        pure (code ++ [.incomplete dst, .ret dst])) fun _ => True := by
      split
      · exact .pure trivial
      · exact .bind .fresh fun _ _ => .pure trivial
    obtain ⟨a, p₃, ha, -⟩ := hend p₂
    exact ⟨a, p₃, run_bind_eq_ok.2 ⟨env, p₁, hparams, run_bind_eq_ok.2 ⟨_, p₂, hcode, ha⟩⟩, trivial⟩
  obtain ⟨code, pool, hcode, -⟩ := hbody {}
  have hret : l.returned l.signature = .ok (.ofReturn r) := by
    unfold returned
    rw [hr]
  unfold artifact
  rw [if_neg (not_not.2 harity)]
  exact ⟨_, bind_eq_ok.2 ⟨(code, pool), hcode, bind_eq_ok.2 ⟨.ofReturn r, hret, rfl⟩⟩⟩

end Lowerer

namespace Typing

variable {c : Typing} {t : TypeTable} {order : VisitOrder} {root : Signature} {d : FunctionDef}
  {T : ReturnTypes}

theorem exists_artifact (hfits : c.Fits t) (ho : order.Complete) (hd : c.decorated? root.function = .ok d)
    (hT : c.infer order root = .ok T) :
    ∃ a, Lowerer.artifact { c with returnTypes := T, signature := root, definition := d } = .ok a := by
  obtain ⟨hset, hroot⟩ := infer_settled hfits.wellFormed ho hT
  have hinstance : c.instance? root = .ok (d, true) := by
    unfold decorated? at hd
    unfold instance?
    split at hd
    · rename_i hf
      cases hd
      rw [hf]
    · cases hd
  obtain ⟨r, hr⟩ := Option.isSome_iff_exists.1 hroot
  obtain ⟨-, s, hwalk, -⟩ := hset root (.ofReturn r) (by rw [get?_assumptionsOf, hr]; rfl)
  obtain ⟨d', strict, F, hi, hreturn, hF⟩ := walk_instance hwalk
  rw [hinstance] at hi
  cases hi
  have hm : Lowerer.Mirrors { c with assumed := assumptionsOf T, function := root.function, strict := true }
      { c with returnTypes := T, signature := root, definition := d } t :=
    ⟨rfl, get?_assumptionsOf T, hfits⟩
  exact hm.artifact_ok rfl hreturn hF.symm hroot

end Typing

/-- Compiling a decorated function succeeds once inference has found return types, and lowering gives
each expression that it reaches the static type that the last pass of inference gives it, which reaches
the same expressions. -/
theorem Typing.compile_of_infer {e : Engine} (he : e.Reachable) {c : Typing} (hc : e.typing = .ok c)
    {order : VisitOrder} (ho : order.Complete) {root : Signature} {d : FunctionDef}
    (hd : c.decorated? root.function = .ok d) {T : ReturnTypes} (hT : c.infer order root = .ok T) :
    (∃ a, Lowerer.artifact { c with returnTypes := T, signature := root, definition := d } = .ok a ∧
      c.compile order root = .ok a) ∧
    (∃ last, c.pass (order last) (assumptionsOf T) = .ok (assumptionsOf T)) ∧
    ∃ env p, (Lowerer.bindParams .empty (d.params.zip root.args)).run {} = .ok (env, p) ∧
      ∀ path x t,
        (Lowerer.traversal { c with returnTypes := T, signature := root, definition := d }).BlockTypesAt
          env d.body path x t ↔
        (Walker.traversal { c with assumed := assumptionsOf T, function := root.function, strict := true
          }).BlockTypesAt (Walker.params d root.args) d.body path x t := by
  have hfits := (he.wellFormed.typing_serves hc).fits
  obtain ⟨hlast, -⟩ := infer_last hfits.wellFormed ho hT
  obtain ⟨a, ha⟩ := exists_artifact hfits ho hd hT
  have hm : Lowerer.Mirrors { c with assumed := assumptionsOf T, function := root.function, strict := true }
      { c with returnTypes := T, signature := root, definition := d } e.types :=
    ⟨rfl, get?_assumptionsOf T, hfits⟩
  obtain ⟨env, p, hparams, htypes⟩ := Lowerer.bindParams_ok d.params root.args .empty {}
  have hknown : EnvKnown env.types := htypes ▸ Walker.Sound.envKnown_params
  refine ⟨⟨a, ha, bind_eq_ok.2 ⟨d, hd, bind_eq_ok.2 ⟨T, hT, ha⟩⟩⟩, hlast, env, p, hparams, fun path x t => ?_⟩
  have hiff := @Lowerer.Mirrors.blockTypesAt_iff _ _ _ hm env hknown d.body path x t
  rwa [htypes] at hiff

/-! ### Tests of parity -/

namespace Catalog

/-- The walk over the first test in the last pass. -/
def evenWalker : Walker :=
  { parityTyping with
    assumed := Typing.assumptionsOf parityReturns, function := "is_even", strict := true }

/-- The lowering of the first test. -/
def evenLowerer : Lowerer :=
  { parityTyping with returnTypes := parityReturns, signature := ⟨"is_even", [⟨0⟩]⟩, definition := isEven }

theorem typesAt_other : evenWalker.traversal.BlockTypesAt (Walker.params isEven [⟨0⟩]) isEven.body [3, 0]
    (.call "is_odd" [minus (.var "n") 1]) (.known ⟨0⟩) := by
  have hwalk : (evenWalker.expr (Walker.params isEven [⟨0⟩]) (.call "is_odd" [minus (.var "n") 1])).run {} =
      .ok (.known ⟨0⟩, {}) := by with_unfolding_all rfl
  have henters : evenWalker.traversal.Enters (Walker.params isEven [⟨0⟩]) (.var "n")
      [⟨.lit 0, returning (.lit 1)⟩, ⟨.wildcard, returning (.call "is_odd" [minus (.var "n") 1])⟩] 1
      ⟨.wildcard, returning (.call "is_odd" [minus (.var "n") 1])⟩ (Walker.params isEven [⟨0⟩]) :=
    ⟨.known ⟨0⟩, ⟨.scalars [(0, 0)], [0, 1], some 1⟩, ⟨{}, rfl, by with_unfolding_all rfl⟩,
      by with_unfolding_all rfl, by decide, rfl, rfl⟩
  exact .arm henters (.ret (.here ⟨{}, rfl, hwalk⟩))

/-- The first test is compiled, and its call of the other one has there the type that inference found. -/
theorem compile_of_infer_parity : (∃ a, parityTyping.compile .calleesFirst ⟨"is_even", [⟨0⟩]⟩ = .ok a) ∧
    ∃ env, evenLowerer.traversal.BlockTypesAt env isEven.body [3, 0] (.call "is_odd" [minus (.var "n") 1])
      (.known ⟨0⟩) := by
  obtain ⟨⟨a, -, ha⟩, -, env, p, -, hiff⟩ := Typing.compile_of_infer parityEngine_reachable
    typing_parityEngine VisitOrder.complete_calleesFirst (show _ = Except.ok isEven from rfl) infer_parity
  exact ⟨⟨a, ha⟩, env, (hiff _ _ _).2 typesAt_other⟩

end Catalog

end ShapeCompiler
