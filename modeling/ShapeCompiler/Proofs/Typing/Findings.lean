import ShapeCompiler.Proofs.Success
import ShapeCompiler.Proofs.Syntax
import ShapeCompiler.Proofs.Typing.Rules
import ShapeCompiler.Typing.Walk

/-!
What a walk has found only grows.

What holds of finding nothing, of the two ways to find something, and of steps in sequence holds of every
walk (`Walker.Steps`). Main statements: the findings of a walk go up in every order in which its two kinds
of findings go up (`Walker.block_increasing`). So a walk keeps the signatures found before and raises the
return type (`Findings.below_rising`), and it only notes signatures without an assumption
(`Findings.fresh_rising`). In a block, a loop is one step of its own (`Walker.block_loop`).
-/

namespace ShapeCompiler

open TypeTable

/-- An order in which a walk goes up when it notes a signature and when it joins a return type. -/
structure Findings.Rising (w : Walker) (le : Findings → Findings → Prop) : Prop extends Ordered le where
  note : ∀ (f : Findings) {s : Signature}, w.assumed.get? s = none →
    le f { f with discovered := f.discovered ++ [s] }
  join : ∀ (f : Findings) {t joined : StaticType}, w.join f.returns t = .ok joined →
    le f { f with returns := joined }

/-- Findings that have at least the signatures and the return values of others. -/
def Findings.Below (t : TypeTable) (f f' : Findings) : Prop :=
  (∃ more, f'.discovered = f.discovered ++ more) ∧
    ∀ v, f.returns.Admits t v → f'.returns.Admits t v

/-- If nothing is assumed of the signatures that some findings list, then of those of others. -/
def Findings.StaysFresh (w : Walker) (f f' : Findings) : Prop :=
  (∀ s ∈ f.discovered, w.assumed.get? s = none) → ∀ s ∈ f'.discovered, w.assumed.get? s = none

variable {w : Walker} {t : TypeTable}

theorem Findings.below_rising (hc : w.toTyping.Fits t) : Findings.Rising w (Findings.Below t) where
  refl f := ⟨⟨[], by simp⟩, fun _ h => h⟩
  trans := by
    rintro a b c ⟨⟨l, hl⟩, hr⟩ ⟨⟨l', hl'⟩, hr'⟩
    exact ⟨⟨l ++ l', by rw [hl', hl, List.append_assoc]⟩, fun v h => hr' v (hr v h)⟩
  note f s _ := ⟨⟨[s], rfl⟩, fun _ h => h⟩
  join f _ _ hj := ⟨⟨[], by simp⟩, fun _ hv => hc.join_left hj hv⟩

theorem Findings.fresh_rising : Findings.Rising w (Findings.StaysFresh w) where
  refl _ h := h
  trans h h' hf := h' (h hf)
  note f s hs hf := by
    intro s' hs'
    rcases List.mem_append.1 hs' with hs' | hs'
    · exact hf s' hs'
    · rw [List.mem_singleton.1 hs', hs]
  join _ _ _ _ h := h

namespace Walker

/-! ### Loops -/

def loopBody (w : Walker) (body : Block) (env : TypeEnv) : WalkM TypeEnv :=
  w.settleLoop (fun env => w.block env body) (loopRounds env body) env

/-- A block with a loop goes on with what the loop settles on. -/
theorem block_loop (w : Walker) (condition : Expr) (body : Block) (rest : List Stmt) (env : TypeEnv) :
    w.block env (.loop condition body :: rest) = (do
      if w.strict then throw (.loop w.function)
      let _ ← w.expr env condition
      let env ← w.loopBody body env
      w.block env rest) := by
  rw [block]
  rfl

/-- A walk that gets past a loop is not strict, and settles the loop. -/
theorem run_block_loop {w : Walker} {condition : Expr} {body : Block} {rest : List Stmt} {env env' : TypeEnv}
    {f f' : Findings} (h : (w.block env (.loop condition body :: rest)).run f = .ok (env', f')) :
    ∃ s f₁ settled f₂, (w.expr env condition).run f = .ok (s, f₁) ∧
      (w.loopBody body env).run f₁ = .ok (settled, f₂) ∧ (w.block settled rest).run f₂ = .ok (env', f') := by
  rw [block_loop] at h
  split at h
  · obtain ⟨_, _, hthrow, -⟩ := run_bind_eq_ok.1 h
    exact absurd hthrow run_throw_ne_ok
  · obtain ⟨s, f₁, hs, h⟩ := run_bind_eq_ok.1 h
    obtain ⟨settled, f₂, hsettle, h⟩ := run_bind_eq_ok.1 h
    exact ⟨s, f₁, settled, f₂, hs, hsettle, h⟩

/-! ### Steps -/

/-- The scope in which a body is walked. -/
abbrev params (d : FunctionDef) (ids : List TypeId) : TypeEnv :=
  Assoc.ofList (d.params.zip (ids.map .known))

theorem returnType_ok {d : FunctionDef} {ids : List TypeId} {s : StaticType} {f f' : Findings}
    (h : (w.returnType d ids).run f = .ok (s, f')) :
    d.arity = ids.length ∧ ∃ env, (w.block (params d ids) d.body).run f = .ok (env, f') ∧
      w.join f'.returns .incomplete = .ok s := by
  unfold Walker.returnType at h
  split at h
  · obtain ⟨_, _, hthrow, -⟩ := run_bind_eq_ok.1 h
    exact absurd hthrow run_throw_ne_ok
  · rename_i hn
    obtain ⟨env, f₁, hb, h⟩ := run_bind_eq_ok.1 h
    obtain ⟨f₂, f₃, hget, h⟩ := run_bind_eq_ok.1 h
    cases hget
    obtain ⟨hj, rfl⟩ := run_lift_eq_ok.1 h
    exact ⟨not_not.1 hn, env, hb, hj⟩

/-! ### Properties of all steps -/

/-- A property of the steps of a walk: it holds of what finds nothing, of noting a signature, of joining a
return type, and of steps in sequence. -/
structure Steps (w : Walker) (C : (α : Type) → WalkM α → Prop) : Prop where
  pure : ∀ {α : Type} (a : α), C α (pure a)
  throw : ∀ {α : Type} (err : CompileError), C α (throw err)
  lift : ∀ {α : Type} (x : Except CompileError α), C α (liftM x)
  bind : ∀ {α β : Type} {x : WalkM α} {f : α → WalkM β}, C α x → (∀ a, C β (f a)) → C β (x >>= f)
  note : ∀ {s : Signature}, w.assumed.get? s = none →
    C PUnit (modify fun f => { f with discovered := f.discovered ++ [s] })
  join : ∀ (t : StaticType) (env : TypeEnv), C TypeEnv do
    let f ← get
    let joined ← w.join f.returns t
    set { f with returns := joined }
    Pure.pure env

namespace Steps

variable {C : (α : Type) → WalkM α → Prop} (h : w.Steps C)
include h

theorem called (name : Ident) (args : List StaticType) : C _ (w.called name args) := by
  unfold Walker.called
  refine h.bind (h.lift _) fun sig => ?_
  cases sig with
  | none => exact h.pure _
  | some signature =>
    simp only
    split
    · exact h.pure _
    · rename_i hs
      exact h.bind (h.note hs) fun _ => h.pure _

theorem call (name : Ident) (args : List StaticType) : C _ (w.call name args) := by
  unfold Walker.call
  refine h.bind (h.lift _) fun callee => ?_
  rcases callee with ⟨id, r⟩ | _ | (d | n)
  · exact h.bind (h.lift _) fun _ => h.pure _
  · exact h.called name args
  · exact h.called name args
  · exact h.bind (h.lift _) fun _ => h.pure _

theorem exprs {env : TypeEnv} {es : List Expr} (ih : ∀ e ∈ es, ∀ env, C _ (w.expr env e)) :
    C _ (w.exprs env es) := by
  induction es with
  | nil => rw [Walker.exprs]; exact h.pure _
  | cons e rest ihs =>
    rw [Walker.exprs]
    exact h.bind (ih e (by simp) env) fun _ =>
      h.bind (ihs fun x hx => ih x (List.mem_cons_of_mem _ hx)) fun _ => h.pure _

theorem exprArms {env : TypeEnv} {subject joined : StaticType} {reachable : List Nat} {index : Nat}
    {arms : List (Arm Expr)} (ih : ∀ a ∈ arms, ∀ env, C _ (w.expr env a.body)) :
    C _ (w.exprArms env subject reachable index joined arms) := by
  induction arms generalizing index joined with
  | nil => rw [Walker.exprArms]; exact h.pure _
  | cons a rest ihs =>
    have ihr : ∀ x ∈ rest, ∀ env, C _ (w.expr env x.body) := fun x hx => ih x (List.mem_cons_of_mem _ hx)
    rw [Walker.exprArms]
    split
    · exact h.bind (ih a (by simp) _) fun _ => h.bind (h.lift _) fun _ => ihs ihr
    · exact ihs ihr

theorem expr (e : Expr) : ∀ env, C _ (w.expr env e) := by
  induction e using Expr.ind with
  | lit n => intro env; rw [Walker.expr]; exact h.pure _
  | var name =>
    intro env
    rw [Walker.expr]
    split
    · exact h.pure _
    · exact h.throw _
  | binary op lhs rhs ihl ihr =>
    intro env
    rw [Walker.expr]
    exact h.bind (ihl env) fun _ => h.bind (ihr env) fun _ => h.lift _
  | call name args ih =>
    intro env
    rw [Walker.expr]
    exact h.bind (h.exprs ih) fun _ => h.call name _
  | field subject name ih =>
    intro env
    rw [Walker.expr]
    exact h.bind (ih env) fun _ => h.bind (h.lift _) fun _ => h.pure _
  | branch subject arms ihs iha =>
    intro env
    rw [Walker.expr]
    refine h.bind (ihs env) fun s => h.bind (h.lift _) fun plan => h.bind (h.exprArms iha) fun joined => ?_
    split
    · exact h.pure _
    · exact h.lift _
  | incomplete => intro env; rw [Walker.expr]; exact h.pure _

theorem settleLoop {round : TypeEnv → WalkM TypeEnv} (hround : ∀ env, C _ (round env)) :
    ∀ fuel env, C _ (w.settleLoop round fuel env) := by
  intro fuel
  induction fuel with
  | zero => intro env; rw [Walker.settleLoop]; exact h.throw _
  | succ fuel ih =>
    intro env
    rw [Walker.settleLoop]
    refine h.bind (hround env) fun after => h.bind (h.lift _) fun merged => ?_
    split
    · exact h.pure _
    · exact ih merged

theorem blockArms {env : TypeEnv} {subject : StaticType} {reachable : List Nat} {index : Nat}
    {arms : List (Arm (List Stmt))} (ih : ∀ a ∈ arms, ∀ env, C _ (w.block env a.body)) :
    C _ (w.blockArms env subject reachable index arms) := by
  induction arms generalizing index with
  | nil => rw [Walker.blockArms]; exact h.pure _
  | cons a rest ihs =>
    have ihr : ∀ x ∈ rest, ∀ env, C _ (w.block env x.body) := fun x hx => ih x (List.mem_cons_of_mem _ hx)
    rw [Walker.blockArms]
    refine h.bind ?_ fun _ => ihs ihr
    split
    · exact ih a (by simp) _
    · exact h.pure _

theorem block (stmts : List Stmt) : ∀ env, C _ (w.block env stmts) := by
  induction stmts using Block.ind with
  | nil => intro env; rw [Walker.block]; exact h.pure _
  | assign name value rest ih =>
    intro env
    rw [Walker.block]
    exact h.bind (h.expr value env) fun _ => ih _
  | ret value rest =>
    intro env
    rw [Walker.block]
    exact h.bind (h.expr value env) fun s => h.join s env
  | eval value rest ih =>
    intro env
    rw [Walker.block]
    exact h.bind (h.expr value env) fun _ => ih env
  | branch subject arms rest iha ih =>
    intro env
    rw [Walker.block]
    exact h.bind (h.expr subject env) fun _ => h.bind (h.lift _) fun _ =>
      h.bind (h.blockArms iha) fun _ => ih env
  | loop condition body rest ihb ih =>
    intro env
    rw [Walker.block_loop]
    split
    · exact h.bind (h.throw _) fun _ => h.bind (h.expr condition env) fun _ =>
        h.bind (h.settleLoop ihb _ _) fun _ => ih _
    · exact h.bind (h.expr condition env) fun _ => h.bind (h.settleLoop ihb _ _) fun _ => ih _

end Steps

/-! ### Findings go up -/

variable {le : Findings → Findings → Prop} (hr : Findings.Rising w le)
include hr

theorem steps_increasing : w.Steps fun _ x => Increasing le x where
  pure a := .pure hr.toOrdered a
  throw err := .throw err
  lift x := .lift hr.toOrdered x
  bind hx hf := .bind hr.toOrdered hx hf
  note hs f _ f' h := by
    cases h
    exact hr.note f hs
  join t env f env' f' h := by
    obtain ⟨f₁, f₂, hf, h⟩ := run_bind_eq_ok.1 h
    cases hf
    obtain ⟨joined, f₃, hl, h⟩ := run_bind_eq_ok.1 h
    obtain ⟨hj, rfl⟩ := run_lift_eq_ok.1 hl
    cases h
    exact hr.join _ hj

theorem call_increasing (name : Ident) (args : List StaticType) : Increasing le (w.call name args) :=
  (steps_increasing hr).call name args

theorem exprs_increasing {env : TypeEnv} {es : List Expr}
    (ih : ∀ e ∈ es, ∀ env, Increasing le (w.expr env e)) : Increasing le (w.exprs env es) :=
  (steps_increasing hr).exprs ih

theorem exprArms_increasing {env : TypeEnv} {subject joined : StaticType} {reachable : List Nat}
    {index : Nat} {arms : List (Arm Expr)} (ih : ∀ a ∈ arms, ∀ env, Increasing le (w.expr env a.body)) :
    Increasing le (w.exprArms env subject reachable index joined arms) :=
  (steps_increasing hr).exprArms ih

theorem expr_increasing (e : Expr) : ∀ env, Increasing le (w.expr env e) := (steps_increasing hr).expr e

theorem settleLoop_increasing {round : TypeEnv → WalkM TypeEnv} (h : ∀ env, Increasing le (round env)) :
    ∀ fuel env, Increasing le (w.settleLoop round fuel env) :=
  (steps_increasing hr).settleLoop h

theorem blockArms_increasing {env : TypeEnv} {subject : StaticType} {reachable : List Nat}
    {index : Nat} {arms : List (Arm (List Stmt))}
    (ih : ∀ a ∈ arms, ∀ env, Increasing le (w.block env a.body)) :
    Increasing le (w.blockArms env subject reachable index arms) :=
  (steps_increasing hr).blockArms ih

theorem block_increasing (stmts : List Stmt) : ∀ env, Increasing le (w.block env stmts) :=
  (steps_increasing hr).block stmts

end Walker

end ShapeCompiler
