import ShapeCompiler.Lowering
import ShapeCompiler.Proofs.Success
import ShapeCompiler.Proofs.Syntax

/-!
Registers and sites that lowering hands out.

Main statements: lowering takes nothing back (`Lowerer.expr_increasing`, `Lowerer.block_increasing`),
so a site stands at its number ever after (`Pool.run_callSite`, `Pool.run_hostSite`).
-/

namespace ShapeCompiler

namespace Pool

/-- What is handed out in one pool is handed out in another. -/
structure Le (p p' : Pool) : Prop where
  registers : p.registers ≤ p'.registers
  callSites : ∃ more, p'.callSites = p.callSites ++ more
  hostSites : ∃ more, p'.hostSites = p.hostSites ++ more

theorem le_ordered : Ordered Le where
  refl p := ⟨Nat.le_refl _, ⟨[], by simp⟩, ⟨[], by simp⟩⟩
  trans := by
    rintro a b c ⟨hr, ⟨l, hl⟩, ⟨k, hk⟩⟩ ⟨hr', ⟨l', hl'⟩, ⟨k', hk'⟩⟩
    refine ⟨Nat.le_trans hr hr', ⟨l ++ l', ?_⟩, ⟨k ++ k', ?_⟩⟩
    · rw [hl', hl, List.append_assoc]
    · rw [hk', hk, List.append_assoc]

variable {p p' : Pool} {k : Nat}

theorem Le.callSite {s : Signature} (h : p.Le p') (hk : p.callSites[k]? = some s) :
    p'.callSites[k]? = some s := by
  obtain ⟨more, hm⟩ := h.callSites
  rw [hm, List.getElem?_append_left (List.getElem?_eq_some_iff.1 hk).1, hk]

theorem Le.hostSite {s : HostSite} (h : p.Le p') (hk : p.hostSites[k]? = some s) :
    p'.hostSites[k]? = some s := by
  obtain ⟨more, hm⟩ := h.hostSites
  rw [hm, List.getElem?_append_left (List.getElem?_eq_some_iff.1 hk).1, hk]

theorem run_fresh {r : Reg} (h : fresh.run p = .ok (r, p')) :
    r = p.registers ∧ p' = { p with registers := p.registers + 1 } := by
  cases h
  exact ⟨rfl, rfl⟩

theorem le_fresh (p : Pool) : p.Le { p with registers := p.registers + 1 } :=
  ⟨Nat.le_succ _, ⟨[], by simp⟩, ⟨[], by simp⟩⟩

theorem run_callSite {s : Signature} (h : (callSite s).run p = .ok (k, p')) :
    p.Le p' ∧ p'.registers = p.registers ∧ p'.callSites[k]? = some s := by
  unfold callSite at h
  obtain ⟨q, q', hg, h⟩ := run_bind_eq_ok.1 h
  cases hg
  split at h
  · rename_i site hs
    obtain ⟨rfl, rfl⟩ := run_pure_eq_ok.1 h
    refine ⟨le_ordered.refl p, rfl, ?_⟩
    obtain ⟨hlt, he, -⟩ := List.findIdx?_eq_some_iff_getElem.1 hs
    rw [List.getElem?_eq_getElem hlt]
    simpa using he
  · obtain ⟨_, q', hset, h⟩ := run_bind_eq_ok.1 h
    cases hset
    obtain ⟨rfl, rfl⟩ := run_pure_eq_ok.1 h
    exact ⟨⟨Nat.le_refl _, ⟨[s], rfl⟩, ⟨[], by simp⟩⟩, rfl, by simp⟩

/-- Only the signature that a site is asked for may be new. -/
theorem mem_callSites {s s' : Signature} (h : (callSite s).run p = .ok (k, p'))
    (hs : s' ∈ p'.callSites) : s' ∈ p.callSites ∨ s' = s := by
  unfold callSite at h
  obtain ⟨q, q', hg, h⟩ := run_bind_eq_ok.1 h
  cases hg
  split at h
  · obtain ⟨-, rfl⟩ := run_pure_eq_ok.1 h
    exact .inl hs
  · obtain ⟨_, q', hset, h⟩ := run_bind_eq_ok.1 h
    cases hset
    obtain ⟨-, rfl⟩ := run_pure_eq_ok.1 h
    simpa using hs

theorem nodup_callSites {s : Signature} (h : (callSite s).run p = .ok (k, p'))
    (hp : p.callSites.Nodup) : p'.callSites.Nodup := by
  unfold callSite at h
  obtain ⟨q, q', hg, h⟩ := run_bind_eq_ok.1 h
  cases hg
  split at h
  · obtain ⟨-, rfl⟩ := run_pure_eq_ok.1 h
    exact hp
  · rename_i hs
    obtain ⟨_, q', hset, h⟩ := run_bind_eq_ok.1 h
    cases hset
    obtain ⟨-, rfl⟩ := run_pure_eq_ok.1 h
    refine List.nodup_append.2 ⟨hp, by simp, fun x hx y hy => ?_⟩
    obtain rfl := List.mem_singleton.1 hy
    have hne := List.findIdx?_eq_none_iff.1 hs x hx
    simpa using hne

theorem run_hostSite {s : HostSite} (h : (hostSite s).run p = .ok (k, p')) :
    p.Le p' ∧ p'.registers = p.registers ∧ p'.hostSites[k]? = some s := by
  unfold hostSite at h
  obtain ⟨q, q', hg, h⟩ := run_bind_eq_ok.1 h
  cases hg
  obtain ⟨_, q', hset, h⟩ := run_bind_eq_ok.1 h
  cases hset
  obtain ⟨rfl, rfl⟩ := run_pure_eq_ok.1 h
  exact ⟨⟨Nat.le_refl _, ⟨[], by simp⟩, ⟨[s], rfl⟩⟩, rfl, by simp⟩

theorem fresh_increasing : Increasing Le fresh := by
  intro p r p' h
  obtain ⟨-, rfl⟩ := run_fresh h
  exact le_fresh p

theorem callSite_increasing (s : Signature) : Increasing Le (callSite s) :=
  fun _ _ _ h => (run_callSite h).1

theorem hostSite_increasing (s : HostSite) : Increasing Le (hostSite s) :=
  fun _ _ _ h => (run_hostSite h).1

end Pool

namespace Lowerer

open Pool

variable {l : Lowerer}

theorem call_increasing (name : Ident) (args : List (Reg × StaticType)) :
    Increasing Le (l.call name args) := by
  have ho := le_ordered
  unfold call
  refine .bind ho fresh_increasing fun dst => .bind ho (.lift ho _) fun callee => ?_
  rcases callee with ⟨id, r⟩ | _ | (d | n)
  · exact .bind ho (.lift ho _) fun _ => .pure ho _
  · refine .bind ho (.lift ho _) fun s => .bind ho (.lift ho _) fun t => ?_
    split
    · exact .pure ho _
    · exact .bind ho (callSite_increasing _) fun _ => .pure ho _
  · exact .bind ho (.lift ho _) fun s => .bind ho (.lift ho _) fun t =>
      .bind ho (hostSite_increasing _) fun _ => .pure ho _
  · exact .bind ho (.lift ho _) fun _ => .bind ho (hostSite_increasing _) fun _ => .pure ho _

/-- A call is one instruction, which writes the next register. -/
theorem run_call {name : Ident} {args : List (Reg × StaticType)} {c : LoweredExpr} {p p' : Pool}
    (h : (l.call name args).run p = .ok (c, p')) :
    c.reg = p.registers ∧ c.code.length = 1 ∧ p'.registers = p.registers + 1 := by
  unfold call at h
  obtain ⟨dst, p₁, hd, h⟩ := run_bind_eq_ok.1 h
  obtain ⟨rfl, rfl⟩ := run_fresh hd
  obtain ⟨callee, p₂, hl, h⟩ := run_bind_eq_ok.1 h
  obtain ⟨-, rfl⟩ := run_lift_eq_ok.1 hl
  rcases callee with ⟨id, r⟩ | _ | (d | n)
  · obtain ⟨_, p₃, hl, h⟩ := run_bind_eq_ok.1 h
    obtain ⟨-, rfl⟩ := run_lift_eq_ok.1 hl
    obtain ⟨rfl, rfl⟩ := run_pure_eq_ok.1 h
    exact ⟨rfl, rfl, rfl⟩
  · obtain ⟨s, p₃, hl, h⟩ := run_bind_eq_ok.1 h
    obtain ⟨-, rfl⟩ := run_lift_eq_ok.1 hl
    obtain ⟨t, p₄, hl, h⟩ := run_bind_eq_ok.1 h
    obtain ⟨-, rfl⟩ := run_lift_eq_ok.1 hl
    split at h
    · obtain ⟨rfl, rfl⟩ := run_pure_eq_ok.1 h
      exact ⟨rfl, rfl, rfl⟩
    · obtain ⟨site, p₅, hs, h⟩ := run_bind_eq_ok.1 h
      obtain ⟨rfl, rfl⟩ := run_pure_eq_ok.1 h
      exact ⟨rfl, rfl, (run_callSite hs).2.1⟩
  · obtain ⟨s, p₃, hl, h⟩ := run_bind_eq_ok.1 h
    obtain ⟨-, rfl⟩ := run_lift_eq_ok.1 hl
    obtain ⟨t, p₄, hl, h⟩ := run_bind_eq_ok.1 h
    obtain ⟨-, rfl⟩ := run_lift_eq_ok.1 hl
    obtain ⟨site, p₅, hs, h⟩ := run_bind_eq_ok.1 h
    obtain ⟨rfl, rfl⟩ := run_pure_eq_ok.1 h
    exact ⟨rfl, rfl, (run_hostSite hs).2.1⟩
  · obtain ⟨_, p₃, hl, h⟩ := run_bind_eq_ok.1 h
    obtain ⟨-, rfl⟩ := run_lift_eq_ok.1 hl
    obtain ⟨site, p₄, hs, h⟩ := run_bind_eq_ok.1 h
    obtain ⟨rfl, rfl⟩ := run_pure_eq_ok.1 h
    exact ⟨rfl, rfl, (run_hostSite hs).2.1⟩

/-- Whether a plan covers every value decides about the type of a match, but not about its code. -/
theorem run_branch {start : Nat} {env : RegEnv} {subject : Expr} {arms : List (Arm Expr)} {x : LoweredExpr}
    {p p' : Pool} (h : (l.expr start env (.branch subject arms)).run p = .ok (x, p')) :
    ∃ s p₁ plan t lowered t', (l.expr start env subject).run p = .ok (s, p₁) ∧
      l.matchPlan s.type (arms.map (·.pattern)) = .ok plan ∧
      (l.exprArms (start + s.code.length + 1) env s.reg s.type p₁.registers plan.reachable 0 .unknown arms).run
        { p₁ with registers := p₁.registers + 1 } = .ok ((t, lowered), p') ∧
      (if plan.isExhaustive then .ok t else l.join t .incomplete) = .ok t' ∧
      x = ⟨s.code ++ [plan.switch s.reg lowered (start + s.code.length + 1 + LoweredArm.totalSize lowered)]
          ++ LoweredArm.joinTo (start + s.code.length + 1 + LoweredArm.totalSize lowered + 1) lowered
          ++ [.incomplete p₁.registers], p₁.registers, t'⟩ := by
  rw [expr] at h
  obtain ⟨s, p₁, hs, h⟩ := run_bind_eq_ok.1 h
  obtain ⟨plan, p₂, hlift, h⟩ := run_bind_eq_ok.1 h
  obtain ⟨hplan, rfl⟩ := run_lift_eq_ok.1 hlift
  obtain ⟨dst, p₃, hdst, h⟩ := run_bind_eq_ok.1 h
  obtain ⟨rfl, rfl⟩ := run_fresh hdst
  obtain ⟨⟨t, lowered⟩, p₄, harms, h⟩ := run_bind_eq_ok.1 h
  dsimp only at h
  split at h
  · rename_i hex
    obtain ⟨t', p₅, ht, h⟩ := run_bind_eq_ok.1 h
    obtain ⟨rfl, rfl⟩ := run_pure_eq_ok.1 ht
    obtain ⟨rfl, rfl⟩ := run_pure_eq_ok.1 h
    exact ⟨s, p₁, plan, t, lowered, t, hs, hplan, harms, if_pos hex, rfl⟩
  · rename_i hex
    obtain ⟨t', p₅, ht, h⟩ := run_bind_eq_ok.1 h
    obtain ⟨hjoin, rfl⟩ := run_lift_eq_ok.1 ht
    obtain ⟨rfl, rfl⟩ := run_pure_eq_ok.1 h
    exact ⟨s, p₁, plan, t, lowered, t', hs, hplan, harms, (if_neg hex).trans hjoin, rfl⟩

/-! ### What every step of lowering keeps to -/

/-- An order that lowering goes up in, because handing out a register and lowering a call do. -/
structure Steps (l : Lowerer) (R : Pool → Pool → Prop) : Prop where
  ordered : Ordered R
  fresh : Increasing R Pool.fresh
  call : ∀ name args, Increasing R (l.call name args)

theorem bindFields_increasing {R : Pool → Pool → Prop} (ho : Ordered R) (hfresh : Increasing R fresh)
    (subject : Reg) (binders : List Binder) :
    ∀ env fields, Increasing R (bindFields subject env fields binders) := by
  induction binders with
  | nil => intro env fields; rw [bindFields]; exact .pure ho _
  | cons b rest ih =>
    intro env fields
    obtain ⟨name, t, access⟩ := b
    cases access with
    | none => rw [bindFields]; exact ih _ _
    | some access => rw [bindFields]; exact .bind ho hfresh fun reg => ih _ _

section Steps

variable {R : Pool → Pool → Prop} (h : l.Steps R)
include h

theorem Steps.bindPattern_increasing (env : RegEnv) (pattern : Pattern) (subject : Reg) (type : StaticType) :
    Increasing R (l.bindPattern env pattern subject type) := by
  unfold bindPattern
  exact .bind h.ordered (bindFields_increasing h.ordered h.fresh subject _ env []) fun _ => .pure h.ordered _

theorem Steps.exprs_increasing {es : List Expr}
    (ih : ∀ e ∈ es, ∀ start env, Increasing R (l.expr start env e)) :
    ∀ start env, Increasing R (l.exprs start env es) := by
  have ho := h.ordered
  induction es with
  | nil => intro start env; rw [exprs]; exact .pure ho _
  | cons e rest ihs =>
    intro start env
    rw [exprs]
    exact .bind ho (ih e (by simp) _ _) fun _ =>
      .bind ho (ihs (fun x hx => ih x (List.mem_cons_of_mem _ hx)) _ _) fun _ => .pure ho _

theorem Steps.exprArms_increasing {env : RegEnv} {subject dst : Reg} {type : StaticType}
    {reachable : List Nat} {arms : List (Arm Expr)}
    (ih : ∀ a ∈ arms, ∀ start env, Increasing R (l.expr start env a.body)) :
    ∀ start index joined,
      Increasing R (l.exprArms start env subject type dst reachable index joined arms) := by
  have ho := h.ordered
  induction arms with
  | nil => intro start index joined; rw [exprArms]; exact .pure ho _
  | cons a rest ihs =>
    intro start index joined
    have ihr : ∀ x ∈ rest, ∀ start env, Increasing R (l.expr start env x.body) := fun x hx =>
      ih x (List.mem_cons_of_mem _ hx)
    rw [exprArms]
    split
    · exact .bind ho (h.bindPattern_increasing _ _ _ _) fun _ => .bind ho (ih a (by simp) _ _) fun _ =>
        .bind ho (.lift ho _) fun _ => .bind ho (ihs ihr _ _ _) fun _ => .pure ho _
    · exact ihs ihr _ _ _

theorem Steps.expr_increasing (e : Expr) : ∀ start env, Increasing R (l.expr start env e) := by
  have ho := h.ordered
  induction e using Expr.ind with
  | lit n =>
    intro start env
    rw [expr]
    exact .bind ho h.fresh fun _ => .pure ho _
  | var name =>
    intro start env
    rw [expr]
    split
    · exact .pure ho _
    · exact .throw _
  | binary op lhs rhs ihl ihr =>
    intro start env
    rw [expr]
    exact .bind ho (ihl _ _) fun _ => .bind ho (ihr _ _) fun _ => .bind ho (.lift ho _) fun _ =>
      .bind ho h.fresh fun _ => .pure ho _
  | call name args ih =>
    intro start env
    rw [expr]
    exact .bind ho (h.exprs_increasing ih _ _) fun _ => .bind ho (h.call _ _) fun _ => .pure ho _
  | field subject name ih =>
    intro start env
    rw [expr]
    exact .bind ho (ih _ _) fun _ => .bind ho (.lift ho _) fun _ =>
      .bind ho h.fresh fun _ => .pure ho _
  | branch subject arms ihs iha =>
    intro start env
    rw [expr]
    refine .bind ho (ihs _ _) fun s => .bind ho (.lift ho _) fun plan =>
      .bind ho h.fresh fun dst => .bind ho (h.exprArms_increasing iha _ _ _) fun p => ?_
    obtain ⟨t, lowered⟩ := p
    dsimp only
    split
    · exact .bind ho (.pure ho _) fun _ => .pure ho _
    · exact .bind ho (.lift ho _) fun _ => .pure ho _
  | incomplete =>
    intro start env
    rw [expr]
    exact .bind ho h.fresh fun _ => .pure ho _

theorem Steps.blockArms_increasing {env : RegEnv} {subject : Reg} {type : StaticType}
    {reachable : List Nat} {arms : List (Arm (List Stmt))}
    (ih : ∀ a ∈ arms, ∀ start env, Increasing R (l.block start env a.body)) :
    ∀ start index, Increasing R (l.blockArms start env subject type reachable index arms) := by
  have ho := h.ordered
  induction arms with
  | nil => intro start index; rw [blockArms]; exact .pure ho _
  | cons a rest ihs =>
    intro start index
    have ihr : ∀ x ∈ rest, ∀ start env, Increasing R (l.block start env x.body) := fun x hx =>
      ih x (List.mem_cons_of_mem _ hx)
    rw [blockArms]
    split
    · exact .bind ho (h.bindPattern_increasing _ _ _ _) fun _ => .bind ho (ih a (by simp) _ _) fun _ =>
        .bind ho (ihs ihr _ _) fun _ => .pure ho _
    · exact ihs ihr _ _

theorem Steps.block_increasing (stmts : List Stmt) : ∀ start env, Increasing R (l.block start env stmts) := by
  have ho := h.ordered
  induction stmts using Block.ind with
  | nil => intro start env; rw [block]; exact .pure ho _
  | assign name value rest ih =>
    intro start env
    rw [block]
    exact .bind ho (h.expr_increasing value _ _) fun _ => .bind ho (ih _ _) fun _ => .pure ho _
  | ret value rest =>
    intro start env
    rw [block]
    exact .bind ho (h.expr_increasing value _ _) fun _ => .pure ho _
  | eval value rest ih =>
    intro start env
    rw [block]
    exact .bind ho (h.expr_increasing value _ _) fun _ => .bind ho (ih _ _) fun _ => .pure ho _
  | branch subject arms rest iha ih =>
    intro start env
    rw [block]
    exact .bind ho (h.expr_increasing subject _ _) fun _ => .bind ho (.lift ho _) fun _ =>
      .bind ho (h.blockArms_increasing iha _ _) fun _ => .bind ho (ih _ _) fun _ => .pure ho _
  | loop condition body rest ihb ih =>
    intro start env
    rw [block]
    exact .throw _

theorem Steps.bindParams_increasing (params : List (Ident × TypeId)) :
    ∀ env, Increasing R (bindParams env params) := by
  have ho := h.ordered
  induction params with
  | nil => intro env; rw [bindParams]; exact .pure ho _
  | cons p rest ih =>
    intro env
    obtain ⟨name, t⟩ := p
    rw [bindParams]
    exact .bind ho h.fresh fun reg => ih _

theorem Steps.body_increasing : Increasing R l.body := by
  have ho := h.ordered
  unfold body
  refine .bind ho (h.bindParams_increasing _ _) fun env => .bind ho (h.block_increasing _ _ _) fun p => ?_
  obtain ⟨code, returns⟩ := p
  dsimp only
  split
  · exact .pure ho _
  · exact .bind ho h.fresh fun _ => .pure ho _

end Steps

/-! ### Pools only grow -/

theorem steps_le (l : Lowerer) : l.Steps Le where
  ordered := le_ordered
  fresh := fresh_increasing
  call := call_increasing

theorem bindPattern_increasing (env : RegEnv) (pattern : Pattern) (subject : Reg) (type : StaticType) :
    Increasing Le (l.bindPattern env pattern subject type) :=
  (steps_le l).bindPattern_increasing env pattern subject type

theorem expr_increasing (e : Expr) : ∀ start env, Increasing Le (l.expr start env e) :=
  (steps_le l).expr_increasing e

theorem exprs_increasing (es : List Expr) : ∀ start env, Increasing Le (l.exprs start env es) :=
  (steps_le l).exprs_increasing fun e _ => expr_increasing e

theorem exprArms_increasing {env : RegEnv} {subject dst : Reg} {type : StaticType}
    {reachable : List Nat} (arms : List (Arm Expr)) : ∀ start index joined,
      Increasing Le (l.exprArms start env subject type dst reachable index joined arms) :=
  (steps_le l).exprArms_increasing fun a _ => expr_increasing a.body

theorem block_increasing (stmts : List Stmt) : ∀ start env, Increasing Le (l.block start env stmts) :=
  (steps_le l).block_increasing stmts

theorem blockArms_increasing {env : RegEnv} {subject : Reg} {type : StaticType}
    {reachable : List Nat} (arms : List (Arm (List Stmt))) : ∀ start index,
      Increasing Le (l.blockArms start env subject type reachable index arms) :=
  (steps_le l).blockArms_increasing fun a _ => block_increasing a.body

end Lowerer

end ShapeCompiler
