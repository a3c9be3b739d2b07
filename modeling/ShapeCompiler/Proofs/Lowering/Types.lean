import ShapeCompiler.Proofs.Assoc
import ShapeCompiler.Proofs.Lowering.Artifact
import ShapeCompiler.Proofs.Lowering.Pools
import ShapeCompiler.Proofs.Syntax

/-!
Lowering types expressions as a walk does.

Main statement: the static type that lowering gives an expression is the one of a walk that assumes
the return types which inference found, and this walk discovers nothing (`Lowerer.expr_types`).
-/

namespace ShapeCompiler

def RegEnv.types (env : RegEnv) : TypeEnv := ⟨env.entries.map fun p => (p.1, p.2.2)⟩

theorem RegEnv.get?_types (env : RegEnv) (name : Ident) :
    env.types.get? name = (env.get? name).map Prod.snd :=
  Assoc.find_map Prod.snd name env.entries

theorem RegEnv.types_insert (env : RegEnv) (name : Ident) (r : Reg) (t : StaticType) :
    RegEnv.types (env.insert name (r, t)) = env.types.insert name t :=
  congrArg Assoc.mk (Assoc.put_map Prod.snd name (r, t) env.entries)

namespace Lowerer

variable {l : Lowerer} {p p' : Pool}

theorem returned_eq_ok {s : Signature} {t : StaticType} (h : l.returned s = .ok t) :
    ∃ r, l.returnTypes.get? s = some r ∧ t = .ofReturn r := by
  unfold returned at h
  split at h
  · rename_i r hr
    cases h
    exact ⟨r, hr, rfl⟩
  · cases h

theorem calleeSignature_eq_ok {name : Ident} {ts : List StaticType} {s : Signature}
    (h : calleeSignature name ts = .ok s) : Typing.signature? name ts = .ok (some s) := by
  unfold calleeSignature at h
  obtain ⟨o, ho, h⟩ := bind_eq_ok.1 h
  split at h
  · cases h
    exact ho
  · cases h

theorem bindFields_types {subject : Reg} {binders : List Binder} {env scope : RegEnv}
    {fields fields' : List (Reg × FieldAccess)}
    (h : (bindFields subject env fields binders).run p = .ok ((scope, fields'), p')) :
    scope.types = env.types.bind binders := by
  induction binders generalizing env fields p with
  | nil =>
    rw [bindFields] at h
    obtain ⟨h, -⟩ := run_pure_eq_ok.1 h
    cases h
    rfl
  | cons b rest ih =>
    obtain ⟨name, t, access⟩ := b
    cases access with
    | none =>
      rw [bindFields] at h
      rw [ih h, RegEnv.types_insert]
      rfl
    | some access =>
      rw [bindFields] at h
      obtain ⟨reg, p₁, -, h⟩ := run_bind_eq_ok.1 h
      rw [ih h, RegEnv.types_insert]
      rfl

/-- The scope of an arm has the types that a walk gives it. -/
theorem bindPattern_types {env scope : RegEnv} {pattern : Pattern} {subject : Reg} {type : StaticType}
    {code : List Op} (h : (l.bindPattern env pattern subject type).run p = .ok ((scope, code), p')) :
    scope.types = env.types.bind (l.binders pattern type) := by
  unfold bindPattern at h
  obtain ⟨⟨scope', fields⟩, p₁, hb, h⟩ := run_bind_eq_ok.1 h
  obtain ⟨h, -⟩ := run_pure_eq_ok.1 h
  cases h
  exact bindFields_types hb

/-- A walk in the surroundings of lowering that assumes the return types which inference found. -/
structure Follows (w : Walker) (l : Lowerer) : Prop where
  typing : w.toTyping = l.toTyping
  assumed : ∀ {s r}, l.returnTypes.get? s = some r → w.assumed.get? s = some (.ofReturn r)

variable {w : Walker} (hw : Follows w l) (f : Findings)
include hw

theorem called_types {name : Ident} {ts : List StaticType} {s : Signature} {t : StaticType}
    (hs : calleeSignature name ts = .ok s) (ht : l.returned s = .ok t) :
    (w.called name ts).run f = .ok (t, f) := by
  obtain ⟨r, hr, rfl⟩ := returned_eq_ok ht
  unfold Walker.called
  refine run_bind_eq_ok.2 ⟨some s, f, run_lift_eq_ok.2 ⟨calleeSignature_eq_ok hs, rfl⟩, ?_⟩
  simp only [hw.assumed hr]
  rfl

theorem call_types {name : Ident} {args : List (Reg × StaticType)} {c : LoweredExpr}
    (h : (l.call name args).run p = .ok (c, p')) :
    (w.call name (args.map Prod.snd)).run f = .ok (c.type, f) := by
  unfold call at h
  obtain ⟨dst, p₁, -, h⟩ := run_bind_eq_ok.1 h
  obtain ⟨callee, p₂, hl, h⟩ := run_bind_eq_ok.1 h
  obtain ⟨hr, rfl⟩ := run_lift_eq_ok.1 hl
  unfold Walker.call
  refine run_bind_eq_ok.2 ⟨callee, f, run_lift_eq_ok.2 ⟨?_, rfl⟩, ?_⟩
  · rw [hw.typing, List.length_map]
    exact hr
  -- a call whose type is the return type that inference found
  have function : ∀ {s t}, calleeSignature name (args.map Prod.snd) = .ok s → l.returned s = .ok t →
      (w.called name (args.map Prod.snd)).run f = .ok (t, f) := fun hs ht => called_types hw f hs ht
  rcases callee with ⟨id, r⟩ | _ | (d | n)
  · obtain ⟨_, p₃, hl, h⟩ := run_bind_eq_ok.1 h
    obtain ⟨hc, rfl⟩ := run_lift_eq_ok.1 hl
    obtain ⟨rfl, -⟩ := run_pure_eq_ok.1 h
    refine run_bind_eq_ok.2 ⟨(), f, run_lift_eq_ok.2 ⟨?_, rfl⟩, rfl⟩
    rw [hw.typing]
    exact hc
  · obtain ⟨s, p₃, hl, h⟩ := run_bind_eq_ok.1 h
    obtain ⟨hs, rfl⟩ := run_lift_eq_ok.1 hl
    obtain ⟨t, p₄, hl, h⟩ := run_bind_eq_ok.1 h
    obtain ⟨ht, rfl⟩ := run_lift_eq_ok.1 hl
    split at h
    · obtain ⟨rfl, -⟩ := run_pure_eq_ok.1 h
      exact function hs ht
    · obtain ⟨site, p₅, -, h⟩ := run_bind_eq_ok.1 h
      obtain ⟨rfl, -⟩ := run_pure_eq_ok.1 h
      exact function hs ht
  · obtain ⟨s, p₃, hl, h⟩ := run_bind_eq_ok.1 h
    obtain ⟨hs, rfl⟩ := run_lift_eq_ok.1 hl
    obtain ⟨t, p₄, hl, h⟩ := run_bind_eq_ok.1 h
    obtain ⟨ht, rfl⟩ := run_lift_eq_ok.1 hl
    obtain ⟨site, p₅, -, h⟩ := run_bind_eq_ok.1 h
    obtain ⟨rfl, -⟩ := run_pure_eq_ok.1 h
    obtain ⟨r, -, rfl⟩ := returned_eq_ok ht
    refine (function hs ht).trans ?_
    cases r <;> rfl
  · obtain ⟨_, p₃, hl, h⟩ := run_bind_eq_ok.1 h
    obtain ⟨hc, rfl⟩ := run_lift_eq_ok.1 hl
    obtain ⟨site, p₅, -, h⟩ := run_bind_eq_ok.1 h
    obtain ⟨rfl, -⟩ := run_pure_eq_ok.1 h
    refine run_bind_eq_ok.2 ⟨(), f, run_lift_eq_ok.2 ⟨?_, rfl⟩, rfl⟩
    rw [hw.typing]
    exact hc

/-- A walk over the expression finds the type that lowering gives it. -/
def TypedAlike (w : Walker) (l : Lowerer) (f : Findings) (e : Expr) : Prop :=
  ∀ start env p r p', (l.expr start env e).run p = .ok (r, p') →
    (w.expr env.types e).run f = .ok (r.type, f)

omit hw in
theorem exprs_types {es : List Expr} (ih : ∀ e ∈ es, TypedAlike w l f e) {start : Nat} {env : RegEnv}
    {as : LoweredArgs} (h : (l.exprs start env es).run p = .ok (as, p')) :
    (w.exprs env.types es).run f = .ok (as.args.map Prod.snd, f) := by
  induction es generalizing start as p p' with
  | nil =>
    rw [exprs] at h
    obtain ⟨rfl, -⟩ := run_pure_eq_ok.1 h
    rw [Walker.exprs]
    rfl
  | cons e rest ihs =>
    rw [exprs] at h
    obtain ⟨a, p₁, ha, h⟩ := run_bind_eq_ok.1 h
    obtain ⟨as', p₂, has, h⟩ := run_bind_eq_ok.1 h
    obtain ⟨rfl, -⟩ := run_pure_eq_ok.1 h
    rw [Walker.exprs]
    refine run_bind_eq_ok.2 ⟨a.type, f, ih e (by simp) _ _ _ _ _ ha, ?_⟩
    exact run_bind_eq_ok.2 ⟨_, f, ihs (fun x hx => ih x (List.mem_cons_of_mem _ hx)) has, rfl⟩

theorem exprArms_types {arms : List (Arm Expr)} (ih : ∀ a ∈ arms, TypedAlike w l f a.body)
    {start index : Nat} {env : RegEnv} {subject dst : Reg} {type joined t : StaticType}
    {reachable : List Nat} {lowered : List LoweredArm}
    (h : (l.exprArms start env subject type dst reachable index joined arms).run p =
      .ok ((t, lowered), p')) :
    (w.exprArms env.types type reachable index joined arms).run f = .ok (t, f) := by
  induction arms generalizing start index joined lowered p p' with
  | nil =>
    rw [exprArms] at h
    obtain ⟨h, -⟩ := run_pure_eq_ok.1 h
    cases h
    rw [Walker.exprArms]
    rfl
  | cons a rest ihs =>
    have ihr : ∀ x ∈ rest, TypedAlike w l f x.body := fun x hx => ih x (List.mem_cons_of_mem _ hx)
    rw [exprArms] at h
    rw [Walker.exprArms]
    split at h
    · rename_i hk
      rw [if_pos hk]
      obtain ⟨⟨scope, unpack⟩, p₁, hb, h⟩ := run_bind_eq_ok.1 h
      obtain ⟨b, p₂, he, h⟩ := run_bind_eq_ok.1 h
      obtain ⟨joined', p₃, hl, h⟩ := run_bind_eq_ok.1 h
      obtain ⟨hj, rfl⟩ := run_lift_eq_ok.1 hl
      obtain ⟨⟨t', lowered'⟩, p₄, hr, h⟩ := run_bind_eq_ok.1 h
      obtain ⟨h, -⟩ := run_pure_eq_ok.1 h
      cases h
      have hscope := bindPattern_types hb
      refine run_bind_eq_ok.2 ⟨b.type, f, ?_, ?_⟩
      · rw [hw.typing, ← hscope]
        exact ih a (by simp) _ _ _ _ _ he
      · refine run_bind_eq_ok.2 ⟨joined', f, run_lift_eq_ok.2 ⟨?_, rfl⟩, ihs ihr hr⟩
        rw [hw.typing]
        exact hj
    · rename_i hk
      rw [if_neg hk]
      exact ihs ihr h

theorem matchPlan_eq_ok {subject : StaticType} {patterns : List Pattern} {plan : MatchPlan}
    (h : l.matchPlan subject patterns = .ok plan) : w.matchPlan subject patterns = .ok plan := by
  unfold Walker.matchPlan Typing.plan
  rw [hw.typing]
  exact mapError_eq_ok.2 (mapError_eq_ok.1 h)

/-- The type that lowering gives an expression is the one that a walk finds. -/
theorem expr_types (e : Expr) : TypedAlike w l f e := by
  induction e using Expr.ind with
  | lit n =>
    intro start env p r p' h
    rw [expr] at h
    obtain ⟨dst, p₁, -, h⟩ := run_bind_eq_ok.1 h
    obtain ⟨rfl, -⟩ := run_pure_eq_ok.1 h
    rw [Walker.expr, hw.typing]
    rfl
  | var name =>
    intro start env p r p' h
    rw [expr] at h
    rw [Walker.expr, RegEnv.get?_types]
    split at h
    · rename_i reg t he
      obtain ⟨rfl, -⟩ := run_pure_eq_ok.1 h
      rw [he]
      rfl
    · exact absurd h run_throw_ne_ok
  | binary op lhs rhs ihl ihr =>
    intro start env p r p' h
    rw [expr] at h
    obtain ⟨a, p₁, ha, h⟩ := run_bind_eq_ok.1 h
    obtain ⟨b, p₂, hb, h⟩ := run_bind_eq_ok.1 h
    obtain ⟨t, p₃, hl, h⟩ := run_bind_eq_ok.1 h
    obtain ⟨ht, rfl⟩ := run_lift_eq_ok.1 hl
    obtain ⟨dst, p₄, -, h⟩ := run_bind_eq_ok.1 h
    obtain ⟨rfl, -⟩ := run_pure_eq_ok.1 h
    rw [Walker.expr]
    refine run_bind_eq_ok.2 ⟨_, f, ihl _ _ _ _ _ ha, run_bind_eq_ok.2 ⟨_, f, ihr _ _ _ _ _ hb, ?_⟩⟩
    rw [hw.typing]
    exact run_lift_eq_ok.2 ⟨ht, rfl⟩
  | call name args ih =>
    intro start env p r p' h
    rw [expr] at h
    obtain ⟨as, p₁, ha, h⟩ := run_bind_eq_ok.1 h
    obtain ⟨c, p₂, hc, h⟩ := run_bind_eq_ok.1 h
    obtain ⟨rfl, -⟩ := run_pure_eq_ok.1 h
    have hcall := call_types hw f hc
    rw [Walker.expr]
    exact run_bind_eq_ok.2 ⟨_, f, exprs_types f ih ha, hcall⟩
  | field subject name ih =>
    intro start env p r p' h
    rw [expr] at h
    obtain ⟨s, p₁, hs, h⟩ := run_bind_eq_ok.1 h
    obtain ⟨⟨t, location⟩, p₂, hl, h⟩ := run_bind_eq_ok.1 h
    obtain ⟨ht, rfl⟩ := run_lift_eq_ok.1 hl
    obtain ⟨dst, p₃, -, h⟩ := run_bind_eq_ok.1 h
    obtain ⟨rfl, -⟩ := run_pure_eq_ok.1 h
    rw [Walker.expr]
    refine run_bind_eq_ok.2 ⟨_, f, ih _ _ _ _ _ hs, ?_⟩
    rw [hw.typing]
    exact run_bind_eq_ok.2 ⟨(t, location), f, run_lift_eq_ok.2 ⟨ht, rfl⟩, rfl⟩
  | branch subject arms ihs iha =>
    intro start env p r p' h
    obtain ⟨s, p₁, plan, t, lowered, t', hs, hplan, ha, ht, rfl⟩ := run_branch h
    rw [Walker.expr]
    refine run_bind_eq_ok.2 ⟨_, f, ihs _ _ _ _ _ hs, run_bind_eq_ok.2 ⟨plan, f, run_lift_eq_ok.2
      ⟨matchPlan_eq_ok hw hplan, rfl⟩, run_bind_eq_ok.2 ⟨t, f, exprArms_types hw f iha ha, ?_⟩⟩⟩
    split at ht
    · rename_i hex
      cases ht
      rw [if_pos hex]
      rfl
    · rename_i hex
      rw [if_neg hex, hw.typing]
      exact run_lift_eq_ok.2 ⟨ht, rfl⟩
  | incomplete =>
    intro start env p r p' h
    rw [expr] at h
    obtain ⟨dst, p₁, -, h⟩ := run_bind_eq_ok.1 h
    obtain ⟨rfl, -⟩ := run_pure_eq_ok.1 h
    rw [Walker.expr]
    rfl

end Lowerer

/-- The return type of an artifact is the one that inference found for its signature. -/
theorem Artifact.Compiled.get?_returns {a : Artifact} {l : Lowerer} {pool : Pool}
    (h : a.Compiled l pool) :
    l.returnTypes.get? l.signature = some a.returns := by
  obtain ⟨t, ht, ha⟩ := h.returns
  obtain ⟨r, hr, rfl⟩ := Lowerer.returned_eq_ok ht
  rw [hr, ha]
  cases r <;> rfl

end ShapeCompiler
