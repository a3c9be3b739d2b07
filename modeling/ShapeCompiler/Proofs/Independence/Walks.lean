import ShapeCompiler.Proofs.Independence.Rules
import ShapeCompiler.Proofs.Typing.Termination

/-!
Inference in surroundings that have gained different scalars.

Walks in twin surroundings under twin assumptions find the same, and so do passes. The bound on passes
depends on how many types there are, but inference never gets to it, so both sides can be given the
larger one. Main statements: walks are parallel (`Walker.Twin.returnType`), and so is inference
(`Typing.Twin.infer`).
-/

namespace ShapeCompiler

open TypeTable

/-- Scopes of the same names with types that are described alike. -/
abbrev TypeEnv.Twin (t t' : TypeTable) : TypeEnv → TypeEnv → Prop := Assoc.Related Eq (StaticType.Twin t t')

/-- Assumptions on the same signatures that are described alike. -/
abbrev Assumptions.Twin (t t' : TypeTable) : Assumptions → Assumptions → Prop :=
  Assoc.Related (Signature.Twin t t') (StaticType.Twin t t')

/-- Return types of the same signatures that are described alike. -/
abbrev ReturnTypes.Twin (t t' : TypeTable) : ReturnTypes → ReturnTypes → Prop :=
  Assoc.Related (Signature.Twin t t') (Option.Rel (t.Twin t'))

/-- Findings that are described alike. -/
structure Findings.Twin (t t' : TypeTable) (f f' : Findings) : Prop where
  returns : f.returns.Twin t t' f'.returns
  discovered : List.Forall₂ (Signature.Twin t t') f.discovered f'.discovered

/-- Walks of the same body in twin surroundings. -/
structure Walker.Twin (t₀ : TypeTable) (w w' : Walker) : Prop where
  typing : Typing.Twin t₀ w.toTyping w'.toTyping
  assumed : Assumptions.Twin w.types w'.types w.assumed w'.assumed
  function : w'.function = w.function
  strict : w'.strict = w.strict

/-- Walks that find the same. -/
abbrev FindsAlike {α β : Type} (t t' : TypeTable) (R : α → β → Prop) (x : WalkM α) (y : WalkM β) : Prop :=
  ParallelIn (Findings.Twin t t') R x y

theorem biUnique_eq {α : Type} : Relator.BiUnique (Eq : α → α → Prop) :=
  ⟨fun _ _ _ h h' => h.trans h'.symm, fun _ _ _ h h' => h.symm.trans h'⟩

/-! ### Walks -/

namespace Walker.Twin

variable {t₀ : TypeTable} {w w' : Walker} {s s' : StaticType} {env env' : TypeEnv} {name : Ident}
  (h : Walker.Twin t₀ w w')
include h

theorem bind (henv : TypeEnv.Twin w.types w'.types env env') {pattern : Pattern}
    (hs : s.Twin w.types w'.types s') :
    TypeEnv.Twin w.types w'.types (env.bind (w.binders pattern s)) (env'.bind (w'.binders pattern s')) := by
  refine henv.insertAll biUnique_eq (List.forall₂_map_left_iff.2 (List.forall₂_map_right_iff.2 ?_))
  exact (h.typing.binders pattern hs).imp fun _ _ hb => ⟨hb.name, hb.type⟩

theorem called (name : Ident) {ts ts' : List StaticType}
    (hts : List.Forall₂ (StaticType.Twin w.types w'.types) ts ts') :
    FindsAlike w.types w'.types (StaticType.Twin w.types w'.types) (w.called name ts)
      (w'.called name ts') := by
  unfold Walker.called
  refine (ParallelIn.lift (Typing.Twin.signature? name hts)).bind fun a b hab => ?_
  cases hab with
  | none => exact .pure .unknown
  | @some x x' hx =>
    have hget := h.assumed.get? (Signature.Twin.biUnique h.typing.types) hx
    simp only
    generalize w.assumed.get? x = o at hget ⊢
    generalize w'.assumed.get? x' = o' at hget ⊢
    cases hget with
    | some hs => exact .pure hs
    | none =>
      refine (ParallelIn.modify fun f f' hf => ?_).bind fun _ _ _ => .pure .unknown
      exact ⟨hf.returns, List.rel_append hf.discovered (.cons hx .nil)⟩

theorem call (name : Ident) {ts ts' : List StaticType}
    (hts : List.Forall₂ (StaticType.Twin w.types w'.types) ts ts') :
    FindsAlike w.types w'.types (StaticType.Twin w.types w'.types) (w.call name ts) (w'.call name ts') := by
  unfold Walker.call
  rw [← hts.length_eq]
  refine (ParallelIn.lift (.of_eq (R := fun a b => a = b ∧ w.resolve name ts.length = .ok a)
    (h.typing.resolve_eq name ts.length) fun _ hr => ⟨rfl, hr⟩)).bind ?_
  rintro callee _ ⟨rfl, hr⟩
  have hcallee := Typing.resolve_eq_ok hr
  rcases callee with ⟨id, r⟩ | _ | (d | n)
  · have hrec := (recordNamed?_eq_some.1 hcallee.1).2
    refine (ParallelIn.lift (.of_eq (R := fun _ _ => True)
      (h.typing.checkFields_eq r.name (h.typing.types.field hrec) hts)
      fun _ _ => trivial)).bind fun _ _ _ => ?_
    exact .pure (h.typing.types.known (h.typing.types.common_of_record hrec))
  · exact h.called name hts
  · exact h.called name hts
  · obtain ⟨hparams, hreturns⟩ := h.typing.natives hcallee.2
    refine (ParallelIn.lift (.of_eq (R := fun _ _ => True) (h.typing.checkParams_eq name 0 hparams hts)
      fun _ _ => trivial)).bind fun _ _ _ => ?_
    exact .pure (h.typing.types.known hreturns)

theorem matchPlan_eq (hs : s.Twin w.types w'.types s') (patterns : List Pattern) :
    w'.matchPlan s' patterns = w.matchPlan s patterns := by
  unfold Walker.matchPlan
  rw [h.function, h.typing.plan_eq _ hs]

omit h in
theorem exprs {es : List Expr}
    (ih : ∀ e ∈ es, ∀ env env', TypeEnv.Twin w.types w'.types env env' →
      FindsAlike w.types w'.types (StaticType.Twin w.types w'.types) (w.expr env e) (w'.expr env' e))
    (henv : TypeEnv.Twin w.types w'.types env env') :
    FindsAlike w.types w'.types (List.Forall₂ (StaticType.Twin w.types w'.types)) (w.exprs env es)
      (w'.exprs env' es) := by
  induction es with
  | nil =>
    rw [Walker.exprs, Walker.exprs]
    exact .pure .nil
  | cons e rest ihs =>
    rw [Walker.exprs, Walker.exprs]
    refine (ih e (by simp) env env' henv).bind fun s s' hs => ?_
    refine (ihs fun x hx => ih x (List.mem_cons_of_mem _ hx)).bind fun ss ss' hss => ?_
    exact .pure (.cons hs hss)

theorem exprArms {arms : List (Arm Expr)}
    (ih : ∀ a ∈ arms, ∀ env env', TypeEnv.Twin w.types w'.types env env' →
      FindsAlike w.types w'.types (StaticType.Twin w.types w'.types) (w.expr env a.body)
        (w'.expr env' a.body))
    (henv : TypeEnv.Twin w.types w'.types env env') (hs : s.Twin w.types w'.types s')
    (reachable : List Nat) (index : Nat) {joined joined' : StaticType}
    (hj : joined.Twin w.types w'.types joined') :
    FindsAlike w.types w'.types (StaticType.Twin w.types w'.types)
      (w.exprArms env s reachable index joined arms)
      (w'.exprArms env' s' reachable index joined' arms) := by
  induction arms generalizing index joined joined' with
  | nil =>
    rw [Walker.exprArms, Walker.exprArms]
    exact .pure hj
  | cons a rest ihs =>
    have ihr := ihs fun x hx => ih x (List.mem_cons_of_mem _ hx)
    rw [Walker.exprArms, Walker.exprArms]
    split
    · refine (ih a (by simp) _ _ (h.bind henv hs)).bind fun t t' ht => ?_
      exact (ParallelIn.lift (h.typing.join hj ht)).bind fun j j' hj => ihr _ hj
    · exact ihr _ hj

theorem expr (e : Expr) : ∀ env env', TypeEnv.Twin w.types w'.types env env' →
    FindsAlike w.types w'.types (StaticType.Twin w.types w'.types) (w.expr env e) (w'.expr env' e) := by
  induction e using Expr.ind with
  | lit n =>
    intro env env' _
    rw [Walker.expr, Walker.expr]
    exact .pure (.known h.typing.scalar)
  | var name =>
    intro env env' henv
    have hget := henv.get? biUnique_eq (rfl : name = name)
    rw [Walker.expr, Walker.expr]
    generalize env.get? name = o at hget ⊢
    generalize env'.get? name = o' at hget ⊢
    cases hget with
    | some hs => exact .pure hs
    | none =>
      rw [h.function]
      exact .throw _
  | binary op lhs rhs ihl ihr =>
    intro env env' henv
    rw [Walker.expr, Walker.expr]
    refine (ihl env env' henv).bind fun s s' hs => (ihr env env' henv).bind fun r r' hr => ?_
    exact .lift (h.typing.binary op hs hr)
  | call name args ih =>
    intro env env' henv
    rw [Walker.expr, Walker.expr]
    exact (exprs ih henv).bind fun ts ts' hts => h.call name hts
  | field subject name ih =>
    intro env env' henv
    rw [Walker.expr, Walker.expr]
    refine (ih env env' henv).bind fun s s' hs => ?_
    exact (ParallelIn.lift (h.typing.field hs name)).bind fun p p' hp => .pure hp.1
  | branch subject arms ihs iha =>
    intro env env' henv
    rw [Walker.expr, Walker.expr]
    refine (ihs env env' henv).bind fun s s' hs => ?_
    refine (ParallelIn.lift (.of_eq (R := Eq) (h.matchPlan_eq hs _) fun _ _ => rfl)).bind
      fun plan plan' heq => ?_
    subst heq
    refine (h.exprArms iha henv hs plan.reachable 0 .unknown).bind fun r r' hr => ?_
    split
    · exact .pure hr
    · exact .lift (h.typing.join hr .incomplete)
  | incomplete =>
    intro env env' _
    rw [Walker.expr, Walker.expr]
    exact .pure .incomplete

theorem mergeRound {before before' : TypeEnv} (hb : TypeEnv.Twin w.types w'.types before before')
    {entries entries' : List (Ident × StaticType)}
    (he : List.Forall₂ (fun p q => p.1 = q.1 ∧ p.2.Twin w.types w'.types q.2) entries entries') :
    Parallel (TypeEnv.Twin w.types w'.types) (w.mergeRound before entries)
      (w'.mergeRound before' entries') := by
  induction he generalizing before before' with
  | nil => exact .ok hb
  | @cons p q _ _ hp _ ih =>
    obtain ⟨name, s⟩ := p
    obtain ⟨_, s'⟩ := q
    obtain ⟨rfl, hs⟩ := hp
    have hget := hb.get? biUnique_eq (rfl : name = name)
    rw [Walker.mergeRound, Walker.mergeRound]
    generalize before.get? name = o at hget ⊢
    generalize before'.get? name = o' at hget ⊢
    cases hget with
    | none => exact ih (hb.insert biUnique_eq rfl hs)
    | some hold => exact (h.typing.join hold hs).bind fun _ _ hj => ih (hb.insert biUnique_eq rfl hj)

theorem settleLoop {round round' : TypeEnv → WalkM TypeEnv}
    (hround : ∀ env env', TypeEnv.Twin w.types w'.types env env' →
      FindsAlike w.types w'.types (TypeEnv.Twin w.types w'.types) (round env) (round' env')) (fuel : Nat)
    (henv : TypeEnv.Twin w.types w'.types env env') :
    FindsAlike w.types w'.types (TypeEnv.Twin w.types w'.types) (w.settleLoop round fuel env)
      (w'.settleLoop round' fuel env') := by
  induction fuel generalizing env env' with
  | zero =>
    rw [Walker.settleLoop, Walker.settleLoop, h.function]
    exact .throw _
  | succ fuel ih =>
    rw [Walker.settleLoop, Walker.settleLoop]
    refine (hround env env' henv).bind fun after after' hafter => ?_
    refine (ParallelIn.lift (h.mergeRound henv hafter)).bind fun merged merged' hm => ?_
    have heq := hm.eq_iff biUnique_eq (StaticType.Twin.biUnique h.typing.types) henv
    simp only [← heq]
    split
    · exact .pure henv
    · exact ih hm

theorem blockArms {arms : List (Arm (List Stmt))}
    (ih : ∀ a ∈ arms, ∀ env env', TypeEnv.Twin w.types w'.types env env' →
      FindsAlike w.types w'.types (TypeEnv.Twin w.types w'.types) (w.block env a.body)
        (w'.block env' a.body))
    (henv : TypeEnv.Twin w.types w'.types env env') (hs : s.Twin w.types w'.types s')
    (reachable : List Nat) (index : Nat) :
    FindsAlike w.types w'.types (fun _ _ => True) (w.blockArms env s reachable index arms)
      (w'.blockArms env' s' reachable index arms) := by
  induction arms generalizing index with
  | nil =>
    rw [Walker.blockArms, Walker.blockArms]
    exact .pure trivial
  | cons a rest ihs =>
    rw [Walker.blockArms, Walker.blockArms]
    refine ParallelIn.bind (R := TypeEnv.Twin w.types w'.types) ?_ fun _ _ _ =>
      ihs (fun x hx => ih x (List.mem_cons_of_mem _ hx)) _
    split
    · exact ih a (by simp) _ _ (h.bind henv hs)
    · exact .pure henv

theorem block (stmts : List Stmt) : ∀ env env', TypeEnv.Twin w.types w'.types env env' →
    FindsAlike w.types w'.types (TypeEnv.Twin w.types w'.types) (w.block env stmts)
      (w'.block env' stmts) := by
  induction stmts using Block.ind with
  | nil =>
    intro env env' henv
    rw [Walker.block, Walker.block]
    exact .pure henv
  | assign name value rest ih =>
    intro env env' henv
    rw [Walker.block, Walker.block]
    exact (h.expr value env env' henv).bind fun s s' hs => ih _ _ (henv.insert biUnique_eq rfl hs)
  | ret value rest =>
    intro env env' henv
    rw [Walker.block, Walker.block]
    refine (h.expr value env env' henv).bind fun s s' hs => ParallelIn.get.bind fun f f' hf => ?_
    refine (ParallelIn.lift (h.typing.join hf.returns hs)).bind fun j j' hj => ?_
    exact (ParallelIn.set ⟨hj, hf.discovered⟩).bind fun _ _ _ => .pure henv
  | eval value rest ih =>
    intro env env' henv
    rw [Walker.block, Walker.block]
    exact (h.expr value env env' henv).bind fun _ _ _ => ih env env' henv
  | branch subject arms rest iha ih =>
    intro env env' henv
    rw [Walker.block, Walker.block]
    refine (h.expr subject env env' henv).bind fun s s' hs => ?_
    refine (ParallelIn.lift (.of_eq (R := Eq) (h.matchPlan_eq hs _) fun _ _ => rfl)).bind
      fun plan plan' heq => ?_
    subst heq
    exact (h.blockArms iha henv hs plan.reachable 0).bind fun _ _ _ => ih env env' henv
  | loop condition body rest ihb ih =>
    intro env env' henv
    have hrounds : Walker.loopRounds env' body = Walker.loopRounds env body := by
      unfold Walker.loopRounds
      rw [henv.size]
    rw [Walker.block, Walker.block, h.strict, h.function, hrounds]
    have hrest : FindsAlike w.types w'.types (TypeEnv.Twin w.types w'.types)
        (do
          let _ ← w.expr env condition
          let env ← w.settleLoop (fun env => w.block env body) (Walker.loopRounds env body) env
          w.block env rest)
        (do
          let _ ← w'.expr env' condition
          let env' ← w'.settleLoop (fun env' => w'.block env' body) (Walker.loopRounds env body) env'
          w'.block env' rest) :=
      (h.expr condition env env' henv).bind fun _ _ _ =>
        (h.settleLoop ihb _ henv).bind fun _ _ henv => ih _ _ henv
    split
    · exact (ParallelIn.throw _).bind fun _ _ (_ : True) => hrest
    · exact hrest

theorem returnType (d : FunctionDef) {ids ids' : List TypeId}
    (hids : List.Forall₂ (w.types.Twin w'.types) ids ids') :
    FindsAlike w.types w'.types (StaticType.Twin w.types w'.types) (w.returnType d ids)
      (w'.returnType d ids') := by
  have henv : TypeEnv.Twin w.types w'.types (Assoc.ofList (d.params.zip (ids.map .known)))
      (Assoc.ofList (d.params.zip (ids'.map .known))) := by
    refine Assoc.Related.empty.insertAll biUnique_eq ?_
    generalize d.params = params
    induction hids generalizing params with
    | nil => simp
    | cons hid _ ih =>
      cases params with
      | nil => exact .nil
      | cons p params => exact .cons ⟨rfl, .known hid⟩ (ih params)
  have hrest : FindsAlike w.types w'.types (StaticType.Twin w.types w'.types)
      (do
        let _ ← w.block (Assoc.ofList (d.params.zip (ids.map .known))) d.body
        let f ← get
        w.join f.returns .incomplete)
      (do
        let _ ← w'.block (Assoc.ofList (d.params.zip (ids'.map .known))) d.body
        let f ← get
        w'.join f.returns .incomplete) :=
    (h.block d.body _ _ henv).bind fun _ _ _ => ParallelIn.get.bind fun f f' hf =>
      .lift (h.typing.join hf.returns .incomplete)
  unfold Walker.returnType
  rw [← hids.length_eq]
  split
  · exact (ParallelIn.throw _).bind fun _ _ (_ : True) => hrest
  · exact hrest

end Walker.Twin

/-! ### Passes -/

/-- The orders visit signatures that are described alike at the same places. -/
def VisitOrder.Alike (t t' : TypeTable) (order order' : VisitOrder) : Prop :=
  ∀ pass {l l'}, List.Forall₂ (Signature.Twin t t') l l' →
    List.Forall₂ (Signature.Twin t t') (order pass l) (order' pass l')

theorem VisitOrder.Alike.calleesFirst (t t' : TypeTable) :
    VisitOrder.Alike t t' .calleesFirst .calleesFirst := fun _ _ _ hl => List.rel_reverse hl

/-- Where types keep their numbers, signatures that are described alike are the same. -/
theorem Signature.Twin.eq {t₀ t t' : TypeTable} (hT : Siblings t₀ t t') (hg : t.Grows t') {x x' : Signature}
    (h : Signature.Twin t t' x x') : x = x' := by
  have hargs : List.Forall₂ Eq x.args x'.args := h.args.imp fun id id' hid => by
    obtain ⟨d, hd, hd'⟩ := hid
    exact TypeTable.Twin.unique hT.right ⟨d, hd, hg.get? hd⟩ ⟨d, hd, hd'⟩
  obtain ⟨f, args⟩ := x
  obtain rfl : f = x'.function := h.function
  rw [List.forall₂_eq_eq_eq] at hargs
  rw [show args = x'.args from hargs]

/-- There, every complete order visits the same signatures at the same places. -/
theorem VisitOrder.Alike.of_grows {t₀ t t' : TypeTable} (hT : Siblings t₀ t t') (hg : t.Grows t')
    {order : VisitOrder} (ho : order.Complete) : order.Alike t t' order := by
  intro pass l l' hl
  have hall : List.Forall₂ (fun x x' => Signature.Twin t t' x x ∧ x = x') l l' := hl.imp fun x x' hx => by
    obtain rfl := hx.eq hT hg
    exact ⟨hx, rfl⟩
  obtain ⟨hself, heq⟩ := (List.forall₂_and_left _ _).1 hall
  rw [List.forall₂_eq_eq_eq] at heq
  subst heq
  exact List.forall₂_same.2 fun x hx => hself x ((ho pass l x).1 hx)

namespace Typing.Twin

variable {t₀ : TypeTable} {c c' : Typing} {A A' : Assumptions} {x x' : Signature}
  {l l' : List Signature} (h : Typing.Twin t₀ c c')
include h

theorem walk (hA : Assumptions.Twin c.types c'.types A A') (hx : x.Twin c.types c'.types x') :
    Parallel (fun p q => p.1.Twin c.types c'.types q.1 ∧
      List.Forall₂ (Signature.Twin c.types c'.types) p.2 q.2) (c.walk A x) (c'.walk A' x') := by
  have hinstance : c'.instance? x' = c.instance? x := by
    unfold Typing.instance?
    rw [h.functions, hx.function]
  unfold Typing.walk
  refine (Parallel.of_eq (R := Eq) hinstance fun _ _ => rfl).bind fun p q heq => ?_
  subst heq
  obtain ⟨d, strict⟩ := p
  have hw : Walker.Twin t₀ { c with assumed := A, function := x.function, strict }
      { c' with assumed := A', function := x'.function, strict } :=
    ⟨h, hA, hx.function.symm, rfl⟩
  exact (hw.returnType d hx.args {} {} ⟨.unknown, .nil⟩).bind fun p q hp => .ok ⟨hp.1, hp.2.discovered⟩

theorem visit (hA : Assumptions.Twin c.types c'.types A A')
    (hl : List.Forall₂ (Signature.Twin c.types c'.types) l l') :
    Parallel (fun p q => Assumptions.Twin c.types c'.types p.1 q.1 ∧
      List.Forall₂ (Signature.Twin c.types c'.types) p.2 q.2) (c.visit A l) (c'.visit A' l') := by
  have hkeys := Signature.Twin.biUnique h.types
  induction hl generalizing A A' with
  | nil => exact .ok ⟨hA, .nil⟩
  | @cons x x' _ _ hx _ ih =>
    have hold : ((A.get? x).getD .unknown).Twin c.types c'.types ((A'.get? x').getD .unknown) := by
      have hget := hA.get? hkeys hx
      generalize A.get? x = o at hget ⊢
      generalize A'.get? x' = o' at hget ⊢
      cases hget with
      | none => exact .unknown
      | some hs => exact hs
    rw [Typing.visit, Typing.visit]
    refine (h.walk hA hx).bind fun p q hp => ?_
    refine (h.join hold hp.1).bind fun j j' hj => ?_
    have heq : j = (A.get? x).getD .unknown ↔ j' = (A'.get? x').getD .unknown :=
      Relator.rel_eq (StaticType.Twin.biUnique h.types) hj hold
    have hnext : Assumptions.Twin c.types c'.types
        (if j = (A.get? x).getD .unknown then A else A.insert x j)
        (if j' = (A'.get? x').getD .unknown then A' else A'.insert x' j') := by
      simp only [← heq]
      split
      · exact hA
      · exact hA.insert hkeys hx hj
    exact (ih hnext).bind fun r r' hr => .ok ⟨hr.1, List.rel_append hp.2 hr.2⟩

theorem assumeNothing (hA : Assumptions.Twin c.types c'.types A A')
    (hl : List.Forall₂ (Signature.Twin c.types c'.types) l l') :
    Assumptions.Twin c.types c'.types (assumeNothing A l) (Typing.assumeNothing A' l') := by
  have hkeys := Signature.Twin.biUnique h.types
  induction hl generalizing A A' with
  | nil => exact hA
  | cons hx _ ih =>
    rw [Typing.assumeNothing_cons, Typing.assumeNothing_cons, hA.contains hkeys hx]
    split
    · exact ih hA
    · exact ih (hA.insert hkeys hx .unknown)

theorem pass {order order' : List Signature → List Signature} (hA : Assumptions.Twin c.types c'.types A A')
    (ho : ∀ {l l'}, List.Forall₂ (Signature.Twin c.types c'.types) l l' →
      List.Forall₂ (Signature.Twin c.types c'.types) (order l) (order' l')) :
    Parallel (Assumptions.Twin c.types c'.types) (c.pass order A) (c'.pass order' A') := by
  unfold Typing.pass
  exact (h.visit hA (ho hA.keys)).bind fun p q hp => .ok (h.assumeNothing hp.1 hp.2)

theorem settle {order order' : VisitOrder} (ho : order.Alike c.types c'.types order') (root : Ident)
    (fuel passes : Nat) (hA : Assumptions.Twin c.types c'.types A A') :
    Parallel (ReturnTypes.Twin c.types c'.types) (c.settle order root fuel passes A)
      (c'.settle order' root fuel passes A') := by
  induction fuel generalizing passes A A' with
  | zero => exact .error _
  | succ fuel ih =>
    rw [Typing.settle, Typing.settle, ← hA.size]
    split
    · refine (h.pass hA (ho passes)).bind fun next next' hnext => ?_
      have heq := hnext.eq_iff (Signature.Twin.biUnique h.types) (StaticType.Twin.biUnique h.types) hA
      simp only [← heq]
      split
      · refine .ok (List.forall₂_map_left_iff.2 (List.forall₂_map_right_iff.2 ?_))
        exact hA.imp fun _ _ hp => ⟨hp.1, hp.2.known?_rel⟩
      · exact ih _ hnext
    · exact .error _

end Typing.Twin

/-! ### Inference -/

namespace Typing

variable {t₀ : TypeTable} {c c' : Typing} {order : VisitOrder} {root : Signature}

/-- Passes that end before they are used up end in the same way when more are allowed. -/
theorem settle_more {name : Ident} {fuel passes : Nat} {A : Assumptions}
    (h : ∀ err, c.settle order name fuel passes A = .error err → err.Final) (more : Nat) :
    c.settle order name (fuel + more) passes A = c.settle order name fuel passes A := by
  induction fuel generalizing passes A with
  | zero => exact (h _ rfl).elim
  | succ fuel ih =>
    rw [Nat.add_right_comm, settle, settle]
    rw [settle] at h
    split
    · rename_i hp
      rw [if_pos hp] at h
      cases hpass : c.pass (order passes) A with
      | error err => rfl
      | ok next =>
        rw [hpass] at h
        show (if next = A then _ else _) = if next = A then _ else _
        change ∀ err, (if next = A then _ else _) = _ → _ at h
        split
        · rfl
        · rename_i hne
          rw [if_neg hne] at h
          exact ih h
    · rfl

theorem Twin.infer (h : Twin t₀ c c') (hg : c.Grounded) (hg' : c'.Grounded) {order order' : VisitOrder}
    (hc : order.Complete) (hc' : order'.Complete) (ho : order.Alike c.types c'.types order')
    {root' : Signature} (hroot : root.Twin c.types c'.types root') :
    Parallel (ReturnTypes.Twin c.types c'.types) (c.infer order root) (c'.infer order' root') := by
  have hfinal : ∀ err, c.infer order root = .error err → err.Final := fun err h => (infer_ofTyping hg hc h).final
  have hfinal' : ∀ err, c'.infer order' root' = .error err → err.Final := fun err h => (infer_ofTyping hg' hc' h).final
  unfold Typing.infer at hfinal hfinal' ⊢
  generalize passesPerInstance * c.instanceBound root + 2 = n at hfinal ⊢
  generalize passesPerInstance * c'.instanceBound root' + 2 = n' at hfinal' ⊢
  rw [← settle_more hfinal n', ← settle_more hfinal' n, Nat.add_comm n' n, hroot.function]
  exact h.settle ho _ _ _
    (Assoc.Related.empty.insert (Signature.Twin.biUnique h.types) hroot .unknown)

end Typing

end ShapeCompiler
