import ShapeCompiler.Lowering
import ShapeCompiler.Proofs.Independence.Walks

/-!
Lowering in surroundings that have gained different scalars.

Code does not number types, so it is the same on both sides; the tables of call sites and of host sites are
described alike. Main statements: lowering is parallel (`Lowerer.Twin.artifact`), and what is compiled for
signatures that are described alike is described alike, errors being the same (`Typing.Twin.compile`).
-/

namespace ShapeCompiler

open TypeTable

/-- Sites of one registered host function whose types are described alike. -/
structure HostSite.Twin (fs : Functions) (t t' : TypeTable) (x y : HostSite) : Prop where
  name : x.name = y.name
  function : x.function = y.function
  registered : fs.get? x.name = some x.function.toFunction
  params : List.Forall₂ (Option.Rel (t.Twin t')) x.params y.params
  returns : Option.Rel (t.Twin t') x.returns y.returns

/-- Pools that have handed out the same. -/
structure Pool.Twin (fs : Functions) (t t' : TypeTable) (p p' : Pool) : Prop where
  registers : p.registers = p'.registers
  callSites : List.Forall₂ (Signature.Twin t t') p.callSites p'.callSites
  hostSites : List.Forall₂ (HostSite.Twin fs t t') p.hostSites p'.hostSites

/-- A register on both sides, with static types that are described alike. -/
abbrev RegTwin (t t' : TypeTable) (p q : Reg × StaticType) : Prop := p.1 = q.1 ∧ p.2.Twin t t' q.2

/-- Scopes with the same registers. -/
abbrev RegEnv.Twin (t t' : TypeTable) : RegEnv → RegEnv → Prop := Assoc.Related Eq (RegTwin t t')

/-- The same code, with static types that are described alike. -/
structure LoweredExpr.Twin (t t' : TypeTable) (x y : LoweredExpr) : Prop where
  code : x.code = y.code
  reg : x.reg = y.reg
  type : x.type.Twin t t' y.type

structure LoweredArgs.Twin (t t' : TypeTable) (x y : LoweredArgs) : Prop where
  code : x.code = y.code
  args : List.Forall₂ (RegTwin t t') x.args y.args

/-- The same code with sites that are described alike. -/
structure Artifact.Twin (fs : Functions) (t t' : TypeTable) (a a' : Artifact) : Prop where
  signature : a.signature.Twin t t' a'.signature
  code : a.code = a'.code
  registers : a.registers = a'.registers
  callSites : List.Forall₂ (Signature.Twin t t') a.callSites a'.callSites
  hostSites : List.Forall₂ (HostSite.Twin fs t t') a.hostSites a'.hostSites
  returns : Option.Rel (t.Twin t') a.returns a'.returns

/-- Lowering of the same body in twin surroundings. -/
structure Lowerer.Twin (t₀ : TypeTable) (l l' : Lowerer) : Prop where
  typing : Typing.Twin t₀ l.toTyping l'.toTyping
  returnTypes : ReturnTypes.Twin l.types l'.types l.returnTypes l'.returnTypes
  signature : l.signature.Twin l.types l'.types l'.signature
  definition : l'.definition = l.definition

/-- Steps of lowering that hand out the same. -/
abbrev LowersAlike {α β : Type} (fs : Functions) (t t' : TypeTable) (R : α → β → Prop) (x : LowerM α)
    (y : LowerM β) : Prop :=
  ParallelIn (Pool.Twin fs t t') R x y

variable {fs : Functions} {t₀ t t' u u' : TypeTable}

theorem rel_grows {r r' : Option TypeId} (h : Option.Rel (t.Twin t') r r') (hg : t.Grows u)
    (hg' : t'.Grows u') : Option.Rel (u.Twin u') r r' := by
  cases h with
  | none => exact .none
  | some h => exact .some (h.grows hg hg')

theorem HostSite.Twin.grows {x y : HostSite} (h : x.Twin fs t t' y) (hg : t.Grows u) (hg' : t'.Grows u') :
    x.Twin fs u u' y :=
  ⟨h.name, h.function, h.registered, h.params.imp fun _ _ h => rel_grows h hg hg',
    rel_grows h.returns hg hg'⟩

theorem Artifact.Twin.grows {a a' : Artifact} (h : a.Twin fs t t' a') (hg : t.Grows u) (hg' : t'.Grows u') :
    a.Twin fs u u' a' where
  signature := h.signature.grows hg hg'
  code := h.code
  registers := h.registers
  callSites := h.callSites.imp fun _ _ h => h.grows hg hg'
  hostSites := h.hostSites.imp fun _ _ h => h.grows hg hg'
  returns := rel_grows h.returns hg hg'

theorem RegEnv.Twin.insert {env env' : RegEnv} (h : RegEnv.Twin t t' env env') {name : Ident} {reg : Reg}
    {s s' : StaticType} (hs : s.Twin t t' s') :
    RegEnv.Twin t t' (env.insert name (reg, s)) (env'.insert name (reg, s')) :=
  Assoc.Related.insert biUnique_eq h rfl ⟨rfl, hs⟩

theorem RegTwin.map {ps qs : List (Reg × StaticType)} (h : List.Forall₂ (RegTwin t t') ps qs) :
    qs.map Prod.fst = ps.map Prod.fst ∧
      List.Forall₂ (StaticType.Twin t t') (ps.map Prod.snd) (qs.map Prod.snd) := by
  induction h with
  | nil => exact ⟨rfl, .nil⟩
  | cons hp _ ih => exact ⟨by rw [List.map_cons, List.map_cons, hp.1, ih.1], .cons hp.2 ih.2⟩

/-! ### Handing out -/

theorem Pool.fresh_alike : LowersAlike fs t t' Eq Pool.fresh Pool.fresh := by
  unfold Pool.fresh
  refine ParallelIn.get.bind fun p p' hp => ?_
  refine (ParallelIn.set ⟨?_, hp.callSites, hp.hostSites⟩).bind fun _ _ _ => .pure hp.registers
  rw [hp.registers]

theorem Pool.callSite_alike (hT : Siblings t₀ t t') {x x' : Signature} (hx : x.Twin t t' x') :
    LowersAlike fs t t' Eq (Pool.callSite x) (Pool.callSite x') := by
  have hfind : ∀ {l l' : List Signature}, List.Forall₂ (Signature.Twin t t') l l' →
      l'.findIdx? (· == x') = l.findIdx? (· == x) := by
    intro l l' hl
    induction hl with
    | nil => rfl
    | @cons y y' _ _ hy _ ih =>
      have heq : (y' == x') = (y == x) := by
        rw [Bool.eq_iff_iff, beq_iff_eq, beq_iff_eq]
        exact (Relator.rel_eq (Signature.Twin.biUnique hT) hy hx).symm
      rw [List.findIdx?_cons, List.findIdx?_cons, heq, ih]
  unfold Pool.callSite
  refine ParallelIn.get.bind fun p p' hp => ?_
  rw [hfind hp.callSites]
  split
  · exact .pure rfl
  · refine (ParallelIn.set ⟨hp.registers, ?_, hp.hostSites⟩).bind fun _ _ _ => .pure hp.callSites.length_eq
    exact List.rel_append hp.callSites (.cons hx .nil)

theorem Pool.hostSite_alike {x y : HostSite} (hx : x.Twin fs t t' y) :
    LowersAlike fs t t' Eq (Pool.hostSite x) (Pool.hostSite y) := by
  unfold Pool.hostSite
  refine ParallelIn.get.bind fun p p' hp => ?_
  refine (ParallelIn.set ⟨hp.registers, hp.callSites, ?_⟩).bind fun _ _ _ => .pure hp.hostSites.length_eq
  exact List.rel_append hp.hostSites (.cons hx .nil)

/-! ### Expressions -/

namespace Lowerer.Twin

variable {l l' : Lowerer} {s s' : StaticType} {env env' : RegEnv} {name : Ident}
  (h : Lowerer.Twin t₀ l l')
include h

theorem matchPlan_eq (hs : s.Twin l.types l'.types s') (patterns : List Pattern) :
    l'.matchPlan s' patterns = l.matchPlan s patterns := by
  unfold Lowerer.matchPlan
  rw [h.definition, h.typing.plan_eq _ hs]

theorem shapeOf_eq {id : TypeId} {r : RecordType} (hr : l.types.record? id = some r) :
    l'.shapeOf r = l.shapeOf r := by
  unfold Lowerer.shapeOf
  split
  · rfl
  · refine congrArg Shape.boxed (List.map_congr_left fun f hf => ?_)
    exact (h.typing.types.common (h.typing.types.field hr f hf)).scalarBits?_eq

omit h in
theorem calleeSignature (name : Ident) {ts ts' : List StaticType}
    (hts : List.Forall₂ (StaticType.Twin t t') ts ts') :
    Parallel (Signature.Twin t t') (calleeSignature name ts) (Lowerer.calleeSignature name ts') := by
  unfold Lowerer.calleeSignature
  refine (Typing.Twin.signature? name hts).bind fun a b hab => ?_
  cases hab with
  | none => exact .error _
  | some hx => exact .ok hx

theorem returned {x x' : Signature} (hx : x.Twin l.types l'.types x') :
    Parallel (StaticType.Twin l.types l'.types) (l.returned x) (l'.returned x') := by
  have hget := h.returnTypes.get? (Signature.Twin.biUnique h.typing.types) hx
  unfold Lowerer.returned
  rw [hx.function]
  generalize l.returnTypes.get? x = o at hget ⊢
  generalize l'.returnTypes.get? x' = o' at hget ⊢
  cases hget with
  | none => exact .error _
  | some hr => exact .ok (.ofReturn hr)

theorem call (name : Ident) {args args' : List (Reg × StaticType)}
    (hargs : List.Forall₂ (RegTwin l.types l'.types) args args') :
    LowersAlike l.functions l.types l'.types (LoweredExpr.Twin l.types l'.types) (l.call name args)
      (l'.call name args') := by
  obtain ⟨hregs, htypes⟩ := RegTwin.map hargs
  have hparams : List.Forall₂ (Option.Rel (l.types.Twin l'.types)) ((args.map Prod.snd).map (·.known?))
      ((args'.map Prod.snd).map (·.known?)) :=
    List.forall₂_map_left_iff.2 (List.forall₂_map_right_iff.2 (htypes.imp fun _ _ hs => hs.known?_rel))
  unfold Lowerer.call
  simp only [hregs, ← hargs.length_eq]
  refine Pool.fresh_alike.bind ?_
  rintro dst _ rfl
  refine (ParallelIn.lift (.of_eq (R := fun a b => a = b ∧ l.resolve name args.length = .ok a)
    (h.typing.resolve_eq name args.length) fun _ hr => ⟨rfl, hr⟩)).bind ?_
  rintro callee _ ⟨rfl, hr⟩
  have hcallee := Typing.resolve_eq_ok hr
  rcases callee with ⟨id, r⟩ | _ | (d | n)
  · have hrec := (recordNamed?_eq_some.1 hcallee.1).2
    simp only [h.shapeOf_eq hrec]
    refine (ParallelIn.lift (.of_eq (R := fun _ _ => True)
      (h.typing.checkFields_eq r.name (h.typing.types.field hrec) htypes) fun _ _ => trivial)).bind
      fun _ _ _ => ?_
    exact .pure ⟨rfl, rfl, h.typing.types.known (h.typing.types.common_of_record hrec)⟩
  · refine (ParallelIn.lift (calleeSignature name htypes)).bind fun x x' hx => ?_
    refine (ParallelIn.lift (h.returned hx)).bind fun r r' hr => ?_
    have heq : x = l.signature ↔ x' = l'.signature :=
      Relator.rel_eq (Signature.Twin.biUnique h.typing.types) hx h.signature
    simp only [← heq]
    split
    · exact .pure ⟨rfl, rfl, hr⟩
    · refine (Pool.callSite_alike h.typing.types hx).bind ?_
      rintro site _ rfl
      exact .pure ⟨rfl, rfl, hr⟩
  · refine (ParallelIn.lift (calleeSignature name htypes)).bind fun x x' hx => ?_
    refine (ParallelIn.lift (h.returned hx)).bind fun r r' hr => ?_
    have hsite : HostSite.Twin l.functions l.types l'.types
        ⟨name, .interpreted d, (args.map Prod.snd).map (·.known?), r.known?⟩
        ⟨name, .interpreted d, (args'.map Prod.snd).map (·.known?), r'.known?⟩ :=
      ⟨rfl, rfl, hcallee.2, hparams, hr.known?_rel⟩
    refine (Pool.hostSite_alike hsite).bind ?_
    rintro site _ rfl
    exact .pure ⟨rfl, rfl, .ofReturn hr.known?_rel⟩
  · obtain ⟨hps, hreturns⟩ := h.typing.natives hcallee.2
    refine (ParallelIn.lift (.of_eq (R := fun _ _ => True) (h.typing.checkParams_eq name 0 hps htypes)
      fun _ _ => trivial)).bind fun _ _ _ => ?_
    have hret := h.typing.types.common hreturns
    have hsite : HostSite.Twin l.functions l.types l'.types
        ⟨name, .native n, (args.map Prod.snd).map (·.known?), some n.returns⟩
        ⟨name, .native n, (args'.map Prod.snd).map (·.known?), some n.returns⟩ :=
      ⟨rfl, rfl, hcallee.2, hparams, .some hret⟩
    refine (Pool.hostSite_alike hsite).bind ?_
    rintro site _ rfl
    exact .pure ⟨rfl, rfl, .known hret⟩

omit h in
theorem bindFields (subject : Reg) {bs bs' : List Binder} (hbs : List.Forall₂ (Binder.Twin t t') bs bs')
    (henv : RegEnv.Twin t t' env env') (fields : List (Reg × FieldAccess)) :
    LowersAlike fs t t' (fun p q => RegEnv.Twin t t' p.1 q.1 ∧ p.2 = q.2) (bindFields subject env fields bs)
      (Lowerer.bindFields subject env' fields bs') := by
  induction hbs generalizing env env' fields with
  | nil => exact .pure ⟨henv, rfl⟩
  | @cons b b' _ _ hb _ ih =>
    obtain ⟨name, s, access⟩ := b
    obtain ⟨_, s', _⟩ := b'
    obtain ⟨rfl, hs, rfl⟩ := hb
    cases access with
    | none => exact ih (RegEnv.Twin.insert henv hs) fields
    | some access =>
      refine Pool.fresh_alike.bind ?_
      rintro reg _ rfl
      exact ih (RegEnv.Twin.insert henv hs) _

theorem bindPattern (henv : RegEnv.Twin l.types l'.types env env') (pattern : Pattern) (subject : Reg)
    (hs : s.Twin l.types l'.types s') :
    LowersAlike l.functions l.types l'.types (fun p q => RegEnv.Twin l.types l'.types p.1 q.1 ∧ p.2 = q.2)
      (l.bindPattern env pattern subject s) (l'.bindPattern env' pattern subject s') := by
  unfold Lowerer.bindPattern
  refine (bindFields subject (h.typing.binders pattern hs) henv []).bind ?_
  rintro ⟨scope, fields⟩ ⟨scope', _⟩ ⟨hscope, rfl⟩
  exact .pure ⟨hscope, rfl⟩

omit h in
theorem exprs {es : List Expr}
    (ih : ∀ e ∈ es, ∀ start env env', RegEnv.Twin l.types l'.types env env' →
      LowersAlike l.functions l.types l'.types (LoweredExpr.Twin l.types l'.types) (l.expr start env e)
        (l'.expr start env' e))
    (start : Nat) (henv : RegEnv.Twin l.types l'.types env env') :
    LowersAlike l.functions l.types l'.types (LoweredArgs.Twin l.types l'.types) (l.exprs start env es)
      (l'.exprs start env' es) := by
  induction es generalizing start with
  | nil =>
    rw [Lowerer.exprs, Lowerer.exprs]
    exact .pure ⟨rfl, .nil⟩
  | cons e rest ihs =>
    rw [Lowerer.exprs, Lowerer.exprs]
    refine (ih e (by simp) start env env' henv).bind fun a a' ha => ?_
    rw [← ha.code]
    refine (ihs (fun x hx => ih x (List.mem_cons_of_mem _ hx)) _).bind fun as as' has => ?_
    exact .pure ⟨by rw [ha.code, has.code], .cons ⟨ha.reg, ha.type⟩ has.args⟩

theorem exprArms {arms : List (Arm Expr)}
    (ih : ∀ a ∈ arms, ∀ start env env', RegEnv.Twin l.types l'.types env env' →
      LowersAlike l.functions l.types l'.types (LoweredExpr.Twin l.types l'.types) (l.expr start env a.body)
        (l'.expr start env' a.body))
    (henv : RegEnv.Twin l.types l'.types env env') (subject : Reg) (hs : s.Twin l.types l'.types s')
    (dst : Reg) (reachable : List Nat) (start index : Nat) {joined joined' : StaticType}
    (hj : joined.Twin l.types l'.types joined') :
    LowersAlike l.functions l.types l'.types (fun p q => p.1.Twin l.types l'.types q.1 ∧ p.2 = q.2)
      (l.exprArms start env subject s dst reachable index joined arms)
      (l'.exprArms start env' subject s' dst reachable index joined' arms) := by
  induction arms generalizing start index joined joined' with
  | nil =>
    rw [Lowerer.exprArms, Lowerer.exprArms]
    exact .pure ⟨hj, rfl⟩
  | cons a rest ihs =>
    have ihr := ihs fun x hx => ih x (List.mem_cons_of_mem _ hx)
    rw [Lowerer.exprArms, Lowerer.exprArms]
    split
    · refine (h.bindPattern henv a.pattern subject hs).bind ?_
      rintro ⟨scope, unpack⟩ ⟨scope', _⟩ ⟨hscope, rfl⟩
      refine (ih a (by simp) _ _ _ hscope).bind fun b b' hb => ?_
      refine (ParallelIn.lift (h.typing.join hj hb.type)).bind fun j j' hj => ?_
      rw [← hb.code, ← hb.reg]
      refine (ihr _ _ hj).bind ?_
      rintro ⟨r, lowered⟩ ⟨r', _⟩ ⟨hr, rfl⟩
      exact .pure ⟨hr, rfl⟩
    · exact ihr _ _ hj

/-- An operation works in the width of what it yields. -/
theorem resultBits_eq {r r' : StaticType} (hr : r.Twin l.types l'.types r') :
    (r'.known?.map l'.scalarBits).getD l'.defaultBits = (r.known?.map l.scalarBits).getD l.defaultBits := by
  cases hr with
  | unknown => exact h.typing.bits
  | incomplete => exact h.typing.bits
  | known hid =>
    show (l'.types.scalarBits? _).getD l'.defaultBits = (l.types.scalarBits? _).getD l.defaultBits
    rw [hid.scalarBits?_eq, h.typing.bits]

theorem expr (e : Expr) : ∀ start env env', RegEnv.Twin l.types l'.types env env' →
    LowersAlike l.functions l.types l'.types (LoweredExpr.Twin l.types l'.types) (l.expr start env e)
      (l'.expr start env' e) := by
  induction e using Expr.ind with
  | lit n =>
    intro start env env' _
    rw [Lowerer.expr, Lowerer.expr, h.typing.bits]
    refine Pool.fresh_alike.bind ?_
    rintro dst _ rfl
    exact .pure ⟨rfl, rfl, .known h.typing.scalar⟩
  | var name =>
    intro start env env' henv
    have hget := henv.get? biUnique_eq (rfl : name = name)
    rw [Lowerer.expr, Lowerer.expr]
    generalize env.get? name = o at hget ⊢
    generalize env'.get? name = o' at hget ⊢
    cases hget with
    | some hp => exact .pure ⟨rfl, hp.1, hp.2⟩
    | none =>
      rw [h.definition]
      exact .throw _
  | binary op lhs rhs ihl ihr =>
    intro start env env' henv
    rw [Lowerer.expr, Lowerer.expr]
    refine (ihl start env env' henv).bind fun a a' ha => ?_
    rw [← ha.code]
    refine (ihr _ env env' henv).bind fun b b' hb => ?_
    refine (ParallelIn.lift (h.typing.binary op ha.type hb.type)).bind fun r r' hr => ?_
    refine Pool.fresh_alike.bind ?_
    rintro dst _ rfl
    refine .pure ⟨?_, rfl, hr⟩
    rw [← hb.code, ← ha.reg, ← hb.reg, h.resultBits_eq hr]
  | call name args ih =>
    intro start env env' henv
    rw [Lowerer.expr, Lowerer.expr]
    refine (exprs ih start henv).bind fun as as' has => ?_
    refine (h.call name has.args).bind fun c c' hc => ?_
    exact .pure ⟨by rw [has.code, hc.code], hc.reg, hc.type⟩
  | field subject name ih =>
    intro start env env' henv
    rw [Lowerer.expr, Lowerer.expr]
    refine (ih start env env' henv).bind fun a a' ha => ?_
    refine (ParallelIn.lift (h.typing.field ha.type name)).bind ?_
    rintro ⟨r, location⟩ ⟨r', _⟩ ⟨hr, rfl⟩
    refine Pool.fresh_alike.bind ?_
    rintro dst _ rfl
    exact .pure ⟨by rw [ha.code, ha.reg], rfl, hr⟩
  | branch subject arms ihs iha =>
    intro start env env' henv
    rw [Lowerer.expr, Lowerer.expr]
    refine (ihs start env env' henv).bind fun a a' ha => ?_
    rw [← ha.code, ← ha.reg]
    refine (ParallelIn.lift (.of_eq (R := Eq) (h.matchPlan_eq ha.type _) fun _ _ => rfl)).bind
      fun plan plan' heq => ?_
    subst heq
    refine Pool.fresh_alike.bind ?_
    rintro dst _ rfl
    refine (h.exprArms iha henv a.reg ha.type dst plan.reachable _ 0 .unknown).bind ?_
    rintro ⟨r, lowered⟩ ⟨r', _⟩ ⟨hr, rfl⟩
    dsimp only
    split
    · exact (ParallelIn.pure hr).bind fun j j' hj => .pure ⟨rfl, rfl, hj⟩
    · exact (ParallelIn.lift (h.typing.join hr .incomplete)).bind fun j j' hj => .pure ⟨rfl, rfl, hj⟩
  | incomplete =>
    intro start env env' _
    rw [Lowerer.expr, Lowerer.expr]
    refine Pool.fresh_alike.bind ?_
    rintro dst _ rfl
    exact .pure ⟨rfl, rfl, .incomplete⟩

/-! ### Blocks -/

theorem blockArms {arms : List (Arm (List Stmt))}
    (ih : ∀ a ∈ arms, ∀ start env env', RegEnv.Twin l.types l'.types env env' →
      LowersAlike l.functions l.types l'.types Eq (l.block start env a.body) (l'.block start env' a.body))
    (henv : RegEnv.Twin l.types l'.types env env') (subject : Reg) (hs : s.Twin l.types l'.types s')
    (reachable : List Nat) (start index : Nat) :
    LowersAlike l.functions l.types l'.types Eq (l.blockArms start env subject s reachable index arms)
      (l'.blockArms start env' subject s' reachable index arms) := by
  induction arms generalizing start index with
  | nil =>
    rw [Lowerer.blockArms, Lowerer.blockArms]
    exact .pure rfl
  | cons a rest ihs =>
    have ihr := ihs fun x hx => ih x (List.mem_cons_of_mem _ hx)
    rw [Lowerer.blockArms, Lowerer.blockArms]
    split
    · refine (h.bindPattern henv a.pattern subject hs).bind ?_
      rintro ⟨scope, unpack⟩ ⟨scope', _⟩ ⟨hscope, rfl⟩
      refine (ih a (by simp) _ _ _ hscope).bind ?_
      rintro ⟨code, returns⟩ _ rfl
      refine (ihr _ _).bind ?_
      rintro lowered _ rfl
      exact .pure rfl
    · exact ihr _ _

theorem block (stmts : List Stmt) : ∀ start env env', RegEnv.Twin l.types l'.types env env' →
    LowersAlike l.functions l.types l'.types Eq (l.block start env stmts) (l'.block start env' stmts) := by
  induction stmts using Block.ind with
  | nil =>
    intro start env env' _
    rw [Lowerer.block, Lowerer.block]
    exact .pure rfl
  | assign name value rest ih =>
    intro start env env' henv
    rw [Lowerer.block, Lowerer.block]
    refine (h.expr value start env env' henv).bind fun v v' hv => ?_
    rw [← hv.code, ← hv.reg]
    refine (ih _ _ _ (RegEnv.Twin.insert henv hv.type)).bind ?_
    rintro ⟨code, returns⟩ _ rfl
    exact .pure rfl
  | ret value rest =>
    intro start env env' henv
    rw [Lowerer.block, Lowerer.block]
    refine (h.expr value start env env' henv).bind fun v v' hv => .pure ?_
    rw [hv.code, hv.reg]
  | eval value rest ih =>
    intro start env env' henv
    rw [Lowerer.block, Lowerer.block]
    refine (h.expr value start env env' henv).bind fun v v' hv => ?_
    rw [← hv.code]
    refine (ih _ _ _ henv).bind ?_
    rintro ⟨code, returns⟩ _ rfl
    exact .pure rfl
  | branch subject arms rest iha ih =>
    intro start env env' henv
    rw [Lowerer.block, Lowerer.block]
    refine (h.expr subject start env env' henv).bind fun a a' ha => ?_
    rw [← ha.code, ← ha.reg]
    refine (ParallelIn.lift (.of_eq (R := Eq) (h.matchPlan_eq ha.type _) fun _ _ => rfl)).bind
      fun plan plan' heq => ?_
    subst heq
    refine (h.blockArms iha henv a.reg ha.type plan.reachable _ 0).bind ?_
    rintro lowered _ rfl
    refine (ih _ _ _ henv).bind ?_
    rintro ⟨code, returns⟩ _ rfl
    exact .pure rfl
  | loop condition body rest ihb ih =>
    intro start env env' _
    rw [Lowerer.block, Lowerer.block, h.definition]
    exact .throw _

/-! ### Artifacts -/

omit h in
theorem bindParams {params params' : List (Ident × TypeId)}
    (hps : List.Forall₂ (fun p q => p.1 = q.1 ∧ t.Twin t' p.2 q.2) params params')
    (henv : RegEnv.Twin t t' env env') :
    LowersAlike fs t t' (RegEnv.Twin t t') (bindParams env params) (Lowerer.bindParams env' params') := by
  induction hps generalizing env env' with
  | nil => exact .pure henv
  | @cons p q _ _ hp _ ih =>
    obtain ⟨name, id⟩ := p
    obtain ⟨_, id'⟩ := q
    obtain ⟨rfl, hid⟩ := hp
    refine Pool.fresh_alike.bind ?_
    rintro reg _ rfl
    exact ih (RegEnv.Twin.insert henv (.known hid))

theorem body : LowersAlike l.functions l.types l'.types Eq l.body l'.body := by
  have hparams : List.Forall₂ (fun p q => p.1 = q.1 ∧ l.types.Twin l'.types p.2 q.2)
      (l.definition.params.zip l.signature.args) (l.definition.params.zip l'.signature.args) := by
    have hargs := h.signature.args
    generalize l.definition.params = params
    generalize l.signature.args = ids at hargs
    generalize l'.signature.args = ids' at hargs
    induction hargs generalizing params with
    | nil => simp
    | cons hid _ ih =>
      cases params with
      | nil => exact .nil
      | cons p params => exact .cons ⟨rfl, hid⟩ (ih params)
  unfold Lowerer.body
  rw [h.definition]
  refine (bindParams hparams .empty).bind fun env env' henv => ?_
  refine (h.block _ 0 _ _ henv).bind ?_
  rintro ⟨code, returns⟩ _ rfl
  cases returns with
  | true => exact .pure rfl
  | false =>
    refine Pool.fresh_alike.bind ?_
    rintro dst _ rfl
    exact .pure rfl

theorem artifact : Parallel (Artifact.Twin l.functions l.types l'.types) l.artifact l'.artifact := by
  unfold Lowerer.artifact
  rw [h.definition, ← h.signature.args.length_eq]
  split
  · exact .error _
  · refine (h.body {} {} ⟨rfl, .nil, .nil⟩).bind ?_
    rintro ⟨code, pool⟩ ⟨_, pool'⟩ ⟨rfl, hp⟩
    refine (h.returned h.signature).bind fun r r' hr => ?_
    exact .ok ⟨h.signature, rfl, hp.registers, hp.callSites, hp.hostSites, hr.known?_rel⟩

end Lowerer.Twin

theorem Typing.Twin.compile {c c' : Typing} (h : Typing.Twin t₀ c c') (hg : c.Grounded) (hg' : c'.Grounded)
    {order order' : VisitOrder} (hc : order.Complete) (hc' : order'.Complete)
    (ho : order.Alike c.types c'.types order') {x x' : Signature} (hx : x.Twin c.types c'.types x') :
    Parallel (Artifact.Twin c.functions c.types c'.types) (c.compile order x) (c'.compile order' x') := by
  unfold Typing.compile
  have hdef : c'.decorated? x'.function = c.decorated? x.function := by
    unfold Typing.decorated?
    rw [h.functions, hx.function]
  refine (Parallel.of_eq (R := Eq) hdef fun _ _ => rfl).bind fun d d' heq => ?_
  subst heq
  refine (h.infer hg hg' hc hc' ho hx).bind fun R R' hR => ?_
  have hl : Lowerer.Twin t₀ { c with returnTypes := R, signature := x, definition := d }
      { c' with returnTypes := R', signature := x', definition := d } := ⟨h, hR, hx, rfl⟩
  exact hl.artifact

end ShapeCompiler
