import ShapeCompiler.Proofs.Lowering.Types
import ShapeCompiler.Proofs.Typing.Scope
import ShapeCompiler.Proofs.Typing.Settled
import ShapeCompiler.Proofs.Typing.Soundness

/-!
Lowering succeeds where a walk has nothing left to discover.

Lowering makes the checks of a walk again, and asks for more: no argument may be of unknown type, and
every callee needs a return type. Main statements: where a walk that assumes the return types which
inference found discovers nothing, something is known of every expression, and lowering succeeds with
the types of the walk (`Lowerer.Mirrors.expr`, `Lowerer.Mirrors.block`).
-/

namespace ShapeCompiler

open TypeTable

variable {α β : Type} {t : TypeTable} {w : Walker} {l : Lowerer}

/-- A walk that has discovered nothing had discovered nothing before. -/
theorem Findings.empty_rising :
    Findings.Rising w fun f f' => f'.discovered = [] → f.discovered = [] where
  refl _ h := h
  trans h h' hf := h (h' hf)
  note f s _ h := by simp at h
  join _ _ _ _ h := h

theorem StaticType.ofReturn_ne_unknown (r : Option TypeId) : StaticType.ofReturn r ≠ .unknown := by
  cases r <;> simp [ofReturn]

namespace Lowerer

/-! ### Steps of lowering that succeed -/

/-- A step of lowering succeeds whatever has been handed out, with a result of a kind. -/
def Yields (x : LowerM α) (Q : α → Prop) : Prop := ∀ p, ∃ a p', x.run p = .ok (a, p') ∧ Q a

namespace Yields

variable {Q : α → Prop} {R : β → Prop}

theorem pure {a : α} (h : Q a) : Yields (pure a) Q := fun p => ⟨a, p, rfl, h⟩

theorem bind {x : LowerM α} {f : α → LowerM β} (hx : Yields x Q) (hf : ∀ a, Q a → Yields (f a) R) :
    Yields (x >>= f) R := by
  intro p
  obtain ⟨a, p₁, ha, hq⟩ := hx p
  obtain ⟨b, p₂, hb, hr⟩ := hf a hq p₁
  exact ⟨b, p₂, run_bind_eq_ok.2 ⟨a, p₁, ha, hb⟩, hr⟩

theorem lift {x : Except CompileError α} {a : α} (h : x = .ok a) :
    Yields (liftM x : LowerM α) fun b => b = a := fun p => ⟨a, p, by rw [h]; rfl, rfl⟩

theorem fresh : Yields Pool.fresh fun _ => True := fun _ => ⟨_, _, rfl, trivial⟩

theorem callSite (s : Signature) : Yields (Pool.callSite s) fun _ => True := by
  intro p
  unfold Pool.callSite
  cases h : p.callSites.findIdx? (· == s) with
  | some site => exact ⟨site, p, run_bind_eq_ok.2 ⟨p, p, rfl, by rw [h]; rfl⟩, trivial⟩
  | none => exact ⟨_, _, run_bind_eq_ok.2 ⟨p, p, rfl, by rw [h]; rfl⟩, trivial⟩

theorem hostSite (h : HostSite) : Yields (Pool.hostSite h) fun _ => True := fun _ => ⟨_, _, rfl, trivial⟩

end Yields

/-! ### Calls -/

/-- A walk in the surroundings of lowering that assumes what inference found, and nothing else. -/
structure Mirrors (w : Walker) (l : Lowerer) (t : TypeTable) : Prop where
  typing : w.toTyping = l.toTyping
  assumed : ∀ s, w.assumed.get? s = (l.returnTypes.get? s).map .ofReturn
  fits : l.toTyping.Fits t

theorem Mirrors.follows (h : Mirrors w l t) : Follows w l where
  typing := h.typing
  assumed hr := by rw [h.assumed, hr]; rfl

theorem calleeSignature_ok {name : Ident} {ts : List StaticType} (hts : ∀ s ∈ ts, s ≠ .unknown)
    {o : Option Signature} (h : Typing.signature? name ts = .ok o) :
    ∃ s, o = some s ∧ calleeSignature name ts = .ok s := by
  cases o with
  | none =>
    unfold Typing.signature? at h
    obtain ⟨ids, hids, h⟩ := map_eq_ok.1 h
    cases ids with
    | none => exact absurd rfl (hts _ (Typing.argTypes_none hids))
    | some ids => cases h
  | some s => exact ⟨s, rfl, bind_eq_ok.2 ⟨some s, h, rfl⟩⟩

namespace Mirrors

variable (hm : Mirrors w l t) {f f' : Findings} {s : StaticType} {name : Ident}
include hm

/-- A callee of which all arguments are known and nothing is discovered has a return type. -/
theorem called {ts : List StaticType} (hts : ∀ s ∈ ts, s ≠ .unknown)
    (h : (w.called name ts).run f = .ok (s, f')) (hf : f'.discovered = []) :
    ∃ sig r, calleeSignature name ts = .ok sig ∧ l.returned sig = .ok s ∧ s = .ofReturn r := by
  unfold Walker.called at h
  obtain ⟨o, f₁, hl, h⟩ := run_bind_eq_ok.1 h
  obtain ⟨ho, rfl⟩ := run_lift_eq_ok.1 hl
  obtain ⟨sig, rfl, hsig⟩ := calleeSignature_ok hts ho
  simp only [hm.assumed] at h
  cases hr : l.returnTypes.get? sig with
  | none =>
    rw [hr] at h
    obtain ⟨_, f₂, hn, h⟩ := run_bind_eq_ok.1 h
    cases hn
    obtain ⟨-, rfl⟩ := run_pure_eq_ok.1 h
    simp at hf
  | some r =>
    rw [hr] at h
    obtain ⟨rfl, -⟩ := run_pure_eq_ok.1 h
    refine ⟨sig, r, hsig, ?_, rfl⟩
    unfold returned
    rw [hr]

theorem call {args : List (Reg × StaticType)} (hargs : ∀ s ∈ args.map Prod.snd, s ≠ .unknown)
    (h : (w.call name (args.map Prod.snd)).run f = .ok (s, f')) (hf : f'.discovered = []) :
    s ≠ .unknown ∧ Yields (l.call name args) fun c => c.type = s := by
  unfold Walker.call at h
  obtain ⟨callee, f₁, hl, h⟩ := run_bind_eq_ok.1 h
  obtain ⟨hr, rfl⟩ := run_lift_eq_ok.1 hl
  rw [hm.typing, List.length_map] at hr
  unfold Lowerer.call
  have resolved : ∀ {k : Reg → Callee → LowerM LoweredExpr},
      (∀ dst, Yields (k dst callee) fun c => c.type = s) → Yields (do
        let dst ← Pool.fresh
        let callee ← liftM (l.resolve name args.length)
        k dst callee) fun c => c.type = s := by
    intro k hk
    refine .bind .fresh fun dst _ => .bind (.lift hr) fun callee' he => ?_
    subst he
    exact hk dst
  rcases callee with ⟨id, r⟩ | _ | (d | n)
  · obtain ⟨_, _, hl, h⟩ := run_bind_eq_ok.1 h
    obtain ⟨hcheck, rfl⟩ := run_lift_eq_ok.1 hl
    obtain ⟨rfl, -⟩ := run_pure_eq_ok.1 h
    rw [hm.typing] at hcheck
    exact ⟨by simp, resolved fun dst => .bind (.lift hcheck) fun _ _ => .pure rfl⟩
  · obtain ⟨sig, r, hsig, hret, rfl⟩ := hm.called hargs h hf
    refine ⟨StaticType.ofReturn_ne_unknown r, resolved fun dst => .bind (.lift hsig) fun sig' he => ?_⟩
    subst he
    refine .bind (.lift hret) fun s' he => ?_
    subst he
    split
    · exact .pure rfl
    · exact .bind (.callSite _) fun _ _ => .pure rfl
  · obtain ⟨sig, r, hsig, hret, rfl⟩ := hm.called hargs h hf
    refine ⟨StaticType.ofReturn_ne_unknown r, resolved fun dst => .bind (.lift hsig) fun sig' he => ?_⟩
    subst he
    refine .bind (.lift hret) fun s' he => ?_
    subst he
    refine .bind (.hostSite _) fun _ _ => .pure ?_
    cases r <;> rfl
  · obtain ⟨_, _, hl, h⟩ := run_bind_eq_ok.1 h
    obtain ⟨hcheck, rfl⟩ := run_lift_eq_ok.1 hl
    obtain ⟨rfl, -⟩ := run_pure_eq_ok.1 h
    rw [hm.typing] at hcheck
    exact ⟨by simp, resolved fun dst => .bind (.lift hcheck) fun _ _ =>
      .bind (.hostSite _) fun _ _ => .pure rfl⟩

/-! ### Expressions -/

/-- Where a walk over the expression discovers nothing, its type is known and lowering succeeds with it. -/
def LowersAlike (w : Walker) (l : Lowerer) (e : Expr) : Prop :=
  ∀ start (env : RegEnv) f s f', EnvKnown env.types → (w.expr env.types e).run f = .ok (s, f') →
    f'.discovered = [] → s ≠ .unknown ∧ Yields (l.expr start env e) fun r => r.type = s

omit hm in
theorem bindFields_yields (subject : Reg) (env : RegEnv) (fields : List (Reg × FieldAccess))
    (binders : List Binder) : Yields (bindFields subject env fields binders) fun _ => True := by
  induction binders generalizing env fields with
  | nil => exact .pure trivial
  | cons b rest ih =>
    obtain ⟨name, s, access⟩ := b
    cases access with
    | none => exact ih _ _
    | some access => exact .bind .fresh fun reg _ => ih _ _

omit hm in
theorem bindPattern_yields (env : RegEnv) (pattern : Pattern) (subject : Reg) (type : StaticType) :
    Yields (l.bindPattern env pattern subject type) fun q =>
      q.1.types = env.types.bind (l.binders pattern type) := by
  have hyields : Yields (l.bindPattern env pattern subject type) fun _ => True :=
    .bind (bindFields_yields _ _ _ _) fun _ _ => .pure trivial
  intro p
  obtain ⟨q, p', hq, -⟩ := hyields p
  exact ⟨q, p', hq, bindPattern_types hq⟩

omit hm in
theorem exprs {es : List Expr} (start : Nat) (ih : ∀ e ∈ es, LowersAlike w l e) {env : RegEnv}
    {ss : List StaticType} (henv : EnvKnown env.types) (h : (w.exprs env.types es).run f = .ok (ss, f'))
    (hf : f'.discovered = []) :
    (∀ s ∈ ss, s ≠ .unknown) ∧ Yields (l.exprs start env es) fun as => as.args.map Prod.snd = ss := by
  induction es generalizing start f ss with
  | nil =>
    rw [Walker.exprs] at h
    obtain ⟨rfl, -⟩ := run_pure_eq_ok.1 h
    exact ⟨by simp, .pure rfl⟩
  | cons e rest ihs =>
    rw [Walker.exprs] at h
    obtain ⟨s, f₁, hs, h⟩ := run_bind_eq_ok.1 h
    obtain ⟨ss', f₂, hss, h⟩ := run_bind_eq_ok.1 h
    obtain ⟨rfl, rfl⟩ := run_pure_eq_ok.1 h
    have hrest : ∀ x ∈ rest, LowersAlike w l x := fun x hx => ih x (List.mem_cons_of_mem e hx)
    have hf₁ : f₁.discovered = [] := Walker.exprs_increasing Findings.empty_rising
      (fun x _ => Walker.expr_increasing Findings.empty_rising x) _ _ _ hss hf
    obtain ⟨hknown, hlower⟩ := ih e (by simp) start env _ _ _ henv hs hf₁
    refine ⟨List.forall_mem_cons.2 ⟨hknown, (ihs start hrest hss).1⟩, ?_⟩
    rw [Lowerer.exprs]
    exact .bind hlower fun a ha => .bind (ihs _ hrest hss).2 fun as has =>
      .pure (by rw [List.map_cons, ha, has])

theorem exprArms {arms : List (Arm Expr)} (start : Nat) (ih : ∀ a ∈ arms, LowersAlike w l a.body)
    {index : Nat} {env : RegEnv} {subject dst : Reg} {type joined : StaticType} {reachable : List Nat}
    (henv : EnvKnown env.types) (htype : type ≠ .unknown)
    (h : (w.exprArms env.types type reachable index joined arms).run f = .ok (s, f'))
    (hf : f'.discovered = []) :
    (joined ≠ .unknown → s ≠ .unknown) ∧
      (∀ k a, index + k ∈ reachable → arms[k]? = some a → s ≠ .unknown) ∧
      Yields (l.exprArms start env subject type dst reachable index joined arms) fun q => q.1 = s := by
  induction arms generalizing start index joined f with
  | nil =>
    rw [Walker.exprArms] at h
    obtain ⟨rfl, -⟩ := run_pure_eq_ok.1 h
    exact ⟨id, by simp, .pure rfl⟩
  | cons a rest ihs =>
    have hrest : ∀ x ∈ rest, LowersAlike w l x.body := fun x hx => ih x (List.mem_cons_of_mem a hx)
    rw [Walker.exprArms] at h
    rw [Lowerer.exprArms]
    split at h
    · rename_i hk
      obtain ⟨s₁, f₁, hs, h⟩ := run_bind_eq_ok.1 h
      obtain ⟨joined', f₂, hl, h⟩ := run_bind_eq_ok.1 h
      obtain ⟨hj, rfl⟩ := run_lift_eq_ok.1 hl
      have hf₁ : f₁.discovered = [] := Walker.exprArms_increasing Findings.empty_rising
        (fun x _ => Walker.expr_increasing Findings.empty_rising x.body) _ _ _ h hf
      rw [hm.typing] at hs hj
      have hscope : EnvKnown (env.types.bind (l.binders a.pattern type)) := henv.bind (binders_known htype)
      have harm : ∀ (start : Nat) (scope : RegEnv),
          scope.types = env.types.bind (l.binders a.pattern type) →
          s₁ ≠ .unknown ∧ Yields (l.expr start scope a.body) fun r => r.type = s₁ := by
        intro start scope hq
        rw [← hq] at hs hscope
        exact ih a (by simp) start scope _ _ _ hscope hs hf₁
      obtain ⟨q, -, -, hq⟩ := bindPattern_yields (l := l) env a.pattern subject type {}
      have hknown := (harm start q.1 hq).1
      have hjoined : joined' ≠ .unknown := (hm.fits.join_right hj (.sentinel hknown)).ne_unknown
      obtain ⟨hjoin, hreach, -⟩ := ihs start hrest h
      refine ⟨fun _ => hjoin hjoined, fun k b hkr hb => ?_, ?_⟩
      · cases k with
        | zero => exact hjoin hjoined
        | succ k => exact hreach k b (by rwa [Nat.add_right_comm, Nat.add_assoc]) hb
      · rw [if_pos hk]
        refine .bind (bindPattern_yields env a.pattern subject type) fun q hq => ?_
        refine .bind (harm _ q.1 hq).2 fun r hr => ?_
        subst hr
        refine .bind (.lift hj) fun j he => ?_
        subst he
        exact .bind (ihs _ hrest h).2.2 fun q hq => .pure hq
    · rename_i hk
      obtain ⟨hjoin, hreach, hlower⟩ := ihs start hrest h
      rw [if_neg hk]
      refine ⟨hjoin, fun k b hkr hb => ?_, hlower⟩
      cases k with
      | zero => exact absurd hkr hk
      | succ k => exact hreach k b (by rwa [Nat.add_right_comm, Nat.add_assoc]) hb

theorem matchPlan {subject : StaticType} {patterns : List Pattern} {plan : MatchPlan}
    (h : w.matchPlan subject patterns = .ok plan) : l.matchPlan subject patterns = .ok plan := by
  unfold Lowerer.matchPlan Typing.plan
  rw [← hm.typing]
  exact mapError_eq_ok.2 (mapError_eq_ok.1 h)

theorem expr_lit (n : UInt64) : LowersAlike w l (.lit n) := by
  intro start env f s f' henv h hf
  rw [Walker.expr] at h
  obtain ⟨rfl, -⟩ := run_pure_eq_ok.1 h
  rw [Lowerer.expr, hm.typing]
  exact ⟨by simp, .bind .fresh fun _ _ => .pure rfl⟩

omit hm in
theorem expr_var (name : Ident) : LowersAlike w l (.var name) := by
  intro start env f s f' henv h hf
  rw [Walker.expr] at h
  rw [Lowerer.expr]
  split at h
  · rename_i s' hs
    obtain ⟨rfl, -⟩ := run_pure_eq_ok.1 h
    refine ⟨henv _ (Assoc.mem_of_get? hs), ?_⟩
    rw [RegEnv.get?_types] at hs
    obtain ⟨⟨reg, s⟩, hget, rfl⟩ := Option.map_eq_some_iff.1 hs
    rw [hget]
    exact .pure rfl
  · exact absurd h run_throw_ne_ok

theorem expr_binary (op : Operator) {lhs rhs : Expr} (ihl : LowersAlike w l lhs) (ihr : LowersAlike w l rhs) :
    LowersAlike w l (.binary op lhs rhs) := by
  have hr := fun w => @Findings.empty_rising w
  intro start env f s f' henv h hf
  rw [Walker.expr] at h
  obtain ⟨a, f₁, ha, h⟩ := run_bind_eq_ok.1 h
  obtain ⟨b, f₂, hb, h⟩ := run_bind_eq_ok.1 h
  obtain ⟨hs, rfl⟩ := run_lift_eq_ok.1 h
  rw [hm.typing] at hs
  have hf₁ := Walker.expr_increasing (hr w) rhs _ _ _ _ hb hf
  have hlhs := fun start => ihl start env _ _ _ henv ha hf₁
  have hrhs := fun start => ihr start env _ _ _ henv hb hf
  refine ⟨Typing.binary_ne_unknown hs (hlhs 0).1 (hrhs 0).1, ?_⟩
  rw [Lowerer.expr]
  refine .bind (hlhs _).2 fun ra ha => .bind (hrhs _).2 fun rb hb => ?_
  subst ha hb
  refine .bind (.lift hs) fun t he => ?_
  subst he
  exact .bind .fresh fun _ _ => .pure rfl

theorem expr_call (name : Ident) {args : List Expr} (ih : ∀ e ∈ args, LowersAlike w l e) :
    LowersAlike w l (.call name args) := by
  have hr := fun w => @Findings.empty_rising w
  intro start env f s f' henv h hf
  rw [Walker.expr] at h
  obtain ⟨ss, f₁, hss, h⟩ := run_bind_eq_ok.1 h
  have hf₁ := Walker.call_increasing (hr w) name ss _ _ _ h hf
  have hargs : ∀ start, _ ∧ Yields (l.exprs start env args) _ := fun start => exprs start ih henv hss hf₁
  have hcall : ∀ as : LoweredArgs, as.args.map Prod.snd = ss →
      s ≠ .unknown ∧ Yields (l.call name as.args) fun c => c.type = s := by
    intro as has
    rw [← has] at h
    exact hm.call (fun s hs => (hargs 0).1 s (has ▸ hs)) h hf
  obtain ⟨as, -, -, has⟩ := (hargs 0).2 {}
  refine ⟨(hcall as has).1, ?_⟩
  rw [Lowerer.expr]
  exact .bind (hargs _).2 fun as has => .bind (hcall as has).2 fun c hc => .pure hc

theorem expr_field (name : Ident) {subject : Expr} (ih : LowersAlike w l subject) :
    LowersAlike w l (.field subject name) := by
  intro start env f s f' henv h hf
  rw [Walker.expr] at h
  obtain ⟨s₁, f₁, hs₁, h⟩ := run_bind_eq_ok.1 h
  obtain ⟨⟨s₂, location⟩, f₂, hl, h⟩ := run_bind_eq_ok.1 h
  obtain ⟨hfield, rfl⟩ := run_lift_eq_ok.1 hl
  obtain ⟨rfl, rfl⟩ := run_pure_eq_ok.1 h
  rw [hm.typing] at hfield
  obtain ⟨hknown, hlower⟩ := ih start env _ _ _ henv hs₁ hf
  refine ⟨Typing.field_ne_unknown hfield hknown, ?_⟩
  rw [Lowerer.expr]
  refine .bind hlower fun r hr => ?_
  subst hr
  refine .bind (.lift hfield) fun q he => ?_
  subst he
  exact .bind .fresh fun _ _ => .pure rfl

theorem expr_branch {subject : Expr} {arms : List (Arm Expr)} (ihs : LowersAlike w l subject)
    (iha : ∀ a ∈ arms, LowersAlike w l a.body) : LowersAlike w l (.branch subject arms) := by
  have hr := fun w => @Findings.empty_rising w
  intro start env f s f' henv h hf
  rw [Walker.expr] at h
  obtain ⟨s₁, f₁, hs₁, h⟩ := run_bind_eq_ok.1 h
  obtain ⟨plan, f₂, hl, h⟩ := run_bind_eq_ok.1 h
  obtain ⟨hplan, rfl⟩ := run_lift_eq_ok.1 hl
  obtain ⟨joined, f₃, harms, h⟩ := run_bind_eq_ok.1 h
  obtain ⟨hf₃, hend⟩ : f₃.discovered = [] ∧
      (if plan.isExhaustive then pure joined else l.join joined .incomplete) = .ok s := by
    split at h
    · rename_i hex
      obtain ⟨rfl, rfl⟩ := run_pure_eq_ok.1 h
      exact ⟨hf, if_pos hex⟩
    · rename_i hex
      obtain ⟨hj, rfl⟩ := run_lift_eq_ok.1 h
      rw [hm.typing] at hj
      exact ⟨hf, by rw [if_neg hex, hj]⟩
  have hf₁ := Walker.exprArms_increasing (hr w)
    (fun x _ => Walker.expr_increasing (hr w) x.body) _ _ _ harms hf₃
  obtain ⟨hknown, hlower⟩ := ihs start env _ _ _ henv hs₁ hf₁
  have hbody : ∀ start reg dst, _ ∧ _ ∧ Yields (l.exprArms start env reg s₁ dst plan.reachable 0
      .unknown arms) _ := fun start reg dst => hm.exprArms _ iha henv hknown harms hf₃
  have hplan' := hm.matchPlan hplan
  refine ⟨?_, ?_⟩
  · by_cases hex : plan.isExhaustive = true
    · -- a plan that covers every value has an arm, whose type is known
      rw [if_pos hex] at hend
      obtain ⟨k, hk, p, hp⟩ := hm.fits.reachable_of_exhaustive (mapError_eq_ok.1 hplan') hknown hex
      obtain ⟨a, ha, -⟩ : ∃ a, arms[k]? = some a ∧ a.pattern = p := by simpa using hp
      cases hend
      exact (hbody 0 0 0).2.1 k a (by rwa [Nat.zero_add]) ha
    · rw [if_neg hex] at hend
      exact Typing.join_incomplete_ne hend
  · rw [Lowerer.expr]
    refine .bind hlower fun r hr => ?_
    subst hr
    refine .bind (.lift hplan') fun plan' he => ?_
    subst he
    refine .bind .fresh fun dst _ => .bind (hbody _ _ _).2.2 fun q hq => ?_
    obtain ⟨t, lowered⟩ := q
    obtain rfl : t = joined := hq
    dsimp only
    split
    · rename_i hex
      rw [if_pos hex] at hend
      cases hend
      exact .bind (.pure rfl) fun t ht => .pure ht.symm
    · rename_i hex
      rw [if_neg hex] at hend
      exact .bind (.lift hend) fun t ht => .pure ht

omit hm in
theorem expr_incomplete : LowersAlike w l .incomplete := by
  intro start env f s f' henv h hf
  rw [Walker.expr] at h
  obtain ⟨rfl, -⟩ := run_pure_eq_ok.1 h
  rw [Lowerer.expr]
  exact ⟨by simp, .bind .fresh fun _ _ => .pure rfl⟩

/-- Lowering succeeds on an expression, with the type of a walk that discovers nothing. -/
theorem expr (e : Expr) : LowersAlike w l e := by
  induction e using Expr.ind with
  | lit n => exact hm.expr_lit n
  | var name => exact expr_var name
  | binary op lhs rhs ihl ihr => exact hm.expr_binary op ihl ihr
  | call name args ih => exact hm.expr_call name ih
  | field subject name ih => exact hm.expr_field name ih
  | branch subject arms ihs iha => exact hm.expr_branch ihs iha
  | incomplete => exact expr_incomplete

/-! ### Blocks -/

/-- Where a walk over a block that does not loop discovers nothing, lowering succeeds. -/
def BlockLowers (w : Walker) (l : Lowerer) (stmts : List Stmt) : Prop :=
  ∀ start (env : RegEnv) f scope f', EnvKnown env.types →
    (w.block env.types stmts).run f = .ok (scope, f') → f'.discovered = [] →
      Yields (l.block start env stmts) fun _ => True

theorem blockArms {arms : List (Arm (List Stmt))} (ih : ∀ a ∈ arms, BlockLowers w l a.body)
    {start index : Nat} {env : RegEnv} {subject : Reg} {type : StaticType} {reachable : List Nat}
    (henv : EnvKnown env.types) (htype : type ≠ .unknown)
    (h : (w.blockArms env.types type reachable index arms).run f = .ok ((), f'))
    (hf : f'.discovered = []) :
    Yields (l.blockArms start env subject type reachable index arms) fun _ => True := by
  have hr := @Findings.empty_rising w
  induction arms generalizing start index f with
  | nil => rw [Lowerer.blockArms]; exact .pure trivial
  | cons a rest ihs =>
    have hrest : ∀ x ∈ rest, BlockLowers w l x.body := fun x hx => ih x (List.mem_cons_of_mem a hx)
    rw [Walker.blockArms] at h
    rw [Lowerer.blockArms]
    obtain ⟨scope, f₁, hbody, h⟩ := run_bind_eq_ok.1 h
    have hf₁ := Walker.blockArms_increasing hr (fun x _ => Walker.block_increasing hr x.body) _ _ _ h hf
    split
    · rename_i hk
      rw [if_pos hk, hm.typing] at hbody
      have hscope : EnvKnown (env.types.bind (l.binders a.pattern type)) := henv.bind (binders_known htype)
      refine .bind (bindPattern_yields env a.pattern subject type) fun q hq => ?_
      obtain ⟨scope', unpack⟩ := q
      rw [← hq] at hbody hscope
      exact .bind (ih a (by simp) _ _ _ _ _ hscope hbody hf₁) fun _ _ =>
        .bind (ihs hrest h) fun _ _ => .pure trivial
    · exact ihs hrest h

/-- Lowering succeeds on a block that a walk discovers nothing in. -/
theorem block (hstrict : w.strict = true) (stmts : List Stmt) : BlockLowers w l stmts := by
  have hr := @Findings.empty_rising w
  induction stmts using Block.ind with
  | nil => intro start env f scope f' henv h hf; rw [Lowerer.block]; exact .pure trivial
  | assign name value rest ih =>
    intro start env f scope f' henv h hf
    rw [Walker.block] at h
    obtain ⟨s, f₁, hs, h⟩ := run_bind_eq_ok.1 h
    have hf₁ := Walker.block_increasing hr rest _ _ _ _ h hf
    obtain ⟨hknown, hlower⟩ := hm.expr value start env _ _ _ henv hs hf₁
    rw [Lowerer.block]
    refine .bind hlower fun r he => ?_
    subst he
    have hscope : EnvKnown (env.types.insert name r.type) := henv.insert hknown
    rw [← RegEnv.types_insert] at h hscope
    exact .bind (ih _ _ _ _ _ hscope h hf) fun _ _ => .pure trivial
  | ret value rest =>
    intro start env f scope f' henv h hf
    rw [Walker.block] at h
    obtain ⟨s, f₁, hs, h⟩ := run_bind_eq_ok.1 h
    obtain ⟨f₂, f₃, hget, h⟩ := run_bind_eq_ok.1 h
    cases hget
    obtain ⟨joined, f₄, hl, h⟩ := run_bind_eq_ok.1 h
    obtain ⟨-, rfl⟩ := run_lift_eq_ok.1 hl
    cases h
    rw [Lowerer.block]
    exact .bind (hm.expr value start env _ _ _ henv hs hf).2 fun _ _ => .pure trivial
  | eval value rest ih =>
    intro start env f scope f' henv h hf
    rw [Walker.block] at h
    obtain ⟨s, f₁, hs, h⟩ := run_bind_eq_ok.1 h
    have hf₁ := Walker.block_increasing hr rest _ _ _ _ h hf
    rw [Lowerer.block]
    exact .bind (hm.expr value start env _ _ _ henv hs hf₁).2 fun _ _ =>
      .bind (ih _ _ _ _ _ henv h hf) fun _ _ => .pure trivial
  | branch subject arms rest iha ih =>
    intro start env f scope f' henv h hf
    rw [Walker.block] at h
    obtain ⟨s, f₁, hs, h⟩ := run_bind_eq_ok.1 h
    obtain ⟨plan, f₂, hl, h⟩ := run_bind_eq_ok.1 h
    obtain ⟨hplan, rfl⟩ := run_lift_eq_ok.1 hl
    obtain ⟨_, f₃, harms, hrest⟩ := run_bind_eq_ok.1 h
    have hf₃ := Walker.block_increasing hr rest _ _ _ _ hrest hf
    have hf₁ := Walker.blockArms_increasing hr (fun x _ => Walker.block_increasing hr x.body) _ _ _ harms hf₃
    obtain ⟨hknown, hlower⟩ := hm.expr subject start env _ _ _ henv hs hf₁
    rw [Lowerer.block]
    refine .bind hlower fun r he => ?_
    subst he
    refine .bind (.lift (hm.matchPlan hplan)) fun plan' he => ?_
    subst he
    exact .bind (hm.blockArms iha henv hknown harms hf₃) fun _ _ =>
      .bind (ih _ _ _ _ _ henv hrest hf) fun _ _ => .pure trivial
  | loop condition body rest ihb ih =>
    intro start env f scope f' henv h hf
    rw [Walker.block, if_pos hstrict] at h
    obtain ⟨_, _, hthrow, -⟩ := run_bind_eq_ok.1 h
    exact absurd hthrow run_throw_ne_ok

end Mirrors

end Lowerer

end ShapeCompiler
