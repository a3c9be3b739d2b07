import ShapeCompiler.Proofs.Answers
import ShapeCompiler.Proofs.Typing.Findings
import ShapeCompiler.Proofs.Typing.Scope

/-!
A walk that leaves nothing to discover types what the interpreter computes.

Main statements: every value of an expression is of the static type of a walk over it
(`Walker.Sound.expr`), and every result of a body is of its return type (`Walker.Sound.returnType`).
-/

namespace ShapeCompiler

open TypeTable

theorem Typing.argTypes_none {function : Ident} {index : Nat} {ss : List StaticType}
    (h : Typing.argTypes function index ss = .ok none) : .unknown ∈ ss := by
  induction ss generalizing index with
  | nil => cases h
  | cons s rest ih =>
    cases s with
    | unknown => simp
    | incomplete => cases h
    | known id =>
      rw [Typing.argTypes] at h
      split at h
      · rename_i ids hrest
        cases ids with
        | none => exact List.mem_cons_of_mem _ (ih hrest)
        | some ids => cases h
      · cases h

/-- Calls answer as a walk assumes; nothing is assumed unknown. -/
structure Walker.Sound (w : Walker) (t : TypeTable) (i : Interpreter)
    (call : Ident → List Value → Answers Value) : Prop where
  fits : w.toTyping.Fits t
  assumed : ∀ s st, w.assumed.get? s = some st → st ≠ .unknown
  records : i.types.recordNamed? = t.recordNamed?
  bits : i.defaultBits = w.defaultBits
  constructor : ∀ {name id r vs v}, w.types.recordNamed? name = some (id, r) →
    (∀ v ∈ vs, t.Normal v) → call name vs (.ok v) → (StaticType.known id).Has t v
  native : ∀ {name n vs v}, w.types.recordNamed? name = none →
    w.functions.get? name = some (.native n) → call name vs (.ok v) →
      (StaticType.known n.returns).Has t v
  function : ∀ {s st vs v}, w.types.recordNamed? s.function = none → w.assumed.get? s = some st →
    ArgsHave t s.args vs → call s.function vs (.ok v) → st.Has t v

/-- The values of some expressions, each of its static type. -/
def AllHave (t : TypeTable) (ss : List StaticType) (vs : List Value) : Prop :=
  List.Forall₂ (fun s v => s.Has t v) ss vs

theorem AllHave.normal {t : TypeTable} {ss : List StaticType} {vs : List Value} (h : AllHave t ss vs) :
    ∀ v ∈ vs, t.Normal v := by
  induction h with
  | nil => simp
  | cons h _ ih =>
    intro v hv
    rcases List.mem_cons.1 hv with rfl | hv
    · exact h.2
    · exact ih v hv

theorem AllHave.args {t : TypeTable} {ids : List TypeId} {vs : List Value}
    (h : AllHave t (ids.map .known) vs) : ArgsHave t ids vs := by
  induction ids generalizing vs with
  | nil => cases h; exact .nil
  | cons id ids ih =>
    cases h with
    | cons h hs => exact .cons h (ih hs)

namespace Walker.Sound

variable {w : Walker} {t : TypeTable} {i : Interpreter} {call : Ident → List Value → Answers Value}
  {shown : Prop} (hw : w.Sound t i call) {F : Findings} (hF : F.discovered = [])
include hw hF

omit hw in
/-- A call whose walk discovers nothing is assumed. -/
theorem called {name : Ident} {ss : List StaticType} {s : StaticType} {f f' : Findings}
    (hss : ∀ s ∈ ss, s ≠ .unknown) (h : (w.called name ss).run f = .ok (s, f')) (hf : f'.Below t F) :
    ∃ sig, sig.function = name ∧ ss = sig.args.map .known ∧ w.assumed.get? sig = some s := by
  unfold Walker.called at h
  obtain ⟨o, f₁, hl, h⟩ := run_bind_eq_ok.1 h
  obtain ⟨ho, rfl⟩ := run_lift_eq_ok.1 hl
  cases o with
  | none =>
    unfold Typing.signature? at ho
    obtain ⟨ids, hids, ho⟩ := map_eq_ok.1 ho
    cases ids with
    | none => exact absurd rfl (hss _ (Typing.argTypes_none hids))
    | some ids => cases ho
  | some sig =>
    obtain ⟨hfun, hargs⟩ := Typing.signature?_eq ho
    simp only at h
    split at h
    · rename_i st hst
      obtain ⟨rfl, rfl⟩ := run_pure_eq_ok.1 h
      exact ⟨sig, hfun, hargs, hst⟩
    · obtain ⟨_, f₂, hm, h⟩ := run_bind_eq_ok.1 h
      cases hm
      obtain ⟨-, rfl⟩ := run_pure_eq_ok.1 h
      obtain ⟨⟨l, hl⟩, -⟩ := hf
      rw [hF] at hl
      simp at hl

theorem call_has {name : Ident} {ss : List StaticType} {s : StaticType} {f f' : Findings}
    (hss : ∀ s ∈ ss, s ≠ .unknown) (h : (w.call name ss).run f = .ok (s, f')) (hf : f'.Below t F) :
    s ≠ .unknown ∧ ∀ vs v, AllHave t ss vs → call name vs (.ok v) → s.Has t v := by
  unfold Walker.call at h
  obtain ⟨callee, f₁, hl, h⟩ := run_bind_eq_ok.1 h
  obtain ⟨hr, rfl⟩ := run_lift_eq_ok.1 hl
  -- a call of a function that is typed through its signature
  have function : w.types.recordNamed? name = none → (w.called name ss).run f = .ok (s, f') →
      s ≠ .unknown ∧ ∀ vs v, AllHave t ss vs → call name vs (.ok v) → s.Has t v := by
    intro hrec h
    obtain ⟨sig, rfl, rfl, hst⟩ := called hF hss h hf
    exact ⟨hw.assumed sig s hst, fun vs v hvs hv => hw.function hrec hst hvs.args hv⟩
  unfold Typing.resolve at hr
  split at hr
  · rename_i id r hrec
    unfold Typing.expectArgs at hr
    split at hr
    · cases hr
      obtain ⟨_, f₂, hl, h⟩ := run_bind_eq_ok.1 h
      obtain ⟨rfl, -⟩ := run_pure_eq_ok.1 h
      exact ⟨by simp, fun vs v hvs hv => hw.constructor hrec hvs.normal hv⟩
    · cases hr
  · rename_i hrec
    split at hr
    · cases hr
    · rename_i fn hfn
      unfold Typing.expectArgs at hr
      split at hr
      · cases fn with
        | decorated d => cases hr; exact function hrec h
        | interpreted d => cases hr; exact function hrec h
        | native n =>
          cases hr
          obtain ⟨_, f₂, hl, h⟩ := run_bind_eq_ok.1 h
          obtain ⟨rfl, -⟩ := run_pure_eq_ok.1 h
          exact ⟨by simp, fun vs v _ hv => hw.native hrec hfn hv⟩
      · cases hr

/-! ### Expressions -/

/-- What a walk over an expression says of its values. -/
def ExprSound (w : Walker) (t : TypeTable) (i : Interpreter)
    (call : Ident → List Value → Answers Value) (F : Findings) (shown : Prop) (e : Expr) : Prop :=
  ∀ env f s f', EnvKnown env → (w.expr env e).run f = .ok (s, f') → f'.Below t F →
    s ≠ .unknown ∧ ∀ venv v, EnvHas t shown env venv → i.expr call venv e (.ok v) → s.Has t v

omit hw hF in
theorem exprs (hc : w.toTyping.Fits t) {es : List Expr}
    (ih : ∀ e ∈ es, ExprSound w t i call F shown e)
    {env : TypeEnv} {f f' : Findings} {ss : List StaticType} (henv : EnvKnown env)
    (h : (w.exprs env es).run f = .ok (ss, f')) (hf : f'.Below t F) :
    (∀ s ∈ ss, s ≠ .unknown) ∧
      ∀ venv vs, EnvHas t shown env venv → i.exprs call venv es (.ok vs) → AllHave t ss vs := by
  have hr := Findings.below_rising hc
  induction es generalizing f ss with
  | nil =>
    rw [Walker.exprs] at h
    obtain ⟨rfl, rfl⟩ := run_pure_eq_ok.1 h
    refine ⟨by simp, fun venv vs _ hv => ?_⟩
    rw [Interpreter.exprs] at hv
    cases hv
    exact .nil
  | cons e rest ihs =>
    rw [Walker.exprs] at h
    obtain ⟨s, f₁, hs, h⟩ := run_bind_eq_ok.1 h
    obtain ⟨ss', f₂, hss, h⟩ := run_bind_eq_ok.1 h
    obtain ⟨rfl, rfl⟩ := run_pure_eq_ok.1 h
    have hrest : ∀ x ∈ rest, ExprSound w t i call F shown x := fun x hx => ih x (List.mem_cons_of_mem e hx)
    have hf₁ : f₁.Below t F := hr.trans
      (Walker.exprs_increasing hr (fun x _ => Walker.expr_increasing hr x) _ _ _ hss) hf
    obtain ⟨hknown, hhas⟩ := ih e (by simp) _ _ _ _ henv hs hf₁
    obtain ⟨hknown', hhas'⟩ := ihs hrest hss
    refine ⟨?_, fun venv vs hv he => ?_⟩
    · intro x hx
      rcases List.mem_cons.1 hx with rfl | hx
      · exact hknown
      · exact hknown' x hx
    · rw [Interpreter.exprs] at he
      obtain ⟨v, hv₁, he⟩ := Answers.of_bind_ok he
      obtain ⟨vs', hvs, he⟩ := Answers.of_bind_ok he
      cases he
      exact .cons (hhas venv v hv hv₁) (hhas' venv vs' hv hvs)

omit hF in
/-- The type of some arms is above what was joined before and above the types of reachable arms. -/
theorem exprArms {arms : List (Arm Expr)}
    (ih : ∀ a ∈ arms, ExprSound w t i call F (a.pattern.Shows shown) a.body)
    {env : TypeEnv} {subject joined s : StaticType} {reachable : List Nat} {index : Nat}
    {f f' : Findings} (henv : EnvKnown env) (hsub : subject ≠ .unknown)
    (h : (w.exprArms env subject reachable index joined arms).run f = .ok (s, f'))
    (hf : f'.Below t F) :
    (∀ v, joined.Has t v → s.Has t v) ∧ (joined ≠ .unknown → s ≠ .unknown) ∧
      ∀ k a, index + k ∈ reachable → arms[k]? = some a → s ≠ .unknown ∧
        ∀ venv v, EnvHas t (a.pattern.Shows shown) (env.bind (w.binders a.pattern subject)) venv →
          i.expr call venv a.body (.ok v) → s.Has t v := by
  have hc := hw.fits
  have hr := Findings.below_rising hc
  induction arms generalizing index joined f with
  | nil =>
    rw [Walker.exprArms] at h
    obtain ⟨rfl, rfl⟩ := run_pure_eq_ok.1 h
    exact ⟨fun _ h => h, fun h => h, by simp⟩
  | cons a rest ihs =>
    have hrest : ∀ x ∈ rest, ExprSound w t i call F (x.pattern.Shows shown) x.body := fun x hx =>
      ih x (List.mem_cons_of_mem a hx)
    rw [Walker.exprArms] at h
    split at h
    · obtain ⟨s₁, f₁, hs, h⟩ := run_bind_eq_ok.1 h
      obtain ⟨joined', f₂, hl, h⟩ := run_bind_eq_ok.1 h
      obtain ⟨hj, rfl⟩ := run_lift_eq_ok.1 hl
      have hf₁ : f₁.Below t F := hr.trans
        (Walker.exprArms_increasing hr (fun x _ => Walker.expr_increasing hr x.body) _ _ _ h) hf
      have hscope : EnvKnown (env.bind (w.binders a.pattern subject)) := henv.bind (binders_known hsub)
      obtain ⟨hknown, hhas⟩ := ih a (by simp) _ _ _ _ hscope hs hf₁
      obtain ⟨hjoin, hkn, harm⟩ := ihs hrest h
      have hknown' : joined' ≠ .unknown := (hc.join_right hj (.sentinel hknown)).ne_unknown
      refine ⟨fun v hv => hjoin v ⟨hc.join_left hj hv.1, hv.2⟩, fun _ => hkn hknown', ?_⟩
      intro k b hk hb
      cases k with
      | zero =>
        cases hb
        refine ⟨hkn hknown', fun venv v hv he => hjoin v ?_⟩
        obtain ⟨hs, hn⟩ := hhas venv v hv he
        exact ⟨hc.join_right hj hs, hn⟩
      | succ k => exact harm k b (by rwa [Nat.add_right_comm, Nat.add_assoc]) hb
    · rename_i hnot
      obtain ⟨hjoin, hkn, harm⟩ := ihs hrest h
      refine ⟨hjoin, hkn, ?_⟩
      intro k b hk hb
      cases k with
      | zero => exact absurd hk hnot
      | succ k => exact harm k b (by rwa [Nat.add_right_comm, Nat.add_assoc]) hb

omit hF in
/-- The interpreter selects a reachable arm, and binds what typing expects of it. -/
theorem select {β : Type} {arms : List (Arm β)} {subject : StaticType} {plan : MatchPlan} {v : Value}
    (hplan : w.matchPlan subject (arms.map (·.pattern)) = .ok plan) (hs : subject.Has t v) :
    ∃ res, i.selectArm v (arms.map (·.pattern)) = .ok res ∧
      ∀ k bound, res = some (k, bound) → ∃ a, arms[k]? = some a ∧ k ∈ plan.reachable ∧
        Bound t a.pattern bound (w.binders a.pattern subject) := by
  have hplan := mapError_eq_ok.1 hplan
  obtain ⟨hclosed, hreg⟩ := Typing.planArms_closed hw.fits.wellFormed hplan
  obtain ⟨cv, hcv⟩ := hs.2
  obtain ⟨res, hres, hpick, -⟩ := hw.fits.plan_pick i hplan hs.1 hcv
  refine ⟨res, hres, ?_⟩
  rintro k bound rfl
  obtain ⟨j, p, hj, hp, hb⟩ := Interpreter.selectFrom_some hres
  obtain rfl : k = j := by rw [hj, Nat.zero_add]
  obtain ⟨a, ha, rfl⟩ : ∃ a, arms[k]? = some a ∧ a.pattern = p := by simpa using hp
  have hk := hclosed.pick hpick
  refine ⟨a, ha, hk, hw.fits.bound hs ?_ hb⟩
  intro name bs hname
  exact hreg k hk name bs (by rw [hp, hname])

omit hF in
theorem expr_lit (n : UInt64) : ExprSound w t i call F shown (.lit n) := by
  have hc := hw.fits
  intro env f s f' henv h hf
  rw [Walker.expr] at h
  obtain ⟨rfl, rfl⟩ := run_pure_eq_ok.1 h
  refine ⟨by simp, fun venv v _ hv => ?_⟩
  rw [Interpreter.expr] at hv
  cases hv
  obtain ⟨h₁, h₂⟩ := hc.wellFormed.width (scalarBits?_eq_some.1 hc.defaultScalar)
  refine ⟨.inr ?_, normal_uint _⟩
  rw [hw.bits, TypeTable.Admits, Uint.bits_wrap h₁ h₂]
  exact hc.grows.scalarBits? hc.defaultScalar

omit hw hF in
theorem expr_var {name : Ident} (hname : name = placeholder → shown) :
    ExprSound w t i call F shown (.var name) := by
  intro env f s f' henv h hf
  rw [Walker.expr] at h
  split at h
  · rename_i s' hs
    obtain ⟨rfl, rfl⟩ := run_pure_eq_ok.1 h
    refine ⟨henv _ (Assoc.mem_of_get? hs), fun venv v hv he => ?_⟩
    rw [Interpreter.expr] at he
    cases hv' : venv.get? name with
    | none => rw [hv'] at he; cases he
    | some v' =>
      rw [hv'] at he
      cases he
      obtain ⟨s'', hs'', hh⟩ := hv name hname v hv'
      rw [hs] at hs''
      cases hs''
      exact hh
  · exact absurd h run_throw_ne_ok

omit hF in
/-- The wider of two known types is known, and numbers of the two have it in common. -/
theorem expr_binary {op : Operator} {lhs rhs : Expr} (hlhs : ExprSound w t i call F shown lhs)
    (hrhs : ExprSound w t i call F shown rhs) : ExprSound w t i call F shown (.binary op lhs rhs) := by
  have hc := hw.fits
  have hr := Findings.below_rising hc
  intro env f s f' henv h hf
  rw [Walker.expr] at h
  obtain ⟨a, f₁, ha, h⟩ := run_bind_eq_ok.1 h
  obtain ⟨b, f₂, hb, h⟩ := run_bind_eq_ok.1 h
  obtain ⟨hs, rfl⟩ := run_lift_eq_ok.1 h
  have hf₁ := hr.trans (Walker.expr_increasing hr rhs env _ _ _ hb) hf
  obtain ⟨hka, hha⟩ := hlhs _ _ _ _ henv ha hf₁
  obtain ⟨hkb, hhb⟩ := hrhs _ _ _ _ henv hb hf
  refine ⟨Typing.binary_ne_unknown hs hka hkb, fun venv v hv he => ?_⟩
  rw [Interpreter.expr] at he
  obtain ⟨va, hva, he⟩ := Answers.of_bind_ok he
  obtain ⟨vb, hvb, he⟩ := Answers.of_bind_ok he
  have he := Answers.step_iff.1 he
  obtain ⟨h₁, n₁⟩ := hha venv va hv hva
  obtain ⟨h₂, n₂⟩ := hhb venv vb hv hvb
  obtain ⟨_, _, _, -, -, -, rfl⟩ := Interpreter.binary_ok n₁ n₂ he
  exact ⟨hc.binary hs h₁ h₂ n₁ n₂ he, normal_uint _⟩

theorem expr_call {name : Ident} {args : List Expr}
    (hargs : ∀ e ∈ args, ExprSound w t i call F shown e) :
    ExprSound w t i call F shown (.call name args) := by
  have hc := hw.fits
  have hr := Findings.below_rising hc
  intro env f s f' henv h hf
  rw [Walker.expr] at h
  obtain ⟨ss, f₁, hss, h⟩ := run_bind_eq_ok.1 h
  have hf₁ := hr.trans (Walker.call_increasing hr name ss _ _ _ h) hf
  obtain ⟨hk, hh⟩ := exprs hc hargs henv hss hf₁
  obtain ⟨hk', hh'⟩ := hw.call_has hF hk h hf
  refine ⟨hk', fun venv v hv he => ?_⟩
  rw [Interpreter.expr] at he
  obtain ⟨vs, hvs, he⟩ := Answers.of_bind_ok he
  exact hh' vs v (hh venv vs hv hvs) he

omit hF in
theorem expr_field {subject : Expr} {name : Ident} (hsubject : ExprSound w t i call F shown subject) :
    ExprSound w t i call F shown (.field subject name) := by
  have hc := hw.fits
  intro env f s f' henv h hf
  rw [Walker.expr] at h
  obtain ⟨s₁, f₁, hs₁, h⟩ := run_bind_eq_ok.1 h
  obtain ⟨⟨s₂, location⟩, f₂, hl, h⟩ := run_bind_eq_ok.1 h
  obtain ⟨hfield, rfl⟩ := run_lift_eq_ok.1 hl
  obtain ⟨rfl, rfl⟩ := run_pure_eq_ok.1 h
  obtain ⟨hk, hh⟩ := hsubject _ _ _ _ henv hs₁ hf
  refine ⟨Typing.field_ne_unknown hfield hk, fun venv v hv he => ?_⟩
  rw [Interpreter.expr] at he
  obtain ⟨v₁, hv₁, he⟩ := Answers.of_bind_ok he
  obtain ⟨h₁, n₁⟩ := hh venv v₁ hv hv₁
  exact hc.field hw.records hfield h₁ n₁ (Answers.step_iff.1 he)

omit hF in
/-- The type of a match is above that of every arm that the interpreter can select, and above the sentinel
if it may select none. -/
theorem expr_branch {subject : Expr} {arms : List (Arm Expr)} (hsubject : ExprSound w t i call F shown subject)
    (hbodies : ∀ a ∈ arms, ExprSound w t i call F (a.pattern.Shows shown) a.body) :
    ExprSound w t i call F shown (.branch subject arms) := by
  have hc := hw.fits
  have hr := Findings.below_rising hc
  intro env f s f' henv h hf
  rw [Walker.expr] at h
  obtain ⟨s₁, f₁, hs₁, h⟩ := run_bind_eq_ok.1 h
  obtain ⟨plan, f₂, hl, h⟩ := run_bind_eq_ok.1 h
  obtain ⟨hplan, rfl⟩ := run_lift_eq_ok.1 hl
  obtain ⟨joined, f₃, harms, h⟩ := run_bind_eq_ok.1 h
  -- the type of the match is above that of the arms, and something is known of it
  have hjoin : f₃ = f' ∧ (∀ v, joined.Has t v → s.Has t v) ∧ (plan.isExhaustive = true → joined = s) ∧
      (plan.isExhaustive = false → s ≠ .unknown) := by
    split at h
    · rename_i hex
      obtain ⟨rfl, rfl⟩ := run_pure_eq_ok.1 h
      exact ⟨rfl, fun _ h => h, fun _ => rfl, fun he => by rw [hex] at he; cases he⟩
    · rename_i hex
      obtain ⟨hj, rfl⟩ := run_lift_eq_ok.1 h
      exact ⟨rfl, fun v hv => ⟨hc.join_left hj hv.1, hv.2⟩, fun he => absurd he hex,
        fun _ => (hc.join_right hj (.sentinel (by simp))).ne_unknown⟩
  obtain ⟨rfl, hup, hex, hnex⟩ := hjoin
  have hf₁ := hr.trans
    (Walker.exprArms_increasing hr (fun x _ => Walker.expr_increasing hr x.body) _ _ _ harms) hf
  obtain ⟨hk₁, hh₁⟩ := hsubject _ _ _ _ henv hs₁ hf₁
  obtain ⟨-, -, harm⟩ := hw.exprArms hbodies henv hk₁ harms hf
  have hk : s ≠ .unknown := by
    cases he : plan.isExhaustive with
    | false => exact hnex he
    | true =>
      obtain ⟨k, hk, p, hp⟩ := hc.reachable_of_exhaustive (mapError_eq_ok.1 hplan) hk₁ he
      obtain ⟨a, ha, -⟩ : ∃ a, arms[k]? = some a ∧ a.pattern = p := by simpa using hp
      rw [← hex he]
      exact (harm k a (by rwa [Nat.zero_add]) ha).1
  refine ⟨hk, fun venv v hv he => ?_⟩
  rw [Interpreter.expr] at he
  obtain ⟨v₁, hv₁, he⟩ := Answers.of_bind_ok he
  obtain ⟨res, hres, hsel⟩ := hw.select hplan (hh₁ venv v₁ hv hv₁)
  rw [hres, Answers.step_ok, Answers.pure_bind] at he
  cases res with
  | none =>
    cases he
    exact .sentinel hk
  | some q =>
    obtain ⟨a, ha, hkr, hbound⟩ := hsel q.1 q.2 rfl
    simp only [Interpreter.exprArm_eq _ ha] at he
    exact hup v ((harm q.1 a (by rwa [Nat.zero_add]) ha).2 _ v (hv.bound hbound) he)

omit hw hF in
theorem expr_incomplete : ExprSound w t i call F shown .incomplete := by
  intro env f s f' henv h hf
  rw [Walker.expr] at h
  obtain ⟨rfl, rfl⟩ := run_pure_eq_ok.1 h
  refine ⟨by simp, fun venv v _ hv => ?_⟩
  rw [Interpreter.expr] at hv
  cases hv
  exact ⟨rfl, normal_incomplete⟩

/-- Every value of an expression is of the static type of a walk over it. -/
theorem expr (e : Expr) (htidy : e.Tidy shown) : ExprSound w t i call F shown e := by
  induction e using Expr.ind generalizing shown with
  | lit n => exact hw.expr_lit n
  | var name =>
    rw [Expr.Tidy] at htidy
    exact expr_var htidy
  | binary op lhs rhs ihl ihr =>
    rw [Expr.Tidy] at htidy
    exact hw.expr_binary (ihl htidy.1) (ihr htidy.2)
  | call name args ih =>
    rw [Expr.Tidy] at htidy
    exact hw.expr_call hF fun e he => ih e he (Expr.allTidy_iff.1 htidy e he)
  | field subject name ih =>
    rw [Expr.Tidy] at htidy
    exact hw.expr_field (ih htidy)
  | branch subject arms ihs iha =>
    rw [Expr.Tidy] at htidy
    exact hw.expr_branch (ihs htidy.1) fun a ha => iha a ha (Expr.armsTidy_iff.1 htidy.2 a ha)
  | incomplete => exact expr_incomplete

/-! ### Loops -/

omit hF in
/-- Joining the types after a round leaves a scope that is above both. -/
theorem mergeRound {before merged : TypeEnv} {entries : List (Ident × StaticType)}
    (h : w.mergeRound before entries = .ok merged) :
    Wider t before merged ∧
      (∀ p ∈ entries, ∃ s, merged.get? p.1 = some s ∧ ∀ v, p.2.Admits t v → s.Admits t v) ∧
      (EnvKnown before → (∀ p ∈ entries, p.2 ≠ .unknown) → EnvKnown merged) := by
  have hc := hw.fits
  induction entries generalizing before with
  | nil =>
    cases h
    exact ⟨.refl _, by simp, fun hb _ => hb⟩
  | cons p rest ih =>
    obtain ⟨name, s⟩ := p
    rw [Walker.mergeRound] at h
    -- the joined type is above the new one and, if there is one, the old one
    obtain ⟨joined, hnew, hold, h⟩ : ∃ joined, (∀ v, s.Admits t v → joined.Admits t v) ∧
        (∀ old, before.get? name = some old → ∀ v, old.Admits t v → joined.Admits t v) ∧
        w.mergeRound (before.insert name joined) rest = .ok merged := by
      split at h
      · rename_i old hget
        obtain ⟨joined, hj, h⟩ := bind_eq_ok.1 h
        refine ⟨joined, fun v => hc.join_right hj, fun old' hget' v hv => ?_, h⟩
        obtain rfl : old = old' := Option.some.inj (hget.symm.trans hget')
        exact hc.join_left hj hv
      · rename_i hget
        refine ⟨s, fun _ hv => hv, fun old' hget' => ?_, h⟩
        rw [hget] at hget'
        cases hget'
    obtain ⟨hwide, hent, hknown⟩ := ih h
    have hstep : Wider t before (before.insert name joined) := by
      intro n old hget
      rw [Assoc.get?_insert]
      by_cases hn : name = n
      · subst hn
        exact ⟨joined, by rw [if_pos rfl], hold old hget⟩
      · exact ⟨old, by rw [if_neg hn, hget], fun v hv => hv⟩
    refine ⟨hstep.trans hwide, ?_, ?_⟩
    · intro q hq
      rcases List.mem_cons.1 hq with rfl | hq
      · obtain ⟨s', hs', hup⟩ := hwide name joined (by simp)
        exact ⟨s', hs', fun v hv => hup v (hnew v hv)⟩
      · exact hent q hq
    · intro hb hk
      have hs : joined ≠ .unknown := (hnew _ (.sentinel (hk (name, s) (by simp)))).ne_unknown
      exact hknown (hb.insert hs) fun q hq => hk q (List.mem_cons_of_mem _ hq)

omit hF in
/-- A settled loop leaves a scope that one more round does not widen. -/
theorem settleLoop {round : TypeEnv → WalkM TypeEnv} (hinc : ∀ env, Increasing (Findings.Below t) (round env))
    (hround : ∀ env f env' f', EnvKnown env → (round env).run f = .ok (env', f') → f'.Below t F →
      EnvKnown env') :
    ∀ {fuel env f env' f'}, EnvKnown env →
      (w.settleLoop round fuel env).run f = .ok (env', f') → f'.Below t F →
      Wider t env env' ∧ EnvKnown env' ∧ ∃ f₁ after, (round env').run f₁ = .ok (after, f') ∧
        Wider t after env' := by
  have hr := Findings.below_rising hw.fits
  intro fuel
  induction fuel with
  | zero =>
    intro env f env' f' _ h
    rw [Walker.settleLoop] at h
    exact absurd h run_throw_ne_ok
  | succ fuel ih =>
    intro env f env' f' henv h hf
    rw [Walker.settleLoop] at h
    obtain ⟨after, f₁, hrun, h⟩ := run_bind_eq_ok.1 h
    obtain ⟨merged, f₂, hl, h⟩ := run_bind_eq_ok.1 h
    obtain ⟨hm, rfl⟩ := run_lift_eq_ok.1 hl
    obtain ⟨hwide, hent, hknown⟩ := hw.mergeRound hm
    have hafter : Wider t after merged := by
      intro n s hs
      exact hent (n, s) (Assoc.mem_of_get? hs)
    split at h
    · rename_i he
      obtain ⟨rfl, rfl⟩ := run_pure_eq_ok.1 h
      rw [he] at hafter
      exact ⟨.refl _, henv, f, after, hrun, hafter⟩
    · have hf₁ := hr.trans (Walker.settleLoop_increasing hr hinc _ _ _ _ _ h) hf
      have hka := hround _ _ _ _ henv hrun hf₁
      have hkm := hknown henv hka
      obtain ⟨hw', hk', hlast⟩ := ih hkm h hf
      exact ⟨hwide.trans hw', hk', hlast⟩

omit hw hF in
/-- A loop keeps what its body keeps of the scope. -/
theorem repeatWhile {condition : Env → Answers Value} {body : Env → Answers Flow} {P : Env → Prop}
    {R : Value → Prop} (hbody : ∀ venv flow, P venv → body venv (.ok flow) →
      match flow with | .next venv' => P venv' | .returned v => R v) :
    ∀ {fuel venv flow}, P venv → i.repeatWhile condition body fuel venv (.ok flow) →
      match flow with | .next venv' => P venv' | .returned v => R v := by
  intro fuel
  induction fuel with
  | zero =>
    intro venv flow _ h
    rw [Interpreter.repeatWhile] at h
    exact h.elim
  | succ fuel ih =>
    intro venv flow hP h
    rw [Interpreter.repeatWhile] at h
    obtain ⟨v, -, h⟩ := Answers.of_bind_ok h
    obtain ⟨go, -, h⟩ := Answers.of_bind_ok h
    cases go with
    | false => cases h; exact hP
    | true =>
      obtain ⟨flow', hflow, h⟩ := Answers.of_bind_ok h
      have hnext := hbody venv flow' hP hflow
      cases flow' with
      | returned v => cases h; exact hnext
      | next venv' => exact ih hnext h

omit hw hF in
/-- A loop ends in a scope that its rounds keep. -/
theorem repeatWhile_next {condition : Env → Answers Value} {body : Env → Answers Flow}
    {P : Env → Prop} (hkeep : ∀ venv venv', P venv → body venv (.ok (.next venv')) → P venv')
    {fuel : Nat} {venv venv' : Env} (hP : P venv)
    (h : i.repeatWhile condition body fuel venv (.ok (.next venv'))) : P venv' := by
  refine repeatWhile (P := P) (R := fun _ => True) (fun venv flow hP hflow => ?_) hP h
  cases flow with
  | next venv' => exact hkeep venv venv' hP hflow
  | returned v => trivial

/-! ### Blocks -/

/-- How a block can go under static types: on with a scope, or out with a value. -/
def FlowHas (t : TypeTable) (shown : Prop) (env : TypeEnv) (returns : StaticType) : Flow → Prop
  | .next venv => EnvHas t shown env venv
  | .returned v => returns.Has t v

/-- What a walk over a block says of its runs. -/
def BlockSound (w : Walker) (t : TypeTable) (i : Interpreter)
    (call : Ident → List Value → Answers Value) (F : Findings) (shown : Prop) (stmts : List Stmt) :
    Prop :=
  ∀ env f env' f', EnvKnown env → (w.block env stmts).run f = .ok (env', f') → f'.Below t F →
    EnvKnown env' ∧ ∀ fuel venv flow, EnvHas t shown env venv →
      i.block call fuel venv stmts (.ok flow) → FlowHas t shown env' F.returns flow

omit hw hF in
theorem blockArms (hc : w.toTyping.Fits t) {arms : List (Arm (List Stmt))}
    (ih : ∀ a ∈ arms, BlockSound w t i call F (a.pattern.Shows shown) a.body) {env : TypeEnv}
    {subject : StaticType} {reachable : List Nat} {index : Nat} {f f' : Findings}
    (henv : EnvKnown env) (hsub : subject ≠ .unknown)
    (h : (w.blockArms env subject reachable index arms).run f = .ok ((), f')) (hf : f'.Below t F) :
    ∀ k a, index + k ∈ reachable → arms[k]? = some a → ∃ env', ∀ fuel venv flow,
      EnvHas t (a.pattern.Shows shown) (env.bind (w.binders a.pattern subject)) venv →
      i.block call fuel venv a.body (.ok flow) →
        FlowHas t (a.pattern.Shows shown) env' F.returns flow := by
  have hr := Findings.below_rising hc
  induction arms generalizing index f with
  | nil => simp
  | cons a rest ihs =>
    have hrest : ∀ x ∈ rest, BlockSound w t i call F (x.pattern.Shows shown) x.body := fun x hx =>
      ih x (List.mem_cons_of_mem a hx)
    rw [Walker.blockArms] at h
    obtain ⟨env', f₁, hb, h⟩ := run_bind_eq_ok.1 h
    have hf₁ : f₁.Below t F := hr.trans
      (Walker.blockArms_increasing hr (fun x _ => Walker.block_increasing hr x.body) _ _ _ h) hf
    have hscope : EnvKnown (env.bind (w.binders a.pattern subject)) := henv.bind (binders_known hsub)
    have harm := ihs hrest h
    intro k b hk hb'
    cases k with
    | zero =>
      cases hb'
      rw [if_pos (show index ∈ reachable from hk)] at hb
      exact ⟨env', (ih a (by simp) _ _ _ _ hscope hb hf₁).2⟩
    | succ k => exact harm k b (by rwa [Nat.add_right_comm, Nat.add_assoc]) hb'

omit hF in
theorem loopBody_block {body : Block} (hbody : BlockSound w t i call F shown body)
    {env settled : TypeEnv} {f f' : Findings} (henv : EnvKnown env)
    (h : (w.loopBody body env).run f = .ok (settled, f'))
    (hf : f'.Below t F) : Wider t env settled ∧ EnvKnown settled ∧
      (∃ f₁ after, (w.block settled body).run f₁ = .ok (after, f')) ∧
      ∀ fuel venv flow, EnvHas t shown settled venv → i.block call fuel venv body (.ok flow) →
        FlowHas t shown settled F.returns flow := by
  have hr := Findings.below_rising hw.fits
  obtain ⟨hwide, hk, f₁, after, hround, hback⟩ := hw.settleLoop
    (fun env => Walker.block_increasing hr body env)
    (fun env f env' f' henv h hf => (hbody env f env' f' henv h hf).1) henv h hf
  refine ⟨hwide, hk, ⟨f₁, after, hround⟩, fun fuel venv flow hv he => ?_⟩
  have hflow := (hbody settled f₁ after f' hk hround hf).2 fuel venv flow hv he
  cases flow with
  | next venv' => exact EnvHas.wider hflow hback
  | returned v => exact hflow

omit hw hF in
theorem block_nil : BlockSound w t i call F shown [] := by
  intro env f env' f' henv h hf
  rw [Walker.block] at h
  obtain ⟨rfl, rfl⟩ := run_pure_eq_ok.1 h
  refine ⟨henv, fun fuel venv flow hv he => ?_⟩
  rw [Interpreter.block] at he
  cases he
  exact hv

omit hF in
theorem block_assign {name : Ident} {value : Expr} {rest : List Stmt} (hvalue : ExprSound w t i call F shown value)
    (hrest : BlockSound w t i call F (shown ∨ name = placeholder) rest) :
    BlockSound w t i call F shown (.assign name value :: rest) := by
  have hr := Findings.below_rising hw.fits
  intro env f env' f' henv h hf
  rw [Walker.block] at h
  obtain ⟨s, f₁, hs, h⟩ := run_bind_eq_ok.1 h
  have hf₁ := hr.trans (Walker.block_increasing hr rest _ _ _ _ h) hf
  obtain ⟨hk, hh⟩ := hvalue _ _ _ _ henv hs hf₁
  obtain ⟨hk', hh'⟩ := hrest _ _ _ _ (henv.insert hk) h hf
  refine ⟨hk', fun fuel venv flow hv he => ?_⟩
  rw [Interpreter.block] at he
  obtain ⟨v, hev, he⟩ := Answers.of_bind_ok he
  have hflow := hh' fuel _ flow (hv.insert (hh venv v hv hev)) he
  cases flow with
  | next venv' => exact EnvHas.mono hflow .inl
  | returned v => exact hflow

omit hF in
/-- What is returned is below what the walk has joined, and later joins only raise that. -/
theorem block_ret {value : Expr} (rest : List Stmt) (hvalue : ExprSound w t i call F shown value) :
    BlockSound w t i call F shown (.ret value :: rest) := by
  have hc := hw.fits
  intro env f env' f' henv h hf
  rw [Walker.block] at h
  obtain ⟨s, f₁, hs, h⟩ := run_bind_eq_ok.1 h
  obtain ⟨f₂, f₃, hget, h⟩ := run_bind_eq_ok.1 h
  cases hget
  obtain ⟨joined, f₄, hl, h⟩ := run_bind_eq_ok.1 h
  obtain ⟨hj, rfl⟩ := run_lift_eq_ok.1 hl
  cases h
  have hf₁ : f₁.Below t F := by
    obtain ⟨⟨l, hl⟩, hup⟩ := hf
    exact ⟨⟨l, hl⟩, fun v hv => hup v (hc.join_left hj hv)⟩
  obtain ⟨hk, hh⟩ := hvalue _ _ _ _ henv hs hf₁
  refine ⟨henv, fun fuel venv flow hv he => ?_⟩
  rw [Interpreter.block] at he
  obtain ⟨v, hev, he⟩ := Answers.of_bind_ok he
  cases he
  obtain ⟨hv₁, hn⟩ := hh venv v hv hev
  exact ⟨hf.2 v (hc.join_right hj hv₁), hn⟩

omit hw hF in
theorem block_eval {value : Expr} {rest : List Stmt} (hrest : BlockSound w t i call F shown rest) :
    BlockSound w t i call F shown (.eval value :: rest) := by
  intro env f env' f' henv h hf
  rw [Walker.block] at h
  obtain ⟨s, f₁, hs, h⟩ := run_bind_eq_ok.1 h
  obtain ⟨hk', hh'⟩ := hrest _ _ _ _ henv h hf
  refine ⟨hk', fun fuel venv flow hv he => ?_⟩
  rw [Interpreter.block] at he
  obtain ⟨v, -, he⟩ := Answers.of_bind_ok he
  exact hh' fuel venv flow hv he

omit hF in
/-- What the arms assign is gone behind a match, so the block goes on in the scope before it. -/
theorem block_branch {subject : Expr} {arms : List (Arm (List Stmt))} {rest : List Stmt}
    (hsubject : ExprSound w t i call F shown subject)
    (hbodies : ∀ a ∈ arms, BlockSound w t i call F (a.pattern.Shows shown) a.body)
    (hrest : BlockSound w t i call F shown rest) :
    BlockSound w t i call F shown (.branch subject arms :: rest) := by
  have hc := hw.fits
  have hr := Findings.below_rising hc
  intro env f env' f' henv h hf
  rw [Walker.block] at h
  obtain ⟨s, f₁, hs, h⟩ := run_bind_eq_ok.1 h
  obtain ⟨plan, f₂, hl, h⟩ := run_bind_eq_ok.1 h
  obtain ⟨hplan, rfl⟩ := run_lift_eq_ok.1 hl
  obtain ⟨⟨⟩, f₃, harms, h⟩ := run_bind_eq_ok.1 h
  have hf₃ := hr.trans (Walker.block_increasing hr rest _ _ _ _ h) hf
  have hf₁ := hr.trans (Walker.blockArms_increasing hr
    (fun x _ => Walker.block_increasing hr x.body) _ _ _ harms) hf₃
  obtain ⟨hk, hh⟩ := hsubject _ _ _ _ henv hs hf₁
  have harm := blockArms hc hbodies henv hk harms hf₃
  obtain ⟨hk', hh'⟩ := hrest _ _ _ _ henv h hf
  refine ⟨hk', fun fuel venv flow hv he => ?_⟩
  rw [Interpreter.block] at he
  obtain ⟨v, hev, he⟩ := Answers.of_bind_ok he
  obtain ⟨res, hres, hsel⟩ := hw.select hplan (hh venv v hv hev)
  rw [hres, Answers.step_ok, Answers.pure_bind] at he
  obtain ⟨flow', hflow, he⟩ := Answers.of_bind_ok he
  cases res with
  | none =>
    cases hflow
    exact hh' fuel venv flow hv he
  | some q =>
    obtain ⟨a, ha, hkr, hbound⟩ := hsel q.1 q.2 rfl
    simp only [Option.elim_some, Interpreter.blockArm_eq _ _ ha] at hflow
    obtain ⟨env₁, harm⟩ := harm q.1 a (by rwa [Nat.zero_add]) ha
    have hflow := harm fuel _ flow' (hv.bound hbound) hflow
    cases flow' with
    | returned v => cases he; exact hflow
    | next _ => exact hh' fuel venv flow hv he

omit hF in
/-- A loop keeps the scope that its walk settles on, which is wider than the one before it. -/
theorem block_loop {condition : Expr} {body : Block} {rest : List Stmt}
    (hbody : BlockSound w t i call F shown body) (hrest : BlockSound w t i call F shown rest) :
    BlockSound w t i call F shown (.loop condition body :: rest) := by
  have hr := Findings.below_rising hw.fits
  intro env f env' f' henv h hf
  obtain ⟨s, f₁, env₁, f₂, hs, hsettle, h⟩ := Walker.run_block_loop h
  have hf₂ := hr.trans (Walker.block_increasing hr rest _ _ _ _ h) hf
  obtain ⟨hwide, hk₁, -, hhb⟩ := hw.loopBody_block hbody henv hsettle hf₂
  obtain ⟨hk', hh'⟩ := hrest _ _ _ _ hk₁ h hf
  refine ⟨hk', fun fuel venv flow hv he => ?_⟩
  rw [Interpreter.block] at he
  obtain ⟨flow', hflow, he⟩ := Answers.of_bind_ok he
  have hloop := repeatWhile (P := EnvHas t shown env₁) (R := F.returns.Has t) (fun venv flow hP hflow => by
    have := hhb fuel venv flow hP hflow
    cases flow <;> exact this) (hv.wider hwide) hflow
  cases flow' with
  | returned v => cases he; exact hloop
  | next venv' => exact hh' fuel venv' flow hloop he

/-- Every run of a block goes as a walk over it says. -/
theorem block (stmts : List Stmt) (htidy : Block.Tidy shown stmts) :
    BlockSound w t i call F shown stmts := by
  induction stmts using Block.ind generalizing shown with
  | nil => exact block_nil
  | assign name value rest ih =>
    rw [Block.Tidy] at htidy
    exact hw.block_assign (hw.expr hF value htidy.1) (ih htidy.2)
  | ret value rest =>
    rw [Block.Tidy] at htidy
    exact hw.block_ret rest (hw.expr hF value htidy)
  | eval value rest ih =>
    rw [Block.Tidy] at htidy
    exact block_eval (ih htidy.2)
  | branch subject arms rest iha ih =>
    rw [Block.Tidy] at htidy
    exact hw.block_branch (hw.expr hF subject htidy.1)
      (fun a ha => iha a ha (Block.armsTidy_iff.1 htidy.2.1 a ha)) (ih htidy.2.2)
  | loop condition body rest ihb ih =>
    rw [Block.Tidy] at htidy
    exact hw.block_loop (ihb htidy.2.1) (ih htidy.2.2)

omit hw hF in
theorem envHas_params {params : List Ident} {ids : List TypeId} {vs : List Value}
    (h : ArgsHave t ids vs) :
    EnvHas t True (Assoc.ofList (params.zip (ids.map .known))) (Assoc.ofList (params.zip vs)) := by
  have insertAll : ∀ {env : TypeEnv} {venv : Env}, EnvHas t True env venv →
      EnvHas t True (env.insertAll (params.zip (ids.map .known))) (venv.insertAll (params.zip vs)) := by
    unfold Assoc.insertAll
    induction h generalizing params with
    | nil => intro env venv hv; simpa using hv
    | cons hid _ ih =>
      intro env venv hv
      cases params with
      | nil => exact hv
      | cons n params => exact ih (hv.insert_same hid)
  exact insertAll fun _ _ _ hv => by cases hv

omit hw hF in
theorem envKnown_params {params : List Ident} {ids : List TypeId} :
    EnvKnown (Assoc.ofList (params.zip (ids.map .known))) := by
  have insertAll : ∀ {pairs : List (Ident × StaticType)} {env : TypeEnv},
      (∀ p ∈ pairs, p.2 ≠ .unknown) → EnvKnown env → EnvKnown (env.insertAll pairs) := by
    intro pairs
    unfold Assoc.insertAll
    induction pairs with
    | nil => exact fun _ h => h
    | cons p rest ih =>
      intro env hp h
      exact ih (fun q hq => hp q (List.mem_cons_of_mem _ hq)) (h.insert (hp p (by simp)))
  refine insertAll (fun p hp => ?_) fun _ hp => by cases hp
  obtain ⟨id, -, hid⟩ := List.mem_map.1 (List.of_mem_zip hp).2
  rw [← hid]
  simp

omit hF in
/-- Every result of a body is of the return type of a walk that discovers nothing. -/
theorem returnType {d : FunctionDef} (htidy : Block.Tidy True d.body) {ids : List TypeId}
    {s : StaticType} {f : Findings} (h : (w.returnType d ids).run {} = .ok (s, f))
    (hf : f.discovered = []) :
    s ≠ .unknown ∧ ∀ fuel vs v, ArgsHave t ids vs → i.body call fuel d vs (.ok v) → s.Has t v := by
  obtain ⟨-, env, hb, hj⟩ := Walker.returnType_ok h
  have hs : s ≠ .unknown := (hw.fits.join_right hj (.sentinel (by simp))).ne_unknown
  obtain ⟨-, hh⟩ := hw.block hf d.body htidy _ _ _ _ envKnown_params hb
    ((Findings.below_rising hw.fits).refl f)
  refine ⟨hs, fun fuel vs v hvs hv => ?_⟩
  unfold Interpreter.body at hv
  obtain ⟨flow, hflow, hv⟩ := Answers.of_bind_ok hv
  have hflow := hh fuel _ flow (envHas_params hvs) hflow
  cases flow with
  | returned v' =>
    cases hv
    exact ⟨hw.fits.join_left hj hflow.1, hflow.2⟩
  | next _ =>
    cases hv
    exact .sentinel hs

end Walker.Sound

end ShapeCompiler
