import ShapeCompiler.Proofs.Typing.Soundness

/-!
A walk that leaves nothing to discover keeps the interpreter from going wrong, up to its loops.

The walk types the condition of a loop once, in the scope before it, and gives every variable that a
loop assigns a type behind it. So what it says of a run needs that every loop is covered: its
condition is a number in the scope that the loop settles in too, and the loop assigns no variable for
the first time (`Walker.LoopsCovered`). A body without loops is covered (`LoopsCovered.of_loopFree`).

Main statements: then every error of an expression (`Walker.Tolerant.expr`) and of a body
(`Walker.Tolerant.body`) is one that the types cannot rule out (`RuntimeError.Tolerated`).
-/

namespace ShapeCompiler

open TypeTable

/-- Errors that types do not rule out: of numbers, of native functions, of the limit, and of the
sentinel in the place of a value. -/
def RuntimeError.Tolerated : RuntimeError → Prop
  | undefinedVariable _ => False
  | notDefined _ => False
  | arityMismatch _ _ _ => False
  | missingReturn _ => False
  | e => e.OverSentinel

/-- Errors of a run that types do not rule out. -/
def Error.Tolerated : Error → Prop
  | runtime e => e.Tolerated
  | _ => False

theorem Error.tolerated_of_step {α : Type} {x : Except RuntimeError α} {err : Error}
    (hx : ∀ r, x = .error r → r.Tolerated) (h : (Interpreter.step x : Answers α) (.error err)) :
    err.Tolerated := by
  obtain ⟨r, rfl, hr⟩ := Answers.step_error_iff.1 h
  exact hx r hr

/-! ### Steps -/

namespace Typing.Fits

variable {c : Typing} {t : TypeTable} {i : Interpreter} {s s₁ s₂ : StaticType} {v v₁ v₂ : Value}
  {id expected : TypeId} {name : Ident} {e : RuntimeError} (hc : c.Fits t)
include hc

theorem binary_tolerated {op : Operator} (h : c.binary op s₁ s₂ = .ok s) (h₁ : s₁.Has t v₁)
    (h₂ : s₂.Has t v₂) (he : i.binary op v₁ v₂ = .error e) : e.Tolerated := by
  unfold Typing.binary at h
  obtain ⟨⟨⟩, ho₁, h⟩ := bind_eq_ok.1 h
  obtain ⟨⟨⟩, ho₂, h⟩ := bind_eq_ok.1 h
  unfold Interpreter.binary at he
  rcases hc.number_or_sentinel ho₁ h₁.1 with rfl | ⟨u₁, rfl⟩ <;>
    rcases hc.number_or_sentinel ho₂ h₂.1 with rfl | ⟨u₂, rfl⟩
  · cases he; simp [RuntimeError.Tolerated, RuntimeError.OverSentinel, Found.ofValue]
  · cases he; simp [RuntimeError.Tolerated, RuntimeError.OverSentinel, Found.ofValue]
  · cases he; simp [RuntimeError.Tolerated, RuntimeError.OverSentinel, Found.ofValue]
  · simp only [Value.asUint, Operator.apply] at he
    cases hw : op.onWords u₁.value u₂.value with
    | some n => simp only [hw, Except.map] at he; cases he
    | none => simp only [hw, Except.map] at he; cases he; trivial

theorem field_tolerated {location : Option (RecordType × Nat)}
    (hi : i.types.recordNamed? = t.recordNamed?) (h : c.field s name = .ok (s₁, location))
    (hv : s.Has t v) (he : i.field v name = .error e) : e.Tolerated := by
  by_cases hne : v = .incomplete
  · subst hne
    cases he
    exact overSentinel_single _
  · obtain ⟨w, hw, -⟩ := hc.field_value hi h hv.1 hv.2 hne
    rw [hw] at he
    cases he

/-- Where a type that is no scalar is declared, only values of this type fit. -/
theorem admits_of_fits (hs : (c.types.get? expected).isSome)
    (hb : c.types.scalarBits? expected = none) (h : c.fits expected id = true) (ha : t.Admits id v) :
    t.Admits expected v := by
  obtain ⟨d, hd⟩ := Option.isSome_iff_exists.1 hs
  have hfit : id = expected ∨ c.types.widen id = expected := by
    unfold fits at h
    rw [hd] at h
    cases d with
    | scalar bits => rw [scalarBits?_eq_some.2 hd] at hb; cases hb
    | record r => split at h <;> simp_all
    | sum r => split at h <;> simp_all
  rcases hfit with rfl | rfl
  · exact ha
  · exact hc.admits_widen ha

/-- Where a scalar is declared, only numbers fit. -/
theorem uint_of_fits {bits : Nat} (hb : c.types.scalarBits? expected = some bits)
    (h : c.fits expected id = true) (ha : t.Admits id v) : ∃ u, v = .uint u := by
  have hid : ∃ bits, c.types.get? id = some (.scalar bits) := by
    unfold fits at h
    rw [scalarBits?_eq_some.1 hb] at h
    split at h <;> simp_all
  obtain ⟨bits', hid⟩ := hid
  obtain ⟨u, rfl, -⟩ :=
    hc.target.admits_scalar (hc.grows.scalarBits? (scalarBits?_eq_some.2 hid)) ha
  exact ⟨u, rfl⟩

/-- A constructor argument that passes the check of its field can be fitted to it, unless it is the
sentinel. -/
theorem coerce_tolerated (hi : i.types = t) {position : Position} {record : Ident} {f : Field}
    (hf : (c.types.get? f.type).isSome) (h : c.expectType position f.type s = .ok ())
    (hv : s.Has t v) (he : i.coerce record f v = .error e) : e.Tolerated := by
  subst hi
  unfold Interpreter.coerce at he
  simp only at he
  by_cases hne : v = .incomplete
  · subst hne
    split at he <;> (cases he; exact overSentinel_single _)
  obtain ⟨id, rfl, ha⟩ := hv.1.known hne
  have hfits : c.fits f.type id = true := by
    unfold expectType at h
    simp only [StaticType.known?] at h
    split at h
    · assumption
    · cases h
  cases hb : c.types.scalarBits? f.type with
  | some bits =>
    obtain ⟨u, rfl⟩ := hc.uint_of_fits hb hfits ha
    rw [hc.grows.scalarBits? hb] at he
    cases he
  | none =>
    obtain ⟨d, hd⟩ := Option.isSome_iff_exists.1 hf
    have hb' : i.types.scalarBits? f.type = none := by
      rw [Option.eq_none_iff_forall_ne_some]
      intro bits hbits
      rw [scalarBits?_eq_some, hc.grows.get? hd] at hbits
      rw [← hd, ← scalarBits?_eq_some, hb] at hbits
      cases hbits
    obtain ⟨name, vs, rid, r, rfl, hr, hid⟩ :=
      admits_not_scalar hb' (hc.admits_of_fits hf hb hfits ha)
    have hinst : i.isInstance name f.type = true := by
      unfold Interpreter.isInstance
      rw [(recordNamed?_eq_some.1 hr).1]
      simpa using hid
    simp only [hb', hinst, if_true] at he
    cases he

theorem coerceAll_tolerated (hi : i.types = t) {record name : Ident} {fs : List Field}
    {ss : List StaticType} {vs : List Value} (hf : ∀ f ∈ fs, (c.types.get? f.type).isSome)
    (h : c.checkFields record fs ss = .ok ()) (hv : AllHave t ss vs)
    (he : i.coerceAll name fs vs = .error e) : e.Tolerated := by
  induction fs generalizing ss vs with
  | nil => cases he
  | cons f fs ih =>
    cases hv with
    | nil => cases he
    | @cons s v ss vs hs hss =>
      rw [checkFields] at h
      obtain ⟨⟨⟩, hcheck, h⟩ := bind_eq_ok.1 h
      rw [Interpreter.coerceAll] at he
      cases hw : i.coerce name f v with
      | error e' =>
        rw [hw] at he
        cases he
        exact hc.coerce_tolerated hi (hf f (by simp)) hcheck hs hw
      | ok w =>
        rw [hw] at he
        cases hws : i.coerceAll name fs vs with
        | error e' =>
          rw [hws] at he
          cases he
          exact ih (fun f hm => hf f (List.mem_cons_of_mem _ hm)) h hss hws
        | ok ws =>
          rw [hws] at he
          cases he

/-- A constructor whose arguments pass the checks of its fields fails on a sentinel at most. -/
theorem construct_tolerated (hi : i.types = t) {r : RecordType} {ss : List StaticType}
    {vs : List Value} (hr : c.types.record? id = some r) (hlen : r.fields.length = ss.length)
    (h : c.checkFields r.name r.fields ss = .ok ()) (hv : AllHave t ss vs)
    (he : i.construct r vs = .error e) : e.Tolerated := by
  unfold Interpreter.construct at he
  rw [if_neg (by rw [hlen, hv.length_eq]; simp)] at he
  cases hws : i.coerceAll r.name r.fields vs with
  | error e' =>
    rw [hws] at he
    cases he
    exact hc.coerceAll_tolerated hi (hc.wellFormed.fields hr) h hv hws
  | ok ws =>
    rw [hws] at he
    cases he

/-- The condition of a loop that is a number is one that the loop can test, or the sentinel. -/
theorem holds_tolerated (hs : s = .incomplete ∨ ∃ id, s = .known id ∧ (c.types.scalarBits? id).isSome)
    (hv : s.Has t v) (he : i.holds v = .error e) : e.Tolerated := by
  by_cases hne : v = .incomplete
  · subst hne
    cases he
    exact overSentinel_single _
  · obtain ⟨id, rfl, ha⟩ := hv.1.known hne
    rcases hs with hs | ⟨id', hid, hb⟩
    · cases hs
    · cases hid
      obtain ⟨bits, hb⟩ := Option.isSome_iff_exists.1 hb
      obtain ⟨u, rfl, -⟩ := hc.target.admits_scalar (hc.grows.scalarBits? hb) ha
      cases he

end Typing.Fits

/-! ### Loops -/

/-- A loop that a walk covers: its condition is typed as a number in the scope that the loop settles
in, and every variable of this scope is there before the loop. -/
structure Walker.LoopCovered (w : Walker) (before settled : TypeEnv) (condition : Expr) : Prop where
  defined : ∀ name, (settled.get? name).isSome → (before.get? name).isSome
  condition : ∃ s f, (w.expr settled condition).run {} = .ok (s, f) ∧ f.discovered = [] ∧
    (s = .incomplete ∨ ∃ id, s = .known id ∧ (w.types.scalarBits? id).isSome)

mutual

def Walker.LoopsCovered (w : Walker) (env : TypeEnv) : List Stmt → Prop
  | [] => True
  | .assign name value :: rest =>
    ∀ f s f', (w.expr env value).run f = .ok (s, f') → w.LoopsCovered (env.insert name s) rest
  | .ret _ :: _ => True
  | .eval _ :: rest => w.LoopsCovered env rest
  | .branch subject arms :: rest =>
    (∀ f s f' plan, (w.expr env subject).run f = .ok (s, f') →
      w.matchPlan s (arms.map (·.pattern)) = .ok plan → w.ArmsCovered env s plan.reachable 0 arms) ∧
      w.LoopsCovered env rest
  | .loop condition body :: rest =>
    ∀ f settled f', (w.settleLoop (fun env => w.block env body) (Walker.loopRounds env body) env).run f =
      .ok (settled, f') → w.LoopCovered env settled condition ∧ w.LoopsCovered settled body ∧
        w.LoopsCovered settled rest

/-- The walk over the reachable arms of a match, the first of which has position `index`, covers every
loop in them. -/
def Walker.ArmsCovered (w : Walker) (env : TypeEnv) (subject : StaticType) (reachable : List Nat)
    (index : Nat) : List (Arm (List Stmt)) → Prop
  | [] => True
  | ⟨pattern, body⟩ :: rest =>
    (index ∈ reachable → w.LoopsCovered (env.bind (w.binders pattern subject)) body) ∧
      w.ArmsCovered env subject reachable (index + 1) rest

end

mutual

def Block.LoopFree : List Stmt → Prop
  | [] => True
  | .assign _ _ :: rest => Block.LoopFree rest
  | .ret _ :: rest => Block.LoopFree rest
  | .eval _ :: rest => Block.LoopFree rest
  | .loop _ _ :: _ => False
  | .branch _ arms :: rest => Block.ArmsLoopFree arms ∧ Block.LoopFree rest

def Block.ArmsLoopFree : List (Arm (List Stmt)) → Prop
  | [] => True
  | ⟨_, body⟩ :: rest => Block.LoopFree body ∧ Block.ArmsLoopFree rest

end

theorem Walker.ArmsCovered.get {w : Walker} {env : TypeEnv} {subject : StaticType}
    {reachable : List Nat} {index k : Nat} {arms : List (Arm (List Stmt))} {a : Arm (List Stmt)}
    (h : w.ArmsCovered env subject reachable index arms) (hk : index + k ∈ reachable)
    (ha : arms[k]? = some a) : w.LoopsCovered (env.bind (w.binders a.pattern subject)) a.body := by
  induction arms generalizing index k with
  | nil => cases ha
  | cons b rest ih =>
    rw [ArmsCovered] at h
    cases k with
    | zero => cases ha; exact h.1 hk
    | succ k => exact ih h.2 (by rwa [Nat.add_right_comm, Nat.add_assoc]) ha

/-- A block without loops has none that a walk could leave uncovered. -/
theorem Walker.LoopsCovered.of_loopFree {w : Walker} {stmts : List Stmt} (h : Block.LoopFree stmts)
    (env : TypeEnv) : w.LoopsCovered env stmts := by
  induction stmts using Block.ind generalizing env with
  | nil => rw [LoopsCovered]; trivial
  | assign name value rest ih =>
    rw [Block.LoopFree] at h
    rw [LoopsCovered]
    exact fun _ s _ _ => ih h _
  | ret value rest => rw [LoopsCovered]; trivial
  | eval value rest ih =>
    rw [Block.LoopFree] at h
    rw [LoopsCovered]
    exact ih h env
  | branch subject arms rest iha ih =>
    rw [Block.LoopFree] at h
    rw [LoopsCovered]
    refine ⟨fun _ s _ plan _ _ => ?_, ih h.2 env⟩
    have arms : ∀ (index : Nat) (as : List (Arm (List Stmt))), (∀ a ∈ as, a ∈ arms) →
        Block.ArmsLoopFree as → w.ArmsCovered env s plan.reachable index as := by
      intro index as
      induction as generalizing index with
      | nil => intro _ _; rw [ArmsCovered]; trivial
      | cons a as iht =>
        intro hmem hfree
        rw [Block.ArmsLoopFree] at hfree
        rw [ArmsCovered]
        exact ⟨fun _ => iha a (hmem a (by simp)) hfree.1 _,
          iht _ (fun b hb => hmem b (List.mem_cons_of_mem _ hb)) hfree.2⟩
    exact arms 0 _ (fun _ h => h) h.1
  | loop condition body rest ihb ih =>
    rw [Block.LoopFree] at h
    exact h.elim

/-! ### Calls -/

/-- Calls that answer as a walk assumes, and that fail in no way that the types rule out once their
arguments have passed the checks of the walk. -/
structure Walker.Tolerant (w : Walker) (t : TypeTable) (i : Interpreter)
    (call : Ident → List Value → Answers Value) : Prop extends w.Sound t i call where
  constructor_error : ∀ {name id r ss vs err}, w.types.recordNamed? name = some (id, r) →
    r.fields.length = ss.length → w.checkFields r.name r.fields ss = .ok () → AllHave t ss vs →
    call name vs (.error err) → err.Tolerated
  native_error : ∀ {name n vs err}, w.types.recordNamed? name = none →
    w.functions.get? name = some (.native n) → vs.length = n.params.length →
    call name vs (.error err) → err.Tolerated
  function_error : ∀ {s st vs err}, w.types.recordNamed? s.function = none →
    w.assumed.get? s = some st → ArgsHave t s.args vs → call s.function vs (.error err) →
    err.Tolerated

namespace Walker.Tolerant

variable {w : Walker} {t : TypeTable} {i : Interpreter} {call : Ident → List Value → Answers Value}
  {shown : Prop} (hw : w.Tolerant t i call) {F : Findings} (hF : F.discovered = [])
include hw hF

theorem call_error {name : Ident} {ss : List StaticType} {s : StaticType} {f f' : Findings}
    (hss : ∀ s ∈ ss, s ≠ .unknown) (h : (w.call name ss).run f = .ok (s, f')) (hf : f'.Below t F)
    {vs : List Value} {err : Error} (hvs : AllHave t ss vs) (he : call name vs (.error err)) :
    err.Tolerated := by
  unfold Walker.call at h
  obtain ⟨callee, f₁, hl, h⟩ := run_bind_eq_ok.1 h
  obtain ⟨hr, rfl⟩ := run_lift_eq_ok.1 hl
  have function : w.types.recordNamed? name = none → (w.called name ss).run f = .ok (s, f') →
      err.Tolerated := by
    intro hrec h
    obtain ⟨sig, rfl, rfl, hst⟩ := Sound.called hF hss h hf
    exact hw.function_error hrec hst hvs.args he
  unfold Typing.resolve at hr
  split at hr
  · rename_i id r hrec
    unfold Typing.expectArgs at hr
    split at hr
    · rename_i hlen
      cases hr
      obtain ⟨⟨⟩, f₂, hl, h⟩ := run_bind_eq_ok.1 h
      exact hw.constructor_error hrec hlen (run_lift_eq_ok.1 hl).1 hvs he
    · cases hr
  · rename_i hrec
    split at hr
    · cases hr
    · rename_i fn hfn
      unfold Typing.expectArgs at hr
      split at hr
      · rename_i hlen
        cases fn with
        | decorated d => cases hr; exact function hrec h
        | interpreted d => cases hr; exact function hrec h
        | native n => exact hw.native_error hrec hfn (by rw [← hvs.length_eq, ← hlen]; rfl) he
      · cases hr

/-! ### Expressions -/

/-- What a walk over an expression says of its errors. -/
def ExprTolerant (w : Walker) (t : TypeTable) (i : Interpreter)
    (call : Ident → List Value → Answers Value) (F : Findings) (shown : Prop) (e : Expr) : Prop :=
  ∀ env f s f', EnvKnown env → (w.expr env e).run f = .ok (s, f') → f'.Below t F →
    ∀ venv err, EnvHas t shown env venv → EnvDefined env venv → i.expr call venv e (.error err) →
      err.Tolerated

omit hF in
theorem exprs {es : List Expr}
    (ih : ∀ e ∈ es, ExprTolerant w t i call F shown e) {env : TypeEnv} {f f' : Findings}
    {ss : List StaticType} (henv : EnvKnown env) (h : (w.exprs env es).run f = .ok (ss, f'))
    (hf : f'.Below t F) {venv : Env} {err : Error} (hv : EnvHas t shown env venv)
    (hd : EnvDefined env venv) (he : i.exprs call venv es (.error err)) : err.Tolerated := by
  have hr := Findings.below_rising hw.fits
  induction es generalizing f ss with
  | nil =>
    rw [Interpreter.exprs] at he
    cases he
  | cons e rest ihs =>
    rw [Walker.exprs] at h
    obtain ⟨s, f₁, hs, h⟩ := run_bind_eq_ok.1 h
    obtain ⟨ss', f₂, hss, h⟩ := run_bind_eq_ok.1 h
    obtain ⟨-, rfl⟩ := run_pure_eq_ok.1 h
    have hf₁ : f₁.Below t F := hr.trans
      (Walker.exprs_increasing hr (fun x _ => Walker.expr_increasing hr x) _ _ _ hss) hf
    rw [Interpreter.exprs] at he
    rcases Answers.of_bind_error he with he | ⟨v, -, he⟩
    · exact ih e (by simp) _ _ _ _ henv hs hf₁ venv err hv hd he
    · rcases Answers.of_bind_error he with he | ⟨vs, -, he⟩
      · exact ihs (fun x hx => ih x (List.mem_cons_of_mem e hx)) hss he
      · cases he

omit hF in
/-- The walk over some arms has walked each reachable one of them. -/
theorem exprArms {arms : List (Arm Expr)} {env : TypeEnv} {subject joined s : StaticType}
    {reachable : List Nat} {index : Nat} {f f' : Findings}
    (h : (w.exprArms env subject reachable index joined arms).run f = .ok (s, f'))
    (hf : f'.Below t F) {k : Nat} {a : Arm Expr} (hk : index + k ∈ reachable)
    (ha : arms[k]? = some a) :
    ∃ f₁ s₁ f₂, (w.expr (env.bind (w.binders a.pattern subject)) a.body).run f₁ = .ok (s₁, f₂) ∧
      f₂.Below t F := by
  have hr := Findings.below_rising hw.fits
  induction arms generalizing index joined f k with
  | nil => cases ha
  | cons b rest ih =>
    rw [Walker.exprArms] at h
    split at h
    · obtain ⟨s₁, f₁, hs, h⟩ := run_bind_eq_ok.1 h
      obtain ⟨joined', f₂, hl, hrest⟩ := run_bind_eq_ok.1 h
      obtain ⟨-, rfl⟩ := run_lift_eq_ok.1 hl
      cases k with
      | zero =>
        cases ha
        exact ⟨f, s₁, f₁, hs, hr.trans (Walker.exprArms_increasing hr
          (fun x _ => Walker.expr_increasing hr x.body) _ _ _ hrest) hf⟩
      | succ k => exact ih hrest (by rwa [Nat.add_right_comm, Nat.add_assoc]) ha
    · rename_i hnot
      cases k with
      | zero => exact absurd hk hnot
      | succ k => exact ih h (by rwa [Nat.add_right_comm, Nat.add_assoc]) ha

/-- No error of an expression is one that a walk over it rules out. -/
theorem expr (e : Expr) (htidy : e.Tidy shown) : ExprTolerant w t i call F shown e := by
  have hc := hw.fits
  have hr := Findings.below_rising hc
  induction e using Expr.ind generalizing shown with
  | lit n =>
    intro env f s f' henv h hf venv err hv hd he
    rw [Interpreter.expr] at he
    cases he
  | var name =>
    intro env f s f' henv h hf venv err hv hd he
    rw [Walker.expr] at h
    split at h
    · rename_i s' hs
      obtain ⟨v, hv'⟩ := Option.isSome_iff_exists.1 (hd name (by rw [hs]; rfl))
      rw [Interpreter.expr, hv'] at he
      cases he
    · exact absurd h run_throw_ne_ok
  | binary op lhs rhs ihl ihr =>
    intro env f s f' henv h hf venv err hv hd he
    rw [Expr.Tidy] at htidy
    rw [Walker.expr] at h
    obtain ⟨a, f₁, ha, h⟩ := run_bind_eq_ok.1 h
    obtain ⟨b, f₂, hb, h⟩ := run_bind_eq_ok.1 h
    obtain ⟨hs, rfl⟩ := run_lift_eq_ok.1 h
    have hf₁ := hr.trans (Walker.expr_increasing hr rhs env _ _ _ hb) hf
    rw [Interpreter.expr] at he
    rcases Answers.of_bind_error he with he | ⟨va, hva, he⟩
    · exact ihl htidy.1 _ _ _ _ henv ha hf₁ venv err hv hd he
    rcases Answers.of_bind_error he with he | ⟨vb, hvb, he⟩
    · exact ihr htidy.2 _ _ _ _ henv hb hf venv err hv hd he
    have h₁ := (hw.toSound.expr hF lhs htidy.1 _ _ _ _ henv ha hf₁).2 venv va hv hva
    have h₂ := (hw.toSound.expr hF rhs htidy.2 _ _ _ _ henv hb hf).2 venv vb hv hvb
    exact Error.tolerated_of_step (fun r => hc.binary_tolerated hs h₁ h₂) he
  | call name args ih =>
    intro env f s f' henv h hf venv err hv hd he
    rw [Expr.Tidy] at htidy
    rw [Walker.expr] at h
    obtain ⟨ss, f₁, hss, h⟩ := run_bind_eq_ok.1 h
    have hf₁ := hr.trans (Walker.call_increasing hr name ss _ _ _ h) hf
    rw [Interpreter.expr] at he
    rcases Answers.of_bind_error he with he | ⟨vs, hvs, he⟩
    · exact hw.exprs (fun e hm => ih e hm (Expr.allTidy_iff.1 htidy e hm)) henv hss hf₁ hv hd he
    · obtain ⟨hk, hh⟩ := Sound.exprs hc
        (fun e hm => hw.toSound.expr hF e (Expr.allTidy_iff.1 htidy e hm)) henv hss hf₁
      exact hw.call_error hF hk h hf (hh venv vs hv hvs) he
  | field subject name ih =>
    intro env f s f' henv h hf venv err hv hd he
    rw [Expr.Tidy] at htidy
    rw [Walker.expr] at h
    obtain ⟨s₁, f₁, hs₁, h⟩ := run_bind_eq_ok.1 h
    obtain ⟨⟨s₂, location⟩, f₂, hl, h⟩ := run_bind_eq_ok.1 h
    obtain ⟨hfield, rfl⟩ := run_lift_eq_ok.1 hl
    obtain ⟨rfl, rfl⟩ := run_pure_eq_ok.1 h
    rw [Interpreter.expr] at he
    rcases Answers.of_bind_error he with he | ⟨v, hv₁, he⟩
    · exact ih htidy _ _ _ _ henv hs₁ hf venv err hv hd he
    · have hh := (hw.toSound.expr hF subject htidy _ _ _ _ henv hs₁ hf).2 venv v hv hv₁
      exact Error.tolerated_of_step (fun r => hc.field_tolerated hw.records hfield hh) he
  | branch subject arms ihs iha =>
    intro env f s f' henv h hf venv err hv hd he
    rw [Expr.Tidy] at htidy
    rw [Walker.expr] at h
    obtain ⟨s₁, f₁, hs₁, h⟩ := run_bind_eq_ok.1 h
    obtain ⟨plan, f₂, hl, h⟩ := run_bind_eq_ok.1 h
    obtain ⟨hplan, rfl⟩ := run_lift_eq_ok.1 hl
    obtain ⟨joined, f₃, harms, h⟩ := run_bind_eq_ok.1 h
    obtain rfl : f₃ = f' := by
      split at h
      · exact (run_pure_eq_ok.1 h).2
      · exact (run_lift_eq_ok.1 h).2
    have hf₁ := hr.trans
      (Walker.exprArms_increasing hr (fun x _ => Walker.expr_increasing hr x.body) _ _ _ harms) hf
    rw [Interpreter.expr] at he
    rcases Answers.of_bind_error he with he | ⟨v, hv₁, he⟩
    · exact ihs htidy.1 _ _ _ _ henv hs₁ hf₁ venv err hv hd he
    obtain ⟨hk, hh⟩ := hw.toSound.expr hF subject htidy.1 _ _ _ _ henv hs₁ hf₁
    obtain ⟨res, hres, hsel⟩ := hw.toSound.select hplan (hh venv v hv hv₁)
    rw [hres, Answers.step_ok, Answers.pure_bind] at he
    cases res with
    | none => cases he
    | some q =>
      obtain ⟨a, ha, hkr, hbound⟩ := hsel q.1 q.2 rfl
      simp only [Interpreter.exprArm_eq _ ha] at he
      obtain ⟨f₄, s₄, f₅, hbody, hf₅⟩ := hw.exprArms harms hf (by rwa [Nat.zero_add]) ha
      have hmem := List.mem_of_getElem? ha
      exact iha a hmem (Expr.armsTidy_iff.1 htidy.2 a hmem) _ _ _ _
        (henv.bind (binders_known hk)) hbody hf₅ _ err (hv.bound hbound) (hd.bound hbound) he
  | incomplete =>
    intro env f s f' henv h hf venv err hv hd he
    rw [Interpreter.expr] at he
    cases he

/-! ### Blocks -/

omit hw hF in
/-- A loop whose rounds keep a scope and fail tolerably fails tolerably. -/
theorem repeatWhile {condition : Env → Answers Value} {body : Env → Answers Flow} {P : Env → Prop}
    (hcond : ∀ venv err, P venv → condition venv (.error err) → err.Tolerated)
    (hholds : ∀ venv v r, P venv → condition venv (.ok v) → i.holds v = .error r → r.Tolerated)
    (hbody : ∀ venv err, P venv → body venv (.error err) → err.Tolerated)
    (hkeep : ∀ venv venv', P venv → body venv (.ok (.next venv')) → P venv') :
    ∀ {fuel venv err}, P venv → i.repeatWhile condition body fuel venv (.error err) →
      err.Tolerated := by
  intro fuel
  induction fuel with
  | zero =>
    intro venv err _ h
    rw [Interpreter.repeatWhile] at h
    exact h.elim
  | succ fuel ih =>
    intro venv err hP h
    rw [Interpreter.repeatWhile] at h
    rcases Answers.of_bind_error h with h | ⟨v, hv, h⟩
    · exact hcond venv err hP h
    rcases Answers.of_bind_error h with h | ⟨go, -, h⟩
    · exact Error.tolerated_of_step (fun r => hholds venv v r hP hv) h
    cases go with
    | false => cases h
    | true =>
      rcases Answers.of_bind_error h with h | ⟨flow, hflow, h⟩
      · exact hbody venv err hP h
      · cases flow with
        | returned v => cases h
        | next venv' => exact ih (hkeep venv venv' hP hflow) h

/-- What a walk over a block says of its errors and of the variables that are defined behind it. -/
def BlockTolerant (w : Walker) (t : TypeTable) (i : Interpreter)
    (call : Ident → List Value → Answers Value) (F : Findings) (shown : Prop) (stmts : List Stmt) :
    Prop :=
  ∀ env f env' f', EnvKnown env → (w.block env stmts).run f = .ok (env', f') → f'.Below t F →
    w.LoopsCovered env stmts → ∀ fuel venv, EnvHas t shown env venv → EnvDefined env venv →
      (∀ err, i.block call fuel venv stmts (.error err) → err.Tolerated) ∧
        ∀ venv', i.block call fuel venv stmts (.ok (.next venv')) →
          EnvDefined env' venv' ∧ EnvDefined env venv'

omit hF in
/-- The walk over some arms has walked each reachable one of them. -/
theorem blockArms {arms : List (Arm (List Stmt))} {env : TypeEnv} {subject : StaticType}
    {reachable : List Nat} {index : Nat} {f f' : Findings}
    (h : (w.blockArms env subject reachable index arms).run f = .ok ((), f')) (hf : f'.Below t F)
    {k : Nat} {a : Arm (List Stmt)} (hk : index + k ∈ reachable) (ha : arms[k]? = some a) :
    ∃ f₁ env' f₂, (w.block (env.bind (w.binders a.pattern subject)) a.body).run f₁ =
      .ok (env', f₂) ∧ f₂.Below t F := by
  have hr := Findings.below_rising hw.fits
  induction arms generalizing index f k with
  | nil => cases ha
  | cons b rest ih =>
    rw [Walker.blockArms] at h
    obtain ⟨env', f₁, hb, hrest⟩ := run_bind_eq_ok.1 h
    cases k with
    | zero =>
      cases ha
      rw [if_pos (show index ∈ reachable from hk)] at hb
      exact ⟨f, env', f₁, hb, hr.trans (Walker.blockArms_increasing hr
        (fun x _ => Walker.block_increasing hr x.body) _ _ _ hrest) hf⟩
    | succ k => exact ih hrest (by rwa [Nat.add_right_comm, Nat.add_assoc]) ha

omit hw hF in
theorem block_nil : BlockTolerant w t i call F shown [] := by
  intro env f env' f' henv h hf _ fuel venv hv hd
  rw [Walker.block] at h
  obtain ⟨rfl, rfl⟩ := run_pure_eq_ok.1 h
  rw [Interpreter.block]
  refine ⟨fun err he => ?_, fun venv' he => ?_⟩
  · cases he
  · cases he
    exact ⟨hd, hd⟩

theorem block_assign {name : Ident} {value : Expr} {rest : List Stmt} (htidy : value.Tidy shown)
    (ih : BlockTolerant w t i call F (shown ∨ name = placeholder) rest) :
    BlockTolerant w t i call F shown (.assign name value :: rest) := by
  have hr := Findings.below_rising hw.fits
  intro env f env' f' henv h hf hloops fuel venv hv hd
  rw [Walker.LoopsCovered] at hloops
  rw [Walker.block] at h
  obtain ⟨s, f₁, hs, h⟩ := run_bind_eq_ok.1 h
  have hf₁ := hr.trans (Walker.block_increasing hr rest _ _ _ _ h) hf
  obtain ⟨hk, hh⟩ := hw.toSound.expr hF value htidy _ _ _ _ henv hs hf₁
  have hrest := fun v hv₁ => ih _ _ _ _ (henv.insert hk) h hf (hloops _ _ _ hs) fuel _
    (hv.insert (hh venv v hv hv₁)) (hd.insert (v := v))
  rw [Interpreter.block]
  refine ⟨fun err he => ?_, fun venv' he => ?_⟩
  · rcases Answers.of_bind_error he with he | ⟨v, hv₁, he⟩
    · exact hw.expr hF value htidy _ _ _ _ henv hs hf₁ venv err hv hd he
    · exact (hrest v hv₁).1 err he
  · obtain ⟨v, hv₁, he⟩ := Answers.of_bind_ok he
    obtain ⟨hd', hd₁⟩ := (hrest v hv₁).2 venv' he
    exact ⟨hd', hd₁.of_insert⟩

theorem block_ret {value : Expr} (rest : List Stmt) (htidy : value.Tidy shown) :
    BlockTolerant w t i call F shown (.ret value :: rest) := by
  have hr := Findings.below_rising hw.fits
  intro env f env' f' henv h hf _ fuel venv hv hd
  rw [Walker.block] at h
  obtain ⟨s, f₁, hs, h⟩ := run_bind_eq_ok.1 h
  obtain ⟨f₂, f₃, hget, h⟩ := run_bind_eq_ok.1 h
  cases hget
  obtain ⟨joined, f₄, hl, h⟩ := run_bind_eq_ok.1 h
  obtain ⟨hj, rfl⟩ := run_lift_eq_ok.1 hl
  cases h
  have hf₁ : f₁.Below t F := hr.trans (hr.join f₁ hj) hf
  rw [Interpreter.block]
  refine ⟨fun err he => ?_, fun venv' he => ?_⟩
  · rcases Answers.of_bind_error he with he | ⟨v, -, he⟩
    · exact hw.expr hF value htidy _ _ _ _ henv hs hf₁ venv err hv hd he
    · cases he
  · obtain ⟨v, -, he⟩ := Answers.of_bind_ok he
    cases he

theorem block_eval {value : Expr} {rest : List Stmt} (htidy : value.Tidy shown)
    (ih : BlockTolerant w t i call F shown rest) :
    BlockTolerant w t i call F shown (.eval value :: rest) := by
  have hr := Findings.below_rising hw.fits
  intro env f env' f' henv h hf hloops fuel venv hv hd
  rw [Walker.LoopsCovered] at hloops
  rw [Walker.block] at h
  obtain ⟨s, f₁, hs, h⟩ := run_bind_eq_ok.1 h
  have hf₁ := hr.trans (Walker.block_increasing hr rest _ _ _ _ h) hf
  have hrest := ih _ _ _ _ henv h hf hloops fuel venv hv hd
  rw [Interpreter.block]
  refine ⟨fun err he => ?_, fun venv' he => ?_⟩
  · rcases Answers.of_bind_error he with he | ⟨v, -, he⟩
    · exact hw.expr hF value htidy _ _ _ _ henv hs hf₁ venv err hv hd he
    · exact hrest.1 err he
  · obtain ⟨v, -, he⟩ := Answers.of_bind_ok he
    exact hrest.2 venv' he

theorem block_branch {subject : Expr} {arms : List (Arm (List Stmt))} {rest : List Stmt}
    (htidy : subject.Tidy shown)
    (iha : ∀ a ∈ arms, BlockTolerant w t i call F (a.pattern.Shows shown) a.body)
    (ih : BlockTolerant w t i call F shown rest) :
    BlockTolerant w t i call F shown (.branch subject arms :: rest) := by
  have hr := Findings.below_rising hw.fits
  intro env f env' f' henv h hf hloops fuel venv hv hd
  rw [Walker.LoopsCovered] at hloops
  rw [Walker.block] at h
  obtain ⟨s, f₁, hs, h⟩ := run_bind_eq_ok.1 h
  obtain ⟨plan, f₂, hl, h⟩ := run_bind_eq_ok.1 h
  obtain ⟨hplan, rfl⟩ := run_lift_eq_ok.1 hl
  obtain ⟨⟨⟩, f₃, harms, h⟩ := run_bind_eq_ok.1 h
  have hf₃ := hr.trans (Walker.block_increasing hr rest _ _ _ _ h) hf
  have hf₁ := hr.trans (Walker.blockArms_increasing hr
    (fun x _ => Walker.block_increasing hr x.body) _ _ _ harms) hf₃
  obtain ⟨hk, hh⟩ := hw.toSound.expr hF subject htidy _ _ _ _ henv hs hf₁
  have hrest := ih _ _ _ _ henv h hf hloops.2 fuel venv hv hd
  have hcovered := hloops.1 _ _ _ plan hs hplan
  rw [Interpreter.block]
  refine ⟨fun err he => ?_, fun venv' he => ?_⟩
  · rcases Answers.of_bind_error he with he | ⟨v, hv₁, he⟩
    · exact hw.expr hF subject htidy _ _ _ _ henv hs hf₁ venv err hv hd he
    obtain ⟨res, hres, hsel⟩ := hw.toSound.select hplan (hh venv v hv hv₁)
    rw [hres, Answers.step_ok, Answers.pure_bind] at he
    rcases Answers.of_bind_error he with he | ⟨flow, -, he⟩
    · cases res with
      | none => cases he
      | some q =>
        obtain ⟨a, ha, hkr, hbound⟩ := hsel q.1 q.2 rfl
        have hkr : 0 + q.1 ∈ plan.reachable := by rwa [Nat.zero_add]
        simp only [Option.elim_some, Interpreter.blockArm_eq _ _ ha] at he
        obtain ⟨f₄, env₁, f₅, hbody, hf₅⟩ := hw.blockArms harms hf₃ hkr ha
        have hmem := List.mem_of_getElem? ha
        exact (iha a hmem _ _ _ _
          (henv.bind (binders_known hk)) hbody hf₅ (hcovered.get hkr ha) fuel _ (hv.bound hbound)
          (hd.bound hbound)).1 err he
    · cases flow with
      | returned v => cases he
      | next _ => exact hrest.1 err he
  · obtain ⟨v, -, he⟩ := Answers.of_bind_ok he
    obtain ⟨picked, -, he⟩ := Answers.of_bind_ok he
    obtain ⟨flow, -, he⟩ := Answers.of_bind_ok he
    cases flow with
    | returned v => cases he
    | next _ => exact hrest.2 venv' he

/-- Every round of a covered loop starts in the scope on which its walk settles, with its variables defined. -/
theorem block_loop {condition : Expr} {body : Block} {rest : List Stmt} (htc : condition.Tidy shown)
    (htb : Block.Tidy shown body) (ihb : BlockTolerant w t i call F shown body)
    (ih : BlockTolerant w t i call F shown rest) :
    BlockTolerant w t i call F shown (.loop condition body :: rest) := by
  have hc := hw.fits
  have hr := Findings.below_rising hc
  intro env f env' f' henv h hf hloops fuel venv hv hd
  rw [Walker.LoopsCovered] at hloops
  obtain ⟨s, f₁, env₁, f₂, hs, hsettle, h⟩ := Walker.run_block_loop h
  have hf₂ := hr.trans (Walker.block_increasing hr rest _ _ _ _ h) hf
  obtain ⟨hcov, hlb, hlr⟩ := hloops _ _ _ hsettle
  obtain ⟨sc, fc, hcond, hfound, hnumber⟩ := hcov.condition
  obtain ⟨hwide, hk₁, ⟨f₃, after, hround⟩, hhb⟩ :=
    hw.toSound.loopBody_block (hw.toSound.block hF body htb) henv hsettle hf₂
  obtain ⟨-, hhc⟩ := hw.toSound.expr hfound condition htc _ _ _ _ hk₁ hcond (hr.refl fc)
  have hbody := ihb _ _ _ _ hk₁ hround hf₂ hlb fuel
  have hrest := ih _ _ _ _ hk₁ h hf hlr fuel
  -- what a round finds, the next one finds again
  have hkeep : ∀ venv venv', EnvHas t shown env₁ venv ∧ EnvDefined env₁ venv →
      i.block call fuel venv body (.ok (.next venv')) → EnvHas t shown env₁ venv' ∧ EnvDefined env₁ venv' :=
    fun venv venv' hP he => ⟨hhb fuel venv _ hP.1 he, ((hbody venv hP.1 hP.2).2 venv' he).2⟩
  have hP : EnvHas t shown env₁ venv ∧ EnvDefined env₁ venv := ⟨hv.wider hwide, hd.mono hcov.defined⟩
  rw [Interpreter.block]
  refine ⟨fun err he => ?_, fun venv' he => ?_⟩
  · rcases Answers.of_bind_error he with he | ⟨flow, hflow, he⟩
    · refine repeatWhile (P := fun venv => EnvHas t shown env₁ venv ∧ EnvDefined env₁ venv)
        ?_ ?_ ?_ hkeep hP he
      · exact fun venv err hP he =>
          hw.expr hfound condition htc _ _ _ _ hk₁ hcond (hr.refl fc) venv err hP.1 hP.2 he
      · exact fun venv v r hP hv he => hc.holds_tolerated hnumber (hhc venv v hP.1 hv) he
      · exact fun venv err hP he => (hbody venv hP.1 hP.2).1 err he
    · cases flow with
      | returned v => cases he
      | next venv₁ =>
        have hP₁ := Sound.repeatWhile_next hkeep hP hflow
        exact (hrest venv₁ hP₁.1 hP₁.2).1 err he
  · obtain ⟨flow, hflow, he⟩ := Answers.of_bind_ok he
    cases flow with
    | returned v => cases he
    | next venv₁ =>
      have hP₁ := Sound.repeatWhile_next hkeep hP hflow
      obtain ⟨hd', hd₁⟩ := (hrest venv₁ hP₁.1 hP₁.2).2 venv' he
      exact ⟨hd', hd₁.mono hwide.isSome⟩

/-- No error of a block is one that a walk over it rules out, if its loops are covered. -/
theorem block (stmts : List Stmt) (htidy : Block.Tidy shown stmts) :
    BlockTolerant w t i call F shown stmts := by
  induction stmts using Block.ind generalizing shown with
  | nil => exact block_nil
  | assign name value rest ih =>
    rw [Block.Tidy] at htidy
    exact hw.block_assign hF htidy.1 (ih htidy.2)
  | ret value rest =>
    rw [Block.Tidy] at htidy
    exact hw.block_ret hF rest htidy
  | eval value rest ih =>
    rw [Block.Tidy] at htidy
    exact hw.block_eval hF htidy.1 (ih htidy.2)
  | branch subject arms rest iha ih =>
    rw [Block.Tidy, Block.armsTidy_iff] at htidy
    exact hw.block_branch hF htidy.1 (fun a ha => iha a ha (htidy.2.1 a ha)) (ih htidy.2.2)
  | loop condition body rest ihb ih =>
    rw [Block.Tidy] at htidy
    exact hw.block_loop hF htidy.1 htidy.2.1 (ihb htidy.2.1) (ih htidy.2.2)

omit hw hF in
theorem envDefined_params {params : List Ident} {ids : List TypeId} {vs : List Value}
    (h : ArgsHave t ids vs) :
    EnvDefined (Assoc.ofList (params.zip (ids.map .known))) (Assoc.ofList (params.zip vs)) := by
  have insertAll : ∀ {env : TypeEnv} {venv : Env}, EnvDefined env venv →
      EnvDefined (env.insertAll (params.zip (ids.map .known))) (venv.insertAll (params.zip vs)) := by
    unfold Assoc.insertAll
    induction h generalizing params with
    | nil => intro env venv hd; simpa using hd
    | cons _ _ ih =>
      intro env venv hd
      cases params with
      | nil => exact hd
      | cons n params => exact ih hd.insert
  exact insertAll fun _ hn => by cases hn

omit hF in
/-- No error of a body is one that a walk over it rules out, if its loops are covered. -/
theorem body {d : FunctionDef} (htidy : Block.Tidy True d.body) {ids : List TypeId} {s : StaticType}
    {f : Findings} (h : (w.returnType d ids).run {} = .ok (s, f)) (hf : f.discovered = [])
    (hloops : w.LoopsCovered (Walker.params d ids) d.body) {fuel : Nat} {vs : List Value}
    {err : Error} (hvs : ArgsHave t ids vs) (he : i.body call fuel d vs (.error err)) :
    err.Tolerated := by
  obtain ⟨-, env, hb, -⟩ := Walker.returnType_ok h
  have hblock := hw.block hf d.body htidy _ _ _ _ Sound.envKnown_params hb
    ((Findings.below_rising hw.fits).refl f) hloops fuel _ (Sound.envHas_params hvs)
    (envDefined_params hvs)
  unfold Interpreter.body at he
  rcases Answers.of_bind_error he with he | ⟨flow, -, he⟩
  · exact hblock.1 err he
  · cases flow with
    | returned v => cases he
    | next venv => cases he

end Walker.Tolerant

end ShapeCompiler
