import ShapeCompiler.Proofs.Simulation.Calls
import ShapeCompiler.Proofs.Simulation.Matches

/-!
Expressions in compiled code.

Main statement: the code of an expression leaves the form of the value in its register that the
interpreter computes, or fails as the interpreter does (`Comparison.Lowered.expr_drives`). The
induction is on the expression; calls go on for fewer instructions.
-/

namespace ShapeCompiler

open TypeTable LoweredArm

namespace Comparison

variable {C : Comparison} {depth : Option Nat} {e : Engine} {l : Lowerer} {a : Artifact}
  {pool p p' : Pool} {m : Machine} {start n N : Nat} {env : RegEnv} {venv : Env}
  {host : HostSite → List Compiled → Run Compiled} {ans : Answers Value} {shown : Prop}

/-- For a number of instructions, the code of an expression does what the interpreter does, and then
goes on with a value in its register. -/
def ExprDrives (C : Comparison) (host : HostSite → List Compiled → Run Compiled) (l : Lowerer)
    (a : Artifact) (pool : Pool) (N : Nat) (shown : Prop) (ex : Expr) : Prop :=
  ∀ {n depth e m start env venv p r p'} {ans : Answers Value}, n ≤ N →
    (l.expr start env ex).run p = .ok (r, p') → p'.Le pool → Placed a.code start r.code →
    C.At shown depth l a e m start p.registers env venv → ¬ C.Limited ans →
    (∀ err, C.world.interpreter.expr (C.world.calls depth) venv ex (.error err) → ans (.error err)) →
    (∀ j ≤ n, ∀ e' m' v, C.world.interpreter.expr (C.world.calls depth) venv ex (.ok v) →
      Reaches p.registers e m (start + r.code.length) e' m' →
      m'.Stores C.world.types p'.registers (r.reg, r.type) v → C.Drives host ans j e' m') →
    C.Drives host ans n e m

def AllStores (t : TypeTable) (m : Machine) (k : Nat) (args : List (Reg × StaticType))
    (vs : List Value) : Prop :=
  List.Forall₂ (m.Stores t k) args vs

theorem AllStores.reads {t : TypeTable} {k : Nat} {args : List (Reg × StaticType)} {vs : List Value}
    (h : AllStores t m k args vs) :
    ∃ cs, List.Forall₂ m.Reads (args.map Prod.fst) cs ∧ Forms t vs cs := by
  induction h with
  | nil => exact ⟨[], .nil, .nil⟩
  | cons h _ ih =>
    obtain ⟨cs, hreads, hforms⟩ := ih
    obtain ⟨-, c, hr, hf⟩ := h
    exact ⟨c :: cs, .cons hr hreads, .cons hf hforms⟩

theorem exprs_drives {es : List Expr} (ih : ∀ ex ∈ es, C.ExprDrives host l a pool N shown ex)
    (hn : n ≤ N)
    {as : LoweredArgs} (hr : (l.exprs start env es).run p = .ok (as, p')) (hle : p'.Le pool)
    (hplaced : Placed a.code start as.code) (hat : C.At shown depth l a e m start p.registers env venv)
    (hlim : ¬ C.Limited ans)
    (herr : ∀ err, C.world.interpreter.exprs (C.world.calls depth) venv es (.error err) →
      ans (.error err))
    (hval : ∀ j ≤ n, ∀ e' m' vs, C.world.interpreter.exprs (C.world.calls depth) venv es (.ok vs) →
      Reaches p.registers e m (start + as.code.length) e' m' →
      AllStores C.world.types m' p'.registers as.args vs → C.Drives host ans j e' m') :
    C.Drives host ans n e m := by
  induction es generalizing n start p as e m with
  | nil =>
    rw [Lowerer.exprs] at hr
    obtain ⟨rfl, rfl⟩ := run_pure_eq_ok.1 hr
    rw [Interpreter.exprs] at hval
    refine hval n (Nat.le_refl n) e m [] rfl ?_ .nil
    rw [← hat.pc]
    exact .refl _ e m
  | cons ex rest ihs =>
    rw [Lowerer.exprs] at hr
    obtain ⟨b, p₁, hb, hr⟩ := run_bind_eq_ok.1 hr
    obtain ⟨bs, p₂, hbs, hr⟩ := run_bind_eq_ok.1 hr
    obtain ⟨rfl, rfl⟩ := run_pure_eq_ok.1 hr
    rw [Interpreter.exprs] at herr hval
    obtain ⟨hfirst, hrest⟩ := placed_append.1 hplaced
    have hle₁ := Lowerer.exprs_increasing _ _ _ _ _ _ hbs
    have hle₀ := Lowerer.expr_increasing ex _ _ _ _ _ hb
    refine ih ex (by simp) hn hb (Pool.le_ordered.trans hle₁ hle) hfirst hat hlim
      (fun err h => herr err (Answers.bind_error h)) ?_
    intro j hj e₁ m₁ v hv hreach hstores
    refine ihs (fun x hx => ih x (List.mem_cons_of_mem _ hx)) (Nat.le_trans hj hn) hbs hrest
      (hat.reaches hreach hle₀.registers)
      (fun err h => herr err (Answers.bind_ok hv (Answers.bind_error h))) ?_
    intro k hk e₂ m₂ vs hvs hreach' hstores'
    refine hval k (Nat.le_trans hk hj) e₂ m₂ (v :: vs) (Answers.bind_ok hv (Answers.bind_ok hvs rfl)) ?_
      (.cons (hstores.continues hreach'.continues hle₁.registers) hstores')
    rw [List.length_append, ← Nat.add_assoc]
    exact hreach.trans hreach' hle₀.registers

theorem Lowered.form_lit (h : C.At shown depth l a e m start n env venv) (lit : UInt64) :
    e.types.Form (.uint (Uint.wrap C.world.defaultBits lit)) (.scalar (lit &&& mask l.defaultBits)) := by
  have hfits := h.serves.fits
  have hbits : C.world.defaultBits = l.defaultBits := by rw [← h.runs.hosts.bits, h.serves.bits]
  obtain ⟨hw₁, hw₂⟩ := hfits.wellFormed.width (scalarBits?_eq_some.1 hfits.defaultScalar)
  rw [hbits, ← Uint.value_wrap hw₁ hw₂]
  exact .inr (.scalar _)

/-- The body of an arm moves its value to the register of the match and jumps behind the match. -/
theorem armExpr_drives {x : Expr} {dst : Reg} {target : Nat} {m' : Machine} {venv' : Env}
    {s : StaticType} (hp : C.world.Proper) (hx : C.ExprDrives host l a pool N shown x) (hn : n ≤ N)
    (hin : C.InArm shown depth l a p p' e m venv' (l.armExpr dst x) target m') (hle : p'.Le pool)
    (hdst : dst < p.registers) (hsize : p.registers ≤ a.registers) (hlim : ¬ C.Limited ans)
    (herr : ∀ err, C.world.interpreter.expr (C.world.calls depth) venv' x (.error err) →
      ans (.error err))
    (hval : ∀ j ≤ n, ∀ e' m'' v, C.world.interpreter.expr (C.world.calls depth) venv' x (.ok v) →
      Reaches dst e m target e' m'' → m''.Stores C.world.types (dst + 1) (dst, s) v →
        C.Drives host ans j e' m'') : C.Drives host ans n e m' := by
  obtain ⟨start, scope, code, returns, p₁, p₂, hp₁, hrun, hp₂, hplaced, hreach, hat⟩ := hin
  unfold Lowerer.armExpr at hrun
  obtain ⟨b, p₃, hb, hrun⟩ := run_bind_eq_ok.1 hrun
  obtain ⟨hcode, rfl⟩ := run_pure_eq_ok.1 hrun
  cases hcode
  rw [List.append_assoc] at hplaced
  obtain ⟨hfirst, hrest⟩ := placed_append.1 hplaced
  obtain ⟨hmove, hjump⟩ := (@placed_append _ _ [_] _).1 hrest
  have hle₁ := Lowerer.expr_increasing x _ _ _ _ _ hb
  refine hx hn hb (Pool.le_ordered.trans hp₂ hle) hfirst hat hlim herr ?_
  intro j hj e₁ m₁ v hv hreach₁ hstores
  have hat₁ := hat.reaches hreach₁ hle₁.registers
  obtain ⟨-, c, hread, hf⟩ := hstores
  have hto : Reaches dst e m (start + b.code.length) e₁ m₁ :=
    ⟨hreach.grown.trans hreach₁.grown, (hreach.continues.trans hreach₁.continues hp₁.registers).mono
      (Nat.le_of_lt hdst), hreach₁.pc⟩
  have hat₁' : C.At shown depth l a e₁ m₁ (start + b.code.length) dst .empty .empty :=
    { hat₁ with
      types := fun name hn v hv => by cases hv
      known := fun p hp => by cases hp
      scope := fun name hn => .none }
  refine hat₁'.step_drives hp (placed_singleton.1 hmove)
    (.ok ((hat₁.runs.form_iff hp).2 hf)) ?_ (Nat.lt_of_lt_of_le hdst hsize) (Nat.le_refl _) s
    (fun f h => by cases h) ?_
  · simp only [Machine.exec]
    rw [Machine.run_read hread, Engine.run_ofRuntime_ok]
  · intro k hk m₂ w hw hreach₂ hstores₂
    cases hw
    have hat₂ := hat₁'.reaches hreach₂ (Nat.le_refl _)
    refine drives_next (hat₂.op (placed_singleton.1 hjump)) rfl ?_
    intro i hi
    have hgoto : m₂.Continues dst (m₂.goto target) := (Machine.Continues.refl dst m₂).goto target
    refine hval i (by omega) e₁ _ v hv ((hto.trans hreach₂ (Nat.le_refl _)).trans
      ⟨.refl e₁, hgoto, rfl⟩ (Nat.le_refl _)) ?_
    exact hstores₂.continues ((Machine.Continues.refl _ m₂).goto target) (Nat.le_refl _)

namespace Lowered

variable (hl : C.Lowered l a pool) (hp : C.world.Proper)

theorem registers_le {q : Pool} (hl : C.Lowered l a pool) (h : q.Le pool) : q.registers ≤ a.registers := by
  rw [hl.compiled.registers]
  exact h.registers

include hl hp

theorem expr_drives_lit (lit : UInt64) : C.ExprDrives host l a pool N shown (.lit lit) := by
  intro n depth e m start env venv p r p' ans hn hr hle hplaced hat hlim herr hval
  rw [Lowerer.expr] at hr
  obtain ⟨dst, p₁, hd, hr⟩ := run_bind_eq_ok.1 hr
  obtain ⟨rfl, rfl⟩ := Pool.run_fresh hd
  obtain ⟨rfl, rfl⟩ := run_pure_eq_ok.1 hr
  rw [Interpreter.expr] at herr hval
  refine hat.step_drives hp (placed_singleton.1 hplaced) (.ok (form_lit hat lit)) ?_
    (hl.registers_le hle) (Nat.le_refl _) (.known l.defaultScalar) (fun f h => by cases h) ?_
  · rw [Engine.run_ofRuntime_ok]
    rfl
  · intro j hj m' v hv hreach hstores
    cases hv
    exact hval j hj e m' _ rfl hreach hstores

omit hl hp in
theorem expr_drives_var {name : Ident} (hname : name = placeholder → shown) :
    C.ExprDrives host l a pool N shown (.var name) := by
  intro n depth e m start env venv p r p' ans hn hr hle hplaced hat hlim herr hval
  rw [Lowerer.expr] at hr
  rw [Interpreter.expr] at herr hval
  split at hr
  · rename_i reg t hreg
    obtain ⟨rfl, rfl⟩ := run_pure_eq_ok.1 hr
    have hscope := hat.scope name hname
    rw [hreg] at hscope
    cases hv : venv.get? name with
    | none => rw [hv] at hscope; cases hscope
    | some v =>
      rw [hv] at hscope hval
      cases hscope with
      | some hstores =>
        refine hval n (Nat.le_refl n) e m v rfl ?_ hstores
        rw [← hat.pc]
        exact .refl _ e m
  · exact absurd hr run_throw_ne_ok

/-- The operands are in two registers before the operator is applied to them, and what is below the second
one has not changed since. -/
theorem expr_drives_binary {op : Operator} {lhs rhs : Expr} (htl : lhs.Tidy shown) (htr : rhs.Tidy shown)
    (ihl : C.ExprDrives host l a pool N shown lhs) (ihr : C.ExprDrives host l a pool N shown rhs) :
    C.ExprDrives host l a pool N shown (.binary op lhs rhs) := by
  intro n depth e m start env venv p r p' ans hn hr hle hplaced hat hlim herr hval
  rw [Lowerer.expr] at hr
  obtain ⟨x, p₁, hx, hr⟩ := run_bind_eq_ok.1 hr
  obtain ⟨y, p₂, hy, hr⟩ := run_bind_eq_ok.1 hr
  obtain ⟨t, p₃, hlift, hr⟩ := run_bind_eq_ok.1 hr
  obtain ⟨ht, rfl⟩ := run_lift_eq_ok.1 hlift
  obtain ⟨dst, p₄, hd, hr⟩ := run_bind_eq_ok.1 hr
  obtain ⟨rfl, rfl⟩ := Pool.run_fresh hd
  obtain ⟨rfl, rfl⟩ := run_pure_eq_ok.1 hr
  rw [Interpreter.expr] at herr hval
  obtain ⟨hplaced, hop⟩ := placed_append.1 hplaced
  obtain ⟨hfirst, hsecond⟩ := placed_append.1 hplaced
  rw [List.length_append, ← Nat.add_assoc] at hop
  have hle₁ := Lowerer.expr_increasing lhs _ _ _ _ _ hx
  have hle₂ := Lowerer.expr_increasing rhs _ _ _ _ _ hy
  have hle' : p₂.Le pool := Pool.le_ordered.trans (Pool.le_fresh p₂) hle
  refine ihl hn hx (Pool.le_ordered.trans hle₂ hle') hfirst hat hlim
    (fun err h => herr err (Answers.bind_error h)) ?_
  intro j hj e₁ m₁ v₁ hv₁ hreach₁ hstores₁
  have hat₁ := hat.reaches hreach₁ hle₁.registers
  have hhas₁ := ((hl.expr_has hp htl hx hat).2 v₁ hv₁).extends hreach₁.grown hat.runs.hosts.types
  refine ihr (Nat.le_trans hj hn) hy hle' hsecond hat₁ hlim
    (fun err h => herr err (Answers.bind_ok hv₁ (Answers.bind_error h))) ?_
  intro i hi e₂ m₂ v₂ hv₂ hreach₂ hstores₂
  have hat₂ := hat₁.reaches hreach₂ hle₂.registers
  have hhas₂ := ((hl.expr_has hp htr hy hat₁).2 v₂ hv₂).extends hreach₂.grown hat₁.runs.hosts.types
  obtain ⟨-, c₁, hread₁, hf₁⟩ := hstores₁.continues hreach₂.continues hle₂.registers
  obtain ⟨-, c₂, hread₂, hf₂⟩ := hstores₂
  have hmatch := Operator.onCompiled_matches (i := C.world.interpreter) hat₂.serves.fits ht
    (hhas₁.extends hreach₂.grown hat₁.runs.hosts.types).1 hhas₂.1 ((hat₂.runs.form_iff hp).2 hf₁)
    ((hat₂.runs.form_iff hp).2 hf₂)
  refine hat₂.step_drives hp (placed_singleton.1 hop) hmatch ?_ (hl.registers_le hle) (Nat.le_refl _) t ?_ ?_
  · simp only [Machine.exec]
    rw [Machine.run_read hread₁, Machine.run_read hread₂]
  · intro f hf
    refine herr _ (Answers.bind_ok hv₁ (Answers.bind_ok hv₂ ?_))
    rw [hf]
    rfl
  · intro k hk m₃ v hv hreach₃ hstores
    refine hval k (by omega) e₂ m₃ v (Answers.bind_ok hv₁ (Answers.bind_ok hv₂ ?_)) ?_ hstores
    · rw [hv]
      rfl
    · rw [List.length_append, List.length_append, ← Nat.add_assoc, ← Nat.add_assoc]
      exact hreach₁.trans (hreach₂.trans hreach₃ hle₂.registers) hle₁.registers

theorem expr_drives_call (hhost : C.HostConforms host) (hbody : ∀ k < N, C.BodyDrives host k) (name : Ident)
    {args : List Expr} (htidy : ∀ ex ∈ args, ex.Tidy shown)
    (ih : ∀ ex ∈ args, C.ExprDrives host l a pool N shown ex) :
    C.ExprDrives host l a pool N shown (.call name args) := by
  intro n depth e m start env venv p r p' ans hn hr hle hplaced hat hlim herr hval
  rw [Lowerer.expr] at hr
  obtain ⟨as, p₁, has, hr⟩ := run_bind_eq_ok.1 hr
  obtain ⟨c, p₂, hc, hr⟩ := run_bind_eq_ok.1 hr
  obtain ⟨rfl, rfl⟩ := run_pure_eq_ok.1 hr
  rw [Interpreter.expr] at herr hval
  obtain ⟨hfirst, hcode⟩ := placed_append.1 hplaced
  obtain ⟨hreg, hlen, hnext⟩ := Lowerer.run_call hc
  have hle₁ := Lowerer.exprs_increasing _ _ _ _ _ _ has
  have hle₂ := Lowerer.call_increasing _ _ _ _ _ hc
  have hdst : p₁.registers < a.registers := by
    have := hl.registers_le hle
    omega
  refine exprs_drives ih hn has (Pool.le_ordered.trans hle₂ hle)
    hfirst hat hlim (fun err h => herr err (Answers.bind_error h)) ?_
  intro j hj e₁ m₁ vs hvs hreach hstores
  have hat₁ := hat.reaches hreach hle₁.registers
  obtain ⟨cs, hreads, hforms⟩ := hstores.reads
  have htypes : AllHave e₁.types (as.args.map Prod.snd) vs :=
    (hl.exprs_has hp htidy has hat hvs).imp fun _ _ h => h.extends hreach.grown hat.runs.hosts.types
  have hcall : C.CallAt host depth l a e₁ m₁ (start + as.code.length) ans j name as.args
      p₁.registers vs cs :=
    { position := ⟨shown, _, env, venv, hat₁⟩
      inside := hdst
      reads := hreads
      forms := hforms
      types := htypes
      limit := hlim
      errors := fun err h => herr err (Answers.bind_ok hvs h)
      values := by
        intro k hk e₂ v cv hv hx hf
        obtain ⟨hreach', hstores'⟩ := hat₁.write hdst (Nat.le_refl _) hx hf c.type
        refine hval k (Nat.le_trans hk hj) e₂ _ v (Answers.bind_ok hvs hv) ?_ ?_
        · rw [List.length_append, hlen, ← Nat.add_assoc]
          exact hreach.trans hreach' hle₁.registers
        · rw [hreg, hnext]
          exact hstores' }
  exact hl.call_drives hp hcall hhost (fun k hk => hbody k (by omega)) hc hle hcode hreg

theorem expr_drives_field {subject : Expr} (name : Ident) (htidy : subject.Tidy shown)
    (ih : C.ExprDrives host l a pool N shown subject) :
    C.ExprDrives host l a pool N shown (.field subject name) := by
  intro n depth e m start env venv p r p' ans hn hr hle hplaced hat hlim herr hval
  rw [Lowerer.expr] at hr
  obtain ⟨s, p₁, hs, hr⟩ := run_bind_eq_ok.1 hr
  obtain ⟨⟨t, location⟩, p₂, hlift, hr⟩ := run_bind_eq_ok.1 hr
  obtain ⟨ht, rfl⟩ := run_lift_eq_ok.1 hlift
  obtain ⟨dst, p₃, hd, hr⟩ := run_bind_eq_ok.1 hr
  obtain ⟨rfl, rfl⟩ := Pool.run_fresh hd
  obtain ⟨rfl, rfl⟩ := run_pure_eq_ok.1 hr
  rw [Interpreter.expr] at herr hval
  obtain ⟨hfirst, hop⟩ := placed_append.1 hplaced
  have hle₁ := Lowerer.expr_increasing subject _ _ _ _ _ hs
  refine ih hn hs (Pool.le_ordered.trans (Pool.le_fresh p₁) hle) hfirst hat hlim
    (fun err h => herr err (Answers.bind_error h)) ?_
  intro j hj e₁ m₁ v hv hreach hstores
  have hat₁ := hat.reaches hreach hle₁.registers
  have hhas := ((hl.expr_has hp htidy hs hat).2 v hv).extends hreach.grown hat.runs.hosts.types
  obtain ⟨-, c, hread, hf⟩ := hstores
  have hrecords : C.world.interpreter.types.recordNamed? = e₁.types.recordNamed? := by
    funext n
    exact (hat₁.runs.hosts.grows.recordNamed?_eq hp.types hat₁.runs.hosts.types n).symm
  have hmatch := FieldAccess.read_matches (i := C.world.interpreter) hat₁.serves.fits hrecords
    (hat₁.runs.fields hp) ht hhas.1 ((hat₁.runs.form_iff hp).2 hf)
  refine hat₁.step_drives hp (placed_singleton.1 hop) hmatch ?_ (hl.registers_le hle) (Nat.le_refl _) t ?_ ?_
  · simp only [Machine.exec]
    rw [Machine.run_read hread]
  · intro f hx
    refine herr _ (Answers.bind_ok hv ?_)
    rw [hx]
    rfl
  · intro k hk m₂ w hx hreach' hstores
    refine hval k (Nat.le_trans hk hj) e₁ m₂ w (Answers.bind_ok hv ?_) ?_ hstores
    · rw [hx]
      rfl
    · rw [List.length_append, ← Nat.add_assoc]
      exact hreach.trans hreach' hle₁.registers

/-- All arms of a match leave their value in the register of the match, as does the instruction behind them
when no arm is selected. -/
theorem expr_drives_branch {subject : Expr} {arms : List (Arm Expr)} (htidy : subject.Tidy shown)
    (ihs : C.ExprDrives host l a pool N shown subject)
    (iha : ∀ x ∈ arms, C.ExprDrives host l a pool N (x.pattern.Shows shown) x.body) :
    C.ExprDrives host l a pool N shown (.branch subject arms) := by
  intro n depth e m start env venv p r p' ans hn hr hle hplaced hat hlim herr hval
  obtain ⟨s, p₁, plan, t, lowered, t', hs, hplan, ha, -, rfl⟩ := Lowerer.run_branch hr
  generalize hmiss : start + s.code.length + 1 + LoweredArm.totalSize lowered = miss at hplaced hval
  rw [List.length_append, ← Nat.add_assoc, length_match, hmiss] at hval
  rw [Interpreter.expr] at herr hval
  obtain ⟨hfirst, hswitch, harms, hincomplete⟩ := placed_match.1 hplaced
  rw [hmiss] at hincomplete
  obtain ⟨hchain, hlowered⟩ := Lowerer.exprArms_lowered ha
  have hle₁ := Lowerer.expr_increasing subject _ _ _ _ _ hs
  have hle₂ := Lowerer.exprArms_increasing _ _ _ _ _ _ _ ha
  have hdst : p₁.registers < a.registers := Nat.lt_of_lt_of_le (Nat.lt_succ_self _)
    (hl.registers_le (Pool.le_ordered.trans hle₂ hle))
  refine ihs hn hs (Pool.le_ordered.trans (Pool.le_fresh p₁) (Pool.le_ordered.trans hle₂ hle))
    hfirst hat hlim (fun err h => herr err (Answers.bind_error h)) ?_
  intro j hj e₁ m₁ v hv hreach hstores
  have hat₁ := hat.reaches hreach hle₁.registers
  have hhas := ((hl.expr_has hp htidy hs hat).2 v hv).extends hreach.grown hat.runs.hosts.types
  have hkept : Reaches p₁.registers e₁ m₁ (start + s.code.length) e₁ m₁ :=
    ⟨.refl e₁, .refl _ m₁, hreach.pc⟩
  refine match_drives hl hp hplan hchain hlowered ?_
    hle (hat₁.reaches hkept (Nat.le_succ _)) (placed_singleton.1 hswitch)
    harms hhas
    (hstores.continues (.refl _ m₁) (Nat.le_succ _)) ?_ ?_
  · intro x start scope
    exact .bind Pool.le_ordered (Lowerer.expr_increasing x.body start scope) fun _ =>
      .pure Pool.le_ordered _
  · intro hsel k hk m₂ hreach₂
    have hanswer : (Interpreter.step (C.world.interpreter.selectArm v (arms.map (·.pattern))) :
        Answers _) (.ok none) := Answers.step_iff.2 hsel
    have hreach₂ : Reaches p₁.registers e₁ m₁ miss e₁ m₂ :=
      ⟨hreach₂.grown, hreach₂.continues.mono (Nat.le_succ _), hreach₂.pc⟩
    refine (hat₁.reaches hreach₂ (Nat.le_refl _)).step_drives hp (placed_singleton.1 hincomplete)
      (.ok .sentinel) ?_ hdst (Nat.le_refl _) t' (fun f h => by cases h) ?_
    · rw [Engine.run_ofRuntime_ok]
      rfl
    · intro i hi m₃ w hw hreach₃ hstores₃
      cases hw
      refine hval i (by omega) e₁ m₃ _ (Answers.bind_ok hv (Answers.bind_ok hanswer rfl)) ?_ ?_
      · exact (hreach.trans hreach₂ hle₁.registers).trans hreach₃ hle₁.registers
      · exact hstores₃.continues (.refl _ m₃) hle₂.registers
  · intro index bound x hsel hx k hk m₂ hin
    have hanswer : (Interpreter.step (C.world.interpreter.selectArm v (arms.map (·.pattern))) :
        Answers _) (.ok (some (index, bound))) := Answers.step_iff.2 hsel
    have harm : C.world.interpreter.exprArm (C.world.calls depth) (venv.insertAll bound) index arms =
        C.world.interpreter.expr (C.world.calls depth) (venv.insertAll bound) x.body :=
      Interpreter.exprArm_eq _ hx
    have hmem := List.mem_of_getElem? hx
    refine armExpr_drives hp (iha x hmem) (by omega) hin hle
      (Nat.lt_succ_self _) hdst hlim ?_ ?_ (s := t')
    · intro err h
      refine herr err (Answers.bind_ok hv (Answers.bind_ok hanswer ?_))
      simp only [harm]
      exact h
    · intro i hi e₂ m₃ w hw hreach₂ hstores₂
      refine hval i (by omega) e₂ m₃ w (Answers.bind_ok hv (Answers.bind_ok hanswer ?_)) ?_ ?_
      · simp only [harm]
        exact hw
      · exact hreach.trans hreach₂ hle₁.registers
      · exact hstores₂.continues (.refl _ m₃) hle₂.registers

theorem expr_drives_incomplete : C.ExprDrives host l a pool N shown .incomplete := by
  intro n depth e m start env venv p r p' ans hn hr hle hplaced hat hlim herr hval
  rw [Lowerer.expr] at hr
  obtain ⟨dst, p₁, hd, hr⟩ := run_bind_eq_ok.1 hr
  obtain ⟨rfl, rfl⟩ := Pool.run_fresh hd
  obtain ⟨rfl, rfl⟩ := run_pure_eq_ok.1 hr
  rw [Interpreter.expr] at herr hval
  refine hat.step_drives hp (placed_singleton.1 hplaced) (.ok .sentinel) ?_
    (hl.registers_le hle) (Nat.le_refl _) .incomplete (fun f h => by cases h) ?_
  · rw [Engine.run_ofRuntime_ok]
    rfl
  · intro j hj m' v hv hreach hstores
    cases hv
    exact hval j hj e m' _ rfl hreach hstores

/-- The code of an expression does what the interpreter does. -/
theorem expr_drives (hhost : C.HostConforms host) (hbody : ∀ k < N, C.BodyDrives host k) (ex : Expr)
    (htidy : ex.Tidy shown) : C.ExprDrives host l a pool N shown ex := by
  induction ex using Expr.ind generalizing shown with
  | lit lit => exact hl.expr_drives_lit hp lit
  | var name =>
    rw [Expr.Tidy] at htidy
    exact expr_drives_var htidy
  | binary op lhs rhs ihl ihr =>
    rw [Expr.Tidy] at htidy
    exact hl.expr_drives_binary hp htidy.1 htidy.2 (ihl htidy.1) (ihr htidy.2)
  | call name args ih =>
    rw [Expr.Tidy, Expr.allTidy_iff] at htidy
    exact hl.expr_drives_call hp hhost hbody name htidy fun x hx => ih x hx (htidy x hx)
  | field subject name ih =>
    rw [Expr.Tidy] at htidy
    exact hl.expr_drives_field hp name htidy (ih htidy)
  | branch subject arms ihs iha =>
    rw [Expr.Tidy, Expr.armsTidy_iff] at htidy
    exact hl.expr_drives_branch hp htidy.1 (ihs htidy.1) fun x hx => iha x hx (htidy.2 x hx)
  | incomplete => exact hl.expr_drives_incomplete hp

end Lowered

end Comparison

end ShapeCompiler
