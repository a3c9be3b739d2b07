import ShapeCompiler.Proofs.Simulation.Expressions

/-!
Blocks and bodies in compiled code.

Main statements: the code of a block goes as the interpreter goes (`Comparison.Lowered.block_drives`),
and a function that is entered goes on as the world says until it returns
(`Comparison.bodyDrives_all`). The first induction is on the block, the second one on the number of
instructions, because a function may call itself.
-/

namespace ShapeCompiler

open TypeTable LoweredArm

/-- What a body yields if its block went like this. -/
def Flow.result : Flow → Value
  | .next _ => .incomplete
  | .returned v => v

namespace Comparison

variable {C : Comparison} {depth : Option Nat} {e : Engine} {l : Lowerer} {a : Artifact}
  {pool p p' : Pool} {m : Machine} {start k n N fuel : Nat} {env : RegEnv} {venv : Env}
  {host : HostSite → List Compiled → Run Compiled} {shown : Prop}

/-- For a number of instructions, the code of a block goes as the interpreter goes, and then is about
to return or, unless it always returns, goes on behind its end. -/
def BlockDrives (C : Comparison) (host : HostSite → List Compiled → Run Compiled) (l : Lowerer)
    (a : Artifact) (pool : Pool) (N fuel : Nat) (shown : Prop) (stmts : List Stmt) : Prop :=
  ∀ {n depth e m start env venv p code returns p'} {ans : Answers Value}, n ≤ N →
    (l.block start env stmts).run p = .ok ((code, returns), p') → p'.Le pool →
    Placed a.code start code → C.At shown depth l a e m start p.registers env venv → ¬ C.Limited ans →
    (∀ err, C.world.interpreter.block (C.world.calls depth) fuel venv stmts (.error err) →
      ans (.error err)) →
    (∀ j ≤ n, ∀ e' m' v,
      C.world.interpreter.block (C.world.calls depth) fuel venv stmts (.ok (.returned v)) →
      C.Returning e m v e' m' → C.Drives host ans j e' m') →
    (∀ j ≤ n, ∀ e' m' venv',
      C.world.interpreter.block (C.world.calls depth) fuel venv stmts (.ok (.next venv')) →
      returns = false → Reaches p.registers e m (start + code.length) e' m' →
      C.Drives host ans j e' m') →
    C.Drives host ans n e m

theorem At.assign {e' : Engine} {m' : Machine} {stop : Nat} {k' : Nat} {name : Ident} {v : Value}
    {r : Reg × StaticType} (h : C.At shown depth l a e m start k env venv)
    (hr : Reaches k e m stop e' m') (hk : k ≤ k') (hhas : r.2.Has e.types v) (hne : r.2 ≠ .unknown)
    (hs : m'.Stores C.world.types k' r v) :
    C.At (shown ∨ name = placeholder) depth l a e' m' stop k' (env.insert name r)
      (venv.insert name v) :=
  { h.reaches hr hk with
    types := by
      rw [RegEnv.types_insert]
      exact (h.reaches hr hk).types.insert (hhas.extends hr.grown h.runs.hosts.types)
    known := by
      rw [RegEnv.types_insert]
      exact h.known.insert hne
    scope := (h.reaches hr hk).scope.insert hs }

/-- The rest of a block goes on behind its front: what the rest answers, the whole answers. -/
theorem BlockDrives.behind {rest : List Stmt} (hrest : C.BlockDrives host l a pool N fuel shown rest)
    {whole : Answers Flow} {ans : Answers Value} {e₁ : Engine} {m₁ : Machine} {start₁ stop k j : Nat}
    {env₁ : RegEnv} {venv₁ : Env} {code : List Op} {returns : Bool} (hj : j ≤ n) (hn : n ≤ N)
    (hr : (l.block start₁ env₁ rest).run p = .ok ((code, returns), p')) (hle : p'.Le pool)
    (hplaced : Placed a.code start₁ code) (hat : C.At shown depth l a e₁ m₁ start₁ p.registers env₁ venv₁)
    (hlim : ¬ C.Limited ans)
    (herr : ∀ err, whole (.error err) → ans (.error err))
    (hret : ∀ j ≤ n, ∀ e' m' v, whole (.ok (.returned v)) → C.Returning e m v e' m' →
      C.Drives host ans j e' m')
    (hnext : ∀ j ≤ n, ∀ e' m' venv', whole (.ok (.next venv')) → returns = false →
      Reaches k e m stop e' m' → C.Drives host ans j e' m')
    (hgo : ∀ y, C.world.interpreter.block (C.world.calls depth) fuel venv₁ rest y → whole y)
    (hto : Reaches k e m start₁ e₁ m₁) (hk : k ≤ p.registers) (hstop : start₁ + code.length = stop) :
    C.Drives host ans j e₁ m₁ := by
  refine hrest (Nat.le_trans hj hn) hr hle hplaced hat hlim (fun err h => herr err (hgo _ h)) ?_ ?_
  · exact fun i hi e' m' v hv hreturning =>
      hret i (Nat.le_trans hi hj) e' m' v (hgo _ hv) (hto.returning hreturning)
  · intro i hi e' m' venv' hv hreturns hreach
    rw [hstop] at hreach
    exact hnext i (Nat.le_trans hi hj) e' m' venv' (hgo _ hv) hreturns (hto.trans hreach hk)

/-- What a block goes on to behind a match. -/
def goOn (rest : Answers Flow) : Flow → Answers Flow
  | .returned v => pure (.returned v)
  | .next _ => rest

theorem block_branch (i : Interpreter) (call : Ident → List Value → Answers Value) (fuel : Nat)
    (venv : Env) (subject : Expr) (arms : List (Arm (List Stmt))) (rest : List Stmt) :
    i.block call fuel venv (.branch subject arms :: rest) = (do
      let v ← i.expr call venv subject
      let picked ← Interpreter.step (i.selectArm v (arms.map (·.pattern)))
      let flow ← picked.elim (pure (.next venv)) fun arm =>
        i.blockArm call fuel (venv.insertAll arm.2) arm.1 arms
      goOn (i.block call fuel venv rest) flow) := by
  rw [Interpreter.block]
  refine congrArg _ (funext fun v => congrArg _ (funext fun picked => congrArg _ (funext fun flow => ?_)))
  cases flow <;> rfl

namespace Lowered

variable (hl : C.Lowered l a pool) (hp : C.world.Proper)

theorem block_drives_nil : C.BlockDrives host l a pool N fuel shown [] := by
  intro n depth e m start env venv p code returns p' ans hn hr hle hplaced hat hlim herr hret hnext
  rw [Lowerer.block] at hr
  obtain ⟨hr, rfl⟩ := run_pure_eq_ok.1 hr
  cases hr
  rw [Interpreter.block] at hnext
  refine hnext n (Nat.le_refl n) e m venv rfl rfl ?_
  rw [← hat.pc]
  exact .refl _ e m

theorem block_drives_ret {value : Expr} (rest : List Stmt)
    (hvalue : C.ExprDrives host l a pool N shown value) :
    C.BlockDrives host l a pool N fuel shown (.ret value :: rest) := by
  intro n depth e m start env venv p code returns p' ans hn hr hle hplaced hat hlim herr hret hnext
  rw [Lowerer.block] at hr
  obtain ⟨x, p₁, hx, hr⟩ := run_bind_eq_ok.1 hr
  obtain ⟨hr, rfl⟩ := run_pure_eq_ok.1 hr
  cases hr
  rw [Interpreter.block] at herr hret hnext
  obtain ⟨hfirst, hop⟩ := placed_append.1 hplaced
  refine hvalue hn hx hle hfirst hat hlim
    (fun err h => herr err (Answers.bind_error h)) ?_
  intro j hj e₁ m₁ v hv hreach hstores
  obtain ⟨-, c, hread, hf⟩ := hstores
  have hat₁ := hat.reaches hreach (Nat.le_refl _)
  refine hret j hj e₁ m₁ v (Answers.bind_ok hv rfl) ⟨hreach.grown, hreach.continues.mono (Nat.zero_le _),
    x.reg, c, hat₁.op (placed_singleton.1 hop), hread, hf⟩

theorem block_drives_eval {value : Expr} {rest : List Stmt}
    (hvalue : C.ExprDrives host l a pool N shown value) (ih : C.BlockDrives host l a pool N fuel shown rest) :
    C.BlockDrives host l a pool N fuel shown (.eval value :: rest) := by
  intro n depth e m start env venv p code returns p' ans hn hr hle hplaced hat hlim herr hret hnext
  rw [Lowerer.block] at hr
  obtain ⟨x, p₁, hx, hr⟩ := run_bind_eq_ok.1 hr
  obtain ⟨⟨code', returns'⟩, p₂, hrest, hr⟩ := run_bind_eq_ok.1 hr
  obtain ⟨hr, rfl⟩ := run_pure_eq_ok.1 hr
  cases hr
  rw [Interpreter.block] at herr hret hnext
  obtain ⟨hfirst, hcode⟩ := placed_append.1 hplaced
  have hle₁ := Lowerer.expr_increasing value _ _ _ _ _ hx
  have hle₂ := Lowerer.block_increasing rest _ _ _ _ _ hrest
  refine hvalue hn hx (Pool.le_ordered.trans hle₂ hle) hfirst hat
    hlim (fun err h => herr err (Answers.bind_error h)) ?_
  intro j hj e₁ m₁ v hv hreach hstores
  refine BlockDrives.behind ih hj hn hrest hle hcode (hat.reaches hreach hle₁.registers) hlim
    herr hret hnext (fun _ h => Answers.bind_ok hv h) hreach hle₁.registers ?_
  rw [List.length_append, Nat.add_assoc]

include hl hp

theorem block_drives_assign {name : Ident} {value : Expr} {rest : List Stmt} (htv : value.Tidy shown)
    (hvalue : C.ExprDrives host l a pool N shown value)
    (ih : C.BlockDrives host l a pool N fuel (shown ∨ name = placeholder) rest) :
    C.BlockDrives host l a pool N fuel shown (.assign name value :: rest) := by
  intro n depth e m start env venv p code returns p' ans hn hr hle hplaced hat hlim herr hret hnext
  rw [Lowerer.block] at hr
  obtain ⟨x, p₁, hx, hr⟩ := run_bind_eq_ok.1 hr
  obtain ⟨⟨code', returns'⟩, p₂, hrest, hr⟩ := run_bind_eq_ok.1 hr
  obtain ⟨hr, rfl⟩ := run_pure_eq_ok.1 hr
  cases hr
  rw [Interpreter.block] at herr hret hnext
  obtain ⟨hfirst, hcode⟩ := placed_append.1 hplaced
  have hle₁ := Lowerer.expr_increasing value _ _ _ _ _ hx
  have hle₂ := Lowerer.block_increasing rest _ _ _ _ _ hrest
  obtain ⟨hne, hhas⟩ := hl.expr_has hp htv hx hat
  refine hvalue hn hx (Pool.le_ordered.trans hle₂ hle) hfirst hat
    hlim (fun err h => herr err (Answers.bind_error h)) ?_
  intro j hj e₁ m₁ v hv hreach hstores
  refine BlockDrives.behind ih hj hn hrest hle hcode
    (hat.assign hreach hle₁.registers (hhas v hv) hne hstores) hlim herr hret hnext
    (fun _ h => Answers.bind_ok hv h) hreach hle₁.registers ?_
  rw [List.length_append, Nat.add_assoc]

/-- All arms of a match that go on, and a match that selects none, go on behind it in the scope that the
block had before. -/
theorem block_drives_branch {subject : Expr} {arms : List (Arm (List Stmt))} {rest : List Stmt}
    (htidy : subject.Tidy shown) (hsubject : C.ExprDrives host l a pool N shown subject)
    (iha : ∀ x ∈ arms, C.BlockDrives host l a pool N fuel (x.pattern.Shows shown) x.body)
    (ihr : C.BlockDrives host l a pool N fuel shown rest) :
    C.BlockDrives host l a pool N fuel shown (.branch subject arms :: rest) := by
  intro n depth e m start env venv p code returns p' ans hn hr hle hplaced hat hlim herr hret hnext
  rw [Lowerer.block] at hr
  obtain ⟨s, p₁, hs, hr⟩ := run_bind_eq_ok.1 hr
  obtain ⟨plan, p₂, hlift, hr⟩ := run_bind_eq_ok.1 hr
  obtain ⟨hplan, rfl⟩ := run_lift_eq_ok.1 hlift
  obtain ⟨lowered, p₃, ha, hr⟩ := run_bind_eq_ok.1 hr
  dsimp only at ha hr
  generalize hfinish : start + s.code.length + 1 + LoweredArm.totalSize lowered = finish at hr
  obtain ⟨⟨code', returns'⟩, p₄, hrest, hr⟩ := run_bind_eq_ok.1 hr
  obtain ⟨hr, rfl⟩ := run_pure_eq_ok.1 hr
  cases hr
  rw [block_branch] at herr hret hnext
  obtain ⟨hfirst, hswitch, harms, hcode⟩ := placed_match.1 hplaced
  rw [hfinish] at hcode
  obtain ⟨hchain, hlowered⟩ := Lowerer.blockArms_lowered ha
  have hle₁ := Lowerer.expr_increasing subject _ _ _ _ _ hs
  have hle₂ := Lowerer.blockArms_increasing _ _ _ _ _ _ ha
  have hle₃ := Lowerer.block_increasing rest _ _ _ _ _ hrest
  have hle' : p₃.Le pool := Pool.le_ordered.trans hle₃ hle
  refine hsubject hn hs (Pool.le_ordered.trans hle₂ hle') hfirst
    hat hlim (fun err h => herr err (Answers.bind_error h)) ?_
  intro j hj e₁ m₁ v hv hreach hstores
  have hat₁ := hat.reaches hreach hle₁.registers
  have hhas := ((hl.expr_has hp htidy hs hat).2 v hv).extends hreach.grown hat.runs.hosts.types
  -- behind the match, the block goes on in the scope that it had before
  have behind : ∀ {res flow}, C.world.interpreter.selectArm v (arms.map (·.pattern)) = .ok res →
      (res.elim (pure (.next venv)) fun arm => C.world.interpreter.blockArm (C.world.calls depth) fuel
        (venv.insertAll arm.2) arm.1 arms : Answers Flow) (.ok (.next flow)) →
      ∀ i ≤ j, ∀ e₂ m₂, Reaches p₁.registers e₁ m₁ finish e₂ m₂ → C.Drives host ans i e₂ m₂ := by
    intro res flow hsel hflow i hi e₂ m₂ hreach₂
    have hto := hreach.trans hreach₂ hle₁.registers
    have hk := Nat.le_trans hle₁.registers hle₂.registers
    refine BlockDrives.behind ihr (Nat.le_trans hi hj) hn hrest hle hcode (hat.reaches hto hk) hlim
      herr hret hnext (fun _ h => Answers.bind_ok hv (Answers.bind_ok (Answers.step_iff.2 hsel)
        (Answers.bind_ok hflow h))) hto hk ?_
    rw [List.length_append, ← Nat.add_assoc, length_match, hfinish]
  refine match_drives hl hp hplan hchain hlowered (fun x start scope =>
      Lowerer.block_increasing x.body start scope) hle' hat₁ (placed_singleton.1 hswitch)
    harms hhas hstores ?_ ?_
  · exact fun hsel i hi m₂ hreach₂ => behind hsel rfl i hi e₁ m₂ hreach₂
  · intro index bound x hsel hx i hi m₂ hin
    have harm : ∀ y, C.world.interpreter.block (C.world.calls depth) fuel (venv.insertAll bound)
        x.body y → C.world.interpreter.blockArm (C.world.calls depth) fuel (venv.insertAll bound)
          index arms y := by
      intro y h
      rw [Interpreter.blockArm_eq fuel _ hx]
      exact h
    obtain ⟨start', scope, code'', returns'', q, q', hq, hrun, hq', hplaced', hreach₂, hat₂⟩ := hin
    obtain ⟨hplaced', hjump⟩ := placed_append.1 hplaced'
    have hmem := List.mem_of_getElem? hx
    refine iha x hmem (by omega) hrun
      (Pool.le_ordered.trans hq' hle') hplaced' hat₂ hlim ?_ ?_ ?_
    · exact fun err h => herr err (Answers.bind_ok hv (Answers.bind_ok (Answers.step_iff.2 hsel)
        (Answers.bind_error (harm _ h))))
    · exact fun o ho e₃ m₃ w hw hreturning => hret o (by omega) e₃ m₃ w
        (Answers.bind_ok hv (Answers.bind_ok (Answers.step_iff.2 hsel)
          (Answers.bind_ok (harm _ hw) rfl))) (hreach.returning (hreach₂.returning hreturning))
    · intro o ho e₃ m₃ venv' hw hreturns hreach₃
      subst hreturns
      have hat₃ := hat₂.reaches hreach₃ (Nat.le_refl _)
      have hto : Reaches p₁.registers e₁ m₁ _ e₃ m₃ := hreach₂.trans hreach₃ hq.registers
      refine drives_next (hat₃.op (placed_singleton.1 hjump)) rfl fun o' ho' => ?_
      exact behind hsel (harm _ hw) o' (by omega) e₃ _
        ⟨hto.grown, hto.continues.goto finish, rfl⟩

/-- The code of a block goes as the interpreter goes. -/
theorem block_drives (hhost : C.HostConforms host) (hbody : ∀ k < N, C.BodyDrives host k)
    (stmts : List Stmt) (htidy : Block.Tidy shown stmts) :
    C.BlockDrives host l a pool N fuel shown stmts := by
  induction stmts using Block.ind generalizing shown with
  | nil => exact block_drives_nil
  | assign name value rest ih =>
    rw [Block.Tidy] at htidy
    exact hl.block_drives_assign hp htidy.1 (hl.expr_drives hp hhost hbody value htidy.1) (ih htidy.2)
  | ret value rest =>
    rw [Block.Tidy] at htidy
    exact block_drives_ret rest (hl.expr_drives hp hhost hbody value htidy)
  | eval value rest ih =>
    rw [Block.Tidy] at htidy
    exact block_drives_eval (hl.expr_drives hp hhost hbody value htidy.1) (ih htidy.2)
  | branch subject arms rest iha ihr =>
    rw [Block.Tidy, Block.armsTidy_iff] at htidy
    exact hl.block_drives_branch hp htidy.1 (hl.expr_drives hp hhost hbody subject htidy.1)
      (fun x hx => iha x hx (htidy.2.1 x hx)) (ihr htidy.2.2)
  | loop condition body rest _ _ =>
    intro n depth e m start env venv p code returns p' ans hn hr
    rw [Lowerer.block] at hr
    exact absurd hr run_throw_ne_ok

end Lowered

/-! ### Bodies -/

/-- The parameters are variables in the next registers, with the types of the signature. -/
theorem run_bindParams {params : List Ident} {ids : List TypeId} {env env' : RegEnv}
    (h : (Lowerer.bindParams env (params.zip ids)).run p = .ok (env', p')) :
    env'.types = env.types.insertAll (params.zip (ids.map .known)) ∧ p.registers ≤ p'.registers ∧
    ∀ {t : TypeTable} {m : Machine} {venv : Env} {vs cs}, vs.length = ids.length → Forms t vs cs →
      (∀ k c, cs[k]? = some c → m.Reads (p.registers + k) c) → RegScope t m p.registers shown env venv →
      RegScope t m p'.registers shown env' (venv.insertAll (params.zip vs)) := by
  induction params generalizing ids env p with
  | nil =>
    obtain ⟨rfl, rfl⟩ := run_pure_eq_ok.1 h
    exact ⟨rfl, Nat.le_refl _, fun _ _ _ hs => hs⟩
  | cons name params ih =>
    cases ids with
    | nil =>
      obtain ⟨rfl, rfl⟩ := run_pure_eq_ok.1 h
      refine ⟨rfl, Nat.le_refl _, fun hlen _ _ hs => ?_⟩
      obtain rfl := List.length_eq_zero_iff.1 hlen
      exact hs
    | cons id ids =>
      rw [List.zip_cons_cons, Lowerer.bindParams] at h
      obtain ⟨r, p₁, hr, h⟩ := run_bind_eq_ok.1 h
      obtain ⟨rfl, rfl⟩ := Pool.run_fresh hr
      obtain ⟨htypes, hle, hscope⟩ := ih h
      refine ⟨?_, Nat.le_trans (Nat.le_succ _) hle, ?_⟩
      · rw [htypes, RegEnv.types_insert]
        rfl
      · intro t m venv vs cs hlen hforms hreads hs
        obtain ⟨v, vs, rfl⟩ := List.exists_cons_of_length_eq_add_one hlen
        cases hforms with
        | cons hf hforms =>
          refine hscope (by simpa using hlen) hforms (fun k c hc => ?_) ?_
          · have := hreads (k + 1) c hc
            rwa [← Nat.add_assoc, Nat.add_right_comm] at this
          · exact (hs.continues (.refl _ m) (Nat.le_succ _)).insert_same
              ⟨Nat.lt_succ_self _, _, hreads 0 _ rfl, hf⟩

/-- An activation that the reference begins: its body answers for it, and has room in the engine. -/
theorem Runs.activation {d : FunctionDef} {vs : List Value} {ans : Answers Value}
    (h : C.Runs depth e) (harity : vs.length = d.arity) (hlim : ¬ C.Limited ans)
    (herr : ∀ err, C.world.apply C.world.counts C.world.calls depth d vs (.error err) → ans (.error err)) :
    ∃ depth', C.Runs depth' e ∧ ∀ y, C.world.body (C.world.calls depth') d vs y →
      C.world.apply C.world.counts C.world.calls depth d vs y := by
  unfold World.apply at herr ⊢
  rw [if_neg (not_not.2 harity)] at herr ⊢
  cases hcounts : C.world.counts with
  | false => exact ⟨depth, h, fun _ hy => hy⟩
  | true =>
    rw [hcounts] at herr
    rcases depth with _ | _ | k
    · exact ⟨none, h, fun _ hy => hy⟩
    · exact absurd ⟨⟨h.room.1, hcounts⟩, herr _ rfl⟩ hlim
    · obtain ⟨hb, hle, -⟩ := h.room
      refine ⟨some k, { h with room := ⟨hb, by omega, fun hf => ?_⟩ }, fun _ hy => hy⟩
      cases hcounts.symm.trans hf

/-- A function that is entered goes on as the world says until it returns. -/
theorem bodyDrives_all (hp : C.world.Proper) (hhost : C.HostConforms host) (n : Nat) :
    C.BodyDrives host n := by
  induction n using Nat.strongRecOn with
  | _ n ih =>
  intro depth e m a d vs cs ans hruns hk hd hfun hpc hsize hreads hforms hargs hlim herr hret
  obtain ⟨l, pool, hl, hserves⟩ := hruns.lowered hk
  obtain rfl : d = l.definition := by
    rw [hl.compiled.signature, hl.function] at hd
    cases hd
    rfl
  have harity : vs.length = l.definition.arity := by
    rw [hl.compiled.arity, ← hl.compiled.signature]
    exact hargs.length_eq.symm
  obtain ⟨depth', hruns', happly⟩ := hruns.activation harity hlim herr
  have hcode := hl.compiled.body
  unfold Lowerer.body at hcode
  obtain ⟨env, p, hparams, hcode⟩ := run_bind_eq_ok.1 hcode
  obtain ⟨⟨code, returns⟩, p', hblock, hcode⟩ := run_bind_eq_ok.1 hcode
  obtain ⟨htypes, -, hscope⟩ := run_bindParams hparams
  have hregs : a.registers = pool.registers := hl.compiled.registers
  -- the code is that of the block, and returns the sentinel behind it unless the block always returns
  obtain ⟨hle, hplaced, hrest⟩ : p'.Le pool ∧ Placed a.code 0 code ∧ (returns = false →
      p'.registers < pool.registers ∧
      Placed a.code code.length [.incomplete p'.registers, .ret p'.registers]) := by
    have hwhole := placed_toList a.code
    dsimp only at hcode
    split at hcode
    · rename_i hreturns
      obtain ⟨hwrites, rfl⟩ := run_pure_eq_ok.1 hcode
      rw [← hwrites] at hwhole
      refine ⟨Pool.le_ordered.refl _, hwhole, fun h => ?_⟩
      rw [h] at hreturns
      cases hreturns
    · obtain ⟨dst, p₁, hdst, hcode⟩ := run_bind_eq_ok.1 hcode
      obtain ⟨rfl, rfl⟩ := Pool.run_fresh hdst
      obtain ⟨hwrites, rfl⟩ := run_pure_eq_ok.1 hcode
      rw [← hwrites] at hwhole
      obtain ⟨hfirst, hsecond⟩ := placed_append.1 hwhole
      rw [Nat.zero_add] at hsecond
      exact ⟨Pool.le_fresh p', hfirst, fun _ => ⟨Nat.lt_succ_self _, hsecond⟩⟩
  have hat : C.At True depth' l a e m 0 p.registers env (Assoc.ofList (l.definition.params.zip vs)) :=
    { runs := hruns'
      keeps := hk
      serves := hserves
      function := hfun
      pc := hpc
      size := Nat.le_trans (Nat.add_le_add_left (Nat.le_max_left _ _) _) hsize
      types := by
        rw [htypes, ← hl.compiled.signature]
        exact Walker.Sound.envHas_params hargs
      known := by
        rw [htypes]
        exact Walker.Sound.envKnown_params
      scope := by
        refine hscope ?_ hforms (fun k c hc => ?_) fun _ _ => .none
        · rw [← hl.compiled.signature]
          exact hargs.length_eq.symm
        · show m.Reads (0 + k) c
          rw [Nat.zero_add]
          exact hreads k c hc }
  have htidy : Block.Tidy True l.definition.body := hp.tidy _ _ hl.function
  -- what the block answers, the body answers
  have answers : ∀ {flow}, C.world.interpreter.block (C.world.calls depth') 0
      (Assoc.ofList (l.definition.params.zip vs)) l.definition.body (.ok flow) →
      C.world.apply C.world.counts C.world.calls depth l.definition vs (.ok flow.result) := by
    intro flow hflow
    refine happly _ ⟨0, Answers.bind_ok hflow ?_⟩
    cases flow <;> rfl
  have hdrives : C.BlockDrives host l a pool n 0 True l.definition.body :=
    hl.block_drives hp hhost (fun k hk => ih k hk) l.definition.body htidy
  refine hdrives (Nat.le_refl n) hblock hle hplaced hat hlim ?_ ?_ ?_
  · exact fun err h => herr err (happly _ ⟨0, Answers.bind_error h⟩)
  · exact fun j hj e' m' v hv hto => hret j hj e' m' v (answers hv) hto
  · intro j hj e₁ m₁ venv' hv hreturns hreach
    obtain ⟨hlt, hplaced'⟩ := hrest hreturns
    obtain ⟨hop, hop'⟩ := (@placed_append _ _ [_] [_]).1 hplaced'
    rw [Nat.zero_add] at hreach
    have hat₁ := hat.reaches hreach
      (Lowerer.block_increasing l.definition.body _ _ _ _ _ hblock).registers
    refine hat₁.step_drives hp (placed_singleton.1 hop) (.ok .sentinel) ?_ (by rwa [hregs])
      (Nat.le_refl _) .incomplete (fun f h => by cases h) ?_
    · rw [Engine.run_ofRuntime_ok]
      rfl
    · intro i hi m₂ w hw hreach₂ hstores
      cases hw
      obtain ⟨-, c, hread, hf⟩ := hstores
      have hat₂ := hat₁.reaches hreach₂ (Nat.le_refl _)
      exact hret i (Nat.le_trans hi hj) e₁ m₂ .incomplete (answers hv)
        ⟨hreach.grown.trans hreach₂.grown, (hreach.continues.mono (Nat.zero_le _)).trans
          (hreach₂.continues.mono (Nat.zero_le _)) (Nat.le_refl _), p'.registers, c,
          hat₂.op (placed_singleton.1 hop'), hread, hf⟩

end Comparison

end ShapeCompiler
