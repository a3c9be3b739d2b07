import ShapeCompiler.Proofs.Simulation.Frames

/-!
Matches in compiled code.

Main statement: the instruction of a match leads to the arm that the interpreter selects, with the
variables that its pattern binds in registers (`Comparison.Lowered.match_drives`).
-/

namespace ShapeCompiler

open TypeTable LoweredArm

namespace Comparison

variable {C : Comparison} {depth : Option Nat} {e : Engine} {l : Lowerer} {a : Artifact}
  {pool p p' : Pool} {m : Machine} {start n : Nat} {env : RegEnv} {venv : Env}
  {host : HostSite → List Compiled → Run Compiled} {ans : Answers Value} {v : Value} {shown : Prop}

/-- The function is at the body of an arm, in its scope; `body` lowers what the arm does there, and
behind the body the function jumps to `target` unless the body always returns. -/
def InArm (C : Comparison) (shown : Prop) (depth : Option Nat) (l : Lowerer) (a : Artifact)
    (p p' : Pool) (e : Engine) (m : Machine) (venv : Env)
    (body : Nat → RegEnv → LowerM (List Op × Bool)) (target : Nat) (m' : Machine) : Prop :=
  ∃ start scope code returns p₁ p₂, p.Le p₁ ∧ (body start scope).run p₁ = .ok ((code, returns), p₂) ∧
    p₂.Le p' ∧ Placed a.code start (code ++ if returns then [] else [.jump target]) ∧
    Reaches p.registers e m start e m' ∧ C.At shown depth l a e m' start p₁.registers scope venv

namespace Lowered

variable (hl : C.Lowered l a pool) (hp : C.world.Proper) {plan : MatchPlan}
  {lowered : List LoweredArm} {subject : Reg} {type : StaticType} {first miss target : Nat}
  {cv : Compiled}
include hl hp

omit hl in
theorem select {β : Type} {arms : List (Arm β)}
    (hplan : l.matchPlan type (arms.map (·.pattern)) = .ok plan)
    (hat : C.At shown depth l a e m start p.registers env venv) (hhas : type.Has e.types v)
    (hf : C.world.types.Form v cv) :
    ∃ res, C.world.interpreter.selectArm v (arms.map (·.pattern)) = .ok res ∧
      plan.pick cv = res.map Prod.fst ∧ ∀ k bound, res = some (k, bound) →
        ∃ x, arms[k]? = some x ∧ k ∈ plan.reachable ∧
          (∀ name bs, x.pattern = .ctor name bs → ∃ id r, l.types.recordNamed? name = some (id, r)) ∧
          C.world.interpreter.bindings x.pattern v = .ok (some bound) ∧
          EnvHas e.types (x.pattern.Shows shown) (env.types.bind (l.binders x.pattern type))
            (venv.insertAll bound) := by
  have hfits := hat.serves.fits
  have hplan := mapError_eq_ok.1 hplan
  obtain ⟨hclosed, hreg⟩ := Typing.planArms_closed hfits.wellFormed hplan
  obtain ⟨res, hres, hpick, -⟩ := hfits.plan_pick C.world.interpreter hplan hhas.1
    ((Runs.form_iff hp hat.runs).2 hf)
  refine ⟨res, hres, hpick, ?_⟩
  rintro k bound rfl
  obtain ⟨j, pattern, hj, hpattern, hb⟩ := Interpreter.selectFrom_some hres
  obtain rfl : k = j := by rw [hj, Nat.zero_add]
  obtain ⟨x, hx, rfl⟩ : ∃ x, arms[k]? = some x ∧ x.pattern = pattern := by simpa using hpattern
  have hk := hclosed.pick hpick
  have hreg' : ∀ name bs, x.pattern = .ctor name bs → ∃ id r, l.types.recordNamed? name = some (id, r) :=
    fun name bs hname => hreg k hk name bs (by rw [hpattern, hname])
  exact ⟨x, hx, hk, hreg', hb, hat.types.bound (hfits.bound hhas hreg' hb)⟩

/-- The instructions before the body of an arm set up its scope. -/
theorem arm_drives {pattern : Pattern} {index : Nat} {bound : List (Ident × Value)}
    {body : Nat → RegEnv → LowerM (List Op × Bool)}
    (harm : l.ArmLowered env subject type p p' lowered index pattern body)
    (hbody : ∀ start scope, Increasing Pool.Le (body start scope)) (hle : p'.Le pool)
    (hchain : Chained first lowered) (hplaced : Placed a.code first (joinTo target lowered))
    (hreg : ∀ name bs, pattern = .ctor name bs → ∃ id r, l.types.recordNamed? name = some (id, r))
    (hb : C.world.interpreter.bindings pattern v = .ok (some bound))
    (htypes : EnvHas e.types (pattern.Shows shown) (env.types.bind (l.binders pattern type))
      (venv.insertAll bound))
    (htype : type ≠ .unknown) (hlt : subject < p.registers) (hsub : m.Reads subject cv)
    (hf : C.world.types.Form v cv) (hs : startOf lowered index = some start)
    (hat : C.At shown depth l a e m start p.registers env venv)
    (hk : ∀ k ≤ n, ∀ m',
      C.InArm (pattern.Shows shown) depth l a p p' e m (venv.insertAll bound) body target m' →
      C.Drives host ans k e m') : C.Drives host ans n e m := by
  obtain ⟨arm, hmem, hs', p₁, p₂, p₃, scope, unpack, code, returns, hp₁, hbind, hrun, hp₃, hcode,
    hexits⟩ := harm
  obtain rfl : start = arm.start := Option.some.inj (hs.symm.trans hs')
  have hplaced := hchain.placed hplaced hmem
  rw [hcode, hexits, List.append_assoc, placed_append] at hplaced
  obtain ⟨hunpack, hrest⟩ := hplaced
  have hrest : Placed a.code (arm.start + unpack.length)
      (code ++ if returns then [] else [.jump target]) := by
    cases returns <;> exact hrest
  have hbound : p.Le p₂ := Pool.le_ordered.trans hp₁
    (Lowerer.bindPattern_increasing _ _ _ _ _ _ _ hbind)
  have hsize : p₂.registers ≤ a.registers := by
    rw [hl.compiled.registers]
    exact (Pool.le_ordered.trans (hbody _ _ _ _ _ hrun) (Pool.le_ordered.trans hp₃ hle)).registers
  have hscope := (hat.runs.scope_iff hp).2 (hat.scope.continues (.refl _ m) hp₁.registers)
  obtain ⟨fields, m₁, hfields, hunpacked, hcont, hpc, hscope'⟩ :=
    Lowerer.run_bindPattern (e := e) hat.serves.fits (hat.runs.fields hp) hreg hbind
      ((hat.runs.form_iff hp).2 hf) hb hscope (Nat.lt_of_lt_of_le hlt hp₁.registers) hsub
      (Nat.le_trans (Nat.add_le_add_left hsize _) hat.size)
  -- the function is in the arm, once it has gone past the instruction that reads the fields
  have inArm : ∀ m', m'.pc = arm.start + unpack.length → m₁.Continues p.registers m' →
      RegScope e.types m' p₂.registers (pattern.Shows shown) scope (venv.insertAll bound) →
      C.InArm (pattern.Shows shown) depth l a p p' e m (venv.insertAll bound) body target m' := by
    intro m' hpc' hcont' hbound'
    have hreach : Reaches p.registers e m (arm.start + unpack.length) e m' :=
      ⟨.refl e, (hcont.mono hp₁.registers).trans hcont' (Nat.le_refl _), hpc'⟩
    have hat' := hat.reaches hreach (Nat.le_refl _)
    have hscope_types := Lowerer.bindPattern_types hbind
    refine ⟨_, scope, code, returns, p₂, p₃, hbound, hrun, hp₃, hrest, hreach, ?_⟩
    exact
      { hat' with
        types := by rw [hscope_types]; exact htypes
        known := by rw [hscope_types]; exact hat.known.bind (binders_known htype)
        scope := (hat.runs.scope_iff hp).1 hbound' }
  cases hempty : fields.isEmpty with
  | true =>
    obtain rfl := List.isEmpty_iff.1 hempty
    have hnil : unpack = [] := by rw [hfields]; rfl
    have hm₁ : m₁ = m := by
      cases hunpacked
      rfl
    subst hm₁
    refine hk n (Nat.le_refl n) m₁ (inArm m₁ ?_ (.refl _ m₁) hscope')
    rw [hat.pc, hnil]
    rfl
  | false =>
    rw [hempty] at hfields
    rw [hfields] at hunpack
    refine drives_next (hat.op (placed_singleton.1 hunpack)) ?_ fun k hkn =>
      hk k (Nat.le_of_lt hkn) _ (inArm _ ?_ (Machine.Continues.refl _ m₁).advance ?_)
    · simp only [Machine.exec]
      rw [Engine.run_bind, hunpacked]
      rfl
    · show m₁.pc + 1 = _
      rw [hpc, hat.pc, hfields]
      rfl
    · exact hscope'.continues (Machine.Continues.refl _ m₁).advance (Nat.le_refl _)

/-- The instruction of a match leads into the arm that the interpreter selects, or to `miss`. -/
theorem match_drives {β : Type} {arms : List (Arm β)}
    {body : Arm β → Nat → RegEnv → LowerM (List Op × Bool)}
    (hplan : l.matchPlan type (arms.map (·.pattern)) = .ok plan) (hchain : Chained first lowered)
    (harms : ∀ k x, 0 + k ∈ plan.reachable → arms[k]? = some x →
      l.ArmLowered env subject type p p' lowered (0 + k) x.pattern (body x))
    (hbody : ∀ x start scope, Increasing Pool.Le (body x start scope)) (hle : p'.Le pool)
    (hat : C.At shown depth l a e m start p.registers env venv)
    (hop : a.code[start]? = some (plan.switch subject lowered miss))
    (hplaced : Placed a.code first (joinTo target lowered)) (hhas : type.Has e.types v)
    (hstores : m.Stores C.world.types p.registers (subject, type) v)
    (hmiss : C.world.interpreter.selectArm v (arms.map (·.pattern)) = .ok none →
      ∀ k ≤ n, ∀ m', Reaches p.registers e m miss e m' → C.Drives host ans k e m')
    (hpick : ∀ index bound x, C.world.interpreter.selectArm v (arms.map (·.pattern)) =
        .ok (some (index, bound)) → arms[index]? = some x → ∀ k ≤ n, ∀ m',
      C.InArm (x.pattern.Shows shown) depth l a p p' e m (venv.insertAll bound) (body x) target m' →
        C.Drives host ans k e m') : C.Drives host ans n e m := by
  obtain ⟨hlt, cv, hsub, hf⟩ := hstores
  obtain ⟨res, hres, hpicked, hsome⟩ := select hp hplan hat hhas hf
  have hstart : ∀ k, plan.pick cv = some k → (startOf lowered k).isSome := by
    intro k hk
    rw [hpicked] at hk
    obtain ⟨⟨k, bound⟩, rfl, rfl⟩ := Option.map_eq_some_iff.1 hk
    obtain ⟨x, hx, hreach, -⟩ := hsome k bound rfl
    have harm := harms k x (by rwa [Nat.zero_add]) hx
    rw [Nat.zero_add] at harm
    exact Option.isSome_iff_exists.2 harm.starts
  refine drives_next (hat.op hop) (Machine.run_switch hsub hstart) fun k hkn => ?_
  have goto : ∀ stop, Reaches p.registers e m stop e (m.goto stop) := fun stop =>
    ⟨.refl e, (Machine.Continues.refl _ m).goto stop, rfl⟩
  unfold MatchPlan.target
  rw [hpicked]
  cases res with
  | none => exact hmiss hres k (Nat.le_of_lt hkn) _ (goto miss)
  | some q =>
    obtain ⟨index, bound⟩ := q
    obtain ⟨x, hx, hreach, hreg, hb, htypes⟩ := hsome index bound rfl
    have harm := harms index x (by rwa [Nat.zero_add]) hx
    rw [Nat.zero_add] at harm
    obtain ⟨stop, hs⟩ := harm.starts
    simp only [Option.map_some, Option.bind_some, hs, Option.getD_some]
    refine arm_drives hl hp harm (hbody x) hle hchain hplaced hreg hb htypes hhas.1.ne_unknown hlt
      hsub hf hs (hat.reaches (goto stop) (Nat.le_refl _)) fun j hj m' hin => ?_
    obtain ⟨start', scope, code, returns, p₁, p₂, hp₁, hrun, hp₂, hcode, hreach', hat'⟩ := hin
    exact hpick index bound x hres hx j (by omega) m' ⟨start', scope, code, returns, p₁, p₂, hp₁, hrun,
      hp₂, hcode, (goto stop).trans hreach' (Nat.le_refl _), hat'⟩

end Lowered

end Comparison

end ShapeCompiler
