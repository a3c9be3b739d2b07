import ShapeCompiler.Proofs.Lowering.Arities
import ShapeCompiler.Proofs.Syntax

/-!
Where control goes in lowered code.

Main statement: from its first instruction on, the code of an artifact goes ahead until it returns and
reads what is assigned by then, and so it would from any other instruction (`Artifact.Compiled.covers`).
Each piece of code is followed from its end: what control finds behind an expression is what the arms of
a match around it jump to, and a block that always returns needs nothing behind it.
-/

namespace ShapeCompiler

open LoweredArm

/-- What every instruction of a body keeps to: it names registers that are handed out, writes none of
the first ones, and calls what takes its arguments. -/
structure Lowerer.Emits (l : Lowerer) (low : Nat) (P : Pool) (op : Op) : Prop where
  reads : ∀ r ∈ op.reads, r < P.registers
  writes : ∀ r ∈ op.writes, low ≤ r ∧ r < P.registers
  fits : op.Fits l.toTyping P.callSites P.hostSites l.signature

/-- The registers of the variables in scope are assigned, and what is assigned is handed out. -/
structure RegEnv.Assigned (env : RegEnv) (low : Nat) (p : Pool) (A : Set Reg) : Prop where
  low : low ≤ p.registers
  below : ∀ r ∈ A, r < p.registers
  holds : ∀ name r t, env.get? name = some (r, t) → r ∈ A

section Assigned

variable {env : RegEnv} {low : Nat} {p p' : Pool} {A B : Set Reg} {r : Reg}

theorem RegEnv.Assigned.grow (h : env.Assigned low p A) (hp : p.registers ≤ p'.registers) (hA : A ⊆ B)
    (hB : ∀ r ∈ B, r < p'.registers) : env.Assigned low p' B :=
  ⟨Nat.le_trans h.low hp, hB, fun name r t hr => hA (h.holds name r t hr)⟩

theorem RegEnv.Assigned.le (h : env.Assigned low p A) (hp : p.registers ≤ p'.registers) :
    env.Assigned low p' A :=
  h.grow hp (fun _ hr => hr) fun r hr => Nat.lt_of_lt_of_le (h.below r hr) hp

theorem RegEnv.Assigned.write (h : env.Assigned low p A) (hp : p.registers ≤ p'.registers)
    (hr : r < p'.registers) : env.Assigned low p' (insert r A) := by
  refine h.grow hp (Set.subset_insert r A) fun q hq => ?_
  rcases hq with rfl | hq
  · exact hr
  · exact Nat.lt_of_lt_of_le (h.below q hq) hp

theorem RegEnv.Assigned.bind (h : env.Assigned low p A) (hr : r ∈ A) (name : Ident) (t : StaticType) :
    RegEnv.Assigned (env.insert name (r, t)) low p A := by
  refine ⟨h.low, h.below, fun other q s hq => ?_⟩
  rw [Assoc.get?_insert] at hq
  split at hq
  · cases hq
    exact hr
  · exact h.holds other q s hq

end Assigned

namespace Lowerer

variable {l : Lowerer} {low : Nat} {p p' P : Pool} {code : Array Op} {env : RegEnv} {A B : Set Reg}
  {pc start finish : Nat} {subject dst : Reg} {type : StaticType} {op : Op} {args : List Reg}
  {lowered : List LoweredArm}

/-! ### Single instructions -/

theorem Emits.of_computes (hop : op.Computes args dst) (hargs : ∀ r ∈ args, r < P.registers)
    (hdst : low ≤ dst ∧ dst < P.registers)
    (hfits : op.Fits l.toTyping P.callSites P.hostSites l.signature) : l.Emits low P op := by
  refine ⟨fun r hr => hargs r (hop.reads ▸ hr), fun r hr => ?_, hfits⟩
  rw [hop.writes] at hr
  obtain rfl := List.mem_singleton.1 hr
  exact hdst

/-- An instruction that computes a value leaves it in its register. -/
theorem passes_computes (hat : code[pc]? = some op) (hop : op.Computes args dst)
    (hargs : ∀ r ∈ args, r ∈ A) (hemits : l.Emits low P op) :
    Passes code (l.Emits low P) A pc (pc + [op].length) (insert dst A) := by
  refine .single hat hemits (fun r hr => hargs r (hop.reads ▸ hr)) (hop.successors pc) ?_
  rw [hop.writes]
  exact Set.insert_subset (.inr List.mem_cons_self) Set.subset_union_left

/-- The next register is written by an instruction that reads assigned ones. -/
theorem passes_fresh (args : List Reg) (hat : Placed code pc [op]) (hop : op.Computes args p.registers)
    (hargs : ∀ r ∈ args, r ∈ A) (henv : env.Assigned low p A) (hP : p.registers < P.registers)
    (hfits : op.Fits l.toTyping P.callSites P.hostSites l.signature) :
    Passes code (l.Emits low P) A pc (pc + [op].length) (insert p.registers A) :=
  passes_computes (placed_singleton.1 hat) hop hargs
    (.of_computes hop (fun r hr => Nat.lt_trans (henv.below r (hargs r hr)) hP) ⟨henv.low, hP⟩ hfits)

theorem emits_jump (l : Lowerer) (low : Nat) (P : Pool) (target : Nat) :
    l.Emits low P (.jump target) :=
  ⟨nofun, nofun, trivial⟩

/-- A piece of code with a jump behind it to what control finds there. -/
theorem covers_jump {stop : Nat} (h : Passes code (l.Emits low P) A start stop B)
    (hat : Placed code stop [.jump finish]) (hlt : stop < finish)
    (hbehind : Forward code (l.Emits low P) B finish) :
    Covers code (l.Emits low P) A start (stop + 1) := by
  have hnext : ∀ next ∈ (Op.jump finish).successors stop, next = finish := fun _ =>
    List.mem_singleton.1
  refine h.covers (.jump (placed_singleton.1 hat) (emits_jump l low P finish) nofun ?_ ?_ ?_)
  · exact fun next hn => hnext next hn ▸ hlt
  · exact fun next hn => hnext next hn ▸ hbehind
  · exact fun q h₁ h₂ => absurd h₁ (by omega)

/-- A piece of code with a return behind it. -/
theorem covers_ret {stop : Nat} {src : Reg} (h : Passes code (l.Emits low P) A start stop B)
    (hat : Placed code stop [.ret src]) (hsrc : src ∈ B) (hP : src < P.registers) :
    Covers code (l.Emits low P) A start (stop + 1) := by
  have hemits : l.Emits low P (.ret src) :=
    ⟨fun r hr => List.mem_singleton.1 hr ▸ hP, nofun, trivial⟩
  refine h.covers (.jump (placed_singleton.1 hat) hemits ?_ nofun nofun ?_)
  · exact fun r hr => List.mem_singleton.1 hr ▸ hsrc
  · exact fun q h₁ h₂ => absurd h₁ (by omega)

/-! ### Matches -/

/-- Arms in their places: control goes ahead from the start of each of them, and so it would from any
of their instructions. -/
structure ArmsCover (code : Array Op) (good : Op → Prop) (A : Set Reg) (start : Nat)
    (arms : List LoweredArm) : Prop where
  entry : ∀ a ∈ arms, start ≤ a.start ∧ Forward code good A a.start
  inside : ∀ pc, start ≤ pc → pc < start + totalSize arms → Forward code good Set.univ pc

theorem armsCover_nil (code : Array Op) (good : Op → Prop) (A : Set Reg) (start : Nat) :
    ArmsCover code good A start [] :=
  ⟨nofun, fun _ hle hlt => absurd hle (Nat.not_le_of_lt hlt)⟩

theorem ArmsCover.cons {good : Op → Prop} {a : LoweredArm} {rest : List LoweredArm}
    (hstart : a.start = start) (ha : Covers code good A start (start + a.size))
    (hrest : ArmsCover code good A (start + a.size) rest) :
    ArmsCover code good A start (a :: rest) := by
  constructor
  · intro b hb
    rcases List.mem_cons.1 hb with rfl | hb
    · exact ⟨Nat.le_of_eq hstart.symm, hstart ▸ ha.entry⟩
    · obtain ⟨hle, hforward⟩ := hrest.entry b hb
      exact ⟨Nat.le_trans (Nat.le_add_right _ _) hle, hforward⟩
  · intro pc hle hlt
    rcases Nat.lt_or_ge pc (start + a.size) with hpc | hpc
    · exact ha.inside pc hle hpc
    · exact hrest.inside pc hpc (by rwa [totalSize, ← Nat.add_assoc] at hlt)

/-- The code of an arm stands in front of that of the arms behind it. -/
theorem placed_joinTo_cons {target : Nat} {a : LoweredArm} {rest : List LoweredArm} :
    Placed code start (joinTo target (a :: rest)) ↔
      (Placed code start a.code ∧
        Placed code (start + a.code.length) (if a.exits then [.jump target] else [])) ∧
      Placed code (start + a.size) (joinTo target rest) := by
  have hsize : (a.code ++ if a.exits then [Op.jump target] else []).length = a.size := by
    rw [List.length_append, size]
    split <;> rfl
  show Placed code start ((a.code ++ if a.exits then [Op.jump target] else []) ++ joinTo target rest) ↔ _
  rw [placed_append, placed_append, hsize]

theorem mem_of_startOf {index : Nat} (h : startOf lowered index = some start) :
    ∃ a ∈ lowered, a.start = start := by
  obtain ⟨a, ha, rfl⟩ := Option.map_eq_some_iff.1 h
  exact ⟨a, List.mem_of_find?_eq_some ha, rfl⟩

/-- The instruction that picks an arm goes to the start of one, or where there is none. -/
theorem switch_successors {plan : MatchPlan} {miss next : Nat}
    (h : next ∈ (plan.switch subject lowered miss).successors pc) :
    next = miss ∨ ∃ a ∈ lowered, a.start = next := by
  have hgetD : ∀ {found : Option Nat} {other : Nat}, (∀ start, found = some start →
      ∃ a ∈ lowered, a.start = start) → (other = miss ∨ ∃ a ∈ lowered, a.start = other) →
      found.getD other = miss ∨ ∃ a ∈ lowered, a.start = found.getD other := by
    intro found other hfound hother
    cases found with
    | none => exact hother
    | some start => exact .inr (hfound start rfl)
  have hdefault : (plan.default.bind (startOf lowered)).getD miss = miss ∨
      ∃ a ∈ lowered, a.start = (plan.default.bind (startOf lowered)).getD miss :=
    hgetD (fun start hs => by
      obtain ⟨index, -, hi⟩ := Option.bind_eq_some_iff.1 hs
      exact mem_of_startOf hi) (.inl rfl)
  have htarget := fun index => hgetD (fun start (hs : startOf lowered index = some start) =>
    mem_of_startOf hs) hdefault
  unfold MatchPlan.switch at h
  cases hdispatch : plan.dispatch with
  | tags id table =>
    simp only [hdispatch] at h
    rcases List.mem_cons.1 h with rfl | h
    · exact hdefault
    · obtain ⟨arm, -, rfl⟩ := List.mem_map.1 h
      cases arm with
      | none => exact hdefault
      | some index => exact htarget index
  | scalars cases' =>
    simp only [hdispatch] at h
    rcases List.mem_cons.1 h with rfl | h
    · exact hdefault
    · obtain ⟨_, hcase, rfl⟩ := List.mem_map.1 h
      obtain ⟨⟨n, index⟩, -, rfl⟩ := List.mem_map.1 hcase
      exact htarget index
  | direct =>
    simp only [hdispatch] at h
    obtain rfl := List.mem_singleton.1 h
    exact hdefault

theorem emits_switch (l : Lowerer) (low : Nat) {plan : MatchPlan} {miss : Nat}
    (hP : subject < P.registers) : l.Emits low P (plan.switch subject lowered miss) := by
  have hsubject : ∀ r ∈ [subject], r < P.registers := fun r hr => List.mem_singleton.1 hr ▸ hP
  unfold MatchPlan.switch
  cases plan.dispatch with
  | direct => exact ⟨nofun, nofun, trivial⟩
  | _ => exact ⟨hsubject, nofun, trivial⟩

theorem switch_reads {plan : MatchPlan} {miss : Nat} :
    ∀ r ∈ (plan.switch subject lowered miss).reads, r = subject := by
  unfold MatchPlan.switch
  cases plan.dispatch with
  | direct => exact nofun
  | _ => exact fun _ => List.mem_singleton.1

/-- A match with its arms, and what control finds where no arm matches. -/
theorem covers_switch {plan : MatchPlan} {miss : Nat}
    (hat : Placed code pc [plan.switch subject lowered miss]) (hsubject : subject ∈ A)
    (henv : env.Assigned low p A) (hP : p.registers ≤ P.registers)
    (harms : ArmsCover code (l.Emits low P) A (pc + 1) lowered) (hlt : pc < miss)
    (hmiss : Forward code (l.Emits low P) A miss) :
    Covers code (l.Emits low P) A pc (pc + 1 + totalSize lowered) := by
  have hemits : l.Emits low P (plan.switch subject lowered miss) := emits_switch l low
    (Nat.lt_of_lt_of_le (henv.below subject hsubject) hP)
  refine .jump (placed_singleton.1 hat) hemits (fun r hr => switch_reads r hr ▸ hsubject) ?_ ?_ ?_
  · intro next hn
    rcases switch_successors hn with rfl | ⟨a, ha, rfl⟩
    · exact hlt
    · exact (harms.entry a ha).1
  · intro next hn
    rcases switch_successors hn with rfl | ⟨a, ha, rfl⟩
    · exact hmiss
    · exact (harms.entry a ha).2
  · exact fun q h₁ h₂ => harms.inside q h₁ h₂

/-! ### Patterns -/

theorem bindFields_assigned {binders : List Binder} {fields fields' : List (Reg × FieldAccess)}
    {env' : RegEnv} (h : (bindFields subject env fields binders).run p = .ok ((env', fields'), p'))
    (henv : env.Assigned low p A) (hsubject : subject ∈ A) :
    ∃ more, fields' = fields ++ more ∧ (∀ r ∈ more.map Prod.fst, low ≤ r) ∧
      env'.Assigned low p' (A ∪ {r | r ∈ more.map Prod.fst}) := by
  induction binders generalizing env fields p A with
  | nil =>
    rw [bindFields] at h
    obtain ⟨h, rfl⟩ := run_pure_eq_ok.1 h
    cases h
    exact ⟨[], by simp, List.forall_mem_nil _, by simpa using henv⟩
  | cons b rest ih =>
    obtain ⟨name, t, access⟩ := b
    cases access with
    | none =>
      rw [bindFields] at h
      exact ih h (henv.bind hsubject name t) hsubject
    | some access =>
      rw [bindFields] at h
      obtain ⟨r, p₁, hr, h⟩ := run_bind_eq_ok.1 h
      obtain ⟨rfl, rfl⟩ := Pool.run_fresh hr
      have hwritten := henv.write (Pool.le_fresh p).registers (Nat.lt_succ_self p.registers)
      obtain ⟨more, hmore, hlow, hassigned⟩ :=
        ih h (hwritten.bind (Set.mem_insert _ _) name t) (.inr hsubject)
      have hset : insert p.registers A ∪ {r | r ∈ more.map Prod.fst} =
          A ∪ {r | r ∈ ((p.registers, access) :: more).map Prod.fst} := by
        ext r
        simp only [Set.mem_union, Set.mem_insert_iff, Set.mem_ofPred_eq, List.map_cons, List.mem_cons]
        tauto
      refine ⟨(p.registers, access) :: more, by rw [hmore, List.append_assoc]; rfl, ?_, hset ▸ hassigned⟩
      intro r hr
      rcases List.mem_cons.1 hr with rfl | hr
      · exact henv.low
      · exact hlow r hr

/-- What an arm binds is assigned when its body begins. -/
theorem bindPattern_passes {scope : RegEnv} {pattern : Pattern} {unpack : List Op}
    (h : (l.bindPattern env pattern subject type).run p = .ok ((scope, unpack), p')) (hP : p'.Le P)
    (henv : env.Assigned low p A) (hsubject : subject ∈ A) (hat : Placed code start unpack) :
    ∃ B, A ⊆ B ∧ scope.Assigned low p' B ∧
      Passes code (l.Emits low P) A start (start + unpack.length) B := by
  unfold bindPattern at h
  obtain ⟨⟨scope', fields⟩, p₁, hbind, h⟩ := run_bind_eq_ok.1 h
  obtain ⟨h, rfl⟩ := run_pure_eq_ok.1 h
  cases h
  obtain ⟨more, hmore, hlow, hassigned⟩ := bindFields_assigned hbind henv hsubject
  cases hmore
  refine ⟨_, Set.subset_union_left, hassigned, ?_⟩
  cases more with
  | nil => exact (Passes.refl code _ A start).mono (fun _ h => h) (by simp)
  | cons f rest =>
    have hregs : ∀ {r}, r < p₁.registers → r < P.registers := fun hr =>
      Nat.lt_of_lt_of_le hr hP.registers
    refine .single (placed_singleton.1 hat) ⟨fun r hr => ?_, fun r hr => ⟨hlow r hr, ?_⟩, trivial⟩
      (fun r hr => ?_) rfl (fun r hr => hr)
    · obtain rfl := List.mem_singleton.1 hr
      exact hregs (hassigned.below r (.inl hsubject))
    · exact hregs (hassigned.below r (.inr hr))
    · exact List.mem_singleton.1 hr ▸ hsubject

/-! ### Expressions -/

/-- The code of an expression leaves its value in the register for it. -/
abbrev ExprPasses (l : Lowerer) (low : Nat) (P : Pool) (code : Array Op) (e : Expr) : Prop :=
  ∀ {start env p x p' A}, (l.expr start env e).run p = .ok (x, p') → p'.Le P →
    RegEnv.Assigned env low p A → Placed code start x.code →
    x.reg < p'.registers ∧
      Passes code (l.Emits low P) A start (start + x.code.length) (insert x.reg A)

theorem exprs_passes {es : List Expr} (ih : ∀ e ∈ es, l.ExprPasses low P code e) {as : LoweredArgs}
    (h : (l.exprs start env es).run p = .ok (as, p')) (hP : p'.Le P) (henv : env.Assigned low p A)
    (hat : Placed code start as.code) :
    (∀ r ∈ as.args.map Prod.fst, r < p'.registers) ∧
      Passes code (l.Emits low P) A start (start + as.code.length)
        (A ∪ {r | r ∈ as.args.map Prod.fst}) := by
  induction es generalizing start p as A with
  | nil =>
    rw [exprs] at h
    obtain ⟨rfl, rfl⟩ := run_pure_eq_ok.1 h
    exact ⟨List.forall_mem_nil _, (Passes.refl code _ A start).mono (fun _ h => h) (by simp)⟩
  | cons e rest ihs =>
    rw [exprs] at h
    obtain ⟨a, p₁, ha, h⟩ := run_bind_eq_ok.1 h
    obtain ⟨as', p₂, has, h⟩ := run_bind_eq_ok.1 h
    obtain ⟨rfl, rfl⟩ := run_pure_eq_ok.1 h
    obtain ⟨hata, hatas⟩ := placed_append.1 hat
    have hle := exprs_increasing rest _ _ _ _ _ has
    obtain ⟨hreg, hpass⟩ := ih e (by simp) ha (Pool.le_ordered.trans hle hP) henv hata
    have hwritten := henv.write (expr_increasing e _ _ _ _ _ ha).registers hreg
    obtain ⟨hregs, hrest⟩ := ihs (fun x hx => ih x (List.mem_cons_of_mem _ hx)) has hwritten hatas
    refine ⟨fun r hr => ?_, ?_⟩
    · rcases List.mem_cons.1 hr with rfl | hr
      · exact Nat.lt_of_lt_of_le hreg hle.registers
      · exact hregs r hr
    · rw [List.length_append, ← Nat.add_assoc]
      refine (hpass.trans hrest).mono (fun _ h => h) fun r hr => ?_
      simp only [Set.mem_union, Set.mem_insert_iff, Set.mem_ofPred_eq, List.map_cons, List.mem_cons] at hr ⊢
      tauto

/-- The arms of a match leave their values in the register of the match. -/
theorem exprArms_cover {arms : List (Arm Expr)} (ih : ∀ a ∈ arms, l.ExprPasses low P code a.body)
    {index : Nat} {joined t : StaticType} {reachable : List Nat}
    (h : (l.exprArms start env subject type dst reachable index joined arms).run p =
      .ok ((t, lowered), p')) (hP : p'.Le P) (henv : env.Assigned low p A) (hsubject : subject ∈ A)
    (hdst : low ≤ dst ∧ dst < P.registers) (hat : Placed code start (joinTo finish lowered))
    (hle : start + totalSize lowered ≤ finish)
    (hbehind : Forward code (l.Emits low P) (insert dst A) finish) :
    ArmsCover code (l.Emits low P) A start lowered := by
  induction arms generalizing start index joined p lowered with
  | nil =>
    rw [exprArms] at h
    obtain ⟨h, rfl⟩ := run_pure_eq_ok.1 h
    cases h
    exact armsCover_nil code _ A start
  | cons arm rest ihs =>
    have ihr : ∀ a ∈ rest, l.ExprPasses low P code a.body := fun a ha => ih a (List.mem_cons_of_mem _ ha)
    rw [exprArms] at h
    split at h
    · obtain ⟨⟨scope, unpack⟩, p₁, hbind, h⟩ := run_bind_eq_ok.1 h
      obtain ⟨b, p₂, hb, h⟩ := run_bind_eq_ok.1 h
      obtain ⟨joined', p₃, hlift, h⟩ := run_bind_eq_ok.1 h
      obtain ⟨-, rfl⟩ := run_lift_eq_ok.1 hlift
      obtain ⟨⟨t', arms'⟩, p₄, hrest, h⟩ := run_bind_eq_ok.1 h
      obtain ⟨h, rfl⟩ := run_pure_eq_ok.1 h
      cases h
      obtain ⟨⟨hatcode, hatjump⟩, hatrest⟩ := placed_joinTo_cons.1 hat
      obtain ⟨hatfront, hatmove⟩ := placed_append.1 hatcode
      obtain ⟨hatunpack, hatbody⟩ := placed_append.1 hatfront
      have hP₂ := Pool.le_ordered.trans (exprArms_increasing rest _ _ _ _ _ _ hrest) hP
      have hle₁ := bindPattern_increasing _ _ _ _ _ _ _ hbind
      have hle₂ := expr_increasing arm.body _ _ _ _ _ hb
      obtain ⟨B, hAB, hscope, hunpack⟩ :=
        bindPattern_passes hbind (Pool.le_ordered.trans hle₂ hP₂) henv hsubject hatunpack
      obtain ⟨hreg, hbody⟩ := ih arm (by simp) hb hP₂ hscope hatbody
      have hmove : (Op.move dst b.reg).Computes [b.reg] dst := ⟨rfl, rfl, rfl, fun _ => rfl⟩
      have hpass := passes_computes (A := insert b.reg B) (placed_singleton.1 hatmove) hmove
        (fun r hr => .inl (List.mem_singleton.1 hr)) (.of_computes (l := l) hmove
          (fun r hr => List.mem_singleton.1 hr ▸ Nat.lt_of_lt_of_le hreg hP₂.registers) hdst trivial)
      have hwhole := (hunpack.append hbody).append hpass
      rw [totalSize, ← Nat.add_assoc] at hle
      have hcover := covers_jump hwhole hatjump (Nat.le_trans (Nat.le_add_right _ _) hle)
        (hbehind.mono (Set.insert_subset_insert (hAB.trans (Set.subset_insert _ _))))
      have hbefore := henv.le (hle₁.registers.trans hle₂.registers)
      exact .cons rfl hcover (ihs ihr hrest hbefore hatrest hle)
    · exact ihs ihr h henv hat hle

theorem expr_passes_binary {op : Operator} {lhs rhs : Expr} (ihl : l.ExprPasses low P code lhs)
    (ihr : l.ExprPasses low P code rhs) :
    l.ExprPasses low P code (.binary op lhs rhs) := by
  intro start env p x p' A h hP henv hat
  rw [expr] at h
  obtain ⟨a, p₁, ha, h⟩ := run_bind_eq_ok.1 h
  obtain ⟨b, p₂, hb, h⟩ := run_bind_eq_ok.1 h
  obtain ⟨t, p₃, hlift, h⟩ := run_bind_eq_ok.1 h
  obtain ⟨-, rfl⟩ := run_lift_eq_ok.1 hlift
  obtain ⟨dst, p₄, hdst, h⟩ := run_bind_eq_ok.1 h
  obtain ⟨rfl, rfl⟩ := Pool.run_fresh hdst
  obtain ⟨rfl, rfl⟩ := run_pure_eq_ok.1 h
  obtain ⟨hatboth, hatop⟩ := placed_append.1 hat
  obtain ⟨hata, hatb⟩ := placed_append.1 hatboth
  have hle₂ := expr_increasing rhs _ _ _ _ _ hb
  have hP₂ := Pool.le_ordered.trans (Pool.le_fresh p₂) hP
  obtain ⟨hrega, hpassa⟩ := ihl ha (Pool.le_ordered.trans hle₂ hP₂) henv hata
  have henva := henv.write (expr_increasing lhs _ _ _ _ _ ha).registers hrega
  obtain ⟨hregb, hpassb⟩ := ihr hb hP₂ henva hatb
  have hop : (Op.binary p₂.registers op ((t.known?.map l.scalarBits).getD l.defaultBits) a.reg
      b.reg).Computes [a.reg, b.reg] p₂.registers := ⟨rfl, rfl, rfl, fun _ => rfl⟩
  have hpassop := passes_fresh _ (l := l) hatop hop (by simp) (henva.write hle₂.registers hregb)
    hP.registers trivial
  exact ⟨Nat.lt_succ_self _, ((hpassa.append hpassb).append hpassop).mono subset_rfl
    (Set.insert_subset_insert ((Set.subset_insert _ _).trans (Set.subset_insert _ _)))⟩

theorem expr_passes_call {name : Ident} {args : List Expr} (ih : ∀ x ∈ args, l.ExprPasses low P code x) :
    l.ExprPasses low P code (.call name args) := by
  intro start env p x p' A h hP henv hat
  rw [expr] at h
  obtain ⟨as, p₁, has, h⟩ := run_bind_eq_ok.1 h
  obtain ⟨c, p₂, hc, h⟩ := run_bind_eq_ok.1 h
  obtain ⟨rfl, rfl⟩ := run_pure_eq_ok.1 h
  obtain ⟨hatargs, hatop⟩ := placed_append.1 hat
  obtain ⟨op, hcode, hop, hfits⟩ := run_call_op hc
  obtain ⟨hreg, -, hnext⟩ := run_call hc
  have hle := call_increasing _ _ _ _ _ hc
  obtain ⟨hregs, hpass⟩ := exprs_passes ih has (Pool.le_ordered.trans hle hP) henv hatargs
  have hlt : p₁.registers < p₂.registers := by omega
  have henvargs := henv.grow (exprs_increasing args _ _ _ _ _ has).registers Set.subset_union_left
    fun r hr => hr.elim (fun hr => Nat.lt_of_lt_of_le (henv.below r hr)
      (exprs_increasing args _ _ _ _ _ has).registers) (hregs r)
  rw [hcode] at hatop ⊢
  rw [hreg] at hop ⊢
  have hpassop := passes_fresh _ (A := A ∪ {r | r ∈ as.args.map Prod.fst}) hatop hop
    (fun r hr => .inr hr) henvargs (Nat.lt_of_lt_of_le hlt hP.registers) (hfits.le hP)
  exact ⟨hlt, (hpass.append hpassop).mono subset_rfl (Set.insert_subset_insert Set.subset_union_left)⟩

theorem expr_passes_field {subject : Expr} {name : Ident} (ih : l.ExprPasses low P code subject) :
    l.ExprPasses low P code (.field subject name) := by
  intro start env p x p' A h hP henv hat
  rw [expr] at h
  obtain ⟨s, p₁, hs, h⟩ := run_bind_eq_ok.1 h
  obtain ⟨⟨t, location⟩, p₂, hlift, h⟩ := run_bind_eq_ok.1 h
  obtain ⟨-, rfl⟩ := run_lift_eq_ok.1 hlift
  obtain ⟨dst, p₃, hdst, h⟩ := run_bind_eq_ok.1 h
  obtain ⟨rfl, rfl⟩ := Pool.run_fresh hdst
  obtain ⟨rfl, rfl⟩ := run_pure_eq_ok.1 h
  obtain ⟨hats, hatop⟩ := placed_append.1 hat
  obtain ⟨hreg, hpass⟩ := ih hs (Pool.le_ordered.trans (Pool.le_fresh p₁) hP) henv hats
  have henvs := henv.write (expr_increasing subject _ _ _ _ _ hs).registers hreg
  have hpassop := passes_fresh [s.reg] (l := l) hatop ⟨rfl, rfl, rfl, fun _ => rfl⟩
    (by simp) henvs hP.registers trivial
  exact ⟨Nat.lt_succ_self _, (hpass.append hpassop).mono subset_rfl
    (Set.insert_subset_insert (Set.subset_insert _ _))⟩

theorem expr_passes_branch {subject : Expr} {arms : List (Arm Expr)} (ihs : l.ExprPasses low P code subject)
    (iha : ∀ a ∈ arms, l.ExprPasses low P code a.body) :
    l.ExprPasses low P code (.branch subject arms) := by
  intro start env p x p' A h hP henv hat
  obtain ⟨s, p₁, plan, t, lowered, t', hs, -, harms, -, rfl⟩ := run_branch h
  have hlearms := exprArms_increasing arms _ _ _ _ _ _ harms
  have hP₁ := Pool.le_ordered.trans (Pool.le_fresh p₁) (Pool.le_ordered.trans hlearms hP)
  have hdst : p₁.registers < P.registers := Nat.lt_of_lt_of_le hlearms.registers hP.registers
  obtain ⟨hats, hatswitch, hatarms, hatmiss⟩ := placed_match.1 hat
  obtain ⟨hreg, hpass⟩ := ihs hs hP₁ henv hats
  have henvs := henv.write (expr_increasing subject _ _ _ _ _ hs).registers hreg
  refine ⟨Nat.lt_of_succ_le hlearms.registers, fun hbehind => ?_⟩
  rw [List.length_append, ← Nat.add_assoc, length_match] at hbehind ⊢
  have hbehind' : Forward code (l.Emits low P) (insert p₁.registers (insert s.reg A)) _ :=
    hbehind.mono (Set.insert_subset_insert (Set.subset_insert _ _))
  have hpassmiss := passes_fresh [] (l := l) hatmiss ⟨rfl, rfl, rfl, fun _ => rfl⟩
    (List.forall_mem_nil _) henvs hdst trivial hbehind'
  have harmscover := exprArms_cover iha harms hP (henvs.le (Nat.le_succ _)) (.inl rfl)
    ⟨henvs.low, hdst⟩ hatarms (Nat.le_succ _) hbehind'
  have hcover := covers_switch hatswitch (.inl rfl) henvs hP₁.registers harmscover (by omega)
    hpassmiss.entry
  exact hpass.covers (hcover.append hpassmiss)

theorem expr_passes (e : Expr) : l.ExprPasses low P code e := by
  induction e using Expr.ind with
  | lit n =>
    intro start env p x p' A h hP henv hat
    rw [expr] at h
    obtain ⟨dst, p₁, hdst, h⟩ := run_bind_eq_ok.1 h
    obtain ⟨rfl, rfl⟩ := Pool.run_fresh hdst
    obtain ⟨rfl, rfl⟩ := run_pure_eq_ok.1 h
    exact ⟨Nat.lt_succ_self _, passes_fresh [] hat ⟨rfl, rfl, rfl, fun _ => rfl⟩
      (List.forall_mem_nil _) henv hP.registers trivial⟩
  | var name =>
    intro start env p x p' A h hP henv hat
    rw [expr] at h
    split at h
    · rename_i r t hr
      obtain ⟨rfl, rfl⟩ := run_pure_eq_ok.1 h
      have hmem := henv.holds name r t hr
      refine ⟨henv.below r hmem, (Passes.refl code _ A start).mono (fun _ h => h) ?_⟩
      exact Set.insert_subset hmem fun _ h => h
    · exact absurd h run_throw_ne_ok
  | binary op lhs rhs ihl ihr => exact expr_passes_binary ihl ihr
  | call name args ih => exact expr_passes_call ih
  | field subject name ih => exact expr_passes_field ih
  | branch subject arms ihs iha => exact expr_passes_branch ihs iha
  | incomplete =>
    intro start env p x p' A h hP henv hat
    rw [expr] at h
    obtain ⟨dst, p₁, hdst, h⟩ := run_bind_eq_ok.1 h
    obtain ⟨rfl, rfl⟩ := Pool.run_fresh hdst
    obtain ⟨rfl, rfl⟩ := run_pure_eq_ok.1 h
    exact ⟨Nat.lt_succ_self _, passes_fresh [] hat ⟨rfl, rfl, rfl, fun _ => rfl⟩
      (List.forall_mem_nil _) henv hP.registers trivial⟩

/-! ### Blocks -/

/-- The code of a block goes on behind its end, if it does not always return. -/
abbrev BlockCovers (l : Lowerer) (low : Nat) (P : Pool) (code : Array Op) (stmts : List Stmt) : Prop :=
  ∀ {start env p ops returns p' A}, (l.block start env stmts).run p = .ok ((ops, returns), p') →
    p'.Le P → RegEnv.Assigned env low p A → Placed code start ops →
    (returns = false → Forward code (l.Emits low P) A (start + ops.length)) →
    Covers code (l.Emits low P) A start (start + ops.length)

theorem blockArms_cover {arms : List (Arm (List Stmt))}
    (ih : ∀ a ∈ arms, l.BlockCovers low P code a.body) {index : Nat} {reachable : List Nat}
    (h : (l.blockArms start env subject type reachable index arms).run p = .ok (lowered, p'))
    (hP : p'.Le P) (henv : env.Assigned low p A) (hsubject : subject ∈ A)
    (hat : Placed code start (joinTo finish lowered)) (hle : start + totalSize lowered ≤ finish)
    (hbehind : Forward code (l.Emits low P) A finish) :
    ArmsCover code (l.Emits low P) A start lowered := by
  induction arms generalizing start index p lowered with
  | nil =>
    rw [blockArms] at h
    obtain ⟨rfl, rfl⟩ := run_pure_eq_ok.1 h
    exact armsCover_nil code _ A start
  | cons arm rest ihs =>
    have ihr : ∀ a ∈ rest, l.BlockCovers low P code a.body := fun a ha => ih a (List.mem_cons_of_mem _ ha)
    rw [blockArms] at h
    split at h
    · obtain ⟨⟨scope, unpack⟩, p₁, hbind, h⟩ := run_bind_eq_ok.1 h
      obtain ⟨⟨ops, returns⟩, p₂, hb, h⟩ := run_bind_eq_ok.1 h
      obtain ⟨arms', p₃, hrest, h⟩ := run_bind_eq_ok.1 h
      obtain ⟨rfl, rfl⟩ := run_pure_eq_ok.1 h
      obtain ⟨⟨hatcode, hatjump⟩, hatrest⟩ := placed_joinTo_cons.1 hat
      obtain ⟨hatunpack, hatbody⟩ := placed_append.1 hatcode
      have hP₂ := Pool.le_ordered.trans (blockArms_increasing rest _ _ _ _ _ hrest) hP
      have hle₁ := bindPattern_increasing _ _ _ _ _ _ _ hbind
      have hle₂ := block_increasing arm.body _ _ _ _ _ hb
      obtain ⟨B, hAB, hscope, hunpack⟩ :=
        bindPattern_passes hbind (Pool.le_ordered.trans hle₂ hP₂) henv hsubject hatunpack
      have hbody := ih arm (by simp) hb hP₂ hscope hatbody
      rw [totalSize, ← Nat.add_assoc] at hle
      refine .cons rfl ?_ (ihs ihr hrest (henv.le (hle₁.registers.trans hle₂.registers)) hatrest hle)
      cases returns with
      | true =>
        have hcover := hunpack.covers (hbody fun h => by cases h)
        rwa [Nat.add_assoc, ← List.length_append] at hcover
      | false =>
        have hpass := hunpack.append fun hstop => hbody fun _ => hstop
        exact covers_jump hpass hatjump (Nat.le_trans (Nat.le_add_right _ _) hle) (hbehind.mono hAB)
    · exact ihs ihr h henv hat hle

theorem block_covers (stmts : List Stmt) : l.BlockCovers low P code stmts := by
  induction stmts using Block.ind with
  | nil =>
    intro start env p ops returns p' A h hP henv hat hbehind
    rw [block] at h
    obtain ⟨h, rfl⟩ := run_pure_eq_ok.1 h
    cases h
    exact Passes.refl code _ A start (hbehind rfl)
  | assign name value rest ih =>
    intro start env p ops returns p' A h hP henv hat hbehind
    rw [block] at h
    obtain ⟨v, p₁, hv, h⟩ := run_bind_eq_ok.1 h
    obtain ⟨⟨ops', returns'⟩, p₂, hrest, h⟩ := run_bind_eq_ok.1 h
    obtain ⟨h, rfl⟩ := run_pure_eq_ok.1 h
    cases h
    obtain ⟨hatv, hatrest⟩ := placed_append.1 hat
    have hle := block_increasing rest _ _ _ _ _ hrest
    obtain ⟨hreg, hpass⟩ := expr_passes value hv (Pool.le_ordered.trans hle hP) henv hatv
    have henvv := henv.write (expr_increasing value _ _ _ _ _ hv).registers hreg
    rw [List.length_append, ← Nat.add_assoc] at hbehind ⊢
    exact hpass.covers (ih hrest hP (henvv.bind (.inl rfl) name v.type) hatrest fun hr =>
      (hbehind hr).mono (Set.subset_insert _ _))
  | ret value rest =>
    intro start env p ops returns p' A h hP henv hat hbehind
    rw [block] at h
    obtain ⟨v, p₁, hv, h⟩ := run_bind_eq_ok.1 h
    obtain ⟨h, rfl⟩ := run_pure_eq_ok.1 h
    cases h
    obtain ⟨hatv, hatret⟩ := placed_append.1 hat
    obtain ⟨hreg, hpass⟩ := expr_passes value hv hP henv hatv
    rw [List.length_append, ← Nat.add_assoc]
    exact covers_ret hpass hatret (.inl rfl) (Nat.lt_of_lt_of_le hreg hP.registers)
  | eval value rest ih =>
    intro start env p ops returns p' A h hP henv hat hbehind
    rw [block] at h
    obtain ⟨v, p₁, hv, h⟩ := run_bind_eq_ok.1 h
    obtain ⟨⟨ops', returns'⟩, p₂, hrest, h⟩ := run_bind_eq_ok.1 h
    obtain ⟨h, rfl⟩ := run_pure_eq_ok.1 h
    cases h
    obtain ⟨hatv, hatrest⟩ := placed_append.1 hat
    have hle := block_increasing rest _ _ _ _ _ hrest
    obtain ⟨hreg, hpass⟩ := expr_passes value hv (Pool.le_ordered.trans hle hP) henv hatv
    have henvv := henv.write (expr_increasing value _ _ _ _ _ hv).registers hreg
    rw [List.length_append, ← Nat.add_assoc] at hbehind ⊢
    exact hpass.covers (ih hrest hP henvv hatrest fun hr => (hbehind hr).mono (Set.subset_insert _ _))
  | branch subject arms rest iha ih =>
    intro start env p ops returns p' A h hP henv hat hbehind
    rw [block] at h
    obtain ⟨s, p₁, hs, h⟩ := run_bind_eq_ok.1 h
    obtain ⟨plan, p₂, hlift, h⟩ := run_bind_eq_ok.1 h
    obtain ⟨-, rfl⟩ := run_lift_eq_ok.1 hlift
    obtain ⟨lowered, p₃, harms, h⟩ := run_bind_eq_ok.1 h
    obtain ⟨⟨ops', returns'⟩, p₄, hrest, h⟩ := run_bind_eq_ok.1 h
    obtain ⟨h, rfl⟩ := run_pure_eq_ok.1 h
    cases h
    have hlerest := block_increasing rest _ _ _ _ _ hrest
    have hlearms := blockArms_increasing arms _ _ _ _ _ harms
    have hP₃ := Pool.le_ordered.trans hlerest hP
    have hP₁ := Pool.le_ordered.trans hlearms hP₃
    obtain ⟨hats, hatswitch, hatarms, hatrest⟩ := placed_match.1 hat
    obtain ⟨hreg, hpass⟩ := expr_passes subject hs hP₁ henv hats
    have henvs := henv.write (expr_increasing subject _ _ _ _ _ hs).registers hreg
    rw [List.length_append, ← Nat.add_assoc, length_match] at hbehind ⊢
    have hrestcover := ih hrest hP (henvs.le hlearms.registers) hatrest fun hr =>
      (hbehind hr).mono (Set.subset_insert _ _)
    have harmscover := blockArms_cover iha harms hP₃ henvs (.inl rfl) hatarms (Nat.le_refl _)
      hrestcover.entry
    have hcover := covers_switch hatswitch (.inl rfl) henvs hP₁.registers harmscover (by omega)
      hrestcover.entry
    exact hpass.covers (hcover.append hrestcover)
  | loop condition body rest ihb ih =>
    intro start env p ops returns p' A h hP henv hat hbehind
    rw [block] at h
    exact absurd h run_throw_ne_ok

/-! ### Bodies -/

structure Parameters (p p' : Pool) (env env' : RegEnv) (params : List (Ident × TypeId)) : Prop where
  pool : p' = { p with registers := p.registers + params.length }
  /-- Of parameters with one name the last one is in scope. -/
  places : ∀ k name t, params[k]? = some (name, t) → name ∉ (params.drop (k + 1)).map Prod.fst →
    env'.get? name = some (p.registers + k, .known t)
  others : ∀ name, name ∉ params.map Prod.fst → env'.get? name = env.get? name
  registers : ∀ name r t, env'.get? name = some (r, t) →
    env.get? name = some (r, t) ∨ p.registers ≤ r ∧ r < p.registers + params.length

theorem run_bindParams_registers {params : List (Ident × TypeId)} {env' : RegEnv}
    (h : (bindParams env params).run p = .ok (env', p')) : Parameters p p' env env' params := by
  induction params generalizing env p with
  | nil =>
    rw [bindParams] at h
    obtain ⟨rfl, rfl⟩ := run_pure_eq_ok.1 h
    exact ⟨rfl, by simp, fun _ _ => rfl, fun _ _ _ hr => .inl hr⟩
  | cons param rest ih =>
    obtain ⟨first, t₀⟩ := param
    rw [bindParams] at h
    obtain ⟨reg, p₁, hreg, h⟩ := run_bind_eq_ok.1 h
    obtain ⟨rfl, rfl⟩ := Pool.run_fresh hreg
    obtain ⟨hpool, hplaces, hothers, hregisters⟩ := ih h
    refine ⟨?_, ?_, ?_, ?_⟩
    · rw [hpool, List.length_cons, Nat.add_assoc, Nat.add_comm 1]
    · intro k name t hk hlast
      cases k with
      | zero =>
        cases hk
        rw [hothers first hlast, Assoc.get?_insert_self]
        rfl
      | succ k =>
        rw [hplaces k name t hk hlast, Nat.add_assoc, Nat.add_comm 1]
    · intro name hname
      obtain ⟨hne, hrest⟩ := not_or.1 (List.mem_cons.not.1 hname)
      rw [hothers name hrest, Assoc.get?_insert, if_neg (Ne.symm hne)]
    · intro name r t hr
      rw [List.length_cons]
      rcases hregisters name r t hr with hr | ⟨hle, hlt⟩
      · rw [Assoc.get?_insert] at hr
        split at hr
        · cases hr
          exact .inr ⟨Nat.le_refl _, Nat.lt_add_of_pos_right (Nat.succ_pos _)⟩
        · exact .inl hr
      · refine .inr ⟨Nat.le_of_succ_le hle, ?_⟩
        rwa [Nat.add_assoc, Nat.add_comm 1] at hlt

/-- The code of a body returns on every way, and reads what is assigned by then. -/
theorem body_covers {ops : List Op} (h : l.body.run {} = .ok (ops, P))
    (harity : l.definition.arity = l.signature.args.length) (hat : Placed code 0 ops) :
    Covers code (l.Emits l.signature.args.length P) (Set.Iio l.signature.args.length) 0 ops.length := by
  unfold body at h
  obtain ⟨env, p₁, hparams, h⟩ := run_bind_eq_ok.1 h
  obtain ⟨rfl, -, -, hregisters⟩ := run_bindParams_registers hparams
  obtain ⟨⟨ops', returns⟩, p₂, hblock, h⟩ := run_bind_eq_ok.1 h
  have hlen : (l.definition.params.zip l.signature.args).length = l.signature.args.length := by
    rw [List.length_zip, ← harity]
    exact Nat.min_self _
  rw [hlen] at hblock hregisters
  have henv : RegEnv.Assigned env l.signature.args.length
      { registers := ({} : Pool).registers + l.signature.args.length } (Set.Iio l.signature.args.length) := by
    refine ⟨Nat.le_add_left _ _, fun r hr => Nat.lt_of_lt_of_le hr (Nat.le_add_left _ _), ?_⟩
    intro name r t hr
    rcases hregisters name r t hr with hr | ⟨-, hlt⟩
    · cases hr
    · rwa [Nat.zero_add] at hlt
  dsimp only at h
  split at h
  · rename_i hreturns
    obtain ⟨rfl, rfl⟩ := run_pure_eq_ok.1 h
    have hcover := block_covers _ hblock (Pool.le_ordered.refl _) henv hat fun hr => by
      rw [hreturns] at hr
      cases hr
    rwa [Nat.zero_add] at hcover
  · obtain ⟨dst, p₃, hdst, h⟩ := run_bind_eq_ok.1 h
    obtain ⟨rfl, rfl⟩ := Pool.run_fresh hdst
    obtain ⟨rfl, rfl⟩ := run_pure_eq_ok.1 h
    obtain ⟨hatblock, hatend⟩ := placed_append.1 hat
    rw [← List.singleton_append, placed_append] at hatend
    have hle := block_increasing _ _ _ _ _ _ hblock
    have hlt : p₂.registers < p₂.registers + 1 := Nat.lt_succ_self _
    have hpass := passes_fresh [] (l := l)
      (P := { p₂ with registers := p₂.registers + 1 }) hatend.1 ⟨rfl, rfl, rfl, fun _ => rfl⟩
      (List.forall_mem_nil _) (henv.le hle.registers) hlt trivial
    have hend := covers_ret hpass hatend.2 (.inl rfl) hlt
    have hcover := block_covers _ hblock (Pool.le_fresh p₂) henv hatblock fun _ => hend.entry
    rw [List.length_append, ← Nat.zero_add (ops'.length + _), ← Nat.add_assoc]
    exact hcover.append hend

end Lowerer

/-- From its first instruction on, the code of an artifact goes ahead until it returns, and so it would
from any other instruction. -/
theorem Artifact.Compiled.covers {a : Artifact} {l : Lowerer} {pool : Pool} (h : a.Compiled l pool) :
    Covers a.code (l.Emits a.signature.args.length pool) (Set.Iio a.signature.args.length) 0
      a.code.size := by
  rw [h.signature]
  exact Lowerer.body_covers h.body h.arity (placed_toList a.code)

theorem Artifact.Compiled.emits {a : Artifact} {l : Lowerer} {pool : Pool} (h : a.Compiled l pool)
    {op : Op} (hop : op ∈ a.code) : l.Emits a.signature.args.length pool op := by
  obtain ⟨pc, hlt, rfl⟩ := Array.mem_iff_getElem.1 hop
  exact ((h.covers.inside pc (Nat.zero_le _) hlt).get (Array.getElem?_eq_getElem hlt)).1

/-- All calls in the code of an artifact reach callees that take as many arguments. -/
theorem Artifact.Compiled.fitting {a : Artifact} {l : Lowerer} {pool : Pool} (h : a.Compiled l pool) :
    a.Fitting l.toTyping := by
  intro op hop
  rw [h.callSites, h.hostSites, h.signature]
  exact (h.emits hop).fits

end ShapeCompiler
