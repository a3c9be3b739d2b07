import ShapeCompiler.Proofs.Lowering.Layout
import ShapeCompiler.Proofs.Machine.Operations
import ShapeCompiler.Proofs.Machine.Registers

/-!
The variables of a scope in registers.

Main statements: the code that lowering puts before an arm reads what the pattern binds into the
registers of its scope (`Lowerer.run_bindPattern`), and the instruction that picks an arm goes to the
start of the arm which the plan picks (`Machine.run_switch`).
-/

namespace ShapeCompiler

open TypeTable

variable {t : TypeTable} {c : Typing} {e : Engine} {m m' : Machine} {k k' : Nat} {cv : Compiled}
  {v : Value} {name : Ident} {env scope : RegEnv} {venv : Env} {p p' : Pool} {subject : Reg}
  {shown shown' : Prop}

/-- The register of a variable is below a number and holds the form of a value. -/
def Machine.Stores (t : TypeTable) (m : Machine) (k : Nat) (r : Reg × StaticType) (v : Value) : Prop :=
  r.1 < k ∧ ∃ c, m.Reads r.1 c ∧ t.Form v c

/-- Exactly the variables that have a value have a register, which stores it; the placeholder is left
out if it is not shown. -/
def RegScope (t : TypeTable) (m : Machine) (k : Nat) (shown : Prop) (env : RegEnv) (venv : Env) : Prop :=
  ∀ name, (name = placeholder → shown) → Option.Rel (m.Stores t k) (env.get? name) (venv.get? name)

theorem Machine.Stores.continues {r : Reg × StaticType} (h : m.Stores t k r v)
    (hm : m.Continues k m') (hk : k ≤ k') : m'.Stores t k' r v := by
  obtain ⟨hlt, c, hr, hf⟩ := h
  exact ⟨Nat.lt_of_lt_of_le hlt hk, c, hm.reads hlt hr, hf⟩

namespace RegScope

theorem continues (h : RegScope t m k shown env venv) (hm : m.Continues k m') (hk : k ≤ k') :
    RegScope t m' k' shown env venv := by
  have mono : ∀ {x y}, Option.Rel (m.Stores t k) x y → Option.Rel (m'.Stores t k') x y := by
    rintro _ _ (hs | _)
    · exact .some (hs.continues hm hk)
    · exact .none
  exact fun name hn => mono (h name hn)

theorem mono (h : RegScope t m k shown env venv) (hs : shown' → shown) :
    RegScope t m k shown' env venv :=
  fun name hn => h name fun he => hs (hn he)

theorem insert {r : Reg × StaticType} (h : RegScope t m k shown env venv) (hs : m.Stores t k r v) :
    RegScope t m k (shown ∨ name = placeholder) (env.insert name r) (venv.insert name v) := by
  intro n hn
  rw [Assoc.get?_insert, Assoc.get?_insert]
  split
  · exact .some hs
  · rename_i he
    exact h n fun hp => (hn hp).resolve_right fun hname => he (hname.trans hp.symm)

theorem insert_same {r : Reg × StaticType} (h : RegScope t m k shown env venv)
    (hs : m.Stores t k r v) : RegScope t m k shown (env.insert name r) (venv.insert name v) :=
  (h.insert hs).mono .inl

end RegScope

/-! ### Binding -/

/-- A binder finds a bound value, in its compiled form, in the compiled form of the subject. -/
def Binder.Finds (t : TypeTable) (cv : Compiled) (bound : Ident × Value) (b : Binder) : Prop :=
  b.name = bound.1 ∧ ∃ c, t.Form bound.2 c ∧
    match b.access with
    | none => c = cv
    | some access => access.read cv = .ok c

theorem fieldBinders_find {r : RecordType} {names : List Ident} {fs : List Field} {vs : List Value}
    {index : Nat} (hlen : fs.length = vs.length)
    (h : ∀ j v, vs[j]? = some v → ∃ fc, (r.access (index + j)).read cv = .ok fc ∧ t.Encodes v fc) :
    List.Forall₂ (Binder.Finds t cv) ((names.zip vs).filter fun (b, _) => !Ident.isPlaceholder b)
      (Typing.fieldBinders r index names fs) := by
  induction names generalizing index fs vs with
  | nil => cases fs <;> exact .nil
  | cons n names ih =>
    cases vs with
    | nil =>
      obtain rfl := List.length_eq_zero_iff.1 hlen
      exact .nil
    | cons v vs =>
      obtain ⟨f, fs, rfl⟩ := List.exists_cons_of_length_eq_add_one hlen
      have ih' := @ih fs vs (index + 1) (by simpa using hlen) fun j v hv => by
        rw [Nat.add_right_comm, Nat.add_assoc]
        exact h (j + 1) v hv
      rw [List.zip_cons_cons, List.filter_cons, Typing.fieldBinders]
      cases hp : Ident.isPlaceholder n with
      | true =>
        simp only [hp, Bool.not_true, Bool.false_eq_true, if_false, if_true]
        exact ih'
      | false =>
        simp only [hp, Bool.not_false, if_true, Bool.false_eq_true, if_false]
        obtain ⟨fc, hread, he⟩ := h 0 v rfl
        exact .cons ⟨rfl, fc, .inr he, hread⟩ ih'

/-- Whether a bound name is no placeholder. -/
def isNamed (bound : Ident × Value) : Bool := !Ident.isPlaceholder bound.1

/-- The placeholder aside, a scope is what the other names are bound to. -/
theorem get?_insertAll_named {venv venv' : Env} (hn : name ≠ placeholder)
    (h : venv.get? name = venv'.get? name) (bound : List (Ident × Value)) :
    (venv.insertAll (bound.filter isNamed)).get? name = (venv'.insertAll bound).get? name := by
  induction bound generalizing venv venv' with
  | nil => exact h
  | cons q rest ih =>
    have hins : ∀ venv : Env, (venv.insert q.1 q.2).get? name =
        if q.1 = name then some q.2 else venv.get? name := fun venv => Assoc.get?_insert _ _ _ _
    rw [List.filter_cons]
    cases hq : isNamed q with
    | true => exact ih (by rw [hins, hins, h])
    | false =>
      have hp : q.1 = placeholder := isPlaceholder_iff.1 (by simpa [isNamed] using hq)
      exact ih (by rw [hins, if_neg (fun e => hn (e.symm.trans hp)), h])

theorem bindings_named {i : Interpreter} {pattern : Pattern} {bound : List (Ident × Value)}
    (hp : pattern.binds_ = false) (hb : i.bindings pattern v = .ok (some bound)) :
    bound.filter isNamed = bound := by
  refine List.filter_eq_self.2 ?_
  cases pattern with
  | wildcard => cases hb; simp
  | lit n =>
    obtain rfl := Interpreter.of_bindings_lit hb
    simp
  | bind name =>
    cases hb
    have hname : Ident.isPlaceholder name = false := hp
    simp [isNamed, hname]
  | ctor name binders =>
    unfold Interpreter.bindings at hb
    simp only at hb
    split at hb
    · split at hb
      · cases hb
      · split at hb
        · cases hb
          simp
        · split at hb <;> cases hb
          exact fun q hq => (List.mem_filter.1 hq).2
    · cases hb

/-- The binders of an arm find all that its pattern binds, up to the placeholder. -/
theorem binders_find {i : Interpreter} {s : StaticType} {pattern : Pattern}
    {bound : List (Ident × Value)} (hc : c.Fits t)
    (hrec : ∀ {id r}, t.record? id = some r → r.fields.length ≤ 65536)
    (hreg : ∀ name bs, pattern = .ctor name bs → ∃ id r, c.types.recordNamed? name = some (id, r))
    (hf : t.Form v cv) (hb : i.bindings pattern v = .ok (some bound)) :
    List.Forall₂ (Binder.Finds t cv) (bound.filter isNamed) (c.binders pattern s) := by
  cases pattern with
  | wildcard => cases hb; exact .nil
  | lit n =>
    obtain rfl := Interpreter.of_bindings_lit hb
    exact .nil
  | bind name =>
    cases hb
    unfold Typing.binders
    cases hp : Ident.isPlaceholder name with
    | true => simp [isNamed, hp]
    | false =>
      simp only [isNamed, hp, List.filter_cons, List.filter_nil]
      exact .cons ⟨rfl, cv, hf, rfl⟩ .nil
  | ctor name binders =>
    obtain ⟨id, r, hr⟩ := hreg name binders rfl
    have hrt := hc.grows.recordNamed? hc.target hr
    obtain ⟨vs, rfl, hfs, rfl⟩ := hc.of_bindings_ctor ⟨cv, hf⟩ hr hb
    have he : t.Encodes (.record name vs) cv := hf.resolve_left fun h => by cases h.1
    unfold Typing.binders
    simp only [hr, isNamed, List.filter_filter, Bool.and_self]
    refine fieldBinders_find hfs.length_eq fun j v hv => ?_
    rw [Nat.zero_add]
    exact he.access hc.target hrt (hrec (recordNamed?_eq_some.1 hrt).2) hv

theorem run_bindFields {binders : List Binder} {fields fields' : List (Reg × FieldAccess)}
    (h : (Lowerer.bindFields subject env fields binders).run p = .ok ((scope, fields'), p')) :
    ∃ new, fields' = fields ++ new ∧ ∀ {m venv found}, RegScope t m p.registers shown env venv →
      subject < p.registers → m.Reads subject cv → m.base + p'.registers ≤ m.registers.size →
      List.Forall₂ (Binder.Finds t cv) found binders →
      ∃ m', e.run (Machine.unpack subject m new) = .ok (.ok m', e) ∧
        m.Continues p.registers m' ∧ m'.pc = m.pc ∧
        RegScope t m' p'.registers shown scope (venv.insertAll found) := by
  induction binders generalizing env fields p with
  | nil =>
    rw [Lowerer.bindFields] at h
    obtain ⟨h, rfl⟩ := run_pure_eq_ok.1 h
    cases h
    refine ⟨[], by simp, fun {m venv found} hscope _ _ _ hfound => ?_⟩
    cases hfound
    exact ⟨m, rfl, .refl _ m, rfl, hscope⟩
  | cons b rest ih =>
    obtain ⟨name, type, access⟩ := b
    cases access with
    | none =>
      rw [Lowerer.bindFields] at h
      obtain ⟨new, hnew, hrun⟩ := ih h
      refine ⟨new, hnew, fun {m venv found} hscope hlt hsub hsize hfound => ?_⟩
      cases hfound with
      | @cons q _ found _ hb hrest =>
        obtain ⟨rfl, _, hf, rfl⟩ := hb
        have hscope' : RegScope t m p.registers shown (env.insert q.1 (subject, type))
            (venv.insert q.1 q.2) := hscope.insert_same ⟨hlt, _, hsub, hf⟩
        have hrun' := hrun hscope' hlt hsub hsize hrest
        exact hrun'
    | some access =>
      rw [Lowerer.bindFields] at h
      obtain ⟨reg, p₁, hfresh, h⟩ := run_bind_eq_ok.1 h
      obtain ⟨rfl, rfl⟩ := Pool.run_fresh hfresh
      obtain ⟨new, hnew, hrun⟩ := ih h
      refine ⟨(p.registers, access) :: new, by rw [hnew, List.append_assoc]; rfl, ?_⟩
      intro m venv found hscope hlt hsub hsize hfound
      cases hfound with
      | cons hb hrest =>
        obtain ⟨rfl, fc, hf, hread⟩ := hb
        have hle : p.registers + 1 ≤ p'.registers :=
          (Lowerer.bindFields_increasing Pool.le_ordered Pool.fresh_increasing subject rest
            _ _ _ _ _ h).registers
        have hin : m.base + p.registers < m.registers.size := by omega
        have hput : m.Continues p.registers (m.put p.registers fc) := .put m fc (Nat.le_refl _)
        obtain ⟨m', hm', hcont, hpc, hscope'⟩ := hrun
          ((hscope.continues hput (Nat.le_succ _)).insert_same
            ⟨Nat.lt_succ_self _, fc, Machine.reads_put hin, hf⟩)
          (Nat.lt_succ_of_lt hlt) (hput.reads hlt hsub) (by rw [hput.size]; exact hsize) hrest
        refine ⟨m', ?_, hput.trans hcont (Nat.le_succ _), hpc, hscope'⟩
        rw [Machine.run_unpack_cons hsub hread hin, hm']

/-- The code before an arm puts what its pattern binds into the registers of its scope. -/
theorem Lowerer.run_bindPattern {l : Lowerer} {i : Interpreter} {type : StaticType}
    {pattern : Pattern} {code : List Op} {bound : List (Ident × Value)} (hc : l.toTyping.Fits t)
    (hrec : ∀ {id r}, t.record? id = some r → r.fields.length ≤ 65536)
    (hreg : ∀ name bs, pattern = .ctor name bs → ∃ id r, l.types.recordNamed? name = some (id, r))
    (h : (l.bindPattern env pattern subject type).run p = .ok ((scope, code), p'))
    (hf : t.Form v cv) (hb : i.bindings pattern v = .ok (some bound))
    (hscope : RegScope t m p.registers shown env venv) (hlt : subject < p.registers)
    (hsub : m.Reads subject cv) (hsize : m.base + p'.registers ≤ m.registers.size) :
    ∃ fields m', code = (if fields.isEmpty then [] else [.unpack subject fields]) ∧
      e.run (Machine.unpack subject m fields) = .ok (.ok m', e) ∧ m.Continues p.registers m' ∧
      m'.pc = m.pc ∧
      RegScope t m' p'.registers (pattern.Shows shown) scope (venv.insertAll bound) := by
  unfold Lowerer.bindPattern at h
  obtain ⟨⟨scope', fields⟩, p₁, hbind, h⟩ := run_bind_eq_ok.1 h
  obtain ⟨h, rfl⟩ := run_pure_eq_ok.1 h
  cases h
  have hfound := @binders_find _ _ _ _ i type _ _ hc hrec hreg hf hb
  obtain ⟨new, hnew, hrun⟩ := @run_bindFields t e cv _ _ _ _ _ shown _ _ _ hbind
  rw [List.nil_append] at hnew
  subst hnew
  obtain ⟨m', hm', hcont, hpc, hscope'⟩ := hrun hscope hlt hsub hsize hfound
  refine ⟨fields, m', rfl, hm', hcont, hpc, fun n hn => ?_⟩
  have hget : (venv.insertAll (bound.filter isNamed)).get? n = (venv.insertAll bound).get? n := by
    by_cases hname : n = placeholder
    · rw [bindings_named (hn hname).2 hb]
    · exact get?_insertAll_named hname rfl bound
  rw [← hget]
  exact hscope' n fun hname => (hn hname).1

/-! ### Picking an arm -/

/-- Where a match goes on for a compiled value; without an arm, at `miss`. -/
def MatchPlan.target (plan : MatchPlan) (arms : List LoweredArm) (miss : Nat) (cv : Compiled) : Nat :=
  ((plan.pick cv).bind (LoweredArm.startOf arms)).getD miss

theorem Machine.run_switch {plan : MatchPlan} {arms : List LoweredArm} {miss : Nat}
    {host : HostSite → List Compiled → Run Compiled} (hsub : m.Reads subject cv)
    (hpick : ∀ k, plan.pick cv = some k → (LoweredArm.startOf arms k).isSome) :
    e.run (m.exec host (plan.switch subject arms miss)) =
      .ok (.ok (.next (m.goto (plan.target arms miss cv))), e) := by
  obtain ⟨dispatch, reachable, default⟩ := plan
  unfold MatchPlan.pick at hpick
  unfold MatchPlan.switch MatchPlan.target MatchPlan.pick
  cases dispatch with
  | direct => rfl
  | tags type table =>
    simp only [exec]
    rw [run_read hsub, Engine.run_pure]
    simp only at hpick ⊢
    congr 4
    cases ht : cv.tag?.bind fun tag => table[tag.toNat]? with
    | none =>
      cases htag : cv.tag? with
      | none => rfl
      | some tag =>
        rw [htag] at ht
        simp only [Option.bind_some] at ht ⊢
        rw [List.getElem?_map, ht]
        rfl
    | some arm =>
      obtain ⟨tag, htag, harm⟩ := Option.bind_eq_some_iff.1 ht
      rw [htag]
      simp only [Option.bind_some]
      rw [List.getElem?_map, harm]
      cases arm with
      | none => rfl
      | some k =>
        obtain ⟨start, hs⟩ := Option.isSome_iff_exists.1 (hpick k (by rw [ht]; rfl))
        simp [hs]
  | scalars cases' =>
    simp only [exec]
    rw [run_read hsub, Engine.run_pure]
    simp only at hpick ⊢
    congr 4
    cases hn : cv.scalar? with
    | none => rfl
    | some n =>
      rw [hn] at hpick
      simp only [Option.bind_some] at hpick ⊢
      rw [List.find?_map]
      have hcomp : ((fun q : UInt64 × Nat => q.1 == n) ∘ fun q : UInt64 × Nat =>
          (q.1, (LoweredArm.startOf arms q.2).getD
            ((default.bind (LoweredArm.startOf arms)).getD miss))) = fun q => q.1 == n := rfl
      rw [hcomp]
      cases hq : cases'.find? (·.1 == n) with
      | none => rfl
      | some q =>
        obtain ⟨start, hs⟩ := Option.isSome_iff_exists.1 (hpick q.2 (by rw [hq]; rfl))
        simp [hs]

end ShapeCompiler
