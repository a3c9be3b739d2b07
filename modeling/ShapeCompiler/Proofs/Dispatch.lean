import ShapeCompiler.Proofs.Machine.Scopes
import ShapeCompiler.Proofs.RoundTrip

/-!
Planned matches and matches of the interpreter.

A planned match looks at the compiled form of its subject, the interpreter at the value that this form
decodes to. Main statement: the instruction of a planned match goes to the arm whose pattern is the
first to match, and each name bound there is read from the compiled form as the value that the pattern
binds (`Typing.dispatch_agrees`).
-/

namespace ShapeCompiler

open TypeTable

variable {t : TypeTable} {c : Typing} {i : Interpreter} {s : StaticType} {v w : Value} {cv : Compiled}
  {pats : List Pattern} {plan : MatchPlan} {functions : Functions} {bits : Nat}

namespace StaticType

/-- The compiled form of a value of a static type; without a type only the sentinel has one. -/
def Compiles (t : TypeTable) (s : StaticType) (v : Value) (cv : Compiled) : Prop :=
  match s.known? with
  | some id => t.encode v id = .ok cv
  | none => v = .incomplete ∧ cv = .incomplete

/-- The value behind a compiled value of a static type; without a type it is the sentinel. -/
def decode (t : TypeTable) (s : StaticType) (cv : Compiled) : Except TypeError Value :=
  match s.known? with
  | some id => t.decode cv id
  | none => .ok .incomplete

theorem decode_sentinel (t : TypeTable) (s : StaticType) : s.decode t .incomplete = .ok .incomplete := by
  unfold decode
  split
  · exact decode_incomplete _
  · rfl

theorem Admits.decode (hw : t.WellFormed) (hs : s.Admits t v) (hf : t.Form v cv) :
    s.decode t cv = .ok v := by
  by_cases hv : v = .incomplete
  · subst hv
    rw [hf.of_incomplete]
    exact decode_sentinel t s
  · obtain ⟨id, rfl, ha⟩ := hs.known hv
    exact hw.decode_of_encodes (hf.of_admits ha) ha

/-- The sentinel and the values of a type have compiled forms, which stand for values of the type with
declared widths. -/
theorem exists_compiled (hw : t.WellFormed)
    (hv : v = .incomplete ∨ ∃ id, s = .known id ∧ t.Loosely id v) :
    ∃ cv w, s.Compiles t v cv ∧ s.decode t cv = .ok w ∧ t.Form w cv ∧
      (w = .incomplete ∨ ∃ id, s = .known id ∧ t.Admits id w) := by
  rcases hv with rfl | ⟨id, rfl, hl⟩
  · refine ⟨.incomplete, .incomplete, ?_, decode_sentinel t s, .sentinel, .inl rfl⟩
    unfold Compiles
    split
    · exact encode_incomplete _
    · exact ⟨rfl, rfl⟩
  · obtain ⟨cv, hcv⟩ := hw.encode_isOk_iff.2 (.inr hl)
    refine ⟨cv, t.norm id v, hcv, hw.decode_encode hcv, ?_⟩
    rcases hw.form_norm hcv with ⟨rfl, rfl⟩ | ⟨-, he⟩
    · rw [TypeTable.norm]
      exact ⟨.sentinel, .inl rfl⟩
    · exact ⟨.inr he, .inr ⟨id, rfl, hw.admits_norm hl⟩⟩

end StaticType

/-- The compiled value that a binder stands for in the compiled form of the subject. -/
def Binder.read (b : Binder) (cv : Compiled) : Except RuntimeError Compiled :=
  match b.access with
  | none => .ok cv
  | some access => access.read cv

/-- A binder reads a bound value from the compiled form of the subject. -/
def Binder.Reads (t : TypeTable) (cv : Compiled) (b : Binder) (v : Value) : Prop :=
  ∃ x, b.read cv = .ok x ∧ b.type.decode t x = .ok v

theorem Binder.Finds.read {bound : Ident × Value} {b : Binder} (h : b.Finds t cv bound) :
    ∃ x, b.read cv = .ok x ∧ t.Form bound.2 x := by
  obtain ⟨name, type, access⟩ := b
  obtain ⟨-, x, hf, hx⟩ := h
  cases access with
  | none => exact ⟨cv, rfl, hx ▸ hf⟩
  | some access => exact ⟨x, hx, hf⟩

/-- Surroundings of a well-formed table fit it. -/
theorem Typing.fits_of (hw : t.WellFormed) (hbits : 1 ≤ bits ∧ bits ≤ 64)
    (h : Typing.of functions t bits = .ok c) : c.types = t ∧ c.Fits t := by
  unfold Typing.of at h
  split at h
  · rename_i id hid
    cases h
    exact ⟨rfl, hw, .refl _, hw, scalarBits?_eq_some.2 (hw.get?_of_scalar? hbits.1 hbits.2 hid)⟩
  · cases h

/-! ### Choosing -/

/-- Plans take an unknown subject for the sentinel. -/
theorem Typing.planArms_of_unknown (h : c.planArms .unknown pats = .ok plan) :
    c.planArms .incomplete pats = .ok plan := h

/-- The plan picks the first arm whose pattern matches, also for a subject of which nothing is known. -/
theorem Typing.Fits.plan_selects (hc : c.Fits t) (i : Interpreter) (h : c.planArms s pats = .ok plan)
    (hv : v = .incomplete ∨ ∃ id, s = .known id ∧ t.Admits id v) (hf : t.Form v cv) :
    ∃ res, i.selectArm v pats = .ok res ∧ plan.pick cv = res.map Prod.fst := by
  have picks : ∀ {s}, c.planArms s pats = .ok plan → s.Admits t v →
      ∃ res, i.selectArm v pats = .ok res ∧ plan.pick cv = res.map Prod.fst := by
    intro s h hs
    obtain ⟨res, hres, hpick, -⟩ := hc.plan_pick i h hs hf
    exact ⟨res, hres, hpick⟩
  rcases hv with rfl | ⟨id, rfl, ha⟩
  · by_cases hs : s = .unknown
    · subst hs
      exact picks (planArms_of_unknown h) rfl
    · exact picks h (.sentinel hs)
  · exact picks h (.inr ha)

/-- The instruction of a planned match goes where the picked arm starts, or to `miss`. -/
theorem Machine.run_planned {e : Engine} {host : HostSite → List Compiled → Run Compiled} {m : Machine}
    {subject : Reg} {arms : List LoweredArm} {miss : Nat} {res : Option (Nat × List (Ident × Value))}
    (hclosed : plan.Closed) (hpick : plan.pick cv = res.map Prod.fst) (hsub : m.Reads subject cv)
    (harms : ∀ k ∈ plan.reachable, (LoweredArm.startOf arms k).isSome) :
    e.run (m.exec host (plan.switch subject arms miss)) =
      .ok (.ok (.next (m.goto ((res.bind fun arm => LoweredArm.startOf arms arm.1).getD miss))), e) := by
  rw [run_switch hsub fun k hk => harms k (hclosed.pick hk), MatchPlan.target, hpick]
  cases res <;> rfl

/-! ### Binding -/

/-- The last binder of a name reads what the pattern binds to this name last. -/
theorem binders_read_get {bound : List (Ident × Value)} {binders : List Binder}
    (h : List.Forall₂ (fun q b => b.name = q.1 ∧ b.Reads t cv q.2) bound binders) (name : Ident) :
    Option.Rel (Binder.Reads t cv) ((Assoc.ofList (binders.map fun b => (b.name, b))).get? name)
      ((Assoc.ofList bound).get? name) := by
  have inserted : ∀ {scope : Assoc Ident Binder} {venv : Env},
      Option.Rel (Binder.Reads t cv) (scope.get? name) (venv.get? name) →
      Option.Rel (Binder.Reads t cv) ((scope.insertAll (binders.map fun b => (b.name, b))).get? name)
        ((venv.insertAll bound).get? name) := by
    induction h with
    | nil => exact fun h => h
    | @cons q b _ _ hb _ ih =>
      intro scope venv hscope
      refine @ih (scope.insert b.name b) (venv.insert q.1 q.2) ?_
      rw [Assoc.get?_insert, Assoc.get?_insert, hb.1]
      split
      · exact .some hb.2
      · exact hscope
  exact inserted .none

/-- The binders of an arm read all that its pattern binds, up to the placeholder. -/
theorem Typing.Fits.binders_read (hc : c.Fits t) {pattern : Pattern} {bound : List (Ident × Value)}
    (hrec : ∀ {id r}, t.record? id = some r → r.fields.length ≤ 65536)
    (hreg : ∀ name bs, pattern = .ctor name bs → ∃ id r, c.types.recordNamed? name = some (id, r))
    (hf : t.Form v cv) (hdec : s.decode t cv = .ok v)
    (hb : i.bindings pattern v = .ok (some bound)) :
    List.Forall₂ (fun q b => b.name = q.1 ∧ b.Reads t cv q.2) (bound.filter isNamed)
      (c.binders pattern s) := by
  cases pattern with
  | wildcard => cases hb; exact .nil
  | lit n =>
    obtain rfl := Interpreter.of_bindings_lit hb
    exact .nil
  | bind name =>
    cases hb
    unfold Typing.binders
    cases hp : Ident.isPlaceholder name with
    | true => simp [isNamed, hp]
    | false =>
      simp only [isNamed, hp, List.filter_cons, List.filter_nil]
      exact .cons ⟨rfl, cv, rfl, hdec⟩ .nil
  | ctor name names =>
    have hfinds := @binders_find _ _ _ _ i s _ _ hc hrec hreg hf hb
    obtain ⟨id, r, hr⟩ := hreg name names rfl
    obtain ⟨vs, rfl, hfs, rfl⟩ := hc.of_bindings_ctor ⟨cv, hf⟩ hr hb
    unfold Typing.binders at hfinds ⊢
    simp only [hr, isNamed, List.filter_filter, Bool.and_self] at hfinds ⊢
    refine .mp (fun q b hq hb => ?_) hfinds (bindersHave_fields hfs)
    obtain ⟨x, hread, hx⟩ := hq.read
    exact ⟨hb.1, x, hread, hb.2.1.decode hc.target hx⟩

/-- A planned match and the match of the interpreter choose the same arm for every value of the type of
the subject, also for the sentinel, and only reachable arms; the instruction of the match goes there, or
to `miss` if no pattern matches. The names of this arm have the same values: one is read from the
compiled form of the subject and decoded at the type of its binder, the other bound by the pattern. -/
theorem Typing.dispatch_agrees (ht : t.Registered)
    (hrec : ∀ {id r}, t.record? id = some r → r.fields.length ≤ 65536) (hbits : 1 ≤ bits ∧ bits ≤ 64)
    (hc : Typing.of functions t bits = .ok c) {function : Ident} (h : c.plan function s pats = .ok plan)
    (i : Interpreter) (hv : v = .incomplete ∨ ∃ id, s = .known id ∧ t.Loosely id v) :
    ∃ cv w res, s.Compiles t v cv ∧ s.decode t cv = .ok w ∧ i.selectArm w pats = .ok res ∧
      plan.pick cv = res.map Prod.fst ∧
      (∀ {e : Engine} {host : HostSite → List Compiled → Run Compiled} {m : Machine} {subject : Reg}
        {arms : List LoweredArm} {miss : Nat}, m.Reads subject cv →
        (∀ k ∈ plan.reachable, (LoweredArm.startOf arms k).isSome) →
        e.run (m.exec host (plan.switch subject arms miss)) = .ok (.ok (.next (m.goto
          ((res.bind fun arm => LoweredArm.startOf arms arm.1).getD miss))), e)) ∧
      ∀ k bound, res = some (k, bound) → k ∈ plan.reachable ∧ ∃ pattern, pats[k]? = some pattern ∧
        ∀ name ≠ placeholder, Option.Rel (Binder.Reads t cv)
          ((Assoc.ofList ((c.binders pattern s).map fun b => (b.name, b))).get? name)
          ((Assoc.ofList bound).get? name) := by
  have hw := ht.wellFormed
  obtain ⟨rfl, hfit⟩ := fits_of hw hbits hc
  obtain ⟨cv, w, hcv, hdec, hform, hof⟩ := StaticType.exists_compiled hw hv
  have hplan := mapError_eq_ok.1 h
  obtain ⟨hclosed, hreg⟩ := planArms_closed hw hplan
  obtain ⟨res, hres, hpick⟩ := hfit.plan_selects i hplan hof hform
  refine ⟨cv, w, res, hcv, hdec, hres, hpick, fun hsub harms => Machine.run_planned hclosed hpick hsub harms,
    ?_⟩
  rintro k bound rfl
  obtain ⟨j, pattern, hj, hpattern, hb⟩ := Interpreter.selectFrom_some hres
  obtain rfl : k = j := by rw [hj, Nat.zero_add]
  have hk := hclosed.pick hpick
  refine ⟨hk, pattern, hpattern, fun name hn => ?_⟩
  have hread := hfit.binders_read hrec (fun n bs hp => hreg k hk n bs (hp ▸ hpattern)) hform hdec hb
  have hget := binders_read_get hread name
  unfold Assoc.ofList at hget ⊢
  rwa [get?_insertAll_named hn rfl] at hget

/-! ### A match on a tree -/

namespace Catalog

/-- The surroundings of trees alone. -/
def treeTyping : Typing := ⟨.empty, treeTable, 24, ⟨0⟩⟩

/-- Patterns of which the second one for leaves never matches first. -/
def treeArms : List Pattern :=
  [.ctor "Node" ["left", "_"], .ctor "Leaf" ["value"], .ctor "Leaf" [], .wildcard]

def treePlan : MatchPlan := ⟨.tags ⟨3⟩ [some 0, some 1], [0, 1, 3], some 3⟩

theorem plan_treeArms : treeTyping.plan "f" (.known ⟨3⟩) treeArms = .ok treePlan := by
  with_unfolding_all rfl

/-- A leaf whose number has no width yet goes to the first arm for leaves on both paths. -/
theorem dispatch_agrees_tree : treeTyping.plan "f" (.known ⟨3⟩) treeArms = .ok treePlan ∧
    ∃ cv w res, (StaticType.known ⟨3⟩).Compiles treeTable (.record "Leaf" [.int 7]) cv ∧
      (StaticType.known ⟨3⟩).decode treeTable cv = .ok w ∧
      Interpreter.selectArm ⟨treeTable, .host, 24⟩ w treeArms = .ok res ∧
      treePlan.pick cv = res.map Prod.fst ∧ res = some (1, [("value", .u24 7)]) := by
  have hc : Typing.of .empty treeTable 24 = .ok treeTyping := by with_unfolding_all rfl
  obtain ⟨cv, w, res, hcv, hdec, hres, hpick, -⟩ := Typing.dispatch_agrees treeTable_registered
    (TypeTable.fields_le (by decide +kernel)) (by decide) hc plan_treeArms ⟨treeTable, .host, 24⟩
    (.inr ⟨_, rfl, loosely_leaf 7⟩)
  refine ⟨plan_treeArms, cv, w, res, hcv, hdec, hres, hpick, ?_⟩
  have hencode : treeTable.encode (.record "Leaf" [.int 7]) ⟨3⟩ = .ok (.packed 1793) := by
    with_unfolding_all rfl
  have hdecode : treeTable.decode (.packed 1793) ⟨3⟩ = .ok (leaf 7) := by with_unfolding_all rfl
  obtain rfl := Except.ok.inj (hencode.symm.trans hcv)
  obtain rfl := Except.ok.inj (hdecode.symm.trans hdec)
  exact (Except.ok.inj hres).symm

end Catalog

end ShapeCompiler
