import ShapeCompiler.Proofs.Assoc
import ShapeCompiler.Proofs.Placeholder.Tidy
import ShapeCompiler.Proofs.Typing.Plan
import ShapeCompiler.Typing.Walk

/-!
Scopes of values within scopes of static types.

Every variable that has a value has a static type of this value; the placeholder is left out where it
is bound by the interpreter and not by typing. Main statement: what a pattern binds is within the
scope that typing gives its arm (`EnvHas.bound`), and every variable of this scope has a value
(`EnvDefined.bound`).
-/

namespace ShapeCompiler

open TypeTable

/-- The value is of a static type, and its integers have their declared widths. -/
def StaticType.Has (t : TypeTable) (s : StaticType) (v : Value) : Prop := s.Admits t v ∧ t.Normal v

/-- Values are of the given types or the sentinel. -/
def ArgsHave (t : TypeTable) (ids : List TypeId) (vs : List Value) : Prop :=
  List.Forall₂ (fun id v => (StaticType.known id).Has t v) ids vs

/-- Every variable has a value of its static type, the placeholder only if it is shown. -/
def EnvHas (t : TypeTable) (shown : Prop) (env : TypeEnv) (venv : Env) : Prop :=
  ∀ name, (name = placeholder → shown) → ∀ v, venv.get? name = some v →
    ∃ s, env.get? name = some s ∧ s.Has t v

/-- Something is known of every variable. -/
def EnvKnown (env : TypeEnv) : Prop := ∀ p ∈ env.entries, p.2 ≠ .unknown

variable {t : TypeTable} {c : Typing} {i : Interpreter} {env env' : TypeEnv} {venv : Env}
  {s : StaticType} {v : Value} {name : Ident} {shown shown' : Prop}

theorem StaticType.Has.sentinel (h : s ≠ .unknown) : s.Has t .incomplete :=
  ⟨.sentinel h, normal_incomplete⟩

/-- Further scalars give no new values to a type that was there before. -/
theorem StaticType.has_known_iff {t' : TypeTable} {id : TypeId} (h : t.GrowsByScalars t')
    (hw : t.WellFormed) (hw' : t'.WellFormed) (hs : (t.get? id).isSome) :
    (StaticType.known id).Has t' v ↔ (StaticType.known id).Has t v :=
  and_congr (or_congr Iff.rfl (admits_iff h hw hw' hs)) (normal_iff h hw hw')

theorem ArgsHave.normal {ids : List TypeId} {vs : List Value} (h : ArgsHave t ids vs) :
    ∀ v ∈ vs, t.Normal v := by
  induction h with
  | nil => simp
  | cons h _ ih =>
    intro v hv
    rcases List.mem_cons.1 hv with rfl | hv
    · exact h.2
    · exact ih v hv

theorem EnvKnown.insert (h : EnvKnown env) (hs : s ≠ .unknown) : EnvKnown (env.insert name s) := by
  intro p hp
  rcases Assoc.mem_insert hp with rfl | hp
  · exact hs
  · exact h p hp

theorem EnvHas.mono (h : EnvHas t shown env venv) (hs : shown' → shown) : EnvHas t shown' env venv :=
  fun name hn => h name fun he => hs (hn he)

theorem EnvHas.insert (h : EnvHas t shown env venv) (hs : s.Has t v) :
    EnvHas t (shown ∨ name = placeholder) (env.insert name s) (venv.insert name v) := by
  intro n hn w hw
  rw [Assoc.get?_insert] at hw ⊢
  split at hw
  · cases hw
    rename_i he
    exact ⟨s, by rw [if_pos he], hs⟩
  · rename_i he
    rw [if_neg he]
    exact h n (fun hp => (hn hp).resolve_right fun hname => he (hname.trans hp.symm)) w hw

theorem EnvHas.insert_same (h : EnvHas t shown env venv) (hs : s.Has t v) :
    EnvHas t shown (env.insert name s) (venv.insert name v) :=
  (h.insert hs).mono .inl

theorem EnvHas.insert_placeholder (h : EnvHas t shown env venv) :
    EnvHas t False env (venv.insert placeholder v) := by
  intro n hn w hw
  rw [Assoc.get?_insert, if_neg (fun e => hn e.symm)] at hw
  exact h n (fun hp => (hn hp).elim) w hw

/-- A scope is wider than another one: its types have all the values of the other's. -/
def Wider (t : TypeTable) (env env' : TypeEnv) : Prop :=
  ∀ name s, env.get? name = some s →
    ∃ s', env'.get? name = some s' ∧ ∀ v, s.Admits t v → s'.Admits t v

theorem Wider.refl (env : TypeEnv) : Wider t env env := fun _ s h => ⟨s, h, fun _ hv => hv⟩

theorem Wider.trans {env'' : TypeEnv} (h : Wider t env env') (h' : Wider t env' env'') :
    Wider t env env'' := by
  intro n s hs
  obtain ⟨s', hs', hv⟩ := h n s hs
  obtain ⟨s'', hs'', hv'⟩ := h' n s' hs'
  exact ⟨s'', hs'', fun v h => hv' v (hv v h)⟩

theorem Wider.isSome (h : Wider t env env') (name : Ident) (hn : (env.get? name).isSome) :
    (env'.get? name).isSome := by
  obtain ⟨s, hs⟩ := Option.isSome_iff_exists.1 hn
  obtain ⟨s', hs', -⟩ := h name s hs
  rw [hs']
  rfl

theorem EnvHas.wider (h : EnvHas t shown env venv) (hw : Wider t env env') :
    EnvHas t shown env' venv := by
  intro n hn v hv
  obtain ⟨s, hs, hh⟩ := h n hn v hv
  obtain ⟨s', hs', hw⟩ := hw n s hs
  exact ⟨s', hs', hw v hh.1, hh.2⟩

/-! ### Binders -/

theorem EnvKnown.bind (h : EnvKnown env) {binders : List Binder}
    (hb : ∀ b ∈ binders, b.type ≠ .unknown) : EnvKnown (env.bind binders) := by
  unfold TypeEnv.bind Assoc.insertAll
  induction binders generalizing env with
  | nil => exact h
  | cons b rest ih =>
    exact ih (h.insert (hb b (by simp))) fun x hx => hb x (List.mem_cons_of_mem _ hx)

/-- Bound values beside the binders that typing gives them. -/
def BindersHave (t : TypeTable) (bound : List (Ident × Value)) (binders : List Binder) : Prop :=
  List.Forall₂ (fun p b => b.name = p.1 ∧ b.type.Has t p.2) bound binders

theorem EnvHas.bind (h : EnvHas t shown env venv) {bound : List (Ident × Value)}
    {binders : List Binder} (hb : BindersHave t bound binders) :
    EnvHas t shown (env.bind binders) (venv.insertAll bound) := by
  unfold TypeEnv.bind Assoc.insertAll
  induction hb generalizing env venv with
  | nil => exact h
  | cons hp _ ih =>
    rw [List.map_cons, List.foldl_cons, List.foldl_cons, hp.1]
    exact ih (h.insert_same hp.2)

theorem bindersHave_fields {r : RecordType} {index : Nat} {names : List Ident} {fs : List Field}
    {vs : List Value} (h : t.FieldValues fs vs) :
    BindersHave t ((names.zip vs).filter fun (b, _) => !Ident.isPlaceholder b)
      (Typing.fieldBinders r index names fs) := by
  induction h generalizing index names with
  | nil => cases names <;> exact .nil
  | @cons f v fs vs hf _ ih =>
    cases names with
    | nil => exact .nil
    | cons n names =>
      rw [List.zip_cons_cons, List.filter_cons, Typing.fieldBinders]
      cases hp : Ident.isPlaceholder n with
      | true =>
        simp only [hp, Bool.not_true, Bool.false_eq_true, if_false, if_true]
        exact ih
      | false =>
        simp only [hp, Bool.not_false, if_true, Bool.false_eq_true, if_false]
        exact .cons ⟨rfl, .inr hf.1, hf.2⟩ ih

theorem binders_known {pattern : Pattern} (hs : s ≠ .unknown) :
    ∀ b ∈ c.binders pattern s, b.type ≠ .unknown := by
  have fields : ∀ (r : RecordType) (index : Nat) (names : List Ident) (fs : List Field),
      ∀ b ∈ Typing.fieldBinders r index names fs, b.type ≠ .unknown := by
    intro r index names
    induction names generalizing index with
    | nil => intro fs b hb; cases fs <;> cases hb
    | cons n names ih =>
      intro fs b hb
      cases fs with
      | nil => cases hb
      | cons f fs =>
        rw [Typing.fieldBinders] at hb
        split at hb
        · exact ih _ fs b hb
        · rcases List.mem_cons.1 hb with rfl | hb
          · simp
          · exact ih _ fs b hb
  intro b hb
  unfold Typing.binders at hb
  split at hb
  · split at hb
    · cases hb
    · obtain rfl := List.mem_singleton.1 hb
      exact hs
  · split at hb
    · exact fields _ _ _ _ b hb
    · cases hb
  · cases hb

/-- What a pattern binds beside the binders that typing gives its arm; a placeholder only binds in
the interpreter. -/
inductive Bound (t : TypeTable) : Pattern → List (Ident × Value) → List Binder → Prop
  | binders {pattern : Pattern} {bound : List (Ident × Value)} {binders : List Binder}
    (h : BindersHave t bound binders) : Bound t pattern bound binders
  | placeholder (v : Value) : Bound t (.bind placeholder) [(placeholder, v)] []

/-- A constructor pattern matches records of its own type, and binds fields of them. -/
theorem Typing.Fits.of_bindings_ctor (hc : c.Fits t) {names : List Ident} {id : TypeId} {r : RecordType}
    {bound : List (Ident × Value)} (hn : t.Normal v) (hr : c.types.recordNamed? name = some (id, r))
    (hb : i.bindings (.ctor name names) v = .ok (some bound)) :
    ∃ vs, v = .record name vs ∧ t.FieldValues r.fields vs ∧
      bound = (names.zip vs).filter fun (b, _) => !Ident.isPlaceholder b := by
  unfold Interpreter.bindings at hb
  simp only at hb
  split at hb
  · rename_i type fields
    split at hb
    · cases hb
    · rename_i htype
      obtain rfl : type = name := not_not.1 htype
      obtain ⟨rid, r', hr', hfs⟩ := hn.fields hc.target
      obtain ⟨rfl, rfl⟩ : id = rid ∧ r = r' := by
        simpa using (hc.grows.recordNamed? hc.target hr).symm.trans hr'
      refine ⟨fields, rfl, hfs, ?_⟩
      split at hb
      · rename_i he
        cases hb
        rw [List.isEmpty_iff.1 he]
        rfl
      · split at hb <;> cases hb
        rfl
  · cases hb

theorem Interpreter.of_bindings_lit {n : UInt64} {bound : List (Ident × Value)}
    (hb : i.bindings (.lit n) v = .ok (some bound)) : bound = [] := by
  unfold Interpreter.bindings at hb
  simp only at hb
  split at hb
  · split at hb <;> cases hb
    rfl
  · cases hb

theorem Typing.Fits.bound (hc : c.Fits t) {pattern : Pattern} {bound : List (Ident × Value)}
    (hs : s.Has t v)
    (hreg : ∀ name bs, pattern = .ctor name bs → ∃ id r, c.types.recordNamed? name = some (id, r))
    (hb : i.bindings pattern v = .ok (some bound)) : Bound t pattern bound (c.binders pattern s) := by
  cases pattern with
  | wildcard => cases hb; exact .binders .nil
  | lit n =>
    obtain rfl := Interpreter.of_bindings_lit hb
    exact .binders .nil
  | bind name =>
    cases hb
    unfold Typing.binders
    simp only
    split
    · rename_i hp
      obtain rfl := isPlaceholder_iff.1 hp
      exact .placeholder v
    · exact .binders (.cons ⟨rfl, hs⟩ .nil)
  | ctor name binders =>
    obtain ⟨id, r, hr⟩ := hreg name binders rfl
    obtain ⟨vs, rfl, hfs, rfl⟩ := hc.of_bindings_ctor hs.2 hr hb
    unfold Typing.binders
    simp only [hr]
    exact .binders (bindersHave_fields hfs)

/-- What a pattern binds is within the scope that typing gives its arm. -/
theorem EnvHas.bound (h : EnvHas t shown env venv) {pattern : Pattern} {bound : List (Ident × Value)}
    {binders : List Binder} (hb : Bound t pattern bound binders) :
    EnvHas t (pattern.Shows shown) (env.bind binders) (venv.insertAll bound) := by
  cases hb with
  | binders hb => exact (h.bind hb).mono And.left
  | placeholder v => exact h.insert_placeholder.mono fun hp => by cases hp.2

/-! ### Variables that have values -/

/-- Every variable that has a static type has a value. -/
def EnvDefined (env : TypeEnv) (venv : Env) : Prop :=
  ∀ name, (env.get? name).isSome → (venv.get? name).isSome

theorem EnvDefined.mono (h : EnvDefined env venv)
    (hs : ∀ name, (env'.get? name).isSome → (env.get? name).isSome) : EnvDefined env' venv :=
  fun name hn => h name (hs name hn)

theorem EnvDefined.of_insert (h : EnvDefined (env.insert name s) venv) : EnvDefined env venv := by
  refine h.mono fun n hn => ?_
  rw [Assoc.get?_insert]
  split
  · rfl
  · exact hn

theorem EnvDefined.insert (h : EnvDefined env venv) :
    EnvDefined (env.insert name s) (venv.insert name v) := by
  intro n hn
  rw [Assoc.get?_insert] at hn ⊢
  split at hn
  · rename_i he
    rw [if_pos he]
    rfl
  · rename_i he
    rw [if_neg he]
    exact h n hn

theorem EnvDefined.insert_value (h : EnvDefined env venv) : EnvDefined env (venv.insert name v) := by
  intro n hn
  rw [Assoc.get?_insert]
  split
  · rfl
  · exact h n hn

theorem EnvDefined.bound (h : EnvDefined env venv) {pattern : Pattern} {bound : List (Ident × Value)}
    {binders : List Binder} (hb : Bound t pattern bound binders) :
    EnvDefined (env.bind binders) (venv.insertAll bound) := by
  cases hb with
  | placeholder v => exact h.insert_value
  | binders hb =>
    unfold TypeEnv.bind Assoc.insertAll
    induction hb generalizing env venv with
    | nil => exact h
    | cons hp _ ih =>
      rw [List.map_cons, List.foldl_cons, List.foldl_cons, hp.1]
      exact ih h.insert

end ShapeCompiler
