import Mathlib.Data.List.TakeWhile
import ShapeCompiler.Proofs.Engine.Sessions
import ShapeCompiler.Proofs.Types.Scalars

/-!
Requests that register something, and what is left of them when they are refused.

A native function names its types one after another. A scalar among them is registered as it is met,
and stays when a later name is unknown or the function is called like a type. Main statement: that is
all that a refused registration leaves behind (`Engine.Reached.refused_registration`).
-/

namespace ShapeCompiler

namespace TypeTable

variable {t t' : TypeTable} {name : Ident} {names : List Ident} {id : TypeId}

/-! ### Names that a native function may use -/

def knows (t : TypeTable) (name : Ident) : Bool :=
  (t.lookup name).isSome || (scalarWidth name).isSome

/-- The type that a native function means by a name, unless it is a scalar that is missing. -/
def typeNamed? (t : TypeTable) (name : Ident) : Option TypeId :=
  (t.lookup name).or ((scalarWidth name).bind t.scalar?)

theorem knows_eq_false : t.knows name = false ↔ t.lookup name = none ∧ scalarWidth name = none := by
  simp [knows]

/-- Scalars that are registered on the side make no more names known. -/
theorem GrowsByScalars.knows_eq (hg : t.GrowsByScalars t') (hw : t.WellFormed) (hw' : t'.WellFormed)
    (name : Ident) : t'.knows name = t.knows name := by
  cases hs : scalarWidth name with
  | some bits => simp [knows, hs]
  | none =>
    suffices h : (t'.lookup name).isSome = (t.lookup name).isSome by simp [knows, h]
    rw [Bool.eq_iff_iff]
    constructor
    · intro h
      refine (hg.lookup_cases hw hw' h).resolve_right fun hscalar => ?_
      obtain ⟨bits, -, -, -, hbits⟩ := hscalar.width
      rw [hs] at hbits
      cases hbits
    · intro h
      obtain ⟨id, hid⟩ := Option.isSome_iff_exists.1 h
      exact Option.isSome_of_eq_some (hg.toGrows.lookup hw' hid)

theorem WellFormed.name_of_scalarWidth (hw : t.WellFormed) {bits : Nat} (hl : t.lookup name = some id)
    (hs : scalarWidth name = some bits) : scalarName bits = name := by
  obtain ⟨d, hd, rfl⟩ := get?_of_lookup hl
  by_cases hb : ∃ b, d = .scalar b
  · obtain ⟨b, rfl⟩ := hb
    obtain ⟨h1, h2⟩ := hw.width hd
    rw [TypeDescriptor.name, scalarWidth_scalarName h1 h2] at hs
    cases hs
    rfl
  · obtain ⟨hnone, -⟩ := hw.named hd fun b e => hb ⟨b, e⟩
    rw [hs] at hnone
    cases hnone

theorem typeNamed?_eq_lookup (h : name.IsScalar) : t.typeNamed? name = t.lookup name := by
  obtain ⟨bits, -, -, rfl, hbits⟩ := h.width
  unfold typeNamed?
  rw [hbits]
  exact Option.or_self

theorem Grows.typeNamed? (hg : t.Grows t') (hw' : t'.WellFormed) (h : t.typeNamed? name = some id) :
    t'.typeNamed? name = some id := by
  unfold TypeTable.typeNamed? at h ⊢
  cases hl : t.lookup name with
  | some id' =>
    rw [hl] at h
    cases h
    rw [hg.lookup hw' hl]
    rfl
  | none =>
    rw [hl, Option.none_or] at h
    obtain ⟨bits, hbits, hid⟩ := Option.bind_eq_some_iff.1 h
    have hid' : t'.scalar? bits = some id := hg.lookup hw' hid
    cases hl' : t'.lookup name with
    | none => rwa [hbits, Option.none_or]
    | some id' =>
      have hname := hw'.name_of_scalarWidth hl' hbits
      rw [← hname] at hl'
      rw [Option.some_or, ← hid', ← hl']
      rfl

theorem WellFormed.typeNamed?_withFieldScalar (hw : t.WellFormed) (hk : t.knows name = true) :
    ((TypeTable.withFieldScalar [] t name).typeNamed? name).isSome := by
  unfold TypeTable.withFieldScalar TypeTable.typeNamed?
  split
  · rename_i h
    rw [Option.isSome_or, h.resolve_left List.not_mem_nil]
    rfl
  · rename_i h
    have hwidth : (scalarWidth name).isSome := by
      unfold knows at hk
      rw [Bool.or_eq_true] at hk
      exact hk.resolve_left fun hl => h (.inr hl)
    obtain ⟨bits, hbits⟩ := Option.isSome_iff_exists.1 hwidth
    obtain ⟨h1, h64⟩ := width_of_scalarWidth hbits
    have hid := (hw.ensureScalar h1 h64).lookup_name (hw.get?_ensureScalar h1 h64)
    rw [hbits, Option.isSome_or, Option.bind_some, Bool.or_eq_true]
    exact .inr (Option.isSome_of_eq_some hid)

/-! ### Scalars on the side -/

theorem lookup_foldl_cases (h : ((names.foldl (TypeTable.withFieldScalar []) t).lookup name).isSome) :
    (t.lookup name).isSome ∨
      ∃ type ∈ names, ∃ bits, scalarWidth type = some bits ∧ scalarName bits = name := by
  induction names generalizing t with
  | nil => exact .inl h
  | cons type rest ih =>
    rcases ih h with h | ⟨type', hm, hmore⟩
    · rcases withFieldScalar_cases [] t type with hsame | ⟨bits, hbits, -, hpush⟩
      · rw [hsame] at h
        exact .inl h
      · rw [hpush] at h
        obtain ⟨id, hid⟩ := Option.isSome_iff_exists.1 h
        obtain ⟨d, hd, rfl⟩ := get?_of_lookup hid
        rw [get?_push] at hd
        split at hd
        · cases hd
          exact .inr ⟨type, List.mem_cons_self, bits, hbits, rfl⟩
        · exact .inl (lookup_isSome_of_get? hd)
    · exact .inr ⟨type', List.mem_cons_of_mem _ hm, hmore⟩

theorem size_withFieldScalar (t : TypeTable) (name : Ident) :
    TypeTable.withFieldScalar [] t name = t ∨ t.size < (TypeTable.withFieldScalar [] t name).size := by
  refine (withFieldScalar_cases [] t name).imp_right ?_
  rintro ⟨bits, -, -, hpush⟩
  rw [hpush]
  unfold push size
  simp

theorem size_le_foldl (t : TypeTable) (names : List Ident) :
    t.size ≤ (names.foldl (TypeTable.withFieldScalar []) t).size := by
  induction names generalizing t with
  | nil => exact Nat.le_refl _
  | cons name rest ih =>
    rw [List.foldl_cons]
    refine Nat.le_trans ?_ (ih _)
    rcases size_withFieldScalar t name with h | h
    · exact Nat.le_of_eq (congrArg size h.symm)
    · exact Nat.le_of_lt h

theorem WellFormed.withFieldScalar_eq_iff (hw : t.WellFormed) (hk : t.knows name = true) :
    TypeTable.withFieldScalar [] t name = t ↔ (t.typeNamed? name).isSome := by
  constructor
  · intro h
    have := hw.typeNamed?_withFieldScalar hk
    rwa [h] at this
  · intro h
    unfold TypeTable.withFieldScalar
    split
    · rfl
    · rename_i hl
      have hnone : t.lookup name = none := Option.not_isSome_iff_eq_none.1 fun hl' => hl (.inr hl')
      unfold TypeTable.typeNamed? at h
      rw [hnone, Option.none_or] at h
      obtain ⟨id, hid⟩ := Option.isSome_iff_exists.1 h
      obtain ⟨bits, hbits, hid⟩ := Option.bind_eq_some_iff.1 hid
      rw [hbits]
      simp only [TypeTable.ensureScalar, hid]

/-- The table stays as it is if and only if no scalar is missing. -/
theorem WellFormed.foldl_eq_iff (hw : t.WellFormed) (hk : ∀ name ∈ names, t.knows name = true) :
    names.foldl (TypeTable.withFieldScalar []) t = t ↔
      ∀ name ∈ names, (t.typeNamed? name).isSome := by
  induction names with
  | nil => simp
  | cons name rest ih =>
    rw [List.foldl_cons, List.forall_mem_cons]
    obtain ⟨hname, hrest⟩ := List.forall_mem_cons.1 hk
    constructor
    · intro h
      rcases size_withFieldScalar t name with hsame | hmore
      · rw [hsame] at h
        exact ⟨(hw.withFieldScalar_eq_iff hname).1 hsame, (ih hrest).1 h⟩
      · -- a table that has grown does not shrink to what it was
        have := size_le_foldl (TypeTable.withFieldScalar [] t name) rest
        rw [h] at this
        omega
    · rintro ⟨h, hall⟩
      rw [(hw.withFieldScalar_eq_iff hname).2 h]
      exact (ih hrest).2 hall

end TypeTable

open TypeTable

namespace Engine

variable {e e' : Engine} {function type unknown : Ident} {names : List Ident} {n : NativeDef}

/-! ### Types of a native function -/

def withScalars (e : Engine) (names : List Ident) : Engine :=
  { e with types := names.foldl (withFieldScalar []) e.types }

theorem withScalars_cons (e : Engine) (name : Ident) (rest : List Ident) :
    e.withScalars (name :: rest) = (e.withScalars [name]).withScalars rest := rfl

theorem withScalars_append (e : Engine) (names rest : List Ident) :
    e.withScalars (names ++ rest) = (e.withScalars names).withScalars rest := by
  unfold withScalars
  rw [List.foldl_append]

theorem update_nativeType (function type : Ident) (hw : e.types.WellFormed)
    (hk : e.types.knows type = true) :
    ∃ id, e.update (Update.nativeType function type) = (.ok id, e.withScalars [type]) ∧
      (e.withScalars [type]).types.typeNamed? type = some id := by
  obtain ⟨id, hid⟩ := Option.isSome_iff_exists.1 (hw.typeNamed?_withFieldScalar hk)
  refine ⟨id, ?_, hid⟩
  unfold withScalars
  rw [List.foldl_cons, List.foldl_nil]
  unfold Update.nativeType
  rw [update_get]
  cases hl : e.types.lookup type with
  | some id' =>
    have hsame : withFieldScalar [] e.types type = e.types := if_pos (.inr (by rw [hl]; rfl))
    rw [hsame] at hid ⊢
    unfold typeNamed? at hid
    rw [hl] at hid
    cases hid
    rfl
  | none =>
    have hwidth : (scalarWidth type).isSome := by simpa [knows, hl] using hk
    obtain ⟨bits, hbits⟩ := Option.isSome_iff_exists.1 hwidth
    obtain ⟨h1, h64⟩ := width_of_scalarWidth hbits
    have hmore : withFieldScalar [] e.types type = (e.types.ensureScalar bits).2 := by
      unfold withFieldScalar
      rw [if_neg (by simp [hl]), hbits]
    have hdeclare : e.types.declareScalar bits =
        .ok ((e.types.ensureScalar bits).1, (e.types.ensureScalar bits).2) :=
      declareScalar_eq_ok.2 ⟨⟨h1, h64⟩, rfl, rfl⟩
    rw [hmore] at hid ⊢
    -- the number answered is the one that the scalar is found under
    have hname := (hw.ensureScalar h1 h64).lookup_name (hw.get?_ensureScalar h1 h64)
    have hnamed : (e.types.ensureScalar bits).2.typeNamed? type = some (e.types.ensureScalar bits).1 := by
      unfold typeNamed?
      cases hl' : (e.types.ensureScalar bits).2.lookup type with
      | none =>
        rw [hbits]
        exact hname
      | some id' =>
        have := (hw.ensureScalar h1 h64).name_of_scalarWidth hl' hbits
        rw [← this] at hl'
        exact hl'.symm.trans hname
    rw [hnamed] at hid
    simp only [hbits]
    rw [update_declareScalar hdeclare, Option.some.inj hid]

theorem update_nativeType_unknown (hu : e.types.knows type = false) :
    e.update (Update.nativeType function type) =
      (.error (.compile (.type (.unknownNativeType function type))), e) := by
  obtain ⟨hl, hs⟩ := knows_eq_false.1 hu
  unfold Update.nativeType
  rw [update_get, hl, hs]
  rfl

theorem wellFormed_withScalars (hw : e.types.WellFormed) (names : List Ident) :
    (e.withScalars names).types.WellFormed ∧
      e.types.GrowsByScalars (e.withScalars names).types := by
  obtain ⟨hw', hg, -⟩ := hw.foldl_withFieldScalar [] names
  exact ⟨hw', hg⟩

theorem knows_withScalars (hw : e.types.WellFormed) (names : List Ident) :
    (e.withScalars names).types.knows = e.types.knows := by
  obtain ⟨hw', hg⟩ := wellFormed_withScalars hw names
  exact funext (hg.knows_eq hw hw')

theorem update_nativeTypes (function : Ident) (hw : e.types.WellFormed)
    (hk : ∀ name ∈ names, e.types.knows name = true) :
    ∃ ids, e.update (names.mapM (Update.nativeType function)) = (.ok ids, e.withScalars names) ∧
      List.Forall₂ (fun name id => (e.withScalars names).types.typeNamed? name = some id) names ids := by
  induction names generalizing e with
  | nil => exact ⟨[], rfl, .nil⟩
  | cons name rest ih =>
    obtain ⟨hname, hrest⟩ := List.forall_mem_cons.1 hk
    obtain ⟨hw', -⟩ := wellFormed_withScalars hw [name]
    obtain ⟨id, hid, hnamed⟩ := update_nativeType function name hw hname
    obtain ⟨ids, hids, hall⟩ := ih hw' (by rwa [knows_withScalars hw])
    refine ⟨id :: ids, ?_, ?_⟩
    · rw [List.mapM_cons, update_bind_ok hid, update_bind_ok hids]
      rfl
    · rw [withScalars_cons]
      obtain ⟨hw'', hg⟩ := wellFormed_withScalars hw' rest
      exact .cons (hg.toGrows.typeNamed? hw'' hnamed) hall

/-- The names after the first unknown one are not looked at. -/
theorem update_nativeTypes_unknown (hw : e.types.WellFormed)
    (hu : names.find? (fun name => !e.types.knows name) = some unknown) :
    e.update (names.mapM (Update.nativeType function)) =
      (.error (.compile (.type (.unknownNativeType function unknown))),
        e.withScalars (names.takeWhile e.types.knows)) := by
  induction names generalizing e with
  | nil => cases hu
  | cons name rest ih =>
    rw [List.mapM_cons, List.takeWhile_cons]
    cases hk : e.types.knows name with
    | false =>
      rw [List.find?_cons_of_pos (by simp [hk])] at hu
      cases hu
      rw [update_bind_error (update_nativeType_unknown hk)]
      rfl
    | true =>
      rw [List.find?_cons_of_neg (by simp [hk])] at hu
      obtain ⟨hw', -⟩ := wellFormed_withScalars hw [name]
      obtain ⟨id, hid, -⟩ := update_nativeType function name hw hk
      have hrest := ih hw' (by rwa [knows_withScalars hw])
      rw [knows_withScalars hw] at hrest
      rw [update_bind_ok hid, update_bind_error hrest, if_pos rfl]
      rfl

/-! ### Native functions -/

theorem takeWhile_append_of_exists {α : Type} {p : α → Bool} {xs ys : List α}
    (h : ∃ x ∈ xs, p x = false) : (xs ++ ys).takeWhile p = xs.takeWhile p := by
  rw [List.takeWhile_append, if_neg]
  intro hlen
  obtain ⟨x, hx, hp⟩ := h
  have hall := List.takeWhile_eq_self_iff.1 ((List.takeWhile_prefix p).eq_of_length hlen) x hx
  rw [hp] at hall
  cases hall

theorem update_defineNative_unknown (hw : e.types.WellFormed)
    (hu : (n.params ++ [n.returns]).find? (fun name => !e.types.knows name) = some unknown) :
    e.update (Update.defineNative n) =
      (.error (.compile (.type (.unknownNativeType n.name unknown))),
        e.withScalars ((n.params ++ [n.returns]).takeWhile e.types.knows)) := by
  unfold Update.defineNative
  rw [List.find?_append] at hu
  cases hp : n.params.find? (fun name => !e.types.knows name) with
  | some name =>
    rw [hp] at hu
    cases hu
    have hex : ∃ name ∈ n.params, e.types.knows name = false :=
      ⟨_, List.mem_of_find?_eq_some hp, by simpa using List.find?_some hp⟩
    rw [update_bind_error (update_nativeTypes_unknown hw hp), takeWhile_append_of_exists hex]
  | none =>
    rw [hp, Option.none_or, List.find?_singleton] at hu
    split at hu
    · rename_i hret
      cases hu
      have hknown : ∀ name ∈ n.params, e.types.knows name = true := by
        simpa using List.find?_eq_none.1 hp
      obtain ⟨ids, hids, -⟩ := update_nativeTypes n.name hw hknown
      have hret' : e.types.knows n.returns = false := by simpa using hret
      rw [update_bind_ok hids, update_bind_error (update_nativeType_unknown
        (by rwa [knows_withScalars hw])), List.takeWhile_append_of_pos hknown,
        List.takeWhile_cons_of_neg (by simp [hret']), List.append_nil]
    · cases hu

/-- A native function whose types are known is registered unless it is called like a type. -/
theorem update_defineNative (hw : e.types.WellFormed)
    (hk : ∀ name ∈ n.params ++ [n.returns], e.types.knows name = true) :
    ∃ params returns,
      List.Forall₂ (fun name id =>
        (e.withScalars (n.params ++ [n.returns])).types.typeNamed? name = some id) n.params params ∧
      (e.withScalars (n.params ++ [n.returns])).types.typeNamed? n.returns = some returns ∧
      e.update (Update.defineNative n) =
        (e.withScalars (n.params ++ [n.returns])).update
          (Update.register n.name (.native ⟨n.name, params, returns, n.run⟩)) := by
  obtain ⟨hw', -⟩ := wellFormed_withScalars hw n.params
  obtain ⟨hw'', hg⟩ := wellFormed_withScalars hw' [n.returns]
  obtain ⟨params, hparams, hall⟩ := update_nativeTypes n.name hw
    fun name hm => hk name (List.mem_append_left _ hm)
  obtain ⟨returns, hreturns, hnamed⟩ := update_nativeType n.name n.returns hw'
    (by rw [knows_withScalars hw]; exact hk _ (by simp))
  rw [withScalars_append]
  refine ⟨params, returns, hall.imp fun _ _ h => hg.toGrows.typeNamed? hw'' h, hnamed, ?_⟩
  unfold Update.defineNative
  rw [update_bind_ok hparams, update_bind_ok hreturns]

theorem unknown_or_known (e : Engine) (n : NativeDef) :
    (∃ unknown, (n.params ++ [n.returns]).find? (fun name => !e.types.knows name) = some unknown) ∨
      ∀ name ∈ n.params ++ [n.returns], e.types.knows name = true := by
  cases hu : (n.params ++ [n.returns]).find? (fun name => !e.types.knows name) with
  | some unknown => exact .inl ⟨unknown, rfl⟩
  | none => exact .inr (by simpa only [Bool.not_eq_true, Bool.not_eq_false'] using List.find?_eq_none.1 hu)

theorem update_register_taken {name : Ident} (f : Function) (h : (e.types.lookup name).isSome) :
    e.update (Update.register name f) = (.error (.compile (.type (.nameIsType name))), e) := by
  unfold Update.register
  rw [update_get, if_pos h]
  rfl

theorem refused_register {name : Ident} {f : Function} {err : Error}
    (h : e.update (Update.register name f) = (.error err, e')) : e' = e := by
  cases hl : e.types.lookup name with
  | none =>
    rw [update_register f hl] at h
    cases h
  | some id =>
    rw [update_register_taken f (Option.isSome_of_eq_some hl)] at h
    cases h
    rfl

/-- A native function is registered if its types are known and it is called like none of them, those
that are registered with it included. -/
theorem update_defineNative_isOk_iff (hw : e.types.WellFormed) :
    (∃ e', e.update (Update.defineNative n) = (.ok (), e')) ↔
      (∀ name ∈ n.params ++ [n.returns], e.types.knows name = true) ∧
        (e.withScalars (n.params ++ [n.returns])).types.lookup n.name = none := by
  rcases unknown_or_known e n with ⟨unknown, hu⟩ | hk
  · rw [update_defineNative_unknown hw hu]
    refine ⟨fun ⟨_, h⟩ => (by cases h), fun ⟨hk, _⟩ => ?_⟩
    have hunknown : e.types.knows unknown = false := by simpa using List.find?_some hu
    rw [hk unknown (List.mem_of_find?_eq_some hu)] at hunknown
    cases hunknown
  · obtain ⟨params, returns, -, -, hregister⟩ := update_defineNative hw hk
    rw [hregister, and_iff_right hk]
    cases hl : (e.withScalars (n.params ++ [n.returns])).types.lookup n.name with
    | none => exact ⟨fun _ => rfl, fun _ => ⟨_, update_register _ hl⟩⟩
    | some id =>
      rw [update_register_taken _ (Option.isSome_of_eq_some hl)]
      exact ⟨fun ⟨_, h⟩ => (by cases h), fun h => (by cases h)⟩

theorem update_defineNative_eq_ok (hw : e.types.WellFormed)
    (h : e.update (Update.defineNative n) = (.ok (), e')) : ∃ params returns,
      List.Forall₂ (fun name id => e'.types.typeNamed? name = some id) n.params params ∧
      e'.types.typeNamed? n.returns = some returns ∧
      e' = (e.withScalars (n.params ++ [n.returns])).withFunction n.name
        (.native ⟨n.name, params, returns, n.run⟩) := by
  obtain ⟨hk, hfree⟩ := (update_defineNative_isOk_iff hw).1 ⟨e', h⟩
  obtain ⟨params, returns, hparams, hreturns, hregister⟩ := update_defineNative hw hk
  rw [hregister, update_register _ hfree] at h
  cases h
  exact ⟨params, returns, hparams, hreturns, rfl⟩

end Engine

/-! ### Refused registrations -/

/-- The names that a request resolves on the way: those of a native function up to the first unknown
one. -/
def Request.resolves (t : TypeTable) : Request → List Ident
  | defineNative n => (n.params ++ [n.returns]).takeWhile t.knows
  | _ => []

theorem Request.knows_of_mem_resolves {t : TypeTable} {r : Request} {name : Ident}
    (h : name ∈ r.resolves t) : t.knows name = true := by
  cases r with
  | defineNative n => exact List.mem_takeWhile_imp h
  | _ => cases h

namespace Engine

variable {e e' : Engine} {n : NativeDef} {names : List Ident} {err : Error}

theorem withScalars_eq_iff (hw : e.types.WellFormed) (hk : ∀ name ∈ names, e.types.knows name = true) :
    e.withScalars names = e ↔ ∀ name ∈ names, (e.types.typeNamed? name).isSome := by
  rw [← hw.foldl_eq_iff hk]
  constructor
  · exact fun h => congrArg Engine.types h
  · intro h
    unfold withScalars
    rw [h]

theorem refused_native (hw : e.types.WellFormed)
    (h : e.update (Update.defineNative n) = (.error err, e')) :
    e' = e.withScalars ((n.params ++ [n.returns]).takeWhile e.types.knows) := by
  rcases unknown_or_known e n with ⟨unknown, hu⟩ | hk
  · rw [update_defineNative_unknown hw hu] at h
    cases h
    rfl
  · obtain ⟨params, returns, -, -, hregister⟩ := update_defineNative hw hk
    rw [hregister] at h
    rw [refused_register h, List.takeWhile_eq_self_iff.2 hk]

/-- A registration that is refused changes nothing but the types. These are left with the scalars that a
native function names before the first unknown type; so nothing changes at all if and only if none of
these scalars was missing, and never if types or another kind of function were to be registered. -/
theorem Reached.refused_registration {kind : Engine → Request → Prop} (h : Reached kind e) {r : Request}
    (hr : ¬ r.IsServed) {fuel : Nat} (hrun : e.run (r.perform fuel) = .ok (.error err, e')) :
    e' = { e with types := (r.resolves e.types).foldl (withFieldScalar []) e.types } ∧
    (e' = e ↔ ∀ name ∈ r.resolves e.types, (e.types.typeNamed? name).isSome) ∧
    ((∀ n, r ≠ .defineNative n) → e' = e) := by
  have hw := h.wellFormed.types
  have hscalars : e' = e.withScalars (r.resolves e.types) := by
    cases r with
    | declareTypes group =>
      change e.run (Run.ofUpdate (Update.declareTypes group) >>= fun _ => pure ()) = _ at hrun
      rw [run_bind] at hrun
      change (Except.ok (e.update (Update.declareTypes group)) >>= _ : Except Halt _) = _ at hrun
      rw [update_declareTypes] at hrun
      split at hrun
      · cases hrun
      · cases hrun
        rfl
    | decorate d => exact refused_register (Except.ok.inj hrun)
    | define d => exact refused_register (Except.ok.inj hrun)
    | defineNative n => exact refused_native hw (Except.ok.inj hrun)
    | declareScalar _ | specialize _ _ | call _ _ | callHandle _ _ | verify _ _ => exact absurd trivial hr
  refine ⟨hscalars, ?_, fun hn => ?_⟩
  · rw [hscalars]
    exact withScalars_eq_iff hw fun name hm => Request.knows_of_mem_resolves hm
  · rw [hscalars]
    cases r with
    | defineNative n => exact absurd rfl (hn n)
    | _ => rfl

end Engine

/-! ### A native function with an unknown return type -/

namespace Catalog

/-- A native function of one parameter that returns a type which nobody declares. -/
def lost (param : Ident) : NativeDef := ⟨"lost", [param], "Nope", Callback.argument 0⟩

/-- With a parameter that is registered the function is refused without a trace. -/
theorem refused_lost : ∃ e', Engine.default.run ((Request.defineNative (lost "u24")).perform 0) =
    .ok (.error (.compile (.type (.unknownNativeType "lost" "Nope"))), e') ∧ e' = Engine.default := by
  have hrun : ∃ e', Engine.default.run ((Request.defineNative (lost "u24")).perform 0) =
      .ok (.error (.compile (.type (.unknownNativeType "lost" "Nope"))), e') :=
    ⟨_, by with_unfolding_all rfl⟩
  obtain ⟨e', hrun⟩ := hrun
  have hreachable : Engine.default.Reachable := Engine.reached_default
  obtain ⟨-, hiff, -⟩ := hreachable.refused_registration (r := .defineNative (lost "u24")) id hrun
  refine ⟨e', hrun, hiff.2 ?_⟩
  have hresolves : (Request.defineNative (lost "u24")).resolves Engine.default.types = ["u24"] := by
    with_unfolding_all rfl
  rw [hresolves, List.forall_mem_singleton]
  with_unfolding_all rfl

/-- With a parameter of eight bits the function is refused, but the scalar stays. -/
theorem lost_leaves_scalar : Engine.default.Reachable ∧ Engine.default.types.size = 1 ∧
    ∃ e', Engine.default.run ((Request.defineNative (lost "u8")).perform 0) =
        .ok (.error (.compile (.type (.unknownNativeType "lost" "Nope"))), e') ∧ e'.types.size = 2 :=
  ⟨Engine.reached_default, by with_unfolding_all rfl, _, by with_unfolding_all rfl,
    by with_unfolding_all rfl⟩

end Catalog

end ShapeCompiler
