import ShapeCompiler.Proofs.Declarations
import ShapeCompiler.Proofs.Engine.Registrations

/-!
What a scalar may be called where a type is expected.

A field is looked up by its name once the scalar that this name is read as is registered; a native
function takes the scalar itself. Main statement: a field needs the name under which the scalar is
stored, a native function any name that is read as the scalar, and where both accept a name, they mean
the same type (`Engine.scalar_names`).
-/

namespace ShapeCompiler

open TypeTable

namespace TypeTable

variable {t : TypeTable} {name record : Ident} {fields : List (Ident × Ident)} {group : List TypeDecl}
  {n : NativeDef}

/-! ### Requests that depend on a name -/

/-- A group that fits the table but for the type of a name, which some field of a new record has. -/
structure AwaitsField (t : TypeTable) (name : Ident) (group : List TypeDecl) : Prop where
  fits : t.Fits (fun type => type = name ∨ (t.lookup type).isSome ∨ type.IsScalar) group
  undeclared : ∀ d ∈ group, d.name ≠ name
  field : ∃ record fields, .record record fields ∈ group ∧ t.lookup record = none ∧
    name ∈ fields.map Prod.snd

/-- A native function that can be registered but for the type of a name, which it takes or returns. -/
structure AwaitsNative (t : TypeTable) (name : Ident) (n : NativeDef) : Prop where
  free : t.lookup n.name = none
  /-- The function is not called like a scalar that is registered with it. -/
  apart : ∀ type ∈ n.params ++ [n.returns], ∀ bits, scalarWidth type = some bits →
    scalarName bits ≠ n.name
  types : ∀ type ∈ n.params ++ [n.returns], type = name ∨ t.knows type = true
  mem : name ∈ n.params ++ [n.returns]

/-- In a group that is accepted, a type that is not declared there is registered or a scalar. -/
theorem Accepts.known (ha : t.Accepts group) (hu : ∀ d ∈ group, d.name ≠ name)
    (hm : .record record fields ∈ group) (hnew : t.lookup record = none)
    (htype : name ∈ fields.map Prod.snd) : (t.lookup name).isSome ∨ name.IsScalar := by
  refine ((ha.records record fields hm hnew).2 name htype).resolve_left ?_
  rintro ⟨d, hd, hn⟩
  exact hu d hd hn

/-- The group fits the table if and only if the name is that of a scalar. -/
theorem AwaitsField.accepts_iff (h : t.AwaitsField name group) (hnone : t.lookup name = none) :
    t.Accepts group ↔ name.IsScalar := by
  constructor
  · intro ha
    obtain ⟨record, fields, hm, hnew, htype⟩ := h.field
    refine (ha.known h.undeclared hm hnew htype).resolve_left ?_
    rw [hnone]
    exact Bool.false_ne_true
  · intro hs
    refine ⟨h.fits.not_scalar, h.fits.named, h.fits.sums, fun record fields hm hnew => ?_⟩
    obtain ⟨hn, htypes⟩ := h.fits.records record fields hm hnew
    refine ⟨hn, fun type htype => (htypes type htype).imp_right ?_⟩
    rintro (rfl | hknown)
    · exact .inr hs
    · exact hknown

theorem Registered.foldl_withFieldScalar (h : t.Registered) (names : List Ident) :
    (names.foldl (withFieldScalar []) t).Registered := by
  induction names generalizing t with
  | nil => exact h
  | cons name rest ih =>
    refine ih ?_
    unfold withFieldScalar
    split
    · exact h
    · split
      · rename_i bits hbits
        exact .scalar h (declareScalar_eq_ok.2 ⟨width_of_scalarWidth hbits, rfl, rfl⟩)
      · exact h

theorem Registered.fields_of_declared (h : t.Registered) (hm : .record record fields ∈ t.declared) :
    ∃ rid r, t.recordNamed? record = some (rid, r) ∧
      List.Forall₂ (fun p f => f.name = p.1 ∧ t.lookup p.2 = some f.type) fields r.fields := by
  obtain ⟨rid, hid, r, hr, -, hall⟩ := h.documented.realised _ hm
  exact ⟨rid, r, recordNamed?_eq_some.2 ⟨hid, hr⟩, hall⟩

end TypeTable

namespace Engine

variable {e e₁ e₂ : Engine} {name : Ident} {group : List TypeDecl} {n : NativeDef} {ids : List TypeId}

/-- The native function is registered if and only if the name is read as a scalar. -/
theorem defineNative_isOk_iff (hw : e.types.WellFormed) (h : e.types.AwaitsNative name n)
    (hnone : e.types.lookup name = none) :
    (∃ e', e.update (Update.defineNative n) = (.ok (), e')) ↔ (scalarWidth name).isSome := by
  have hfree : (e.withScalars (n.params ++ [n.returns])).types.lookup n.name = none := by
    refine Option.not_isSome_iff_eq_none.1 fun hl => ?_
    rcases lookup_foldl_cases hl with hl | ⟨type, hm, bits, hbits, hname⟩
    · rw [h.free] at hl
      cases hl
    · exact h.apart type hm bits hbits hname
  have hknows : e.types.knows name = (scalarWidth name).isSome := by simp [knows, hnone]
  rw [update_defineNative_isOk_iff hw, and_iff_left hfree, ← hknows]
  constructor
  · exact fun hk => hk name h.mem
  · rintro hk type htype
    rcases h.types type htype with rfl | hknown
    · exact hk
    · exact hknown

/-! ### One type -/

/-- The number is that of a scalar, and of every field of a group and every place of a native function
with a name. -/
structure Denotes (e : Engine) (name : Ident) (group : List TypeDecl) (n : NativeDef) (id : TypeId) :
    Prop where
  lookup : e.types.lookup name = some id
  scalar : ∃ bits, scalarWidth name = some bits ∧ e.types.get? id = some (.scalar bits)
  fields : ∀ record fields, .record record fields ∈ group →
    ∃ rid r, e.types.recordNamed? record = some (rid, r) ∧
      List.Forall₂ (fun p f => f.name = p.1 ∧ (p.2 = name → f.type = id)) fields r.fields
  native : ∃ m, e.functions.get? n.name = some (.native m) ∧
    List.Forall₂ (fun type p => type = name → p = id) n.params m.params ∧
    (n.returns = name → m.returns = id)

theorem denotes_of_registered (h : e.types.Registered) (hs : name.IsScalar)
    (hgroup : ∀ d ∈ group, d ∈ e.types.declared)
    (hfield : ∃ record fields, .record record fields ∈ group ∧ name ∈ fields.map Prod.snd) {m : Native}
    (hm : e.functions.get? n.name = some (.native m))
    (hparams : List.Forall₂ (fun name id => e.types.typeNamed? name = some id) n.params m.params)
    (hreturns : e.types.typeNamed? n.returns = some m.returns) : ∃ id, e.Denotes name group n id := by
  obtain ⟨id, hid⟩ : ∃ id, e.types.lookup name = some id := by
    obtain ⟨record, fields, hrec, htype⟩ := hfield
    obtain ⟨-, r, -, hall⟩ := h.fields_of_declared (hgroup _ hrec)
    obtain ⟨p, hp, rfl⟩ := List.mem_map.1 htype
    obtain ⟨f, -, hf⟩ := exists_forall₂_iff.1 ⟨_, hall⟩ p hp
    exact ⟨f.type, hf⟩
  have hnamed : ∀ {type p}, e.types.typeNamed? type = some p → type = name → p = id := by
    rintro type p hp rfl
    rw [typeNamed?_eq_lookup hs, hid] at hp
    exact (Option.some.inj hp).symm
  refine ⟨id, hid, ?_, fun record fields hrec => ?_, m, hm, hparams.imp fun _ _ => hnamed,
    hnamed hreturns⟩
  · obtain ⟨bits, h1, h64, rfl, hbits⟩ := hs.width
    exact ⟨bits, hbits, h.wellFormed.get?_of_scalar? h1 h64 hid⟩
  · obtain ⟨rid, r, hr, hall⟩ := h.fields_of_declared (hgroup _ hrec)
    refine ⟨rid, r, hr, hall.imp ?_⟩
    rintro p f ⟨hn, hl⟩
    refine ⟨hn, fun hp => ?_⟩
    rw [hp, hid] at hl
    exact (Option.some.inj hl).symm

theorem denotes_of_declare_first (h : e.types.Registered) (hf : e.types.AwaitsField name group)
    (hnone : e.types.lookup name = none) (hd : e.update (Update.declareTypes group) = (.ok ids, e₁))
    (hn : e₁.update (Update.defineNative n) = (.ok (), e₂)) : ∃ id, e₂.Denotes name group n id := by
  obtain ⟨t, hdeclare, rfl⟩ := update_declareTypes_eq_ok.1 hd
  have ht : t.Registered := .declare h hdeclare
  obtain ⟨params, returns, hparams, hreturns, rfl⟩ := update_defineNative_eq_ok ht.wellFormed hn
  obtain ⟨-, -, hdeclared⟩ := ht.wellFormed.foldl_withFieldScalar [] (n.params ++ [n.returns])
  have hs := (hf.accepts_iff hnone).1 (h.declare_isOk_iff.1 ⟨_, _, hdeclare⟩)
  obtain ⟨record, fields, hm, -, htype⟩ := hf.field
  refine denotes_of_registered (ht.foldl_withFieldScalar _) hs (fun d hd => ?_)
    ⟨record, fields, hm, htype⟩ (Assoc.get?_insert_self _ _ _) hparams hreturns
  have := h.wellFormed.mem_declared_of_declare hdeclare hd
  rwa [← hdeclared] at this

theorem denotes_of_native_first (h : e.types.Registered) (hf : e.types.AwaitsField name group)
    (hnone : e.types.lookup name = none) (hn : e.update (Update.defineNative n) = (.ok (), e₁))
    (hd : e₁.update (Update.declareTypes group) = (.ok ids, e₂)) : ∃ id, e₂.Denotes name group n id := by
  have hw := h.wellFormed
  obtain ⟨params, returns, hparams, hreturns, rfl⟩ := update_defineNative_eq_ok hw hn
  obtain ⟨t, hdeclare, rfl⟩ := update_declareTypes_eq_ok.1 hd
  have h₁ := h.foldl_withFieldScalar (n.params ++ [n.returns])
  obtain ⟨hw₁, hg₁⟩ := wellFormed_withScalars hw (n.params ++ [n.returns])
  have ht : t.Registered := .declare h₁ hdeclare
  obtain ⟨-, hg, -⟩ := hw₁.declare hdeclare
  obtain ⟨record, fields, hm, hnew, htype⟩ := hf.field
  -- what the native function has registered is no record, and the name only if it is a scalar
  have later : ∀ {other}, e.types.lookup other = none →
      ((e.withScalars (n.params ++ [n.returns])).types.lookup other).isSome → other.IsScalar := by
    intro other hother hl
    refine (hg₁.lookup_cases hw hw₁ hl).resolve_left ?_
    rw [hother]
    exact Bool.false_ne_true
  have hs : name.IsScalar := by
    have ha := h₁.declare_isOk_iff.1 ⟨_, _, hdeclare⟩
    have hnew₁ : (e.withScalars (n.params ++ [n.returns])).types.lookup record = none := by
      refine Option.not_isSome_iff_eq_none.1 fun hl => ?_
      obtain ⟨bits, -, -, -, hbits⟩ := (later hnew hl).width
      have := hf.fits.not_scalar _ hm
      rw [TypeDecl.name, hbits] at this
      cases this
    exact (ha.known hf.undeclared hm hnew₁ htype).elim (later hnone) id
  exact denotes_of_registered ht hs (fun d hd => hw₁.mem_declared_of_declare hdeclare hd)
    ⟨record, fields, hm, htype⟩ (Assoc.get?_insert_self _ _ _)
    (hparams.imp fun _ _ hp => hg.typeNamed? ht.wellFormed hp) (hg.typeNamed? ht.wellFormed hreturns)

/-- A name is read as a scalar if it is the letter u and a number from 1 to 64, in front of which there
may be a plus sign and zeros. Where no type has the name, a field of that type is accepted if and only
if a scalar is stored under it, and a native function of that type if and only if it is read as a
scalar; where one request after the other is accepted, in either order, both have the same type for the
name. -/
theorem scalar_names (name : Ident) :
    (∀ bits, scalarWidth name = some bits ↔ 1 ≤ bits ∧ bits ≤ 64 ∧ name.Spells bits) ∧
    ∀ {e : Engine} {group : List TypeDecl} {n : NativeDef}, e.types.Registered →
      e.types.lookup name = none → e.types.AwaitsField name group → e.types.AwaitsNative name n →
      ((∃ ids e', e.update (Update.declareTypes group) = (.ok ids, e')) ↔ name.IsScalar) ∧
      ((∃ e', e.update (Update.defineNative n) = (.ok (), e')) ↔ (scalarWidth name).isSome) ∧
      (∀ ids e₁ e₂, e.update (Update.declareTypes group) = (.ok ids, e₁) →
        e₁.update (Update.defineNative n) = (.ok (), e₂) → ∃ id, e₂.Denotes name group n id) ∧
      ∀ ids e₁ e₂, e.update (Update.defineNative n) = (.ok (), e₁) →
        e₁.update (Update.declareTypes group) = (.ok ids, e₂) → ∃ id, e₂.Denotes name group n id := by
  refine ⟨fun bits => scalarWidth_eq_some, fun {e group n} h hnone hf hn => ⟨?_, ?_, ?_, ?_⟩⟩
  · rw [declareTypes_isOk_iff h, hf.accepts_iff hnone]
  · exact defineNative_isOk_iff h.wellFormed hn hnone
  · exact fun ids e₁ e₂ => denotes_of_declare_first h hf hnone
  · exact fun ids e₁ e₂ => denotes_of_native_first h hf hnone

end Engine

/-! ### A scalar with a zero in front -/

namespace Catalog

theorem default_registered : Engine.default.types.Registered := by
  have h : TypeTable.declareScalar {} Uint.defaultBits = .ok (⟨0⟩, Engine.default.types) := by
    with_unfolding_all rfl
  exact .scalar .empty h

/-- A record of two numbers, one of 16 bits. -/
def pixelTypes : List TypeDecl := [.record "Pixel" [("x", "u16"), ("y", "u24")]]

/-- A native function that returns a number of 16 bits. -/
def half : NativeDef := ⟨"half", ["u24"], "u16", Callback.argument 0⟩

/-- The record and the native function can be registered in either order, and have one type for the
numbers of 16 bits. -/
theorem scalar_names_pixel :
    (∃ ids e₁ e₂, Engine.default.update (Update.declareTypes pixelTypes) = (.ok ids, e₁) ∧
      e₁.update (Update.defineNative half) = (.ok (), e₂) ∧ ∃ id, e₂.Denotes "u16" pixelTypes half id) ∧
    ∃ ids e₁ e₂, Engine.default.update (Update.defineNative half) = (.ok (), e₁) ∧
      e₁.update (Update.declareTypes pixelTypes) = (.ok ids, e₂) ∧
      ∃ id, e₂.Denotes "u16" pixelTypes half id := by
  have hf : Engine.default.types.AwaitsField "u16" pixelTypes := by
    refine ⟨⟨?_, ?_, ?_, ?_⟩, ?_, "Pixel", _, List.mem_singleton.2 rfl, ?_, by simp⟩
    · exact List.forall_mem_singleton.2 (by with_unfolding_all rfl)
    · exact List.forall_mem_singleton.2 (.inr ⟨by with_unfolding_all rfl, by decide⟩)
    · intro name variants hm
      cases List.mem_singleton.1 hm
    · intro record fields hm _
      cases List.mem_singleton.1 hm
      refine ⟨by simp, fun type htype => .inr ?_⟩
      rcases List.mem_pair.1 htype with rfl | rfl
      · exact .inl rfl
      · exact .inr (.inl (by with_unfolding_all rfl))
    · exact List.forall_mem_singleton.2 (by decide)
    · with_unfolding_all rfl
  have hn : Engine.default.types.AwaitsNative "u16" half := by
    refine ⟨by with_unfolding_all rfl, ?_, ?_, by simp [half]⟩
    · intro type _ bits _ h
      have := congrArg String.toList h
      simp [half, scalarName] at this
    · intro type htype
      rcases List.mem_pair.1 htype with rfl | rfl
      · exact .inr (by with_unfolding_all rfl)
      · exact .inl rfl
  obtain ⟨-, -, hdeclare, hnative⟩ := (Engine.scalar_names "u16").2 default_registered
    (by with_unfolding_all rfl) hf hn
  refine ⟨⟨_, _, _, by with_unfolding_all rfl, by with_unfolding_all rfl, ?_⟩,
    _, _, _, by with_unfolding_all rfl, by with_unfolding_all rfl, ?_⟩
  · exact hdeclare _ _ _ (by with_unfolding_all rfl) (by with_unfolding_all rfl)
  · exact hnative _ _ _ (by with_unfolding_all rfl) (by with_unfolding_all rfl)

/-- A name with a zero in front is read as a scalar: a native function may take it, but no field. -/
theorem padded_name : Engine.default.Reachable ∧ Engine.default.types.lookup "u08" = none ∧
    scalarWidth "u08" = some 8 ∧
    Engine.default.update (Update.declareTypes [.record "P" [("x", "u08")]]) =
      (.error (.compile (.type (.unresolvedField "u08" "P" "x"))), Engine.default) ∧
    (Engine.default.update (Update.defineNative ⟨"n", ["u08"], "u24", Callback.argument 0⟩)).1 =
      .ok () :=
  ⟨Engine.reached_default, by with_unfolding_all rfl, by with_unfolding_all rfl,
    by with_unfolding_all rfl, by with_unfolding_all rfl⟩

end Catalog

end ShapeCompiler
