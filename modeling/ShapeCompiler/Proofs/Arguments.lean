import ShapeCompiler.Proofs.Engine.Sessions
import ShapeCompiler.Proofs.Machine.Operations

/-!
Values on their way between the host and compiled code.

Main statements: values of the types of a signature are encoded to their forms and decoded again
(`TypeTable.WellFormed.encodeAll_eq`, `TypeTable.WellFormed.decodeAll_eq`), encoding any arguments is
encoding the normalised ones (`TypeTable.WellFormed.normalizeAll_of_encodeAll`), further scalars do not
change what a value is encoded to (`TypeTable.GrowsByScalars.encode_eq`), values with declared widths
have the types of the signature that they are specialised on (`Engine.run_signatureOf`), and arguments
that were specialised once are specialised on the same types again (`Engine.update_signatureOf_again`).
-/

namespace ShapeCompiler

open TypeTable

variable {t t' : TypeTable} {id : TypeId} {v : Value} {vs : List Value} {c : Compiled}
  {cs : List Compiled} {fs : List Field}

namespace TypeTable

/-! ### Values of known types -/

theorem WellFormed.encode_eq (hw : t.WellFormed) (hs : (StaticType.known id).Has t v)
    (hf : t.Form v c) : t.encode v id = .ok c := by
  rcases hs.1 with rfl | ha
  · rw [hf.of_incomplete]
    exact encode_incomplete id
  · exact hw.encode_of_encodes (hf.of_admits ha) ha

theorem WellFormed.decode_eq (hw : t.WellFormed) (hs : (StaticType.known id).Has t v)
    (hf : t.Form v c) : t.decode c id = .ok v := by
  rcases hs.1 with rfl | ha
  · rw [hf.of_incomplete]
    exact decode_incomplete id
  · exact hw.decode_of_encodes (hf.of_admits ha) ha

theorem forms_normal (h : Forms t vs cs) : ∀ v ∈ vs, t.Normal v := by
  induction h with
  | nil => simp
  | cons h _ ih => exact List.forall_mem_cons.2 ⟨⟨_, h⟩, ih⟩

theorem exists_forms (h : ∀ v ∈ vs, t.Normal v) : ∃ cs, Forms t vs cs := by
  induction vs with
  | nil => exact ⟨[], .nil⟩
  | cons v rest ih =>
    obtain ⟨c, hc⟩ := h v (by simp)
    obtain ⟨cs, hcs⟩ := ih fun x hx => h x (List.mem_cons_of_mem _ hx)
    exact ⟨c :: cs, .cons hc hcs⟩

theorem WellFormed.encodeAll_eq (hw : t.WellFormed) {ids : List TypeId} (hs : ArgsHave t ids vs)
    (hf : Forms t vs cs) : t.encodeAll vs ids = .ok cs := by
  induction hs generalizing cs with
  | nil => cases hf; rfl
  | cons h _ ih =>
    cases hf with
    | cons hf hfs => rw [encodeAll, hw.encode_eq h hf, ih hfs]; rfl

theorem WellFormed.decodeAll_eq (hw : t.WellFormed) {types : List (Option TypeId)}
    (hs : List.Forall₂ (fun type v => (StaticType.ofReturn type).Has t v) types vs)
    (hf : Forms t vs cs) : t.decodeAll cs types = .ok vs := by
  induction hs generalizing cs with
  | nil => cases hf; rfl
  | @cons type v _ _ h _ ih =>
    cases hf with
    | @cons _ c _ _ hf hfs =>
      cases type with
      | none =>
        obtain rfl : v = .incomplete := h.1
        simp only [decodeAll, ih hfs]
        rfl
      | some id =>
        simp only [decodeAll, ih hfs, hw.decode_eq h hf]
        rfl

/-! ### Normalised arguments -/

theorem WellFormed.normalize_of_encode (hw : t.WellFormed) (h : t.encode v id = .ok c) :
    ∃ w, t.normalize v id = .ok w ∧ t.Form w c ∧ (StaticType.known id).Has t w := by
  unfold normalize
  rw [h]
  rcases hw.encodes_of_encode h with ⟨-, rfl⟩ | ⟨-, w, he, ha⟩
  · exact ⟨.incomplete, decode_incomplete id, .sentinel, .sentinel (by simp)⟩
  · exact ⟨w, hw.decode_of_encodes he ha, .inr he, .inr ha, he.normal⟩

theorem WellFormed.normalizeAll_of_encodeAll (hw : t.WellFormed) {ids : List TypeId}
    (hlen : vs.length = ids.length) (h : t.encodeAll vs ids = .ok cs) :
    ∃ ws, t.normalizeAll vs ids = .ok ws ∧ Forms t ws cs ∧ ArgsHave t ids ws := by
  induction vs generalizing ids cs with
  | nil =>
    obtain rfl := List.length_eq_zero_iff.1 hlen.symm
    cases h
    exact ⟨[], rfl, .nil, .nil⟩
  | cons v vs ih =>
    obtain ⟨id, ids, rfl⟩ := List.exists_cons_of_length_eq_add_one hlen.symm
    rw [encodeAll] at h
    obtain ⟨c, hc, h⟩ := bind_eq_ok.1 h
    obtain ⟨cs, hcs, h⟩ := bind_eq_ok.1 h
    cases h
    obtain ⟨w, hw', hform, hhas⟩ := hw.normalize_of_encode hc
    obtain ⟨ws, hws, hforms, hargs⟩ := ih (by simpa using hlen) hcs
    refine ⟨w :: ws, ?_, .cons hform hforms, .cons hhas hargs⟩
    rw [normalizeAll, hw', hws]
    rfl

/-- Arguments that can be normalised can be encoded. -/
theorem encodeAll_of_normalizeAll {ids : List TypeId} {ws : List Value}
    (h : t.normalizeAll vs ids = .ok ws) : ∃ cs, t.encodeAll vs ids = .ok cs := by
  induction vs generalizing ids ws with
  | nil => exact ⟨[], rfl⟩
  | cons v vs ih =>
    cases ids with
    | nil => exact ⟨[], rfl⟩
    | cons id ids =>
      rw [normalizeAll] at h
      obtain ⟨w, hw, h⟩ := bind_eq_ok.1 h
      obtain ⟨ws, hws, -⟩ := bind_eq_ok.1 h
      obtain ⟨c, hc, -⟩ := bind_eq_ok.1 hw
      obtain ⟨cs, hcs⟩ := ih hws
      refine ⟨c :: cs, ?_⟩
      rw [encodeAll, hc, hcs]
      rfl

/-! ### Further scalars -/

namespace GrowsByScalars

variable (hg : t.GrowsByScalars t')
include hg

theorem name_eq (hs : (t.get? id).isSome) : t'.name id = t.name id := by
  unfold TypeTable.name
  rw [hg.get?_eq hs]

theorem packFields_eq (hfs : ∀ f ∈ fs, (t.get? f.type).isSome) (word : UInt64) (slots : List Slot) :
    t'.packFields word vs slots fs = t.packFields word vs slots fs := by
  induction vs generalizing word slots fs with
  | nil => cases slots <;> rfl
  | cons v vs ih =>
    cases slots with
    | nil => rfl
    | cons s slots =>
      cases fs with
      | nil => rfl
      | cons f fs =>
        rw [packFields, packFields, hg.name_eq (hfs f (by simp))]
        simp only [ih fun f hf => hfs f (List.mem_cons_of_mem _ hf)]

variable (hw : t.WellFormed) (hw' : t'.WellFormed)
include hw hw'

/-- A name that only stands for a new scalar is no instance of a registered type. -/
theorem filter_lookup_eq (hs : (t.get? id).isSome) (hnot : t.scalarBits? id = none) (name : Ident) :
    (t'.lookup name).filter (fun j => j = id ∨ t'.widen j = id) =
      (t.lookup name).filter (fun j => j = id ∨ t.widen j = id) := by
  cases hl : t.lookup name with
  | some j => rw [hg.lookup hw' hl, Option.filter_some, Option.filter_some, hg.widen_eq]
  | none =>
    cases hl' : t'.lookup name with
    | none => rfl
    | some j =>
      obtain ⟨d, hd, rfl⟩ := get?_of_lookup hl'
      obtain ⟨bits, rfl⟩ := (hg.scalars hd).resolve_left fun h => by
        rw [hw.lookup_name h] at hl
        cases hl
      have hrec : t'.record? j = none := by unfold record?; rw [hd]
      have hne : j ≠ id := by
        rintro rfl
        rw [hg.get?_eq hs] at hd
        rw [scalarBits?_eq_some.2 hd] at hnot
        cases hnot
      rw [Option.filter_some, widen_of_no_record hrec]
      simp [hne]

theorem instanceType_eq (hs : (t.get? id).isSome) (hnot : t.scalarBits? id = none) (name : Ident)
    (n : Nat) : t'.instanceType name n id = t.instanceType name n id := by
  unfold instanceType
  rw [hg.filter_lookup_eq hw hw' hs hnot, hg.name_eq hs]
  simp only [hg.record?_eq]

omit hg hw hw' in
/-- The tasks for fields of registered types do the same with further scalars. -/
theorem run_ofFields_eq (hfs : ∀ f ∈ fs, (t.get? f.type).isSome)
    (ih : ∀ v ∈ vs, ∀ {id rest}, (t.get? id).isSome →
      (∀ out, EncodeTask.run t' rest out = EncodeTask.run t rest out) →
      ∀ out, EncodeTask.run t' (.value v id :: rest) out = EncodeTask.run t (.value v id :: rest) out)
    {rest : List EncodeTask} (h : ∀ out, EncodeTask.run t' rest out = EncodeTask.run t rest out) :
    ∀ out, EncodeTask.run t' (EncodeTask.ofFields vs fs ++ rest) out =
      EncodeTask.run t (EncodeTask.ofFields vs fs ++ rest) out := by
  induction vs generalizing fs with
  | nil => exact h
  | cons v vs ihs =>
    cases fs with
    | nil => exact h
    | cons f fs =>
      exact ih v (by simp) (hfs f (by simp)) (ihs (fun f hf => hfs f (List.mem_cons_of_mem _ hf))
        fun x hx => ih x (List.mem_cons_of_mem _ hx))

theorem run_encode_eq {id : TypeId} {rest : List EncodeTask} (hs : (t.get? id).isSome)
    (h : ∀ out, EncodeTask.run t' rest out = EncodeTask.run t rest out) (out : List Compiled) :
    EncodeTask.run t' (.value v id :: rest) out = EncodeTask.run t (.value v id :: rest) out := by
  induction v using Value.ind generalizing id rest out with
  | int n =>
    simp only [EncodeTask.run, hg.get?_eq hs, hg.name_eq hs, h]
  | uint u =>
    simp only [EncodeTask.run, hg.get?_eq hs, hg.name_eq hs, h]
  | incomplete =>
    simp only [EncodeTask.run, h]
  | record name vs ih =>
    obtain ⟨d, hd⟩ := Option.isSome_iff_exists.1 hs
    by_cases hscalar : ∃ bits, d = .scalar bits
    · obtain ⟨bits, rfl⟩ := hscalar
      simp only [EncodeTask.run, hd, hg.get? hd, hg.name_eq hs]
    · have hnot : ∀ bits, d ≠ .scalar bits := fun bits hb => hscalar ⟨bits, hb⟩
      have hbits : t.scalarBits? id = none := by
        cases hb : t.scalarBits? id with
        | none => rfl
        | some bits =>
          rw [scalarBits?_eq_some.1 hb] at hd
          exact absurd (Option.some.inj hd).symm (hnot bits)
      rw [EncodeTask.run_record hd hnot, EncodeTask.run_record (hg.get? hd) hnot,
        hg.instanceType_eq hw hw' hs hbits]
      cases hr : t.instanceType name vs.length id with
      | error err => rfl
      | ok r =>
        obtain ⟨rid, hrec, -⟩ := get?_record_of_instanceType hr
        have hfs := hw.fields (recordNamed?_eq_some.1 hrec).2
        simp only [h]
        split
        · rfl
        · split
          · rw [hg.packFields_eq hfs]
          · refine run_ofFields_eq hfs (fun v hv id rest hs h out => ih v hv hs h out)
              (fun out => ?_) out
            rw [EncodeTask.run, EncodeTask.run, h]

/-- Further scalars do not change what a value is encoded to under a registered type. -/
theorem encode_eq (hs : (t.get? id).isSome) : t'.encode v id = t.encode v id := by
  unfold TypeTable.encode
  rw [hg.run_encode_eq hw hw' hs fun _ => by rw [EncodeTask.run, EncodeTask.run]]

/-- Nor what it is normalised to. -/
theorem normalize_eq (hs : (t.get? id).isSome) : t'.normalize v id = t.normalize v id := by
  cases h : t.encode v id with
  | error err =>
    unfold normalize
    rw [hg.encode_eq hw hw' hs, h]
    rfl
  | ok c =>
    obtain ⟨w, hnorm, hform, hhas⟩ := hw.normalize_of_encode h
    rw [hnorm]
    unfold normalize
    rw [hg.encode_eq hw hw' hs, h]
    exact hw'.decode_eq ((StaticType.has_known_iff hg hw hw' hs).2 hhas) ((form_iff hg hw hw').2 hform)

/-- Nor what arguments are normalised to. -/
theorem normalizeAll_eq {ids : List TypeId} (hs : ∀ id ∈ ids, (t.get? id).isSome) :
    t'.normalizeAll vs ids = t.normalizeAll vs ids := by
  induction vs generalizing ids with
  | nil => cases ids <;> rfl
  | cons v vs ih =>
    cases ids with
    | nil => rfl
    | cons id ids =>
      rw [normalizeAll, normalizeAll, hg.normalize_eq hw hw' (hs id (by simp)),
        ih fun id' h => hs id' (List.mem_cons_of_mem _ h)]

end GrowsByScalars

end TypeTable

/-! ### Specialising on arguments -/

theorem StaticType.Has.extends {e e' : Engine} {fixed : Prop} {s : StaticType} {v : Value}
    (h : s.Has e.types v) (hx : e.Extends fixed e') (hw : e.types.WellFormed) : s.Has e'.types v := by
  obtain ⟨hw', hg⟩ := hx.types hw
  exact ⟨h.1.grows hg.toGrows hw', (normal_iff hg hw hw').2 h.2⟩

namespace Engine

variable {e e' : Engine} {function : Ident} {args : List Value}

theorem run_ofUpdate (e : Engine) {α : Type} (x : Update α) :
    e.run (Run.ofUpdate x) = .ok (e.update x) := rfl

/-- The type that a value with declared widths is specialised on is a type of the value. -/
theorem run_argumentType (he : e.types.WellFormed) (hx : e.Extends True e') (hv : e.types.Normal v) :
    (∃ id e'', e'.update (Update.argumentType e.types function v) = (.ok id, e'') ∧
      e'.Extends True e'' ∧ (StaticType.known id).Has e''.types v) ∨
    e'.update (Update.argumentType e.types function v) =
      (.error (.compile (.type (.sentinelSpecialization function))), e') := by
  obtain ⟨hw', hg⟩ := hx.types he
  cases v with
  | int n => exact absurd hv (not_normal_int n)
  | incomplete => exact .inr rfl
  | uint u =>
    have hscalar : e'.types.declareScalar u.bits = .ok (e'.types.ensureScalar u.bits) := by
      unfold TypeTable.declareScalar
      rw [if_pos ⟨u.bits_pos, u.bits_le⟩]
    refine .inl ⟨_, _, update_declareScalar hscalar, .scalar u.bits_pos u.bits_le, .inr ?_, normal_uint u⟩
    exact scalarBits?_eq_some.2 (hw'.get?_ensureScalar u.bits_pos u.bits_le)
  | record name vs =>
    obtain ⟨rid, r, hr, -⟩ := hv.fields he
    refine .inl ⟨rid, e', ?_, .refl e', .inr ⟨rid, r, hg.recordNamed? hw' hr, .inl rfl⟩,
      (normal_iff hg he hw').2 hv⟩
    simp only [Update.argumentType, (recordNamed?_eq_some.1 hr).1]
    rfl

theorem run_argumentTypes (he : e.types.WellFormed) (hx : e.Extends True e')
    (hargs : ∀ v ∈ args, e.types.Normal v) :
    (∃ ids e'', e'.update (args.mapM (Update.argumentType e.types function)) = (.ok ids, e'') ∧
      e'.Extends True e'' ∧ ArgsHave e''.types ids args) ∨
    ∃ e'', e'.update (args.mapM (Update.argumentType e.types function)) =
      (.error (.compile (.type (.sentinelSpecialization function))), e'') ∧ e'.Extends True e'' := by
  induction args generalizing e' with
  | nil => exact .inl ⟨[], e', rfl, .refl e', .nil⟩
  | cons v rest ih =>
    rw [List.mapM_cons]
    rcases run_argumentType he hx (hargs v (by simp)) with ⟨id, e₁, hid, hx₁, hhas⟩ | hid
    · rw [update_bind_ok hid]
      rcases ih (hx.trans hx₁) fun x hx => hargs x (List.mem_cons_of_mem _ hx) with
        ⟨ids, e₂, hids, hx₂, hall⟩ | ⟨e₂, hids, hx₂⟩
      · rw [update_bind_ok hids]
        exact .inl ⟨id :: ids, e₂, rfl, hx₁.trans hx₂,
          .cons (hhas.extends hx₂ (hx₁.types (hx.types he).1).1) hall⟩
      · exact .inr ⟨e₂, update_bind_error hids, hx₁.trans hx₂⟩
    · exact .inr ⟨e', update_bind_error hid, .refl e'⟩

/-- Values with declared widths have the types of the signature that they are specialised on; only the
sentinel has none. -/
theorem run_signatureOf (he : e.types.WellFormed) (hargs : ∀ v ∈ args, e.types.Normal v) :
    (∃ s e', e.update (Update.signatureOf function args) = (.ok s, e') ∧ e.Extends True e' ∧
      s.function = function ∧ ArgsHave e'.types s.args args) ∨
    ∃ e', e.update (Update.signatureOf function args) =
      (.error (.compile (.type (.sentinelSpecialization function))), e') ∧ e.Extends True e' := by
  unfold Update.signatureOf
  rw [update_get]
  rcases run_argumentTypes he (.refl e) hargs with ⟨ids, e', hids, hx, hall⟩ | ⟨e', hids, hx⟩
  · rw [update_bind_ok hids]
    exact .inl ⟨⟨function, ids⟩, e', rfl, hx, rfl, hall⟩
  · exact .inr ⟨e', update_bind_error hids, hx⟩

/-! ### Specialising again -/

variable {e₁ : Engine}

/-- The type that a value is specialised on in the engine. -/
def Specialises (e : Engine) : Value → TypeId → Prop
  | .int _, id => e.types.scalarBits? id = some e.options.defaultBits
  | .uint u, id => e.types.scalarBits? id = some u.bits
  | .record name _, id => e.types.lookup name = some id
  | .incomplete, _ => False

theorem Specialises.extends {fixed : Prop} (h : e.Specialises v id) (hx : e.Extends fixed e')
    (hw : e.types.WellFormed) : e'.Specialises v id := by
  obtain ⟨hw', hg⟩ := hx.types hw
  cases v with
  | int n =>
    rw [Specialises, hx.options]
    exact hg.scalarBits? h
  | uint u => exact hg.scalarBits? h
  | record name vs => exact hg.lookup hw' h
  | incomplete => exact h.elim

theorem Specialises.registered (h : e.Specialises v id) : (e.types.get? id).isSome := by
  cases v with
  | int n => rw [scalarBits?_eq_some.1 h]; rfl
  | uint u => rw [scalarBits?_eq_some.1 h]; rfl
  | record name vs =>
    obtain ⟨d, hd, -⟩ := get?_of_lookup h
    rw [hd]
    rfl
  | incomplete => exact h.elim

theorem Specialises.all_registered {ids : List TypeId} (h : List.Forall₂ e.Specialises args ids) :
    ∀ id ∈ ids, (e.types.get? id).isSome := by
  induction h with
  | nil => simp
  | cons hv _ ih => exact List.forall_mem_cons.2 ⟨hv.registered, ih⟩

/-- Registering a scalar yields the number that stands for the width then. -/
theorem update_declareScalar_eq_ok {bits : Nat} (hw : e.types.WellFormed)
    (h : e.update (Update.declareScalar bits) = (.ok id, e')) :
    e'.types.scalarBits? id = some bits ∧ e.Extends True e' := by
  by_cases hb : 1 ≤ bits ∧ bits ≤ 64
  · have hs : e.types.declareScalar bits = .ok (e.types.ensureScalar bits) := if_pos hb
    rw [update_declareScalar hs] at h
    cases h
    exact ⟨scalarBits?_eq_some.2 (hw.get?_ensureScalar hb.1 hb.2), .scalar hb.1 hb.2⟩
  · have hs : e.types.declareScalar bits = .error (.widthOutOfRange bits) := if_neg hb
    have herr : e.update (Update.declareScalar bits) =
        (.error (.compile (.type (.widthOutOfRange bits))), e) := by
      unfold Update.declareScalar
      rw [update_get, hs]
      rfl
    rw [herr] at h
    cases h

theorem update_declareScalar_again {bits : Nat} (hw : e.types.WellFormed)
    (h : e.types.scalarBits? id = some bits) :
    e.update (Update.declareScalar bits) = (.ok id, e) := by
  have hs : e.types.declareScalar bits = .ok (id, e.types) := by
    rw [TypeTable.declareScalar, if_pos (hw.width (scalarBits?_eq_some.1 h)), TypeTable.ensureScalar,
      hw.scalar?_of_scalarBits? h]
  exact update_declareScalar hs

theorem specialises_argumentType (hw : e.types.WellFormed) (hx : e.Extends True e₁)
    (h : e₁.update (Update.argumentType e.types function v) = (.ok id, e')) :
    e'.Specialises v id ∧ e₁.Extends True e' := by
  obtain ⟨hw₁, hg⟩ := hx.types hw
  cases v with
  | int n =>
    rw [Update.argumentType, update_get] at h
    obtain ⟨hid, hx'⟩ := update_declareScalar_eq_ok hw₁ h
    exact ⟨by rw [Specialises, hid, hx'.options], hx'⟩
  | uint u => exact update_declareScalar_eq_ok hw₁ h
  | record name vs =>
    simp only [Update.argumentType] at h
    cases hl : e.types.lookup name with
    | none => rw [hl] at h; cases h
    | some rid =>
      rw [hl] at h
      cases h
      exact ⟨hg.lookup hw₁ hl, .refl _⟩
  | incomplete => cases h

theorem specialises_argumentTypes (hw : e.types.WellFormed) {ids : List TypeId} (hx : e.Extends True e₁)
    (h : e₁.update (args.mapM (Update.argumentType e.types function)) = (.ok ids, e')) :
    List.Forall₂ e'.Specialises args ids ∧ e₁.Extends True e' := by
  induction args generalizing e₁ ids with
  | nil => cases h; exact ⟨.nil, .refl _⟩
  | cons v rest ih =>
    rw [List.mapM_cons] at h
    obtain ⟨id, e₂, hid, h⟩ := update_bind_eq_ok h
    obtain ⟨rest', e₃, hrest, h⟩ := update_bind_eq_ok h
    cases h
    obtain ⟨hv, hx₂⟩ := specialises_argumentType hw hx hid
    obtain ⟨hvs, hx₃⟩ := ih (hx.trans hx₂) hrest
    exact ⟨.cons (hv.extends hx₃ ((hx.trans hx₂).types hw).1) hvs, hx₂.trans hx₃⟩

theorem update_signatureOf_eq_ok (hw : e.types.WellFormed) {s : Signature}
    (h : e.update (Update.signatureOf function args) = (.ok s, e')) :
    s.function = function ∧ List.Forall₂ e'.Specialises args s.args ∧ e.Extends True e' := by
  rw [Update.signatureOf, update_get] at h
  obtain ⟨ids, e₁, hids, h⟩ := update_bind_eq_ok h
  cases h
  exact ⟨rfl, specialises_argumentTypes hw (.refl e) hids⟩

theorem update_argumentType_again (hw : e.types.WellFormed) (h : e.Specialises v id) :
    e.update (Update.argumentType e.types function v) = (.ok id, e) := by
  cases v with
  | int n =>
    rw [Update.argumentType, update_get]
    exact update_declareScalar_again hw h
  | uint u => exact update_declareScalar_again hw h
  | record name vs =>
    have hl : e.types.lookup name = some id := h
    simp only [Update.argumentType, hl]
    rfl
  | incomplete => exact h.elim

theorem update_signatureOf_again (hw : e.types.WellFormed) {s : Signature}
    (h : List.Forall₂ e.Specialises args s.args) :
    e.update (Update.signatureOf s.function args) = (.ok s, e) := by
  have hall : ∀ {vs ids}, List.Forall₂ e.Specialises vs ids →
      e.update (vs.mapM (Update.argumentType e.types s.function)) = (.ok ids, e) := by
    intro vs ids h
    induction h with
    | nil => rfl
    | cons hv _ ih =>
      rw [List.mapM_cons, update_bind_ok (update_argumentType_again hw hv), update_bind_ok ih]
      rfl
  rw [Update.signatureOf, update_get, update_bind_ok (hall h)]
  rfl

theorem run_callDecorated_eq_ok (he : e.Coherent) {fuel : Nat} {name : Ident} {args : List Value}
    (h : e.run (Run.callDecorated fuel name args) = .ok (.ok v, e')) :
    ∃ s a e₁, e.update (Update.signatureOf name args) = (.ok s, e₁) ∧ e₁.Extends True e' ∧
      e'.compiled.get? s = some (.ok a) := by
  cases fuel with
  | zero => cases h
  | succ fuel =>
    have hseq : e.run (Run.ofUpdate (Update.signatureOf name args) >>= fun s =>
        Run.ofUpdate (Update.artifactOf s) >>= fun a => do
          Run.countExecution
          Run.runArtifact fuel a args) = .ok (.ok v, e') := by
      rw [← h, Run.callDecorated]
      show _ = e.run (Run.ofUpdate (Update.specialize name args) >>= _)
      rw [Update.specialize, Run.ofUpdate_bind, bind_assoc]
    rcases run_bind_eq_ok.1 hseq with ⟨s, e₁, hs, hrun⟩ | ⟨err, -, herr⟩
    · have hs : e.update (Update.signatureOf name args) = (.ok s, e₁) := Except.ok.inj hs
      have hcoherent₁ := (update_signatureOf_eq_ok he.types hs).2.2.coherent trivial he
      rcases run_bind_eq_ok.1 hrun with ⟨a, e₂, ha, hrun⟩ | ⟨err, -, herr⟩
      · obtain ⟨hx₂, hget⟩ := Run.artifactOf_ensures s e₁
          (fun _ => registered_of_signatureOf he.types hs) _ _ ha
        have hcoherent₂ := hx₂.coherent trivial hcoherent₁
        have hx : e₂.Extends True e' := (Run.Growth.counted (.all fuel) a args e₂
          (fun _ => ⟨hcoherent₂, (hcoherent₂.keeps (hget a rfl)).1⟩) _ _ hrun).1
        exact ⟨s, a, e₁, hs, hx₂.trans hx, hx.compiled (hget a rfl)⟩
      · cases herr
    · cases herr

end Engine

end ShapeCompiler
