import ShapeCompiler.Proofs.Values
import ShapeCompiler.Typing

/-!
What static types say of values, and that the typing rules are sound.

A static type is given by surroundings that may be older than the table in which values are read, so
all rules are used in the direction in which types are only added.

Main statements: a join is above both of its parts (`Fits.join_left`, `Fits.join_right`), and the
rules for operations and fields describe what the interpreter computes (`Fits.binary`, `Fits.field`).
-/

namespace ShapeCompiler

open TypeTable

/-- The values of a static type: those of its type, and the sentinel once anything is known. -/
def StaticType.Admits (t : TypeTable) : StaticType → Value → Prop
  | .unknown, _ => False
  | .incomplete, v => v = .incomplete
  | .known id, v => v = .incomplete ∨ t.Admits id v

/-- Surroundings for typing whose types are still registered in a table. -/
structure Typing.Fits (c : Typing) (t : TypeTable) : Prop where
  wellFormed : c.types.WellFormed
  grows : c.types.Grows t
  target : t.WellFormed
  defaultScalar : c.types.scalarBits? c.defaultScalar = some c.defaultBits

variable {c : Typing} {t : TypeTable} {i : Interpreter} {s s₁ s₂ : StaticType} {v v₁ v₂ : Value}
  {id rid : TypeId} {r : RecordType} {name : Ident}

theorem StaticType.Admits.sentinel (h : s ≠ .unknown) : s.Admits t .incomplete := by
  cases s with
  | unknown => exact absurd rfl h
  | incomplete => rfl
  | known id => exact .inl rfl

theorem StaticType.Admits.ne_unknown (h : s.Admits t v) : s ≠ .unknown := by
  rintro rfl
  exact h

theorem StaticType.Admits.known (h : s.Admits t v) (hv : v ≠ .incomplete) :
    ∃ id, s = .known id ∧ t.Admits id v := by
  cases s with
  | unknown => exact h.elim
  | incomplete => exact absurd h hv
  | known id => exact ⟨id, rfl, h.resolve_left hv⟩

theorem StaticType.Admits.grows {t' : TypeTable} (hg : t.Grows t') (hw : t'.WellFormed)
    (h : s.Admits t v) : s.Admits t' v := by
  cases s with
  | unknown => exact h
  | incomplete => exact h
  | known id => exact h.imp_right fun h => h.grows hg hw

theorem TypeTable.Grows.admits_widen {t t' : TypeTable} (hg : t.Grows t') (hw : t'.WellFormed)
    {id : TypeId} {v : Value} (h : t'.Admits id v) : t'.Admits (t.widen id) v := by
  by_cases he : t.widen id = id
  · rw [he]
    exact h
  · cases hr : t.record? id with
    | none => exact absurd (widen_of_no_record hr) he
    | some r =>
      have hr' := hg.record? hr
      cases v with
      | int n => exact h
      | incomplete => exact h
      | uint u =>
        have hb : t'.scalarBits? id = some u.bits := h
        rw [scalarBits?_eq_some, record?_eq_some.1 hr'] at hb
        cases hb
      | record n vs =>
        obtain ⟨rid, r', hn, hid⟩ := h
        obtain rfl := hw.eq_of_isA hr' hid
        exact ⟨rid, r', hn, .inr (hg.widen_of_record hr)⟩

namespace Typing.Fits

variable (hc : c.Fits t)
include hc

/-! ### Joins -/

theorem admits_widen (h : t.Admits id v) : t.Admits (c.types.widen id) v :=
  hc.grows.admits_widen hc.target h

theorem join_left (h : c.join s₁ s₂ = .ok s) (hv : s₁.Admits t v) : s.Admits t v := by
  cases s₁ with
  | unknown => exact hv.elim
  | incomplete =>
    cases s₂ with
    | unknown => cases h; exact hv
    | incomplete => cases h; exact hv
    | known b => cases h; exact .inl hv
  | known a =>
    cases s₂ with
    | unknown => cases h; exact hv
    | incomplete => cases h; exact hv
    | known b =>
      rw [join] at h
      split at h
      · cases h; exact hv
      · split at h
        · cases h
          exact hv.imp_right fun hv => hc.admits_widen hv
        · cases h

theorem join_right (h : c.join s₁ s₂ = .ok s) (hv : s₂.Admits t v) : s.Admits t v := by
  cases s₂ with
  | unknown => exact hv.elim
  | incomplete =>
    cases s₁ with
    | unknown => cases h; exact hv
    | incomplete => cases h; exact hv
    | known b => cases h; exact .inl hv
  | known b =>
    cases s₁ with
    | unknown => cases h; exact hv
    | incomplete => cases h; exact hv
    | known a =>
      rw [join] at h
      split at h
      · rename_i hab
        cases h
        rw [hab]
        exact hv
      · split at h
        · rename_i hab
          cases h
          rw [hab.1]
          exact hv.imp_right fun hv => hc.admits_widen hv
        · cases h

/-! ### Operations -/

theorem expectScalar {op : Operator} {u : Uint} (h : c.expectScalar op s = .ok ())
    (hv : s.Admits t (.uint u)) : ∃ id, s = .known id ∧ c.types.scalarBits? id = some u.bits := by
  obtain ⟨id, rfl, ha⟩ := hv.known (by simp)
  refine ⟨id, rfl, ?_⟩
  unfold Typing.expectScalar at h
  simp only [StaticType.known?] at h
  split at h
  · rename_i hs
    obtain ⟨bits, hb⟩ := Option.isSome_iff_exists.1 hs
    have hu : t.scalarBits? id = some u.bits := ha
    rw [hc.grows.scalarBits? hb] at hu
    rw [hb, hu]
  · cases h

theorem number_or_sentinel {op : Operator} (h : c.expectScalar op s = .ok ()) (hv : s.Admits t v) :
    v = .incomplete ∨ ∃ u, v = .uint u := by
  by_cases hne : v = .incomplete
  · exact .inl hne
  · obtain ⟨id, rfl, ha⟩ := hv.known hne
    unfold Typing.expectScalar at h
    simp only [StaticType.known?] at h
    split at h
    · rename_i hs
      obtain ⟨bits, hb⟩ := Option.isSome_iff_exists.1 hs
      obtain ⟨u, rfl, -⟩ := hc.target.admits_scalar (hc.grows.scalarBits? hb) ha
      exact .inr ⟨u, rfl⟩
    · cases h

/-- The type of an operation on two numbers is that of the wider one. -/
theorem binary_uints {op : Operator} {u₁ u₂ : Uint} (h : c.binary op s₁ s₂ = .ok s)
    (h₁ : s₁.Admits t (.uint u₁)) (h₂ : s₂.Admits t (.uint u₂)) :
    ∃ id, s = .known id ∧ c.types.scalarBits? id = some (max u₁.bits u₂.bits) := by
  unfold Typing.binary at h
  obtain ⟨⟨⟩, he₁, h⟩ := bind_eq_ok.1 h
  obtain ⟨⟨⟩, he₂, h⟩ := bind_eq_ok.1 h
  obtain ⟨a, rfl, ha⟩ := hc.expectScalar he₁ h₁
  obtain ⟨b, rfl, hb⟩ := hc.expectScalar he₂ h₂
  cases h
  refine ⟨_, rfl, ?_⟩
  unfold Typing.scalarBits
  rw [ha, hb, Option.getD_some, Option.getD_some]
  rcases Nat.le_total u₁.bits u₂.bits with hle | hle
  · rw [Nat.max_eq_right hle, hc.wellFormed.scalar?_of_scalarBits? hb]
    exact hb
  · rw [Nat.max_eq_left hle, hc.wellFormed.scalar?_of_scalarBits? ha]
    exact ha

theorem binary {op : Operator} (h : c.binary op s₁ s₂ = .ok s) (h₁ : s₁.Admits t v₁)
    (h₂ : s₂.Admits t v₂) (hn₁ : t.Normal v₁) (hn₂ : t.Normal v₂)
    (hv : i.binary op v₁ v₂ = .ok v) : s.Admits t v := by
  obtain ⟨u₁, u₂, n, rfl, rfl, -, rfl⟩ := Interpreter.binary_ok hn₁ hn₂ hv
  obtain ⟨id, rfl, hb⟩ := hc.binary_uints h h₁ h₂
  obtain ⟨hw₁, hw₂⟩ := hc.wellFormed.width (scalarBits?_eq_some.1 hb)
  refine .inr ?_
  rw [TypeTable.Admits, Uint.bits_wrap hw₁ hw₂]
  exact hc.grows.scalarBits? hb

/-! ### Fields -/

theorem admits_record (hr : c.types.record? id = some r) (h : t.Admits id v) :
    ∃ vs, v = .record r.name vs ∧ t.recordNamed? r.name = some (id, r) := by
  have hr' := hc.grows.record? hr
  cases v with
  | int n => exact h.elim
  | incomplete => exact h.elim
  | uint u =>
    have hb : t.scalarBits? id = some u.bits := h
    rw [scalarBits?_eq_some, record?_eq_some.1 hr'] at hb
    cases hb
  | record n vs =>
    obtain ⟨rid, r', hn, hid⟩ := h
    obtain rfl := hc.target.eq_of_isA hr' hid
    have hn' := name_of_recordNamed? hn
    have : r' = r := by simpa [hr'] using (recordNamed?_eq_some.1 hn).2.symm
    subst this
    subst hn'
    exact ⟨vs, rfl, hn⟩

omit hc in
/-- A field access on a known record reads the field at the position that typing finds. -/
theorem field_known {location : Option (RecordType × Nat)}
    (h : c.field (.known id) name = .ok (s, location)) :
    ∃ r k f, c.types.record? id = some r ∧ r.fieldIndex? name = some k ∧ r.fields[k]? = some f ∧
      s = .known f.type ∧ location = some (r, k) := by
  unfold Typing.field at h
  simp only at h
  split at h
  · rename_i r hr
    split at h
    · cases h
    · rename_i k hk
      split at h
      · cases h
      · rename_i f hf
        cases h
        exact ⟨r, k, f, hr, hk, hf, rfl, rfl⟩
  · cases h

omit hc in
theorem field_record {vs : List Value} {k : Nat} (hr : i.types.recordNamed? r.name = some (id, r))
    (hk : r.fieldIndex? name = some k) (hv : vs[k]? = some v) :
    i.field (.record r.name vs) name = .ok v := by
  unfold Interpreter.field
  simp [hr, hk, hv]

/-- A field access on anything but the sentinel yields a value of the field. -/
theorem field_value {location : Option (RecordType × Nat)}
    (hi : i.types.recordNamed? = t.recordNamed?) (h : c.field s name = .ok (s₁, location))
    (hs : s.Admits t v₁) (hn : t.Normal v₁) (hne : v₁ ≠ .incomplete) :
    ∃ w, i.field v₁ name = .ok w ∧ s₁.Admits t w ∧ t.Normal w := by
  obtain ⟨id, rfl, ha⟩ := hs.known hne
  obtain ⟨r, k, f, hr, hk, hf, rfl, -⟩ := field_known h
  obtain ⟨vs, rfl, hrn⟩ := hc.admits_record hr ha
  obtain ⟨rid, r', hrn', hfs⟩ := hn.fields hc.target
  obtain ⟨rfl, rfl⟩ : id = rid ∧ r = r' := by simpa using hrn.symm.trans hrn'
  obtain ⟨w, hw⟩ : ∃ w, vs[k]? = some w := by
    have hlt := (List.getElem?_eq_some_iff.1 hf).1
    rw [hfs.length_eq] at hlt
    exact ⟨vs[k], List.getElem?_eq_getElem hlt⟩
  obtain ⟨hfa, hfn⟩ := hfs.get hf hw
  exact ⟨w, field_record (by rw [hi]; exact hrn) hk hw, .inr hfa, hfn⟩

theorem field {location : Option (RecordType × Nat)} (hi : i.types.recordNamed? = t.recordNamed?)
    (h : c.field s name = .ok (s₁, location)) (hs : s.Admits t v₁) (hn : t.Normal v₁)
    (hv : i.field v₁ name = .ok v) : s₁.Admits t v ∧ t.Normal v := by
  have hne : v₁ ≠ .incomplete := by
    rintro rfl
    cases hv
  obtain ⟨w, hw, ha⟩ := hc.field_value hi h hs hn hne
  obtain rfl : w = v := Except.ok.inj (hw.symm.trans hv)
  exact ha

end Typing.Fits

theorem Typing.binary_ne_unknown {op : Operator} (h : c.binary op s₁ s₂ = .ok s) (h₁ : s₁ ≠ .unknown)
    (h₂ : s₂ ≠ .unknown) : s ≠ .unknown := by
  unfold binary at h
  obtain ⟨_, -, h⟩ := bind_eq_ok.1 h
  obtain ⟨_, -, h⟩ := bind_eq_ok.1 h
  cases h
  cases s₁ <;> cases s₂ <;> simp_all [widerOf]

theorem Typing.field_ne_unknown {location : Option (RecordType × Nat)}
    (h : c.field s₁ name = .ok (s, location)) (h₁ : s₁ ≠ .unknown) : s ≠ .unknown := by
  cases s₁ with
  | unknown => exact absurd rfl h₁
  | incomplete => cases h; exact h₁
  | known id =>
    obtain ⟨r, k, fld, -, -, -, rfl, -⟩ := Fits.field_known h
    simp

/-! ### Arguments -/

theorem Typing.argTypes_eq {function : Ident} {index : Nat} {ss : List StaticType}
    {ids : List TypeId} (h : Typing.argTypes function index ss = .ok (some ids)) :
    ss = ids.map .known := by
  induction ss generalizing index ids with
  | nil => cases h; rfl
  | cons s rest ih =>
    cases s with
    | unknown => cases h
    | incomplete => cases h
    | known id =>
      rw [Typing.argTypes] at h
      split at h
      · rename_i ids' hrest
        cases ids' with
        | none => cases h
        | some ids' =>
          cases h
          rw [ih hrest]
          rfl
      · cases h

theorem Typing.signature?_eq {function : Ident} {ss : List StaticType} {sig : Signature}
    (h : Typing.signature? function ss = .ok (some sig)) :
    sig.function = function ∧ ss = sig.args.map .known := by
  unfold Typing.signature? at h
  obtain ⟨ids, hids, h⟩ := map_eq_ok.1 h
  cases ids with
  | none => cases h
  | some ids =>
    cases h
    exact ⟨rfl, argTypes_eq hids⟩

/-! ### Callees -/

def HostFunction.toFunction : HostFunction → Function
  | .interpreted d => .interpreted d
  | .native n => .native n

theorem Typing.resolve_eq_ok {c : Typing} {name : Ident} {k : Nat} {callee : Callee}
    (h : c.resolve name k = .ok callee) :
    match callee with
    | .constructor id r => c.types.recordNamed? name = some (id, r) ∧ k = r.fields.length
    | .decorated => c.types.recordNamed? name = none ∧
        ∃ d, c.functions.get? name = some (.decorated d)
    | .host f => c.types.recordNamed? name = none ∧ c.functions.get? name = some f.toFunction := by
  unfold resolve at h
  split at h
  · rename_i id r hr
    unfold expectArgs at h
    split at h
    · rename_i hlen
      cases h
      exact ⟨hr, hlen.symm⟩
    · cases h
  · rename_i hr
    split at h
    · cases h
    · rename_i f hf
      unfold expectArgs at h
      split at h
      · cases f with
        | decorated d => cases h; exact ⟨hr, d, hf⟩
        | interpreted d => cases h; exact ⟨hr, hf⟩
        | native n => cases h; exact ⟨hr, hf⟩
      · cases h

end ShapeCompiler
