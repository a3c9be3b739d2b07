import ShapeCompiler.Lowering
import ShapeCompiler.Machine
import ShapeCompiler.Proofs.Typing.Scope

/-!
Instructions compute on compiled values what the interpreter computes on values.

Main statements: for operands of the static types that lowering relies on, an operation, a field
access and a constructor yield the form of the interpreter's value, or both fail alike, which only the
sentinel can cause (`Operator.onCompiled_matches`, `FieldAccess.read_matches`, `Shape.build_matches`).
-/

namespace ShapeCompiler

open TypeTable

/-- A fault of compiled code beside that of the interpreter: both are of the same kind. -/
def RuntimeError.Alike (reference compiled : RuntimeError) : Prop :=
  compiled.Ordinary ∧ compiled.code = reference.code

/-- A step of the interpreter beside one on compiled values: a value and its form, or faults of the
same kind. -/
inductive StepMatches (t : TypeTable) : Except RuntimeError Value → Except RuntimeError Compiled → Prop
  | ok {v : Value} {c : Compiled} (h : t.Form v c) : StepMatches t (.ok v) (.ok c)
  | error {f f' : RuntimeError} (h : f.Alike f') (hs : f'.OverSentinel) :
    StepMatches t (.error f) (.error f')

variable {c : Typing} {t : TypeTable} {i : Interpreter} {s s₁ s₂ : StaticType} {v v₁ v₂ : Value}
  {cv cv₁ cv₂ : Compiled} {id rid : TypeId} {r : RecordType} {name : Ident} {vs : List Value}
  {cs : List Compiled}

theorem StepMatches.ok_iff {x : Except RuntimeError Value} {y : Except RuntimeError Compiled}
    (h : StepMatches t x y) : (∃ c, y = .ok c) ↔ ∃ v, x = .ok v := by
  cases h with
  | ok _ => exact ⟨fun _ => ⟨_, rfl⟩, fun _ => ⟨_, rfl⟩⟩
  | error _ _ => exact ⟨nofun, nofun⟩

theorem StepMatches.form {y : Except RuntimeError Compiled} (h : StepMatches t (.ok v) y) :
    ∃ c, y = .ok c ∧ t.Form v c := by
  cases h with
  | ok h => exact ⟨_, rfl, h⟩

/-! ### Operations -/

theorem Typing.Fits.operand {op : Operator} (hc : c.Fits t) (h : c.expectScalar op s = .ok ())
    (hs : s.Admits t v) (hf : t.Form v cv) :
    (v = .incomplete ∧ cv = .incomplete) ∨ ∃ u, v = .uint u ∧ cv = .scalar u.value := by
  rcases hf with hf | he
  · exact .inl hf
  · rcases hc.number_or_sentinel h hs with rfl | ⟨u, rfl⟩
    · exact absurd rfl he.ne_incomplete
    · cases he
      exact .inr ⟨u, rfl, rfl⟩

theorem form_wrap {op : Operator} {a b n : UInt64} {bits : Nat} (h₁ : 1 ≤ bits) (h₂ : bits ≤ 64)
    (h : op.apply a b bits = .ok n) : t.Form (.uint (Uint.wrap bits n)) (.scalar n) := by
  have hn : (Uint.wrap bits n).value = n := by
    rw [Uint.value_wrap h₁ h₂, Operator.apply_masked h]
  have := Encodes.scalar (t := t) (Uint.wrap bits n)
  rw [hn] at this
  exact .inr this

theorem Operator.apply_error {op : Operator} {a b : UInt64} {bits : Nat} {f : RuntimeError}
    (h : op.apply a b bits = .error f) : f = .divisionByZero := by
  unfold Operator.apply at h
  split at h
  · cases h
  · cases h
    rfl

/-- An operation on registers, at the width that lowering gives it. -/
theorem Operator.onCompiled_matches {op : Operator} (hc : c.Fits t) (h : c.binary op s₁ s₂ = .ok s)
    (hs₁ : s₁.Admits t v₁) (hs₂ : s₂.Admits t v₂) (hf₁ : t.Form v₁ cv₁) (hf₂ : t.Form v₂ cv₂) :
    StepMatches t (i.binary op v₁ v₂)
      (op.onCompiled ((s.known?.map c.scalarBits).getD c.defaultBits) cv₁ cv₂) := by
  obtain ⟨he₁, he₂⟩ : c.expectScalar op s₁ = .ok () ∧ c.expectScalar op s₂ = .ok () := by
    unfold Typing.binary at h
    obtain ⟨⟨⟩, he₁, h⟩ := bind_eq_ok.1 h
    obtain ⟨⟨⟩, he₂, h⟩ := bind_eq_ok.1 h
    exact ⟨he₁, he₂⟩
  -- without two numbers both sides refuse
  have mismatch : ∀ {found found'}, (∀ x ∈ found', x = .sentinel ∨ ∃ d, x = .integer d) →
      .sentinel ∈ found' → StepMatches t (.error (.typeMismatch (.operator op) found))
        (.error (.typeMismatch (.operator op) found')) := by
    intro found found' hall hmem
    exact .error ⟨trivial, rfl⟩ ⟨hmem, fun x hx => (hall x hx).imp_right fun hd => ⟨⟨op, rfl⟩, hd⟩⟩
  rcases hc.operand he₁ hs₁ hf₁ with ⟨rfl, rfl⟩ | ⟨u₁, rfl, rfl⟩
  · unfold Interpreter.binary
    rcases hc.operand he₂ hs₂ hf₂ with ⟨rfl, rfl⟩ | ⟨u₂, rfl, rfl⟩
    · exact mismatch (by simp [Compiled.found]) (by simp [Compiled.found])
    · exact mismatch (by simp [Compiled.found]) (by simp [Compiled.found])
  · rcases hc.operand he₂ hs₂ hf₂ with ⟨rfl, rfl⟩ | ⟨u₂, rfl, rfl⟩
    · unfold Interpreter.binary
      exact mismatch (by simp [Compiled.found]) (by simp [Compiled.found])
    · obtain ⟨id, rfl, hb⟩ := hc.binary_uints h hs₁ hs₂
      obtain ⟨hw₁, hw₂⟩ := hc.wellFormed.width (scalarBits?_eq_some.1 hb)
      have hbits : ((StaticType.known id).known?.map c.scalarBits).getD c.defaultBits =
          max u₁.bits u₂.bits := by
        simp [StaticType.known?, Typing.scalarBits, hb]
      rw [hbits]
      unfold Interpreter.binary Operator.onCompiled
      simp only [Value.asUint]
      cases ha : op.apply u₁.value u₂.value (max u₁.bits u₂.bits) with
      | ok n => exact .ok (form_wrap hw₁ hw₂ ha)
      | error f =>
        rw [Operator.apply_error ha]
        exact .error ⟨trivial, rfl⟩ trivial

/-! ### Fields -/

/-- The way to the field at a position leads to the form of the field whose position is the rest modulo
65536: a boxed record is read at 16 bits of the position, and a packed one has fewer fields. -/
theorem TypeTable.Encodes.access_mod (hw : t.WellFormed) (he : t.Encodes (.record name vs) cv)
    (hr : t.recordNamed? name = some (rid, r)) {k : Nat} (hk : k < vs.length) :
    ∃ v fc, vs[k % 65536]? = some v ∧ (r.access k).read cv = .ok fc ∧ t.Encodes v fc := by
  cases he with
  | @packed _ rid' r' slots us hr' hl hb =>
    obtain ⟨rfl, rfl⟩ : rid = rid' ∧ r = r' := by simpa using hr.symm.trans hr'
    obtain ⟨hadj, -⟩ := hw.packed (recordNamed?_eq_some.1 hr).2 hl
    have hread := map_read_pack hadj (fitSlots_values hb) (fun i hi => bit_tag r.tag hi)
    have hlen : us.length = slots.length := by simpa using congrArg List.length hb
    rw [List.length_map] at hk
    obtain ⟨u, hu⟩ : ∃ u, us[k]? = some u := ⟨us[k], List.getElem?_eq_getElem hk⟩
    obtain ⟨s, hs⟩ : ∃ s, slots[k]? = some s := ⟨slots[k], List.getElem?_eq_getElem (by omega)⟩
    have hmod : k % 65536 = k := by
      have := hadj.length_le (by decide)
      exact Nat.mod_eq_of_lt (by omega)
    refine ⟨.uint u, .scalar u.value, by simp [hmod, hu], ?_, .scalar u⟩
    unfold RecordType.access FieldAccess.read
    rw [hl]
    have := congrArg (·[k]?) hread
    simp only [List.getElem?_map, hs, hu, Option.map_some, Option.some.injEq] at this
    simp only [List.getD, hs, Option.getD_some, this]
  | @boxed _ rid' r' _ fcs hr' hl hf =>
    obtain ⟨rfl, rfl⟩ : rid = rid' ∧ r = r' := by simpa using hr.symm.trans hr'
    have hlen := hf.length_left
    have hmod : k % 65536 < r.fields.length := Nat.lt_of_le_of_lt (Nat.mod_le ..) (by omega)
    obtain ⟨v, fc, hv, hfc, -, he⟩ := hf.get (List.getElem?_eq_getElem hmod)
    refine ⟨v, fc, hv, ?_, he⟩
    unfold RecordType.access FieldAccess.read
    rw [hl]
    simp [hfc]

/-- The way to a field leads to the form of the field; positions must fit into 16 bits. -/
theorem TypeTable.Encodes.access (hw : t.WellFormed) (he : t.Encodes (.record name vs) cv)
    (hr : t.recordNamed? name = some (rid, r)) (hn : r.fields.length ≤ 65536) {k : Nat}
    (hv : vs[k]? = some v) : ∃ fc, (r.access k).read cv = .ok fc ∧ t.Encodes v fc := by
  have hk : k < vs.length := (List.getElem?_eq_some_iff.1 hv).1
  obtain ⟨rid', r', hr', hfields⟩ := he.normal.fields hw
  obtain ⟨rfl, rfl⟩ : rid = rid' ∧ r = r' := by simpa using hr.symm.trans hr'
  obtain ⟨v', fc, hv', hread, he⟩ := he.access_mod hw hr hk
  have hmod : k % 65536 = k := by
    have := hfields.length_eq
    exact Nat.mod_eq_of_lt (by omega)
  obtain rfl : v' = v := Option.some.inj (hv'.symm.trans (by rw [hmod, hv]))
  exact ⟨fc, hread, he⟩

theorem FieldAccess.read_incomplete (access : FieldAccess) :
    access.read .incomplete = .error (.typeMismatch .readField [.sentinel]) := by
  cases access <;> rfl

/-- A field access, by the way that typing finds. -/
theorem FieldAccess.read_matches (hc : c.Fits t) (hi : i.types.recordNamed? = t.recordNamed?)
    (hrec : ∀ {id r}, t.record? id = some r → r.fields.length ≤ 65536)
    {location : Option (RecordType × Nat)} (h : c.field s name = .ok (s₁, location))
    (hs : s.Admits t v) (hf : t.Form v cv) :
    StepMatches t (i.field v name)
      (((location.map fun p : RecordType × Nat => p.1.access p.2).getD (FieldAccess.boxed 0)).read
        cv) := by
  rcases hf with ⟨rfl, rfl⟩ | he
  · rw [FieldAccess.read_incomplete]
    exact .error ⟨trivial, rfl⟩ (overSentinel_single _)
  · obtain ⟨id, rfl, ha⟩ := hs.known he.ne_incomplete
    obtain ⟨r, k, f, hr, hk, hfk, rfl, rfl⟩ := Typing.Fits.field_known h
    obtain ⟨vs, rfl, hrn⟩ := hc.admits_record hr ha
    obtain ⟨rid, r', hrn', hfs⟩ := he.normal.fields hc.target
    obtain ⟨rfl, rfl⟩ : id = rid ∧ r = r' := by simpa using hrn.symm.trans hrn'
    obtain ⟨w, hw⟩ : ∃ w, vs[k]? = some w := by
      have hlt := (List.getElem?_eq_some_iff.1 hfk).1
      rw [hfs.length_eq] at hlt
      exact ⟨vs[k], List.getElem?_eq_getElem hlt⟩
    obtain ⟨fc, hread, hfe⟩ := he.access hc.target hrn (hrec (recordNamed?_eq_some.1 hrn).2) hw
    rw [Typing.Fits.field_record (by rw [hi]; exact hrn) hk hw]
    show StepMatches t (.ok w) ((r.access k).read cv)
    rw [hread]
    exact .ok (.inr hfe)

/-! ### Constructors -/

/-- A constructor argument that passes the check against its field fits it, unless it is the sentinel. -/
theorem Typing.Fits.argument {position : Position} {f : Field} (hc : c.Fits t) (hi : i.types = t)
    (hfield : (c.types.get? f.type).isSome) (h : c.expectType position f.type s = .ok ())
    (hs : s.Admits t v) (he : t.Encodes v cv) (record : Ident) :
    (∃ u bits, c.types.scalarBits? f.type = some bits ∧ v = .uint u ∧ cv = .scalar u.value ∧
      i.coerce record f v = .ok (.uint (Uint.wrap bits u.value))) ∨
    (c.types.scalarBits? f.type = none ∧ (∀ n, cv ≠ .scalar n) ∧ t.Admits f.type v ∧
      i.coerce record f v = .ok v) := by
  subst hi
  obtain ⟨id, rfl, ha⟩ := hs.known he.ne_incomplete
  have hfits : c.fits f.type id = true := by
    unfold Typing.expectType at h
    simp only [StaticType.known?] at h
    split at h
    · assumption
    · cases h
  unfold Typing.fits at hfits
  split at hfits
  · -- a scalar for a scalar
    rename_i bits bits' hf hid
    have hbits := scalarBits?_eq_some.2 hf
    obtain ⟨u, rfl, -⟩ := hc.target.admits_scalar (hc.grows.scalarBits? (scalarBits?_eq_some.2 hid)) ha
    cases he
    refine .inl ⟨u, bits, hbits, rfl, rfl, ?_⟩
    unfold Interpreter.coerce
    rw [hc.grows.scalarBits? hbits]
    rfl
  · cases hfits
  · cases hfits
  · -- a record for a record or its sum
    rename_i hnf _ _
    have hadmits : i.types.Admits f.type v := by
      rcases Bool.or_eq_true _ _ ▸ hfits with heq | heq
      · rwa [← beq_iff_eq.1 heq]
      · rw [← beq_iff_eq.1 heq]
        exact hc.admits_widen ha
    have hnone : c.types.scalarBits? f.type = none :=
      Option.eq_none_iff_forall_ne_some.2 fun bits hb => hnf bits (scalarBits?_eq_some.1 hb)
    have hnone' : i.types.scalarBits? f.type = none := by
      obtain ⟨d, hd⟩ := Option.isSome_iff_exists.1 hfield
      refine Option.eq_none_iff_forall_ne_some.2 fun bits hb => hnf bits ?_
      have := hc.grows.get? hd
      rw [scalarBits?_eq_some.1 hb] at this
      rw [hd, this]
    obtain ⟨n, vs, rid, r, rfl, hr, hid⟩ := admits_not_scalar hnone' hadmits
    refine .inr ⟨hnone, ?_, hadmits, ?_⟩
    · rintro n rfl
      cases he
    · unfold Interpreter.coerce
      rw [hnone']
      have : i.isInstance n f.type = true := by
        unfold Interpreter.isInstance
        rw [(recordNamed?_eq_some.1 hr).1]
        simpa using hid
      simp [this]

/-- Values beside their compiled forms. -/
abbrev Forms (t : TypeTable) (vs : List Value) (cs : List Compiled) : Prop := List.Forall₂ t.Form vs cs

theorem Interpreter.coerce_incomplete (record : Ident) (f : Field) :
    i.coerce record f .incomplete =
      .error (.typeMismatch (.argument record f.name) [.ofValue .incomplete]) := by
  unfold coerce
  simp only [Value.asUint]
  split <;> rfl

/-- Constructor arguments of some static types, checked against the fields that they are for. -/
structure ArgumentsFit (c : Typing) (t : TypeTable) (record : Ident) (fs : List Field)
    (ss : List StaticType) (vs : List Value) (cs : List Compiled) : Prop where
  check : c.checkFields record fs ss = .ok ()
  fields : ∀ f ∈ fs, (c.types.get? f.type).isSome
  length : vs.length = fs.length
  types : List.Forall₂ (fun s v => s.Admits t v) ss vs
  forms : Forms t vs cs

theorem ArgumentsFit.tail {record : Ident} {f : Field} {fs : List Field} {ss : List StaticType}
    (h : ArgumentsFit c t record (f :: fs) (s :: ss) (v :: vs) (cv :: cs)) :
    c.expectType (.field record f.name) f.type s = .ok () ∧ s.Admits t v ∧ t.Form v cv ∧
      ArgumentsFit c t record fs ss vs cs := by
  obtain ⟨hcheck, hfields, hlen, htypes, hforms⟩ := h
  rw [Typing.checkFields] at hcheck
  obtain ⟨⟨⟩, hexpect, hcheck⟩ := bind_eq_ok.1 hcheck
  cases htypes with
  | cons hs htypes =>
    cases hforms with
    | cons hf hforms =>
      exact ⟨hexpect, hs, hf, hcheck, fun g hg => hfields g (List.mem_cons_of_mem _ hg),
        by simpa using hlen, htypes, hforms⟩

/-- The interpreter refuses some constructor arguments because of a sentinel. -/
def Interpreter.Refuses (i : Interpreter) (record : Ident) (fs : List Field) (vs : List Value) : Prop :=
  ∃ field found, i.coerceAll record fs vs = .error (.typeMismatch (.argument record field) found)

/-- What a field of a boxed record keeps of an argument. -/
def Shape.stored (width : Option Nat) (c : Compiled) : Compiled :=
  match width, c with
  | some bits, .scalar n => .scalar (n &&& mask bits)
  | _, c => c

theorem Shape.boxFields_cons (width : Option Nat) (widths : List (Option Nat)) (cv : Compiled)
    (cs : List Compiled) : boxFields (width :: widths) (cv :: cs) =
      if cv.isIncomplete then .error (.typeMismatch .construct [cv.found])
      else (boxFields widths cs).map (stored width cv :: ·) := by
  cases width <;> cases cv <;> rfl

section Build

variable (hc : c.Fits t) (hi : i.types = t)
include hc hi

theorem Shape.boxFields_eq {record : Ident} {fs : List Field} {ss : List StaticType}
    (h : ArgumentsFit c t record fs ss vs cs) :
    (∃ ws fcs, i.coerceAll record fs vs = .ok ws ∧ t.EncodesAll fs ws fcs ∧
      boxFields (fs.map fun f => c.types.scalarBits? f.type) cs = .ok fcs) ∨
    (i.Refuses record fs vs ∧ boxFields (fs.map fun f => c.types.scalarBits? f.type) cs =
      .error (.typeMismatch .construct [.sentinel])) := by
  induction fs generalizing ss vs cs with
  | nil =>
    obtain rfl := List.length_eq_zero_iff.1 h.length
    cases h.forms
    exact .inl ⟨[], [], rfl, .nil, rfl⟩
  | cons f fs ih =>
    obtain ⟨v, vs, rfl⟩ := List.exists_cons_of_length_eq_add_one h.length
    obtain ⟨s, ss, rfl⟩ := List.exists_cons_of_length_eq_add_one
      (h.types.length_eq.trans (List.length_cons))
    obtain ⟨cv, cs, rfl⟩ := List.exists_cons_of_length_eq_add_one
      (h.forms.length_eq.symm.trans (List.length_cons))
    obtain ⟨hexpect, hs, hf, hrest⟩ := h.tail
    rw [List.map_cons, boxFields_cons]
    unfold Interpreter.Refuses
    rw [Interpreter.coerceAll]
    rcases hf with ⟨rfl, rfl⟩ | he
    · refine .inr ⟨⟨f.name, [.ofValue .incomplete], ?_⟩, rfl⟩
      rw [Interpreter.coerce_incomplete]
      rfl
    · rw [he.isIncomplete]
      -- the first field is stored in the form of the fitted argument
      obtain ⟨w, fc, hw, ha, hfe, hstored⟩ : ∃ w fc, i.coerce record f v = .ok w ∧ t.Admits f.type w ∧
          t.Encodes w fc ∧ stored (c.types.scalarBits? f.type) cv = fc := by
        rcases hc.argument hi (h.fields f (by simp)) hexpect hs he record with
          ⟨u, bits, hb, rfl, rfl, hw⟩ | ⟨hb, hnot, ha, hw⟩
        · obtain ⟨h₁, h₂⟩ := hc.wellFormed.width (scalarBits?_eq_some.1 hb)
          refine ⟨_, _, hw, ?_, .scalar _, ?_⟩
          · rw [TypeTable.Admits, Uint.bits_wrap h₁ h₂]
            exact hc.grows.scalarBits? hb
          · rw [hb, Uint.value_wrap h₁ h₂]
            rfl
        · refine ⟨_, _, hw, ha, he, ?_⟩
          rw [hb]
          rfl
      rw [hw]
      simp only [Bool.false_eq_true, if_false]
      rcases ih hrest with ⟨ws, fcs, hws, hall, hbox⟩ | ⟨⟨field, found, hws⟩, hbox⟩
      · refine .inl ⟨w :: ws, fc :: fcs, ?_, .cons ha hfe hall, ?_⟩
        · rw [hws]
          rfl
        · rw [hbox, hstored]
          rfl
      · refine .inr ⟨⟨field, found, ?_⟩, ?_⟩
        · rw [hws]
          rfl
        · rw [hbox]
          rfl

theorem Shape.packInto_eq {record : Ident} {fs : List Field} {ss : List StaticType}
    {slots : List Slot}
    (hslots : List.Forall₂ (fun f s => c.types.scalarBits? f.type = some s.bits) fs slots)
    (h : ArgumentsFit c t record fs ss vs cs) (word : UInt64) :
    (∃ us : List Uint, i.coerceAll record fs vs = .ok (us.map .uint) ∧
      us.map Uint.bits = slots.map Slot.bits ∧
      packInto word slots cs = .ok (pack word slots (us.map Uint.value))) ∨
    (i.Refuses record fs vs ∧ packInto word slots cs =
      .error (.typeMismatch .construct [.sentinel])) := by
  induction hslots generalizing ss vs cs word with
  | nil =>
    obtain rfl := List.length_eq_zero_iff.1 h.length
    cases h.forms
    exact .inl ⟨[], rfl, rfl, rfl⟩
  | @cons f slot fs slots hslot _ ih =>
    obtain ⟨v, vs, rfl⟩ := List.exists_cons_of_length_eq_add_one h.length
    obtain ⟨s, ss, rfl⟩ := List.exists_cons_of_length_eq_add_one
      (h.types.length_eq.trans (List.length_cons))
    obtain ⟨cv, cs, rfl⟩ := List.exists_cons_of_length_eq_add_one
      (h.forms.length_eq.symm.trans (List.length_cons))
    obtain ⟨hexpect, hs, hf, hrest⟩ := h.tail
    rw [packInto]
    unfold Interpreter.Refuses
    rw [Interpreter.coerceAll]
    rcases hf with ⟨rfl, rfl⟩ | he
    · refine .inr ⟨⟨f.name, [.ofValue .incomplete], ?_⟩, rfl⟩
      rw [Interpreter.coerce_incomplete]
      rfl
    · rcases hc.argument hi (h.fields f (by simp)) hexpect hs he record with
        ⟨u, bits, hb, rfl, rfl, hw⟩ | ⟨hb, -⟩
      · obtain rfl : slot.bits = bits := Option.some.inj (hslot.symm.trans hb)
        obtain ⟨h₁, h₂⟩ := hc.wellFormed.width (scalarBits?_eq_some.1 hb)
        rw [hw]
        simp only [Compiled.scalar?]
        rcases ih hrest (word ||| ((u.value &&& mask slot.bits) <<< UInt64.ofNat slot.shift)) with
          ⟨us, hus, hbits, hpack⟩ | ⟨⟨field, found, hus⟩, hpack⟩
        · refine .inl ⟨Uint.wrap slot.bits u.value :: us, ?_, ?_, ?_⟩
          · rw [hus]
            rfl
          · rw [List.map_cons, List.map_cons, hbits, Uint.bits_wrap h₁ h₂]
          · rw [hpack, List.map_cons, pack, Uint.value_wrap h₁ h₂]
        · refine .inr ⟨⟨field, found, ?_⟩, hpack⟩
          rw [hus]
          rfl
      · rw [hslot] at hb
        cases hb

omit hc hi in
theorem Interpreter.Refuses.construct (h : i.Refuses r.name r.fields vs)
    (hlen : vs.length = r.fields.length) :
    ∃ f, i.construct r vs = .error f ∧ f.code = "RuntimeError::TypeMismatch" := by
  obtain ⟨field, found, hco⟩ := h
  refine ⟨.typeMismatch (.argument r.name field) found, ?_, rfl⟩
  unfold Interpreter.construct
  rw [if_neg (not_not.2 hlen), hco]
  rfl

end Build

/-- A constructor, with the representation that lowering gives it. -/
theorem Shape.build_matches {l : Lowerer} {ss : List StaticType} (hc : l.toTyping.Fits t)
    (hi : i.types = t) (hr : l.types.recordNamed? name = some (id, r))
    (h : ArgumentsFit l.toTyping t r.name r.fields ss vs cs) :
    StepMatches t (i.construct r vs) ((l.shapeOf r).build r.tag cs) := by
  have hrt := hc.grows.recordNamed? hc.target hr
  have hname := name_of_recordNamed? hr
  have refused : i.Refuses r.name r.fields vs → StepMatches t (i.construct r vs)
      (.error (.typeMismatch .construct [.sentinel])) := by
    intro hrefuse
    obtain ⟨f, hf, hcode⟩ := hrefuse.construct h.length
    rw [hf]
    exact .error ⟨trivial, hcode.symm⟩ (overSentinel_single _)
  have fitted : ∀ {ws}, i.coerceAll r.name r.fields vs = .ok ws →
      i.construct r vs = .ok (.record r.name ws) := by
    intro ws hws
    unfold Interpreter.construct
    rw [if_neg (not_not.2 h.length), hws]
    rfl
  unfold Lowerer.shapeOf
  cases hl : r.layout with
  | packed slots =>
    obtain ⟨-, hslots⟩ := hc.wellFormed.packed (recordNamed?_eq_some.1 hr).2 hl
    unfold build
    rcases packInto_eq hc hi hslots h (UInt64.ofNat r.tag.toNat) with
      ⟨us, hus, hbits, hpack⟩ | ⟨hrefuse, hpack⟩
    · dsimp only
      rw [hpack, fitted hus]
      exact .ok (.inr (.packed (hname ▸ hrt) hl hbits))
    · dsimp only
      rw [hpack]
      exact refused hrefuse
  | boxed =>
    unfold build
    rcases boxFields_eq hc hi h with ⟨ws, fcs, hws, hall, hbox⟩ | ⟨hrefuse, hbox⟩
    · dsimp only
      rw [hbox, fitted hws]
      exact .ok (.inr (.boxed (hname ▸ hrt) hl hall))
    · dsimp only
      rw [hbox]
      exact refused hrefuse

end ShapeCompiler
