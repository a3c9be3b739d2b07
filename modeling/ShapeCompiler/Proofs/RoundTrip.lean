import ShapeCompiler.Catalog.Shapes
import ShapeCompiler.Proofs.Representation
import ShapeCompiler.Proofs.Types.Registration

/-!
What can be encoded, and what comes back when it is decoded.

A value inhabits a type loosely if its shape is the declared one, whatever the widths of its integers;
normalising it gives every integer its declared width. Main statement: exactly these values and the
sentinel are encoded, decoding yields the normalised value, and two values have the same compiled form
if and only if they are normalised to the same value (`TypeTable.Registered.round_trip`).
-/

namespace ShapeCompiler

namespace TypeTable

/-- The tables that registering groups of declarations and scalars leads to. -/
inductive Registered : TypeTable → Prop
  | empty : Registered {}
  | declare {t t' : TypeTable} {group : List TypeDecl} {ids : List TypeId} (h : Registered t)
      (hd : t.declare group = .ok (ids, t')) : Registered t'
  | scalar {t t' : TypeTable} {bits : Nat} {id : TypeId} (h : Registered t)
      (hs : t.declareScalar bits = .ok (id, t')) : Registered t'

theorem Registered.wellFormed {t : TypeTable} (h : t.Registered) : t.WellFormed := by
  induction h with
  | empty => exact wellFormed_empty
  | declare _ hd ih => exact (ih.declare hd).1
  | @scalar t t' bits id _ hs ih =>
    obtain ⟨hb, -, rfl⟩ := declareScalar_eq_ok.1 hs
    exact ih.ensureScalar hb.1 hb.2

mutual

/-- The values of a type, its integers being of any width: an integer of a scalar type, and a record of
the type itself or of a variant of the sum, whose fields are values of their declared types. -/
inductive Loosely (t : TypeTable) : TypeId → Value → Prop
  | int {id : TypeId} {n : UInt64} (h : (t.scalarBits? id).isSome) : Loosely t id (.int n)
  | uint {id : TypeId} {u : Uint} (h : (t.scalarBits? id).isSome) : Loosely t id (.uint u)
  | record {id rid : TypeId} {r : RecordType} {name : Ident} {vs : List Value}
      (hr : t.recordNamed? name = some (rid, r))
      (hid : rid = id ∨ ∃ s, t.sum? id = some s ∧ rid ∈ s.variants)
      (hf : FieldsLoosely t r.fields vs) : Loosely t id (.record name vs)

/-- As many values as there are fields, each of the type of its field. -/
inductive FieldsLoosely (t : TypeTable) : List Field → List Value → Prop
  | nil : FieldsLoosely t [] []
  | cons {f : Field} {fs : List Field} {v : Value} {vs : List Value} (h : Loosely t f.type v)
      (hs : FieldsLoosely t fs vs) : FieldsLoosely t (f :: fs) (v :: vs)

end

/-- An integer at the width of a scalar type; under another type it stays as it is. -/
def integerAt (t : TypeTable) (id : TypeId) (n : UInt64) (v : Value) : Value :=
  match t.scalarBits? id with
  | some bits => .uint (Uint.wrap bits n)
  | none => v

def fieldsOf (t : TypeTable) (name : Ident) : List Field :=
  ((t.recordNamed? name).map fun p => p.2.fields).getD []

mutual

/-- The value with every integer replaced by one of its declared width. -/
def norm (t : TypeTable) : TypeId → Value → Value
  | id, .int n => t.integerAt id n (.int n)
  | id, .uint u => t.integerAt id u.value (.uint u)
  | _, .record name vs => .record name (normFields t (t.fieldsOf name) vs)
  | _, .incomplete => .incomplete

def normFields (t : TypeTable) : List Field → List Value → List Value
  | f :: fs, v :: vs => norm t f.type v :: normFields t fs vs
  | _, vs => vs

end

variable {t : TypeTable} {id rid : TypeId} {r : RecordType} {name : Ident} {v w : Value}
  {vs : List Value} {fs : List Field} {c : Compiled}

theorem fieldsOf_eq (hr : t.recordNamed? name = some (rid, r)) : t.fieldsOf name = r.fields := by
  unfold fieldsOf
  rw [hr]
  rfl

theorem FieldsLoosely.length_eq (h : t.FieldsLoosely fs vs) : vs.length = fs.length := by
  induction fs generalizing vs with
  | nil => cases h; rfl
  | cons f fs ih => cases h with | cons _ hs => simp [ih hs]

theorem FieldsLoosely.any_incomplete (h : t.FieldsLoosely fs vs) :
    vs.any (·.isIncomplete) = false := by
  induction fs generalizing vs with
  | nil => cases h; rfl
  | cons f fs ih =>
    cases h with
    | cons hv hs =>
      rw [List.any_cons, ih hs]
      cases hv <;> rfl

theorem WellFormed.isA_iff (hw : t.WellFormed) (hr : t.record? rid = some r) :
    (rid = id ∨ ∃ s, t.sum? id = some s ∧ rid ∈ s.variants) ↔ rid = id ∨ t.widen rid = id := by
  constructor
  · rintro (h | ⟨s, hs, hv⟩)
    · exact .inl h
    · obtain ⟨k, hk⟩ := List.mem_iff_getElem?.1 hv
      obtain ⟨r', hr', hh, -⟩ := hw.variant hs hk
      exact .inr (widen_of_home hr' hh)
  · rintro (h | h)
    · exact .inl h
    · cases hh : r.home with
      | none => exact .inl ((widen_of_no_home hr hh).symm.trans h)
      | some S =>
        obtain ⟨s, hs, hv⟩ := hw.home hr hh
        obtain rfl : S = id := (widen_of_home hr hh).symm.trans h
        exact .inr ⟨s, hs, List.mem_of_getElem? hv⟩

/-! ### Normalised values -/

theorem WellFormed.integerAt_eq (hw : t.WellFormed) (h : (t.scalarBits? id).isSome) (n : UInt64)
    (v : Value) : ∃ bits, t.scalarBits? id = some bits ∧ 1 ≤ bits ∧ bits ≤ 64 ∧
      t.integerAt id n v = .uint (Uint.wrap bits n) := by
  obtain ⟨bits, hb⟩ := Option.isSome_iff_exists.1 h
  obtain ⟨h₁, h₂⟩ := hw.width (scalarBits?_eq_some.1 hb)
  refine ⟨bits, hb, h₁, h₂, ?_⟩
  unfold integerAt
  rw [hb]

theorem WellFormed.integer_of_loosely (hw : t.WellFormed) {bits : Nat}
    (hb : t.scalarBits? id = some bits) (h : t.Loosely id v) :
    ∃ n, v.wordAt? bits = some (n &&& mask bits) ∧ t.norm id v = .uint (Uint.wrap bits n) := by
  cases h with
  | int _ => exact ⟨_, rfl, by rw [norm, integerAt, hb]⟩
  | uint _ => exact ⟨_, rfl, by rw [norm, integerAt, hb]⟩
  | record hr hid _ =>
    have hrec := (recordNamed?_eq_some.1 hr).2
    obtain ⟨d, hd, hnot⟩ := hw.exists_descriptor hrec ((hw.isA_iff hrec).1 hid)
    rw [scalarBits?_eq_some.1 hb] at hd
    exact absurd (Option.some.inj hd).symm (hnot bits)

theorem WellFormed.admits_norm (hw : t.WellFormed) (h : t.Loosely id v) :
    t.Admits id (t.norm id v) := by
  cases h with
  | int h =>
    obtain ⟨bits, hb, h₁, h₂, he⟩ := hw.integerAt_eq h _ _
    rw [norm, he, Admits, Uint.bits_wrap h₁ h₂, hb]
  | uint h =>
    obtain ⟨bits, hb, h₁, h₂, he⟩ := hw.integerAt_eq h _ _
    rw [norm, he, Admits, Uint.bits_wrap h₁ h₂, hb]
  | record hr hid _ =>
    rw [norm]
    exact ⟨_, _, hr, (hw.isA_iff (recordNamed?_eq_some.1 hr).2).1 hid⟩

theorem fieldsLoosely_normFields_iff
    (ih : ∀ v ∈ vs, ∀ {id}, t.Loosely id (t.norm id v) ↔ t.Loosely id v) :
    t.FieldsLoosely fs (t.normFields fs vs) ↔ t.FieldsLoosely fs vs := by
  induction vs generalizing fs with
  | nil => cases fs <;> simp [normFields]
  | cons v vs ihs =>
    cases fs with
    | nil => simp [normFields]
    | cons f fs =>
      have hv : t.Loosely f.type (t.norm f.type v) ↔ t.Loosely f.type v := ih v (by simp)
      have hvs : t.FieldsLoosely fs (t.normFields fs vs) ↔ t.FieldsLoosely fs vs :=
        ihs fun w hm => ih w (List.mem_cons_of_mem _ hm)
      rw [normFields]
      constructor
      · rintro (_ | ⟨h, hs⟩)
        exact .cons (hv.1 h) (hvs.1 hs)
      · rintro (_ | ⟨h, hs⟩)
        exact .cons (hv.2 h) (hvs.2 hs)

theorem loosely_integerAt_iff (n : UInt64) (h : t.Loosely id v ↔ (t.scalarBits? id).isSome) :
    t.Loosely id (t.integerAt id n v) ↔ t.Loosely id v := by
  unfold integerAt
  cases hb : t.scalarBits? id with
  | none => exact Iff.rfl
  | some bits =>
    rw [h, hb]
    exact ⟨fun _ => rfl, fun _ => .uint (by rw [hb]; rfl)⟩

/-- Normalising does not change of what type a value is. -/
theorem loosely_norm_iff : t.Loosely id (t.norm id v) ↔ t.Loosely id v := by
  induction v using Value.ind generalizing id with
  | int n =>
    rw [norm]
    refine loosely_integerAt_iff n ⟨?_, .int⟩
    rintro (h | _ | _)
    exact h
  | uint u =>
    rw [norm]
    refine loosely_integerAt_iff u.value ⟨?_, .uint⟩
    rintro (_ | h | _)
    exact h
  | incomplete => rw [norm]
  | record name vs ih =>
    rw [norm]
    constructor
    · rintro (_ | _ | ⟨hr, hid, hf⟩)
      rw [fieldsOf_eq hr] at hf
      exact .record hr hid ((fieldsLoosely_normFields_iff ih).1 hf)
    · rintro (_ | _ | ⟨hr, hid, hf⟩)
      refine .record hr hid ?_
      rw [fieldsOf_eq hr]
      exact (fieldsLoosely_normFields_iff ih).2 hf

theorem norm_eq_incomplete_iff : t.norm id v = .incomplete ↔ v = .incomplete := by
  cases v with
  | int n => rw [norm, integerAt]; split <;> simp
  | uint u => rw [norm, integerAt]; split <;> simp
  | record name vs => simp [norm]
  | incomplete => simp [norm]

/-! ### Encoding -/

theorem WellFormed.packFields_loosely (hw : t.WellFormed) {slots : List Slot}
    (hwidth : ∀ s ∈ slots, 1 ≤ s.bits ∧ s.bits ≤ 64)
    (hs : List.Forall₂ (fun f s => t.scalarBits? f.type = some s.bits) fs slots)
    (h : t.FieldsLoosely fs vs) (word : UInt64) :
    ∃ us : List Uint, t.normFields fs vs = us.map .uint ∧ us.map Uint.bits = slots.map Slot.bits ∧
      t.packFields word vs slots fs = .ok (pack word slots (us.map Uint.value)) := by
  induction hs generalizing vs word with
  | nil => cases h; exact ⟨[], by simp [normFields], rfl, rfl⟩
  | @cons f s fs slots hf _ ih =>
    cases h with
    | @cons _ _ v vs hv hvs =>
      obtain ⟨n, hn, hnorm⟩ := hw.integer_of_loosely hf hv
      obtain ⟨h₁, h₂⟩ := hwidth s (by simp)
      obtain ⟨us, hus, hb, hp⟩ := ih (fun s' h' => hwidth s' (List.mem_cons_of_mem _ h')) hvs
        (word ||| ((n &&& mask s.bits) <<< UInt64.ofNat s.shift))
      refine ⟨Uint.wrap s.bits n :: us, ?_, ?_, ?_⟩
      · rw [normFields, hnorm, hus]
        rfl
      · simp [hb, Uint.bits_wrap h₁ h₂]
      · rw [packFields]
        simp only [hn]
        rw [hp, List.map_cons, pack, Uint.value_wrap h₁ h₂]

/-- Encoding the fields of a record puts the forms of their normalised values on the pile. -/
theorem WellFormed.run_fields (hw : t.WellFormed)
    (ih : ∀ v ∈ vs, ∀ {id}, t.Loosely id v → ∃ c, t.Encodes (t.norm id v) c ∧ ∀ rest out,
      EncodeTask.run t (.value v id :: rest) out = EncodeTask.run t rest (c :: out))
    (h : t.FieldsLoosely fs vs) :
    ∃ cs, t.EncodesAll fs (t.normFields fs vs) cs ∧ ∀ rest out,
      EncodeTask.run t (EncodeTask.ofFields vs fs ++ rest) out =
        EncodeTask.run t rest (cs.reverse ++ out) := by
  induction vs generalizing fs with
  | nil =>
    cases h
    refine ⟨[], ?_, fun rest out => rfl⟩
    rw [show t.normFields [] [] = [] by simp [normFields]]
    exact .nil
  | cons v vs ihs =>
    cases h with
    | @cons f fs _ _ hv hvs =>
      obtain ⟨c, hc, hrun⟩ := ih v (by simp) hv
      obtain ⟨cs, hcs, hruns⟩ := ihs (fun w hm => ih w (List.mem_cons_of_mem _ hm)) hvs
      refine ⟨c :: cs, ?_, fun rest out => ?_⟩
      · rw [normFields]
        exact .cons (hw.admits_norm hv) hc hcs
      · show EncodeTask.run t (.value v f.type :: (EncodeTask.ofFields vs fs ++ rest)) out = _
        rw [hrun, hruns, List.reverse_cons, List.append_assoc]
        rfl

theorem WellFormed.run_loosely (hw : t.WellFormed) (h : t.Loosely id v) :
    ∃ c, t.Encodes (t.norm id v) c ∧ ∀ rest out,
      EncodeTask.run t (.value v id :: rest) out = EncodeTask.run t rest (c :: out) := by
  have integer : ∀ {v : Value} {n : UInt64} {id : TypeId}, (t.scalarBits? id).isSome →
      ∃ bits c, t.get? id = some (.scalar bits) ∧ t.Encodes (t.integerAt id n v) c ∧
        c = .scalar (n &&& mask bits) := by
    intro v n id hs
    obtain ⟨bits, hb, h₁, h₂, he⟩ := hw.integerAt_eq hs n v
    refine ⟨bits, _, scalarBits?_eq_some.1 hb, ?_, rfl⟩
    rw [he, ← Uint.value_wrap h₁ h₂]
    exact .scalar _
  induction v using Value.ind generalizing id with
  | int n =>
    cases h with | int hs =>
    obtain ⟨bits, c, hd, hc, rfl⟩ := @integer (.int n) n id hs
    refine ⟨_, by rw [norm]; exact hc, fun rest out => ?_⟩
    rw [EncodeTask.run]
    simp only [hd]
  | uint u =>
    cases h with | uint hs =>
    obtain ⟨bits, c, hd, hc, rfl⟩ := @integer (.uint u) u.value id hs
    refine ⟨_, by rw [norm]; exact hc, fun rest out => ?_⟩
    rw [EncodeTask.run]
    simp only [hd]
  | incomplete => cases h
  | record name vs ih =>
    cases h with | @record _ rid r _ _ hr hid hf =>
    have hrec := (recordNamed?_eq_some.1 hr).2
    have hisa := (hw.isA_iff hrec).1 hid
    obtain ⟨d, hd, hnot⟩ := hw.exists_descriptor hrec hisa
    have hstep := @EncodeTask.run_record t id name vs d hd hnot
    simp only [instanceType_eq hr hisa hf.length_eq.symm, hf.any_incomplete, Bool.false_eq_true,
      if_false] at hstep
    rw [norm, fieldsOf_eq hr]
    cases hl : r.layout with
    | packed slots =>
      obtain ⟨hadj, hslots⟩ := hw.packed hrec hl
      obtain ⟨us, hus, hb, hp⟩ := hw.packFields_loosely hadj.width hslots hf
        (UInt64.ofNat r.tag.toNat)
      refine ⟨_, by rw [hus]; exact .packed hr hl hb, fun rest out => ?_⟩
      rw [hstep, hl]
      simp only [hp]
    | boxed =>
      obtain ⟨cs, hcs, hrun⟩ := hw.run_fields (fun v hm _ => ih v hm) hf
      refine ⟨.boxed r.tag cs, .boxed hr hl hcs, fun rest out => ?_⟩
      have hlen : vs.length = cs.reverse.length := by
        rw [List.length_reverse, hcs.length_right, hcs.length_left, hf.length_eq]
      rw [hstep, hl]
      simp only
      rw [hrun, EncodeTask.run, hlen, List.take_left, List.drop_left, List.reverse_reverse]

theorem fieldsLoosely_of_packFields {slots : List Slot} {word w : UInt64}
    (hs : List.Forall₂ (fun f s => t.scalarBits? f.type = some s.bits) fs slots)
    (hlen : vs.length = fs.length) (h : t.packFields word vs slots fs = .ok w) :
    t.FieldsLoosely fs vs := by
  induction hs generalizing vs word with
  | nil =>
    obtain rfl := List.length_eq_zero_iff.1 hlen
    exact .nil
  | @cons f s fs slots hf _ ih =>
    cases vs with
    | nil => cases hlen
    | cons v vs =>
      have hsome : (t.scalarBits? f.type).isSome := by rw [hf]; rfl
      rw [packFields] at h
      cases v with
      | int n => exact .cons (.int hsome) (ih (by simpa using hlen) h)
      | uint u => exact .cons (.uint hsome) (ih (by simpa using hlen) h)
      | record name vs => cases h
      | incomplete => cases h

theorem WellFormed.fieldsLoosely_of_run (hw : t.WellFormed)
    (ih : ∀ v ∈ vs, ∀ {id rest out res}, EncodeTask.run t (.value v id :: rest) out = .ok res →
      v = .incomplete ∨ t.Loosely id v)
    (hany : vs.any (·.isIncomplete) = false) (hlen : vs.length = fs.length)
    {rest : List EncodeTask} {out res : List Compiled}
    (h : EncodeTask.run t (EncodeTask.ofFields vs fs ++ rest) out = .ok res) :
    t.FieldsLoosely fs vs := by
  induction vs generalizing fs out with
  | nil =>
    obtain rfl := List.length_eq_zero_iff.1 hlen.symm
    exact .nil
  | cons v vs ihs =>
    cases fs with
    | nil => cases hlen
    | cons f fs =>
      rw [List.any_cons, Bool.or_eq_false_iff] at hany
      obtain ⟨c, hrest, -⟩ := hw.encoded_of_run h
      have hv : t.Loosely f.type v := by
        rcases ih v (by simp) h with rfl | hv
        · simp [Value.isIncomplete] at hany
        · exact hv
      exact .cons hv (ihs (fun w hm => ih w (List.mem_cons_of_mem _ hm)) hany.2
        (by simpa using hlen) hrest)

/-- Only the sentinel and the values of a type are encoded under it. -/
theorem WellFormed.loosely_of_run (hw : t.WellFormed) : ∀ {id rest out res},
    EncodeTask.run t (.value v id :: rest) out = .ok res → v = .incomplete ∨ t.Loosely id v := by
  have scalar : ∀ {id bits}, t.get? id = some (.scalar bits) → (t.scalarBits? id).isSome := by
    intro id bits hd
    rw [scalarBits?_eq_some.2 hd]
    rfl
  induction v using Value.ind with
  | int n =>
    intro id rest out res h
    rw [EncodeTask.run] at h
    split at h
    · rename_i bits hd
      exact .inr (.int (scalar hd))
    · cases h
  | uint u =>
    intro id rest out res h
    rw [EncodeTask.run] at h
    split at h
    · rename_i bits hd
      exact .inr (.uint (scalar hd))
    · cases h
  | incomplete => exact fun _ => .inl rfl
  | record name vs ih =>
    intro id rest out res h
    have hd : ∃ d, t.get? id = some d ∧ ∀ bits, d ≠ .scalar bits := by
      rw [EncodeTask.run] at h
      split at h
      · rename_i r hd; exact ⟨_, hd, by simp⟩
      · rename_i s hd; exact ⟨_, hd, by simp⟩
      · cases h
    obtain ⟨d, hd, hnot⟩ := hd
    rw [EncodeTask.run_record hd hnot] at h
    split at h
    · cases h
    · rename_i r hi
      obtain ⟨rid, hr, hisa, hlen⟩ := get?_record_of_instanceType hi
      have hrec := (recordNamed?_eq_some.1 hr).2
      refine .inr (.record hr ((hw.isA_iff hrec).2 hisa) ?_)
      split at h
      · cases h
      · rename_i hany
        split at h
        · rename_i slots hl
          split at h
          · cases h
          · rename_i w hp
            exact fieldsLoosely_of_packFields (hw.packed hrec hl).2 hlen.symm hp
        · exact hw.fieldsLoosely_of_run ih (by simpa using hany) hlen.symm h

/-! ### The round trip -/

theorem WellFormed.encode_isOk_iff (hw : t.WellFormed) :
    (∃ c, t.encode v id = .ok c) ↔ v = .incomplete ∨ t.Loosely id v := by
  constructor
  · rintro ⟨c, h⟩
    unfold encode at h
    cases hrun : EncodeTask.run t [.value v id] [] with
    | error e => simp [hrun] at h
    | ok res => exact hw.loosely_of_run hrun
  · rintro (rfl | h)
    · exact ⟨_, encode_incomplete id⟩
    · obtain ⟨c, -, hrun⟩ := hw.run_loosely h
      exact ⟨c, by rw [encode, hrun, EncodeTask.run]⟩

theorem WellFormed.form_norm (hw : t.WellFormed) (h : t.encode v id = .ok c) :
    (v = .incomplete ∧ c = .incomplete) ∨ t.Loosely id v ∧ t.Encodes (t.norm id v) c := by
  rcases hw.encode_isOk_iff.1 ⟨c, h⟩ with rfl | hv
  · rw [encode_incomplete] at h
    cases h
    exact .inl ⟨rfl, rfl⟩
  · obtain ⟨c', he, hrun⟩ := hw.run_loosely hv
    rw [encode, hrun, EncodeTask.run] at h
    cases h
    exact .inr ⟨hv, he⟩

theorem WellFormed.decode_encode (hw : t.WellFormed) (h : t.encode v id = .ok c) :
    t.decode c id = .ok (t.norm id v) := by
  rcases hw.form_norm h with ⟨rfl, rfl⟩ | ⟨hv, he⟩
  · rw [decode_incomplete, norm]
  · exact hw.decode_of_encodes he (hw.admits_norm hv)

/-- A value of a type with declared widths is normalised already. -/
theorem WellFormed.norm_of_encodes (hw : t.WellFormed) (he : t.Encodes v c) (ha : t.Admits id v) :
    t.norm id v = v :=
  Except.ok.inj ((hw.decode_encode (hw.encode_of_encodes he ha)).symm.trans (hw.decode_of_encodes he ha))

theorem WellFormed.encode_norm (hw : t.WellFormed) (h : t.encode v id = .ok c) :
    t.encode (t.norm id v) id = .ok c := by
  rcases hw.form_norm h with ⟨rfl, rfl⟩ | ⟨hv, he⟩
  · rwa [norm]
  · exact hw.encode_of_encodes he (hw.admits_norm hv)

/-- Values that are normalised alike are encoded alike, and only these. -/
theorem WellFormed.encode_eq_iff (hw : t.WellFormed) (h : t.encode v id = .ok c) :
    t.encode w id = .ok c ↔ t.norm id w = t.norm id v := by
  constructor
  · intro hw'
    exact Except.ok.inj ((hw.decode_encode hw').symm.trans (hw.decode_encode h))
  · intro hn
    have hsome : w = .incomplete ∨ t.Loosely id w := by
      rw [← @norm_eq_incomplete_iff t id w, ← loosely_norm_iff, hn, loosely_norm_iff,
        norm_eq_incomplete_iff]
      exact hw.encode_isOk_iff.1 ⟨c, h⟩
    obtain ⟨c', hc'⟩ := hw.encode_isOk_iff.2 hsome
    have := hw.encode_norm hc'
    rw [hn, hw.encode_norm h] at this
    rw [hc', this]

/-- Exactly the sentinel and the values of a type are encoded, decoding yields the normalised value,
which is encoded alike, and no other value is encoded alike but those that are normalised to it. -/
theorem Registered.round_trip (h : t.Registered) (v : Value) :
    ((∃ c, t.encode v id = .ok c) ↔ v = .incomplete ∨ t.Loosely id v) ∧
    ∀ c, t.encode v id = .ok c →
      t.decode c id = .ok (t.norm id v) ∧ t.encode (t.norm id v) id = .ok c ∧
        ∀ w, t.encode w id = .ok c ↔ t.norm id w = t.norm id v :=
  have hw := h.wellFormed
  ⟨hw.encode_isOk_iff, fun _ hc =>
    ⟨hw.decode_encode hc, hw.encode_norm hc, fun _ => hw.encode_eq_iff hc⟩⟩

end TypeTable

/-! ### A table of trees -/

namespace Catalog

def treeTable : TypeTable :=
  match TypeTable.declare {} treeTypes with
  | .ok (_, t) => t
  | .error _ => {}

theorem treeTable_registered : treeTable.Registered := by
  have h : TypeTable.declare {} treeTypes = .ok ([⟨1⟩, ⟨2⟩, ⟨3⟩], treeTable) := by with_unfolding_all rfl
  exact .declare .empty h

def leafType : RecordType := ⟨"Leaf", [⟨"value", ⟨0⟩⟩], some ⟨3⟩, 1, .packed [⟨8, 24⟩]⟩

def nodeType : RecordType := ⟨"Node", [⟨"left", ⟨3⟩⟩, ⟨"right", ⟨3⟩⟩], some ⟨3⟩, 0, .boxed⟩

theorem treeTable_number : treeTable.scalarBits? ⟨0⟩ = some 24 := by with_unfolding_all rfl

theorem treeTable_leaf : treeTable.recordNamed? "Leaf" = some (⟨1⟩, leafType) := by
  with_unfolding_all rfl

theorem treeTable_node : treeTable.recordNamed? "Node" = some (⟨2⟩, nodeType) := by
  with_unfolding_all rfl

theorem treeTable_tree : treeTable.sum? ⟨3⟩ = some ⟨"Tree", [⟨2⟩, ⟨1⟩]⟩ := by with_unfolding_all rfl

/-- A leaf with a number of no width yet is a tree. -/
theorem loosely_leaf (n : UInt64) : treeTable.Loosely ⟨3⟩ (.record "Leaf" [.int n]) :=
  .record treeTable_leaf (.inr ⟨_, treeTable_tree, by decide⟩)
    (.cons (.int (Option.isSome_of_eq_some treeTable_number)) .nil)

/-- A leaf with a number that needs too many bits is encoded as a tree; what comes back has 24. -/
theorem round_trip_leaf :
    ∃ c, treeTable.encode (.record "Leaf" [.int 16777223]) ⟨3⟩ = .ok c ∧
      treeTable.decode c ⟨3⟩ = .ok (leaf 7) := by
  obtain ⟨hok, hc⟩ := treeTable_registered.round_trip (.record "Leaf" [.int 16777223])
  obtain ⟨c, h⟩ := hok.2 (.inr (loosely_leaf 16777223))
  have hnorm : treeTable.norm ⟨3⟩ (.record "Leaf" [.int 16777223]) = leaf 7 := by
    simp only [TypeTable.norm, TypeTable.fieldsOf_eq treeTable_leaf, leafType, TypeTable.normFields,
      TypeTable.integerAt, treeTable_number]
    rfl
  exact ⟨c, h, hnorm ▸ (hc c h).1⟩

end Catalog

end ShapeCompiler
