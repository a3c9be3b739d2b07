import ShapeCompiler.Proofs.Interpretation
import ShapeCompiler.Proofs.Representation

/-!
Steps of the interpreter on values in which every integer has its declared width.

Main statements: a constructor yields such a value of its own type (`construct_ok`), no step leaves
these values (`closed_normal`), and the steps on them do not depend on further scalars being
registered (`construct_congr`, `closed_normal`).
-/

namespace ShapeCompiler

namespace TypeTable

variable {t t' : TypeTable} {id rid : TypeId} {r : RecordType} {name : Ident} {v : Value}
  {vs : List Value}

/-- The values of some fields, each of its type and with declared widths. -/
def FieldValues (t : TypeTable) (fs : List Field) (vs : List Value) : Prop :=
  List.Forall₂ (fun f v => t.Admits f.type v ∧ t.Normal v) fs vs

theorem normal_uint (u : Uint) : t.Normal (.uint u) := ⟨_, .inr (.scalar u)⟩

theorem normal_incomplete : t.Normal .incomplete := ⟨_, .inl ⟨rfl, rfl⟩⟩

theorem Encodes.normal {c : Compiled} (h : t.Encodes v c) : t.Normal v := ⟨c, .inr h⟩

theorem not_normal_int (n : UInt64) : ¬ t.Normal (.int n) := by
  rintro ⟨c, ⟨h, -⟩ | h⟩
  · cases h
  · cases h

theorem Normal.encodes (h : t.Normal v) (hv : v ≠ .incomplete) : ∃ c, t.Encodes v c := by
  obtain ⟨c, ⟨h, -⟩ | h⟩ := h
  · exact absurd h hv
  · exact ⟨c, h⟩

theorem normal_iff (h : t.GrowsByScalars t') (hw : t.WellFormed) (hw' : t'.WellFormed) :
    t'.Normal v ↔ t.Normal v :=
  exists_congr fun _ => form_iff h hw hw'

theorem EncodesAll.fieldValues {fs : List Field} {cs : List Compiled} (h : t.EncodesAll fs vs cs) :
    t.FieldValues fs vs := by
  induction vs generalizing fs cs with
  | nil => cases h; exact .nil
  | cons v vs ih =>
    cases h with
    | cons ha he hs => exact .cons ⟨ha, he.normal⟩ (ih hs)

theorem FieldValues.encodesAll {fs : List Field} (h : t.FieldValues fs vs) :
    ∃ cs, t.EncodesAll fs vs cs := by
  induction h with
  | nil => exact ⟨[], .nil⟩
  | cons hf _ ih =>
    obtain ⟨cs, hs⟩ := ih
    obtain ⟨c, hc⟩ := hf.2
    exact ⟨c :: cs, .cons hf.1 (Form.of_admits hc hf.1) hs⟩

/-- Numbers of the widths of the slots of a packed record are values of its fields. -/
theorem fieldValues_uints {fs : List Field} {slots : List Slot} {us : List Uint}
    (hs : List.Forall₂ (fun f s => t.scalarBits? f.type = some s.bits) fs slots)
    (hb : us.map Uint.bits = slots.map Slot.bits) : t.FieldValues fs (us.map .uint) := by
  induction hs generalizing us with
  | nil =>
    cases us with
    | nil => exact .nil
    | cons u us => cases hb
  | cons hf _ ih =>
    cases us with
    | nil => cases hb
    | cons u us =>
      simp only [List.map_cons, List.cons.injEq] at hb
      exact .cons ⟨by rw [Admits, hf, hb.1], normal_uint u⟩ (ih hb.2)

/-- The fields of a value with declared widths are such values of the declared types. -/
theorem Normal.fields (hw : t.WellFormed) (h : t.Normal (.record name vs)) :
    ∃ rid r, t.recordNamed? name = some (rid, r) ∧ t.FieldValues r.fields vs := by
  obtain ⟨c, hc⟩ := h.encodes (by simp)
  cases hc with
  | packed hr hl hb =>
    exact ⟨_, _, hr, fieldValues_uints (hw.packed (recordNamed?_eq_some.1 hr).2 hl).2 hb⟩
  | boxed hr _ hf => exact ⟨_, _, hr, hf.fieldValues⟩

/-- The values of a scalar type are the numbers of its width. -/
theorem WellFormed.admits_scalar (hw : t.WellFormed) {bits : Nat} (hb : t.scalarBits? id = some bits)
    (ha : t.Admits id v) : ∃ u, v = .uint u ∧ u.bits = bits := by
  cases v with
  | int n => exact ha.elim
  | incomplete => exact ha.elim
  | uint u =>
    have hu : t.scalarBits? id = some u.bits := ha
    exact ⟨u, rfl, Option.some.inj (hu.symm.trans hb)⟩
  | record name vs =>
    obtain ⟨rid, r, hr, hid⟩ := ha
    obtain ⟨d, hd, hnot⟩ := hw.exists_descriptor (recordNamed?_eq_some.1 hr).2 hid
    rw [scalarBits?_eq_some.1 hb] at hd
    exact absurd (Option.some.inj hd).symm (hnot bits)

theorem admits_not_scalar (hb : t.scalarBits? id = none) (ha : t.Admits id v) :
    ∃ name vs rid r, v = .record name vs ∧ t.recordNamed? name = some (rid, r) ∧
      (rid = id ∨ t.widen rid = id) := by
  cases v with
  | int n => exact ha.elim
  | incomplete => exact ha.elim
  | uint u =>
    have hu : t.scalarBits? id = some u.bits := ha
    rw [hb] at hu
    cases hu
  | record name vs =>
    obtain ⟨rid, r, hr, hid⟩ := ha
    exact ⟨name, vs, rid, r, rfl, hr, hid⟩

theorem FieldValues.uints (hw : t.WellFormed) {fs : List Field} {slots : List Slot}
    (h : t.FieldValues fs vs)
    (hs : List.Forall₂ (fun f s => t.scalarBits? f.type = some s.bits) fs slots) :
    ∃ us : List Uint, vs = us.map .uint ∧ us.map Uint.bits = slots.map Slot.bits := by
  induction hs generalizing vs with
  | nil => cases h; exact ⟨[], rfl, rfl⟩
  | cons hf hs' ih =>
    cases h with
    | cons hv hvs =>
      obtain ⟨us, rfl, hb⟩ := ih hvs
      obtain ⟨u, rfl, hu⟩ := hw.admits_scalar hf hv.1
      exact ⟨u :: us, rfl, by simp [hb, hu]⟩

/-- A record of a declared type whose fields are of their types has declared widths. -/
theorem WellFormed.normal_record (hw : t.WellFormed) (hr : t.recordNamed? name = some (rid, r))
    (h : t.FieldValues r.fields vs) : t.Normal (.record name vs) := by
  cases hl : r.layout with
  | packed slots =>
    obtain ⟨us, rfl, hb⟩ := h.uints hw (hw.packed (recordNamed?_eq_some.1 hr).2 hl).2
    exact ⟨_, .inr (.packed hr hl hb)⟩
  | boxed =>
    obtain ⟨cs, hs⟩ := h.encodesAll
    exact ⟨_, .inr (.boxed hr hl hs)⟩

mutual

/-- The values of a type in which every integer, at any depth, has exactly its declared width. -/
inductive Inhabits (t : TypeTable) : TypeId → Value → Prop
  | uint {type : TypeId} {u : Uint} (h : t.scalarBits? type = some u.bits) : Inhabits t type (.uint u)
  | record {type own : TypeId} {n : Ident} {d : RecordType} {ws : List Value}
      (hr : t.recordNamed? n = some (own, d)) (hid : own = type ∨ t.widen own = type)
      (hf : FieldsInhabit t d.fields ws) : Inhabits t type (.record n ws)

inductive FieldsInhabit (t : TypeTable) : List Field → List Value → Prop
  | nil : FieldsInhabit t [] []
  | cons {f : Field} {fs : List Field} {w : Value} {ws : List Value} (h : Inhabits t f.type w)
      (hs : FieldsInhabit t fs ws) : FieldsInhabit t (f :: fs) (w :: ws)

end

/-- A value inhabits a type if it is of this type and has declared widths. -/
theorem WellFormed.inhabits_iff (hw : t.WellFormed) :
    t.Inhabits id v ↔ t.Admits id v ∧ t.Normal v := by
  have fields : ∀ {fs vs}, (∀ v ∈ vs, ∀ {id}, t.Inhabits id v ↔ t.Admits id v ∧ t.Normal v) →
      (t.FieldsInhabit fs vs ↔ t.FieldValues fs vs) := by
    intro fs vs ih
    induction vs generalizing fs with
    | nil => constructor <;> (intro h; cases h; constructor)
    | cons v vs ihs =>
      have ihs' := fun {fs} => @ihs fs fun x hx => ih x (List.mem_cons_of_mem _ hx)
      constructor
      · intro h
        cases h with
        | cons h hs => exact .cons ((ih v (by simp)).1 h) (ihs'.1 hs)
      · intro h
        cases h with
        | cons h hs => exact .cons ((ih v (by simp)).2 h) (ihs'.2 hs)
  induction v using Value.ind generalizing id with
  | int n =>
    constructor
    · intro h; cases h
    · rintro ⟨h, -⟩; exact h.elim
  | incomplete =>
    constructor
    · intro h; cases h
    · rintro ⟨h, -⟩; exact h.elim
  | uint u =>
    constructor
    · intro h; cases h with | uint h => exact ⟨h, normal_uint u⟩
    · rintro ⟨h, -⟩; exact .uint h
  | record name vs ih =>
    constructor
    · intro h
      cases h with
      | record hr hid hf =>
        exact ⟨⟨_, _, hr, hid⟩, hw.normal_record hr ((fields fun v hv => ih v hv).1 hf)⟩
    · rintro ⟨⟨rid, r, hr, hid⟩, hn⟩
      obtain ⟨rid', r', hr', hf⟩ := hn.fields hw
      obtain ⟨rfl, rfl⟩ : rid = rid' ∧ r = r' := by simpa using hr.symm.trans hr'
      exact .record hr hid ((fields fun v hv => ih v hv).2 hf)

theorem FieldValues.normal {fs : List Field} (h : t.FieldValues fs vs) : ∀ v ∈ vs, t.Normal v := by
  induction h with
  | nil => simp
  | cons hf _ ih =>
    intro v hv
    rcases List.mem_cons.1 hv with rfl | hv
    · exact hf.2
    · exact ih v hv

theorem FieldValues.get {fs : List Field} (h : t.FieldValues fs vs) {i : Nat} {f : Field}
    (hf : fs[i]? = some f) (hv : vs[i]? = some v) : t.Admits f.type v ∧ t.Normal v := by
  induction h generalizing i with
  | nil => cases hf
  | cons h _ ih =>
    cases i with
    | zero => cases hf; cases hv; exact h
    | succ i => exact ih hf hv

end TypeTable

open TypeTable

namespace Interpreter

variable {i i' : Interpreter} {r : RecordType} {rid : TypeId} {v w : Value} {vs : List Value}

/-! ### Operations -/

theorem binary_ok {t : TypeTable} {op : Operator} {v₁ v₂ : Value} (h₁ : t.Normal v₁)
    (h₂ : t.Normal v₂) (h : i.binary op v₁ v₂ = .ok v) :
    ∃ u₁ u₂ n, v₁ = .uint u₁ ∧ v₂ = .uint u₂ ∧
      op.apply u₁.value u₂.value (max u₁.bits u₂.bits) = .ok n ∧
      v = .uint (Uint.wrap (max u₁.bits u₂.bits) n) := by
  unfold binary at h
  split at h
  · rename_i a b ha hb
    obtain ⟨n, hn, rfl⟩ := map_eq_ok.1 h
    cases v₁ with
    | int n => exact absurd h₁ (not_normal_int n)
    | record name vs => cases ha
    | incomplete => cases ha
    | uint u₁ =>
      cases v₂ with
      | int n => exact absurd h₂ (not_normal_int n)
      | record name vs => cases hb
      | incomplete => cases hb
      | uint u₂ =>
        cases ha
        cases hb
        exact ⟨_, _, n, rfl, rfl, hn, rfl⟩
  · cases h

/-! ### Constructors -/

/-- A fitted argument is of the type of its field. -/
theorem coerce_ok (hw : i.types.WellFormed) {record : Ident} {f : Field} (hn : i.types.Normal v)
    (h : i.coerce record f v = .ok w) : i.types.Admits f.type w ∧ i.types.Normal w := by
  unfold coerce at h
  split at h
  · rename_i bits hb
    split at h
    · rename_i u _
      cases h
      obtain ⟨h1, h2⟩ := hw.width (scalarBits?_eq_some.1 hb)
      exact ⟨by rw [Admits, Uint.bits_wrap h1 h2, hb], normal_uint _⟩
    · cases h
  · split at h
    · rename_i name vs
      split at h
      · rename_i hi
        cases h
        obtain ⟨rid, r, hr, -⟩ := hn.fields hw
        refine ⟨⟨rid, r, hr, ?_⟩, hn⟩
        unfold isInstance at hi
        rw [(recordNamed?_eq_some.1 hr).1] at hi
        simpa using hi
      · cases h
    · cases h

theorem coerceAll_ok (hw : i.types.WellFormed) {record : Ident} {fs : List Field} {ws : List Value}
    (hn : ∀ v ∈ vs, i.types.Normal v) (hl : vs.length = fs.length)
    (h : i.coerceAll record fs vs = .ok ws) : i.types.FieldValues fs ws := by
  induction fs generalizing vs ws with
  | nil =>
    cases h
    exact .nil
  | cons f fs ih =>
    cases vs with
    | nil => cases hl
    | cons v vs =>
      rw [coerceAll] at h
      obtain ⟨v', hv, h⟩ := bind_eq_ok.1 h
      obtain ⟨vs', hvs, h⟩ := bind_eq_ok.1 h
      cases h
      exact .cons (coerce_ok hw (hn v (by simp)) hv)
        (ih (fun x hx => hn x (List.mem_cons_of_mem _ hx)) (by simpa using hl) hvs)

/-- A constructor yields a value of its own type with declared widths. -/
theorem construct_ok (hw : i.types.WellFormed) (hr : i.types.recordNamed? r.name = some (rid, r))
    (hn : ∀ v ∈ vs, i.types.Normal v) (h : i.construct r vs = .ok v) :
    i.types.Admits rid v ∧ i.types.Normal v := by
  unfold construct at h
  split at h
  · cases h
  · rename_i hl
    obtain ⟨ws, hws, rfl⟩ := map_eq_ok.1 h
    have hf := coerceAll_ok hw hn (not_not.1 hl) hws
    exact ⟨⟨rid, r, hr, .inl rfl⟩, hw.normal_record hr hf⟩

/-! ### Further scalars -/

section Grows

variable (hg : i.types.GrowsByScalars i'.types) (hw : i.types.WellFormed) (hw' : i'.types.WellFormed)
  (hb : i.defaultBits = i'.defaultBits)
include hg hw hw' hb

theorem coerce_congr {record : Ident} {f : Field} (hf : (i.types.get? f.type).isSome)
    (hn : i.types.Normal v) : i'.coerce record f v = i.coerce record f v := by
  unfold coerce
  rw [hg.scalarBits?_eq hf, hb]
  cases i.types.scalarBits? f.type with
  | some bits => rfl
  | none =>
    cases v with
    | record name vs =>
      obtain ⟨rid, r, hr, -⟩ := hn.fields hw
      have hr' := hg.recordNamed? hw' hr
      have : i'.isInstance name f.type = i.isInstance name f.type := by
        unfold isInstance
        rw [(recordNamed?_eq_some.1 hr).1, (recordNamed?_eq_some.1 hr').1]
        simp only [hg.widen_eq]
      simp only [this]
    | int n => rfl
    | uint u => rfl
    | incomplete => rfl

theorem coerceAll_congr {record : Ident} {fs : List Field}
    (hf : ∀ f ∈ fs, (i.types.get? f.type).isSome) (hn : ∀ v ∈ vs, i.types.Normal v) :
    i'.coerceAll record fs vs = i.coerceAll record fs vs := by
  induction fs generalizing vs with
  | nil => rfl
  | cons f fs ih =>
    cases vs with
    | nil => rfl
    | cons v vs =>
      rw [coerceAll, coerceAll, coerce_congr hg hw hw' hb (hf f (by simp)) (hn v (by simp)),
        ih (fun g hm => hf g (List.mem_cons_of_mem _ hm)) fun x hx => hn x (List.mem_cons_of_mem _ hx)]

theorem construct_congr (hr : i.types.record? rid = some r) (hn : ∀ v ∈ vs, i.types.Normal v) :
    i'.construct r vs = i.construct r vs := by
  unfold construct
  rw [coerceAll_congr hg hw hw' hb (hw.fields hr) hn]

/-- No step leaves the values with declared widths, and further scalars do not matter on them. -/
theorem closed_normal : i'.Closed i.types.Normal i where
  bits := hb.symm
  uint := normal_uint
  incomplete := normal_incomplete
  fields {name vs} h := by
    obtain ⟨rid, r, -, hf⟩ := h.fields hw
    exact hf.normal
  field {v name} _ := by
    unfold field
    simp only [hg.recordNamed?_eq hw hw']

end Grows

end Interpreter

end ShapeCompiler
