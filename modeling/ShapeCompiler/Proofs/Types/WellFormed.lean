import Mathlib.Tactic.Common
import ShapeCompiler.Proofs.Word
import ShapeCompiler.Types.Declare

/-!
What holds of every type table that registration can reach, and how tables grow.

Main statements: a record is found under its own type and under its home by its tag (`variant?_tag`),
and tables that only gain scalars agree on records, sums and homes (`GrowsByScalars`).
-/

namespace ShapeCompiler.TypeTable

variable {t t' t'' : TypeTable} {id rid : TypeId} {n : Ident} {r : RecordType}

/-! ### Reading a table -/

theorem record?_eq_some : t.record? id = some r ↔ t.get? id = some (.record r) := by
  unfold record?
  cases h : t.get? id with
  | none => simp
  | some d => cases d <;> simp

theorem sum?_eq_some {s : SumType} : t.sum? id = some s ↔ t.get? id = some (.sum s) := by
  unfold sum?
  cases h : t.get? id with
  | none => simp
  | some d => cases d <;> simp

theorem scalarBits?_eq_some {bits : Nat} :
    t.scalarBits? id = some bits ↔ t.get? id = some (.scalar bits) := by
  unfold scalarBits?
  cases h : t.get? id with
  | none => simp
  | some d => cases d <;> simp

theorem get?_of_lookup (h : t.lookup n = some id) : ∃ d, t.get? id = some d ∧ d.name = n := by
  unfold lookup at h
  obtain ⟨i, hi, rfl⟩ := Option.map_eq_some_iff.1 h
  obtain ⟨hlt, hp, -⟩ := Array.findIdx?_eq_some_iff_getElem.1 hi
  exact ⟨_, Array.getElem?_eq_getElem hlt, by simpa using hp⟩

theorem lookup_isSome_of_get? {d : TypeDescriptor} (h : t.get? id = some d) :
    (t.lookup d.name).isSome := by
  unfold lookup
  rw [Option.isSome_map]
  unfold get? at h
  obtain ⟨hlt, he⟩ := Array.getElem?_eq_some_iff.1 h
  rw [Array.findIdx?_isSome, Array.any_eq_true]
  exact ⟨id.index, hlt, by simp [he]⟩

theorem recordNamed?_eq_some :
    t.recordNamed? n = some (id, r) ↔ t.lookup n = some id ∧ t.record? id = some r := by
  unfold recordNamed?
  cases h : t.lookup n with
  | none => simp
  | some id' =>
    simp only [Option.bind_some, Option.map_eq_some_iff, Prod.mk.injEq, Option.some.injEq]
    constructor
    · rintro ⟨r', h', rfl, rfl⟩
      exact ⟨rfl, h'⟩
    · rintro ⟨rfl, h'⟩
      exact ⟨r, h', rfl, rfl⟩

theorem name_of_recordNamed? (h : t.recordNamed? n = some (id, r)) : r.name = n := by
  obtain ⟨hl, hr⟩ := recordNamed?_eq_some.1 h
  obtain ⟨d, hd, rfl⟩ := get?_of_lookup hl
  rw [record?_eq_some.1 hr] at hd
  cases hd
  rfl

theorem widen_of_home {S : TypeId} (hr : t.record? id = some r) (hh : r.home = some S) :
    t.widen id = S := by
  simp [widen, hr, hh]

theorem widen_of_no_home (hr : t.record? id = some r) (hh : r.home = none) : t.widen id = id := by
  simp [widen, hr, hh]

theorem widen_of_no_record (hr : t.record? id = none) : t.widen id = id := by
  simp [widen, hr]

/-- Whether a type has no more fields than 16 bits can number. -/
def isNarrow : TypeDescriptor → Bool
  | .record r => decide (r.fields.length ≤ 65536)
  | _ => true

theorem fields_le (h : t.types.toList.all isNarrow = true) (hr : t.record? id = some r) :
    r.fields.length ≤ 65536 := by
  have hmem := Array.mem_toList_iff.2 (Array.mem_of_getElem? (record?_eq_some.1 hr))
  exact of_decide_eq_true (List.all_eq_true.1 h _ hmem)

/-! ### Well-formed tables -/

/-- What registration keeps of a table. -/
structure WellFormed (t : TypeTable) : Prop where
  /-- No two types have the same name. -/
  lookup_name : ∀ {id d}, t.get? id = some d → t.lookup d.name = some id
  width : ∀ {id bits}, t.get? id = some (.scalar bits) → 1 ≤ bits ∧ bits ≤ 64
  fields : ∀ {id r}, t.record? id = some r → ∀ f ∈ r.fields, (t.get? f.type).isSome
  /-- The home of a record is a sum that has the record at the position of its tag. -/
  home : ∀ {id r S}, t.record? id = some r → r.home = some S →
    ∃ s, t.sum? S = some s ∧ s.variants[r.tag.toNat]? = some id
  /-- Every variant of a sum is a record with that home, its position being its tag. -/
  variant : ∀ {S s i v}, t.sum? S = some s → s.variants[i]? = some v →
    ∃ r, t.record? v = some r ∧ r.home = some S ∧ r.tag.toNat = i
  variants : ∀ {S s}, t.sum? S = some s → 2 ≤ s.variants.length
  tag : ∀ {id r}, t.record? id = some r → r.home = none → r.tag = 0
  layout : ∀ {id r}, t.record? id = some r → r.layout = t.layoutOf r.fields
  /-- Records and sums have declared names, none of which is read as a scalar. -/
  named : ∀ {id d}, t.get? id = some d → (∀ bits, d ≠ .scalar bits) →
    scalarWidth d.name = none ∧ ∃ decl ∈ t.declared, decl.name = d.name

namespace WellFormed

variable (hw : t.WellFormed)
include hw

theorem recordNamed?_name (hr : t.record? id = some r) : t.recordNamed? r.name = some (id, r) :=
  recordNamed?_eq_some.2 ⟨hw.lookup_name (record?_eq_some.1 hr), hr⟩

theorem scalar?_of_scalarBits? {bits : Nat} (h : t.scalarBits? id = some bits) :
    t.scalar? bits = some id :=
  hw.lookup_name (scalarBits?_eq_some.1 h)

theorem sum_of_home {S : TypeId} (hr : t.record? id = some r) (hh : r.home = some S) :
    ∃ s, t.sum? S = some s :=
  (hw.home hr hh).imp fun _ h => h.1

/-- Widening goes up at most once. -/
theorem record?_widen_of_ne (h : t.widen id ≠ id) : t.record? (t.widen id) = none := by
  cases hr : t.record? id with
  | none => exact absurd (widen_of_no_record hr) h
  | some r =>
    cases hh : r.home with
    | none => exact absurd (widen_of_no_home hr hh) h
    | some S =>
      obtain ⟨s, hs⟩ := hw.sum_of_home hr hh
      rw [widen_of_home hr hh]
      unfold record?
      rw [sum?_eq_some.1 hs]

theorem widen_widen (id : TypeId) : t.widen (t.widen id) = t.widen id := by
  by_cases h : t.widen id = id
  · rw [h, h]
  · exact widen_of_no_record (hw.record?_widen_of_ne h)

/-- A record whose type or home is a record is of that type. -/
theorem eq_of_isA (hr : t.record? id = some r) (h : rid = id ∨ t.widen rid = id) : rid = id := by
  rcases h with h | h
  · exact h
  · by_contra hne
    have hup : t.widen rid ≠ rid := by rw [h]; exact fun e => hne e.symm
    have := hw.record?_widen_of_ne hup
    rw [h, hr] at this
    cases this

/-- A record is found under its own type and under its home by its tag. -/
theorem variant?_tag (hr : t.record? rid = some r) (h : rid = id ∨ t.widen rid = id) :
    t.variant? id r.tag = some (rid, r) := by
  by_cases he : rid = id
  · subst he
    unfold variant?
    rw [record?_eq_some.1 hr]
    simp
  · have hwid := h.resolve_left he
    cases hh : r.home with
    | none => exact absurd ((widen_of_no_home hr hh).symm.trans hwid) he
    | some S =>
      obtain rfl : S = id := (widen_of_home hr hh).symm.trans hwid
      obtain ⟨s, hs, hv⟩ := hw.home hr hh
      unfold variant?
      rw [sum?_eq_some.1 hs]
      simp [hv, hr]

end WellFormed

/-! ### Layouts -/

/-- The slots of a packed record are those of scalars, one for each field. -/
theorem slotsFrom_eq_some {k : Nat} {fs : List Field} {ss : List Slot}
    (hwidth : ∀ {id bits}, t.get? id = some (.scalar bits) → 1 ≤ bits ∧ bits ≤ 64)
    (h : t.slotsFrom k fs = some ss) :
    Adjacent k ss ∧ List.Forall₂ (fun f s => t.scalarBits? f.type = some s.bits) fs ss := by
  induction fs generalizing k ss with
  | nil =>
    cases h
    exact ⟨trivial, .nil⟩
  | cons f fs ih =>
    rw [slotsFrom] at h
    cases hb : t.scalarBits? f.type with
    | none => simp [hb] at h
    | some bits =>
      simp only [hb] at h
      split at h
      · cases h
      · rename_i hle
        obtain ⟨rest, hrest, rfl⟩ := Option.map_eq_some_iff.1 h
        obtain ⟨ha, hf⟩ := ih hrest
        exact ⟨⟨rfl, (hwidth (scalarBits?_eq_some.1 hb)).1, by simpa using hle, ha⟩,
          .cons hb hf⟩

theorem WellFormed.packed (hw : t.WellFormed) {slots : List Slot} (hr : t.record? id = some r)
    (hl : r.layout = .packed slots) :
    Adjacent tagBits slots ∧
      List.Forall₂ (fun f s => t.scalarBits? f.type = some s.bits) r.fields slots := by
  have h := hw.layout hr
  rw [hl] at h
  unfold layoutOf at h
  split at h
  · rename_i ss hs
    cases h
    exact slotsFrom_eq_some hw.width hs
  · cases h

/-! ### Growth -/

/-- A table that has every type of another under the same number. -/
structure Grows (t t' : TypeTable) : Prop where
  get? : ∀ {id d}, t.get? id = some d → t'.get? id = some d

/-- A table that has more types than another, but only scalars. -/
structure GrowsByScalars (t t' : TypeTable) : Prop extends Grows t t' where
  scalars : ∀ {id d}, t'.get? id = some d → t.get? id = some d ∨ ∃ bits, d = .scalar bits

namespace Grows

theorem refl (t : TypeTable) : t.Grows t := ⟨fun h => h⟩

theorem trans (h : t.Grows t') (h' : t'.Grows t'') : t.Grows t'' := ⟨fun e => h'.get? (h.get? e)⟩

variable (h : t.Grows t')
include h

/-- Types that are registered already keep what they are. -/
theorem get?_eq (hs : (t.get? id).isSome) : t'.get? id = t.get? id := by
  obtain ⟨d, hd⟩ := Option.isSome_iff_exists.1 hs
  rw [hd, h.get? hd]

theorem get?_isSome (hs : (t.get? id).isSome) : (t'.get? id).isSome := by
  rwa [h.get?_eq hs]

theorem record? (hr : t.record? id = some r) : t'.record? id = some r :=
  record?_eq_some.2 (h.get? (record?_eq_some.1 hr))

theorem sum? {s : SumType} (hs : t.sum? id = some s) : t'.sum? id = some s :=
  sum?_eq_some.2 (h.get? (sum?_eq_some.1 hs))

theorem scalarBits? {bits : Nat} (hb : t.scalarBits? id = some bits) :
    t'.scalarBits? id = some bits :=
  scalarBits?_eq_some.2 (h.get? (scalarBits?_eq_some.1 hb))

theorem lookup (hw : t'.WellFormed) (hl : t.lookup n = some id) : t'.lookup n = some id := by
  obtain ⟨d, hd, rfl⟩ := get?_of_lookup hl
  exact hw.lookup_name (h.get? hd)

theorem recordNamed? (hw : t'.WellFormed) (hr : t.recordNamed? n = some (id, r)) :
    t'.recordNamed? n = some (id, r) := by
  obtain ⟨hl, hr⟩ := recordNamed?_eq_some.1 hr
  exact recordNamed?_eq_some.2 ⟨h.lookup hw hl, h.record? hr⟩

theorem widen_of_record (hr : t.record? id = some r) : t'.widen id = t.widen id := by
  unfold widen
  rw [hr, h.record? hr]

end Grows

namespace GrowsByScalars

theorem refl (t : TypeTable) : t.GrowsByScalars t := { Grows.refl t with scalars := .inl }

theorem trans (h : t.GrowsByScalars t') (h' : t'.GrowsByScalars t'') : t.GrowsByScalars t'' where
  toGrows := h.toGrows.trans h'.toGrows
  scalars e := by
    rcases h'.scalars e with e | e
    · exact h.scalars e
    · exact .inr e

variable (h : t.GrowsByScalars t')
include h

theorem record?_eq (id : TypeId) : t'.record? id = t.record? id := by
  cases hr : t'.record? id with
  | none =>
    cases hr' : t.record? id with
    | none => rfl
    | some r => rw [h.record? hr'] at hr; cases hr
  | some r =>
    rcases h.scalars (record?_eq_some.1 hr) with e | ⟨bits, e⟩
    · exact (record?_eq_some.2 e).symm
    · cases e

theorem widen_eq (id : TypeId) : t'.widen id = t.widen id := by
  unfold widen
  rw [h.record?_eq]

theorem recordNamed?_eq (hw : t.WellFormed) (hw' : t'.WellFormed) (n : Ident) :
    t'.recordNamed? n = t.recordNamed? n := by
  cases hr : t'.recordNamed? n with
  | none =>
    cases hr' : t.recordNamed? n with
    | none => rfl
    | some p => rw [h.recordNamed? hw' hr'] at hr; cases hr
  | some p =>
    obtain ⟨id, r⟩ := p
    have hn := name_of_recordNamed? hr
    have hr' := (recordNamed?_eq_some.1 hr).2
    rw [h.record?_eq] at hr'
    rw [← hn]
    exact (hw.recordNamed?_name hr').symm

theorem scalarBits?_eq (hs : (t.get? id).isSome) : t'.scalarBits? id = t.scalarBits? id := by
  unfold scalarBits?
  rw [h.get?_eq hs]

end GrowsByScalars

end ShapeCompiler.TypeTable
