import ShapeCompiler.Proofs.Canonical

/-!
A record under its own type and under its home.

Under its own type a record is found by the tag of its description, under its home by the position of
the variant; both lead to the same record. Main statement: what is encoded or decoded as a record is
encoded and decoded alike as a value of its home (`Registered.represented_alike`).
-/

namespace ShapeCompiler

namespace TypeTable

variable {t : TypeTable} {id S : TypeId} {r : RecordType} {v : Value} {c : Compiled}

theorem WellFormed.variant?_home (hw : t.WellFormed) (hr : t.record? id = some r)
    (hh : r.home = some S) {tag : UInt8} {p : TypeId × RecordType}
    (hv : t.variant? id tag = some p) : t.variant? S tag = some p := by
  obtain ⟨rid, r'⟩ := p
  obtain ⟨hr', htag, hid⟩ := hw.variant?_eq_some.1 hv
  obtain rfl := hw.eq_of_isA hr hid
  exact hw.variant?_eq_some.2 ⟨hr', htag, .inr (widen_of_home hr hh)⟩

theorem WellFormed.decodes_home (hw : t.WellFormed) (hr : t.record? id = some r)
    (hh : r.home = some S) (h : t.Decodes id c v) : t.Decodes S c v := by
  cases h with
  | incomplete => exact .incomplete
  | scalar hb =>
    rw [scalarBits?_eq_some, record?_eq_some.1 hr] at hb
    cases hb
  | packed hv hl => exact .packed (hw.variant?_home hr hh hv) hl
  | boxed hv hl hf => exact .boxed (hw.variant?_home hr hh hv) hl hf

/-- A value of a record type is one of its home, and has the same integers under both. -/
theorem WellFormed.loosely_home (hw : t.WellFormed) (hr : t.record? id = some r)
    (hh : r.home = some S) (hv : t.Loosely id v) : t.Loosely S v ∧ t.norm S v = t.norm id v := by
  have hscalar : ¬ (t.scalarBits? id).isSome := by
    unfold scalarBits?
    rw [record?_eq_some.1 hr]
    exact Bool.false_ne_true
  cases hv with
  | int h => exact absurd h hscalar
  | uint h => exact absurd h hscalar
  | @record _ rid r' name vs hrn hid hf =>
    have hrec := (recordNamed?_eq_some.1 hrn).2
    obtain rfl := hw.eq_of_isA hr ((hw.isA_iff hrec).1 hid)
    refine ⟨.record hrn ((hw.isA_iff hrec).2 (.inr (widen_of_home hr hh))) hf, ?_⟩
    rw [norm, norm]

theorem WellFormed.encode_home (hw : t.WellFormed) (hr : t.record? id = some r)
    (hh : r.home = some S) (h : t.encode v id = .ok c) : t.encode v S = .ok c := by
  rcases hw.form_norm h with ⟨rfl, rfl⟩ | ⟨hv, he⟩
  · exact encode_incomplete S
  · obtain ⟨hvS, hnorm⟩ := hw.loosely_home hr hh hv
    have ha : t.Admits S (t.norm S v) := hw.admits_norm hvS
    rw [← hnorm] at he
    -- the normalised value has this form under the home, and the value is normalised to it
    have hform : t.encode (t.norm S v) S = .ok c := hw.encode_of_encodes he ha
    exact (hw.encode_eq_iff hform).2 (hw.norm_of_encodes he ha).symm

/-- A value of a record type is encoded alike under the home of the record, and the compiled form is
decoded alike; and whatever is decoded under the record type is decoded to the same under the home. -/
theorem Registered.represented_alike (h : t.Registered) (hr : t.record? id = some r)
    (hh : r.home = some S) :
    (∀ v c, t.encode v id = .ok c → t.encode v S = .ok c ∧ t.decode c id = t.decode c S) ∧
    ∀ c v, t.decode c id = .ok v → t.decode c S = .ok v := by
  have hw := h.wellFormed
  have hdecode : ∀ c v, t.decode c id = .ok v → t.decode c S = .ok v := fun c v hc =>
    decode_eq_ok.2 (hw.decodes_home hr hh (decode_eq_ok.1 hc))
  refine ⟨fun v c hc => ⟨hw.encode_home hr hh hc, ?_⟩, hdecode⟩
  have hnorm := hw.decode_encode hc
  rw [hnorm, hdecode c _ hnorm]

end TypeTable

/-! ### A leaf as a tree -/

namespace Catalog

open TypeTable

/-- A leaf has the same compiled form as a leaf and as a tree, whose second variant it is; a stray bit
of the form goes unnoticed under both types. -/
theorem represented_alike_leaf :
    (∃ c, treeTable.encode (.record "Leaf" [.int 16777223]) ⟨1⟩ = .ok c ∧
      treeTable.encode (.record "Leaf" [.int 16777223]) ⟨3⟩ = .ok c) ∧
    treeTable.decode (.packed 1099511629569) ⟨3⟩ = .ok (leaf 7) := by
  obtain ⟨hencode, hdecode⟩ := treeTable_registered.represented_alike
    (recordNamed?_eq_some.1 treeTable_leaf).2 rfl
  obtain ⟨c, hc⟩ : ∃ c, treeTable.encode (.record "Leaf" [.int 16777223]) ⟨1⟩ = .ok c :=
    treeTable_registered.wellFormed.encode_isOk_iff.2 (.inr (.record treeTable_leaf (.inl rfl)
      (.cons (.int (Option.isSome_of_eq_some treeTable_number)) .nil)))
  exact ⟨⟨c, hc, (hencode _ c hc).1⟩, hdecode _ _ (by with_unfolding_all rfl)⟩

end Catalog

end ShapeCompiler
