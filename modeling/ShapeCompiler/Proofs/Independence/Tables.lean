import Mathlib.Logic.Relator
import ShapeCompiler.Proofs.Arguments

/-!
Tables that have grown from one by scalars.

The order in which scalars are registered numbers them, and nothing else depends on it: two such tables
describe the same records and sums under the same numbers, and a scalar of both under a number in each.
Main statements: types that are described alike correspond to each other one to one
(`Siblings.biUnique`), and values are encoded and decoded alike under them (`Siblings.encode_eq`,
`Siblings.decode_eq`).
-/

namespace ShapeCompiler.TypeTable

/-- Two tables that have gained nothing but scalars over a third one. -/
structure Siblings (t₀ t t' : TypeTable) : Prop where
  base : t₀.WellFormed
  left : t.WellFormed
  right : t'.WellFormed
  growsLeft : t₀.GrowsByScalars t
  growsRight : t₀.GrowsByScalars t'

/-- Types of two tables that are described alike. -/
def Twin (t t' : TypeTable) (id id' : TypeId) : Prop :=
  ∃ d, t.get? id = some d ∧ t'.get? id' = some d

variable {t₀ t t' u u' : TypeTable} {id id' : TypeId} {r : RecordType} {s : SumType} {bits : Nat}
  {name : Ident}

/-! ### Types that are described alike -/

theorem GrowsByScalars.sum?_eq (h : t.GrowsByScalars t') (id : TypeId) : t'.sum? id = t.sum? id := by
  cases hs : t'.sum? id with
  | none =>
    cases hs' : t.sum? id with
    | none => rfl
    | some s => rw [h.sum? hs'] at hs; cases hs
  | some s =>
    rcases h.scalars (sum?_eq_some.1 hs) with e | ⟨bits, e⟩
    · exact (sum?_eq_some.2 e).symm
    · cases e

/-- Registering a scalar gives a number to its name and leaves all other names alone. -/
theorem WellFormed.lookup_ensureScalar (hw : t.WellFormed) (h1 : 1 ≤ bits) (h2 : bits ≤ 64) (name : Ident) :
    (t.ensureScalar bits).2.lookup name =
      if name = scalarName bits then some (t.ensureScalar bits).1 else t.lookup name := by
  have hw' := hw.ensureScalar h1 h2
  split
  · rename_i hn
    rw [hn]
    exact hw'.lookup_name (hw.get?_ensureScalar h1 h2)
  · rename_i hn
    cases hl : t.lookup name with
    | some id => exact (ensureScalar_grows t bits).lookup hw' hl
    | none =>
      by_contra hsome
      obtain ⟨id, hid⟩ := Option.ne_none_iff_exists'.1 hsome
      obtain ⟨d, hd, rfl⟩ := get?_of_lookup hid
      have hnew : t.get? id ≠ some d := fun hold => by
        rw [hw.lookup_name hold] at hl
        cases hl
      unfold TypeTable.ensureScalar at hd
      split at hd
      · exact hnew hd
      · rw [get?_push] at hd
        split at hd
        · exact hn (congrArg TypeDescriptor.name (Option.some.inj hd)).symm
        · exact hnew hd

theorem record?_of_variant? {type rid : TypeId} {tag : UInt8} (hv : t.variant? type tag = some (rid, r)) :
    t.record? rid = some r := by
  unfold variant? at hv
  split at hv
  · obtain ⟨v, -, hv⟩ := Option.bind_eq_some_iff.1 hv
    obtain ⟨r', hr, heq⟩ := Option.map_eq_some_iff.1 hv
    cases heq
    exact hr
  · rename_i hd
    split at hv
    · cases hv
      exact record?_eq_some.2 hd
    · cases hv
  · cases hv

namespace Twin

theorem symm (h : Twin t t' id id') : Twin t' t id' id := by
  obtain ⟨d, hd, hd'⟩ := h
  exact ⟨d, hd', hd⟩

theorem grows (h : Twin t t' id id') (hg : t.Grows u) (hg' : t'.Grows u') : Twin u u' id id' := by
  obtain ⟨d, hd, hd'⟩ := h
  exact ⟨d, hg.get? hd, hg'.get? hd'⟩

theorem left (h : Twin t t' id id') : (t.get? id).isSome := by
  obtain ⟨d, hd, -⟩ := h
  exact Option.isSome_iff_exists.2 ⟨d, hd⟩

/-- Types that are still described alike were so from the beginning. -/
theorem shrinks (h : Twin u u' id id') (hg : t.Grows u) (hg' : t'.Grows u') (hs : (t.get? id).isSome)
    (hs' : (t'.get? id').isSome) : Twin t t' id id' := by
  obtain ⟨d, hd, hd'⟩ := h
  obtain ⟨d₁, hd₁⟩ := Option.isSome_iff_exists.1 hs
  obtain ⟨d₂, hd₂⟩ := Option.isSome_iff_exists.1 hs'
  obtain rfl := Option.some.inj ((hg.get? hd₁).symm.trans hd)
  obtain rfl := Option.some.inj ((hg'.get? hd₂).symm.trans hd')
  exact ⟨_, hd₁, hd₂⟩

theorem get?_eq (h : Twin t t' id id') : t'.get? id' = t.get? id := by
  obtain ⟨d, hd, hd'⟩ := h
  rw [hd, hd']

theorem name_eq (h : Twin t t' id id') : t'.name id' = t.name id := by
  unfold TypeTable.name
  rw [h.get?_eq]

theorem record?_eq (h : Twin t t' id id') : t'.record? id' = t.record? id := by
  unfold TypeTable.record?
  rw [h.get?_eq]

theorem scalarBits?_eq (h : Twin t t' id id') : t'.scalarBits? id' = t.scalarBits? id := by
  unfold TypeTable.scalarBits?
  rw [h.get?_eq]

theorem unique {id'' : TypeId} (hw : t'.WellFormed) (h : Twin t t' id id') (h' : Twin t t' id id'') :
    id' = id'' := by
  obtain ⟨d, hd, hd'⟩ := h
  obtain ⟨e, he, he'⟩ := h'
  obtain rfl := Option.some.inj (hd.symm.trans he)
  exact Option.some.inj ((hw.lookup_name hd').symm.trans (hw.lookup_name he'))

end Twin

namespace Siblings

variable (h : Siblings t₀ t t')
include h

theorem biUnique : Relator.BiUnique (Twin t t') where
  left _ _ _ hab hcb := hab.symm.unique h.left hcb.symm
  right _ _ _ hab hac := hab.unique h.right hac

/-- What both tables have from the beginning is the same in both. -/
theorem common (hs : (t₀.get? id).isSome) : Twin t t' id id := by
  obtain ⟨d, hd⟩ := Option.isSome_iff_exists.1 hs
  exact ⟨d, h.growsLeft.get? hd, h.growsRight.get? hd⟩

theorem eq_of_common (hT : Twin t t' id id') (hs : (t₀.get? id).isSome) : id = id' :=
  (h.common hs).unique h.right hT

/-- Whatever is no scalar was there from the beginning. -/
theorem common_of_get? {d : TypeDescriptor} (hd : t.get? id = some d) (hn : ∀ bits, d ≠ .scalar bits) :
    t₀.get? id = some d := by
  rcases h.growsLeft.scalars hd with hd₀ | ⟨bits, rfl⟩
  · exact hd₀
  · exact absurd rfl (hn bits)

theorem record?_eq (id : TypeId) : t'.record? id = t.record? id :=
  (h.growsRight.record?_eq id).trans (h.growsLeft.record?_eq id).symm

theorem sum?_eq (id : TypeId) : t'.sum? id = t.sum? id :=
  (h.growsRight.sum?_eq id).trans (h.growsLeft.sum?_eq id).symm

theorem recordNamed?_eq (name : Ident) : t'.recordNamed? name = t.recordNamed? name :=
  (h.growsRight.recordNamed?_eq h.base h.right name).trans
    (h.growsLeft.recordNamed?_eq h.base h.left name).symm

theorem common_of_record (hr : t.record? id = some r) : (t₀.get? id).isSome := by
  rw [h.common_of_get? (record?_eq_some.1 hr) (fun _ => by simp)]
  rfl

theorem common_of_sum (hs : t.sum? id = some s) : (t₀.get? id).isSome := by
  rw [h.common_of_get? (sum?_eq_some.1 hs) (fun _ => by simp)]
  rfl

theorem field (hr : t.record? id = some r) : ∀ f ∈ r.fields, (t₀.get? f.type).isSome := by
  rw [h.growsLeft.record?_eq] at hr
  exact h.base.fields hr

theorem widen (hT : Twin t t' id id') : Twin t t' (t.widen id) (t'.widen id') := by
  cases hr : t.record? id with
  | none =>
    rw [widen_of_no_record hr, widen_of_no_record (hT.record?_eq.trans hr)]
    exact hT
  | some r =>
    cases hh : r.home with
    | none =>
      rw [widen_of_no_home hr hh, widen_of_no_home (hT.record?_eq.trans hr) hh]
      exact hT
    | some S =>
      rw [widen_of_home hr hh, widen_of_home (hT.record?_eq.trans hr) hh]
      obtain ⟨s, hs⟩ := h.left.sum_of_home hr hh
      exact h.common (h.common_of_sum hs)

theorem scalar? {a a' : TypeId} (hT : Twin t t' a a') (hb : t.scalarBits? a = some bits) :
    t.scalar? bits = some a ∧ t'.scalar? bits = some a' :=
  ⟨h.left.scalar?_of_scalarBits? hb, h.right.scalar?_of_scalarBits? (hT.scalarBits?_eq.trans hb)⟩

omit h in
/-- A name is looked up among some types, none of which is a scalar, as it was from the beginning. -/
theorem findIdx?_lookup (hg : t₀.GrowsByScalars t) (hw : t.WellFormed) {ids : List TypeId}
    (hids : ∀ v ∈ ids, ∃ r, t₀.record? v = some r) (name : Ident) :
    ((t.lookup name).bind fun id => ids.findIdx? (· == id)) =
      (t₀.lookup name).bind fun id => ids.findIdx? (· == id) := by
  cases hl : t₀.lookup name with
  | some id => rw [hg.lookup hw hl]
  | none =>
    cases hl' : t.lookup name with
    | none => rfl
    | some id =>
      obtain ⟨d, hd, rfl⟩ := get?_of_lookup hl'
      refine List.findIdx?_eq_none_iff.2 fun v hv => ?_
      obtain ⟨r, hr⟩ := hids v hv
      rw [beq_eq_false_iff_ne]
      rintro rfl
      have hd₀ := hg.get? (record?_eq_some.1 hr)
      rw [hd] at hd₀
      cases hd₀
      have := lookup_isSome_of_get? (record?_eq_some.1 hr)
      rw [hl] at this
      cases this

/-! ### Values and their compiled forms -/

theorem variant?_eq (hT : Twin t t' id id') (tag : UInt8) : t'.variant? id' tag = t.variant? id tag := by
  cases hd : t.get? id with
  | none =>
    unfold variant?
    rw [hT.get?_eq, hd]
  | some d =>
    cases d with
    | scalar bits =>
      unfold variant?
      rw [hT.get?_eq, hd]
    | record r =>
      obtain rfl := h.eq_of_common hT (h.common_of_record (record?_eq_some.2 hd))
      unfold variant?
      rw [hT.get?_eq, hd]
    | sum s =>
      unfold variant?
      rw [hT.get?_eq, hd]
      simp only [h.record?_eq]

/-- Values are encoded alike under types that are described alike. -/
theorem encode_eq (hT : Twin t t' id id') (v : Value) : t'.encode v id' = t.encode v id := by
  by_cases hs : (t₀.get? id).isSome
  · obtain rfl := h.eq_of_common hT hs
    exact (h.growsRight.encode_eq h.base h.right hs).trans (h.growsLeft.encode_eq h.base h.left hs).symm
  · have hname := hT.name_eq
    obtain ⟨d, hd, hd'⟩ := hT
    obtain ⟨bits, rfl⟩ := (h.growsLeft.scalars hd).resolve_left fun h₀ => hs (by rw [h₀]; rfl)
    unfold TypeTable.encode
    cases v <;> simp only [EncodeTask.run, hd, hd', hname]

end Siblings

/-- Tasks to decode the same values under types that are described alike. -/
inductive DecodeTwin (t t' : TypeTable) : DecodeTask → DecodeTask → Prop
  | value (c : Compiled) {id id' : TypeId} (h : Twin t t' id id') :
    DecodeTwin t t' (.value c id) (.value c id')
  | build (name : Ident) (arity : Nat) : DecodeTwin t t' (.build name arity) (.build name arity)

namespace Siblings

variable (h : Siblings t₀ t t')
include h

theorem decodeTwin_ofFields {fs : List Field} (hfs : ∀ f ∈ fs, (t₀.get? f.type).isSome)
    (cs : List Compiled) :
    List.Forall₂ (DecodeTwin t t') (DecodeTask.ofFields cs fs) (DecodeTask.ofFields cs fs) := by
  induction cs generalizing fs with
  | nil => exact .nil
  | cons c cs ih =>
    cases fs with
    | nil => exact .nil
    | cons f fs =>
      exact .cons (.value c (h.common (hfs f (by simp)))) (ih fun g hg => hfs g (List.mem_cons_of_mem _ hg))

theorem run_decode_eq {tasks tasks' : List DecodeTask}
    (htasks : List.Forall₂ (DecodeTwin t t') tasks tasks') (out : List Value) :
    DecodeTask.run t' tasks' out = DecodeTask.run t tasks out := by
  fun_induction DecodeTask.run t tasks out generalizing tasks' with
  | case1 out =>
    cases htasks
    rw [DecodeTask.run]
  | case2 name arity rest out ih =>
    obtain _ | ⟨⟨⟩, hrest⟩ := htasks
    rw [DecodeTask.run, ih hrest]
  | case3 type rest out ih =>
    obtain _ | ⟨⟨⟩, hrest⟩ := htasks
    rw [DecodeTask.run, ih hrest]
  | case4 n type rest out bits hb ih =>
    obtain _ | ⟨⟨_, hT⟩, hrest⟩ := htasks
    rw [DecodeTask.run, hT.scalarBits?_eq, hb]
    exact ih hrest
  | case5 n type rest out hb =>
    obtain _ | ⟨⟨_, hT⟩, hrest⟩ := htasks
    rw [DecodeTask.run, hT.scalarBits?_eq, hb, hT.name_eq]
  | case6 word type rest out rid name fields home tag slots hv ih =>
    obtain _ | ⟨⟨_, hT⟩, hrest⟩ := htasks
    rw [DecodeTask.run, h.variant?_eq hT, hv]
    exact ih hrest
  | case7 word type rest out hv =>
    obtain _ | ⟨⟨_, hT⟩, hrest⟩ := htasks
    rw [DecodeTask.run, h.variant?_eq hT, hT.name_eq]
    split
    · rename_i hsome
      exact (hv _ _ _ _ _ _ hsome).elim
    · rfl
  | case8 tag cs type rest out rid name fields home tag' hv hlen ih =>
    obtain _ | ⟨⟨_, hT⟩, hrest⟩ := htasks
    rw [DecodeTask.run, h.variant?_eq hT, hv]
    simp only [hlen, if_true]
    rw [← hlen]
    have hfs := h.field (record?_of_variant? hv)
    exact ih (List.rel_append (h.decodeTwin_ofFields hfs cs) (.cons (.build _ _) hrest))
  | case9 tag cs type rest out rid name fields home tag' hv hlen =>
    obtain _ | ⟨⟨_, hT⟩, hrest⟩ := htasks
    rw [DecodeTask.run, h.variant?_eq hT, hv, hT.name_eq]
    simp only [hlen, if_false]
  | case10 tag cs type rest out hv =>
    obtain _ | ⟨⟨_, hT⟩, hrest⟩ := htasks
    rw [DecodeTask.run, h.variant?_eq hT, hT.name_eq]
    split
    · rename_i hsome
      exact (hv _ _ _ _ _ hsome).elim
    · rfl

/-- Compiled values are decoded alike under types that are described alike. -/
theorem decode_eq (hT : Twin t t' id id') (c : Compiled) : t'.decode c id' = t.decode c id := by
  unfold TypeTable.decode
  rw [h.run_decode_eq (.cons (.value c hT) .nil)]

theorem normalize_eq (hT : Twin t t' id id') (v : Value) : t'.normalize v id' = t.normalize v id := by
  unfold TypeTable.normalize
  rw [h.encode_eq hT]
  simp only [h.decode_eq hT]

theorem encodeAll_eq {ids ids' : List TypeId} (hT : List.Forall₂ (Twin t t') ids ids') (vs : List Value) :
    t'.encodeAll vs ids' = t.encodeAll vs ids := by
  induction hT generalizing vs with
  | nil => cases vs <;> rfl
  | cons hd _ ih =>
    cases vs with
    | nil => rfl
    | cons v vs => rw [encodeAll, encodeAll, h.encode_eq hd, ih]

theorem normalizeAll_eq {ids ids' : List TypeId} (hT : List.Forall₂ (Twin t t') ids ids')
    (vs : List Value) : t'.normalizeAll vs ids' = t.normalizeAll vs ids := by
  induction hT generalizing vs with
  | nil => cases vs <;> rfl
  | cons hd _ ih =>
    cases vs with
    | nil => rfl
    | cons v vs => rw [normalizeAll, normalizeAll, h.normalize_eq hd, ih]

theorem decodeAll_eq {types types' : List (Option TypeId)}
    (hT : List.Forall₂ (Option.Rel (Twin t t')) types types') (cs : List Compiled) :
    t'.decodeAll cs types' = t.decodeAll cs types := by
  induction hT generalizing cs with
  | nil => cases cs <;> rfl
  | cons hd _ ih =>
    cases cs with
    | nil => rfl
    | cons c cs =>
      cases hd with
      | none => rw [decodeAll, decodeAll, ih]
      | some hd => rw [decodeAll, decodeAll, ih, h.decode_eq hd]

end Siblings

end ShapeCompiler.TypeTable
