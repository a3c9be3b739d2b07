import ShapeCompiler.Proofs.Dispatch
import ShapeCompiler.Proofs.Machine.Operations
import ShapeCompiler.Proofs.RoundTrip
import ShapeCompiler.Proofs.Typing.Scope

/-!
The three ways to build a record.

The machine builds a record from compiled arguments, the interpreter fits the arguments to the fields,
and encoding turns a record of any integers into a compiled value. Main statement: on arguments that pass
the check of a constructor they agree, and the first two refuse the sentinel alone
(`Lowerer.builders_agree`).
-/

namespace ShapeCompiler

open TypeTable

variable {c : Typing} {t : TypeTable} {i : Interpreter} {s : StaticType} {v : Value} {cv : Compiled}
  {id rid : TypeId} {r : RecordType} {vs ws : List Value} {cs : List Compiled} {fs : List Field}
  {ss : List StaticType} {record : Ident}

/-- A value with declared widths of a static type, and what it is encoded to. -/
structure Argument (t : TypeTable) (s : StaticType) (p : Value × Compiled) : Prop where
  has : s.Has t p.1
  encoded : ∀ id, s = .known id → t.encode p.1 id = .ok p.2
  sentinel : p.1 = .incomplete → p.2 = .incomplete

theorem Argument.form {p : Value × Compiled} (hw : t.WellFormed) (h : Argument t s p) :
    t.Form p.1 p.2 := by
  obtain ⟨⟨hadmits, hnormal⟩, hencoded, hsentinel⟩ := h
  by_cases hv : p.1 = .incomplete
  · exact .inl ⟨hv, hsentinel hv⟩
  · obtain ⟨id, rfl, ha⟩ := hadmits.known hv
    obtain ⟨cv, he⟩ := hnormal.encodes hv
    obtain rfl := Except.ok.inj ((hw.encode_of_encodes he ha).symm.trans (hencoded id rfl))
    exact .inr he

theorem Argument.forms {args : List (Value × Compiled)} (hw : t.WellFormed)
    (h : List.Forall₂ (Argument t) ss args) : Forms t (args.map Prod.fst) (args.map Prod.snd) := by
  induction h with
  | nil => exact .nil
  | cons h _ ih => exact .cons (h.form hw) ih

/-! ### Fitting -/

theorem Typing.Fits.coerce_eq_norm (hc : c.Fits t) (hi : i.types = t) {position : Position} {f : Field}
    (hfield : (c.types.get? f.type).isSome) (h : c.expectType position f.type s = .ok ())
    (hs : s.Admits t v) (he : t.Encodes v cv) (record : Ident) :
    i.coerce record f v = .ok (t.norm f.type v) := by
  rcases hc.argument hi hfield h hs he record with ⟨u, bits, hb, rfl, -, hw⟩ | ⟨-, -, ha, hw⟩
  · rw [hw, TypeTable.norm, integerAt, hc.grows.scalarBits? hb]
  · rw [hw, hc.target.norm_of_encodes he ha]

theorem ArgumentsFit.coerceAll_eq (hc : c.Fits t) (hi : i.types = t)
    (h : ArgumentsFit c t record fs ss vs cs) (hv : ∀ v ∈ vs, v ≠ .incomplete) :
    i.coerceAll record fs vs = .ok (t.normFields fs vs) := by
  induction fs generalizing ss vs cs with
  | nil =>
    obtain rfl := List.length_eq_zero_iff.1 h.length
    rw [Interpreter.coerceAll, normFields]
    all_goals simp
  | cons f fs ih =>
    obtain ⟨v, vs, rfl⟩ := List.exists_cons_of_length_eq_add_one h.length
    obtain ⟨s, ss, rfl⟩ := List.exists_cons_of_length_eq_add_one
      (h.types.length_eq.trans (List.length_cons))
    obtain ⟨cv, cs, rfl⟩ := List.exists_cons_of_length_eq_add_one
      (h.forms.length_eq.symm.trans (List.length_cons))
    obtain ⟨hexpect, hs, hf, hrest⟩ := h.tail
    have he : t.Encodes v cv := hf.resolve_left fun hboth => hv v (by simp) hboth.1
    rw [Interpreter.coerceAll, normFields, hc.coerce_eq_norm hi (h.fields f (by simp)) hexpect hs he record,
      ih hrest fun x hx => hv x (List.mem_cons_of_mem _ hx)]
    rfl

/-- Only arguments without a sentinel are fitted. -/
theorem Interpreter.ne_incomplete_of_coerceAll (hlen : vs.length = fs.length)
    (h : i.coerceAll record fs vs = .ok ws) : ∀ v ∈ vs, v ≠ .incomplete := by
  induction fs generalizing vs ws with
  | nil =>
    obtain rfl := List.length_eq_zero_iff.1 hlen
    exact nofun
  | cons f fs ih =>
    obtain ⟨v, vs, rfl⟩ := List.exists_cons_of_length_eq_add_one hlen
    rw [coerceAll] at h
    obtain ⟨w, hw, h⟩ := bind_eq_ok.1 h
    obtain ⟨ws', hws, -⟩ := bind_eq_ok.1 h
    intro x hx
    rcases List.mem_cons.1 hx with rfl | hx
    · rintro rfl
      rw [coerce_incomplete] at hw
      cases hw
    · exact ih (by simpa using hlen) hws x hx

/-! ### Building -/

theorem Lowerer.argumentsFit {l : Lowerer} {args : List (Value × Compiled)} (hc : l.toTyping.Fits t)
    (hr : l.types.recordNamed? r.name = some (rid, r)) (hlen : (args.map Prod.fst).length = r.fields.length)
    (hcheck : l.checkFields r.name r.fields ss = .ok ()) (hargs : List.Forall₂ (Argument t) ss args) :
    ArgumentsFit l.toTyping t r.name r.fields ss (args.map Prod.fst) (args.map Prod.snd) where
  check := hcheck
  fields := hc.wellFormed.fields (recordNamed?_eq_some.1 hr).2
  length := hlen
  types := by
    rw [List.forall₂_map_right_iff]
    exact hargs.imp fun _ _ h => h.has.1
  forms := Argument.forms hc.target hargs

/-- The interpreter builds a record of the arguments at the widths of their fields, unless one of them is
the sentinel. -/
theorem ArgumentsFit.construct_eq_ok (hc : c.Fits t) (hi : i.types = t)
    (h : ArgumentsFit c t r.name r.fields ss vs cs) :
    i.construct r vs = .ok v ↔
      (∀ w ∈ vs, w ≠ .incomplete) ∧ v = .record r.name (t.normFields r.fields vs) := by
  rw [Interpreter.construct, if_neg (not_not.2 h.length), map_eq_ok]
  constructor
  · rintro ⟨ws, hws, rfl⟩
    have hne := Interpreter.ne_incomplete_of_coerceAll h.length hws
    cases (h.coerceAll_eq hc hi hne).symm.trans hws
    exact ⟨hne, rfl⟩
  · rintro ⟨hne, rfl⟩
    exact ⟨_, h.coerceAll_eq hc hi hne, rfl⟩

/-- The record of some arguments is encoded as that of the arguments at the widths of their fields. -/
theorem TypeTable.WellFormed.encode_normFields (hw : t.WellFormed)
    (hr : t.recordNamed? r.name = some (rid, r))
    (hf : t.Form (.record r.name (t.normFields r.fields vs)) cv) :
    t.encode (.record r.name (t.normFields r.fields vs)) rid = .ok cv ∧
      t.encode (.record r.name vs) rid = .ok cv := by
  have ha : t.Admits rid (.record r.name (t.normFields r.fields vs)) := ⟨rid, r, hr, .inl rfl⟩
  have he := hf.of_admits ha
  have hencode := hw.encode_of_encodes he ha
  refine ⟨hencode, (hw.encode_eq_iff hencode).2 ?_⟩
  rw [hw.norm_of_encodes he ha, TypeTable.norm, fieldsOf_eq hr]

/-- On arguments that pass the check of a constructor, the machine and the interpreter refuse the
sentinel and nothing else. What the interpreter builds has the arguments at the widths of their fields,
and the machine builds what that record is encoded to, as the record of the arguments as they are. -/
theorem Lowerer.builders_agree {l : Lowerer} {args : List (Value × Compiled)} (hc : l.toTyping.Fits t)
    (hi : i.types = t) (hr : l.resolve r.name args.length = .ok (.constructor rid r))
    (hcheck : l.checkFields r.name r.fields ss = .ok ()) (hargs : List.Forall₂ (Argument t) ss args) :
    ((∃ cv, (l.shapeOf r).build r.tag (args.map Prod.snd) = .ok cv) ↔
      ∃ v, i.construct r (args.map Prod.fst) = .ok v) ∧
    ((∃ v, i.construct r (args.map Prod.fst) = .ok v) ↔ ∀ p ∈ args, p.1 ≠ .incomplete) ∧
    ∀ v, i.construct r (args.map Prod.fst) = .ok v →
      v = .record r.name (t.normFields r.fields (args.map Prod.fst)) ∧
      ∃ cv, (l.shapeOf r).build r.tag (args.map Prod.snd) = .ok cv ∧ t.encode v rid = .ok cv ∧
        t.encode (.record r.name (args.map Prod.fst)) rid = .ok cv := by
  obtain ⟨hrn, hcount⟩ := Typing.resolve_eq_ok hr
  have hfit := l.argumentsFit hc hrn (by rw [List.length_map, hcount]) hcheck hargs
  have hmatch := Shape.build_matches hc hi hrn hfit
  have hok := fun {v} => hfit.construct_eq_ok (v := v) hc hi
  refine ⟨hmatch.ok_iff, ?_, fun v hv => ?_⟩
  · rw [← List.forall_mem_map (f := Prod.fst) (P := fun w => w ≠ Value.incomplete)]
    exact ⟨fun ⟨_, hv⟩ => (hok.1 hv).1, fun hne => ⟨_, hok.2 ⟨hne, rfl⟩⟩⟩
  · obtain ⟨-, rfl⟩ := hok.1 hv
    obtain ⟨cv, hcv, hform⟩ := StepMatches.form (hv ▸ hmatch)
    have hrt := hc.grows.recordNamed? hc.target hrn
    exact ⟨rfl, cv, hcv, hc.target.encode_normFields hrt hform⟩

/-! ### A leaf of a wider number -/

namespace Catalog

/-- The table of trees with numbers of 32 bits, which no field of a tree has. -/
def wideTable : TypeTable := (treeTable.ensureScalar 32).2

def wideLowerer : Lowerer where
  functions := .empty
  types := wideTable
  defaultBits := 24
  defaultScalar := ⟨0⟩
  returnTypes := .empty
  signature := ⟨"plant", []⟩
  definition := ⟨"plant", [], []⟩

/-- A leaf of a number that needs too many bits is built with the low 24 of them. -/
theorem builders_agree_leaf :
    ∃ cv, (wideLowerer.shapeOf leafType).build 1 [.scalar 16777223] = .ok cv ∧
      wideTable.encode (leaf 7) ⟨1⟩ = .ok cv := by
  have hw : wideTable.WellFormed := treeTable_registered.wellFormed.ensureScalar (by decide) (by decide)
  have hfits : wideLowerer.toTyping.Fits wideTable :=
    ⟨hw, .refl _, hw, by with_unfolding_all rfl⟩
  have hwide : wideTable.Admits ⟨4⟩ (.uint (Uint.wrap 32 16777223)) := by with_unfolding_all rfl
  have hargument : Argument wideTable (.known ⟨4⟩) (.uint (Uint.wrap 32 16777223), .scalar 16777223) :=
    { has := ⟨.inr hwide, normal_uint _⟩
      encoded := fun id hid => by
        cases hid
        exact hw.encode_of_encodes (.scalar (Uint.wrap 32 16777223)) hwide
      sentinel := nofun }
  obtain ⟨-, hok, hbuilt⟩ := Lowerer.builders_agree (r := leafType) (i := ⟨wideTable, .reference, 24⟩)
    hfits rfl (by with_unfolding_all rfl) (by with_unfolding_all rfl) (.cons hargument .nil)
  obtain ⟨v, hv⟩ := hok.2 (by simp)
  obtain ⟨rfl, cv, hcv, hencode, -⟩ := hbuilt v hv
  have hleaf : wideTable.normFields leafType.fields [.uint (Uint.wrap 32 16777223)] = [.u24 7] := by
    have hbits : wideTable.scalarBits? ⟨0⟩ = some 24 := by with_unfolding_all rfl
    simp only [leafType, normFields, TypeTable.norm, integerAt, hbits]
    rfl
  exact ⟨cv, hcv, by rwa [List.map_singleton, hleaf] at hencode⟩

end Catalog

end ShapeCompiler
