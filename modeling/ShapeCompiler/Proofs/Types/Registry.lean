import Mathlib
import ShapeCompiler.Proofs.Types.Registration

/-!
What holds of every table that registrations lead to.

A registration that is rejected leaves the table as it is, and one that is accepted may name types
that are there already next to new ones that refer to each other.

Main statement: after any registrations the table is consistent, and further ones change nothing of
what it holds (`consistent_afterAll`).
-/

namespace ShapeCompiler.TypeTable

variable {t t' : TypeTable} {id S : TypeId} {n : Ident} {r : RecordType} {s : SumType}

/-! ### Registrations -/

/-- What can be asked of a table. -/
inductive Registration where
  | group (declarations : List TypeDecl)
  | scalar (bits : Nat)

/-- The table after a registration, which is the table before if that is rejected. -/
def after (t : TypeTable) : Registration → TypeTable
  | .group declarations =>
    match t.declare declarations with
    | .ok (_, t') => t'
    | .error _ => t
  | .scalar bits =>
    match t.declareScalar bits with
    | .ok (_, t') => t'
    | .error _ => t

def afterAll (t : TypeTable) (registrations : List Registration) : TypeTable :=
  registrations.foldl after t

/-- One registration keeps a table well-formed and all that it holds. -/
theorem WellFormed.after (hw : t.WellFormed) (g : Registration) :
    (t.after g).WellFormed ∧ t.Grows (t.after g) := by
  cases g with
  | group declarations =>
    simp only [TypeTable.after]
    split
    · rename_i ids t' hd
      obtain ⟨hw', hg, -⟩ := hw.declare hd
      exact ⟨hw', hg⟩
    · exact ⟨hw, .refl t⟩
  | scalar bits =>
    simp only [TypeTable.after]
    split
    · rename_i id t' hs
      obtain ⟨hb, -, rfl⟩ := declareScalar_eq_ok.1 hs
      exact ⟨hw.ensureScalar hb.1 hb.2, (ensureScalar_grows t bits).toGrows⟩
    · exact ⟨hw, .refl t⟩

theorem WellFormed.afterAll (hw : t.WellFormed) (gs : List Registration) :
    (t.afterAll gs).WellFormed ∧ t.Grows (t.afterAll gs) := by
  induction gs generalizing t with
  | nil => exact ⟨hw, .refl t⟩
  | cons g gs ih =>
    obtain ⟨hw₁, hg₁⟩ := hw.after g
    obtain ⟨hw₂, hg₂⟩ := ih hw₁
    exact ⟨hw₂, hg₁.trans hg₂⟩

/-! ### Sums and their variants -/

namespace WellFormed

variable (hw : t.WellFormed)
include hw

/-- Tags and positions of variants are the same thing said twice. -/
theorem home_and_tag_iff (hr : t.record? id = some r) {tag : Nat} :
    r.home = some S ∧ r.tag.toNat = tag ↔
      ∃ s, t.sum? S = some s ∧ s.variants[tag]? = some id := by
  constructor
  · rintro ⟨hh, rfl⟩
    exact hw.home hr hh
  · rintro ⟨s, hs, hv⟩
    obtain ⟨r', hr', hh, ht⟩ := hw.variant hs hv
    rw [hr] at hr'
    cases hr'
    exact ⟨hh, ht⟩

/-- A tag is a byte, so no sum has a position that a byte cannot number. -/
theorem variants_le (hs : t.sum? S = some s) : s.variants.length ≤ 256 := by
  by_contra hlong
  have hlt : 256 < s.variants.length := by omega
  obtain ⟨r, -, -, htag⟩ := hw.variant hs (List.getElem?_eq_getElem hlt)
  have := r.tag.toNat_lt
  omega

theorem variants_nodup (hs : t.sum? S = some s) : s.variants.Nodup := by
  rw [List.nodup_iff_getElem?_ne_getElem?]
  intro i j hij hj he
  have hv : s.variants[j]? = some s.variants[j] := List.getElem?_eq_getElem hj
  obtain ⟨r, hr, -, hi⟩ := hw.variant hs (he.trans hv)
  obtain ⟨r', hr', -, hj'⟩ := hw.variant hs hv
  rw [hr] at hr'
  cases hr'
  omega

theorem variant_record (hs : t.sum? S = some s) {v : TypeId} (hv : v ∈ s.variants) :
    ∃ r, t.record? v = some r := by
  obtain ⟨i, hi⟩ := List.getElem?_of_mem hv
  obtain ⟨r, hr, -⟩ := hw.variant hs hi
  exact ⟨r, hr⟩

end WellFormed

/-! ### Packed records -/

/-- The widths of the fields of a record, if all of them are scalars. -/
def HasWidths (t : TypeTable) (fields : List Field) (widths : List Nat) : Prop :=
  fields.map (fun f => t.scalarBits? f.type) = widths.map some

/-- Slots of given widths, side by side from a bit upward. -/
def contiguous (start : Nat) (widths : List Nat) : List Slot :=
  widths.mapIdx fun i bits => ⟨start + (widths.take i).sum, bits⟩

theorem contiguous_cons (start bits : Nat) (widths : List Nat) :
    contiguous start (bits :: widths) = ⟨start, bits⟩ :: contiguous (start + bits) widths := by
  simp [contiguous, List.mapIdx_cons, Nat.add_assoc]

/-- Fields have slots exactly if they are scalars that fit, and then the slots are contiguous. -/
theorem slotsFrom_eq_some_iff {k : Nat} (hk : k ≤ 64) {fs : List Field} {ss : List Slot} :
    t.slotsFrom k fs = some ss ↔
      ∃ widths, t.HasWidths fs widths ∧ k + widths.sum ≤ 64 ∧ ss = contiguous k widths := by
  induction fs generalizing k ss with
  | nil =>
    constructor
    · intro h
      cases h
      exact ⟨[], rfl, by simpa using hk, rfl⟩
    · rintro ⟨widths, hws, -, rfl⟩
      obtain rfl : widths = [] := by simpa [HasWidths] using hws
      rfl
  | cons f fs ih =>
    rw [slotsFrom]
    constructor
    · intro h
      split at h
      · cases h
      rename_i bits hb
      split at h
      · cases h
      rename_i hle
      obtain ⟨rest, hrest, rfl⟩ := Option.map_eq_some_iff.1 h
      obtain ⟨widths, hws, hsum, rfl⟩ := (ih (by omega)).1 hrest
      refine ⟨bits :: widths, ?_, ?_, (contiguous_cons ..).symm⟩
      · simpa [HasWidths, hb] using hws
      · simpa [Nat.add_assoc] using hsum
    · rintro ⟨widths, hws, hsum, rfl⟩
      cases widths with
      | nil => simp [HasWidths] at hws
      | cons bits widths =>
        obtain ⟨hb, hws⟩ : t.scalarBits? f.type = some bits ∧ t.HasWidths fs widths := by
          simpa [HasWidths] using hws
        rw [List.sum_cons] at hsum
        have hrest := (ih (k := k + bits) (by omega)).2 ⟨widths, hws, by omega, rfl⟩
        simp only [hb, hrest, Option.map_some, if_neg (by omega : ¬ 64 < k + bits),
          contiguous_cons]

theorem layoutOf_eq_packed {fs : List Field} {slots : List Slot} :
    t.layoutOf fs = .packed slots ↔ t.slotsFrom tagBits fs = some slots := by
  unfold layoutOf
  split <;> simp_all

theorem WellFormed.layout_eq_packed (hw : t.WellFormed) (hr : t.record? id = some r)
    {slots : List Slot} :
    r.layout = .packed slots ↔ ∃ widths, t.HasWidths r.fields widths ∧
      tagBits + widths.sum ≤ 64 ∧ slots = contiguous tagBits widths := by
  rw [hw.layout hr, layoutOf_eq_packed, slotsFrom_eq_some_iff (by decide)]

/-! ### Consistent tables -/

/-- What can be relied on about the types of a table. -/
structure Consistent (t : TypeTable) : Prop where
  /-- A type is found under its name, and what is found under a name is called so. -/
  lookup_iff : ∀ {n id}, t.lookup n = some id ↔ ∃ d, t.get? id = some d ∧ d.name = n
  /-- Two types of one name are one type. -/
  name_injective : ∀ {id id' d d'}, t.get? id = some d → t.get? id' = some d' →
    d.name = d'.name → id = id'
  /-- The numbers of types are those below the size of the table. -/
  numbered : ∀ {id}, (t.get? id).isSome ↔ id.index < t.size
  field_in_range : ∀ {id r}, t.record? id = some r → ∀ f ∈ r.fields, f.type.index < t.size
  home_in_range : ∀ {id r S}, t.record? id = some r → r.home = some S → S.index < t.size
  variant_in_range : ∀ {S s}, t.sum? S = some s → ∀ v ∈ s.variants, v.index < t.size
  /-- A sum has 2 to 256 variants, all different and all of them records. -/
  sum : ∀ {S s}, t.sum? S = some s → 2 ≤ s.variants.length ∧ s.variants.length ≤ 256 ∧
    s.variants.Nodup ∧ ∀ v ∈ s.variants, ∃ r, t.record? v = some r
  /-- Home and tag of a record say which variant of which sum it is. -/
  home : ∀ {id r S} {tag : Nat}, t.record? id = some r →
    (r.home = some S ∧ r.tag.toNat = tag ↔
      ∃ s, t.sum? S = some s ∧ s.variants[tag]? = some id)
  homeless : ∀ {id r}, t.record? id = some r → r.home = none → r.tag = 0
  /-- A record is packed if and only if its fields are scalars that fit behind the tag. -/
  isPacked : ∀ {id r}, t.record? id = some r →
    (r.isPacked = true ↔ ∃ widths, t.HasWidths r.fields widths ∧ tagBits + widths.sum ≤ 64)
  /-- The slots of a packed record follow each other behind the tag, in the order of its fields. -/
  slots : ∀ {id r slots}, t.record? id = some r → r.layout = .packed slots →
    ∃ widths, t.HasWidths r.fields widths ∧ slots = contiguous tagBits widths

theorem get?_isSome_iff : (t.get? id).isSome ↔ id.index < t.size := by
  simp [get?, size]

theorem WellFormed.consistent (hw : t.WellFormed) : t.Consistent where
  lookup_iff :=
    ⟨get?_of_lookup, fun ⟨_, hd, hn⟩ => hn ▸ hw.lookup_name hd⟩
  name_injective h h' hn := hw.name_inj h' h hn
  numbered := get?_isSome_iff
  field_in_range hr f hf := get?_isSome_iff.1 (hw.fields hr f hf)
  home_in_range hr hh := by
    obtain ⟨s, hs⟩ := hw.sum_of_home hr hh
    exact get?_lt (sum?_eq_some.1 hs)
  variant_in_range hs v hv := by
    obtain ⟨r, hr⟩ := hw.variant_record hs hv
    exact get?_lt (record?_eq_some.1 hr)
  sum hs := ⟨hw.variants hs, hw.variants_le hs, hw.variants_nodup hs,
    fun _ hv => hw.variant_record hs hv⟩
  home hr := hw.home_and_tag_iff hr
  homeless := hw.tag
  isPacked {id r} hr := by
    unfold RecordType.isPacked
    constructor
    · intro h
      split at h
      · rename_i slots hl
        obtain ⟨widths, hws, hsum, -⟩ := (hw.layout_eq_packed hr).1 hl
        exact ⟨widths, hws, hsum⟩
      · cases h
    · rintro ⟨widths, hws, hsum⟩
      rw [(hw.layout_eq_packed hr).2 ⟨widths, hws, hsum, rfl⟩]
  slots hr hl := by
    obtain ⟨widths, hws, -, he⟩ := (hw.layout_eq_packed hr).1 hl
    exact ⟨widths, hws, he⟩

/--
Whatever groups and scalars are registered, accepted or rejected, the table is consistent, and every
later table has each of its types under the same number, with the same descriptor and the same name.
-/
theorem consistent_afterAll (earlier later : List Registration) :
    (afterAll {} earlier).Consistent ∧
    (∀ {id d}, (afterAll {} earlier).get? id = some d →
      (afterAll {} (earlier ++ later)).get? id = some d ∧
      (afterAll {} (earlier ++ later)).name id = (afterAll {} earlier).name id) ∧
    ∀ {n id}, (afterAll {} earlier).lookup n = some id →
      (afterAll {} (earlier ++ later)).lookup n = some id := by
  have hw := (wellFormed_empty.afterAll earlier).1
  obtain ⟨hw', hg⟩ := hw.afterAll later
  have he : afterAll {} (earlier ++ later) = (afterAll {} earlier).afterAll later :=
    List.foldl_append
  rw [he]
  refine ⟨hw.consistent, fun {id d} hd => ⟨hg.get? hd, ?_⟩, fun hl => hg.lookup hw' hl⟩
  unfold name
  rw [hd, hg.get? hd]

end ShapeCompiler.TypeTable
