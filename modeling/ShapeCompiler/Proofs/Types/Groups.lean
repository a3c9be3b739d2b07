import ShapeCompiler.Proofs.RoundTrip

/-!
What becomes of a group of declarations.

The numbers of the new types of a group are settled before any of them is registered, from their
positions in it. Main statement: in a table that registrations have led to, every declaration has the
type that it describes (`Registered.documented`).
-/

namespace ShapeCompiler.TypeTable

/-! ### Declarations and their types -/

/-- A type is what a declaration describes: it has the declared fields or variants in order, each with
the type of the name given there. -/
def Realises (t : TypeTable) : TypeDecl → TypeId → Prop
  | .record name fields, id => ∃ r, t.record? id = some r ∧ r.name = name ∧
      List.Forall₂ (fun p f => f.name = p.1 ∧ t.lookup p.2 = some f.type) fields r.fields
  | .sum name variants, id => ∃ s, t.sum? id = some s ∧ s.name = name ∧
      List.Forall₂ (fun v vid => t.lookup v = some vid) variants s.variants

/-- A table in which every declaration has its type, and no two have one name. -/
structure Documented (t : TypeTable) : Prop where
  nodup : (t.declared.map (·.name)).Nodup
  realised : ∀ d ∈ t.declared, ∃ id, t.lookup d.name = some id ∧ t.Realises d id

variable {t t' : TypeTable} {id : TypeId} {n : Ident} {fresh : List Ident} {homes : List Home}
  {group rest : List TypeDecl} {d : TypeDecl}

theorem Realises.grows (h : t.Grows t') (hw' : t'.WellFormed) (hd : t.Realises d id) :
    t'.Realises d id := by
  cases d with
  | record name fields =>
    obtain ⟨r, hr, hn, hf⟩ := hd
    exact ⟨r, h.record? hr, hn, hf.imp fun _ _ hp => ⟨hp.1, h.lookup hw' hp.2⟩⟩
  | sum name variants =>
    obtain ⟨s, hs, hn, hv⟩ := hd
    exact ⟨s, h.sum? hs, hn, hv.imp fun _ _ hp => h.lookup hw' hp⟩

namespace Documented

variable (hd : t.Documented)
include hd

theorem declaration?_of_mem (hm : d ∈ t.declared) : t.declaration? d.name = some d :=
  find?_of_nodup hd.nodup hm

/-- A name that is read as no scalar is declared if it is registered. -/
theorem declaration?_eq_none_iff (hw : t.WellFormed) (hs : scalarWidth n = none) :
    t.declaration? n = none ↔ t.lookup n = none := by
  refine ⟨hw.lookup_fresh hs, fun hl => ?_⟩
  by_contra hne
  obtain ⟨d, hfind⟩ := Option.ne_none_iff_exists'.1 hne
  have hn : d.name = n := by simpa using List.find?_some hfind
  obtain ⟨id, hid, -⟩ := hd.realised d (List.mem_of_find?_eq_some hfind)
  rw [hn, hl] at hid
  cases hid

end Documented

/-! ### New types -/

theorem freshId_eq_none_iff : t.freshId fresh n = none ↔ n ∉ fresh := by
  unfold freshId
  rw [Option.map_eq_none_iff, List.findIdx?_eq_none_iff]
  simp only [beq_eq_false_iff_ne, ne_eq]
  exact ⟨fun h hn => h n hn rfl, fun h x hx e => h (e ▸ hx)⟩

theorem exists_freshId_iff : (∃ id, t.freshId fresh n = some id) ↔ n ∈ fresh := by
  rw [← Option.ne_none_iff_exists', ne_eq, freshId_eq_none_iff, not_not]

theorem freshId_inj (hn : fresh.Nodup) {m : Ident} (h : t.freshId fresh n = some id)
    (h' : t.freshId fresh m = some id) : n = m := by
  have := ((freshId_eq_some hn).1 h).2
  rw [((freshId_eq_some hn).1 h').2] at this
  exact (Option.some.inj this).symm

namespace Staged

variable {staged : List (TypeDecl × TypeDescriptor)} (hs : t.Staged group fresh homes staged)
include hs

/-- The type that a field was given before the group was registered is called as the field says. -/
theorem lookup_fieldType (hw : t.WellFormed) (h : (t.freshId fresh n).or (t.lookup n) = some id) :
    (t.register staged).lookup n = some id := by
  cases hid : t.freshId fresh n with
  | none =>
    rw [hid, Option.none_or] at h
    exact grows.lookup (hs.wellFormed hw) h
  | some id' =>
    rw [hid, Option.some_or] at h
    cases h
    obtain ⟨p, hp, hn, hg⟩ := hs.get?_freshId hid
    have := (hs.wellFormed hw).lookup_name hg
    rwa [hs.name_eq hp, hn] at this

theorem realises (hw : t.WellFormed) {p : TypeDecl × TypeDescriptor} (hp : p ∈ staged) :
    ∃ id, (t.register staged).lookup p.1.name = some id ∧ (t.register staged).Realises p.1 id := by
  obtain ⟨id, hid, hg⟩ := hs.freshId_of_mem hp
  refine ⟨id, hs.lookup_fieldType hw (by rw [hid, Option.some_or]), ?_⟩
  rcases describe_spec (hs.described p hp) with
    ⟨name, fields, r, hd, hr, hn, hres, -⟩ | ⟨name, variants, hd, hr⟩
  · rw [hd]
    rw [hr] at hg
    exact ⟨r, record?_eq_some.2 hg, hn,
      (resolveFields_eq_ok.1 hres).2.imp fun _ _ h => ⟨h.1, hs.lookup_fieldType hw h.2⟩⟩
  · rw [hd] at hid ⊢
    rw [hr] at hg
    refine ⟨_, sum?_eq_some.2 hg, rfl, ?_⟩
    have hm := hs.mem p hp
    rw [hd] at hm
    obtain ⟨-, -, hall⟩ := hs.claimed.variant name variants id hm hid
    -- a variant is a new record, so that it has a number of its own
    have hnew : ∀ v ∈ variants, ∃ vid, t.freshId fresh v = some vid := by
      intro v hv
      obtain ⟨k, hk⟩ := List.getElem?_of_mem hv
      exact exists_freshId_iff.2 (isFreshRecord_iff.1 (hall k v hk).2).2
    clear hall hd hm hid hr hg
    induction variants with
    | nil => exact .nil
    | cons v rest ih =>
      obtain ⟨vid, hvid⟩ := hnew v (by simp)
      rw [List.filterMap_cons_some hvid]
      exact .cons (hs.lookup_fieldType hw (by rw [hvid, Option.some_or]))
        (ih fun w hw => hnew w (List.mem_cons_of_mem _ hw))

end Staged

/-! ### Declared names -/

theorem map_name_newOf : (t.newOf group).map (·.name) =
    (group.map (·.name)).filter fun n => (t.declaration? n).isNone := by
  rw [newOf, List.filter_map]
  rfl

theorem WellFormed.declared_of_declare (hw : t.WellFormed) {ids : List TypeId}
    (h : t.declare group = .ok (ids, t')) : t'.declared = t.declared ++ t.newOf group := by
  obtain ⟨fresh, _, homes, staged, -, rfl, -, hfst, rfl, -⟩ := hw.staged_of_declare h
  rw [register, hfst, (hw.withFieldScalars fresh group).2.2]

theorem WellFormed.mem_declared_of_declare (hw : t.WellFormed) {ids : List TypeId}
    (h : t.declare group = .ok (ids, t')) (hm : d ∈ group) : d ∈ t'.declared := by
  rw [hw.declared_of_declare h, List.mem_append]
  obtain ⟨fresh, _, homes, staged, hf, -⟩ := hw.staged_of_declare h
  obtain ⟨hnames, -⟩ := (freshNames_eq_ok List.nodup_nil).1 hf
  cases ho : t.declaration? d.name with
  | none => exact .inr (List.mem_filter.2 ⟨hm, Option.isNone_iff_eq_none.2 ho⟩)
  | some old =>
    obtain rfl := (hnames d hm).2 old ho
    exact .inl (List.mem_of_find?_eq_some ho)

theorem Documented.declare (hd : t.Documented) (hw : t.WellFormed) {ids : List TypeId}
    (h : t.declare group = .ok (ids, t')) : t'.Documented := by
  obtain ⟨hw', hg, -⟩ := hw.declare h
  have hdeclared := hw.declared_of_declare h
  obtain ⟨fresh, t₁, homes, staged, hf, ht, hst, hfst, rfl, -⟩ := hw.staged_of_declare h
  obtain ⟨hw₁, -⟩ := hw.withFieldScalars fresh group
  rw [ht] at hw₁
  obtain ⟨-, hfresh, hnd⟩ := (freshNames_eq_ok List.nodup_nil).1 hf
  rw [List.nil_append] at hfresh
  constructor
  · rw [hdeclared, List.map_append, List.nodup_append]
    refine ⟨hd.nodup, hfresh ▸ hnd, ?_⟩
    rintro a ha b hb rfl
    obtain ⟨d, hm, rfl⟩ := List.mem_map.1 ha
    have := (mem_newNames_iff.1 hb).2
    rw [hd.declaration?_of_mem hm] at this
    cases this
  · intro d hm
    rw [hdeclared, ← hfst] at hm
    rcases List.mem_append.1 hm with hm | hm
    · obtain ⟨id, hid, hr⟩ := hd.realised d hm
      exact ⟨id, hg.lookup hw' hid, hr.grows hg hw'⟩
    · obtain ⟨p, hp, rfl⟩ := List.mem_map.1 hm
      exact hst.realises hw₁ hp

theorem Registered.documented (h : t.Registered) : t.Documented := by
  induction h with
  | empty => exact ⟨List.nodup_nil, by simp⟩
  | declare ht hd ih => exact ih.declare ht.wellFormed hd
  | @scalar t t' bits id ht hs ih =>
    obtain ⟨hb, -, rfl⟩ := declareScalar_eq_ok.1 hs
    have hw' := ht.wellFormed.ensureScalar hb.1 hb.2
    have hg := (ensureScalar_grows t bits).toGrows
    refine ⟨by simpa using ih.nodup, fun d hm => ?_⟩
    rw [declared_ensureScalar] at hm
    obtain ⟨id, hid, hr⟩ := ih.realised d hm
    exact ⟨id, hg.lookup hw' hid, hr.grows hg hw'⟩

end ShapeCompiler.TypeTable
