import Mathlib.Data.List.Nodup
import ShapeCompiler.Proofs.Success
import ShapeCompiler.Proofs.Types.WellFormed

/-!
Registration keeps tables well-formed.

Main statements: a table with one more scalar (`WellFormed.ensureScalar`) and a table with one more
group of declarations (`WellFormed.declare`) are well-formed and have all the types they had before.
-/

namespace ShapeCompiler.TypeTable

variable {t t' : TypeTable} {id : TypeId} {n : Ident} {fresh : List Ident} {homes : List Home}
  {group : List TypeDecl}

/-! ### Names -/

theorem scalarWidth_scalarName {bits : Nat} (h1 : 1 ≤ bits) (h2 : bits ≤ 64) :
    scalarWidth (scalarName bits) = some bits := by
  have h : ∀ b : Fin 64, scalarWidth (scalarName (b.val + 1)) = some (b.val + 1) := by decide +kernel
  have := h ⟨bits - 1, by omega⟩
  rwa [Nat.sub_add_cancel h1] at this

theorem width_of_scalarWidth {bits : Nat} (h : scalarWidth n = some bits) :
    1 ≤ bits ∧ bits ≤ 64 := by
  have key : ∀ {digits}, (decimal? digits).bind width? = some bits → 1 ≤ bits ∧ bits ≤ 64 := by
    intro digits h
    obtain ⟨k, -, hk⟩ := Option.bind_eq_some_iff.1 h
    unfold width? at hk
    split at hk
    · cases hk; assumption
    · cases hk
  unfold scalarWidth at h
  split at h
  · exact key h
  · exact key h
  · cases h

/-- A type is found by its name if no other type is called so. -/
theorem lookup_of_get? {d : TypeDescriptor} (h : t.get? id = some d)
    (hone : ∀ id' d', t.get? id' = some d' → d'.name = d.name → id' = id) :
    t.lookup d.name = some id := by
  obtain ⟨id', hid⟩ := Option.isSome_iff_exists.1 (lookup_isSome_of_get? h)
  obtain ⟨d', hd', hn⟩ := get?_of_lookup hid
  rw [hid, hone id' d' hd' hn]

theorem WellFormed.name_inj (hw : t.WellFormed) {id' : TypeId} {d d' : TypeDescriptor}
    (h : t.get? id = some d) (h' : t.get? id' = some d') (hn : d'.name = d.name) : id' = id := by
  have := hw.lookup_name h'
  rw [hn, hw.lookup_name h] at this
  exact (Option.some.inj this).symm

theorem lookup_eq_none (h : ∀ id d, t.get? id = some d → d.name ≠ n) : t.lookup n = none := by
  cases hl : t.lookup n with
  | none => rfl
  | some id =>
    obtain ⟨d, hd, hn⟩ := get?_of_lookup hl
    exact absurd hn (h id d hd)

/-- A name that nobody declared and that is read as no scalar is free. -/
theorem WellFormed.lookup_fresh (hw : t.WellFormed) (hs : scalarWidth n = none)
    (hd : t.declaration? n = none) : t.lookup n = none := by
  refine lookup_eq_none fun id d h hn => ?_
  by_cases hb : ∃ bits, d = .scalar bits
  · obtain ⟨bits, rfl⟩ := hb
    obtain ⟨h1, h2⟩ := hw.width h
    rw [← hn, TypeDescriptor.name, scalarWidth_scalarName h1 h2] at hs
    cases hs
  · obtain ⟨-, decl, hm, he⟩ := hw.named h fun bits e => hb ⟨bits, e⟩
    unfold declaration? at hd
    have := List.find?_eq_none.1 hd decl hm
    simp [he, hn] at this

/-! ### Layouts of registered fields -/

theorem slotsFrom_congr {fs : List Field} {k : Nat}
    (h : ∀ f ∈ fs, t'.scalarBits? f.type = t.scalarBits? f.type) :
    t'.slotsFrom k fs = t.slotsFrom k fs := by
  induction fs generalizing k with
  | nil => rfl
  | cons f fs ih =>
    rw [slotsFrom, slotsFrom, h f (by simp)]
    cases t.scalarBits? f.type with
    | none => rfl
    | some bits =>
      simp only []
      rw [ih fun g hg => h g (List.mem_cons_of_mem _ hg)]

theorem layoutOf_congr {fs : List Field}
    (h : ∀ f ∈ fs, t'.scalarBits? f.type = t.scalarBits? f.type) :
    t'.layoutOf fs = t.layoutOf fs := by
  unfold layoutOf
  rw [slotsFrom_congr h]

theorem Grows.layoutOf_eq (h : t.Grows t') {fs : List Field}
    (hf : ∀ f ∈ fs, (t.get? f.type).isSome) : t'.layoutOf fs = t.layoutOf fs := by
  refine layoutOf_congr fun f hm => ?_
  unfold TypeTable.scalarBits?
  rw [h.get?_eq (hf f hm)]

/-! ### One more scalar -/

theorem get?_push (d : TypeDescriptor) :
    (t.push d).2.get? id = if id.index = t.size then some d else t.get? id := by
  unfold push get? size
  rw [Array.getElem?_push]

theorem get?_lt {d : TypeDescriptor} (h : t.get? id = some d) : id.index < t.size :=
  (Array.getElem?_eq_some_iff.1 h).1

theorem growsByScalars_push (bits : Nat) : t.GrowsByScalars (t.push (.scalar bits)).2 where
  get? {id d} h := by
    rw [get?_push, if_neg (Nat.ne_of_lt (get?_lt h))]
    exact h
  scalars {id d} h := by
    rw [get?_push] at h
    split at h
    · exact .inr ⟨bits, (Option.some.inj h).symm⟩
    · exact .inl h

theorem WellFormed.push_scalar (hw : t.WellFormed) {bits : Nat} (h1 : 1 ≤ bits) (h2 : bits ≤ 64)
    (hl : t.scalar? bits = none) : (t.push (.scalar bits)).2.WellFormed := by
  have hg := growsByScalars_push (t := t) bits
  have hfree : ∀ {id d}, t.get? id = some d → d.name ≠ scalarName bits := by
    intro id d h hn
    have := hw.lookup_name h
    rw [hn, show t.lookup (scalarName bits) = none from hl] at this
    cases this
  constructor
  · intro id d h
    refine lookup_of_get? h fun id' d' h' hn => ?_
    rw [get?_push] at h h'
    split at h <;> split at h'
    · rename_i e e'
      cases id; cases id'
      simp only at e e'
      rw [e, e']
    · cases h
      exact absurd hn (hfree h')
    · cases h'
      exact absurd hn.symm (hfree h)
    · exact hw.name_inj h h' hn
  · intro id b h
    rcases hg.scalars h with h | ⟨b', e⟩
    · exact hw.width h
    · rw [get?_push] at h
      split at h
      · cases h
        exact ⟨h1, h2⟩
      · exact hw.width h
  · intro id r hr f hf
    rw [hg.record?_eq] at hr
    have := hw.fields hr f hf
    rwa [hg.get?_eq this]
  · intro id r S hr hh
    rw [hg.record?_eq] at hr
    obtain ⟨s, hs, hv⟩ := hw.home hr hh
    exact ⟨s, hg.sum? hs, hv⟩
  · intro S s i v hs hv
    rcases hg.scalars (sum?_eq_some.1 hs) with h | ⟨b, e⟩
    · obtain ⟨r, hr, hh, ht⟩ := hw.variant (sum?_eq_some.2 h) hv
      exact ⟨r, hg.record? hr, hh, ht⟩
    · cases e
  · intro S s hs
    rcases hg.scalars (sum?_eq_some.1 hs) with h | ⟨b, e⟩
    · exact hw.variants (sum?_eq_some.2 h)
    · cases e
  · intro id r hr
    rw [hg.record?_eq] at hr
    exact hw.tag hr
  · intro id r hr
    rw [hg.record?_eq] at hr
    rw [hw.layout hr, hg.toGrows.layoutOf_eq (hw.fields hr)]
  · intro id d h hnot
    rcases hg.scalars h with h | ⟨b, e⟩
    · exact hw.named h hnot
    · exact absurd e (hnot b)

theorem ensureScalar_grows (t : TypeTable) (bits : Nat) :
    t.GrowsByScalars (t.ensureScalar bits).2 := by
  unfold ensureScalar
  split
  · exact .refl t
  · exact growsByScalars_push bits

@[simp] theorem declared_ensureScalar (t : TypeTable) (bits : Nat) :
    (t.ensureScalar bits).2.declared = t.declared := by
  unfold ensureScalar
  split <;> rfl

theorem WellFormed.ensureScalar (hw : t.WellFormed) {bits : Nat} (h1 : 1 ≤ bits) (h2 : bits ≤ 64) :
    (t.ensureScalar bits).2.WellFormed := by
  unfold TypeTable.ensureScalar
  split
  · exact hw
  · rename_i h
    exact hw.push_scalar h1 h2 h

/-- Only the scalar type of a width is called like it. -/
theorem WellFormed.get?_of_scalar? (hw : t.WellFormed) {bits : Nat} (h1 : 1 ≤ bits) (h2 : bits ≤ 64)
    (h : t.scalar? bits = some id) : t.get? id = some (.scalar bits) := by
  obtain ⟨d, hd, hn⟩ := get?_of_lookup h
  by_cases hb : ∃ b, d = .scalar b
  · obtain ⟨b, rfl⟩ := hb
    obtain ⟨hb1, hb2⟩ := hw.width hd
    have he : scalarWidth (scalarName b) = scalarWidth (scalarName bits) := congrArg scalarWidth hn
    rw [scalarWidth_scalarName hb1 hb2, scalarWidth_scalarName h1 h2] at he
    rw [hd, Option.some.inj he]
  · obtain ⟨hs, -⟩ := hw.named hd fun b e => hb ⟨b, e⟩
    rw [hn, scalarWidth_scalarName h1 h2] at hs
    cases hs

theorem WellFormed.get?_ensureScalar (hw : t.WellFormed) {bits : Nat} (h1 : 1 ≤ bits) (h2 : bits ≤ 64) :
    (t.ensureScalar bits).2.get? (t.ensureScalar bits).1 = some (.scalar bits) := by
  unfold TypeTable.ensureScalar
  split
  · rename_i id h
    exact hw.get?_of_scalar? h1 h2 h
  · show (t.push (.scalar bits)).2.get? ⟨t.size⟩ = _
    rw [get?_push, if_pos rfl]

theorem declareScalar_eq_ok {bits : Nat} : t.declareScalar bits = .ok (id, t') ↔
    (1 ≤ bits ∧ bits ≤ 64) ∧ (t.ensureScalar bits).1 = id ∧ (t.ensureScalar bits).2 = t' := by
  unfold declareScalar
  split
  · rename_i hb
    rw [and_iff_right hb, Except.ok.injEq, Prod.ext_iff]
  · rename_i hb
    constructor
    · intro h
      cases h
    · exact fun h => absurd h.1 hb

theorem wellFormed_empty : ({} : TypeTable).WellFormed := by
  have h : ∀ id, ({} : TypeTable).get? id = none := fun id => rfl
  constructor <;> intros <;> simp_all [record?, sum?]

theorem withFieldScalar_cases (fresh : List Ident) (t : TypeTable) (type : Ident) :
    withFieldScalar fresh t type = t ∨ ∃ bits, scalarWidth type = some bits ∧
      t.scalar? bits = none ∧ withFieldScalar fresh t type = (t.push (.scalar bits)).2 := by
  unfold withFieldScalar
  split
  · exact .inl rfl
  · split
    · rename_i bits hbits
      unfold ensureScalar
      split
      · exact .inl rfl
      · rename_i hnone
        exact .inr ⟨bits, hbits, hnone, rfl⟩
    · exact .inl rfl

theorem WellFormed.withFieldScalar (hw : t.WellFormed) (fresh : List Ident) (type : Ident) :
    (TypeTable.withFieldScalar fresh t type).WellFormed ∧
      t.GrowsByScalars (TypeTable.withFieldScalar fresh t type) ∧
      (TypeTable.withFieldScalar fresh t type).declared = t.declared := by
  rcases withFieldScalar_cases fresh t type with hsame | ⟨bits, hbits, hnone, hpush⟩
  · rw [hsame]
    exact ⟨hw, .refl t, rfl⟩
  · obtain ⟨h1, h2⟩ := width_of_scalarWidth hbits
    rw [hpush]
    exact ⟨hw.push_scalar h1 h2 hnone, growsByScalars_push bits, rfl⟩

theorem WellFormed.foldl_withFieldScalar (hw : t.WellFormed) (fresh types : List Ident) :
    (types.foldl (TypeTable.withFieldScalar fresh) t).WellFormed ∧
      t.GrowsByScalars (types.foldl (TypeTable.withFieldScalar fresh) t) ∧
      (types.foldl (TypeTable.withFieldScalar fresh) t).declared = t.declared := by
  induction types generalizing t with
  | nil => exact ⟨hw, .refl t, rfl⟩
  | cons type rest ih =>
    obtain ⟨hw', hg, hd⟩ := hw.withFieldScalar fresh type
    obtain ⟨hw'', hg', hd'⟩ := ih hw'
    exact ⟨hw'', hg.trans hg', hd'.trans hd⟩

theorem WellFormed.withFieldScalars (hw : t.WellFormed) (fresh : List Ident) (group : List TypeDecl) :
    (t.withFieldScalars fresh group).WellFormed ∧
      t.GrowsByScalars (t.withFieldScalars fresh group) ∧
      (t.withFieldScalars fresh group).declared = t.declared :=
  hw.foldl_withFieldScalar fresh _

/-! ### New names of a group -/

/-- The declarations of a group whose names are new. -/
def newOf (t : TypeTable) (group : List TypeDecl) : List TypeDecl :=
  group.filter fun d => (t.declaration? d.name).isNone

/-- The new names of a group are found if no name is read as a scalar, no declaration contradicts the one
registered under its name, and no new name is declared twice. -/
theorem freshNames_eq_ok {known : List Ident} (hk : known.Nodup) :
    t.freshNames known group = .ok fresh ↔
      (∀ d ∈ group, scalarWidth d.name = none ∧ ∀ old, t.declaration? d.name = some old → old = d) ∧
      fresh = known ++ (t.newOf group).map (·.name) ∧ fresh.Nodup := by
  induction group generalizing known with
  | nil =>
    simp only [freshNames, newOf, List.filter_nil, List.map_nil, List.append_nil, Except.ok.injEq]
    constructor
    · rintro rfl
      exact ⟨by simp, rfl, hk⟩
    · rintro ⟨-, rfl, -⟩
      rfl
  | cons d rest ih =>
    rw [freshNames, List.forall_mem_cons]
    cases hs : scalarWidth d.name with
    | some bits => simp
    | none =>
      cases ho : t.declaration? d.name with
      | some old =>
        have hnew : t.newOf (d :: rest) = t.newOf rest := by simp [newOf, ho]
        rw [hnew]
        by_cases he : old = d
        · simp [he, ih hk]
        · simp [he]
      | none =>
        have hnew : t.newOf (d :: rest) = d :: t.newOf rest := by simp [newOf, ho]
        rw [hnew]
        by_cases hmem : d.name ∈ known
        · simp only [hmem, Option.isSome_none, Bool.false_eq_true, if_false, if_true]
          constructor
          · intro h
            cases h
          · rintro ⟨-, rfl, hn⟩
            exact absurd rfl ((List.nodup_append.1 hn).2.2 _ hmem _ (by simp))
        · have hk' : (known ++ [d.name]).Nodup := by
            rw [List.nodup_append]
            exact ⟨hk, by simp, fun a ha b hb e => hmem (by simp at hb; rw [← hb, ← e]; exact ha)⟩
          simp [hmem, ih hk']

theorem freshId_eq_some (hn : fresh.Nodup) :
    t.freshId fresh n = some id ↔ t.size ≤ id.index ∧ fresh[id.index - t.size]? = some n := by
  unfold freshId
  rw [Option.map_eq_some_iff]
  constructor
  · rintro ⟨i, hi, rfl⟩
    obtain ⟨hlt, hp, -⟩ := List.findIdx?_eq_some_iff_getElem.1 hi
    have : fresh[i] = n := by simpa using hp
    simp [this, hlt]
  · rintro ⟨hle, h⟩
    obtain ⟨hlt, he⟩ := List.getElem?_eq_some_iff.1 h
    refine ⟨id.index - t.size, ?_, ?_⟩
    · refine List.findIdx?_eq_some_iff_getElem.2 ⟨hlt, by simp [he], ?_⟩
      intro j hj hp
      have hj' : fresh.get ⟨j, Nat.lt_trans hj hlt⟩ = n := by simpa using hp
      have := (List.getElem_inj hn).1 (hj'.trans he.symm)
      omega
    · cases id
      simp only [TypeId.mk.injEq]
      simp only at hle
      omega

theorem isFreshRecord_iff :
    isFreshRecord group fresh n = true ↔ (∃ fields, .record n fields ∈ group) ∧ n ∈ fresh := by
  unfold isFreshRecord
  rw [Bool.and_eq_true, List.any_eq_true, List.contains_iff_mem]
  refine and_congr_left fun _ => ⟨?_, ?_⟩
  · rintro ⟨d, hd, hp⟩
    cases d with
    | record m fields =>
      have : m = n := by simpa using hp
      exact ⟨fields, this ▸ hd⟩
    | sum m vs => cases hp
  · rintro ⟨fields, hd⟩
    exact ⟨_, hd, by simp⟩

/-! ### Homes -/

/-- What a sum with number `id` claims from tag `tag` upward. -/
structure Claimed (group : List TypeDecl) (fresh : List Ident) (id : TypeId) (tag : Nat)
    (vs : List Ident) (homes homes' : List Home) : Prop where
  old : ∀ h ∈ homes, h ∈ homes'
  new : ∀ h ∈ homes', h ∈ homes ∨
    ∃ k, vs[k]? = some h.record ∧ h.sum = id ∧ h.tag = UInt8.ofNat (tag + k)
  all : ∀ k v, vs[k]? = some v →
    ⟨v, id, UInt8.ofNat (tag + k)⟩ ∈ homes' ∧ isFreshRecord group fresh v = true
  nodup : (homes.map (·.record)).Nodup → (homes'.map (·.record)).Nodup

theorem claimVariants_spec {sum : Ident} {tag : Nat} {vs : List Ident} {homes' : List Home}
    (h : claimVariants group fresh sum id tag homes vs = .ok homes') :
    Claimed group fresh id tag vs homes homes' := by
  induction vs generalizing tag homes with
  | nil =>
    cases h
    exact ⟨fun _ hm => hm, fun _ hm => .inl hm, by simp, fun hn => hn⟩
  | cons v rest ih =>
    rw [claimVariants] at h
    split at h
    · cases h
    · rename_i hfresh
      split at h
      · cases h
      · rename_i hany
        obtain ⟨hold, hnew, hall, hnd⟩ := ih h
        refine ⟨fun x hx => hold x (by simp [hx]), ?_, ?_, ?_⟩
        · intro x hx
          rcases hnew x hx with hx | ⟨k, hk, hs, ht⟩
          · rcases List.mem_append.1 hx with hx | hx
            · exact .inl hx
            · obtain rfl := List.mem_singleton.1 hx
              exact .inr ⟨0, rfl, rfl, rfl⟩
          · exact .inr ⟨k + 1, hk, hs, by rw [ht, Nat.add_assoc, Nat.add_comm 1 k]⟩
        · intro k w hk
          cases k with
          | zero =>
            cases hk
            exact ⟨hold _ (by simp), by simpa using hfresh⟩
          | succ k =>
            obtain ⟨hm, hf⟩ := hall k w hk
            rw [Nat.add_assoc, Nat.add_comm 1 k] at hm
            exact ⟨hm, hf⟩
        · intro hn
          refine hnd ?_
          rw [List.map_append, List.nodup_append]
          refine ⟨hn, by simp, ?_⟩
          intro a ha b hb e
          obtain ⟨x, hx, rfl⟩ := List.mem_map.1 ha
          simp only [List.map_cons, List.map_nil, List.mem_singleton] at hb
          have := hany
          simp only [List.any_eq_true, beq_iff_eq, not_exists, not_and] at this
          exact this x hx (e.trans hb)

/-- What is known of the homes once all sums of a group have claimed their variants. -/
structure Homes (t : TypeTable) (group : List TypeDecl) (fresh : List Ident) (homes : List Home)
    (sums : List TypeDecl) : Prop where
  nodup : (homes.map (·.record)).Nodup
  /-- Every home is that of a variant of a sum of the group. -/
  sum : ∀ h ∈ homes, ∃ name variants k, .sum name variants ∈ group ∧
    t.freshId fresh name = some h.sum ∧ variants[k]? = some h.record ∧ variants.length ≤ 256 ∧
    h.tag = UInt8.ofNat k
  /-- Every variant of a new sum has its home there. -/
  variant : ∀ name variants id, .sum name variants ∈ sums → t.freshId fresh name = some id →
    2 ≤ variants.length ∧ variants.length ≤ 256 ∧ ∀ k v, variants[k]? = some v →
      ⟨v, id, UInt8.ofNat k⟩ ∈ homes ∧ isFreshRecord group fresh v = true

theorem claimHomes_spec {done rest : List TypeDecl} {homes' : List Home}
    (hg : ∀ d ∈ rest, d ∈ group) (hh : Homes t group fresh homes done)
    (h : t.claimHomes group fresh homes rest = .ok homes') :
    Homes t group fresh homes' (done ++ rest) := by
  induction rest generalizing homes done with
  | nil =>
    cases h
    simpa using hh
  | cons d rest ih =>
    have hg' : ∀ d ∈ rest, d ∈ group := fun x hx => hg x (List.mem_cons_of_mem _ hx)
    have hassoc : done ++ d :: rest = done ++ [d] ++ rest := by simp
    rw [hassoc]
    cases d with
    | record name fields =>
      rw [claimHomes] at h
      refine ih hg' ⟨hh.nodup, hh.sum, ?_⟩ h
      intro name vs id hm
      rcases List.mem_append.1 hm with hm | hm
      · exact hh.variant name vs id hm
      · simp at hm
    | sum name variants =>
      rw [claimHomes] at h
      split at h
      · rename_i hnone
        refine ih hg' ⟨hh.nodup, hh.sum, ?_⟩ h
        intro name' vs id hm hid
        rcases List.mem_append.1 hm with hm | hm
        · exact hh.variant name' vs id hm hid
        · simp only [List.mem_singleton, TypeDecl.sum.injEq] at hm
          obtain ⟨rfl, rfl⟩ := hm
          rw [hnone] at hid
          cases hid
      · rename_i id hid
        split at h
        · cases h
        · rename_i h2
          split at h
          · cases h
          · rename_i h256
            split at h
            · rename_i homes₁ hc
              obtain ⟨hold, hnew, hall, hnd⟩ := claimVariants_spec hc
              refine ih hg' ⟨hnd hh.nodup, ?_, ?_⟩ h
              · intro x hx
                rcases hnew x hx with hx | ⟨k, hk, hs, ht⟩
                · exact hh.sum x hx
                · exact ⟨name, variants, k, hg _ (by simp), hs ▸ hid, hk, by omega, by simpa using ht⟩
              · intro name' vs id' hm hid'
                rcases List.mem_append.1 hm with hm | hm
                · obtain ⟨a, b, c⟩ := hh.variant name' vs id' hm hid'
                  exact ⟨a, b, fun k v hk => ⟨hold _ (c k v hk).1, (c k v hk).2⟩⟩
                · simp only [List.mem_singleton, TypeDecl.sum.injEq] at hm
                  obtain ⟨rfl, rfl⟩ := hm
                  rw [hid] at hid'
                  cases hid'
                  exact ⟨by omega, by omega, fun k v hk => by simpa using hall k v hk⟩
            · cases h

/-- Two lists can be related if everything in the first is related to something. -/
theorem exists_forall₂_iff {α β : Type} {R : α → β → Prop} {l : List α} :
    (∃ u, List.Forall₂ R l u) ↔ ∀ a ∈ l, ∃ b, R a b := by
  induction l with
  | nil => simp
  | cons a rest ih =>
    rw [List.forall_mem_cons, ← ih]
    constructor
    · rintro ⟨_, _ | ⟨h, hrest⟩⟩
      exact ⟨⟨_, h⟩, _, hrest⟩
    · rintro ⟨⟨b, h⟩, u, hrest⟩
      exact ⟨b :: u, .cons h hrest⟩

/-- What has a name of its own in a list is found by that name. -/
theorem find?_of_nodup {α : Type} {f : α → Ident} {l : List α} (hn : (l.map f).Nodup) {x : α}
    (hx : x ∈ l) : l.find? (f · == f x) = some x := by
  induction l with
  | nil => cases hx
  | cons y rest ih =>
    rw [List.map_cons, List.nodup_cons] at hn
    rcases List.mem_cons.1 hx with rfl | hx
    · simp
    · have hne : f y ≠ f x := fun e => hn.1 (List.mem_map.2 ⟨x, hx, e.symm⟩)
      rw [List.find?_cons_of_neg (by simpa using hne)]
      exact ih hn.2 hx

theorem Homes.find? {sums : List TypeDecl} (hh : Homes t group fresh homes sums) {x : Home} (hx : x ∈ homes) :
    homes.find? (·.record == x.record) = some x :=
  find?_of_nodup hh.nodup hx

/-! ### Descriptors -/

/-- Fields are resolved if their names differ, from each other and from those seen, and each type is a new
name or a registered one. -/
theorem resolveFields_eq_ok {record : Ident} {seen : Std.TreeSet Ident} {fields : List Field}
    {rest : List (Ident × Ident)} : t.resolveFields fresh record seen rest = .ok fields ↔
      ((∀ p ∈ rest, seen.contains p.1 = false) ∧ (rest.map Prod.fst).Nodup) ∧
      List.Forall₂ (fun p f => f.name = p.1 ∧ (t.freshId fresh p.2).or (t.lookup p.2) = some f.type)
        rest fields := by
  induction rest generalizing seen fields with
  | nil =>
    rw [resolveFields, Except.ok.injEq, List.forall₂_nil_left_iff]
    constructor
    · rintro rfl
      simp
    · rintro ⟨-, rfl⟩
      rfl
  | cons p rest ih =>
    obtain ⟨field, type⟩ := p
    rw [resolveFields]
    cases hseen : seen.contains field with
    | true => simp [hseen]
    | false =>
      have hnames : ((∀ p ∈ rest, (seen.insert field).contains p.1 = false) ∧ (rest.map Prod.fst).Nodup) ↔
          (∀ p ∈ rest, seen.contains p.1 = false) ∧ (field :: rest.map Prod.fst).Nodup := by
        simp only [Std.TreeSet.contains_insert, Bool.or_eq_false_iff, List.nodup_cons, List.mem_map]
        constructor
        · rintro ⟨h, hn⟩
          refine ⟨fun q hq => (h q hq).2, ?_, hn⟩
          rintro ⟨q, hq, rfl⟩
          simpa using (h q hq).1
        · rintro ⟨h, hne, hn⟩
          refine ⟨fun q hq => ⟨?_, h q hq⟩, hn⟩
          have : field ≠ q.1 := fun he => hne ⟨q, hq, he.symm⟩
          simpa using this
      simp only [Bool.false_eq_true, if_false, List.forall_mem_cons, hseen, true_and, List.map_cons,
        ← hnames, List.forall₂_cons_left_iff]
      cases hid : (t.freshId fresh type).or (t.lookup type) with
      | none => simp
      | some id =>
        simp only [map_eq_ok, ih, Option.some.injEq]
        constructor
        · rintro ⟨later, ⟨hn, hf⟩, rfl⟩
          exact ⟨hn, ⟨field, id⟩, later, ⟨rfl, rfl⟩, hf, rfl⟩
        · rintro ⟨hn, ⟨_, _⟩, later, ⟨rfl, rfl⟩, hf, rfl⟩
          exact ⟨later, ⟨hn, hf⟩, rfl⟩

theorem describe_spec {d : TypeDecl} {desc : TypeDescriptor} (h : t.describe fresh homes d = .ok desc) :
    (∃ name fields r, d = .record name fields ∧ desc = .record r ∧ r.name = name ∧
      t.resolveFields fresh name {} fields = .ok r.fields ∧
      r.home = (homes.find? (·.record == name)).map (·.sum) ∧
      r.tag = ((homes.find? (·.record == name)).map (·.tag)).getD 0 ∧
      r.layout = t.layoutOf r.fields) ∨
    ∃ name variants, d = .sum name variants ∧
      desc = .sum ⟨name, variants.filterMap (t.freshId fresh)⟩ := by
  cases d with
  | record name fields =>
    rw [describe] at h
    split at h
    · cases h
    · rename_i resolved hr
      cases h
      exact .inl ⟨name, fields, _, rfl, rfl, rfl, hr, rfl, rfl, rfl⟩
  | sum name variants =>
    cases h
    exact .inr ⟨name, variants, rfl, rfl⟩

theorem name_of_describe {d : TypeDecl} {desc : TypeDescriptor}
    (h : t.describe fresh homes d = .ok desc) : desc.name = d.name := by
  rcases describe_spec h with ⟨name, fields, r, rfl, rfl, hn, -⟩ | ⟨name, variants, rfl, rfl⟩
  · exact hn
  · rfl

theorem describeFresh_spec {staged : List (TypeDecl × TypeDescriptor)}
    (h : t.describeFresh fresh homes group = .ok staged) :
    staged.map Prod.fst = group.filter (fun d => d.name ∈ fresh) ∧
      ∀ p ∈ staged, t.describe fresh homes p.1 = .ok p.2 := by
  induction group generalizing staged with
  | nil =>
    cases h
    simp
  | cons d rest ih =>
    rw [describeFresh] at h
    split at h
    · rename_i hmem
      cases hd : t.describe fresh homes d with
      | error e => rw [hd] at h; cases h
      | ok desc =>
        rw [hd] at h
        cases hr : t.describeFresh fresh homes rest with
        | error e => rw [hr] at h; cases h
        | ok later =>
          rw [hr] at h
          cases h
          obtain ⟨hm, hp⟩ := ih hr
          refine ⟨by simp [hmem, hm], ?_⟩
          intro p hp'
          rcases List.mem_cons.1 hp' with rfl | hp'
          · exact hd
          · exact hp p hp'
    · rename_i hmem
      obtain ⟨hm, hp⟩ := ih h
      exact ⟨by simp [hmem, hm], hp⟩

/-! ### The group in the table -/

/-- A group whose descriptors are ready to be registered. -/
structure Staged (t : TypeTable) (group : List TypeDecl) (fresh : List Ident) (homes : List Home)
    (staged : List (TypeDecl × TypeDescriptor)) : Prop where
  nodup : fresh.Nodup
  free : ∀ n ∈ fresh, t.lookup n = none ∧ scalarWidth n = none
  claimed : Homes t group fresh homes group
  names : staged.map (·.1.name) = fresh
  all : ∀ d ∈ group, d.name ∈ fresh → d ∈ staged.map Prod.fst
  mem : ∀ p ∈ staged, p.1 ∈ group
  described : ∀ p ∈ staged, t.describe fresh homes p.1 = .ok p.2

namespace Staged

variable {staged : List (TypeDecl × TypeDescriptor)} (hs : Staged t group fresh homes staged)

theorem get?_register :
    (t.register staged).get? id =
      if id.index < t.size then t.get? id else (staged[id.index - t.size]?).map Prod.snd := by
  unfold register get? size
  rw [Array.getElem?_append]
  simp

theorem grows : t.Grows (t.register staged) where
  get? {id d} h := by
    rw [get?_register, if_pos (get?_lt h)]
    exact h

include hs

/-- The number of a new name is that of its descriptor. -/
theorem get?_freshId (h : t.freshId fresh n = some id) :
    ∃ p ∈ staged, p.1.name = n ∧ (t.register staged).get? id = some p.2 := by
  obtain ⟨hle, hn⟩ := (freshId_eq_some hs.nodup).1 h
  rw [← hs.names, List.getElem?_map] at hn
  obtain ⟨p, hp, hname⟩ := Option.map_eq_some_iff.1 hn
  refine ⟨p, List.mem_of_getElem? hp, hname, ?_⟩
  rw [get?_register, if_neg (by omega), hp]
  rfl

theorem eq_of_name {p q : TypeDecl × TypeDescriptor} (hp : p ∈ staged) (hq : q ∈ staged)
    (h : p.1.name = q.1.name) : p = q := by
  have hnd := hs.nodup
  rw [← hs.names] at hnd
  exact List.inj_on_of_nodup_map hnd hp hq h

theorem freshId_of_mem {p : TypeDecl × TypeDescriptor} (hp : p ∈ staged) :
    ∃ id, t.freshId fresh p.1.name = some id ∧ (t.register staged).get? id = some p.2 := by
  obtain ⟨i, hi⟩ := List.getElem?_of_mem hp
  have hid : t.freshId fresh p.1.name = some ⟨t.size + i⟩ := by
    refine (freshId_eq_some hs.nodup).2 ⟨by simp, ?_⟩
    rw [← hs.names, List.getElem?_map]
    simp [hi]
  obtain ⟨q, hq, hn, hg⟩ := hs.get?_freshId hid
  rw [hs.eq_of_name hq hp hn] at hg
  exact ⟨_, hid, hg⟩

/-- A type of the new table is one of the old table or described by the group. -/
theorem get?_cases {d : TypeDescriptor} (h : (t.register staged).get? id = some d) :
    t.get? id = some d ∨ ∃ p ∈ staged, t.freshId fresh p.1.name = some id ∧ d = p.2 := by
  rw [get?_register] at h
  split at h
  · exact .inl h
  · rename_i hge
    obtain ⟨p, hp, rfl⟩ := Option.map_eq_some_iff.1 h
    refine .inr ⟨p, List.mem_of_getElem? hp, (freshId_eq_some hs.nodup).2 ⟨by omega, ?_⟩, rfl⟩
    rw [← hs.names, List.getElem?_map, hp]
    rfl

theorem name_eq {p : TypeDecl × TypeDescriptor} (hp : p ∈ staged) : p.2.name = p.1.name :=
  name_of_describe (hs.described p hp)

theorem name_mem {p : TypeDecl × TypeDescriptor} (hp : p ∈ staged) : p.1.name ∈ fresh := by
  rw [← hs.names]
  exact List.mem_map.2 ⟨p, hp, rfl⟩

theorem not_scalar {p : TypeDecl × TypeDescriptor} (hp : p ∈ staged) (bits : Nat) :
    p.2 ≠ .scalar bits := by
  rcases describe_spec (hs.described p hp) with ⟨_, _, _, _, h, _⟩ | ⟨_, _, _, h⟩
  all_goals rw [h]; simp

/-- The number of a new name is free in the old table. -/
theorem get?_freshId_old (h : t.freshId fresh n = some id) : t.get? id = none := by
  obtain ⟨hle, -⟩ := (freshId_eq_some hs.nodup).1 h
  unfold get?
  rw [Array.getElem?_eq_none]
  exact hle

theorem scalarBits?_eq {f : Field}
    (h : ∃ n, (t.freshId fresh n).or (t.lookup n) = some f.type) :
    (t.register staged).scalarBits? f.type = t.scalarBits? f.type := by
  obtain ⟨n, h⟩ := h
  unfold TypeTable.scalarBits?
  cases hid : t.freshId fresh n with
  | none =>
    rw [hid, Option.none_or] at h
    obtain ⟨d, hd, -⟩ := get?_of_lookup h
    rw [hd, grows.get? hd]
  | some id =>
    rw [hid, Option.some_or] at h
    cases h
    obtain ⟨p, hp, -, hg⟩ := hs.get?_freshId hid
    rw [hs.get?_freshId_old hid, hg]
    have := hs.not_scalar hp
    cases hd : p.2 with
    | scalar bits => exact absurd hd (this bits)
    | record r => rfl
    | sum s => rfl

theorem record_of_home {x : Home} (hx : x ∈ homes) (hf : isFreshRecord group fresh x.record = true) :
    ∃ id r, t.freshId fresh x.record = some id ∧ (t.register staged).get? id = some (.record r) ∧
      r.home = some x.sum ∧ r.tag = x.tag := by
  obtain ⟨⟨fields, hm⟩, hfresh⟩ := isFreshRecord_iff.1 hf
  obtain ⟨p, hp, he⟩ := List.mem_map.1 (hs.all _ hm hfresh)
  obtain ⟨id, hid, hg⟩ := hs.freshId_of_mem hp
  rcases describe_spec (hs.described p hp) with ⟨name, fs, r, h1, h2, -, -, hh, ht, -⟩ | ⟨_, _, h1, -⟩
  · rw [he] at h1
    cases h1
    rw [he] at hid
    have hfind := hs.claimed.find? hx
    refine ⟨id, r, hid, h2 ▸ hg, ?_, ?_⟩
    · rw [hh, hfind]; rfl
    · rw [ht, hfind]; rfl
  · rw [he] at h1
    cases h1

theorem get?_filterMap_freshId {variants : List Ident} {id : TypeId}
    (h : ∀ (k : Nat) v, variants[k]? = some v → isFreshRecord group fresh v = true) (k : Nat) :
    (variants.filterMap (t.freshId fresh))[k]? = some id ↔
      ∃ v, variants[k]? = some v ∧ t.freshId fresh v = some id := by
  induction variants generalizing k with
  | nil => simp
  | cons v rest ih =>
    obtain ⟨-, hm⟩ := isFreshRecord_iff.1 (h 0 v rfl)
    rw [← hs.names] at hm
    obtain ⟨p, hp, rfl⟩ := List.mem_map.1 hm
    obtain ⟨id', hid, -⟩ := hs.freshId_of_mem hp
    rw [List.filterMap_cons_some hid]
    cases k with
    | zero => simp [hid]
    | succ k =>
      rw [List.getElem?_cons_succ, List.getElem?_cons_succ]
      exact ih (fun k v hk => h (k + 1) v hk) k

theorem length_filterMap_freshId {variants : List Ident}
    (h : ∀ (k : Nat) v, variants[k]? = some v → isFreshRecord group fresh v = true) :
    (variants.filterMap (t.freshId fresh)).length = variants.length := by
  induction variants with
  | nil => rfl
  | cons v rest ih =>
    obtain ⟨-, hm⟩ := isFreshRecord_iff.1 (h 0 v rfl)
    rw [← hs.names] at hm
    obtain ⟨p, hp, rfl⟩ := List.mem_map.1 hm
    obtain ⟨id', hid, -⟩ := hs.freshId_of_mem hp
    rw [List.filterMap_cons_some hid, List.length_cons, List.length_cons,
      ih fun k v hk => h (k + 1) v hk]

theorem record?_cases {r : RecordType} (h : (t.register staged).record? id = some r) :
    t.record? id = some r ∨ ∃ p ∈ staged, t.freshId fresh p.1.name = some id ∧ p.2 = .record r := by
  rcases hs.get?_cases (record?_eq_some.1 h) with h | ⟨p, hp, hid, he⟩
  · exact .inl (record?_eq_some.2 h)
  · exact .inr ⟨p, hp, hid, he.symm⟩

theorem sum?_cases {s : SumType} (h : (t.register staged).sum? id = some s) :
    t.sum? id = some s ∨ ∃ name variants, .sum name variants ∈ group ∧
      t.freshId fresh name = some id ∧ s.variants = variants.filterMap (t.freshId fresh) := by
  rcases hs.get?_cases (sum?_eq_some.1 h) with h | ⟨p, hp, hid, he⟩
  · exact .inl (sum?_eq_some.2 h)
  · rcases describe_spec (hs.described p hp) with ⟨_, _, _, _, h2, _⟩ | ⟨name, variants, h1, h2⟩
    · rw [h2] at he
      cases he
    · rw [h2] at he
      cases he
      have hm := hs.mem p hp
      rw [h1] at hid hm
      exact .inr ⟨name, variants, hm, hid, rfl⟩

theorem record_cases {p : TypeDecl × TypeDescriptor} (hp : p ∈ staged) {r : RecordType}
    (he : p.2 = .record r) :
    (∀ f ∈ r.fields, ∃ n, (t.freshId fresh n).or (t.lookup n) = some f.type) ∧
      r.home = (homes.find? (·.record == p.1.name)).map (·.sum) ∧
      r.tag = ((homes.find? (·.record == p.1.name)).map (·.tag)).getD 0 ∧
      r.layout = t.layoutOf r.fields := by
  rcases describe_spec (hs.described p hp) with ⟨name, fs, r', h1, h2, -, hf, hh, ht, hl⟩ | ⟨_, _, -, h2⟩
  · rw [h2] at he
    cases he
    rw [h1]
    refine ⟨fun f hm => ?_, hh, ht, hl⟩
    obtain ⟨p, -, hp⟩ := exists_forall₂_iff.1 ⟨_, (resolveFields_eq_ok.1 hf).2.flip⟩ f hm
    exact ⟨p.2, hp⟩
  · rw [h2] at he
    cases he

theorem sum_of_home {p : TypeDecl × TypeDescriptor} (hp : p ∈ staged) {r : RecordType} (he : p.2 = .record r)
    (hid : t.freshId fresh p.1.name = some id) {S : TypeId} (hh : r.home = some S) :
    ∃ s, (t.register staged).sum? S = some s ∧ s.variants[r.tag.toNat]? = some id := by
  obtain ⟨-, hhome, htag, -⟩ := hs.record_cases hp he
  rw [hh] at hhome
  obtain ⟨x, hx, hxs⟩ := Option.map_eq_some_iff.1 hhome.symm
  rw [hx] at htag
  have hrec : x.record = p.1.name := by simpa using List.find?_some hx
  obtain ⟨name, variants, k, hm, hidS, hk, hlen, ht⟩ :=
    hs.claimed.sum x (List.mem_of_find?_eq_some hx)
  obtain ⟨-, -, hall⟩ := hs.claimed.variant name variants x.sum hm hidS
  rw [hxs] at hidS
  obtain ⟨q, hq, hqn, hqg⟩ := hs.get?_freshId hidS
  have hname : (TypeDecl.sum name variants).name ∈ fresh := by
    rw [TypeDecl.name, ← hqn]
    exact hs.name_mem hq
  obtain ⟨q', hq', hqe⟩ := List.mem_map.1 (hs.all _ hm hname)
  obtain rfl : q' = q := hs.eq_of_name hq' hq (by rw [hqe, hqn]; rfl)
  rcases describe_spec (hs.described q' hq') with ⟨_, _, _, h1, -⟩ | ⟨_, _, h1, h2⟩
  · rw [hqe] at h1
    cases h1
  · rw [hqe] at h1
    cases h1
    rw [h2] at hqg
    refine ⟨_, sum?_eq_some.2 hqg, ?_⟩
    have hlt : k < 256 := Nat.lt_of_lt_of_le (List.getElem?_eq_some_iff.1 hk).1 hlen
    have hkt : r.tag.toNat = k := by
      rw [htag]
      show x.tag.toNat = k
      rw [ht, UInt8.toNat_ofNat', Nat.mod_eq_of_lt hlt]
    rw [hkt]
    exact (hs.get?_filterMap_freshId (fun k v h => (hall k v h).2) k).2
      ⟨_, hk, by rw [hrec]; exact hid⟩

theorem wellFormed (hw : t.WellFormed) : (t.register staged).WellFormed where
  lookup_name := by
    intro id d h
    refine lookup_of_get? h fun id' d' h' hn => ?_
    rcases hs.get?_cases h with h | ⟨p, hp, hid, rfl⟩ <;>
      rcases hs.get?_cases h' with h' | ⟨q, hq, hid', rfl⟩
    · exact hw.name_inj h h' hn
    · have := (hs.free _ (hs.name_mem hq)).1
      rw [← hs.name_eq hq, hn, hw.lookup_name h] at this
      cases this
    · have := (hs.free _ (hs.name_mem hp)).1
      rw [← hs.name_eq hp, ← hn, hw.lookup_name h'] at this
      cases this
    · rw [hs.name_eq hp, hs.name_eq hq] at hn
      rw [hn, hid] at hid'
      exact (Option.some.inj hid').symm
  width := by
    intro id bits h
    rcases hs.get?_cases h with h | ⟨p, hp, -, he⟩
    · exact hw.width h
    · exact absurd he.symm (hs.not_scalar hp bits)
  fields := by
    have hg : t.Grows (t.register staged) := grows
    intro id r hr f hf
    rcases hs.record?_cases hr with hr | ⟨p, hp, -, he⟩
    · obtain ⟨d, hd⟩ := Option.isSome_iff_exists.1 (hw.fields hr f hf)
      rw [hg.get? hd]
      rfl
    · obtain ⟨n, hn⟩ := (hs.record_cases hp he).1 f hf
      cases hid : t.freshId fresh n with
      | none =>
        rw [hid, Option.none_or] at hn
        obtain ⟨d, hd, -⟩ := get?_of_lookup hn
        rw [hg.get? hd]
        rfl
      | some id =>
        rw [hid, Option.some_or] at hn
        cases hn
        obtain ⟨q, -, -, hq⟩ := hs.get?_freshId hid
        rw [hq]
        rfl
  home := by
    have hg : t.Grows (t.register staged) := grows
    intro id r S hr hh
    rcases hs.record?_cases hr with hr | ⟨p, hp, hid, he⟩
    · obtain ⟨s, hsum, hv⟩ := hw.home hr hh
      exact ⟨s, hg.sum? hsum, hv⟩
    · exact hs.sum_of_home hp he hid hh
  variant := by
    have hg : t.Grows (t.register staged) := grows
    intro S s i v hsum hv
    rcases hs.sum?_cases hsum with hsum | ⟨name, variants, hm, hid, he⟩
    · obtain ⟨r, hr, hh, ht⟩ := hw.variant hsum hv
      exact ⟨r, hg.record? hr, hh, ht⟩
    · obtain ⟨-, hlen, hall⟩ := hs.claimed.variant name variants S hm hid
      rw [he] at hv
      obtain ⟨n, hn, hvn⟩ := (hs.get?_filterMap_freshId (fun k v h => (hall k v h).2) i).1 hv
      obtain ⟨hx, hf⟩ := hall i n hn
      obtain ⟨id', r, hid', hr, hh, ht⟩ := hs.record_of_home hx hf
      rw [hvn] at hid'
      cases hid'
      have hlt : i < 256 := Nat.lt_of_lt_of_le (List.getElem?_eq_some_iff.1 hn).1 hlen
      exact ⟨r, record?_eq_some.2 hr, hh, by rw [ht, UInt8.toNat_ofNat', Nat.mod_eq_of_lt hlt]⟩
  variants := by
    intro S s hsum
    rcases hs.sum?_cases hsum with hsum | ⟨name, variants, hm, hid, he⟩
    · exact hw.variants hsum
    · obtain ⟨hlen, -, hall⟩ := hs.claimed.variant name variants S hm hid
      rw [he, hs.length_filterMap_freshId fun k v h => (hall k v h).2]
      exact hlen
  tag := by
    intro id r hr hh
    rcases hs.record?_cases hr with hr | ⟨p, hp, hid, he⟩
    · exact hw.tag hr hh
    · obtain ⟨-, hhome, htag, -⟩ := hs.record_cases hp he
      rw [hh] at hhome
      rw [htag, Option.map_eq_none_iff.1 hhome.symm]
      rfl
  layout := by
    have hg : t.Grows (t.register staged) := grows
    intro id r hr
    rcases hs.record?_cases hr with hr | ⟨p, hp, hid, he⟩
    · rw [hw.layout hr, hg.layoutOf_eq (hw.fields hr)]
    · obtain ⟨hf, -, -, hl⟩ := hs.record_cases hp he
      rw [hl, layoutOf_congr fun f hm => hs.scalarBits?_eq (hf f hm)]
  named := by
    intro id d h hnot
    rcases hs.get?_cases h with h | ⟨p, hp, hid, rfl⟩
    · obtain ⟨hsw, decl, hm, hn⟩ := hw.named h hnot
      exact ⟨hsw, decl, List.mem_append_left _ hm, hn⟩
    · rw [hs.name_eq hp]
      exact ⟨(hs.free _ (hs.name_mem hp)).2, p.1,
        List.mem_append_right _ (List.mem_map.2 ⟨p, hp, rfl⟩), rfl⟩

end Staged

theorem mem_newNames_iff : n ∈ (t.newOf group).map (·.name) ↔
    (∃ d ∈ group, d.name = n) ∧ t.declaration? n = none := by
  simp only [newOf, List.mem_map, List.mem_filter, Option.isNone_iff_eq_none]
  constructor
  · rintro ⟨d, ⟨hd, hnone⟩, rfl⟩
    exact ⟨⟨d, hd, rfl⟩, hnone⟩
  · rintro ⟨⟨d, hd, rfl⟩, hnone⟩
    exact ⟨d, ⟨hd, hnone⟩, rfl⟩

theorem WellFormed.staged (hw : t.WellFormed) {t₁ : TypeTable}
    {staged : List (TypeDecl × TypeDescriptor)} (hf : t.freshNames [] group = .ok fresh)
    (ht : t.withFieldScalars fresh group = t₁) (hh : t₁.claimHomes group fresh [] group = .ok homes)
    (hs : t₁.describeFresh fresh homes group = .ok staged) :
    t₁.Staged group fresh homes staged ∧ staged.map Prod.fst = t.newOf group := by
  obtain ⟨hnames, hfresh, hnd⟩ := (freshNames_eq_ok List.nodup_nil).1 hf
  rw [List.nil_append] at hfresh
  subst hfresh ht
  obtain ⟨hw₁, hg₁, hd₁⟩ := hw.withFieldScalars ((t.newOf group).map (·.name)) group
  obtain ⟨hfst, hdesc⟩ := describeFresh_spec hs
  have hnew : group.filter (fun d => d.name ∈ (t.newOf group).map (·.name)) = t.newOf group := by
    refine List.filter_congr fun d hd => ?_
    rw [Bool.eq_iff_iff, decide_eq_true_iff, Option.isNone_iff_eq_none, mem_newNames_iff]
    exact ⟨fun h => h.2, fun h => ⟨⟨d, hd, rfl⟩, h⟩⟩
  rw [hnew] at hfst
  refine ⟨⟨hnd, ?_, ?_, ?_, ?_, ?_, hdesc⟩, hfst⟩
  · intro n hn
    obtain ⟨⟨d, hd, rfl⟩, hdecl⟩ := mem_newNames_iff.1 hn
    refine ⟨hw₁.lookup_fresh (hnames d hd).1 ?_, (hnames d hd).1⟩
    unfold declaration?
    rw [hd₁]
    exact hdecl
  · have h0 : Homes (t.withFieldScalars ((t.newOf group).map (·.name)) group) group
        ((t.newOf group).map (·.name)) [] [] := ⟨by simp, by simp, by simp⟩
    exact claimHomes_spec (fun d hd => hd) h0 hh
  · rw [← hfst, List.map_map]
    rfl
  · intro d hd hm
    rw [hfst]
    exact List.mem_filter.2 ⟨hd, Option.isNone_iff_eq_none.2 (mem_newNames_iff.1 hm).2⟩
  · intro p hp
    have : p.1 ∈ staged.map Prod.fst := List.mem_map.2 ⟨p, hp, rfl⟩
    rw [hfst] at this
    exact (List.mem_filter.1 this).1

/-- A group that is registered has been staged. -/
theorem WellFormed.staged_of_declare (hw : t.WellFormed) {ids : List TypeId}
    (h : t.declare group = .ok (ids, t')) : ∃ fresh t₁ homes staged,
      t.freshNames [] group = .ok fresh ∧ t.withFieldScalars fresh group = t₁ ∧
      t₁.Staged group fresh homes staged ∧ staged.map Prod.fst = t.newOf group ∧
      t' = t₁.register staged ∧ t'.idsOf group = .ok ids := by
  unfold TypeTable.declare at h
  obtain ⟨fresh, hf, h⟩ := bind_eq_ok.1 h
  obtain ⟨homes, hh, h⟩ := bind_eq_ok.1 h
  obtain ⟨staged, hs, h⟩ := bind_eq_ok.1 h
  obtain ⟨ids', hids, h⟩ := bind_eq_ok.1 h
  cases h
  obtain ⟨hst, hfst⟩ := hw.staged hf rfl hh hs
  exact ⟨fresh, _, homes, staged, hf, rfl, hst, hfst, rfl, hids⟩

/-- A table with one more group of declarations is well-formed; it has all types it had before, and
what it has more are scalars and types that the group names. -/
theorem WellFormed.declare (hw : t.WellFormed) {ids : List TypeId}
    (h : t.declare group = .ok (ids, t')) : t'.WellFormed ∧ t.Grows t' ∧
      ∀ {id d}, t'.get? id = some d → t.get? id = some d ∨ (∃ bits, d = .scalar bits) ∨
        ∃ decl ∈ group, decl.name = d.name := by
  obtain ⟨fresh, _, homes, staged, -, rfl, hst, -, rfl, -⟩ := hw.staged_of_declare h
  obtain ⟨hw₁, hg₁, -⟩ := hw.withFieldScalars fresh group
  refine ⟨hst.wellFormed hw₁, hg₁.toGrows.trans Staged.grows, fun {id d} hd => ?_⟩
  rcases hst.get?_cases hd with hd | ⟨p, hp, -, rfl⟩
  · exact (hg₁.scalars hd).imp_right .inl
  · exact .inr (.inr ⟨p.1, hst.mem p hp, (hst.name_eq hp).symm⟩)

end ShapeCompiler.TypeTable
