import ShapeCompiler.Proofs.Typing.Rules
import ShapeCompiler.Typing.MatchPlan

/-!
Match plans pick the first arm that matches.

Main statement: for a value of the static type of the subject, the arm that the plan picks by the
compiled form of the value is the arm whose pattern is the first to match (`Fits.plan_pick`).
-/

namespace ShapeCompiler

open TypeTable

def MatchPlan.pick (p : MatchPlan) (c : Compiled) : Option Nat :=
  match p.dispatch with
  | .tags _ table => ((c.tag?.bind fun tag => table[tag.toNat]?).bind id).or p.default
  | .scalars cases => (c.scalar?.bind fun n => (cases.find? (·.1 == n)).map Prod.snd).or p.default
  | .direct => p.default

variable {c : Typing} {t : TypeTable} {i : Interpreter} {s : StaticType} {v : Value}
  {cv : Compiled} {id rid type : TypeId} {r : RecordType} {name : Ident} {plan : MatchPlan}
  {variants : List TypeId} {pats : List Pattern} {index : Nat} {reachable : List Nat}

/-! ### The interpreter's choice -/

theorem Interpreter.selectFrom_some {k : Nat} {bound : List (Ident × Value)}
    (h : i.selectFrom v index pats = .ok (some (k, bound))) :
    ∃ j p, k = index + j ∧ pats[j]? = some p ∧ i.bindings p v = .ok (some bound) := by
  induction pats generalizing index with
  | nil => cases h
  | cons p rest ih =>
    rw [Interpreter.selectFrom] at h
    split at h
    · cases h
    · rename_i hb
      cases h
      exact ⟨0, p, rfl, rfl, hb⟩
    · obtain ⟨j, q, rfl, hq, hb⟩ := ih h
      exact ⟨j + 1, q, by omega, hq, hb⟩

theorem Interpreter.bindings_catchAll {p : Pattern} (h₁ : p.isCtor = false) (h₂ : p.isLit = false) :
    ∃ bound, i.bindings p v = .ok (some bound) := by
  cases p with
  | ctor name binders => cases h₁
  | lit n => cases h₂
  | bind name => exact ⟨_, rfl⟩
  | wildcard => exact ⟨_, rfl⟩

theorem Interpreter.bindings_sentinel {p : Pattern} (h : (p.isCtor || p.isLit) = true) :
    i.bindings p .incomplete = .ok none := by
  cases p with
  | ctor name binders => rfl
  | lit n => rfl
  | bind name => cases h
  | wildcard => cases h

/-! ### Tags -/

theorem TypeTable.Encodes.tag? {vs : List Value} (hw : t.WellFormed)
    (h : t.Encodes (.record name vs) cv) (hr : t.recordNamed? name = some (rid, r)) :
    cv.tag? = some r.tag := by
  cases h with
  | packed hr' hl hb =>
    obtain ⟨rfl, rfl⟩ : rid = _ ∧ r = _ := by simpa using hr.symm.trans hr'
    rw [Compiled.tag?, toUInt8_pack _ _ (hw.packed (recordNamed?_eq_some.1 hr).2 hl).1]
  | boxed hr' hl hf =>
    obtain ⟨rfl, rfl⟩ : rid = _ ∧ r = _ := by simpa using hr.symm.trans hr'
    rfl

namespace Typing

/-- Every variant that constructor patterns choose from is a record. -/
theorem record_of_variantsOf (hw : c.types.WellFormed) (h : c.variantsOf id = .ok (type, variants)) :
    ∀ x ∈ variants, ∃ r, c.types.record? x = some r := by
  intro x hx
  obtain ⟨k, hk⟩ := List.getElem?_of_mem hx
  unfold variantsOf at h
  split at h
  · rename_i s hs
    cases h
    obtain ⟨r, hr, -⟩ := hw.variant (sum?_eq_some.2 hs) hk
    exact ⟨r, hr⟩
  · rename_i r hr
    split at h
    · rename_i home hh
      cases h
      obtain ⟨s, hs⟩ := hw.sum_of_home (record?_eq_some.2 hr) hh
      rw [hs] at hk
      obtain ⟨r', hr', -⟩ := hw.variant hs hk
      exact ⟨r', hr'⟩
    · cases h
      obtain rfl := List.mem_singleton.1 hx
      exact ⟨r, record?_eq_some.2 hr⟩
  · cases h

theorem variantsOf_ne_nil (hw : c.types.WellFormed) (h : c.variantsOf id = .ok (type, variants)) :
    0 < variants.length := by
  unfold variantsOf at h
  split at h
  · rename_i s hs
    cases h
    exact Nat.lt_of_lt_of_le (by decide) (hw.variants (sum?_eq_some.2 hs))
  · rename_i r hr
    split at h
    · rename_i home hh
      cases h
      obtain ⟨s, hs⟩ := hw.sum_of_home (record?_eq_some.2 hr) hh
      rw [hs]
      exact Nat.lt_of_lt_of_le (by decide) (hw.variants hs)
    · cases h
      exact Nat.one_pos
  · cases h

theorem Fits.position (hc : c.Fits t) (h : c.variantsOf id = .ok (type, variants))
    (hr : t.recordNamed? name = some (rid, r)) (hid : rid = id ∨ t.widen rid = id) (k : Nat) :
    variants[k]? = some rid ↔ k = r.tag.toNat := by
  have hrec := (recordNamed?_eq_some.1 hr).2
  -- the variants of a sum stand where their tags say
  have hsum : ∀ {S s}, c.types.sum? S = some s → r.home = some S →
      (s.variants[k]? = some rid ↔ k = r.tag.toNat) := by
    intro S s hs hh
    constructor
    · intro hk
      obtain ⟨r', hr', -, ht⟩ := hc.target.variant (hc.grows.sum? hs) hk
      rw [hrec] at hr'
      cases hr'
      exact ht.symm
    · rintro rfl
      obtain ⟨s', hs', hv⟩ := hc.target.home hrec hh
      rw [hc.grows.sum? hs] at hs'
      cases hs'
      exact hv
  have hhome : rid ≠ id → r.home = some id := by
    intro hne
    have hwid := hid.resolve_left hne
    cases hh : r.home with
    | none => exact absurd ((widen_of_no_home hrec hh).symm.trans hwid) hne
    | some S => rw [← hwid, widen_of_home hrec hh]
  unfold variantsOf at h
  split at h
  · rename_i s hs
    cases h
    refine hsum (sum?_eq_some.2 hs) (hhome ?_)
    rintro rfl
    have := hc.grows.get? hs
    rw [record?_eq_some.1 hrec] at this
    cases this
  · rename_i r' hr'
    have hr'' := hc.grows.record? (record?_eq_some.2 hr')
    obtain rfl := hc.target.eq_of_isA hr'' hid
    rw [hrec] at hr''
    cases hr''
    split at h
    · rename_i home hh
      cases h
      obtain ⟨s, hs⟩ := hc.wellFormed.sum_of_home (record?_eq_some.2 hr') hh
      rw [hs]
      exact hsum hs hh
    · rename_i hh
      cases h
      rw [hc.target.tag hrec hh]
      cases k <;> simp
  · cases h

theorem of_tagOf {tag : Nat} (h : c.tagOf type variants name = .ok tag) :
    ∃ x, c.types.lookup name = some x ∧ variants[tag]? = some x := by
  unfold tagOf at h
  split at h
  · rename_i k hk
    cases h
    obtain ⟨x, hx, hf⟩ := Option.bind_eq_some_iff.1 hk
    obtain ⟨hlt, hp, -⟩ := List.findIdx?_eq_some_iff_getElem.1 hf
    exact ⟨x, hx, by rw [List.getElem?_eq_getElem hlt]; simpa using hp⟩
  · cases h

/-- What planning by tags leaves: a table as long as the given one, in which every arm and also the
default is reachable, and every reachable constructor pattern names a variant. -/
theorem planTags_spec {table : List (Option Nat)} (hp : ∀ p ∈ pats, p.isLit = false)
    (ht : ∀ k, some k ∈ table → k ∈ reachable)
    (h : c.planTags type variants index table reachable pats = .ok plan) :
    ∃ table', plan.dispatch = .tags type table' ∧ table'.length = table.length ∧
      (∀ k, some k ∈ table' → k ∈ plan.reachable) ∧ (∀ k, plan.default = some k → k ∈ plan.reachable) ∧
      ∀ k ∈ plan.reachable, k ∈ reachable ∨ ∃ j p, k = index + j ∧ pats[j]? = some p ∧
        ∀ name bs, p = .ctor name bs → ∃ tag, c.tagOf type variants name = .ok tag := by
  induction pats generalizing index table reachable with
  | nil =>
    cases h
    exact ⟨table, rfl, rfl, ht, by simp, fun k hk => .inl hk⟩
  | cons p rest ih =>
    have hrest : ∀ q ∈ rest, q.isLit = false := fun q hq => hp q (List.mem_cons_of_mem _ hq)
    have catchAll : ∀ {q : Pattern}, p = q → q.isCtor = false →
        plan = ⟨.tags type table, reachable ++ [index], some index⟩ →
        ∃ table', plan.dispatch = .tags type table' ∧ table'.length = table.length ∧
          (∀ k, some k ∈ table' → k ∈ plan.reachable) ∧
          (∀ k, plan.default = some k → k ∈ plan.reachable) ∧
          ∀ k ∈ plan.reachable, k ∈ reachable ∨ ∃ j q, k = index + j ∧ (p :: rest)[j]? = some q ∧
            ∀ name bs, q = .ctor name bs → ∃ tag, c.tagOf type variants name = .ok tag := by
      rintro q rfl hq rfl
      refine ⟨table, rfl, rfl, fun k hk => List.mem_append_left _ (ht k hk), by simp, ?_⟩
      intro k hk
      rcases List.mem_append.1 hk with hk | hk
      · exact .inl hk
      · obtain rfl := List.mem_singleton.1 hk
        refine .inr ⟨0, p, rfl, rfl, ?_⟩
        rintro name bs rfl
        cases hq
    cases p with
    | lit n => simpa [Pattern.isLit] using hp (.lit n) (by simp)
    | bind name => cases h; exact catchAll rfl rfl rfl
    | wildcard => cases h; exact catchAll rfl rfl rfl
    | ctor name binders =>
      rw [planTags] at h
      obtain ⟨tag, htag, h⟩ := bind_eq_ok.1 h
      have later : ∀ {k : Nat}, (∃ j q, k = index + 1 + j ∧ rest[j]? = some q ∧
          ∀ name bs, q = .ctor name bs → ∃ tag, c.tagOf type variants name = .ok tag) →
          ∃ j q, k = index + j ∧ (Pattern.ctor name binders :: rest)[j]? = some q ∧
            ∀ name bs, q = .ctor name bs → ∃ tag, c.tagOf type variants name = .ok tag := by
        rintro k ⟨j, q, hj, hq, hb⟩
        exact ⟨j + 1, q, by omega, hq, hb⟩
      simp only at h
      split at h
      · cases h
      · split at h
        · obtain ⟨table', hd, hl, hm, hdef, hk⟩ := ih hrest (by
            intro k hk
            rcases List.mem_or_eq_of_mem_set hk with hk | hk
            · exact List.mem_append_left _ (ht k hk)
            · cases hk; simp) h
          refine ⟨table', hd, by rw [hl, List.length_set], hm, hdef, ?_⟩
          intro k hkr
          rcases hk k hkr with hk | hk
          · rcases List.mem_append.1 hk with hk | hk
            · exact .inl hk
            · obtain rfl := List.mem_singleton.1 hk
              refine .inr ⟨0, _, rfl, rfl, ?_⟩
              rintro n bs he
              cases he
              exact ⟨tag, htag⟩
          · exact .inr (later hk)
        · obtain ⟨table', hd, hl, hm, hdef, hk⟩ := ih hrest ht h
          exact ⟨table', hd, hl, hm, hdef, fun k hkr => (hk k hkr).imp_right later⟩

/-- Without a tag in hand a plan by tags picks the first catch-all, as the interpreter does. -/
theorem planTags_sentinel {table : List (Option Nat)} (hp : ∀ p ∈ pats, p.isLit = false)
    (h : c.planTags type variants index table reachable pats = .ok plan) :
    ∃ res, i.selectFrom .incomplete index pats = .ok res ∧ plan.default = res.map Prod.fst := by
  induction pats generalizing index table reachable with
  | nil => cases h; exact ⟨none, rfl, rfl⟩
  | cons p rest ih =>
    have hrest : ∀ q ∈ rest, q.isLit = false := fun q hq => hp q (List.mem_cons_of_mem _ hq)
    rw [Interpreter.selectFrom]
    cases p with
    | lit n => simpa [Pattern.isLit] using hp (.lit n) (by simp)
    | bind name => cases h; exact ⟨_, rfl, rfl⟩
    | wildcard => cases h; exact ⟨_, rfl, rfl⟩
    | ctor name binders =>
      rw [planTags] at h
      obtain ⟨tag, -, h⟩ := bind_eq_ok.1 h
      rw [Interpreter.bindings_sentinel rfl]
      simp only at h
      split at h
      · cases h
      · split at h
        · exact ih hrest h
        · exact ih hrest h

section Record

variable {n : Ident} {vs : List Value} (hr : t.recordNamed? n = some (rid, r))
  (hv : t.FieldValues r.fields vs) (hpos : ∀ k, variants[k]? = some rid ↔ k = r.tag.toNat)
include hr hv hpos

/-- A constructor pattern that passes planning matches a record if it has the tag of the record. -/
theorem Fits.bindings_ctor (hc : c.Fits t) {tag : Nat} {binders : List Ident}
    (htag : c.tagOf type variants name = .ok tag)
    (hb : binders.isEmpty = true ∨ binders.length = c.variantArity variants tag) :
    if tag = r.tag.toNat then
      ∃ bound, i.bindings (.ctor name binders) (.record n vs) = .ok (some bound)
    else i.bindings (.ctor name binders) (.record n vs) = .ok none := by
  obtain ⟨x, hx, hxv⟩ := of_tagOf htag
  have hlook := hc.grows.lookup hc.target hx
  have hn := (recordNamed?_eq_some.1 hr).1
  split
  · rename_i he
    have hxr : x = rid := Option.some.inj (hxv.symm.trans ((hpos tag).2 he))
    subst hxr
    -- the same type has the same name
    obtain ⟨d, hd, hname⟩ := get?_of_lookup hlook
    obtain ⟨d', hd', hname'⟩ := get?_of_lookup hn
    have hnn : name = n := by
      rw [hd] at hd'
      cases hd'
      exact hname.symm.trans hname'
    subst hnn
    unfold Interpreter.bindings
    simp only [ne_eq, not_true, if_false]
    split
    · exact ⟨_, rfl⟩
    · rename_i hne
      have hlen := hb.resolve_left hne
      obtain ⟨d₀, hd₀, -⟩ := get?_of_lookup hx
      have hrec : c.types.record? x = some r := by
        have := hc.grows.get? hd₀
        rw [record?_eq_some.1 (recordNamed?_eq_some.1 hr).2] at this
        cases this
        exact record?_eq_some.2 hd₀
      have har : c.variantArity variants tag = r.fields.length := by
        unfold variantArity
        rw [hxv]
        simp [hrec]
      rw [har, hv.length_eq] at hlen
      rw [if_neg (not_not.2 hlen)]
      exact ⟨_, rfl⟩
  · rename_i hne
    have hnn : n ≠ name := by
      rintro rfl
      rw [hn] at hlook
      cases hlook
      exact hne ((hpos tag).1 hxv)
    unfold Interpreter.bindings
    simp only [ne_eq, hnn, not_false_eq_true, if_true]

/-- A plan by tags picks the first arm that matches a record. -/
theorem Fits.planTags_record (hc : c.Fits t) (hcv : cv.tag? = some r.tag) {table : List (Option Nat)}
    (hlen : table.length = variants.length) (hp : ∀ p ∈ pats, p.isLit = false)
    (h : c.planTags type variants index table reachable pats = .ok plan) :
    (∀ k, table[r.tag.toNat]? = some (some k) → plan.pick cv = some k) ∧
      (table[r.tag.toNat]? = some none → ∃ res, i.selectFrom (.record n vs) index pats = .ok res ∧
        plan.pick cv = res.map Prod.fst) := by
  have pick : ∀ {tb : List (Option Nat)} {re : List Nat} {d : Option Nat},
      MatchPlan.pick ⟨.tags type tb, re, d⟩ cv = (tb[r.tag.toNat]?.bind id).or d := by
    intro tb re d
    simp [MatchPlan.pick, hcv]
  induction pats generalizing index table reachable with
  | nil =>
    cases h
    refine ⟨fun k hk => by rw [pick, hk]; rfl, fun hk => ⟨none, rfl, by rw [pick, hk]; rfl⟩⟩
  | cons p rest ih =>
    have hrest : ∀ q ∈ rest, q.isLit = false := fun q hq => hp q (List.mem_cons_of_mem _ hq)
    rw [Interpreter.selectFrom]
    cases p with
    | lit n => simpa [Pattern.isLit] using hp (.lit n) (by simp)
    | bind name =>
      cases h
      exact ⟨fun k hk => by rw [pick, hk]; rfl, fun hk => ⟨_, rfl, by rw [pick, hk]; rfl⟩⟩
    | wildcard =>
      cases h
      exact ⟨fun k hk => by rw [pick, hk]; rfl, fun hk => ⟨_, rfl, by rw [pick, hk]; rfl⟩⟩
    | ctor name binders =>
      rw [planTags] at h
      obtain ⟨tag, htag, h⟩ := bind_eq_ok.1 h
      simp only at h
      split at h
      · cases h
      · rename_i har
        have hb : binders.isEmpty = true ∨ binders.length = c.variantArity variants tag := by
          simp only [Bool.and_eq_true, Bool.not_eq_true', bne_iff_ne, ne_eq, not_and, not_not] at har
          by_cases he : binders.isEmpty = true
          · exact .inl he
          · exact .inr (har (by simpa using he))
        have hmatch := hc.bindings_ctor (i := i) hr hv hpos htag hb
        by_cases he : tag = r.tag.toNat
        · rw [if_pos he] at hmatch
          obtain ⟨bound, hmatch⟩ := hmatch
          rw [hmatch]
          subst he
          split at h
          · rename_i hnone
            refine ⟨fun k hk => absurd hnone (by rw [hk]; simp), fun hk => ⟨_, rfl, ?_⟩⟩
            have hlt := (List.getElem?_eq_some_iff.1 hk).1
            have hset : (table.set r.tag.toNat (some index))[r.tag.toNat]? = some (some index) := by
              rw [List.getElem?_set_self hlt]
            exact (ih (by rw [List.length_set, hlen]) hrest h).1 index hset
          · rename_i hsome
            refine ⟨(ih hlen hrest h).1, fun hk => ?_⟩
            rw [hk] at hsome
            exact absurd rfl hsome
        · rw [if_neg he] at hmatch
          rw [hmatch]
          simp only
          split at h
          · have hset : (table.set tag (some index))[r.tag.toNat]? = table[r.tag.toNat]? := by
              rw [List.getElem?_set_ne he]
            have := ih (by rw [List.length_set, hlen]) hrest h
            rw [hset] at this
            exact this
          · exact ih hlen hrest h

end Record

/-! ### Numbers -/

theorem planScalars_spec {bits : Nat} {known : List (UInt64 × Nat)}
    (hcs : ∀ p ∈ known, p.2 ∈ reachable) (hp : ∀ p ∈ pats, p.isCtor = false) :
    ∃ known', (planScalars bits index known reachable pats).dispatch = .scalars known' ∧
      (∀ p ∈ known', p.2 ∈ (planScalars bits index known reachable pats).reachable) ∧
      ∀ k, (planScalars bits index known reachable pats).default = some k →
        k ∈ (planScalars bits index known reachable pats).reachable := by
  induction pats generalizing index known reachable with
  | nil => exact ⟨known, rfl, hcs, by simp [planScalars]⟩
  | cons p rest ih =>
    have hrest : ∀ q ∈ rest, q.isCtor = false := fun q hq => hp q (List.mem_cons_of_mem _ hq)
    have catchAll : ∃ known', Dispatch.scalars known = .scalars known' ∧
        (∀ p ∈ known', p.2 ∈ reachable ++ [index]) ∧
        ∀ k, some index = some k → k ∈ reachable ++ [index] :=
      ⟨known, rfl, fun p hp => List.mem_append_left _ (hcs p hp), by simp⟩
    cases p with
    | ctor name binders => simpa [Pattern.isCtor] using hp (.ctor name binders) (by simp)
    | bind name => exact catchAll
    | wildcard => exact catchAll
    | lit n =>
      rw [planScalars]
      split
      · exact ih hcs hrest
      · refine ih ?_ hrest
        intro q hq
        rcases List.mem_append.1 hq with hq | hq
        · exact List.mem_append_left _ (hcs q hq)
        · obtain rfl := List.mem_singleton.1 hq
          simp

theorem planScalars_sentinel {bits : Nat} {known : List (UInt64 × Nat)}
    (hp : ∀ p ∈ pats, p.isCtor = false) :
    ∃ res, i.selectFrom .incomplete index pats = .ok res ∧
      (planScalars bits index known reachable pats).default = res.map Prod.fst := by
  induction pats generalizing index known reachable with
  | nil => exact ⟨none, rfl, rfl⟩
  | cons p rest ih =>
    have hrest : ∀ q ∈ rest, q.isCtor = false := fun q hq => hp q (List.mem_cons_of_mem _ hq)
    rw [Interpreter.selectFrom]
    cases p with
    | ctor name binders => simpa [Pattern.isCtor] using hp (.ctor name binders) (by simp)
    | bind name => exact ⟨_, rfl, rfl⟩
    | wildcard => exact ⟨_, rfl, rfl⟩
    | lit n =>
      rw [planScalars, Interpreter.bindings_sentinel rfl]
      simp only
      split
      · exact ih hrest
      · exact ih hrest

/-- A plan by numbers picks the first arm that matches a number of its width. -/
theorem planScalars_uint {u : Uint} {known : List (UInt64 × Nat)}
    (hp : ∀ p ∈ pats, p.isCtor = false) :
    (∀ p, known.find? (·.1 == u.value) = some p →
      (planScalars u.bits index known reachable pats).pick (.scalar u.value) = some p.2) ∧
    (known.find? (·.1 == u.value) = none → ∃ res, i.selectFrom (.uint u) index pats = .ok res ∧
      (planScalars u.bits index known reachable pats).pick (.scalar u.value) = res.map Prod.fst) := by
  have pick : ∀ {cs : List (UInt64 × Nat)} {re : List Nat} {d : Option Nat},
      MatchPlan.pick ⟨.scalars cs, re, d⟩ (.scalar u.value) =
        ((cs.find? (·.1 == u.value)).map Prod.snd).or d := fun {_ _ _} => rfl
  induction pats generalizing index known reachable with
  | nil => exact ⟨fun p hf => by rw [planScalars, pick, hf]; rfl,
      fun hf => ⟨none, rfl, by rw [planScalars, pick, hf]; rfl⟩⟩
  | cons p rest ih =>
    have hrest : ∀ q ∈ rest, q.isCtor = false := fun q hq => hp q (List.mem_cons_of_mem _ hq)
    rw [Interpreter.selectFrom]
    cases p with
    | ctor name binders => simpa [Pattern.isCtor] using hp (.ctor name binders) (by simp)
    | bind name =>
      exact ⟨fun p hf => by rw [planScalars, pick, hf]; rfl; simp,
        fun hf => ⟨_, rfl, by rw [planScalars, pick, hf]; rfl; simp⟩⟩
    | wildcard =>
      exact ⟨fun p hf => by rw [planScalars, pick, hf]; rfl; simp,
        fun hf => ⟨_, rfl, by rw [planScalars, pick, hf]; rfl; simp⟩⟩
    | lit n =>
      have hb : i.bindings (.lit n) (.uint u) =
          .ok (if n &&& mask u.bits = u.value then some [] else none) := rfl
      rw [hb, planScalars]
      by_cases he : n &&& mask u.bits = u.value
      · rw [if_pos he]
        simp only
        split
        · rename_i hany
          refine ⟨(ih hrest).1, fun hf => ?_⟩
          rw [List.any_eq_true] at hany
          obtain ⟨q, hq, hqe⟩ := hany
          rw [he] at hqe
          exact absurd hqe (by simpa using List.find?_eq_none.1 hf q hq)
        · constructor
          · intro q hf
            exact (ih hrest).1 q (by rw [List.find?_append, hf]; rfl)
          · intro hf
            refine ⟨_, rfl, (ih hrest).1 (u.value, index) ?_⟩
            rw [List.find?_append, hf, he]
            simp
      · rw [if_neg he]
        simp only
        split
        · exact ih hrest
        · have := @ih (index + 1) (reachable ++ [index]) (known ++ [(n &&& mask u.bits, index)]) hrest
          rw [List.find?_append] at this
          have hnone : [(n &&& mask u.bits, index)].find? (·.1 == u.value) = none := by
            simp [he]
          rw [hnone, Option.or_none] at this
          exact this

end Typing

/-! ### Whole plans -/

/-- Every arm that a plan can pick is reachable. -/
structure MatchPlan.Closed (p : MatchPlan) : Prop where
  tags : ∀ {type table k}, p.dispatch = .tags type table → some k ∈ table → k ∈ p.reachable
  scalars : ∀ {known q}, p.dispatch = .scalars known → q ∈ known → q.2 ∈ p.reachable
  default : ∀ {k}, p.default = some k → k ∈ p.reachable

theorem MatchPlan.Closed.pick {p : MatchPlan} (h : p.Closed) {k : Nat} (hk : p.pick cv = some k) :
    k ∈ p.reachable := by
  unfold MatchPlan.pick at hk
  split at hk
  · rename_i type table hd
    rcases Option.or_eq_some_iff.1 hk with hk | ⟨-, hk⟩
    · obtain ⟨o, ho, rfl⟩ := Option.bind_eq_some_iff.1 hk
      obtain ⟨tag, -, ht⟩ := Option.bind_eq_some_iff.1 ho
      exact h.tags hd (List.mem_of_getElem? ht)
    · exact h.default hk
  · rename_i known hd
    rcases Option.or_eq_some_iff.1 hk with hk | ⟨-, hk⟩
    · obtain ⟨n, -, hn⟩ := Option.bind_eq_some_iff.1 hk
      obtain ⟨q, hq, rfl⟩ := Option.map_eq_some_iff.1 hn
      exact h.scalars hd (List.mem_of_find?_eq_some hq)
    · exact h.default hk
  · exact h.default hk

/-- A plan with a catch-all picks some arm for every value. -/
theorem MatchPlan.pick_of_default {p : MatchPlan} (h : p.default.isSome = true) (cv : Compiled) :
    p.pick cv ≠ none := by
  obtain ⟨k, hk⟩ := Option.isSome_iff_exists.1 h
  unfold MatchPlan.pick
  split <;> simp [hk]

/-- For a value without tag and number a plan picks its catch-all. -/
theorem MatchPlan.pick_sentinel (p : MatchPlan) : p.pick .incomplete = p.default := by
  unfold MatchPlan.pick
  split <;> rfl

namespace Typing

theorem literalFree {pats : List Pattern} (h : ¬ pats.any (·.isLit) = true) :
    ∀ p ∈ pats, p.isLit = false := by
  simpa using h

theorem constructorFree {pats : List Pattern} (h : ¬ pats.any (·.isCtor) = true) :
    ∀ p ∈ pats, p.isCtor = false := by
  simpa using h

/-- Planning with constructor patterns starts from the type of the subject, where it is known. -/
theorem planArms_tags (hctor : pats.any (·.isCtor) = true) (h : c.planArms s pats = .ok plan) :
    (∀ p ∈ pats, p.isLit = false) ∧ ∃ named type variants, (∀ id, s = .known id → named = id) ∧
      c.variantsOf named = .ok (type, variants) ∧
      c.planTags type variants 0 (List.replicate variants.length none) [] pats = .ok plan := by
  unfold planArms at h
  rw [if_pos hctor] at h
  split at h
  · cases h
  · rename_i hlit
    refine ⟨literalFree hlit, ?_⟩
    cases s with
    | known id =>
      obtain ⟨named, hn, h⟩ := bind_eq_ok.1 h
      cases hn
      obtain ⟨⟨type, variants⟩, hvar, h⟩ := bind_eq_ok.1 h
      exact ⟨id, type, variants, (fun _ he => StaticType.known.inj he), hvar, h⟩
    | unknown =>
      obtain ⟨named, -, h⟩ := bind_eq_ok.1 h
      obtain ⟨⟨type, variants⟩, hvar, h⟩ := bind_eq_ok.1 h
      exact ⟨named, type, variants, (fun _ he => by cases he), hvar, h⟩
    | incomplete =>
      obtain ⟨named, -, h⟩ := bind_eq_ok.1 h
      obtain ⟨⟨type, variants⟩, hvar, h⟩ := bind_eq_ok.1 h
      exact ⟨named, type, variants, (fun _ he => by cases he), hvar, h⟩

/-- Planning with neither constructors nor literals. -/
theorem planDirect_eq (hctor : ∀ p ∈ pats, p.isCtor = false) (hlit : ∀ p ∈ pats, p.isLit = false) :
    planDirect pats =
      if pats = [] then ⟨.direct, [], none⟩ else ⟨.direct, [0], some 0⟩ := by
  cases pats with
  | nil => rfl
  | cons p rest =>
    have hp : p.isCatchAll = true := by
      have h₁ := hctor p (by simp)
      have h₂ := hlit p (by simp)
      cases p with
      | ctor name binders => cases h₁
      | lit n => cases h₂
      | bind name => rfl
      | wildcard => rfl
    simp [planDirect, List.findIdx?_cons, hp]

theorem planArms_closed (hw : c.types.WellFormed) (h : c.planArms s pats = .ok plan) :
    plan.Closed ∧ ∀ k ∈ plan.reachable, ∀ name bs, pats[k]? = some (.ctor name bs) →
      ∃ id r, c.types.recordNamed? name = some (id, r) := by
  by_cases hctor : pats.any (·.isCtor) = true
  · obtain ⟨hlit, named, type, variants, -, hvar, h⟩ := planArms_tags hctor h
    obtain ⟨table, hd, -, ht, hdef, hk⟩ := planTags_spec hlit (by simp) h
    refine ⟨⟨?_, ?_, hdef _⟩, ?_⟩
    · intro _ _ k he hm
      rw [hd] at he
      cases he
      exact ht k hm
    · intro _ _ he
      rw [hd] at he
      cases he
    · intro k hkr name bs hp
      rcases hk k hkr with hk | hk
      · cases hk
      · obtain ⟨j, p, hj, hpj, hk⟩ := hk
        rw [Nat.zero_add] at hj
        rw [hj, hpj] at hp
        obtain ⟨tag, htag⟩ := hk name bs (Option.some.inj hp)
        obtain ⟨x, hx, hxv⟩ := of_tagOf htag
        obtain ⟨r, hr⟩ := record_of_variantsOf hw hvar x (List.mem_of_getElem? hxv)
        exact ⟨x, r, recordNamed?_eq_some.2 ⟨hx, hr⟩⟩
  · have none : ∀ (k : Nat) name bs, pats[k]? = some (Pattern.ctor name bs) →
        ∃ id r, c.types.recordNamed? name = some (id, r) := by
      intro k name bs hp
      have := constructorFree hctor _ (List.mem_of_getElem? hp)
      cases this
    unfold planArms at h
    rw [if_neg hctor] at h
    split at h
    · obtain ⟨bits, -, h⟩ := bind_eq_ok.1 h
      cases h
      obtain ⟨known, hd, hm, hdef⟩ :=
        @planScalars_spec pats 0 [] bits [] (by simp) (constructorFree hctor)
      refine ⟨⟨?_, ?_, hdef _⟩, fun k _ => none k⟩
      · intro _ _ _ he
        rw [hd] at he
        cases he
      · intro _ q he hq
        rw [hd] at he
        cases he
        exact hm q hq
    · cases h
      refine ⟨⟨?_, ?_, ?_⟩, fun k _ => none k⟩
      all_goals unfold planDirect; split
      all_goals simp

theorem literalBits_of_uint {u : Uint} {bits : Nat} (hc : c.Fits t) (h : c.literalBits s = .ok bits)
    (hs : s.Admits t (.uint u)) : bits = u.bits := by
  obtain ⟨id, rfl, ha⟩ := hs.known (by simp)
  unfold literalBits at h
  simp only [StaticType.known?] at h
  split at h
  · rename_i b hb
    cases h
    have hu : t.scalarBits? id = some u.bits := ha
    rw [hc.grows.scalarBits? hb] at hu
    exact Option.some.inj hu
  · cases h

theorem not_literals_of_record {vs : List Value} {bits : Nat} (hc : c.Fits t)
    (h : c.literalBits s = .ok bits) : ¬ s.Admits t (.record name vs) := by
  intro hs
  obtain ⟨id, rfl, ha⟩ := hs.known (by simp)
  unfold literalBits at h
  simp only [StaticType.known?] at h
  split at h
  · rename_i b hb
    obtain ⟨u, hu, -⟩ := hc.target.admits_scalar (hc.grows.scalarBits? hb) ha
    cases hu
  · cases h

theorem not_variants_of_uint {u : Uint} (hc : c.Fits t) (h : c.variantsOf id = .ok (type, variants)) :
    ¬ t.Admits id (.uint u) := by
  intro ha
  have hb : t.scalarBits? id = some u.bits := ha
  unfold variantsOf at h
  split at h
  · rename_i s hs
    rw [scalarBits?_eq_some, hc.grows.get? hs] at hb
    cases hb
  · rename_i r hr
    rw [scalarBits?_eq_some, hc.grows.get? hr] at hb
    cases hb
  · cases h

/-- The interpreter's choice on a value, and what the plan picks for the compiled form of it. -/
def Agrees (i : Interpreter) (plan : MatchPlan) (pats : List Pattern) (v : Value) (cv : Compiled) :
    Prop :=
  ∃ res, i.selectArm v pats = .ok res ∧ plan.pick cv = res.map Prod.fst ∧
    (plan.isExhaustive = true → v ≠ .incomplete → res ≠ none)

theorem Agrees.of_default {res : Option (Nat × List (Ident × Value))}
    (h : i.selectArm v pats = .ok res) (hp : plan.pick cv = res.map Prod.fst)
    (hd : v ≠ .incomplete → plan.isExhaustive = true → plan.default.isSome = true) :
    Agrees i plan pats v cv := by
  refine ⟨res, h, hp, fun he hv hn => ?_⟩
  subst hn
  exact plan.pick_of_default (hd hv he) cv hp

theorem Fits.planTags_agrees (hc : c.Fits t) {n : Ident} {vs : List Value}
    (hlit : ∀ p ∈ pats, p.isLit = false) (hvar : c.variantsOf id = .ok (type, variants))
    (h : c.planTags type variants 0 (List.replicate variants.length none) [] pats = .ok plan)
    (ha : t.Admits id (.record n vs)) (he : t.Encodes (.record n vs) cv) :
    Agrees i plan pats (.record n vs) cv := by
  obtain ⟨rid, r, hr, hrid⟩ := ha
  obtain ⟨rid', r', hr', hfv⟩ := he.normal.fields hc.target
  obtain ⟨rfl, rfl⟩ : rid = rid' ∧ r = r' := by simpa using hr.symm.trans hr'
  have hpos := hc.position hvar hr hrid
  have hlt : r.tag.toNat < variants.length :=
    (List.getElem?_eq_some_iff.1 ((hpos r.tag.toNat).2 rfl)).1
  have htag := he.tag? hc.target hr
  obtain ⟨-, hpick⟩ := hc.planTags_record (i := i) hr hfv hpos htag List.length_replicate hlit h
  obtain ⟨res, hres, hpick⟩ := hpick (by rw [List.getElem?_replicate, if_pos hlt])
  refine ⟨res, hres, hpick, fun hex _ hn => ?_⟩
  subst hn
  obtain ⟨table, hd, hlen, -, -, -⟩ := planTags_spec hlit (by simp) h
  unfold MatchPlan.isExhaustive at hex
  rw [hd, Bool.or_eq_true] at hex
  rcases hex with hex | hex
  · exact plan.pick_of_default hex cv hpick
  · -- every tag has an arm, so the plan picks one
    have hlt' : r.tag.toNat < table.length := by
      rw [hlen, List.length_replicate]
      exact hlt
    have hsome := List.all_eq_true.1 hex _ (List.getElem_mem hlt')
    obtain ⟨k, hk⟩ := Option.isSome_iff_exists.1 hsome
    unfold MatchPlan.pick at hpick
    rw [hd] at hpick
    simp [htag, List.getElem?_eq_getElem hlt', hk] at hpick

/-- The plan picks the first arm whose pattern matches. -/
theorem Fits.plan_pick (hc : c.Fits t) (i : Interpreter) (h : c.planArms s pats = .ok plan)
    (hs : s.Admits t v) (hf : t.Form v cv) : Agrees i plan pats v cv := by
  by_cases hctor : pats.any (·.isCtor) = true
  · obtain ⟨hlit, named, type, variants, hnamed, hvar, h⟩ := planArms_tags hctor h
    rcases hf with ⟨rfl, rfl⟩ | he
    · obtain ⟨res, hres, hdef⟩ := planTags_sentinel (i := i) hlit h
      exact Agrees.of_default hres (by rw [plan.pick_sentinel, hdef]) fun hv => absurd rfl hv
    · obtain ⟨id, hs', ha⟩ := hs.known he.ne_incomplete
      obtain rfl := hnamed id hs'
      cases v with
      | int n => exact ha.elim
      | incomplete => exact ha.elim
      | uint u => exact absurd ha (not_variants_of_uint hc hvar)
      | record n vs => exact hc.planTags_agrees hlit hvar h ha he
  · have hp := constructorFree hctor
    unfold planArms at h
    rw [if_neg hctor] at h
    split at h
    · obtain ⟨bits, hbits, h⟩ := bind_eq_ok.1 h
      cases h
      have hex : (planScalars bits 0 [] [] pats).isExhaustive = true →
          (planScalars bits 0 [] [] pats).default.isSome = true := by
        obtain ⟨known, hd, -⟩ := @planScalars_spec pats 0 [] bits [] (by simp) hp
        unfold MatchPlan.isExhaustive
        rw [hd]
        simp
      rcases hf with ⟨rfl, rfl⟩ | he
      · obtain ⟨res, hres, hdef⟩ := @planScalars_sentinel i pats 0 [] bits [] hp
        exact Agrees.of_default hres (by rw [MatchPlan.pick_sentinel, hdef]) fun hv => absurd rfl hv
      · cases v with
        | int n => cases he
        | incomplete => cases he
        | record n vs => exact absurd hs (not_literals_of_record hc hbits)
        | uint u =>
          cases he
          obtain rfl := literalBits_of_uint hc hbits hs
          obtain ⟨res, hres, hpick⟩ := (@planScalars_uint i pats 0 [] u [] hp).2 rfl
          exact Agrees.of_default hres hpick fun _ => hex
    · rename_i hlit
      cases h
      have hlit' := literalFree hlit
      rw [planDirect_eq hp hlit']
      cases pats with
      | nil => exact ⟨none, rfl, rfl, fun h => by cases h⟩
      | cons p rest =>
        obtain ⟨bound, hb⟩ := Interpreter.bindings_catchAll (i := i) (v := v) (hp p (by simp))
          (hlit' p (by simp))
        refine ⟨some (0, bound), ?_, rfl, fun _ _ => by simp⟩
        rw [Interpreter.selectArm, Interpreter.selectFrom, hb]

/-- A plan that covers every value has a reachable arm. -/
theorem Fits.reachable_of_exhaustive (hc : c.Fits t) (h : c.planArms s pats = .ok plan)
    (hs : s ≠ .unknown) (hex : plan.isExhaustive = true) :
    ∃ k ∈ plan.reachable, ∃ p, pats[k]? = some p := by
  have hclosed := (planArms_closed hc.wellFormed h).1
  cases hdef : plan.default with
  | some d =>
    -- the catch-all also matches the sentinel
    let i : Interpreter := ⟨{}, .reference, 0⟩
    obtain ⟨res, hres, hpick, -⟩ := hc.plan_pick i h (.sentinel hs) .sentinel
    rw [plan.pick_sentinel, hdef] at hpick
    obtain ⟨⟨k, bound⟩, rfl, hk⟩ := Option.map_eq_some_iff.1 hpick.symm
    obtain ⟨j, p, hj, hp, -⟩ := Interpreter.selectFrom_some hres
    rw [Nat.zero_add] at hj
    refine ⟨d, hclosed.default hdef, p, ?_⟩
    rw [← hk]
    show pats[k]? = some p
    rw [hj, hp]
  | none =>
    unfold MatchPlan.isExhaustive at hex
    rw [hdef, Option.isSome_none, Bool.false_or] at hex
    by_cases hctor : pats.any (·.isCtor) = true
    · obtain ⟨hlit, named, type, variants, -, hvar, h⟩ := planArms_tags hctor h
      obtain ⟨table, hd, hlen, ht, -, hk⟩ := planTags_spec hlit (by simp) h
      rw [hd] at hex
      have hpos : 0 < table.length := by
        rw [hlen, List.length_replicate]
        exact variantsOf_ne_nil hc.wellFormed hvar
      obtain ⟨k, hk0⟩ := Option.isSome_iff_exists.1 (List.all_eq_true.1 hex _ (List.getElem_mem hpos))
      have hkr := ht k (hk0 ▸ List.getElem_mem hpos)
      rcases hk k hkr with hk | ⟨j, p, hj, hp, -⟩
      · cases hk
      · rw [Nat.zero_add] at hj
        exact ⟨k, hkr, p, by rw [hj, hp]⟩
    · unfold planArms at h
      rw [if_neg hctor] at h
      split at h
      · obtain ⟨bits, -, h⟩ := bind_eq_ok.1 h
        cases h
        obtain ⟨known, hd, -⟩ := @planScalars_spec pats 0 [] bits [] (by simp) (constructorFree hctor)
        rw [hd] at hex
        cases hex
      · rename_i hlit
        cases h
        rw [planDirect_eq (constructorFree hctor) (literalFree hlit)] at hex
        by_cases hnil : pats = [] <;> simp [hnil] at hex

end Typing

end ShapeCompiler
