import ShapeCompiler.Proofs.Engine.Sessions
import ShapeCompiler.Proofs.Types.Groups
import ShapeCompiler.Proofs.Types.Registry
import ShapeCompiler.Proofs.Types.Scalars

/-!
Which groups of declarations are accepted.

A group is checked by several passes, which see registered declarations next to new ones. Main
statement: the passes accept exactly the groups that fit the table, and a group that was accepted is
answered with the same numbers ever after (`Engine.declareTypes_iff`).
-/

namespace ShapeCompiler.TypeTable

/-- The groups that fit a table, if the types of a kind are known besides those of the group. -/
structure Fits (t : TypeTable) (known : Ident → Prop) (group : List TypeDecl) : Prop where
  /-- No declared name is read as a scalar. -/
  not_scalar : ∀ d ∈ group, scalarWidth d.name = none
  /-- A declaration is registered in the same words, or its name is new and declared once. -/
  named : ∀ d ∈ group, d ∈ t.declared ∨
    t.lookup d.name = none ∧ (group.map (·.name)).count d.name = 1
  /-- A new sum has 2 to 256 variants, which differ, and each is a new record that no other new sum
  claims. -/
  sums : ∀ name variants, .sum name variants ∈ group → t.lookup name = none →
    2 ≤ variants.length ∧ variants.length ≤ 256 ∧ variants.Nodup ∧
    ∀ v ∈ variants, ((∃ fields, .record v fields ∈ group) ∧ t.lookup v = none) ∧
      ∀ other variants', .sum other variants' ∈ group → t.lookup other = none → v ∈ variants' →
        other = name
  /-- A new record has fields of different names, the types of which are declared in the group or
  known. -/
  records : ∀ name fields, .record name fields ∈ group → t.lookup name = none →
    (fields.map Prod.fst).Nodup ∧
    ∀ type ∈ fields.map Prod.snd, (∃ d ∈ group, d.name = type) ∨ known type

/-- The groups that fit a table, in which the registered types are known, and scalars under their own
names. -/
abbrev Accepts (t : TypeTable) (group : List TypeDecl) : Prop :=
  t.Fits (fun type => (t.lookup type).isSome ∨ type.IsScalar) group

variable {t t' : TypeTable} {id : TypeId} {n : Ident} {fresh : List Ident} {homes : List Home}
  {group rest : List TypeDecl} {d : TypeDecl}

/-! ### The passes succeed -/

def claimedBy (fresh : List Ident) : TypeDecl → List Ident
  | .record _ _ => []
  | .sum name variants => if name ∈ fresh then variants else []

theorem claimVariants_isOk (sum : Ident) (id : TypeId) (tag : Nat) {vs : List Ident}
    (hnew : ∀ v ∈ vs, isFreshRecord group fresh v = true)
    (hn : (homes.map (·.record) ++ vs).Nodup) :
    ∃ homes', claimVariants group fresh sum id tag homes vs = .ok homes' ∧
      homes'.map (·.record) = homes.map (·.record) ++ vs := by
  induction vs generalizing tag homes with
  | nil => exact ⟨homes, rfl, by simp⟩
  | cons v rest ih =>
    have hfree : homes.any (·.record == v) = false := by
      rw [List.any_eq_false]
      intro x hx he
      refine (List.nodup_append.1 hn).2.2 _ (List.mem_map.2 ⟨x, hx, rfl⟩) v (by simp) ?_
      simpa using he
    rw [claimVariants, hnew v List.mem_cons_self, hfree]
    simp only [Bool.not_true, Bool.false_eq_true, if_false]
    have hn' : ((homes ++ [Home.mk v id (UInt8.ofNat tag)]).map (·.record) ++ rest).Nodup := by
      simpa using hn
    obtain ⟨homes', hok, hrec⟩ := ih (tag + 1) (fun w hw => hnew w (List.mem_cons_of_mem _ hw)) hn'
    exact ⟨homes', hok, by simpa using hrec⟩

theorem claimHomes_isOk
    (hsums : ∀ name variants, .sum name variants ∈ rest → name ∈ fresh → 2 ≤ variants.length ∧
      variants.length ≤ 256 ∧ ∀ v ∈ variants, isFreshRecord group fresh v = true)
    (hn : (homes.map (·.record) ++ rest.flatMap (claimedBy fresh)).Nodup) :
    ∃ homes', t.claimHomes group fresh homes rest = .ok homes' := by
  induction rest generalizing homes with
  | nil => exact ⟨homes, rfl⟩
  | cons d rest ih =>
    have hrest : ∀ {homes : List Home}, (homes.map (·.record) ++ rest.flatMap (claimedBy fresh)).Nodup →
        ∃ homes', t.claimHomes group fresh homes rest = .ok homes' :=
      ih fun name vs hm => hsums name vs (List.mem_cons_of_mem _ hm)
    rw [List.flatMap_cons, ← List.append_assoc] at hn
    cases d with
    | record name fields =>
      rw [claimHomes]
      exact hrest (by simpa [claimedBy] using hn)
    | sum name variants =>
      rw [claimHomes]
      by_cases hname : name ∈ fresh
      · obtain ⟨id, hid⟩ := exists_freshId_iff (t := t).2 hname
        obtain ⟨h2, h256, hnew⟩ := hsums name variants List.mem_cons_self hname
        rw [claimedBy, if_pos hname] at hn
        obtain ⟨homes', hok, hrec⟩ := claimVariants_isOk name id 0 hnew
          (List.nodup_append.1 hn).1
        simp only [hid, if_neg (by omega : ¬ variants.length < 2),
          if_neg (by omega : ¬ 256 < variants.length), hok]
        exact hrest (by rw [hrec]; exact hn)
      · rw [freshId_eq_none_iff.2 hname]
        exact hrest (by simpa [claimedBy, hname] using hn)

/-- The fields of a record are resolved if their names differ and their types are found. -/
theorem resolveFields_isOk (record : Ident) {fields : List (Ident × Ident)}
    (hn : (fields.map Prod.fst).Nodup)
    (hfound : ∀ type ∈ fields.map Prod.snd, type ∈ fresh ∨ (t.lookup type).isSome) :
    ∃ resolved, t.resolveFields fresh record {} fields = .ok resolved := by
  have hfield : ∀ p ∈ fields, ∃ f : Field,
      f.name = p.1 ∧ (t.freshId fresh p.2).or (t.lookup p.2) = some f.type := by
    intro p hp
    have hsome : ((t.freshId fresh p.2).or (t.lookup p.2)).isSome := by
      rw [Option.isSome_or, Bool.or_eq_true]
      refine (hfound p.2 (List.mem_map.2 ⟨p, hp, rfl⟩)).imp_left fun hm => ?_
      exact Option.isSome_iff_exists.2 (exists_freshId_iff.2 hm)
    obtain ⟨id, hid⟩ := Option.isSome_iff_exists.1 hsome
    exact ⟨⟨p.1, id⟩, rfl, hid⟩
  obtain ⟨resolved, hres⟩ := exists_forall₂_iff.2 hfield
  exact ⟨resolved, resolveFields_eq_ok.2 ⟨⟨fun _ _ => Std.TreeSet.contains_emptyc, hn⟩, hres⟩⟩

theorem describeFresh_isOk
    (h : ∀ d ∈ rest, d.name ∈ fresh → ∃ desc, t.describe fresh homes d = .ok desc) :
    ∃ staged, t.describeFresh fresh homes rest = .ok staged := by
  induction rest with
  | nil => exact ⟨[], rfl⟩
  | cons d rest ih =>
    obtain ⟨later, hlater⟩ := ih fun d hm => h d (List.mem_cons_of_mem _ hm)
    rw [describeFresh]
    split
    · rename_i hm
      obtain ⟨desc, hdesc⟩ := h d List.mem_cons_self hm
      exact ⟨_, bind_eq_ok.2 ⟨desc, hdesc, bind_eq_ok.2 ⟨later, hlater, rfl⟩⟩⟩
    · exact ⟨later, hlater⟩

theorem idsOf_eq_ok {ids : List TypeId} :
    t.idsOf group = .ok ids ↔ List.Forall₂ (fun d id => t.lookup d.name = some id) group ids := by
  induction group generalizing ids with
  | nil =>
    rw [idsOf, Except.ok.injEq, List.forall₂_nil_left_iff]
    exact eq_comm
  | cons d rest ih =>
    rw [idsOf, List.forall₂_cons_left_iff]
    cases hd : t.lookup d.name with
    | none => simp
    | some id =>
      simp only [map_eq_ok, ih, Option.some.injEq]
      constructor
      · rintro ⟨later, hlater, rfl⟩
        exact ⟨id, later, rfl, hlater, rfl⟩
      · rintro ⟨_, later, rfl, hlater, rfl⟩
        exact ⟨later, hlater, rfl⟩

theorem WellFormed.lookup_foldl_isSome (hw : t.WellFormed) {types : List Ident} (hm : n ∈ types)
    (hn : n.IsScalar) (hfresh : n ∉ fresh) :
    ((types.foldl (TypeTable.withFieldScalar fresh) t).lookup n).isSome := by
  induction types generalizing t with
  | nil => cases hm
  | cons type rest ih =>
    rw [List.foldl_cons]
    have hw' := (hw.withFieldScalar fresh type).1
    rcases List.mem_cons.1 hm with rfl | hm
    · obtain ⟨hw'', hg, -⟩ := hw'.foldl_withFieldScalar fresh rest
      have hsome : ((TypeTable.withFieldScalar fresh t n).lookup n).isSome := by
        unfold TypeTable.withFieldScalar
        split
        · rename_i h
          exact h.resolve_left hfresh
        · obtain ⟨bits, h1, h64, rfl, hbits⟩ := hn.width
          rw [hbits]
          have := (hw.ensureScalar h1 h64).lookup_name (hw.get?_ensureScalar h1 h64)
          exact Option.isSome_of_eq_some this
      obtain ⟨id, hid⟩ := Option.isSome_iff_exists.1 hsome
      exact Option.isSome_of_eq_some (hg.lookup hw'' hid)
    · exact ih hw' hm

/-! ### Groups that are accepted -/

theorem Homes.eq_of_record {sums : List TypeDecl} (hh : Homes t group fresh homes sums) {x y : Home}
    (hx : x ∈ homes) (hy : y ∈ homes) (h : x.record = y.record) : x = y :=
  List.inj_on_of_nodup_map hh.nodup hx hy h

/-- No variant is listed twice, since it would have two tags. -/
theorem Homes.variants_nodup (hh : Homes t group fresh homes group) {name : Ident}
    {variants : List Ident} (hm : .sum name variants ∈ group) (hid : t.freshId fresh name = some id) :
    variants.Nodup := by
  obtain ⟨-, hlen, hall⟩ := hh.variant name variants id hm hid
  rw [List.nodup_iff_getElem?_ne_getElem?]
  intro i j hij hj he
  have hv : variants[j]? = some variants[j] := List.getElem?_eq_getElem hj
  have htags := congrArg Home.tag
    (hh.eq_of_record (hall i _ (he.trans hv)).1 (hall j _ hv).1 rfl)
  have := congrArg UInt8.toNat htags
  simp only [UInt8.toNat_ofNat'] at this
  omega

theorem Documented.mem_newNames_iff (hd : t.Documented) (hw : t.WellFormed)
    (hs : ∀ d ∈ group, scalarWidth d.name = none) :
    n ∈ (t.newOf group).map (·.name) ↔ (∃ d ∈ group, d.name = n) ∧ t.lookup n = none := by
  rw [TypeTable.mem_newNames_iff]
  refine and_congr_right ?_
  rintro ⟨d, hm, rfl⟩
  exact hd.declaration?_eq_none_iff hw (hs d hm)

theorem count_newNames (hn : n ∈ (t.newOf group).map (·.name)) :
    ((t.newOf group).map (·.name)).count n = (group.map (·.name)).count n := by
  rw [map_name_newOf]
  refine List.count_filter ?_
  rw [Option.isNone_iff_eq_none]
  exact (TypeTable.mem_newNames_iff.1 hn).2

namespace Staged

variable {staged : List (TypeDecl × TypeDescriptor)} (hs : t.Staged group fresh homes staged)
include hs

theorem variants_fit {name : Ident} {variants : List Ident} (hm : .sum name variants ∈ group)
    (hname : name ∈ fresh) : 2 ≤ variants.length ∧ variants.length ≤ 256 ∧ variants.Nodup ∧
      ∀ v ∈ variants, ((∃ fields, .record v fields ∈ group) ∧ v ∈ fresh) ∧
        ∀ other variants', .sum other variants' ∈ group → other ∈ fresh → v ∈ variants' →
          other = name := by
  obtain ⟨id, hid⟩ := exists_freshId_iff (t := t).2 hname
  obtain ⟨h2, h256, hall⟩ := hs.claimed.variant name variants id hm hid
  refine ⟨h2, h256, hs.claimed.variants_nodup hm hid, fun v hv => ?_⟩
  obtain ⟨k, hk⟩ := List.getElem?_of_mem hv
  obtain ⟨hhome, hrec⟩ := hall k v hk
  refine ⟨isFreshRecord_iff.1 hrec, fun other variants' hm' hother hv' => ?_⟩
  obtain ⟨id', hid'⟩ := exists_freshId_iff (t := t).2 hother
  obtain ⟨k', hk'⟩ := List.getElem?_of_mem hv'
  obtain ⟨hhome', -⟩ := (hs.claimed.variant other variants' id' hm' hid').2.2 k' v hk'
  -- a record has one home
  obtain rfl : id' = id := congrArg Home.sum (hs.claimed.eq_of_record hhome' hhome rfl)
  exact freshId_inj hs.nodup hid' hid

theorem fields_fit {name : Ident} {fields : List (Ident × Ident)} (hm : .record name fields ∈ group)
    (hname : name ∈ fresh) : (fields.map Prod.fst).Nodup ∧
      ∀ type ∈ fields.map Prod.snd, type ∈ fresh ∨ (t.lookup type).isSome := by
  obtain ⟨p, hp, he⟩ := List.mem_map.1 (hs.all _ hm hname)
  rcases describe_spec (hs.described p hp) with ⟨_, _, r, h1, -, -, hres, -⟩ | ⟨_, _, h1, -⟩
  · rw [he] at h1
    cases h1
    obtain ⟨⟨-, hnodup⟩, hall⟩ := resolveFields_eq_ok.1 hres
    refine ⟨hnodup, fun type htype => ?_⟩
    obtain ⟨q, hq, rfl⟩ := List.mem_map.1 htype
    obtain ⟨f, -, hf⟩ := exists_forall₂_iff.1 ⟨_, hall⟩ q hq
    have hsome := Option.isSome_of_eq_some hf
    rw [Option.isSome_or, Bool.or_eq_true] at hsome
    exact hsome.imp_left fun h => exists_freshId_iff.1 (Option.isSome_iff_exists.1 h)
  · rw [he] at h1
    cases h1

end Staged

/-- What was accepted fits the table. -/
theorem Documented.accepts_of_declare (hd : t.Documented) (hw : t.WellFormed) {ids : List TypeId}
    (h : t.declare group = .ok (ids, t')) : t.Accepts group := by
  obtain ⟨fresh, t₁, homes, staged, hf, rfl, hst, -, -⟩ := hw.staged_of_declare h
  obtain ⟨hnames, hfresh, hnd⟩ := (freshNames_eq_ok List.nodup_nil).1 hf
  rw [List.nil_append] at hfresh
  have hscalar : ∀ d ∈ group, scalarWidth d.name = none := fun d hm => (hnames d hm).1
  have hnew : ∀ {n}, n ∈ fresh ↔ (∃ d ∈ group, d.name = n) ∧ t.lookup n = none := by
    intro n
    rw [hfresh, hd.mem_newNames_iff hw hscalar]
  refine ⟨hscalar, fun d hm => ?_, fun name variants hm hl => ?_, fun name fields hm hl => ?_⟩
  · cases ho : t.declaration? d.name with
    | some old =>
      obtain rfl := (hnames d hm).2 old ho
      exact .inl (List.mem_of_find?_eq_some ho)
    | none =>
      have hmem : d.name ∈ (t.newOf group).map (·.name) :=
        TypeTable.mem_newNames_iff.2 ⟨⟨d, hm, rfl⟩, ho⟩
      refine .inr ⟨hw.lookup_fresh (hscalar d hm) ho, ?_⟩
      rw [← count_newNames hmem, ← hfresh]
      exact List.count_eq_one_of_mem hnd (hfresh ▸ hmem)
  · obtain ⟨h2, h256, hnodup, hall⟩ := hst.variants_fit hm (hnew.2 ⟨⟨_, hm, rfl⟩, hl⟩)
    refine ⟨h2, h256, hnodup, fun v hv => ?_⟩
    obtain ⟨⟨hrec, hv⟩, hone⟩ := hall v hv
    exact ⟨⟨hrec, (hnew.1 hv).2⟩,
      fun other variants' hm' hl' => hone other variants' hm' (hnew.2 ⟨⟨_, hm', rfl⟩, hl'⟩)⟩
  · obtain ⟨hnodup, hfound⟩ := hst.fields_fit hm (hnew.2 ⟨⟨_, hm, rfl⟩, hl⟩)
    obtain ⟨hw₁, hg₁, -⟩ := hw.withFieldScalars fresh group
    refine ⟨hnodup, fun type htype => ?_⟩
    exact (hfound type htype).imp (fun h => (hnew.1 h).1) (hg₁.lookup_cases hw hw₁)

namespace Accepts

variable (ha : t.Accepts group)
include ha

theorem freshNames (hd : t.Documented) (hw : t.WellFormed) :
    t.freshNames [] group = .ok ((t.newOf group).map (·.name)) := by
  refine (freshNames_eq_ok List.nodup_nil).2 ⟨fun d hm => ⟨ha.not_scalar d hm, ?_⟩, rfl, ?_⟩
  · intro old ho
    rcases ha.named d hm with hold | ⟨hl, -⟩
    · rw [hd.declaration?_of_mem hold] at ho
      exact (Option.some.inj ho).symm
    · rw [(hd.declaration?_eq_none_iff hw (ha.not_scalar d hm)).2 hl] at ho
      cases ho
  · rw [List.nodup_iff_count_eq_one]
    intro n hn
    rw [count_newNames hn]
    obtain ⟨⟨d, hm, rfl⟩, hnone⟩ := TypeTable.mem_newNames_iff.1 hn
    rcases ha.named d hm with hold | ⟨-, hone⟩
    · rw [hd.declaration?_of_mem hold] at hnone
      cases hnone
    · exact hone

/-- No record is claimed twice. -/
theorem nodup_claimed (hn : ((t.newOf group).map (·.name)).Nodup)
    (hl : ∀ n ∈ (t.newOf group).map (·.name), t.lookup n = none) :
    (group.flatMap (claimedBy ((t.newOf group).map (·.name)))).Nodup := by
  have claims : ∀ {d v}, v ∈ claimedBy ((t.newOf group).map (·.name)) d → ∃ name variants,
      d = .sum name variants ∧ name ∈ (t.newOf group).map (·.name) ∧ v ∈ variants := by
    intro d v hv
    cases d with
    | record name fields => cases hv
    | sum name variants =>
      rw [claimedBy] at hv
      split at hv
      · exact ⟨name, variants, rfl, ‹_›, hv⟩
      · cases hv
  rw [List.nodup_flatMap]
  constructor
  · intro d hm
    cases d with
    | record name fields => exact List.nodup_nil
    | sum name variants =>
      rw [claimedBy]
      split
      · rename_i hname
        exact (ha.sums name variants hm (hl name hname)).2.2.1
      · exact List.nodup_nil
  · -- two sums that claim something have different names
    have hpair := hn
    rw [newOf, List.Nodup, List.pairwise_map, List.pairwise_filter] at hpair
    refine hpair.imp_of_mem fun {a b} hma hmb hne v hva hvb => ?_
    obtain ⟨name, variants, rfl, hname, hv⟩ := claims hva
    obtain ⟨other, variants', rfl, hother, hv'⟩ := claims hvb
    have undeclared : ∀ {n}, n ∈ (t.newOf group).map (·.name) → (t.declaration? n).isNone = true :=
      fun hn => Option.isNone_iff_eq_none.2 (TypeTable.mem_newNames_iff.1 hn).2
    refine hne (undeclared hname) (undeclared hother) ?_
    exact (((ha.sums name variants hma (hl name hname)).2.2.2 v hv).2 other variants' hmb
      (hl other hother) hv').symm

theorem claimHomes (t' : TypeTable)
    (hnew : ∀ {n}, n ∈ fresh ↔ (∃ d ∈ group, d.name = n) ∧ t.lookup n = none)
    (hn : (group.flatMap (claimedBy fresh)).Nodup) :
    ∃ homes, t'.claimHomes group fresh [] group = .ok homes := by
  refine claimHomes_isOk (fun name variants hm hname => ?_) hn
  obtain ⟨h2, h256, -, hall⟩ := ha.sums name variants hm (hnew.1 hname).2
  refine ⟨h2, h256, fun v hv => ?_⟩
  obtain ⟨⟨⟨fields, hrec⟩, hl⟩, -⟩ := hall v hv
  exact isFreshRecord_iff.2 ⟨⟨fields, hrec⟩, hnew.2 ⟨⟨_, hrec, rfl⟩, hl⟩⟩

/-- The types of fields are found once their scalars are registered. -/
theorem describeFresh (homes : List Home) (hw : t.WellFormed)
    (hnew : ∀ {n}, n ∈ fresh ↔ (∃ d ∈ group, d.name = n) ∧ t.lookup n = none) :
    ∃ staged, (t.withFieldScalars fresh group).describeFresh fresh homes group = .ok staged := by
  obtain ⟨hw₁, hg₁, -⟩ := hw.withFieldScalars fresh group
  refine describeFresh_isOk fun d hm hname => ?_
  cases d with
  | sum name variants => exact ⟨_, rfl⟩
  | record name fields =>
    obtain ⟨hnodup, htypes⟩ := ha.records name fields hm (hnew.1 hname).2
    have hfound : ∀ type ∈ fields.map Prod.snd,
        type ∈ fresh ∨ ((t.withFieldScalars fresh group).lookup type).isSome := by
      intro type htype
      have registered : ∀ {id}, t.lookup type = some id →
          ((t.withFieldScalars fresh group).lookup type).isSome := fun hid =>
        Option.isSome_of_eq_some (hg₁.toGrows.lookup hw₁ hid)
      rcases htypes type htype with ⟨d, hmd, rfl⟩ | hl | hscalar
      · cases hl : t.lookup d.name with
        | none => exact .inl (hnew.2 ⟨⟨d, hmd, rfl⟩, hl⟩)
        | some id => exact .inr (registered hl)
      · obtain ⟨id, hid⟩ := Option.isSome_iff_exists.1 hl
        exact .inr (registered hid)
      · by_cases hmem : type ∈ fresh
        · exact .inl hmem
        · exact .inr (hw.lookup_foldl_isSome (List.mem_flatMap.2 ⟨_, hm, htype⟩) hscalar hmem)
    obtain ⟨resolved, hres⟩ := resolveFields_isOk name hnodup hfound
    simp only [describe, hres]
    exact ⟨_, rfl⟩

end Accepts

/-- What fits the table is accepted. -/
theorem Documented.declare_of_accepts (hd : t.Documented) (hw : t.WellFormed)
    (ha : t.Accepts group) : ∃ ids t', t.declare group = .ok (ids, t') := by
  have hf := ha.freshNames hd hw
  have hnew : ∀ {n}, n ∈ (t.newOf group).map (·.name) ↔
      (∃ d ∈ group, d.name = n) ∧ t.lookup n = none := hd.mem_newNames_iff hw ha.not_scalar
  obtain ⟨-, -, hn⟩ := (freshNames_eq_ok List.nodup_nil).1 hf
  have hclaimed := ha.nodup_claimed hn fun n hm => (hnew.1 hm).2
  generalize (t.newOf group).map (·.name) = fresh at hf hnew hclaimed
  obtain ⟨homes, hh⟩ := ha.claimHomes (t.withFieldScalars fresh group) hnew hclaimed
  obtain ⟨staged, hs⟩ := ha.describeFresh homes hw hnew
  obtain ⟨hst, -⟩ := hw.staged hf rfl hh hs
  obtain ⟨hw₁, hg₁, -⟩ := hw.withFieldScalars fresh group
  have hfound : ∀ d ∈ group,
      ∃ id, ((t.withFieldScalars fresh group).register staged).lookup d.name = some id := by
    intro d hm
    cases hl : t.lookup d.name with
    | none =>
      obtain ⟨p, hp, rfl⟩ := List.mem_map.1 (hst.all d hm (hnew.2 ⟨⟨d, hm, rfl⟩, hl⟩))
      obtain ⟨id, hid, -⟩ := hst.realises hw₁ hp
      exact ⟨id, hid⟩
    | some id => exact ⟨id, Staged.grows.lookup (hst.wellFormed hw₁) (hg₁.toGrows.lookup hw₁ hl)⟩
  obtain ⟨ids, hids⟩ := exists_forall₂_iff.2 hfound
  refine ⟨ids, (t.withFieldScalars fresh group).register staged, ?_⟩
  unfold TypeTable.declare
  exact bind_eq_ok.2 ⟨_, hf, bind_eq_ok.2 ⟨_, hh, bind_eq_ok.2 ⟨_, hs,
    bind_eq_ok.2 ⟨_, idsOf_eq_ok.2 hids, rfl⟩⟩⟩⟩

/-! ### Groups that were accepted before -/

theorem foldl_withFieldScalar_eq {types : List Ident} (h : ∀ type ∈ types, (t.lookup type).isSome) :
    types.foldl (withFieldScalar fresh) t = t := by
  induction types with
  | nil => rfl
  | cons type rest ih =>
    have hsame : withFieldScalar fresh t type = t := if_pos (.inr (h type List.mem_cons_self))
    rw [List.foldl_cons, hsame]
    exact ih fun type hm => h type (List.mem_cons_of_mem _ hm)

theorem claimHomes_nil : t.claimHomes group [] homes rest = .ok homes := by
  induction rest with
  | nil => rfl
  | cons d rest ih => cases d <;> exact ih

theorem describeFresh_nil : t.describeFresh [] homes rest = .ok [] := by
  induction rest with
  | nil => rfl
  | cons d rest ih =>
    rw [describeFresh, if_neg List.not_mem_nil]
    exact ih

theorem register_nil : t.register [] = t := by
  simp [register]

/-- Declarations that are all registered keep their numbers, and the table stays as it is. -/
theorem Documented.declare_declared (hd : t.Documented) {ids : List TypeId}
    (hs : ∀ d ∈ group, scalarWidth d.name = none) (hm : ∀ d ∈ group, d ∈ t.declared)
    (hids : List.Forall₂ (fun d id => t.lookup d.name = some id) group ids) :
    t.declare group = .ok (ids, t) := by
  have hf : t.freshNames [] group = .ok [] := by
    refine (freshNames_eq_ok List.nodup_nil).2 ⟨fun d hmd => ⟨hs d hmd, fun old ho => ?_⟩, ?_,
      List.nodup_nil⟩
    · rw [hd.declaration?_of_mem (hm d hmd)] at ho
      exact (Option.some.inj ho).symm
    · rw [List.nil_append, eq_comm, List.map_eq_nil_iff, newOf, List.filter_eq_nil_iff]
      intro d hmd
      rw [hd.declaration?_of_mem (hm d hmd)]
      exact Bool.false_ne_true
  have hscalars : t.withFieldScalars [] group = t := by
    refine foldl_withFieldScalar_eq fun type htype => ?_
    obtain ⟨d, hmd, htype⟩ := List.mem_flatMap.1 htype
    cases d with
    | sum name variants => cases htype
    | record name fields =>
      -- the fields were resolved when the record was registered
      obtain ⟨id, -, r, -, -, hall⟩ := hd.realised _ (hm _ hmd)
      obtain ⟨p, hp, rfl⟩ := List.mem_map.1 htype
      obtain ⟨f, -, hf⟩ := exists_forall₂_iff.1 ⟨_, hall⟩ p hp
      exact Option.isSome_of_eq_some hf
  unfold TypeTable.declare
  refine bind_eq_ok.2 ⟨_, hf, ?_⟩
  rw [hscalars]
  refine bind_eq_ok.2 ⟨_, claimHomes_nil, bind_eq_ok.2 ⟨_, describeFresh_nil, ?_⟩⟩
  rw [register_nil]
  exact bind_eq_ok.2 ⟨_, idsOf_eq_ok.2 hids, rfl⟩

theorem Registered.after (h : t.Registered) (g : Registration) :
    (t.after g).Registered ∧ ∀ d ∈ t.declared, d ∈ (t.after g).declared := by
  cases g with
  | group declarations =>
    simp only [TypeTable.after]
    split
    · rename_i ids t' hd
      refine ⟨.declare h hd, fun d hm => ?_⟩
      rw [h.wellFormed.declared_of_declare hd]
      exact List.mem_append_left _ hm
    · exact ⟨h, fun d hm => hm⟩
  | scalar bits =>
    simp only [TypeTable.after]
    split
    · rename_i id t' hs
      refine ⟨.scalar h hs, fun d hm => ?_⟩
      obtain ⟨-, -, rfl⟩ := declareScalar_eq_ok.1 hs
      rwa [declared_ensureScalar]
    · exact ⟨h, fun d hm => hm⟩

theorem Registered.afterAll (h : t.Registered) (gs : List Registration) :
    (t.afterAll gs).Registered ∧ ∀ d ∈ t.declared, d ∈ (t.afterAll gs).declared := by
  induction gs generalizing t with
  | nil => exact ⟨h, fun d hm => hm⟩
  | cons g gs ih =>
    obtain ⟨h₁, hm₁⟩ := h.after g
    obtain ⟨h₂, hm₂⟩ := ih h₁
    exact ⟨h₂, fun d hm => hm₂ d (hm₁ d hm)⟩

namespace Registered

variable (h : t.Registered) {ids : List TypeId}
include h

theorem declare_isOk_iff : (∃ ids t', t.declare group = .ok (ids, t')) ↔ t.Accepts group :=
  ⟨fun ⟨_, _, hok⟩ => h.documented.accepts_of_declare h.wellFormed hok,
    fun ha => h.documented.declare_of_accepts h.wellFormed ha⟩

/-- The numbers answered are those of the types that the group describes. -/
theorem realises_of_declare (hok : t.declare group = .ok (ids, t')) :
    List.Forall₂ (fun d id => t'.lookup d.name = some id ∧ t'.Realises d id) group ids := by
  have hd' := h.documented.declare h.wellFormed hok
  have hdeclared : ∀ d ∈ group, d ∈ t'.declared := fun d hm => h.wellFormed.mem_declared_of_declare hok hm
  obtain ⟨-, -, -, -, -, -, -, -, -, hids⟩ := h.wellFormed.staged_of_declare hok
  refine ((List.forall₂_and_left _ _).2 ⟨hdeclared, idsOf_eq_ok.1 hids⟩).imp ?_
  rintro d id ⟨hm, hl⟩
  obtain ⟨id', hl', hr⟩ := hd'.realised d hm
  rw [hl] at hl'
  cases hl'
  exact ⟨hl, hr⟩

/-- The same group is answered with the same numbers ever after, and changes nothing. -/
theorem declare_again (hok : t.declare group = .ok (ids, t')) (later : List Registration) :
    (t'.afterAll later).declare group = .ok (ids, t'.afterAll later) := by
  have h' : t'.Registered := .declare h hok
  obtain ⟨h'', hmore⟩ := h'.afterAll later
  obtain ⟨-, hg⟩ := h'.wellFormed.afterAll later
  refine h''.documented.declare_declared (h.declare_isOk_iff.1 ⟨_, _, hok⟩).not_scalar
    (fun d hm => hmore d (h.wellFormed.mem_declared_of_declare hok hm)) ?_
  exact (h.realises_of_declare hok).imp fun _ _ hr => hg.lookup h''.wellFormed hr.1

end Registered

end ShapeCompiler.TypeTable

namespace ShapeCompiler

open TypeTable

theorem Engine.declareTypes_isOk_iff {e : Engine} (h : e.types.Registered) {group : List TypeDecl} :
    (∃ ids e', e.update (Update.declareTypes group) = (.ok ids, e')) ↔ e.types.Accepts group := by
  rw [← h.declare_isOk_iff]
  constructor
  · rintro ⟨ids, e', hu⟩
    obtain ⟨t, hd, -⟩ := update_declareTypes_eq_ok.1 hu
    exact ⟨ids, t, hd⟩
  · rintro ⟨ids, t, hd⟩
    exact ⟨ids, _, update_declareTypes_eq_ok.2 ⟨t, hd, rfl⟩⟩

/-- A group is accepted if and only if it fits the table. One number is answered for each declaration,
that of the type which it describes, and whatever is registered later, the same group is answered with
the same numbers and changes nothing. A group that is rejected changes nothing either. -/
theorem Engine.declareTypes_iff {e : Engine} (h : e.types.Registered) (group : List TypeDecl) :
    ((∃ ids e', e.update (Update.declareTypes group) = (.ok ids, e')) ↔ e.types.Accepts group) ∧
    (∀ ids e', e.update (Update.declareTypes group) = (.ok ids, e') →
      List.Forall₂ (fun d id => e'.types.lookup d.name = some id ∧ e'.types.Realises d id) group ids ∧
      ∀ (later : List Registration) (e₂ : Engine), e₂.types = e'.types.afterAll later →
        e₂.update (Update.declareTypes group) = (.ok ids, e₂)) ∧
    ∀ err e', e.update (Update.declareTypes group) = (.error err, e') → e' = e := by
  refine ⟨declareTypes_isOk_iff h, fun ids e' hu => ?_, fun err e' hu => ?_⟩
  · obtain ⟨t, hd, rfl⟩ := update_declareTypes_eq_ok.1 hu
    refine ⟨h.realises_of_declare hd, fun later e₂ he => update_declareTypes_eq_ok.2 ⟨e₂.types, ?_, rfl⟩⟩
    rw [he]
    exact h.declare_again hd later
  · rw [update_declareTypes] at hu
    split at hu
    · cases hu
    · cases hu
      rfl

/-! ### Trees declared again -/

namespace Catalog

def groveTypes : List TypeDecl := treeTypes ++ [.record "Grove" [("first", "Tree"), ("size", "u8")]]

def treeEngine : Engine := { options := {}, types := treeTable }

/-- The trees keep their numbers, the record comes after the number that it needs; the same group
declared later, when there are lists, too, is answered alike. -/
theorem groveTypes_declared : ∃ e', treeEngine.update (Update.declareTypes groveTypes) =
      (.ok [⟨1⟩, ⟨2⟩, ⟨3⟩, ⟨5⟩], e') ∧
    treeTable.Accepts groveTypes ∧
    ∀ e₂ : Engine, e₂.types = e'.types.afterAll [.group listTypes, .scalar 7] →
      e₂.update (Update.declareTypes groveTypes) = (.ok [⟨1⟩, ⟨2⟩, ⟨3⟩, ⟨5⟩], e₂) := by
  obtain ⟨haccepts, hok, -⟩ := Engine.declareTypes_iff (e := treeEngine) treeTable_registered groveTypes
  have hgrove : ∃ e', treeEngine.update (Update.declareTypes groveTypes) =
      (.ok [⟨1⟩, ⟨2⟩, ⟨3⟩, ⟨5⟩], e') := ⟨_, by with_unfolding_all rfl⟩
  obtain ⟨e', he'⟩ := hgrove
  exact ⟨e', he', haccepts.1 ⟨_, _, he'⟩, (hok _ _ he').2 _⟩

end Catalog

end ShapeCompiler
