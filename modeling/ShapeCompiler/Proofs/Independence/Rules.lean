import ShapeCompiler.Proofs.Independence.Parallel
import ShapeCompiler.Proofs.Independence.Tables
import ShapeCompiler.Typing.MatchPlan

/-!
Typing rules in surroundings that have gained different scalars.

Surroundings are twins if they have the same functions, and tables of types that have grown from one by
scalars. What a rule says of types that are described alike is described alike, errors included, as these
name types and do not number them. Main statements: one such rule each, and that a match has the same plan
on both sides (`Typing.Twin.plan_eq`).
-/

namespace ShapeCompiler

open TypeTable

/-- Static types that are described alike. -/
inductive StaticType.Twin (t t' : TypeTable) : StaticType → StaticType → Prop
  | unknown : Twin t t' .unknown .unknown
  | incomplete : Twin t t' .incomplete .incomplete
  | known {id id' : TypeId} (h : t.Twin t' id id') : Twin t t' (.known id) (.known id')

/-- Signatures of one function on types that are described alike. -/
structure Signature.Twin (t t' : TypeTable) (s s' : Signature) : Prop where
  function : s.function = s'.function
  args : List.Forall₂ (t.Twin t') s.args s'.args

/-- Names bound in the same way to types that are described alike. -/
structure Binder.Twin (t t' : TypeTable) (b b' : Binder) : Prop where
  name : b.name = b'.name
  type : b.type.Twin t t' b'.type
  access : b.access = b'.access

/-- Surroundings that differ only in the scalars that they have gained over a table, which has the types
that natives declare. -/
structure Typing.Twin (t₀ : TypeTable) (c c' : Typing) : Prop where
  types : Siblings t₀ c.types c'.types
  functions : c'.functions = c.functions
  bits : c'.defaultBits = c.defaultBits
  scalar : c.types.Twin c'.types c.defaultScalar c'.defaultScalar
  natives : ∀ {name n}, c.functions.get? name = some (.native n) →
    (∀ p ∈ n.params, (t₀.get? p).isSome) ∧ (t₀.get? n.returns).isSome

variable {t₀ t t' u u' : TypeTable} {s s' s₁ s₁' s₂ s₂' : StaticType} {id id' : TypeId} {name : Ident}

/-! ### Relations -/

namespace StaticType.Twin

theorem known?_rel (h : s.Twin t t' s') : Option.Rel (t.Twin t') s.known? s'.known? := by
  cases h with
  | unknown => exact .none
  | incomplete => exact .none
  | known h => exact .some h

theorem ofReturn {r r' : Option TypeId} (h : Option.Rel (t.Twin t') r r') :
    (StaticType.ofReturn r).Twin t t' (.ofReturn r') := by
  cases h with
  | none => exact .incomplete
  | some h => exact .known h

theorem biUnique (h : Siblings t₀ t t') : Relator.BiUnique (StaticType.Twin t t') where
  left a b c hac hbc := by
    cases hac with
    | unknown => cases hbc; rfl
    | incomplete => cases hbc; rfl
    | known hac => cases hbc with | known hbc => rw [h.biUnique.1 hac hbc]
  right a b c hab hac := by
    cases hab with
    | unknown => cases hac; rfl
    | incomplete => cases hac; rfl
    | known hab => cases hac with | known hac => rw [h.biUnique.2 hab hac]

end StaticType.Twin

theorem Signature.Twin.biUnique (h : Siblings t₀ t t') : Relator.BiUnique (Signature.Twin t t') where
  left a b c hac hbc := by
    obtain ⟨fa, as⟩ := a
    obtain ⟨fb, bs⟩ := b
    obtain rfl : fa = fb := hac.function.trans hbc.function.symm
    obtain rfl : as = bs := h.biUnique.forall₂.1 hac.args hbc.args
    rfl
  right a b c hab hac := by
    obtain ⟨fb, bs⟩ := b
    obtain ⟨fc, cs⟩ := c
    obtain rfl : fb = fc := hab.function.symm.trans hac.function
    obtain rfl : bs = cs := h.biUnique.forall₂.2 hab.args hac.args
    rfl

theorem Signature.Twin.grows {x x' : Signature} (h : x.Twin t t' x') (hg : t.Grows u) (hg' : t'.Grows u') :
    x.Twin u u' x' :=
  ⟨h.function, h.args.imp fun _ _ h => h.grows hg hg'⟩

/-- A static type of something that both tables had from the beginning. -/
theorem TypeTable.Siblings.known (h : Siblings t₀ t t') (hs : (t₀.get? id).isSome) :
    (StaticType.known id).Twin t t' (.known id) :=
  .known (h.common hs)

namespace Typing.Twin

variable {c c' : Typing} (h : Twin t₀ c c')
include h

/-! ### Rules -/

theorem resolve_eq (name : Ident) (args : Nat) : c'.resolve name args = c.resolve name args := by
  unfold Typing.resolve
  rw [h.types.recordNamed?_eq, h.functions]

theorem join (h₁ : s₁.Twin c.types c'.types s₁') (h₂ : s₂.Twin c.types c'.types s₂') :
    Parallel (StaticType.Twin c.types c'.types) (c.join s₁ s₂) (c'.join s₁' s₂') := by
  cases h₁ with
  | unknown => cases h₂ <;> exact .ok (by constructor <;> assumption)
  | incomplete => cases h₂ <;> exact .ok (by constructor <;> assumption)
  | @known a a' ha =>
    cases h₂ with
    | unknown => exact .ok (.known ha)
    | incomplete => exact .ok (.known ha)
    | @known b b' hb =>
      have hwa := h.types.widen ha
      have heq : a = b ↔ a' = b' := Relator.rel_eq h.types.biUnique ha hb
      have hweq : c.types.widen a = c.types.widen b ↔ c'.types.widen a' = c'.types.widen b' :=
        Relator.rel_eq h.types.biUnique hwa (h.types.widen hb)
      unfold Typing.join
      simp only [← heq, ← hweq, hwa.scalarBits?_eq, ha.name_eq, hb.name_eq]
      split
      · exact .ok (.known ha)
      · split
        · exact .ok (.known hwa)
        · exact .error _

omit h in
theorem expectScalar_eq (op : Operator) (hs : s.Twin c.types c'.types s') :
    c'.expectScalar op s' = c.expectScalar op s := by
  cases hs with
  | unknown => rfl
  | incomplete => rfl
  | known hid =>
    unfold Typing.expectScalar
    simp only [StaticType.known?, hid.scalarBits?_eq, hid.name_eq]

omit h in
theorem scalar_of_expectScalar {op : Operator} (h : c.expectScalar op (.known id) = .ok ()) :
    ∃ bits, c.types.scalarBits? id = some bits := by
  unfold Typing.expectScalar at h
  simp only [StaticType.known?] at h
  split at h
  · rename_i hb
    exact Option.isSome_iff_exists.1 hb
  · cases h

theorem wider {a a' b b' : TypeId} {x y : Nat} (ha : c.types.Twin c'.types a a')
    (hb : c.types.Twin c'.types b b') (hx : c.types.scalarBits? a = some x)
    (hy : c.types.scalarBits? b = some y) :
    (c.widerOf (.known a) (.known b)).Twin c.types c'.types (c'.widerOf (.known a') (.known b')) := by
  unfold Typing.widerOf Typing.scalarBits
  simp only [ha.scalarBits?_eq, hb.scalarBits?_eq, hx, hy, Option.getD_some]
  rcases Nat.le_total x y with hle | hle
  · obtain ⟨hs, hs'⟩ := h.types.scalar? hb hy
    rw [Nat.max_eq_right hle, hs, hs']
    exact .known hb
  · obtain ⟨hs, hs'⟩ := h.types.scalar? ha hx
    rw [Nat.max_eq_left hle, hs, hs']
    exact .known ha

theorem binary (op : Operator) (h₁ : s₁.Twin c.types c'.types s₁') (h₂ : s₂.Twin c.types c'.types s₂') :
    Parallel (StaticType.Twin c.types c'.types) (c.binary op s₁ s₂) (c'.binary op s₁' s₂') := by
  unfold Typing.binary
  rw [expectScalar_eq op h₁, expectScalar_eq op h₂]
  cases hs₁ : c.expectScalar op s₁ with
  | error e => exact .error e
  | ok _ =>
    cases hs₂ : c.expectScalar op s₂ with
    | error e => exact .error e
    | ok _ =>
      refine .ok ?_
      cases h₁ with
      | unknown => exact .unknown
      | incomplete =>
        cases h₂ with
        | unknown => exact .unknown
        | incomplete => exact .known h.scalar
        | known hb => exact .known hb
      | known ha =>
        cases h₂ with
        | unknown => exact .unknown
        | incomplete => exact .known ha
        | known hb =>
          obtain ⟨x, hx⟩ := scalar_of_expectScalar hs₁
          obtain ⟨y, hy⟩ := scalar_of_expectScalar hs₂
          exact h.wider ha hb hx hy

theorem fits_eq {a a' x x' : TypeId} (hx : c.types.Twin c'.types x x') (ha : c.types.Twin c'.types a a') :
    c'.fits x' a' = c.fits x a := by
  have heq : a' = x' ↔ a = x := (Relator.rel_eq h.types.biUnique ha hx).symm
  have hweq : c'.types.widen a' = x' ↔ c.types.widen a = x :=
    (Relator.rel_eq h.types.biUnique (h.types.widen ha) hx).symm
  have hor : (a' == x' || c'.types.widen a' == x') = (a == x || c.types.widen a == x) := by
    rw [Bool.eq_iff_iff]
    simp only [Bool.or_eq_true, beq_iff_eq, heq, hweq]
  unfold Typing.fits
  rw [hx.get?_eq, ha.get?_eq, hor]

theorem expectType_eq (position : Position) {x x' : TypeId} (hx : c.types.Twin c'.types x x')
    (hs : s.Twin c.types c'.types s') : c'.expectType position x' s' = c.expectType position x s := by
  cases hs with
  | unknown => rfl
  | incomplete => rfl
  | known hid =>
    unfold Typing.expectType
    simp only [StaticType.known?, h.fits_eq hx hid, hx.name_eq, hid.name_eq]

theorem checkFields_eq (record : Ident) {fs : List Field} (hfs : ∀ f ∈ fs, (t₀.get? f.type).isSome)
    {ts ts' : List StaticType} (hts : List.Forall₂ (StaticType.Twin c.types c'.types) ts ts') :
    c'.checkFields record fs ts' = c.checkFields record fs ts := by
  induction hts generalizing fs with
  | nil => cases fs <;> rfl
  | cons hd _ ih =>
    cases fs with
    | nil => rfl
    | cons f fs =>
      rw [Typing.checkFields, Typing.checkFields,
        h.expectType_eq _ (h.types.common (hfs f (by simp))) hd,
        ih fun g hg => hfs g (List.mem_cons_of_mem _ hg)]

theorem checkParams_eq (function : Ident) (index : Nat) {ps : List TypeId}
    (hps : ∀ p ∈ ps, (t₀.get? p).isSome) {ts ts' : List StaticType}
    (hts : List.Forall₂ (StaticType.Twin c.types c'.types) ts ts') :
    c'.checkParams function index ps ts' = c.checkParams function index ps ts := by
  induction hts generalizing ps index with
  | nil => cases ps <;> rfl
  | cons hd _ ih =>
    cases ps with
    | nil => rfl
    | cons p ps =>
      rw [Typing.checkParams, Typing.checkParams, h.expectType_eq _ (h.types.common (hps p (by simp))) hd,
        ih _ fun q hq => hps q (List.mem_cons_of_mem _ hq)]

theorem field (hs : s.Twin c.types c'.types s') (name : Ident) :
    Parallel (fun p q => p.1.Twin c.types c'.types q.1 ∧ p.2 = q.2) (c.field s name)
      (c'.field s' name) := by
  cases hs with
  | unknown => exact .ok ⟨.unknown, rfl⟩
  | incomplete => exact .ok ⟨.incomplete, rfl⟩
  | @known id id' hid =>
    unfold Typing.field
    simp only [hid.record?_eq, hid.name_eq]
    cases hr : c.types.record? id with
    | none => exact .error _
    | some r =>
      cases hi : r.fieldIndex? name with
      | none => simp only [hi]; exact .error _
      | some i =>
        cases hf : r.fields[i]? with
        | none => simp only [hi, hf]; exact .error _
        | some f =>
          simp only [hi, hf]
          exact .ok ⟨h.types.known (h.types.field hr f (List.mem_of_getElem? hf)), rfl⟩

omit h in
theorem argTypes (function : Ident) (index : Nat) {ts ts' : List StaticType}
    (hts : List.Forall₂ (StaticType.Twin t t') ts ts') :
    Parallel (Option.Rel (List.Forall₂ (t.Twin t'))) (argTypes function index ts)
      (Typing.argTypes function index ts') := by
  induction hts generalizing index with
  | nil => exact .ok (.some .nil)
  | @cons s s' rest rest' hd _ ih =>
    cases hd with
    | unknown => exact .ok .none
    | incomplete => exact .error _
    | known hid =>
      rw [Typing.argTypes, Typing.argTypes]
      have hrest := ih (index + 1)
      generalize Typing.argTypes function (index + 1) rest = x at hrest ⊢
      generalize Typing.argTypes function (index + 1) rest' = y at hrest ⊢
      cases hrest with
      | error e => exact .error e
      | ok hrest =>
        cases hrest with
        | none => exact .ok .none
        | some hrest => exact .ok (.some (.cons hid hrest))

omit h in
theorem signature? (function : Ident) {ts ts' : List StaticType}
    (hts : List.Forall₂ (StaticType.Twin t t') ts ts') :
    Parallel (Option.Rel (Signature.Twin t t')) (Typing.signature? function ts)
      (Typing.signature? function ts') := by
  refine (argTypes function 0 hts).map fun a b hab => ?_
  cases hab with
  | none => exact .none
  | some hab => exact .some ⟨rfl, hab⟩

/-! ### Plans -/

theorem variantsOf_eq (hid : c.types.Twin c'.types id id') : c'.variantsOf id' = c.variantsOf id := by
  unfold Typing.variantsOf
  rw [hid.get?_eq, hid.name_eq]
  cases hd : c.types.get? id with
  | none => rfl
  | some d =>
    cases d with
    | scalar bits => rfl
    | record r =>
      obtain rfl := h.types.eq_of_common hid (h.types.common_of_record (record?_eq_some.2 hd))
      simp only [h.types.sum?_eq]
    | sum x =>
      obtain rfl := h.types.eq_of_common hid (h.types.common_of_sum (sum?_eq_some.2 hd))
      rfl

/-- What constructor patterns choose from are records that were there from the beginning, as was their
type. -/
theorem variantsOf_common {type : TypeId} {variants : List TypeId}
    (hv : c.variantsOf id = .ok (type, variants)) :
    (t₀.get? type).isSome ∧ ∀ v ∈ variants, ∃ r, t₀.record? v = some r := by
  have hrec : ∀ {v r}, c.types.record? v = some r → ∃ r, t₀.record? v = some r := fun hr =>
    ⟨_, (h.types.growsLeft.record?_eq _).symm.trans hr⟩
  have hsum : ∀ {S x}, c.types.sum? S = some x → ∀ v ∈ x.variants, ∃ r, t₀.record? v = some r := by
    intro S x hx v hv
    obtain ⟨i, hi⟩ := List.getElem?_of_mem hv
    obtain ⟨r, hr, -⟩ := h.types.left.variant hx hi
    exact hrec hr
  unfold Typing.variantsOf at hv
  split at hv
  · rename_i x hd
    cases hv
    exact ⟨h.types.common_of_sum (sum?_eq_some.2 hd), hsum (sum?_eq_some.2 hd)⟩
  · rename_i r hd
    have hr := record?_eq_some.2 hd
    split at hv
    · rename_i S hh
      cases hv
      obtain ⟨x, hx⟩ := h.types.left.sum_of_home hr hh
      rw [hx]
      exact ⟨h.types.common_of_sum hx, hsum hx⟩
    · cases hv
      exact ⟨h.types.common_of_record hr, fun v hv => by rw [List.mem_singleton.1 hv]; exact hrec hr⟩
  · cases hv

theorem firstNamed_eq (patterns : List Pattern) : c'.firstNamed patterns = c.firstNamed patterns := by
  have hnamed : c'.types.recordNamed? = c.types.recordNamed? := funext h.types.recordNamed?_eq
  unfold Typing.firstNamed
  rw [hnamed]

theorem firstNamed_common {patterns : List Pattern} (hn : c.firstNamed patterns = .ok id) :
    (t₀.get? id).isSome := by
  unfold Typing.firstNamed at hn
  simp only at hn
  split at hn
  · rename_i r hb
    cases hn
    obtain ⟨_, -, hb⟩ := Option.bind_eq_some_iff.1 hb
    exact h.types.common_of_record (recordNamed?_eq_some.1 hb).2
  · cases hn

theorem planTags_eq {type : TypeId} (htype : (t₀.get? type).isSome) {variants : List TypeId}
    (hvariants : ∀ v ∈ variants, ∃ r, t₀.record? v = some r) (index : Nat) (table : List (Option Nat))
    (reachable : List Nat) (patterns : List Pattern) :
    c'.planTags type variants index table reachable patterns =
      c.planTags type variants index table reachable patterns := by
  have htag : c'.tagOf type variants = c.tagOf type variants := by
    funext name
    unfold Typing.tagOf
    rw [Siblings.findIdx?_lookup h.types.growsLeft h.types.left hvariants,
      Siblings.findIdx?_lookup h.types.growsRight h.types.right hvariants,
      (h.types.common htype).name_eq]
  have harity : c'.variantArity variants = c.variantArity variants := by
    have hrec : c'.types.record? = c.types.record? := funext h.types.record?_eq
    funext tag
    unfold Typing.variantArity
    rw [hrec]
  induction patterns generalizing index table reachable with
  | nil => rfl
  | cons p rest ih =>
    cases p with
    | ctor name binders => rw [Typing.planTags, Typing.planTags, htag, harity]; simp only [ih]
    | lit n => rfl
    | bind name => rfl
    | wildcard => rfl

theorem literalBits_eq (hs : s.Twin c.types c'.types s') : c'.literalBits s' = c.literalBits s := by
  cases hs with
  | unknown => exact congrArg Except.ok h.bits
  | incomplete => exact congrArg Except.ok h.bits
  | known hid =>
    unfold Typing.literalBits
    simp only [StaticType.known?, hid.scalarBits?_eq, hid.name_eq]

/-- The types that constructor patterns choose from when a record is known or named. -/
theorem planTagsOf_eq (hid : c.types.Twin c'.types id id') (patterns : List Pattern) :
    (c'.variantsOf id' >>= fun p =>
        c'.planTags p.1 p.2 0 (List.replicate p.2.length none) [] patterns) =
      c.variantsOf id >>= fun p =>
        c.planTags p.1 p.2 0 (List.replicate p.2.length none) [] patterns := by
  rw [h.variantsOf_eq hid]
  cases hv : c.variantsOf id with
  | error e => rfl
  | ok p =>
    obtain ⟨htype, hvariants⟩ := h.variantsOf_common hv
    exact h.planTags_eq htype hvariants _ _ _ _

theorem planArms_eq (hs : s.Twin c.types c'.types s') (patterns : List Pattern) :
    c'.planArms s' patterns = c.planArms s patterns := by
  unfold Typing.planArms
  split
  · split
    · rfl
    · cases hs with
      | known hid => exact h.planTagsOf_eq hid patterns
      | unknown =>
        show (c'.firstNamed patterns >>= _) = c.firstNamed patterns >>= _
        rw [h.firstNamed_eq]
        cases hn : c.firstNamed patterns with
        | error e => rfl
        | ok named => exact h.planTagsOf_eq (h.types.common (h.firstNamed_common hn)) patterns
      | incomplete =>
        show (c'.firstNamed patterns >>= _) = c.firstNamed patterns >>= _
        rw [h.firstNamed_eq]
        cases hn : c.firstNamed patterns with
        | error e => rfl
        | ok named => exact h.planTagsOf_eq (h.types.common (h.firstNamed_common hn)) patterns
  · rw [h.literalBits_eq hs]

theorem plan_eq (function : Ident) (hs : s.Twin c.types c'.types s') (patterns : List Pattern) :
    c'.plan function s' patterns = c.plan function s patterns := by
  unfold Typing.plan
  rw [h.planArms_eq hs]

omit h in
theorem fieldBinders (hT : Siblings t₀ t t') (r : RecordType) (index : Nat) (names : List Ident)
    {fs : List Field} (hfs : ∀ f ∈ fs, (t₀.get? f.type).isSome) :
    List.Forall₂ (Binder.Twin t t') (Typing.fieldBinders r index names fs)
      (Typing.fieldBinders r index names fs) := by
  induction names generalizing index fs with
  | nil => exact .nil
  | cons n names ih =>
    cases fs with
    | nil => exact .nil
    | cons f fs =>
      have hrest := ih (index + 1) fun g hg => hfs g (List.mem_cons_of_mem _ hg)
      rw [Typing.fieldBinders]
      split
      · exact hrest
      · exact .cons ⟨rfl, hT.known (hfs f (by simp)), rfl⟩ hrest

theorem binders (pattern : Pattern) (hs : s.Twin c.types c'.types s') :
    List.Forall₂ (Binder.Twin c.types c'.types) (c.binders pattern s) (c'.binders pattern s') := by
  cases pattern with
  | lit n => exact .nil
  | wildcard => exact .nil
  | bind n =>
    unfold Typing.binders
    simp only
    split
    · exact .nil
    · exact .cons ⟨rfl, hs, rfl⟩ .nil
  | ctor n names =>
    unfold Typing.binders
    simp only [h.types.recordNamed?_eq]
    cases hr : c.types.recordNamed? n with
    | none => exact .nil
    | some p => exact fieldBinders h.types _ 0 names (h.types.field (recordNamed?_eq_some.1 hr).2)

end Typing.Twin

end ShapeCompiler
