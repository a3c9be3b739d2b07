import Mathlib.Data.List.Perm.Subperm
import ShapeCompiler.Proofs.Typing.Settled

/-!
How many passes inference takes, and what it accepts.

Every pass that changes anything raises a return type or adds a specialisation. A return type goes up
at most three times, so the weight of the assumptions (`Typing.weight`) counts the passes from above,
and it is bounded by the number of specialisations that there can be (`Typing.weight_le_size`,
`Typing.Stable.size_le`).

Main statement: inference accepts a root of which some assignment is confirmed by all walks under
smaller assumptions, and ends below this assignment (`Typing.Stable.infer`).
-/

namespace ShapeCompiler

open TypeTable

def Signature.Registered (t : TypeTable) (s : Signature) : Prop := ∀ id ∈ s.args, (t.get? id).isSome

variable {c : Typing} {t : TypeTable} {s s₁ s₂ : StaticType} {A P P' : Assumptions} {sig : Signature}
  {l found : List Signature}

/-! ### Weights -/

/-- How far a static type is up. -/
def StaticType.rank (t : TypeTable) : StaticType → Nat
  | unknown => 0
  | incomplete => 1
  | known id => if t.widen id = id then 3 else 2

theorem StaticType.rank_le (t : TypeTable) (s : StaticType) : s.rank t ≤ 3 := by
  cases s with
  | unknown => simp [rank]
  | incomplete => simp [rank]
  | known id => rw [rank]; split <;> simp

theorem StaticType.Below.rank_lt (hw : t.WellFormed) (h : StaticType.Below t s₁ s₂) (hne : s₂ ≠ s₁) :
    s₁.rank t < s₂.rank t := by
  cases h with
  | refl => exact absurd rfl hne
  | unknown =>
    cases s₂ with
    | unknown => exact absurd rfl hne
    | incomplete => simp [StaticType.rank]
    | known id => simp only [StaticType.rank]; split <;> simp
  | incomplete id => simp only [StaticType.rank]; split <;> simp
  | widen id =>
    have hid : ¬ t.widen id = id := fun h => hne (by rw [h])
    simp [StaticType.rank, hw.widen_widen, hid]

theorem StaticType.Below.known {a : TypeId} (h : StaticType.Below t (.known a) s) :
    ∃ id, s = .known id ∧ (a = id ∨ t.widen a = id) := by
  cases h with
  | refl => exact ⟨a, rfl, .inl rfl⟩
  | widen => exact ⟨_, rfl, .inr rfl⟩

namespace WorkList

variable {α β : Type} [DecidableEq α] {k : α} {v old : β} {entries : List (α × β)}

theorem weigh_put_of_some (weight : α × β → Nat) (h : Assoc.find k entries = some old) :
    weigh weight (Assoc.put k v entries) + weight (k, old) = weigh weight entries + weight (k, v) := by
  induction entries with
  | nil => cases h
  | cons p rest ih =>
    obtain ⟨j, w⟩ := p
    rw [Assoc.find] at h
    rw [Assoc.put]
    split at h
    · rename_i hj
      cases h
      subst hj
      rw [if_pos rfl, weigh_cons, weigh_cons]
      omega
    · rename_i hj
      have := ih h
      rw [if_neg hj, weigh_cons, weigh_cons]
      omega

theorem weigh_put_of_none (weight : α × β → Nat) (h : Assoc.find k entries = none) :
    weigh weight (Assoc.put k v entries) = weigh weight entries + weight (k, v) := by
  induction entries with
  | nil => rw [Assoc.put, weigh_cons, weigh_nil]; omega
  | cons p rest ih =>
    obtain ⟨j, w⟩ := p
    rw [Assoc.find] at h
    rw [Assoc.put]
    split at h
    · cases h
    · rename_i hj
      rw [if_neg hj, weigh_cons, weigh_cons, ih h]
      omega

omit [DecidableEq α] in
theorem weigh_le {weight : α → Nat} {bound : Nat} (h : ∀ x, weight x ≤ bound) (l : List α) :
    weigh weight l ≤ bound * l.length := by
  induction l with
  | nil => simp
  | cons x rest ih =>
    have := h x
    rw [weigh_cons, List.length_cons, Nat.mul_succ]
    omega

end WorkList

namespace Typing

/-- What is known so far of specialisations or variables, as a number: one for each of them and one
for each time that its type has gone up. -/
def weight {α : Type} (c : Typing) (A : Assoc α StaticType) : Nat :=
  WorkList.weigh (fun p : α × StaticType => 1 + p.2.rank c.types) A.entries

theorem weight_le_size {α : Type} (A : Assoc α StaticType) : c.weight A ≤ passesPerInstance * A.size :=
  WorkList.weigh_le (fun p => by have := p.2.rank_le c.types; show _ ≤ 4; omega) A.entries

/-- Raising a type makes the weight larger, and so does a new one. -/
theorem weight_insert_lt {α : Type} [DecidableEq α] {A : Assoc α StaticType} {k : α}
    (hw : c.types.WellFormed) (h : ((A.get? k).getD .unknown).Below c.types s)
    (hs : A.get? k = none ∨ s ≠ (A.get? k).getD .unknown) : c.weight A < c.weight (A.insert k s) := by
  unfold weight
  show _ < WorkList.weigh _ (Assoc.put k s A.entries)
  cases hold : A.get? k with
  | none =>
    rw [WorkList.weigh_put_of_none _ hold]
    omega
  | some old =>
    have hne : s ≠ (A.get? k).getD .unknown := hs.resolve_left (by simp [hold])
    have hlt := h.rank_lt hw hne
    rw [hold, Option.getD_some] at hlt
    have := WorkList.weigh_put_of_some (v := s)
      (fun p : α × StaticType => 1 + p.2.rank c.types) hold
    simp only at this
    omega

theorem visit_weight (hw : c.types.WellFormed) (h : c.visit P l = .ok (P', found)) :
    P' = P ∨ c.weight P < c.weight P' := by
  induction l generalizing P found with
  | nil => cases h; exact .inl rfl
  | cons sig rest ih =>
    obtain ⟨s, d, joined, later, -, hj, hv, -⟩ := visit_cons h
    split at hv
    · exact ih hv
    · rename_i hne
      have hlt := weight_insert_lt hw (join_above hj) (.inr hne)
      rcases ih hv with rfl | hlt'
      · exact .inr hlt
      · exact .inr (Nat.lt_trans hlt hlt')

theorem assumeNothing_weight (hw : c.types.WellFormed) :
    assumeNothing P l = P ∨ c.weight P < c.weight (assumeNothing P l) := by
  induction l generalizing P with
  | nil => exact .inl rfl
  | cons x rest ih =>
    rw [assumeNothing_cons]
    split
    · exact ih
    · rename_i hx
      have hnone : P.get? x = none := by simpa [Assoc.contains] using hx
      have hlt : c.weight P < c.weight (P.insert x .unknown) :=
        weight_insert_lt hw (by rw [hnone]; exact .refl _) (.inl hnone)
      rcases ih (P := P.insert x .unknown) with he | hlt'
      · rw [he]; exact .inr hlt
      · exact .inr (Nat.lt_trans hlt hlt')

/-- A pass changes nothing or makes the weight larger. -/
theorem pass_weight (hw : c.types.WellFormed) {order : List Signature → List Signature}
    (h : c.pass order P = .ok P') : P' = P ∨ c.weight P < c.weight P' := by
  unfold pass at h
  obtain ⟨⟨P₁, found⟩, hv, h⟩ := bind_eq_ok.1 h
  cases h
  rcases assumeNothing_weight (P := P₁) (l := found) hw with he | hlt
  · rw [he]; exact visit_weight hw hv
  · rcases visit_weight hw hv with rfl | hlt'
    · exact .inr hlt
    · exact .inr (Nat.lt_trans hlt' hlt)

/-! ### Assumptions below an assignment -/

/-- Assumptions that are no larger than others, where they assume anything. -/
def Within (c : Typing) (P A : Assumptions) : Prop :=
  ∀ s st, P.get? s = some st → ∃ st', A.get? s = some st' ∧ st.Below c.types st'

/-- Walks under some assumptions confirm others: each finds at most what these assume of its
signature, and meets only signatures of which they assume something. -/
def Confirms (c : Typing) (P A : Assumptions) : Prop :=
  ∀ s st, (P.get? s).isSome → A.get? s = some st →
    ∃ r found, c.walk P s = .ok (r, found) ∧ r.Below c.types st ∧ ∀ x ∈ found, (A.get? x).isSome

/-- Assumptions of registered signatures that are confirmed by the walks under all smaller ones. -/
structure Stable (c : Typing) (A : Assumptions) : Prop where
  registered : ∀ s, (A.get? s).isSome → ∀ id ∈ s.args, (c.types.get? id).isSome
  confirmed : ∀ P, c.Within P A → c.Confirms P A

theorem widen_not_scalar (hw : c.types.WellFormed) {id : TypeId} (h : c.types.widen id ≠ id) :
    c.types.scalarBits? (c.types.widen id) = none := by
  cases hr : c.types.record? id with
  | none => exact absurd (widen_of_no_record hr) h
  | some r =>
    cases hh : r.home with
    | none => exact absurd (widen_of_no_home hr hh) h
    | some S =>
      obtain ⟨sum, hsum⟩ := hw.sum_of_home hr hh
      rw [widen_of_home hr hh, Option.eq_none_iff_forall_ne_some]
      intro bits hbits
      rw [scalarBits?_eq_some, sum?_eq_some.1 hsum] at hbits
      cases hbits

/-- Two static types below a third have a join, which is below it too. -/
theorem join_below (hw : c.types.WellFormed) (h₁ : s₁.Below c.types s) (h₂ : s₂.Below c.types s) :
    ∃ joined, c.join s₁ s₂ = .ok joined ∧ joined.Below c.types s := by
  cases s₁ with
  | unknown => exact ⟨s₂, join_unknown s₂, h₂⟩
  | incomplete =>
    cases s₂ with
    | unknown => exact ⟨_, rfl, h₁⟩
    | incomplete => exact ⟨_, rfl, h₁⟩
    | known b => exact ⟨_, rfl, h₂⟩
  | known a =>
    cases s₂ with
    | unknown => exact ⟨_, rfl, h₁⟩
    | incomplete => exact ⟨_, rfl, h₁⟩
    | known b =>
      obtain ⟨id, rfl, ha⟩ := h₁.known
      obtain ⟨_, hid, hb⟩ := h₂.known
      cases hid
      rw [join]
      split
      · exact ⟨_, rfl, h₁⟩
      · rename_i hab
        -- the third type is the home of both, and a home that is not the type itself is a sum
        have hwa : c.types.widen a = id := by
          rcases ha with rfl | ha
          · rcases hb with rfl | hb
            · exact absurd rfl hab
            · rw [← hb, hw.widen_widen]
          · exact ha
        have hwb : c.types.widen b = id := by
          rcases hb with rfl | hb
          · rw [← hwa, hw.widen_widen]
          · exact hb
        have hscalar : c.types.scalarBits? id = none := by
          by_cases haid : a = id
          · rw [← hwb]
            exact widen_not_scalar hw (by rw [hwb, ← haid]; exact hab)
          · rw [← hwa]
            exact widen_not_scalar hw (by rw [hwa]; exact fun h => haid h.symm)
        rw [hwa, hwb, if_pos ⟨rfl, by rw [hscalar]; rfl⟩]
        exact ⟨_, rfl, .refl _⟩

/-- Joining what is below already changes nothing. -/
theorem join_of_below (hw : c.types.WellFormed) (h : s₁.Below c.types s) : c.join s s₁ = .ok s := by
  obtain ⟨joined, hj, hbelow⟩ := join_below hw (.refl s) h
  rw [hj, hbelow.antisymm hw (join_above hj)]

theorem assumption_within (h : c.Within P A) (hs : A.get? sig = some s) :
    (assumption P sig).Below c.types s := by
  unfold assumption
  cases hp : P.get? sig with
  | none => exact .unknown _
  | some st =>
    obtain ⟨st', hst', hbelow⟩ := h sig st hp
    cases hs.symm.trans hst'
    exact hbelow

theorem Within.insert (h : c.Within P A) (hs : A.get? sig = some s) (hbelow : s₁.Below c.types s) :
    c.Within (P.insert sig s₁) A := by
  intro x st hx
  rw [Assoc.get?_insert] at hx
  split at hx
  · rename_i he
    cases hx
    exact ⟨s, he ▸ hs, hbelow⟩
  · exact h x st hx

theorem Within.assumeNothing (h : c.Within P A) (hfound : ∀ x ∈ l, (A.get? x).isSome) :
    c.Within (assumeNothing P l) A := by
  induction l generalizing P with
  | nil => exact h
  | cons x rest ih =>
    have hrest : ∀ y ∈ rest, (A.get? y).isSome := fun y hy => hfound y (List.mem_cons_of_mem _ hy)
    rw [assumeNothing_cons]
    split
    · exact ih h hrest
    · obtain ⟨s, hs⟩ := Option.isSome_iff_exists.1 (hfound x (by simp))
      exact ih (h.insert hs (.unknown s)) hrest

section Stable

variable (hw : c.types.WellFormed) (hA : c.Stable A)
include hw hA

/-- Visits of known signatures succeed, and stay below a stable assignment. -/
theorem Stable.visit (hP : c.Within P A) (hl : ∀ x ∈ l, (P.get? x).isSome) :
    ∃ P' found, c.visit P l = .ok (P', found) ∧ c.Within P' A ∧ ∀ x ∈ found, (A.get? x).isSome := by
  induction l generalizing P with
  | nil => exact ⟨P, [], rfl, hP, by simp⟩
  | cons sig rest ih =>
    obtain ⟨p, hp⟩ := Option.isSome_iff_exists.1 (hl sig (by simp))
    obtain ⟨s, hs, -⟩ := hP sig p hp
    obtain ⟨r, d, hwalk, hr, hd⟩ := hA.confirmed P hP sig s (by rw [hp]; rfl) hs
    obtain ⟨joined, hj, hjoined⟩ := join_below hw (assumption_within hP hs) hr
    have hnext : c.Within (if joined = assumption P sig then P else P.insert sig joined) A ∧
        ∀ x ∈ rest, ((if joined = assumption P sig then P else P.insert sig joined).get? x).isSome := by
      split
      · exact ⟨hP, fun x hx => hl x (List.mem_cons_of_mem _ hx)⟩
      · refine ⟨hP.insert hs hjoined, fun x hx => ?_⟩
        rw [Assoc.get?_insert]
        split
        · rfl
        · exact hl x (List.mem_cons_of_mem _ hx)
    obtain ⟨P', later, hv, hP', hlater⟩ := ih hnext.1 hnext.2
    refine ⟨P', d ++ later, ?_, hP', ?_⟩
    · rw [Typing.visit]
      exact bind_eq_ok.2 ⟨(r, d), hwalk, bind_eq_ok.2 ⟨joined, hj, bind_eq_ok.2 ⟨(P', later), hv, rfl⟩⟩⟩
    · intro x hx
      rcases List.mem_append.1 hx with hx | hx
      · exact hd x hx
      · exact hlater x hx

theorem Stable.pass {order : List Signature → List Signature} (ho : ∀ l s, s ∈ order l ↔ s ∈ l)
    (hP : c.Within P A) : ∃ P', c.pass order P = .ok P' ∧ c.Within P' A := by
  obtain ⟨P₁, found, hv, hP₁, hfound⟩ := hA.visit hw hP fun x hx =>
    Assoc.mem_keys_iff.1 ((ho _ _).1 hx)
  refine ⟨_, ?_, hP₁.assumeNothing hfound⟩
  unfold Typing.pass
  rw [hv]
  rfl

end Stable

/-! ### The number of specialisations -/

def typeLists (ids : List TypeId) : Nat → List (List TypeId)
  | 0 => [[]]
  | k + 1 => ids.flatMap fun id => (typeLists ids k).map (id :: ·)

theorem length_typeLists (ids : List TypeId) (k : Nat) :
    (typeLists ids k).length = Nat.pow ids.length k := by
  induction k with
  | zero => rfl
  | succ k ih =>
    have hmap : ∀ id, ((typeLists ids k).map (id :: ·)).length = Nat.pow ids.length k := fun id => by
      rw [List.length_map, ih]
    rw [typeLists, List.length_flatMap, List.map_congr_left fun id _ => hmap id, List.map_const',
      List.sum_replicate_nat]
    exact Nat.mul_comm _ _

theorem mem_of_mem_typeLists {ids args : List TypeId} {k : Nat} (h : args ∈ typeLists ids k) :
    ∀ id ∈ args, id ∈ ids := by
  induction k generalizing args with
  | zero =>
    obtain rfl : args = [] := by simpa [typeLists] using h
    simp
  | succ k ih =>
    simp only [typeLists, List.mem_flatMap, List.mem_map] at h
    obtain ⟨id, hid, rest, hrest, rfl⟩ := h
    exact List.forall_mem_cons.2 ⟨hid, ih hrest⟩

theorem mem_typeLists {ids args : List TypeId} (h : ∀ id ∈ args, id ∈ ids) :
    args ∈ typeLists ids args.length := by
  induction args with
  | nil => simp [typeLists]
  | cons id args ih =>
    simp only [List.length_cons, typeLists, List.mem_flatMap, List.mem_map]
    exact ⟨id, h id (by simp), args, ih fun x hx => h x (List.mem_cons_of_mem _ hx), rfl⟩

/-- The types that arguments can have in the inference of a root. -/
def occurring (c : Typing) (root : Signature) : List TypeId :=
  (List.range c.types.size).map TypeId.mk ++ root.args

theorem length_occurring (root : Signature) :
    (c.occurring root).length = c.types.size + root.args.length := by
  simp [occurring]

theorem mem_occurring {id : TypeId} (h : (c.types.get? id).isSome) (root : Signature) :
    id ∈ c.occurring root := by
  have hlt : id.index < c.types.size := by
    unfold TypeTable.get? at h
    simpa [TypeTable.size] using h
  exact List.mem_append_left _ (List.mem_map.2 ⟨id.index, List.mem_range.2 hlt, rfl⟩)

/-- All specialisations that a program can have in the inference of a root. -/
def signatures (c : Typing) (root : Signature) : List Signature :=
  c.functions.entries.flatMap fun p => (typeLists (c.occurring root) p.2.arity).map (⟨p.1, ·⟩)

theorem length_signatures (root : Signature) :
    (c.signatures root).length < c.instanceBound root := by
  unfold signatures instanceBound
  induction c.functions.entries with
  | nil => simp
  | cons p rest ih =>
    obtain ⟨name, f⟩ := p
    rw [List.flatMap_cons, List.length_append, List.length_map, length_typeLists, length_occurring,
      WorkList.weigh_cons]
    show Nat.pow (c.types.size + root.args.length) f.arity + _ <
      1 + (Nat.pow (c.types.size + root.args.length) f.arity + _)
    omega

theorem mem_signatures {root : Signature} {f : Function} (hf : c.functions.get? sig.function = some f)
    (harity : f.arity = sig.args.length) (hargs : ∀ id ∈ sig.args, id ∈ c.occurring root) :
    sig ∈ c.signatures root := by
  refine List.mem_flatMap.2 ⟨(sig.function, f), Assoc.mem_of_get? hf, ?_⟩
  rw [harity]
  exact List.mem_map.2 ⟨sig.args, mem_typeLists hargs, rfl⟩

theorem mem_occurring_of_signatures {root : Signature} (h : sig ∈ c.signatures root) :
    ∀ id ∈ sig.args, id ∈ c.occurring root := by
  obtain ⟨p, -, h⟩ := List.mem_flatMap.1 h
  obtain ⟨args, hargs, rfl⟩ := List.mem_map.1 h
  exact mem_of_mem_typeLists hargs

/-- A signature that can be walked is one that the program can have. -/
theorem walk_signatures {s : StaticType} (h : c.walk P sig = .ok (s, found))
    (hargs : ∀ id ∈ sig.args, (c.types.get? id).isSome) (root : Signature) :
    sig ∈ c.signatures root := by
  obtain ⟨f, d, strict, F, hf, hfd, hr, -⟩ := walk_eq_ok h
  refine mem_signatures hf ?_ fun id hid => mem_occurring (hargs id hid) root
  rw [← (Walker.returnType_ok hr).1]
  cases f with
  | decorated d => cases hfd; rfl
  | interpreted d => cases hfd; rfl
  | native n => cases hfd

/-- There are never more specialisations known than the program can have. -/
theorem Stable.size_le (hA : c.Stable A) (hP : c.Within P A) (hn : P.keys.Nodup) (root : Signature) :
    P.size < c.instanceBound root := by
  have hsub : P.keys ⊆ c.signatures root := by
    intro x hx
    obtain ⟨p, hp⟩ := Option.isSome_iff_exists.1 (Assoc.mem_keys_iff.1 hx)
    obtain ⟨s, hs, -⟩ := hP x p hp
    obtain ⟨r, d, hwalk, -⟩ := hA.confirmed P hP x s (by rw [hp]; rfl) hs
    exact walk_signatures hwalk (hA.registered x (by rw [hs]; rfl)) root
  have hle := (hn.subperm hsub).length_le
  rw [Assoc.keys, List.length_map] at hle
  exact Nat.lt_of_le_of_lt hle (length_signatures root)

/-! ### Acceptance -/

/-- Passes settle below a stable assignment. -/
theorem Stable.settle (hw : c.types.WellFormed) (hA : c.Stable A) {order : VisitOrder}
    (ho : order.Complete) (root : Signature) {fuel passes : Nat} (hP : c.Within P A)
    (hn : P.keys.Nodup) (hweight : passes < c.weight P)
    (hfuel : passesPerInstance * c.instanceBound root < fuel + passes) :
    ∃ T, c.settle order root.function fuel passes P = .ok T ∧ c.Within (assumptionsOf T) A := by
  induction fuel generalizing P passes with
  | zero =>
    have := weight_le_size (c := c) P
    have := hA.size_le hP hn root
    unfold passesPerInstance at *
    omega
  | succ fuel ih =>
    obtain ⟨next, hpass, hnext⟩ := hA.pass hw (ho passes) hP
    have hpasses : passes ≤ passesPerInstance * P.size :=
      Nat.le_trans (Nat.le_of_lt hweight) (weight_le_size P)
    rw [Typing.settle, if_pos hpasses]
    by_cases he : next = P
    · subst he
      refine ⟨_, bind_eq_ok.2 ⟨next, hpass, if_pos rfl⟩, ?_⟩
      rw [(pass_fixed hw (ho passes) hpass).assumptionsOf_known hn]
      exact hP
    · have hlt := (pass_weight hw hpass).resolve_left he
      have hweight' : passes + 1 < c.weight next := by omega
      obtain ⟨T, hT, hwithin⟩ := ih hnext (pass_nodup hn hpass) hweight' (by omega)
      exact ⟨T, bind_eq_ok.2 ⟨next, hpass, (if_neg he).trans hT⟩, hwithin⟩

/-- Inference accepts a root of which a stable assignment assumes something, and ends below it. -/
theorem Stable.infer (hw : c.types.WellFormed) (hA : c.Stable A) {order : VisitOrder}
    (ho : order.Complete) {root : Signature} (hroot : (A.get? root).isSome) :
    ∃ T, c.infer order root = .ok T ∧ c.Within (assumptionsOf T) A := by
  obtain ⟨s, hs⟩ := Option.isSome_iff_exists.1 hroot
  have hempty : c.Within Assoc.empty A := fun x st hx => by cases hx
  refine hA.settle hw ho root (hempty.insert hs (.unknown s)) (List.nodup_singleton root) ?_ ?_
  · show 0 < WorkList.weigh _ [(root, StaticType.unknown)]
    simp [StaticType.rank]
  · omega

end Typing

end ShapeCompiler
