import ShapeCompiler.Proofs.Assoc
import ShapeCompiler.Proofs.Typing.Findings
import ShapeCompiler.Typing.Inference

/-!
What the passes of inference leave behind.

Return types only go up from one visit to the next (`Typing.visit_above`), so a pass that ends where
it began has not changed anything on its way either. Main statement: the assumptions that inference
ends with are settled, and the root is among them (`Typing.infer_settled`).
-/

namespace ShapeCompiler

open TypeTable

/-- The order of static types: a join goes up in it. -/
inductive StaticType.Below (t : TypeTable) : StaticType → StaticType → Prop
  | refl (s : StaticType) : Below t s s
  | unknown (s : StaticType) : Below t .unknown s
  | incomplete (id : TypeId) : Below t .incomplete (.known id)
  | widen (id : TypeId) : Below t (.known id) (.known (t.widen id))

def Function.definition? : Function → Option FunctionDef
  | .decorated d => some d
  | .interpreted d => some d
  | .native _ => none

variable {c : Typing} {t : TypeTable} {s s₁ s₂ s₃ : StaticType} {A A' : Assumptions}
  {sig : Signature} {l found : List Signature}

namespace StaticType.Below

theorem trans (hw : t.WellFormed) (h : Below t s₁ s₂) (h' : Below t s₂ s₃) : Below t s₁ s₃ := by
  cases h with
  | refl => exact h'
  | unknown => exact .unknown _
  | incomplete id =>
    cases h' with
    | refl => exact .incomplete id
    | widen => exact .incomplete _
  | widen id =>
    cases h' with
    | refl => exact .widen id
    | widen =>
      rw [hw.widen_widen]
      exact .widen id

theorem antisymm (hw : t.WellFormed) (h : Below t s₁ s₂) (h' : Below t s₂ s₁) : s₁ = s₂ := by
  cases h with
  | refl => rfl
  | unknown =>
    cases h' with
    | refl => rfl
    | unknown => rfl
  | incomplete id => cases h'
  | widen id =>
    generalize hb : t.widen id = b at h'
    cases h' with
    | refl => rfl
    | widen =>
      -- the home of a home is itself
      rw [hw.widen_widen] at hb
      rw [hb]

end StaticType.Below

namespace Typing

theorem join_above (h : c.join s₁ s₂ = .ok s) : StaticType.Below c.types s₁ s := by
  cases s₁ with
  | unknown => exact .unknown _
  | incomplete =>
    cases s₂ with
    | unknown => cases h; exact .refl _
    | incomplete => cases h; exact .refl _
    | known b => cases h; exact .incomplete b
  | known a =>
    cases s₂ with
    | unknown => cases h; exact .refl _
    | incomplete => cases h; exact .refl _
    | known b =>
      rw [join] at h
      split at h
      · cases h; exact .refl _
      · split at h
        · cases h; exact .widen a
        · cases h

theorem join_above_right (h : c.join s₁ s₂ = .ok s) : StaticType.Below c.types s₂ s := by
  cases s₁ with
  | unknown =>
    obtain rfl : s₂ = s := by
      cases s₂ <;> exact Except.ok.inj h
    exact .refl _
  | incomplete =>
    cases s₂ with
    | unknown => exact .unknown _
    | incomplete => cases h; exact .refl _
    | known b => cases h; exact .refl _
  | known a =>
    cases s₂ with
    | unknown => exact .unknown _
    | incomplete => cases h; exact .incomplete _
    | known b =>
      rw [join] at h
      split at h
      · rename_i hab
        cases h
        rw [hab]
        exact .refl _
      · split at h
        · rename_i hw
          cases h
          rw [hw.1]
          exact .widen b
        · cases h

theorem join_unknown (s : StaticType) : c.join .unknown s = .ok s := by
  cases s <;> rfl

theorem join_incomplete_ne (h : c.join s₁ .incomplete = .ok s) : s ≠ .unknown := by
  cases s₁ with
  | unknown => cases h; simp
  | incomplete => cases h; simp
  | known a => cases h; simp

/-! ### One visit -/

abbrev assumption (A : Assumptions) (sig : Signature) : StaticType := (A.get? sig).getD .unknown

theorem instance?_eq_ok {d : FunctionDef} {strict : Bool} (h : c.instance? sig = .ok (d, strict)) :
    ∃ f, c.functions.get? sig.function = some f ∧ f.definition? = some d := by
  unfold instance? at h
  split at h
  · rename_i d' hf
    cases h
    exact ⟨_, hf, rfl⟩
  · rename_i d' hf
    cases h
    exact ⟨_, hf, rfl⟩
  · cases h

/-- A visit walks the body of the specialisation. -/
theorem walk_instance (h : c.walk A sig = .ok (s, found)) :
    ∃ d strict F, c.instance? sig = .ok (d, strict) ∧
      (Walker.returnType { c with assumed := A, function := sig.function, strict } d sig.args).run {} =
        .ok (s, F) ∧ found = F.discovered := by
  unfold walk at h
  obtain ⟨⟨d, strict⟩, hi, h⟩ := bind_eq_ok.1 h
  obtain ⟨⟨s', F⟩, hr, h⟩ := bind_eq_ok.1 h
  obtain ⟨rfl, rfl⟩ := Prod.mk.inj (Except.ok.inj h)
  exact ⟨d, strict, F, hi, hr, rfl⟩

theorem walk_eq_ok (h : c.walk A sig = .ok (s, found)) :
    ∃ f d strict F, c.functions.get? sig.function = some f ∧ f.definition? = some d ∧
      (Walker.returnType { c with assumed := A, function := sig.function, strict } d sig.args).run {} =
        .ok (s, F) ∧ found = F.discovered := by
  obtain ⟨d, strict, F, hi, hr, hfound⟩ := walk_instance h
  obtain ⟨f, hf, hfd⟩ := instance?_eq_ok hi
  exact ⟨f, d, strict, F, hf, hfd, hr, hfound⟩

/-- A visit finds a return type of which something is known, and only signatures of which nothing
was assumed. -/
theorem walk_ok (h : c.walk A sig = .ok (s, found)) :
    s ≠ .unknown ∧ ∀ x ∈ found, A.get? x = none := by
  obtain ⟨-, d, strict, F, -, -, hr, rfl⟩ := walk_eq_ok h
  obtain ⟨-, env, hb, hj⟩ := Walker.returnType_ok hr
  refine ⟨join_incomplete_ne hj, ?_⟩
  exact Walker.block_increasing Findings.fresh_rising d.body _ _ _ _ hb (by simp)

/-! ### One pass -/

theorem visit_cons (h : c.visit A (sig :: l) = .ok (A', found)) :
    ∃ s d joined later, c.walk A sig = .ok (s, d) ∧ c.join (assumption A sig) s = .ok joined ∧
      c.visit (if joined = assumption A sig then A else A.insert sig joined) l = .ok (A', later) ∧
      found = d ++ later := by
  rw [visit] at h
  obtain ⟨⟨s, d⟩, hwalk, h⟩ := bind_eq_ok.1 h
  obtain ⟨joined, hj, h⟩ := bind_eq_ok.1 h
  obtain ⟨⟨A₁, later⟩, hv, h⟩ := bind_eq_ok.1 h
  cases h
  exact ⟨s, d, joined, later, hwalk, hj, hv, rfl⟩

/-- Visits only raise what is assumed. -/
theorem visit_above (hw : c.types.WellFormed) (h : c.visit A l = .ok (A', found)) (x : Signature) :
    StaticType.Below c.types (assumption A x) (assumption A' x) ∧
      ((A.get? x).isSome → (A'.get? x).isSome) := by
  induction l generalizing A found with
  | nil => cases h; exact ⟨.refl _, id⟩
  | cons sig rest ih =>
    obtain ⟨s, d, joined, later, -, hj, hv, -⟩ := visit_cons h
    obtain ⟨hbelow, hsome⟩ := ih hv
    split at hbelow
    · rename_i he
      rw [if_pos he] at hsome
      exact ⟨hbelow, hsome⟩
    · rename_i he
      rw [if_neg he] at hsome
      unfold assumption at hbelow ⊢
      rw [Assoc.get?_insert] at hbelow hsome
      by_cases hx : sig = x
      · subst hx
        rw [if_pos rfl] at hbelow hsome
        exact ⟨(join_above hj).trans hw hbelow, fun _ => hsome rfl⟩
      · rw [if_neg hx] at hbelow hsome
        exact ⟨hbelow, hsome⟩

theorem visit_nodup (hn : A.keys.Nodup) (h : c.visit A l = .ok (A', found)) : A'.keys.Nodup := by
  induction l generalizing A found with
  | nil => cases h; exact hn
  | cons sig rest ih =>
    obtain ⟨s, d, joined, later, -, -, hv, -⟩ := visit_cons h
    refine ih ?_ hv
    split
    · exact hn
    · exact Assoc.nodup_insert hn

/-- Visits that leave everything assumed as it was have each found what was assumed. -/
theorem visit_fixed (hw : c.types.WellFormed) (h : c.visit A l = .ok (A', found))
    (hl : ∀ x, assumption A' x = assumption A x) :
    A' = A ∧ ∀ x ∈ l, ∃ s d, c.walk A x = .ok (s, d) ∧
      c.join (assumption A x) s = .ok (assumption A x) ∧ ∀ y ∈ d, y ∈ found := by
  induction l generalizing found with
  | nil => cases h; exact ⟨rfl, by simp⟩
  | cons sig rest ih =>
    obtain ⟨s, d, joined, later, hwalk, hj, hv, rfl⟩ := visit_cons h
    have he : joined = assumption A sig := by
      by_contra hne
      rw [if_neg hne] at hv
      obtain ⟨hbelow, -⟩ := visit_above hw hv sig
      rw [hl sig, assumption, Assoc.get?_insert_self, Option.getD_some] at hbelow
      exact hne ((join_above hj).antisymm hw hbelow).symm
    rw [if_pos he] at hv
    obtain ⟨hA, hrest⟩ := ih hv
    refine ⟨hA, fun x hx => ?_⟩
    rcases List.mem_cons.1 hx with rfl | hx
    · exact ⟨s, d, hwalk, he ▸ hj, fun y hy => List.mem_append_left _ hy⟩
    · obtain ⟨s', d', hwalk', hj', hd'⟩ := hrest x hx
      exact ⟨s', d', hwalk', hj', fun y hy => List.mem_append_right _ (hd' y hy)⟩

theorem assumeNothing_cons (x : Signature) :
    assumeNothing A (x :: l) = assumeNothing (if A.contains x then A else A.insert x .unknown) l := rfl

theorem get?_assumeNothing (h : A.get? sig = some s) : (assumeNothing A l).get? sig = some s := by
  induction l generalizing A with
  | nil => exact h
  | cons x rest ih =>
    rw [assumeNothing_cons]
    split
    · exact ih h
    · rename_i hx
      refine ih ?_
      rw [Assoc.get?_insert]
      split
      · rename_i he
        subst he
        simp [Assoc.contains, h] at hx
      · exact h

theorem assumption_assumeNothing (A : Assumptions) (x : Signature) :
    assumption (assumeNothing A l) x = assumption A x := by
  induction l generalizing A with
  | nil => rfl
  | cons y rest ih =>
    rw [assumeNothing_cons, ih]
    split
    · rfl
    · rename_i hy
      unfold assumption
      rw [Assoc.get?_insert]
      split
      · rename_i he
        subst he
        simp only [Assoc.contains, Bool.not_eq_true, Option.isSome_eq_false_iff,
          Option.isNone_iff_eq_none] at hy
        rw [hy]
        rfl
      · rfl

theorem isSome_assumeNothing (h : sig ∈ l) : ((assumeNothing A l).get? sig).isSome := by
  induction l generalizing A with
  | nil => cases h
  | cons x rest ih =>
    rw [assumeNothing_cons]
    rcases List.mem_cons.1 h with rfl | h
    · split
      · rename_i hc
        obtain ⟨s, hs⟩ := Option.isSome_iff_exists.1 hc
        rw [get?_assumeNothing hs]
        rfl
      · rw [get?_assumeNothing (Assoc.get?_insert_self _ _ _)]
        rfl
    · exact ih h

theorem assumeNothing_nodup (hn : A.keys.Nodup) : (assumeNothing A l).keys.Nodup := by
  induction l generalizing A with
  | nil => exact hn
  | cons x rest ih =>
    rw [assumeNothing_cons]
    refine ih ?_
    split
    · exact hn
    · exact Assoc.nodup_insert hn

/-- Assumptions of which a visit to any of them confirms all: it finds nothing above what is assumed
and meets no signature of which nothing is assumed. -/
def Settled (c : Typing) (A : Assumptions) : Prop :=
  ∀ sig s, A.get? sig = some s → s ≠ .unknown ∧
    ∃ s', c.walk A sig = .ok (s', []) ∧ c.join s s' = .ok s

/-- A pass that ends where it began has found its assumptions settled. -/
theorem pass_fixed (hw : c.types.WellFormed) {order : List Signature → List Signature}
    (ho : ∀ l s, s ∈ order l ↔ s ∈ l) (h : c.pass order A = .ok A) : c.Settled A := by
  unfold pass at h
  obtain ⟨⟨A', found⟩, hv, h⟩ := bind_eq_ok.1 h
  have hA : assumeNothing A' found = A := Except.ok.inj h
  obtain ⟨rfl, hwalks⟩ := visit_fixed hw hv fun x => by
    rw [← assumption_assumeNothing (l := found) A' x, hA]
  intro sig s hs
  obtain ⟨s', d, hwalk, hj, hd⟩ :=
    hwalks sig ((ho _ _).2 (Assoc.mem_keys_iff.2 (by rw [hs]; rfl)))
  rw [assumption, hs, Option.getD_some] at hj
  obtain ⟨hs', hnone⟩ := walk_ok hwalk
  have hnil : d = [] := by
    refine List.eq_nil_iff_forall_not_mem.2 fun y hy => ?_
    have hsome := isSome_assumeNothing (A := A') (hd y hy)
    rw [hA, hnone y hy] at hsome
    cases hsome
  subst hnil
  refine ⟨?_, s', hwalk, hj⟩
  rintro rfl
  rw [join_unknown] at hj
  exact hs' (Except.ok.inj hj)

theorem pass_some (hw : c.types.WellFormed) {order : List Signature → List Signature}
    (h : c.pass order A = .ok A') (hs : (A.get? sig).isSome) : (A'.get? sig).isSome := by
  unfold pass at h
  obtain ⟨⟨A₁, found⟩, hv, h⟩ := bind_eq_ok.1 h
  cases h
  obtain ⟨s, hs⟩ := Option.isSome_iff_exists.1 ((visit_above hw hv sig).2 hs)
  rw [get?_assumeNothing hs]
  rfl

theorem pass_nodup {order : List Signature → List Signature} (hn : A.keys.Nodup)
    (h : c.pass order A = .ok A') : A'.keys.Nodup := by
  unfold pass at h
  obtain ⟨⟨A₁, found⟩, hv, h⟩ := bind_eq_ok.1 h
  cases h
  exact assumeNothing_nodup (visit_nodup hn hv)

/-! ### Return types -/

def assumptionsOf (T : ReturnTypes) : Assumptions :=
  ⟨T.entries.map fun p => (p.1, .ofReturn p.2)⟩

theorem get?_assumptionsOf (T : ReturnTypes) (x : Signature) :
    (assumptionsOf T).get? x = (T.get? x).map .ofReturn :=
  Assoc.find_map StaticType.ofReturn x T.entries

theorem ofReturn_known? (hs : s ≠ .unknown) : .ofReturn s.known? = s := by
  cases s with
  | unknown => exact absurd rfl hs
  | incomplete => rfl
  | known id => rfl

/-- Something is known of every settled assumption, so the return types say all of it. -/
theorem Settled.assumptionsOf_known (h : c.Settled A) (hn : A.keys.Nodup) :
    assumptionsOf ⟨A.entries.map fun p => (p.1, p.2.known?)⟩ = A := by
  unfold assumptionsOf
  simp only [List.map_map, Function.comp_def]
  have hmap : A.entries.map (fun p => (p.1, StaticType.ofReturn p.2.known?)) = A.entries := by
    refine (List.map_congr_left fun p hp => ?_).trans (List.map_id _)
    rw [ofReturn_known? (h p.1 p.2 (Assoc.get?_of_mem hn hp)).1]
    rfl
  rw [hmap]

theorem settle_last (hw : c.types.WellFormed) {order : VisitOrder} (ho : order.Complete)
    {root : Ident} {fuel passes : Nat} {T : ReturnTypes} (hn : A.keys.Nodup)
    (h : c.settle order root fuel passes A = .ok T) :
    (∃ last, c.pass (order last) (assumptionsOf T) = .ok (assumptionsOf T)) ∧
      ∀ x, (A.get? x).isSome → (T.get? x).isSome := by
  induction fuel generalizing passes A with
  | zero => rw [settle] at h; cases h
  | succ fuel ih =>
    rw [settle] at h
    split at h
    · obtain ⟨next, hp, h⟩ := bind_eq_ok.1 h
      split at h
      · rename_i he
        subst he
        cases h
        have hset := pass_fixed hw (ho passes) hp
        refine ⟨⟨passes, by rw [hset.assumptionsOf_known hn]; exact hp⟩, fun x hx => ?_⟩
        have hfind := Assoc.find_map StaticType.known? x next.entries
        unfold Assoc.get? at hx ⊢
        rw [hfind, Option.isSome_map]
        exact hx
      · obtain ⟨hlast, hsome⟩ := ih (pass_nodup hn hp) h
        exact ⟨hlast, fun x hx => hsome x (pass_some hw hp hx)⟩
    · cases h

/-- The last pass of inference changes nothing of the return types that inference ends with, and the
root has one. -/
theorem infer_last (hw : c.types.WellFormed) {order : VisitOrder} (ho : order.Complete)
    {root : Signature} {T : ReturnTypes} (h : c.infer order root = .ok T) :
    (∃ last, c.pass (order last) (assumptionsOf T) = .ok (assumptionsOf T)) ∧ (T.get? root).isSome := by
  have hn : ((Assoc.empty : Assumptions).insert root .unknown).keys.Nodup := List.nodup_singleton root
  obtain ⟨hlast, hsome⟩ := settle_last hw ho hn h
  exact ⟨hlast, hsome root (by rw [Assoc.get?_insert_self]; rfl)⟩

/-- The return types of inference are settled, and the root has one. -/
theorem infer_settled (hw : c.types.WellFormed) {order : VisitOrder} (ho : order.Complete)
    {root : Signature} {T : ReturnTypes} (h : c.infer order root = .ok T) :
    c.Settled (assumptionsOf T) ∧ (T.get? root).isSome := by
  obtain ⟨⟨last, hp⟩, hroot⟩ := infer_last hw ho h
  exact ⟨pass_fixed hw (ho last) hp, hroot⟩

end Typing

end ShapeCompiler
