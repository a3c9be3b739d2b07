import ShapeCompiler.Proofs.Acceptance
import ShapeCompiler.Proofs.Returns
import ShapeCompiler.Proofs.Typing.Termination

/-!
How far inference depends on the order of its visits.

One order sees the return type of a callee a pass before another does, so passes get to different
assumptions on their way (`Typing.Provisional`) and even to different specialisations, since a type
that is not final may be an argument. If what is found on the way never exceeds what is settled in the
end (`Typing.Steady`), all orders settle to the same return types.

Main statements: from a steady root, orders succeed or fail together and agree on every specialisation
that they share (`Typing.infer_agrees`). Not every root is steady: a function whose callees are still
being found passes for one that answers nothing, and this may be refused under one order and be over
in time under another (`Catalog.order_matters`).
-/

namespace ShapeCompiler

open TypeTable

/-- The same function on types that lie below others one by one. -/
structure Signature.Below (t : TypeTable) (x y : Signature) : Prop where
  function : x.function = y.function
  args : List.Forall₂ (fun a b => a = b ∨ t.widen a = b) x.args y.args

theorem Signature.Below.refl (t : TypeTable) (x : Signature) : x.Below t x :=
  ⟨rfl, List.forall₂_same.2 fun _ _ => .inl rfl⟩

def VisitOrder.callersFirst : VisitOrder := fun _ discovered => discovered

theorem VisitOrder.complete_callersFirst : VisitOrder.callersFirst.Complete := fun _ _ _ => Iff.rfl

theorem Walker.run_call_native {w : Walker} {name : Ident} {n : Native} {ts : List StaticType}
    (hname : w.types.recordNamed? name = none) (hn : w.functions.get? name = some (.native n))
    (hlen : ts.length = n.params.length) (f : Findings) :
    (w.call name ts).run f = (w.checkParams name 0 n.params ts).map fun _ => (.known n.returns, f) := by
  have hresolve : w.resolve name ts.length = .ok (.host (.native n)) := by
    unfold Typing.resolve Typing.expectArgs
    rw [hname, hn]
    exact if_pos hlen.symm
  unfold Walker.call
  rw [hresolve]
  change ((liftM (w.checkParams name 0 n.params ts) : WalkM Unit) >>=
    fun _ => (pure (.known n.returns) : WalkM StaticType)).run f = _
  cases w.checkParams name 0 n.params ts <;> rfl

namespace Typing

variable {c : Typing} {P P' T : Assumptions} {root x y z : Signature} {s s₁ s₂ r : StaticType}
  {l found pending : List Signature}

/-! ### Assumptions on the way -/

/--
What the inference of a root can have assumed on its way, with the specialisations found since it last
added any: it visits any specialisation that it knows, or adds those found.
-/
inductive Provisional (c : Typing) (root : Signature) : Assumptions → List Signature → Prop
  | start : Provisional c root (Assoc.empty.insert root .unknown) []
  | visit {P : Assumptions} {pending found : List Signature} {x : Signature} {r joined : StaticType}
      (h : Provisional c root P pending) (hx : (P.get? x).isSome)
      (hwalk : c.walk P x = .ok (r, found)) (hj : c.join (assumption P x) r = .ok joined) :
      Provisional c root (P.insert x joined) (pending ++ found)
  | discover {P : Assumptions} {pending : List Signature} (h : Provisional c root P pending) :
      Provisional c root (assumeNothing P pending) []

theorem assumption_eq (hx : (P.get? x).isSome) : P.get? x = some (assumption P x) := by
  obtain ⟨s, hs⟩ := Option.isSome_iff_exists.1 hx
  rw [assumption, hs, Option.getD_some]

theorem isSome_insert (s : StaticType) (hy : (P.get? y).isSome) : ((P.insert x s).get? y).isSome := by
  rw [Assoc.get?_insert]
  split
  · rfl
  · exact hy

/-- Writing down what a visit has found, be it nothing new. -/
theorem visit_insert (hx : (P.get? x).isSome) (s : StaticType) :
    (if s = assumption P x then P else P.insert x s) = P.insert x s := by
  split
  · rename_i he
    rw [Assoc.insert_of_get? (he ▸ assumption_eq hx)]
  · rfl

theorem Provisional.visits (h : c.Provisional root P pending) (hl : ∀ x ∈ l, (P.get? x).isSome)
    (hv : c.visit P l = .ok (P', found)) : c.Provisional root P' (pending ++ found) := by
  induction l generalizing P pending found with
  | nil =>
    cases hv
    rwa [List.append_nil]
  | cons x rest ih =>
    have hx := hl x List.mem_cons_self
    obtain ⟨r, d, joined, later, hwalk, hj, hrest, rfl⟩ := visit_cons hv
    rw [visit_insert hx] at hrest
    rw [← List.append_assoc]
    exact ih (h.visit hx hwalk hj)
      (fun y hy => isSome_insert joined (hl y (List.mem_cons_of_mem _ hy))) hrest

theorem Provisional.pass {order : List Signature → List Signature} (ho : ∀ l s, s ∈ order l ↔ s ∈ l)
    (h : c.Provisional root P []) (hp : c.pass order P = .ok P') : c.Provisional root P' [] := by
  unfold Typing.pass at hp
  obtain ⟨⟨P₁, found⟩, hv, hp⟩ := bind_eq_ok.1 hp
  cases hp
  exact (h.visits (fun x hx => Assoc.mem_keys_iff.1 ((ho _ _).1 hx)) hv).discover

theorem Provisional.settle {order : VisitOrder} (ho : order.Complete) (hw : c.types.WellFormed)
    {name : Ident} {fuel passes : Nat} {R : ReturnTypes} (h : c.Provisional root P [])
    (hn : P.keys.Nodup) (hR : c.settle order name fuel passes P = .ok R) :
    c.Provisional root (assumptionsOf R) [] := by
  induction fuel generalizing P passes with
  | zero => cases hR
  | succ fuel ih =>
    rw [Typing.settle] at hR
    split at hR
    · obtain ⟨next, hp, hR⟩ := bind_eq_ok.1 hR
      split at hR
      · rename_i he
        subst he
        cases hR
        rwa [(pass_fixed hw (ho passes) hp).assumptionsOf_known hn]
      · exact ih (h.pass (ho passes) hp) (pass_nodup hn hp) hR
    · cases hR

theorem Provisional.infer {order : VisitOrder} (ho : order.Complete) (hw : c.types.WellFormed)
    {R : ReturnTypes} (hR : c.infer order root = .ok R) : c.Provisional root (assumptionsOf R) [] :=
  Provisional.start.settle ho hw (List.nodup_singleton root) hR

/-! ### Assumptions below others -/

/-- Some assumption is made of a signature above. -/
def Covers (c : Typing) (T : Assumptions) (x : Signature) : Prop :=
  ∃ y, (T.get? y).isSome ∧ x.Below c.types y

/-- Assumptions of signatures below those of others, which say less than all those above. -/
structure Under (c : Typing) (P T : Assumptions) : Prop where
  covered : ∀ {x}, (P.get? x).isSome → c.Covers T x
  below : ∀ {x y s s'}, P.get? x = some s → T.get? y = some s' → x.Below c.types y →
    s.Below c.types s'

theorem Under.insert (h : c.Under P T) (hx : c.Covers T x)
    (hs : ∀ {y s'}, T.get? y = some s' → x.Below c.types y → s.Below c.types s') :
    c.Under (P.insert x s) T := by
  constructor
  · intro z hz
    rw [Assoc.get?_insert] at hz
    split at hz
    · rename_i he
      exact he ▸ hx
    · exact h.covered hz
  · intro z y sz s' hz hy hzy
    rw [Assoc.get?_insert] at hz
    split at hz
    · rename_i he
      cases hz
      exact hs hy (he ▸ hzy)
    · exact h.below hz hy hzy

theorem Under.assumeNothing (h : c.Under P T) (hl : ∀ x ∈ l, c.Covers T x) :
    c.Under (assumeNothing P l) T := by
  induction l generalizing P with
  | nil => exact h
  | cons x rest ih =>
    have hrest : ∀ y ∈ rest, c.Covers T y := fun y hy => hl y (List.mem_cons_of_mem _ hy)
    rw [assumeNothing_cons]
    split
    · exact ih h hrest
    · exact ih (h.insert (hl x List.mem_cons_self) fun _ _ => .unknown _) hrest

/--
Whatever inference may have assumed on its way, as long as that is under what it can settle to, a walk
finds a return type below the settled ones and specialisations below those known in the end.
-/
def Steady (c : Typing) (root : Signature) : Prop :=
  ∀ {P T : Assumptions} {pending : List Signature}, c.Provisional root P pending →
    c.Provisional root T [] → c.Settled T → c.Under P T →
    ∀ {x}, (P.get? x).isSome → ∃ r found, c.walk P x = .ok (r, found) ∧
      (∀ {y s}, T.get? y = some s → x.Below c.types y → r.Below c.types s) ∧
      ∀ z ∈ found, c.Covers T z

/-! ### Agreement -/

section Steady

variable (hw : c.types.WellFormed) (hsteady : c.Steady root) (hT : c.Provisional root T [])
  (hset : c.Settled T)
include hw hsteady hT hset

/-- Visits succeed and stay under settled assumptions. -/
theorem Steady.visits (hP : c.Provisional root P pending) (hu : c.Under P T)
    (hl : ∀ x ∈ l, (P.get? x).isSome) :
    ∃ P' found, c.visit P l = .ok (P', found) ∧ c.Under P' T ∧ ∀ z ∈ found, c.Covers T z := by
  induction l generalizing P pending with
  | nil => exact ⟨P, [], rfl, hu, by simp⟩
  | cons x rest ih =>
    have hx := hl x List.mem_cons_self
    obtain ⟨r, d, hwalk, hr, hd⟩ := hsteady hP hT hset hu hx
    -- what is assumed and what is found join below every settled type of a signature above
    have hjoins : ∀ {y s}, T.get? y = some s → x.Below c.types y →
        ∃ joined, c.join (assumption P x) r = .ok joined ∧ joined.Below c.types s := fun hy hxy =>
      join_below hw (hu.below (assumption_eq hx) hy hxy) (hr hy hxy)
    obtain ⟨y, hy, hxy⟩ := hu.covered hx
    obtain ⟨s, hs⟩ := Option.isSome_iff_exists.1 hy
    obtain ⟨joined, hj, -⟩ := hjoins hs hxy
    have hnext : c.Under (P.insert x joined) T := by
      refine hu.insert (hu.covered hx) fun hy' hxy' => ?_
      obtain ⟨joined', hj', hbelow⟩ := hjoins hy' hxy'
      rw [hj] at hj'
      cases hj'
      exact hbelow
    obtain ⟨P', later, hv, hu', hlater⟩ := ih (hP.visit hx hwalk hj) hnext
      fun z hz => isSome_insert joined (hl z (List.mem_cons_of_mem _ hz))
    refine ⟨P', d ++ later, ?_, hu', fun z hz => (List.mem_append.1 hz).elim (hd z) (hlater z)⟩
    rw [Typing.visit]
    refine bind_eq_ok.2 ⟨(r, d), hwalk, bind_eq_ok.2 ⟨joined, hj, bind_eq_ok.2 ⟨(P', later), ?_, rfl⟩⟩⟩
    rw [visit_insert hx, hv]

theorem Steady.pass {order : List Signature → List Signature} (ho : ∀ l s, s ∈ order l ↔ s ∈ l)
    (hP : c.Provisional root P []) (hu : c.Under P T) :
    ∃ P', c.pass order P = .ok P' ∧ c.Under P' T := by
  obtain ⟨P₁, found, hv, hu₁, hfound⟩ := hsteady.visits hw hT hset hP hu fun x hx =>
    Assoc.mem_keys_iff.1 ((ho _ _).1 hx)
  refine ⟨_, ?_, hu₁.assumeNothing hfound⟩
  unfold Typing.pass
  rw [hv]
  rfl

/-- Passes settle under settled assumptions, unless they are used up. -/
theorem Steady.settle {order : VisitOrder} (ho : order.Complete) (name : Ident) (fuel passes : Nat)
    (hP : c.Provisional root P []) (hu : c.Under P T) (hn : P.keys.Nodup) :
    (∃ R, c.settle order name fuel passes P = .ok R ∧ c.Under (assumptionsOf R) T) ∨
      ∃ n, c.settle order name fuel passes P = .error (.type (.unsettled name n)) := by
  induction fuel generalizing P passes with
  | zero => exact .inr ⟨_, rfl⟩
  | succ fuel ih =>
    rw [Typing.settle]
    split
    · obtain ⟨next, hpass, hnext⟩ := hsteady.pass hw hT hset (ho passes) hP hu
      rw [hpass]
      change (∃ R, (if next = P then _ else _) = _ ∧ _) ∨ ∃ n, (if next = P then _ else _) = _
      by_cases he : next = P
      · subst he
        rw [if_pos rfl]
        refine .inl ⟨_, rfl, ?_⟩
        rwa [(pass_fixed hw (ho passes) hpass).assumptionsOf_known hn]
      · rw [if_neg he]
        exact ih _ (hP.pass (ho passes) hpass) hnext (pass_nodup hn hpass)
    · exact .inr ⟨_, rfl⟩

end Steady

/-- What one order settles to is above what any other order finds. -/
theorem Steady.infer (hg : c.Grounded) (hsteady : c.Steady root) {order order' : VisitOrder}
    (ho : order.Complete) (ho' : order'.Complete) {R : ReturnTypes}
    (hR : c.infer order root = .ok R) :
    ∃ R', c.infer order' root = .ok R' ∧ c.Under (assumptionsOf R') (assumptionsOf R) := by
  obtain ⟨hset, hroot⟩ := infer_settled hg.wellFormed ho hR
  have hT := Provisional.infer ho hg.wellFormed hR
  have hcovers : c.Covers (assumptionsOf R) root :=
    ⟨root, by rw [get?_assumptionsOf, Option.isSome_map]; exact hroot, .refl _ _⟩
  have hempty : c.Under Assoc.empty (assumptionsOf R) :=
    ⟨fun h => (nomatch h), fun h => (nomatch h)⟩
  have hu : c.Under (Assoc.empty.insert root .unknown) (assumptionsOf R) :=
    hempty.insert hcovers fun _ _ => .unknown _
  rcases hsteady.settle hg.wellFormed hT hset ho' root.function
    (passesPerInstance * c.instanceBound root + 2) 0 .start hu (List.nodup_singleton root) with
    h | ⟨n, h⟩
  · exact h
  · exact (infer_ofTyping hg ho' h).elim

theorem ofReturn_injective {r r' : Option TypeId} (h : StaticType.ofReturn r = .ofReturn r') :
    r = r' := by
  cases r <;> cases r' <;> cases h <;> rfl

/--
From a steady root, any two orders of visits succeed or fail together, and if they succeed they find the
same return type for the root and for every signature that both know.
-/
theorem infer_agrees {e : Engine} (he : e.Reachable) {c : Typing} (hc : e.typing = .ok c)
    {order order' : VisitOrder} (ho : order.Complete) (ho' : order'.Complete) {root : Signature}
    (hsteady : c.Steady root) :
    ((∃ R, c.infer order root = .ok R) ↔ ∃ R', c.infer order' root = .ok R') ∧
    ∀ R R', c.infer order root = .ok R → c.infer order' root = .ok R' →
      (∃ r, R.get? root = some r ∧ R'.get? root = some r) ∧
      ∀ x r r', R.get? x = some r → R'.get? x = some r' → r = r' := by
  have hg := he.wellFormed.grounded hc
  refine ⟨⟨fun ⟨R, hR⟩ => ?_, fun ⟨R', hR'⟩ => ?_⟩, fun R R' hR hR' => ?_⟩
  · obtain ⟨R', hR', -⟩ := hsteady.infer hg ho ho' hR
    exact ⟨R', hR'⟩
  · obtain ⟨R, hR, -⟩ := hsteady.infer hg ho' ho hR'
    exact ⟨R, hR⟩
  · obtain ⟨_, h', hunder⟩ := hsteady.infer hg ho ho' hR
    obtain ⟨_, h, hunder'⟩ := hsteady.infer hg ho' ho hR'
    cases hR'.symm.trans h'
    cases hR.symm.trans h
    have hagree : ∀ x r r', R.get? x = some r → R'.get? x = some r' → r = r' := by
      intro x r r' hx hx'
      have hx : (assumptionsOf R).get? x = some (.ofReturn r) := by rw [get?_assumptionsOf, hx]; rfl
      have hx' : (assumptionsOf R').get? x = some (.ofReturn r') := by rw [get?_assumptionsOf, hx']; rfl
      exact ofReturn_injective ((hunder'.below hx hx' (.refl _ x)).antisymm hg.wellFormed
        (hunder.below hx' hx (.refl _ x)))
    refine ⟨?_, hagree⟩
    obtain ⟨r, hr⟩ := Option.isSome_iff_exists.1 (infer_settled hg.wellFormed ho hR).2
    obtain ⟨r', hr'⟩ := Option.isSome_iff_exists.1 (infer_settled hg.wellFormed ho' hR').2
    exact ⟨r, hr, by rw [hr', hagree root r r' hr hr']⟩

/-! ### Roots that call nothing compiled -/

/-- Whatever is assumed, a walk of the specialisation answers the same and meets no other one. -/
def Closed (c : Typing) (root : Signature) : Prop :=
  ∃ x : Except CompileError StaticType, ∀ P, c.walk P root = x.map fun r => (r, [])

/-- A visit of the only specialisation known writes down what its walks answer. -/
theorem visit_closed {root : Signature} (hwalk : ∀ P, c.walk P root = .ok (r, []))
    (hs : s = .unknown ∨ s = r) (rest : List Signature) :
    c.visit ⟨[(root, s)]⟩ (root :: rest) = c.visit ⟨[(root, r)]⟩ rest := by
  have hjoin : c.join s r = .ok r := by
    rcases hs with rfl | rfl
    · exact join_unknown r
    · cases s <;> simp [join]
  have hget : ((⟨[(root, s)]⟩ : Assumptions).get? root).getD .unknown = s := by
    simp [Assoc.get?, Assoc.find]
  have hput : (if r = s then (⟨[(root, s)]⟩ : Assumptions) else Assoc.insert ⟨[(root, s)]⟩ root r) =
      ⟨[(root, r)]⟩ := by
    split
    · rename_i he
      rw [he]
    · simp [Assoc.insert, Assoc.put]
  rw [visit, hwalk]
  change (c.join (((⟨[(root, s)]⟩ : Assumptions).get? root).getD .unknown) r >>= fun joined => _) = _
  rw [hget, hjoin]
  change (c.visit (if r = s then _ else _) rest >>= fun p => .ok (p.1, [] ++ p.2)) = _
  rw [hput]
  cases c.visit ⟨[(root, r)]⟩ rest <;> rfl

theorem visits_closed {root : Signature} (hwalk : ∀ P, c.walk P root = .ok (r, []))
    (hl : ∀ x ∈ l, x = root) : c.visit ⟨[(root, r)]⟩ l = .ok (⟨[(root, r)]⟩, []) := by
  induction l with
  | nil => rfl
  | cons x rest ih =>
    obtain rfl := hl x List.mem_cons_self
    rw [visit_closed hwalk (.inr rfl)]
    exact ih fun y hy => hl y (List.mem_cons_of_mem _ hy)

/-- A complete order begins with the only specialisation known, and goes on with nothing else. -/
theorem order_singleton {order : List Signature → List Signature} (ho : ∀ l s, s ∈ order l ↔ s ∈ l)
    (root : Signature) : ∃ rest, order [root] = root :: rest ∧ ∀ x ∈ rest, x = root := by
  have hmem : ∀ x, x ∈ order [root] ↔ x = root := fun x => (ho _ x).trans List.mem_singleton
  cases hl : order [root] with
  | nil =>
    have hroot := (hmem root).2 rfl
    rw [hl] at hroot
    cases hroot
  | cons x rest =>
    rw [hl] at hmem
    obtain rfl := (hmem x).1 List.mem_cons_self
    exact ⟨rest, rfl, fun y hy => (hmem y).1 (List.mem_cons_of_mem _ hy)⟩

theorem pass_closed {root : Signature} (hwalk : ∀ P, c.walk P root = .ok (r, []))
    (hs : s = .unknown ∨ s = r) {order : List Signature → List Signature}
    (ho : ∀ l s, s ∈ order l ↔ s ∈ l) : c.pass order ⟨[(root, s)]⟩ = .ok ⟨[(root, r)]⟩ := by
  obtain ⟨rest, hl, hrest⟩ := order_singleton ho root
  have hvisit : c.visit ⟨[(root, s)]⟩ (order [root]) = .ok (⟨[(root, r)]⟩, []) := by
    rw [hl, visit_closed hwalk hs]
    exact visits_closed hwalk hrest
  unfold pass
  change c.visit ⟨[(root, s)]⟩ (order [root]) >>= _ = _
  rw [hvisit]
  rfl

/-- What inference finds from such a root does not depend on the order of visits. -/
theorem Closed.infer {root : Signature} (h : c.Closed root) {order order' : VisitOrder}
    (ho : order.Complete) (ho' : order'.Complete) : c.infer order root = c.infer order' root := by
  obtain ⟨x, hwalk⟩ := h
  -- both sides come to what the walks answer
  suffices hall : ∀ order : VisitOrder, order.Complete → c.infer order root =
      x.map fun r => ⟨[(root, r.known?)]⟩ from (hall order ho).trans (hall order' ho').symm
  intro order ho
  unfold Typing.infer
  generalize passesPerInstance * c.instanceBound root = n
  change c.settle order root.function (n + 1 + 1) 0 ⟨[(root, .unknown)]⟩ = _
  rw [settle, if_pos (Nat.zero_le _)]
  cases x with
  | error err =>
    obtain ⟨rest, hl, -⟩ := order_singleton (ho 0) root
    have hpass : c.pass (order 0) ⟨[(root, .unknown)]⟩ = .error err := by
      unfold pass
      change c.visit _ (order 0 [root]) >>= _ = _
      rw [hl, visit, hwalk]
      rfl
    rw [hpass]
    rfl
  | ok r =>
    have hpass : ∀ {s} (passes : Nat), s = .unknown ∨ s = r →
        c.pass (order passes) ⟨[(root, s)]⟩ = .ok ⟨[(root, r)]⟩ := fun passes hs =>
      pass_closed (hwalk ·) hs (ho passes)
    rw [hpass 0 (.inl rfl)]
    change (if (⟨[(root, r)]⟩ : Assumptions) = ⟨[(root, .unknown)]⟩ then _ else _) = _
    split
    · rename_i he
      cases he
      rfl
    · have hpasses : 0 + 1 ≤ passesPerInstance * (⟨[(root, r)]⟩ : Assumptions).size := by
        simp [Assoc.size, passesPerInstance]
      rw [settle, if_pos hpasses, hpass _ (.inr rfl)]
      change (if (⟨[(root, r)]⟩ : Assumptions) = ⟨[(root, r)]⟩ then _ else _) = _
      rw [if_pos rfl]
      rfl

end Typing

namespace Catalog

/-! ### A steady root -/

/-- A function that hands on what another one answers, and the two functions that it calls. -/
def nested : List FunctionDef := [collect, identity "first", identity "accept"]

def nestedEngine : Engine :=
  nested.foldl (fun e d => e.withFunction d.name (.decorated d)) Engine.default

/-- The surroundings in which this engine compiles. -/
def nestedTyping : Typing := ⟨nestedEngine.functions, nestedEngine.types, 24, ⟨0⟩⟩

theorem nestedEngine_reachable : nestedEngine.Reachable :=
  ((Engine.reached_default.decorate collect trivial (by with_unfolding_all rfl)).decorate
    (identity "first") trivial (by with_unfolding_all rfl)).decorate
    (identity "accept") trivial (by with_unfolding_all rfl)

theorem typing_nestedEngine : nestedEngine.typing = .ok nestedTyping :=
  Engine.typing_of_scalar (by with_unfolding_all rfl)

/-- A function on a number of the default width. -/
abbrev onNumber (name : Ident) : Signature := ⟨name, [⟨0⟩]⟩

/-- The functions called are known to answer numbers or not known at all, the calling one may pass for
a function that answers nothing. -/
structure NestedState (P : Assumptions) (pending : List Signature) : Prop where
  root : (P.get? (onNumber "collect")).isSome
  assumed : ∀ {x s}, P.get? x = some s →
    x = onNumber "collect" ∧ (s = .unknown ∨ s = .incomplete ∨ s = .known ⟨0⟩) ∨
    (x = onNumber "first" ∨ x = onNumber "accept") ∧ (s = .unknown ∨ s = .known ⟨0⟩)
  pending : ∀ z ∈ pending, z = onNumber "first" ∨ z = onNumber "accept"

theorem nested_walk_identity {x : Signature} (hx : x = onNumber "first" ∨ x = onNumber "accept")
    (P : Assumptions) : nestedTyping.walk P x = .ok (.known ⟨0⟩, []) := by
  rcases hx with rfl | rfl <;> with_unfolding_all rfl

/-- What the calling function is found to answer and to call, by what is known of its callees. -/
theorem nested_walk_collect (P : Assumptions) :
    (P.get? (onNumber "first") = none →
      nestedTyping.walk P (onNumber "collect") = .ok (.incomplete, [onNumber "first"])) ∧
    (P.get? (onNumber "first") = some .unknown →
      nestedTyping.walk P (onNumber "collect") = .ok (.incomplete, [])) ∧
    (P.get? (onNumber "first") = some (.known ⟨0⟩) →
      (P.get? (onNumber "accept") = none →
        nestedTyping.walk P (onNumber "collect") = .ok (.incomplete, [onNumber "accept"])) ∧
      (P.get? (onNumber "accept") = some .unknown →
        nestedTyping.walk P (onNumber "collect") = .ok (.incomplete, [])) ∧
      (P.get? (onNumber "accept") = some (.known ⟨0⟩) →
        nestedTyping.walk P (onNumber "collect") = .ok (.known ⟨0⟩, []))) := by
  refine ⟨fun h => ?_, fun h => ?_, fun h => ⟨fun h' => ?_, fun h' => ?_, fun h' => ?_⟩⟩
  all_goals
    conv at h => lhs; cbv
    conv_lhs => cbv
    rw [h]
  · with_unfolding_all rfl
  · with_unfolding_all rfl
  all_goals
    conv at h' => lhs; cbv
    conv_lhs => cbv
    rw [h']
    with_unfolding_all rfl

theorem NestedState.callee {P : Assumptions} {pending : List Signature} (h : NestedState P pending)
    {x : Signature} (hx : x = onNumber "first" ∨ x = onNumber "accept") :
    P.get? x = none ∨ P.get? x = some .unknown ∨ P.get? x = some (.known ⟨0⟩) := by
  cases hs : P.get? x with
  | none => exact .inl rfl
  | some s =>
    rcases h.assumed hs with ⟨rfl, -⟩ | ⟨-, rfl | rfl⟩
    · exact absurd hx (by decide)
    · exact .inr (.inl rfl)
    · exact .inr (.inr rfl)

/-- The calling function answers a number once both callees are known to; until then it calls one of
which nothing is known. -/
theorem NestedState.walk_collect {P : Assumptions} {pending : List Signature} (h : NestedState P pending) :
    (nestedTyping.walk P (onNumber "collect") = .ok (.known ⟨0⟩, []) ∧
      P.get? (onNumber "first") = some (.known ⟨0⟩) ∧
      P.get? (onNumber "accept") = some (.known ⟨0⟩)) ∨
    ∃ found, nestedTyping.walk P (onNumber "collect") = .ok (.incomplete, found) ∧
      (∀ z ∈ found, z = onNumber "first" ∨ z = onNumber "accept") ∧
      (found = [] → ∃ x, P.get? x = some .unknown) := by
  obtain ⟨hnone, hunknown, hknown⟩ := nested_walk_collect P
  rcases h.callee (.inl rfl) with hf | hf | hf
  · exact .inr ⟨_, hnone hf, by simp, by simp⟩
  · exact .inr ⟨_, hunknown hf, by simp, fun _ => ⟨_, hf⟩⟩
  · obtain ⟨hnone, hunknown, hboth⟩ := hknown hf
    rcases h.callee (.inr rfl) with ha | ha | ha
    · exact .inr ⟨_, hnone ha, by simp, by simp⟩
    · exact .inr ⟨_, hunknown ha, by simp, fun _ => ⟨_, ha⟩⟩
    · exact .inl ⟨hboth ha, hf, ha⟩

theorem NestedState.insert {P : Assumptions} {pending found : List Signature} (h : NestedState P pending)
    {x : Signature} {s : StaticType}
    (hs : x = onNumber "collect" ∧ (s = .unknown ∨ s = .incomplete ∨ s = .known ⟨0⟩) ∨
      (x = onNumber "first" ∨ x = onNumber "accept") ∧ (s = .unknown ∨ s = .known ⟨0⟩))
    (hfound : ∀ z ∈ found, z = onNumber "first" ∨ z = onNumber "accept") :
    NestedState (P.insert x s) found := by
  refine ⟨Typing.isSome_insert s h.root, fun hy => ?_, hfound⟩
  rw [Assoc.get?_insert] at hy
  split at hy
  · rename_i he
    cases hy
    exact he ▸ hs
  · exact h.assumed hy

theorem NestedState.assumeNothing {P : Assumptions} {l : List Signature} (h : NestedState P l) :
    NestedState (Typing.assumeNothing P l) [] := by
  induction l generalizing P with
  | nil => exact h
  | cons x rest ih =>
    have hrest := fun z hz => h.pending z (List.mem_cons_of_mem x hz)
    rw [Typing.assumeNothing_cons]
    split
    · exact ih ⟨h.root, h.assumed, hrest⟩
    · exact ih (h.insert (.inr ⟨h.pending x List.mem_cons_self, .inl rfl⟩) hrest)

theorem nested_provisional {P : Assumptions} {pending : List Signature}
    (h : nestedTyping.Provisional (onNumber "collect") P pending) : NestedState P pending := by
  induction h with
  | start =>
    refine ⟨rfl, fun {x s} hx => ?_, by simp⟩
    rw [Assoc.get?_insert] at hx
    split at hx
    · rename_i he
      cases hx
      exact .inl ⟨he.symm, .inl rfl⟩
    · cases hx
  | @visit P pending found x r joined _ hx hwalk hj ih =>
    obtain ⟨old, hold⟩ := Option.isSome_iff_exists.1 hx
    rw [Typing.assumption, hold, Option.getD_some] at hj
    rcases ih.assumed hold with ⟨rfl, hs⟩ | ⟨hname, hs⟩
    · rcases ih.walk_collect with ⟨hw, -⟩ | ⟨found', hw, hf, -⟩
      · cases hwalk.symm.trans hw
        rcases hs with rfl | rfl | rfl <;> cases hj <;>
          exact ih.insert (.inl ⟨rfl, by simp⟩) (by simpa using ih.pending)
      · cases hwalk.symm.trans hw
        have hall : ∀ z ∈ pending ++ found, z = onNumber "first" ∨ z = onNumber "accept" := fun z hz =>
          (List.mem_append.1 hz).elim (ih.pending z) (hf z)
        rcases hs with rfl | rfl | rfl <;> cases hj <;> exact ih.insert (.inl ⟨rfl, by simp⟩) hall
    · cases hwalk.symm.trans (nested_walk_identity hname P)
      have hjoined : joined = .known ⟨0⟩ := by
        rcases hs with rfl | rfl <;> cases hj <;> rfl
      exact ih.insert (.inr ⟨hname, .inr hjoined⟩) (by simpa using ih.pending)
  | discover _ ih => exact ih.assumeNothing

/-- In the end, all three functions answer numbers. -/
theorem nested_settled {T : Assumptions}
    (h : nestedTyping.Provisional (onNumber "collect") T []) (hset : nestedTyping.Settled T) :
    T.get? (onNumber "collect") = some (.known ⟨0⟩) ∧ T.get? (onNumber "first") = some (.known ⟨0⟩) ∧
      T.get? (onNumber "accept") = some (.known ⟨0⟩) := by
  have hstate := nested_provisional h
  obtain ⟨s, hs⟩ := Option.isSome_iff_exists.1 hstate.root
  obtain ⟨-, s', hwalk, hj⟩ := hset _ s hs
  rcases hstate.walk_collect with ⟨hw, hf, ha⟩ | ⟨found, hw, -, hfound⟩
  · cases hwalk.symm.trans hw
    refine ⟨?_, hf, ha⟩
    rcases hstate.assumed hs with ⟨-, rfl | rfl | rfl⟩ | ⟨hname, -⟩
    · cases hj
    · cases hj
    · exact hs
    · exact absurd hname (by decide)
  · cases hwalk.symm.trans hw
    obtain ⟨x, hx⟩ := hfound rfl
    exact absurd rfl (hset x _ hx).1

/-- What a walk finds before the callees are known is no more than what is found in the end. -/
theorem nested_steady : nestedTyping.Steady (onNumber "collect") := by
  intro P T pending hP hT hset _ x hx
  have hstate := nested_provisional hP
  obtain ⟨hcollect, hfirst, haccept⟩ := nested_settled hT hset
  obtain ⟨p, hp⟩ := Option.isSome_iff_exists.1 hx
  -- every signature above is the same one and answers a number
  have habove : ∀ {y s}, T.get? y = some s → s = .known ⟨0⟩ := by
    intro y s hy
    rcases (nested_provisional hT).assumed hy with ⟨rfl, -⟩ | ⟨rfl | rfl, -⟩
    · exact Option.some.inj (hy.symm.trans hcollect)
    · exact Option.some.inj (hy.symm.trans hfirst)
    · exact Option.some.inj (hy.symm.trans haccept)
  have hcovers : ∀ z, z = onNumber "first" ∨ z = onNumber "accept" → nestedTyping.Covers T z := by
    rintro z (rfl | rfl)
    · exact ⟨_, by rw [hfirst]; rfl, .refl _ _⟩
    · exact ⟨_, by rw [haccept]; rfl, .refl _ _⟩
  rcases hstate.assumed hp with ⟨rfl, -⟩ | ⟨hname, -⟩
  · rcases hstate.walk_collect with ⟨hw, -⟩ | ⟨found, hw, hfound, -⟩
    · exact ⟨_, _, hw, fun hy _ => by rw [habove hy]; exact .refl _, by simp⟩
    · exact ⟨_, _, hw, fun hy _ => by rw [habove hy]; exact .incomplete _,
        fun z hz => hcovers z (hfound z hz)⟩
  · exact ⟨_, _, nested_walk_identity hname P, fun hy _ => by rw [habove hy]; exact .refl _, by simp⟩

theorem infer_agrees_nested :
    nestedEngine.Reachable ∧ nestedEngine.typing = .ok nestedTyping ∧
    VisitOrder.calleesFirst.Complete ∧ VisitOrder.callersFirst.Complete ∧
    nestedTyping.Steady (onNumber "collect") ∧
    ((∃ R, nestedTyping.infer .calleesFirst (onNumber "collect") = .ok R) ↔
      ∃ R', nestedTyping.infer .callersFirst (onNumber "collect") = .ok R') ∧
    ∀ R R', nestedTyping.infer .calleesFirst (onNumber "collect") = .ok R →
      nestedTyping.infer .callersFirst (onNumber "collect") = .ok R' →
      (∃ r, R.get? (onNumber "collect") = some r ∧ R'.get? (onNumber "collect") = some r) ∧
      ∀ x r r', R.get? x = some r → R'.get? x = some r' → r = r' :=
  ⟨nestedEngine_reachable, typing_nestedEngine, VisitOrder.complete_calleesFirst,
    VisitOrder.complete_callersFirst, nested_steady,
    Typing.infer_agrees nestedEngine_reachable typing_nestedEngine VisitOrder.complete_calleesFirst
      VisitOrder.complete_callersFirst nested_steady⟩

/-! ### Roots that are not steady -/

/-- A function that hands on what another one has from a third, and these. -/
def hurried : List FunctionDef :=
  [collect, forward "first" "last", identity "last", identity "accept"]

def hurriedEngine : Engine :=
  hurried.foldl (fun e d => e.withFunction d.name (.decorated d)) Engine.default

/-- The surroundings in which this engine compiles. -/
def hurriedTyping : Typing := ⟨hurriedEngine.functions, hurriedEngine.types, 24, ⟨0⟩⟩

/-- Visits callees first, except in the second pass. -/
def inTime : VisitOrder := fun pass discovered => if pass = 1 then discovered else discovered.reverse

/-- All four functions answer numbers. -/
def hurriedReturns : ReturnTypes := ⟨hurried.map fun d => (onNumber d.name, some ⟨0⟩)⟩

theorem complete_inTime : inTime.Complete := by
  intro pass l s
  unfold inTime
  split
  · exact Iff.rfl
  · exact List.mem_reverse

theorem hurriedEngine_reachable : hurriedEngine.Reachable :=
  (((Engine.reached_default.decorate collect trivial (by with_unfolding_all rfl)).decorate
    (forward "first" "last") trivial (by with_unfolding_all rfl)).decorate
    (identity "last") trivial (by with_unfolding_all rfl)).decorate
    (identity "accept") trivial (by with_unfolding_all rfl)

/-- Picks an arm after a call by which inference may get to know what the subject is. -/
def ahead : FunctionDef :=
  ⟨"ahead", ["x"], [.eval (.call "same" [.var "x"]), .ret (.call "pick" [.var "x"])]⟩

/-- An engine with numbers of eight bits and with this function. -/
def aheadEngine : Engine := relayEngine.withFunction ahead.name (.decorated ahead)

/-- The surroundings in which this engine compiles. -/
def aheadTyping : Typing := ⟨aheadEngine.functions, aheadEngine.types, 24, ⟨0⟩⟩

/-- What inference finds from there, by what it finds the arms to answer. -/
def aheadReturns (r : Option TypeId) : ReturnTypes :=
  ⟨[(⟨"ahead", [⟨1⟩]⟩, r), (⟨"same", [⟨1⟩]⟩, some ⟨1⟩), (⟨"pick", [⟨1⟩]⟩, r)]⟩

theorem aheadEngine_reachable : aheadEngine.Reachable := by
  have hscalar : Engine.default.types.declareScalar 8 =
      .ok (⟨1⟩, (Engine.default.types.ensureScalar 8).2) := by with_unfolding_all rfl
  exact (((((Engine.reached_default.declareScalar trivial hscalar).decorate same trivial
    (by with_unfolding_all rfl)).decorate pick trivial (by with_unfolding_all rfl)).decorate relay trivial
    (by with_unfolding_all rfl)).decorate start trivial (by with_unfolding_all rfl)).decorate ahead trivial
    (by with_unfolding_all rfl)

/-- The order of visits decides whether a root is accepted, and which return type it is found to
have: a function passes for one that answers nothing, and a subject for one of the default width, until
they are visited again. -/
theorem order_matters :
    (hurriedEngine.Reachable ∧ hurriedEngine.typing = .ok hurriedTyping ∧
      VisitOrder.calleesFirst.Complete ∧ inTime.Complete ∧
      hurriedTyping.infer .calleesFirst (onNumber "collect") =
        .error (.type (.sentinelArgument 0 "accept")) ∧
      hurriedTyping.infer inTime (onNumber "collect") = .ok hurriedReturns) ∧
    (aheadEngine.Reachable ∧ aheadEngine.typing = .ok aheadTyping ∧
      VisitOrder.callersFirst.Complete ∧
      aheadTyping.infer .calleesFirst ⟨"ahead", [⟨1⟩]⟩ = .ok (aheadReturns (some ⟨0⟩)) ∧
      aheadTyping.infer .callersFirst ⟨"ahead", [⟨1⟩]⟩ = .ok (aheadReturns none)) :=
  ⟨⟨hurriedEngine_reachable, Engine.typing_of_scalar (by with_unfolding_all rfl),
      VisitOrder.complete_calleesFirst, complete_inTime, by with_unfolding_all rfl,
      by with_unfolding_all rfl⟩,
    aheadEngine_reachable, Engine.typing_of_scalar (by with_unfolding_all rfl),
    VisitOrder.complete_callersFirst, by with_unfolding_all rfl, by with_unfolding_all rfl⟩

end Catalog

end ShapeCompiler
