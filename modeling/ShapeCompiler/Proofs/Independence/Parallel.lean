import Mathlib.Data.List.Forall2
import ShapeCompiler.Proofs.Assoc
import ShapeCompiler.Proofs.Success

/-!
Steps that run alike on two sides.

Two steps are parallel if both fail with the same error, or both yield and what they yield is related.
Main statements: sequences of parallel steps are parallel (`Parallel.bind`, `ParallelIn.bind`), and maps
with related keys and values are read and written alike where keys correspond one to one
(`Assoc.Related.get?`, `Assoc.Related.insert`).
-/

namespace ShapeCompiler

variable {ε α β γ δ σ τ : Type} {R : α → β → Prop} {S : γ → δ → Prop} {P : σ → τ → Prop}

/-- Both steps fail with the same error, or both yield something, and that is related. -/
inductive Parallel (R : α → β → Prop) : Except ε α → Except ε β → Prop
  | ok {a : α} {b : β} (h : R a b) : Parallel R (.ok a) (.ok b)
  | error (e : ε) : Parallel R (.error e) (.error e)

namespace Parallel

variable {x : Except ε α} {y : Except ε β}

theorem bind {f : α → Except ε γ} {g : β → Except ε δ} (hx : Parallel R x y)
    (hf : ∀ a b, R a b → Parallel S (f a) (g b)) : Parallel S (x >>= f) (y >>= g) := by
  cases hx with
  | ok h => exact hf _ _ h
  | error e => exact .error e

theorem mono {R' : α → β → Prop} (hx : Parallel R x y) (h : ∀ a b, R a b → R' a b) : Parallel R' x y := by
  cases hx with
  | ok hR => exact .ok (h _ _ hR)
  | error e => exact .error e

theorem map {f : α → γ} {g : β → δ} (hx : Parallel R x y) (h : ∀ a b, R a b → S (f a) (g b)) :
    Parallel S (x.map f) (y.map g) := by
  cases hx with
  | ok hR => exact .ok (h _ _ hR)
  | error e => exact .error e

/-- A step is parallel to itself as far as what it yields is related to itself. -/
theorem of_eq {R : α → α → Prop} {x y : Except ε α} (h : y = x) (hR : ∀ a, x = .ok a → R a a) :
    Parallel R x y := by
  rw [h]
  cases x with
  | ok a => exact .ok (hR a rfl)
  | error e => exact .error e

theorem eq {x y : Except ε α} (h : Parallel Eq x y) : y = x := by
  cases h with
  | ok h => rw [h]
  | error e => rfl

/-- Two steps are parallel if both are parallel to a third one. -/
theorem join {T : α → β → Prop} {R' : α → γ → Prop} {S' : β → γ → Prop} {z : Except ε γ}
    (hx : Parallel R' x z) (hy : Parallel S' y z) (h : ∀ a b c, R' a c → S' b c → T a b) :
    Parallel T x y := by
  cases hx with
  | error e =>
    cases hy
    exact .error e
  | ok ha =>
    cases hy with
    | ok hb => exact .ok (h _ _ _ ha hb)

end Parallel

/-- Steps that also change a state: begun in related states they are parallel, and end in related
states. -/
def ParallelIn (P : σ → τ → Prop) (R : α → β → Prop) (x : StateT σ (Except ε) α)
    (y : StateT τ (Except ε) β) : Prop :=
  ∀ s t, P s t → Parallel (fun p q => R p.1 q.1 ∧ P p.2 q.2) (x.run s) (y.run t)

namespace ParallelIn

variable {x : StateT σ (Except ε) α} {y : StateT τ (Except ε) β}

theorem pure {a : α} {b : β} (h : R a b) :
    ParallelIn P R (pure a : StateT σ (Except ε) α) (pure b : StateT τ (Except ε) β) :=
  fun _ _ hP => .ok ⟨h, hP⟩

theorem throw (e : ε) :
    ParallelIn P R (throw e : StateT σ (Except ε) α) (throw e : StateT τ (Except ε) β) :=
  fun _ _ _ => .error e

theorem bind {f : α → StateT σ (Except ε) γ} {g : β → StateT τ (Except ε) δ} (hx : ParallelIn P R x y)
    (hf : ∀ a b, R a b → ParallelIn P S (f a) (g b)) : ParallelIn P S (x >>= f) (y >>= g) :=
  fun s t hP => (hx s t hP).bind fun p q h => hf p.1 q.1 h.1 p.2 q.2 h.2

theorem lift {x : Except ε α} {y : Except ε β} (h : Parallel R x y) :
    ParallelIn P R (liftM x : StateT σ (Except ε) α) (liftM y : StateT τ (Except ε) β) := by
  intro s t hP
  cases h with
  | ok h => exact .ok ⟨h, hP⟩
  | error e => exact .error e

theorem get : ParallelIn P P (get : StateT σ (Except ε) σ) (get : StateT τ (Except ε) τ) :=
  fun _ _ hP => .ok ⟨hP, hP⟩

theorem set {s : σ} {t : τ} (h : P s t) :
    ParallelIn P (fun _ _ => True) (set s : StateT σ (Except ε) PUnit)
      (set t : StateT τ (Except ε) PUnit) :=
  fun _ _ _ => .ok ⟨trivial, h⟩

theorem modify {f : σ → σ} {g : τ → τ} (h : ∀ s t, P s t → P (f s) (g t)) :
    ParallelIn P (fun _ _ => True) (modify f : StateT σ (Except ε) PUnit)
      (modify g : StateT τ (Except ε) PUnit) :=
  fun _ _ hP => .ok ⟨trivial, h _ _ hP⟩

end ParallelIn

/-! ### Maps -/

namespace Assoc

variable {α' β' : Type} {K : α → α' → Prop} {V : β → β' → Prop}

/-- Maps that list related keys with related values, in the same order. -/
def Related (K : α → α' → Prop) (V : β → β' → Prop) (m : Assoc α β) (m' : Assoc α' β') : Prop :=
  List.Forall₂ (fun p q => K p.1 q.1 ∧ V p.2 q.2) m.entries m'.entries

variable [DecidableEq α] [DecidableEq α'] {m : Assoc α β} {m' : Assoc α' β'} {k : α} {k' : α'}
  {v : β} {v' : β'}

namespace Related

omit [DecidableEq α] [DecidableEq α'] in
theorem empty : Related K V (Assoc.empty : Assoc α β) (Assoc.empty : Assoc α' β') := .nil

omit [DecidableEq α] [DecidableEq α'] in
theorem keys (h : Related K V m m') : List.Forall₂ K m.keys m'.keys :=
  List.forall₂_map_left_iff.2 (List.forall₂_map_right_iff.2 (h.imp fun _ _ hp => hp.1))

omit [DecidableEq α] [DecidableEq α'] in
theorem size (h : Related K V m m') : m.size = m'.size := h.length_eq

variable (hK : Relator.BiUnique K)
include hK

theorem get? (h : Related K V m m') (hk : K k k') : Option.Rel V (m.get? k) (m'.get? k') := by
  have hfind : ∀ {l l'}, List.Forall₂ (fun p q => K p.1 q.1 ∧ V p.2 q.2) l l' →
      Option.Rel V (find k l) (find k' l') := by
    intro l l' h
    induction h with
    | nil => exact .none
    | @cons p q l l' hp _ ih =>
      rw [find, find]
      by_cases heq : p.1 = k
      · rw [if_pos heq, if_pos (hK.2 (heq ▸ hp.1) hk)]
        exact .some hp.2
      · rw [if_neg heq, if_neg fun (heq' : q.1 = k') => heq (hK.1 (heq' ▸ hp.1) hk)]
        exact ih
  exact hfind h

theorem insert (h : Related K V m m') (hk : K k k') (hv : V v v') :
    Related K V (m.insert k v) (m'.insert k' v') := by
  have hput : ∀ {l l'}, List.Forall₂ (fun p q => K p.1 q.1 ∧ V p.2 q.2) l l' →
      List.Forall₂ (fun p q => K p.1 q.1 ∧ V p.2 q.2) (put k v l) (put k' v' l') := by
    intro l l' h
    induction h with
    | nil => exact .cons ⟨hk, hv⟩ .nil
    | @cons p q l l' hp hl ih =>
      rw [put, put]
      by_cases heq : p.1 = k
      · rw [if_pos heq, if_pos (hK.2 (heq ▸ hp.1) hk)]
        exact .cons ⟨hk, hv⟩ hl
      · rw [if_neg heq, if_neg fun (heq' : q.1 = k') => heq (hK.1 (heq' ▸ hp.1) hk)]
        exact .cons hp ih
  exact hput h

theorem insertAll (h : Related K V m m') {l : List (α × β)} {l' : List (α' × β')}
    (hl : List.Forall₂ (fun p q => K p.1 q.1 ∧ V p.2 q.2) l l') :
    Related K V (m.insertAll l) (m'.insertAll l') := by
  unfold Assoc.insertAll
  induction hl generalizing m m' with
  | nil => exact h
  | cons hp _ ih => exact ih (h.insert hK hp.1 hp.2)

theorem contains (h : Related K V m m') (hk : K k k') : m'.contains k' = m.contains k := by
  have hrel := h.get? hK hk
  unfold Assoc.contains
  revert hrel
  cases m.get? k <;> cases m'.get? k' <;> intro hrel <;> cases hrel <;> rfl

omit [DecidableEq α] [DecidableEq α'] in
/-- Maps on one side are the same as soon as their images on the other side are. -/
theorem eq_iff (hV : Relator.BiUnique V) (h : Related K V m m') {n : Assoc α β} {n' : Assoc α' β'}
    (hn : Related K V n n') : m = n ↔ m' = n' := by
  have hpair : Relator.BiUnique fun (p : α × β) (q : α' × β') => K p.1 q.1 ∧ V p.2 q.2 :=
    ⟨fun _ _ _ h h' => Prod.ext (hK.1 h.1 h'.1) (hV.1 h.2 h'.2),
      fun _ _ _ h h' => Prod.ext (hK.2 h.1 h'.1) (hV.2 h.2 h'.2)⟩
  have hlist := Relator.rel_eq hpair.forall₂ h hn
  cases m; cases n; cases m'; cases n'
  simpa using hlist

end Related

end Assoc

end ShapeCompiler
