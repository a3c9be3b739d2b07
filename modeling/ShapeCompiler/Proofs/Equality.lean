import ShapeCompiler.Proofs.Representation

/-!
Comparison off a stack is structural equality.

A round takes a pair of nodes off the stack. It is done with their labels and leaves, while the nodes
below them wait on the stack, so what a round keeps is whether all pairs on the stack hold equal nodes
(`TreeView.matching_round`).

Main statement: the comparisons of values and of compiled values come to an answer, and it is that two
of them are equal exactly if they are so constructor by constructor (`beq_iff_alike`).
-/

namespace ShapeCompiler

/-! ### Rounds -/

namespace TreeView

variable {α β : Type} {view : TreeView α β} {a b : TreeNode α β} {x y : α}

/-- The two sides of every pair are equal. -/
def Matching {γ : Type} (pairs : List (γ × γ)) : Prop := ∀ p ∈ pairs, p.1 = p.2

@[simp] theorem matching_nil {γ : Type} : Matching ([] : List (γ × γ)) := by
  simp [Matching]

@[simp] theorem matching_cons {γ : Type} {x y : γ} {pairs : List (γ × γ)} :
    Matching ((x, y) :: pairs) ↔ x = y ∧ Matching pairs := by
  simp [Matching]

/-- Lists are equal if they are equally long and match side by side. -/
theorem matching_zip {γ : Type} {xs ys : List γ} (h : xs.length = ys.length) :
    Matching (xs.zip ys) ↔ xs = ys := by
  rw [← List.forall₂_eq_eq_eq, List.forall₂_iff_zip]
  exact ⟨fun hm => ⟨h, fun hp => hm _ hp⟩, fun hm _ hp => hm.2 hp⟩

theorem node_eq_iff (hx : view.node? x = some a) (hy : view.node? y = some b) : a = b ↔ x = y := by
  constructor
  · rintro rfl
    exact view.node?_inj hx hy
  · rintro rfl
    exact Option.some.inj (hx.symm.trans hy)

theorem leaf_of_not_nodes (h : ∀ a b, view.node? x = some a → view.node? y = some b → False) :
    view.node? x = none ∨ view.node? y = none := by
  cases hx : view.node? x with
  | none => exact .inl rfl
  | some a =>
    cases hy : view.node? y with
    | none => exact .inr rfl
    | some b => exact (h a b hx hy).elim

/-- Nodes that are put on the stack stand for the trees that they come from. -/
theorem matching_defer (pairs : List (α × α)) (pending : Pending α β) :
    (∃ pending', view.defer pairs pending = some pending' ∧ Matching pending') ↔
      Matching pairs ∧ Matching pending := by
  induction pairs generalizing pending with
  | nil => simp [defer]
  | cons p rest ih =>
    obtain ⟨x, y⟩ := p
    rw [defer, matching_cons]
    split
    · rename_i a b hx hy
      rw [ih, matching_cons, node_eq_iff hx hy]
      tauto
    · rename_i hleaf
      have hsame := view.sameLeaf_iff (leaf_of_not_nodes hleaf)
      split
      · rename_i h
        rw [ih]
        simp [hsame.1 h]
      · rename_i h
        simp [mt hsame.2 h]

/-- Nodes are equal if they agree in what a round looks at. -/
theorem node_ext_iff : a = b ↔
    (a.label = b.label ∧ a.children.length = b.children.length) ∧ Matching (a.children.zip b.children) := by
  obtain ⟨label, xs⟩ := a
  obtain ⟨label', ys⟩ := b
  rw [TreeNode.mk.injEq]
  constructor
  · rintro ⟨rfl, rfl⟩
    exact ⟨⟨rfl, rfl⟩, (matching_zip rfl).2 rfl⟩
  · rintro ⟨⟨hlabel, hlength⟩, hm⟩
    exact ⟨hlabel, (matching_zip hlength).1 hm⟩

/-- After a round all pairs on the stack match exactly if they did so before. -/
theorem matching_round [DecidableEq β] (pending : Pending α β) :
    (∃ pending', view.round a b pending = some pending' ∧ Matching pending') ↔
      Matching ((a, b) :: pending) := by
  rw [matching_cons, node_ext_iff, round]
  split
  · rename_i h
    rw [matching_defer]
    simp [h]
  · rename_i h
    simp [h]

/-- A round leads from one stack to another. -/
inductive Leads [DecidableEq β] (view : TreeView α β) : Pending α β → Pending α β → Prop
  | round {a b : TreeNode α β} {pending pending' : Pending α β}
      (h : view.round a b pending = some pending') : Leads view ((a, b) :: pending) pending'

theorem wellFounded_leads [DecidableEq β] (view : TreeView α β) : WellFounded (flip view.Leads) := by
  refine Subrelation.wf ?_ (measure view.load).wf
  rintro _ _ ⟨h⟩
  exact load_round h

/-- The comparison answers whether all pairs on the stack match. -/
theorem sameNodes_iff [DecidableEq β] (pending : Pending α β) :
    view.sameNodes pending = true ↔ Matching pending := by
  fun_induction view.sameNodes pending with
  | case1 => simp
  | case2 a b pending pending' hround ih =>
    rw [ih, ← matching_round, hround]
    simp
  | case3 a b pending hround =>
    rw [← matching_round, hround]
    simp

theorem same_iff [DecidableEq β] : view.same x y = true ↔ x = y := by
  unfold same
  split
  · rename_i a b hx hy
    rw [sameNodes_iff]
    simp [node_eq_iff hx hy]
  · rename_i hleaf
    exact view.sameLeaf_iff (leaf_of_not_nodes hleaf)

end TreeView

/-! ### Structural equality -/

/-- Values that are built alike: they have the same constructor and payload, and records have the same
type and as many fields, each built like the other. -/
inductive Value.Alike : Value → Value → Prop
  | int (n : UInt64) : Alike (.int n) (.int n)
  | uint (u : Uint) : Alike (.uint u) (.uint u)
  | record (type : Ident) {xs ys : List Value} (h : List.Forall₂ Alike xs ys) :
      Alike (.record type xs) (.record type ys)
  | incomplete : Alike .incomplete .incomplete

/-- Compiled values that are built alike, boxed records with the same tag. -/
inductive Compiled.Alike : Compiled → Compiled → Prop
  | scalar (n : UInt64) : Alike (.scalar n) (.scalar n)
  | packed (w : UInt64) : Alike (.packed w) (.packed w)
  | boxed (tag : UInt8) {xs ys : List Compiled} (h : List.Forall₂ Alike xs ys) :
      Alike (.boxed tag xs) (.boxed tag ys)
  | incomplete : Alike .incomplete .incomplete

theorem forall₂_iff_eq {α : Type} {R : α → α → Prop} {xs ys : List α}
    (h : ∀ x ∈ xs, ∀ y, R x y ↔ x = y) : List.Forall₂ R xs ys ↔ xs = ys := by
  induction xs generalizing ys with
  | nil => rw [List.forall₂_nil_left_iff, eq_comm]
  | cons x xs ih =>
    cases ys with
    | nil => simp
    | cons y ys =>
      rw [List.forall₂_cons, h x (by simp), ih fun z hz => h z (List.mem_cons_of_mem _ hz),
        List.cons.injEq]

theorem Value.alike_iff_eq {v w : Value} : v.Alike w ↔ v = w := by
  induction v using Value.ind generalizing w with
  | int n => exact ⟨fun h => by cases h; rfl, fun h => h ▸ .int n⟩
  | uint u => exact ⟨fun h => by cases h; rfl, fun h => h ▸ .uint u⟩
  | incomplete => exact ⟨fun h => by cases h; rfl, fun h => h ▸ .incomplete⟩
  | record type xs ih =>
    have hall {ys : List Value} : List.Forall₂ Alike xs ys ↔ xs = ys := forall₂_iff_eq fun x hx _ => ih x hx
    constructor
    · rintro (_ | _ | ⟨_, h⟩)
      rw [hall.1 h]
    · rintro rfl
      exact .record type (hall.2 rfl)

theorem Compiled.alike_iff_eq {c d : Compiled} : c.Alike d ↔ c = d := by
  induction c using Compiled.ind generalizing d with
  | scalar n => exact ⟨fun h => by cases h; rfl, fun h => h ▸ .scalar n⟩
  | packed w => exact ⟨fun h => by cases h; rfl, fun h => h ▸ .packed w⟩
  | incomplete => exact ⟨fun h => by cases h; rfl, fun h => h ▸ .incomplete⟩
  | boxed tag xs ih =>
    have hall {ys : List Compiled} : List.Forall₂ Alike xs ys ↔ xs = ys := forall₂_iff_eq fun x hx _ => ih x hx
    constructor
    · rintro (_ | _ | ⟨_, h⟩)
      rw [hall.1 h]
    · rintro rfl
      exact .boxed tag (hall.2 rfl)

instance : LawfulBEq Value where
  rfl := Value.view.same_iff.2 rfl
  eq_of_beq := Value.view.same_iff.1

instance : LawfulBEq Compiled where
  rfl := Compiled.view.same_iff.2 rfl
  eq_of_beq := Compiled.view.same_iff.1

/-- No comparison goes on for ever, whatever is on its stack, and the answer is that two values are equal
exactly if they are built alike; so the sentinel equals itself alone. -/
theorem beq_iff_alike :
    (WellFounded (flip Value.view.Leads) ∧ ∀ v w : Value, (v == w) = true ↔ v.Alike w) ∧
    (WellFounded (flip Compiled.view.Leads) ∧ ∀ c d : Compiled, (c == d) = true ↔ c.Alike d) ∧
    (∀ v : Value, (v == .incomplete) = true ↔ v = .incomplete) ∧
    ∀ c : Compiled, (c == .incomplete) = true ↔ c = .incomplete :=
  ⟨⟨Value.view.wellFounded_leads, fun _ _ => beq_iff_eq.trans Value.alike_iff_eq.symm⟩,
    ⟨Compiled.view.wellFounded_leads, fun _ _ => beq_iff_eq.trans Compiled.alike_iff_eq.symm⟩,
    fun _ => beq_iff_eq, fun _ => beq_iff_eq⟩

example : (Value.int 7 == .u24 7) = false := by decide

end ShapeCompiler
