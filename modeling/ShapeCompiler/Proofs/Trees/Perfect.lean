import Mathlib.Data.Int.ModEq
import ShapeCompiler.Proofs.Trees.Folds

/-!
Growing a perfect tree in compiled code.

The program counts a depth down to zero and moves the seed of each subtree up or down by one, so seeds
wrap on both sides of `2 ^ 24`. Compiled code follows the tree of the same shape over the integers
(`Tree.evaluates_perfect`). Main statement: on the engine of the catalog the program returns the perfect
tree of its depth, whose leaves and whose sum have a closed form (`Catalog.gen_tree_closed_form`).
-/

namespace ShapeCompiler

open Catalog Machine

namespace Catalog

namespace Tree

/-- The perfect tree of a depth around a number: subtrees are around its neighbours. -/
def perfect : Nat → Int → Tree
  | 0, z => leaf (Uint.u24 (word24 z))
  | d + 1, z => node (perfect d (z - 1)) (perfect d (z + 1))

/-- The subtree at the end of a path, which goes right where it says so. -/
def follow : Tree → List Bool → Option Tree
  | tree, [] => some tree
  | leaf _, _ :: _ => none
  | node l r, right :: path => (if right then r else l).follow path

variable {a : Artifact} {e : Engine} {d : Nat} {z : Int}

theorem value_u24_word24 (z : Int) : (Uint.u24 (word24 z)).value = word24 z := word24_and_mask z

theorem narrow_perfect (d : Nat) (z : Int) : (perfect d z).narrow = perfect d z := by
  induction d generalizing z with
  | zero => rw [perfect, narrow, value_u24_word24]
  | succ d ih => rw [perfect, narrow, ih, ih]

/-- Every step to the right adds two to what the leftmost leaf holds. -/
theorem follow_perfect (d : Nat) (z : Int) {path : List Bool} (h : path.length = d) :
    (perfect d z).follow path = some (leaf (Uint.u24 (word24 (z - d + 2 * path.count true)))) := by
  induction d generalizing z path with
  | zero =>
    obtain rfl := List.length_eq_zero_iff.1 h
    simp [perfect, follow]
  | succ d ih =>
    cases path with
    | nil => cases h
    | cons right path =>
      rw [perfect, follow]
      cases right with
      | false =>
        rw [if_neg (by decide), ih _ (by simpa using h), List.count_cons_of_ne (by decide)]
        congr 4
        push_cast
        ring
      | true =>
        rw [if_pos rfl, ih _ (by simpa using h), List.count_cons_self]
        congr 4
        push_cast
        ring

/-- The seeds of the subtrees of a node are around its own, so doubling the depth doubles the sum. -/
theorem sum_perfect (d : Nat) (z : Int) : ((perfect d z).sum : Int) ≡ 2 ^ d * z [ZMOD 2 ^ 24] := by
  induction d generalizing z with
  | zero =>
    show ((Uint.u24 (word24 z)).value.toNat : Int) ≡ _ [ZMOD 2 ^ 24]
    rw [value_u24_word24, toNat_word24, Int.toNat_of_nonneg (by omega), pow_zero, one_mul]
    exact Int.mod_modEq z _
  | succ d ih =>
    have hsum : ((perfect (d + 1) z).sum : Int) = (perfect d (z - 1)).sum + (perfect d (z + 1)).sum := rfl
    rw [hsum]
    have h := (ih (z - 1)).add (ih (z + 1))
    rwa [show (2 : Int) ^ d * (z - 1) + 2 ^ d * (z + 1) = 2 ^ (d + 1) * z by ring] at h

/-! ### In compiled code -/

def growCode : List Op := [
  .switchScalar 0 [(0, 1)] 3,
  .construct 2 1 (.packed [⟨8, 24⟩]) [1], .ret 2,
  .const 3 1, .binary 4 .sub 24 0 3,
  .const 5 1, .binary 6 .sub 24 1 5, .callSelf 7 [4, 6],
  .const 8 1, .binary 9 .add 24 1 8, .callSelf 10 [4, 9],
  .construct 11 0 (.boxed [none, none]) [7, 10], .ret 11,
  .incomplete 12, .ret 12]

theorem build_leaf (n : UInt64) :
    (Shape.packed [⟨8, 24⟩]).build 1 [.scalar n] = .ok (leaf (Uint.u24 n)).compiled := by
  have hvalue : (Uint.u24 (Uint.u24 n).value).value = n &&& mask 24 := and_mask_and_mask n 24
  rw [compiled, hvalue]
  rfl

theorem build_node (l r : Tree) :
    (Shape.boxed [none, none]).build 0 [l.compiled, r.compiled] = .ok (node l r).compiled := by
  cases l <;> cases r <;> rfl

/-- The registers of the code, which it writes in order from the fourth. -/
def growFrame (d z : Int) (written : List Compiled) : List Compiled :=
  .scalar (word24 d) :: .scalar (word24 z) :: .incomplete ::
    (written ++ List.replicate (10 - written.length) .incomplete)

theorem apply_sub_one (z : Int) : Operator.sub.apply (word24 z) 1 24 = .ok (word24 (z - 1)) :=
  congrArg Except.ok (word24_sub z 1)

theorem apply_add_one (z : Int) : Operator.add.apply (word24 z) 1 24 = .ok (word24 (z + 1)) :=
  congrArg Except.ok (word24_add z 1)

/-- A depth that is not zero is not taken for zero. -/
theorem zero_beq_word24_succ (hd : d + 1 < 2 ^ 24) : ((0 : UInt64) == word24 (d + 1 : Nat)) = false := by
  rw [beq_eq_false_iff_ne, ne_eq, ← UInt64.toNat_inj, toNat_word24]
  show ¬ 0 = _
  omega

theorem evaluates_growLeaf (h : a.Lists growCode 13 2) (n : UInt64) :
    (Machine.start a [.scalar 0, .scalar n]).Evaluates e (leaf (Uint.u24 n)).compiled e := by
  rw [start_eq h]
  refine Leads.evaluates (.switchScalar (h.op rfl) rfl rfl) ?_
  refine Leads.evaluates (.construct (h.op rfl) (.cons rfl .nil) (build_leaf _) (by simp)) ?_
  exact .ret (h.op rfl) rfl

/-- At any other depth the code makes a node, of what it makes at the depth below of the neighbours of the
number. -/
theorem evaluates_growNode (h : a.Lists growCode 13 2) (hd : d + 1 < 2 ^ 24) {l r : Tree}
    (hl : (Machine.start a [.scalar (word24 d), .scalar (word24 (z - 1))]).Evaluates e l.compiled e)
    (hr : (Machine.start a [.scalar (word24 d), .scalar (word24 (z + 1))]).Evaluates e r.compiled e) :
    (Machine.start a [.scalar (word24 (d + 1 : Nat)), .scalar (word24 z)]).Evaluates e (node l r).compiled e := by
  have hdepth : Operator.sub.apply (word24 (d + 1 : Nat)) 1 24 = .ok (word24 d) := by
    rw [apply_sub_one, Nat.cast_succ, Int.add_sub_cancel]
  rw [start_eq h]
  refine Leads.evaluates (.switchScalar (h.op rfl) rfl (by rw [List.find?_cons, zero_beq_word24_succ hd])) ?_
  -- the depth of the subtrees
  refine Leads.evaluates (.const (h.op rfl) (by simp)) ?_
  refine Leads.evaluates (.binary (h.op rfl) rfl rfl hdepth (by simp)) ?_
  show (frameAt a 5 (growFrame (d + 1 : Nat) z [.scalar 1, .scalar (word24 d)])).Evaluates e _ e
  -- the left subtree
  refine Leads.evaluates (.const (h.op rfl) (by simp [growFrame])) ?_
  refine Leads.evaluates (.binary (h.op rfl) rfl rfl (apply_sub_one z) (by simp [growFrame])) ?_
  refine Leads.evaluates (.callSelf (h.op rfl) (.cons rfl (.cons rfl .nil)) (by simp [growFrame]) hl) ?_
  show (frameAt a 8 (growFrame (d + 1 : Nat) z [.scalar 1, .scalar (word24 d), .scalar 1,
    .scalar (word24 (z - 1)), l.compiled])).Evaluates e _ e
  -- the right subtree
  refine Leads.evaluates (.const (h.op rfl) (by simp [growFrame])) ?_
  refine Leads.evaluates (.binary (h.op rfl) rfl rfl (apply_add_one z) (by simp [growFrame])) ?_
  refine Leads.evaluates (.callSelf (h.op rfl) (.cons rfl (.cons rfl .nil)) (by simp [growFrame]) hr) ?_
  show (frameAt a 11 (growFrame (d + 1 : Nat) z [.scalar 1, .scalar (word24 d), .scalar 1,
    .scalar (word24 (z - 1)), l.compiled, .scalar 1, .scalar (word24 (z + 1)), r.compiled])).Evaluates e _ e
  refine Leads.evaluates
    (.construct (h.op rfl) (.cons rfl (.cons rfl .nil)) (build_node l r) (by simp [growFrame])) ?_
  exact .ret (h.op rfl) rfl

/-- The code makes the perfect tree of its arguments. -/
theorem evaluates_perfect (h : a.Lists growCode 13 2) (hd : d < 2 ^ 24) (z : Int) :
    (Machine.start a [.scalar (word24 d), .scalar (word24 z)]).Evaluates e (perfect d z).compiled e := by
  induction d generalizing z with
  | zero => exact evaluates_growLeaf h (word24 z)
  | succ d ih =>
    have ih := fun z => ih (Nat.lt_of_succ_lt hd) z
    exact evaluates_growNode h hd (ih (z - 1)) (ih (z + 1))

end Tree

/-! ### On the engine of the catalog -/

theorem genTree_parts : engine.parts? ⟨"gen_tree", [⟨0⟩, ⟨0⟩]⟩ = some (Tree.growCode, 13, [], some ⟨3⟩) := by
  decide +kernel

theorem engine_defaultBits : engine.options.defaultBits = 24 := by
  rw [engine_eq]
  rfl

/-- A call with two numbers returns a perfect tree. -/
theorem returns_perfect {d : Nat} (hd : d < 2 ^ 24) (n : UInt64) :
    engine.Returns "gen_tree" [.int (UInt64.ofNat d), .int n] (Tree.perfect d n.toNat).value := by
  obtain ⟨a, ha, hsig, hlists, -, hreturns⟩ := Engine.exists_of_parts? genTree_parts
  have hnumber : ∀ k, engine.Specialises (.int k) ⟨0⟩ := fun k => by
    show engine.types.scalarBits? ⟨0⟩ = some engine.options.defaultBits
    rw [engine_defaultBits, engine_hasTrees.number]
  have hspecialise := engine_prepared.update_specialize (s := ⟨"gen_tree", [⟨0⟩, ⟨0⟩]⟩)
    (.cons (hnumber (UInt64.ofNat d)) (.cons (hnumber n) .nil)) ha
  have hdepth : UInt64.ofNat d &&& mask 24 = word24 d := by
    rw [and_mask_eq_word24, UInt64.toNat_ofNat_of_lt' (Nat.lt_trans hd (by decide))]
  refine Engine.returns_of_evaluates (engine_decorated (d := genTree) (by simp [programs])) hspecialise ?_ ?_
    (Tree.evaluates_perfect hlists hd n.toNat) hreturns ?_
  · rw [hsig]
    show engine.types.encodeAll [.int (UInt64.ofNat d), .int n] [⟨0⟩, ⟨0⟩] = _
    rw [TypeTable.encodeAll, Tree.encode_number engine_hasTrees, hdepth, TypeTable.encodeAll,
      Tree.encode_number engine_hasTrees, and_mask_eq_word24]
    rfl
  · rw [hsig]
    rfl
  · show engine.types.decode _ ⟨3⟩ = _
    rw [Tree.decode_compiled engine_hasTrees _ (.inr rfl), Tree.narrow_perfect]

/-- Whatever has been served before, the program returns the perfect tree of its depth, in which the leaf
behind `k` turns to the right holds the seed less the depth plus `2 * k`, and the sum of the leaves is the
seed times the number of leaves, both modulo `2 ^ 24`. -/
theorem gen_tree_closed_form {e : Engine} (h : engine.Onward e) {d : Nat} (hd : d < 2 ^ 24) (n : UInt64) :
    ∃ tree : Tree, e.Returns "gen_tree" [.int (UInt64.ofNat d), .int n] tree.value ∧
    (∀ path : List Bool, path.length = d → ∃ u : Uint, tree.follow path = some (.leaf u) ∧ u.bits = 24 ∧
      (u.value.toNat : Int) = (n.toNat - d + 2 * path.count true) % 2 ^ 24) ∧
    (leafSum tree.value).toNat = 2 ^ d * n.toNat % 2 ^ 24 := by
  have hargs : ∀ v ∈ [Value.int (UInt64.ofNat d), .int n],
      v.RecordsIn fun n => (engine.types.lookup n).isSome :=
    List.forall_mem_cons.2 ⟨.int _, List.forall_mem_singleton.2 (.int _)⟩
  refine ⟨Tree.perfect d n.toNat,
    engine_prepared.returns engine_pure engine_uniform h hargs (returns_perfect hd n), ?_, ?_⟩
  · intro path hpath
    refine ⟨_, Tree.follow_perfect d n.toNat hpath, rfl, ?_⟩
    rw [Tree.value_u24_word24, toNat_word24]
    omega
  · rw [Tree.leafSum_value, toNat_word24, (Tree.sum_perfect d n.toNat).eq]
    rw [show (2 : Int) ^ d * n.toNat = ((2 ^ d * n.toNat : Nat) : Int) by push_cast; rfl]
    omega

/-- Seeds wrap below zero, and both leaves in the middle hold the same number. -/
theorem gen_tree_closed_form_wraps :
    ∃ tree : Tree, usedEngine.Returns "gen_tree" [.int 2, .int 1] tree.value ∧
    (∃ u : Uint, tree.follow [false, false] = some (.leaf u) ∧ (u.value.toNat : Int) = 16777215) ∧
    (∃ u : Uint, tree.follow [false, true] = some (.leaf u) ∧ (u.value.toNat : Int) = 1) ∧
    (leafSum tree.value).toNat = 4 := by
  have hused : engine.Onward usedEngine := .after .start trivial
  obtain ⟨tree, hreturns, hfollow, hsum⟩ := gen_tree_closed_form hused (by decide : 2 < 2 ^ 24) 1
  obtain ⟨u, hu, -, hvalue⟩ := hfollow [false, false] rfl
  obtain ⟨u', hu', -, hvalue'⟩ := hfollow [false, true] rfl
  exact ⟨tree, hreturns, ⟨u, hu, hvalue⟩, ⟨u', hu', hvalue'⟩, hsum⟩

end Catalog

end ShapeCompiler
