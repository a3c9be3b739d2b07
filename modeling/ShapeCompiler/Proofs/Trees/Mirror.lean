import ShapeCompiler.Proofs.Specialisations
import ShapeCompiler.Proofs.Trees.Perfect

/-!
Exchanging the subtrees of every node in compiled code.

The program matches as an expression and hands any tree but a node back as it is. Specialised on a node it
returns a node, specialised on a leaf it returns a tree, and both call what is compiled for trees
(`Catalog.Tree.flipping`). Main statement: on the engine of the catalog the program exchanges the subtrees
of every node, so it undoes itself, and neither the sum nor the number of the leaves changes
(`Catalog.mirror_involution`).
-/

namespace ShapeCompiler

open Catalog Machine

namespace Catalog

namespace Tree

variable {a : Artifact} {e₀ : Engine} {recurse : Reg → Reg → Op} {x y x' y' : Compiled}

/-- The tree with the subtrees of every node exchanged. -/
def flip : Tree → Tree
  | leaf u => leaf u
  | node l r => node r.flip l.flip

/-- All numbers in the leaves have 24 bits. -/
def IsNarrow : Tree → Prop
  | leaf u => u.bits = 24
  | node l r => l.IsNarrow ∧ r.IsNarrow

theorem flip_flip (tree : Tree) : tree.flip.flip = tree := by
  induction tree with
  | leaf u => rfl
  | node l r hl hr => rw [flip, flip, hl, hr]

theorem total_flip (g : Uint → Nat) (tree : Tree) : tree.flip.total g = tree.total g := by
  induction tree with
  | leaf u => rfl
  | node l r hl hr => rw [flip, total, total, hl, hr, Nat.add_comm]

theorem leaves_pos (tree : Tree) : 0 < tree.leaves := by
  induction tree with
  | leaf u => exact Nat.one_pos
  | node l r hl hr => exact Nat.add_pos_left hl _

theorem narrow_eq_self {tree : Tree} (h : tree.IsNarrow) : tree.narrow = tree := by
  induction tree with
  | leaf u =>
    have hwrap : Uint.wrap u.bits u.value = u := u.wrap_self
    rw [show u.bits = 24 from h] at hwrap
    exact congrArg leaf hwrap
  | node l r hl hr => rw [narrow, hl h.1, hr h.2]

theorem IsNarrow.flip {tree : Tree} (h : tree.IsNarrow) : tree.flip.IsNarrow := by
  induction tree with
  | leaf u => exact h
  | node l r hl hr => exact ⟨hr h.2, hl h.1⟩

/-! ### In compiled code -/

/-- The code that exchanges subtrees, given how it asks for an exchanged subtree. -/
def flipCode (recurse : Reg → Reg → Op) : List Op := [
  .switchTag 0 [1, 7] 7,
  .unpack 0 [(2, .boxed 0), (3, .boxed 1)], recurse 4 3, recurse 5 2,
  .construct 6 0 (.boxed [none, none]) [4, 5], .move 1 6, .jump 10,
  .move 1 0, .jump 10,
  .incomplete 1, .ret 1]

/-- A leaf is handed back. -/
theorem computes_flipLeaf (h : a.Lists (flipCode recurse) 7 1) (u : Uint) :
    (Machine.start a [(leaf u).compiled]).Computes e₀ (leaf u).compiled := by
  rw [start_eq h]
  refine Leads.computes (fun e => .switchTag (h.op rfl) rfl (tag_leaf u) rfl) ?_
  refine Leads.computes (fun e => .step (h.op rfl) trivial rfl) ?_
  refine Leads.computes (fun e => .step (h.op rfl) trivial rfl) ?_
  exact .ret (h.op rfl) rfl

/-- A node is built anew, the right subtree first. -/
theorem computes_flipNode (h : a.Lists (flipCode recurse) 7 1) (l r : Tree)
    (hr : Delegates e₀ recurse a r.compiled r.flip.compiled)
    (hl : Delegates e₀ recurse a l.compiled l.flip.compiled) :
    (Machine.start a [(node l r).compiled]).Computes e₀ (node r.flip l.flip).compiled := by
  rw [start_eq h]
  refine Leads.computes (fun e => .switchTag (h.op rfl) rfl rfl rfl) ?_
  have hunpack : ∀ e, (frameAt a 1 (.boxed 0 [l.compiled, r.compiled] :: List.replicate 6 .incomplete)).Leads e
      (frameAt a 2 (.boxed 0 [l.compiled, r.compiled] :: .incomplete :: l.compiled :: r.compiled ::
        List.replicate 3 .incomplete)) e :=
    fun e => .step (h.op rfl) trivial rfl
  refine Leads.computes hunpack ?_
  refine hr (h.op rfl) rfl (by simp) (hl (h.op rfl) rfl (by simp) ?_)
  refine Leads.computes (fun e => .construct (h.op rfl) (.cons rfl (.cons rfl .nil))
    (build_node r.flip l.flip) (by simp)) ?_
  refine Leads.computes (fun e => .step (h.op rfl) trivial rfl) ?_
  refine Leads.computes (fun e => .step (h.op rfl) trivial rfl) ?_
  exact .ret (h.op rfl) rfl

/-- The program as a recursion on trees. -/
def flipping (e₀ : Engine) : Recursion e₀ Tree where
  name := "mirror"
  size := leaves
  form := compiled
  result tree := tree.flip.compiled
  code := flipCode
  registers := 7
  step tree h hsub := by
    cases tree with
    | leaf u => exact computes_flipLeaf h u
    | node l r =>
      have hl := l.leaves_pos
      have hr := r.leaves_pos
      have hsum : (node l r).leaves = l.leaves + r.leaves := rfl
      exact computes_flipNode h l r (hsub r (by omega)) (hsub l (by omega))

end Tree

/-! ### On the engine of the catalog -/

/-- Specialised on a record, the program returns a tree of which that record is a variant, or a node. -/
theorem mirror_entry (tree : Tree) : ∃ type, (type = tree.type ∨ type = ⟨3⟩) ∧
    engine.parts? ⟨"mirror", [tree.type]⟩ =
      some ((Tree.flipping engine).entry, 7, [⟨"mirror", [⟨3⟩]⟩], some type) := by
  cases tree with
  | leaf u =>
    have hentry : engine.parts? ⟨"mirror", [⟨1⟩]⟩ =
        some ((Tree.flipping engine).entry, 7, [⟨"mirror", [⟨3⟩]⟩], some ⟨3⟩) := by decide +kernel
    exact ⟨⟨3⟩, .inr rfl, hentry⟩
  | node l r =>
    have hentry : engine.parts? ⟨"mirror", [⟨2⟩]⟩ =
        some ((Tree.flipping engine).entry, 7, [⟨"mirror", [⟨3⟩]⟩], some ⟨2⟩) := by decide +kernel
    exact ⟨⟨2⟩, .inl rfl, hentry⟩

theorem mirror_own :
    engine.parts? ⟨"mirror", [⟨3⟩]⟩ = some ((Tree.flipping engine).own, 7, [], some ⟨3⟩) := by
  decide +kernel

/-- A call with a tree returns it with the subtrees exchanged and the numbers wrapped. -/
theorem returns_flip (tree : Tree) : engine.Returns "mirror" [tree.value] tree.flip.narrow.value := by
  obtain ⟨type, htype, hentry⟩ := mirror_entry tree
  have hflip : tree.flip.type = tree.type := by cases tree <;> rfl
  refine engine_prepared.returns_of_recursion (r := Tree.flipping engine)
    (engine_decorated (d := mirror) (by simp [programs])) hentry mirror_own
    (Fold.specialises_value tree) (Tree.encode_value engine_hasTrees tree (.inl rfl)) ?_
  exact Tree.decode_compiled engine_hasTrees tree.flip (hflip.symm ▸ htype)

/-- Whatever has been served before, a tree of numbers of 24 bits is returned with the subtrees of every
node exchanged, the result of this is returned as the tree was, and both have the same sum and the same
number of leaves. -/
theorem mirror_involution {e : Engine} (h : engine.Onward e) {tree : Tree} (hn : tree.IsNarrow) :
    e.Returns "mirror" [tree.value] tree.flip.value ∧
    e.Returns "mirror" [tree.flip.value] tree.value ∧
    leafSum tree.flip.value = leafSum tree.value ∧
    e.Returns "count_leaves" [tree.value] (.u24 (UInt64.ofNat (tree.leaves % 2 ^ 24))) ∧
    e.Returns "count_leaves" [tree.flip.value] (.u24 (UInt64.ofNat (tree.leaves % 2 ^ 24))) := by
  have hargs : ∀ tree : Tree, ∀ v ∈ [tree.value], v.RecordsIn fun n => (engine.types.lookup n).isSome :=
    fun tree => List.forall_mem_singleton.2 (tree.recordsIn_value
      (Option.isSome_of_eq_some (TypeTable.recordNamed?_eq_some.1 engine_hasTrees.leaf).1)
      (Option.isSome_of_eq_some (TypeTable.recordNamed?_eq_some.1 engine_hasTrees.node).1))
  have hflip : ∀ {tree : Tree}, tree.IsNarrow → e.Returns "mirror" [tree.value] tree.flip.value := by
    intro tree hn
    have hreturns := returns_flip tree
    rw [Tree.narrow_eq_self hn.flip] at hreturns
    exact engine_prepared.returns engine_pure engine_uniform h (hargs tree) hreturns
  have hcount : ∀ tree : Tree,
      e.Returns "count_leaves" [tree.value] (.u24 (UInt64.ofNat (tree.leaves % 2 ^ 24))) := fun tree =>
    engine_prepared.returns engine_pure engine_uniform h (hargs tree) (countFold_inCatalog.returns tree)
  refine ⟨hflip hn, ?_, ?_, hcount tree, ?_⟩
  · have htwice := hflip hn.flip
    rwa [Tree.flip_flip] at htwice
  · rw [Tree.leafSum_value, Tree.leafSum_value, show tree.flip.sum = tree.sum from Tree.total_flip _ tree]
  · have hflipped := hcount tree.flip
    rwa [Tree.leaves, Tree.total_flip] at hflipped

def lopsidedTree : Tree :=
  .node (.leaf (.u24 1)) (.node (.node (.leaf (.u24 2)) (.leaf (.u24 3))) (.leaf (.u24 16777215)))

theorem mirror_involution_lopsided :
    lopsidedTree.IsNarrow ∧
    usedEngine.Returns "mirror" [lopsidedTree.value]
      (node (node (leaf 16777215) (node (leaf 3) (leaf 2))) (leaf 1)) ∧
    usedEngine.Returns "mirror" [node (node (leaf 16777215) (node (leaf 3) (leaf 2))) (leaf 1)]
      lopsidedTree.value ∧
    leafSum lopsidedTree.flip.value = 5 ∧
    usedEngine.Returns "count_leaves" [lopsidedTree.flip.value] (.u24 4) := by
  have hused : engine.Onward usedEngine := .after .start trivial
  have hn : lopsidedTree.IsNarrow := ⟨rfl, ⟨⟨rfl, rfl⟩, rfl⟩⟩
  obtain ⟨hflip, hback, hsum, -, hcount⟩ := mirror_involution hused hn
  have hvalue : leafSum lopsidedTree.value = 5 := lopsidedTree.leafSum_value.trans rfl
  exact ⟨hn, hflip, hback, hsum.trans hvalue, hcount⟩

end Catalog

end ShapeCompiler
