import ShapeCompiler.Proofs.CallResults
import ShapeCompiler.Proofs.Programs
import ShapeCompiler.Proofs.Trees.Values

/-!
Adding up the leaves of a tree in compiled code.

The sum and the number of leaves are compiled to the same code, which differs only at a leaf. On a whole
tree it calls itself (`Fold.evaluates_self`); specialised on a leaf or a node it calls what is compiled for
trees through a site that the first call binds (`Fold.evaluates_entry`). Main statement: on the engine of
the catalog, whatever has been served before, both programs return what their reference counts
(`Catalog.folds_match_reference`).
-/

namespace ShapeCompiler

namespace Catalog

theorem engine_hasTrees : HasTrees engine.types where
  wellFormed := (Engine.Reached.wellFormed engine_prepared).types
  number := by rw [engine_types]; with_unfolding_all rfl
  leaf := by rw [engine_types]; with_unfolding_all rfl
  node := by rw [engine_types]; with_unfolding_all rfl

end Catalog

open Catalog Machine

structure Fold where
  name : Ident
  /-- What the number in a leaf amounts to. -/
  amount : Uint → Nat
  /-- The instruction for a leaf. -/
  atLeaf : Op
  /-- Where a value goes that is no tree. -/
  otherwise : Nat
  stays : atLeaf.Stays
  counts : ∀ (a : Artifact) (e : Engine) (u : Uint),
    e.run ((frameAt a 6 ((Tree.leaf u).compiled :: List.replicate 7 .incomplete)).exec noHost atLeaf) =
      .ok (.ok (.next (frameAt a 7
        ((Tree.leaf u).compiled :: (List.replicate 7 .incomplete).set 5 (.scalar (word24 (amount u)))))), e)

namespace Fold

variable {f : Fold} {recurse : Reg → Reg → Op} {a b : Artifact} {e e₁ e₂ : Engine}

/-- The code folds a subtree by calling itself. -/
def bySelf (dst src : Reg) : Op := .callSelf dst [src]

/-- The code folds a subtree by calling what is behind its first call site. -/
def bySite (dst src : Reg) : Op := .call dst 0 [src]

/-- The code of a fold, given how it goes on with a subtree. -/
def code (f : Fold) (recurse : Reg → Reg → Op) : List Op := [
  .switchTag 0 [1, 6] f.otherwise,
  .unpack 0 [(1, .boxed 0), (2, .boxed 1)], recurse 3 1, recurse 4 2, .binary 5 .add 24 3 4, .ret 5,
  f.atLeaf, .ret 6,
  .incomplete 7, .ret 7]

abbrev IsCode (f : Fold) (recurse : Reg → Reg → Op) (a : Artifact) : Prop := a.Lists (f.code recurse) 8 1

theorem evaluates_leaf (h : f.IsCode recurse a) (u : Uint) :
    (start a [(Tree.leaf u).compiled]).Evaluates e (.scalar (word24 (f.amount u))) e := by
  rw [start_eq h]
  refine Leads.evaluates (.switchTag (h.op rfl) rfl (Tree.tag_leaf u) rfl) ?_
  refine Leads.evaluates (.step (h.op rfl) f.stays (f.counts a e u)) ?_
  exact .ret (h.op rfl) rfl

/-- Going on with a subtree leads behind the instruction for it, with what the subtree is evaluated to. -/
def Recurses (recurse : Reg → Reg → Op) (a : Artifact) (e : Engine) (subtree result : Compiled)
    (e₁ : Engine) : Prop :=
  ∀ {pc : Nat} {dst src : Reg} {rs : List Compiled}, a.code[pc]? = some (recurse dst src) →
    rs[src]? = some subtree → dst < rs.length →
      (frameAt a pc rs).Leads e (frameAt a (pc + 1) (rs.set dst result)) e₁

/-- At a node the fold adds what its recursion makes of the subtrees. -/
theorem evaluates_node (h : f.IsCode recurse a) {l r : Compiled} {x y : UInt64}
    (hl : Recurses recurse a e l (.scalar x) e₁) (hr : Recurses recurse a e₁ r (.scalar y) e₂) :
    (start a [.boxed 0 [l, r]]).Evaluates e (.scalar ((x + y) &&& mask 24)) e₂ := by
  rw [start_eq h]
  refine Leads.evaluates (.switchTag (h.op rfl) rfl rfl rfl) ?_
  have hunpack : (frameAt a 1 (.boxed 0 [l, r] :: List.replicate 7 .incomplete)).Leads e
      (frameAt a 2 (.boxed 0 [l, r] :: l :: r :: List.replicate 5 .incomplete)) e :=
    .step (h.op rfl) trivial rfl
  refine hunpack.evaluates ?_
  refine (hl (h.op rfl) rfl (by simp)).evaluates ?_
  refine (hr (h.op rfl) rfl (by simp)).evaluates ?_
  refine Leads.evaluates (.step (h.op rfl) trivial rfl) ?_
  exact .ret (h.op rfl) rfl

/-- The code that calls itself for the subtrees evaluates to what the leaves of a tree amount to. -/
theorem evaluates_self (h : f.IsCode bySelf a) (tree : Tree) :
    (start a [tree.compiled]).Evaluates e (.scalar (word24 (tree.total f.amount))) e := by
  induction tree with
  | leaf u => exact evaluates_leaf h u
  | node l r hl hr =>
    rw [Tree.total, Nat.cast_add, ← word24_add]
    exact evaluates_node h (fun hop hc hd => .callSelf hop (.cons hc .nil) hd hl)
      (fun hop hc hd => .callSelf hop (.cons hc .nil) hd hr)

/-- So does the code that calls the other for the subtrees, through a site that its first call binds. -/
theorem evaluates_entry (h : f.IsCode bySite a)
    (hb : f.IsCode bySelf b) {callee : Signature}
    (hsite : a.callSites[0]? = some callee)
    (hnew : e.update (Update.bindSite a.signature 0 callee) = (.ok b, e₁))
    (hbound : e₁.update (Update.bindSite a.signature 0 callee) = (.ok b, e₁)) (tree : Tree) :
    ∃ e', (start a [tree.compiled]).Evaluates e (.scalar (word24 (tree.total f.amount))) e' := by
  cases tree with
  | leaf u => exact ⟨e, evaluates_leaf h u⟩
  | node l r =>
    rw [Tree.total, Nat.cast_add, ← word24_add]
    exact ⟨e₁, evaluates_node h
      (fun hop hc hd => .call hop hsite hnew (.cons hc .nil) hd (evaluates_self hb l))
      (fun hop hc hd => .call hop hsite hbound (.cons hc .nil) hd (evaluates_self hb r))⟩

/-! ### On the engine of the catalog -/

/-- A program of the catalog is compiled to the code of the fold. -/
structure InCatalog (f : Fold) : Prop where
  program : ∃ d ∈ programs, d.name = f.name
  parts : (∀ id ∈ [(⟨1⟩ : TypeId), ⟨2⟩],
      engine.parts? ⟨f.name, [id]⟩ = some (f.code bySite, 8, [⟨f.name, [⟨3⟩]⟩], some ⟨0⟩)) ∧
    engine.parts? ⟨f.name, [⟨3⟩]⟩ = some (f.code bySelf, 8, [], some ⟨0⟩)

theorem specialises_value (tree : Tree) : engine.Specialises tree.value tree.type := by
  cases tree with
  | leaf u => exact (TypeTable.recordNamed?_eq_some.1 engine_hasTrees.leaf).1
  | node l r => exact (TypeTable.recordNamed?_eq_some.1 engine_hasTrees.node).1

/-- A call with a tree returns what its leaves amount to. -/
theorem InCatalog.returns (h : f.InCatalog) (tree : Tree) :
    engine.Returns f.name [tree.value] (.u24 (word24 (tree.total f.amount))) := by
  obtain ⟨d, hd, hname⟩ := h.program
  have htype : tree.type ∈ [(⟨1⟩ : TypeId), ⟨2⟩] := by cases tree <;> simp [Tree.type]
  obtain ⟨a, ha, hsig, hlists, hsites, hreturns⟩ := Engine.exists_of_parts? (h.parts.1 _ htype)
  obtain ⟨b, hb, -, hlists', -, -⟩ := Engine.exists_of_parts? h.parts.2
  have hspecialise := engine_prepared.update_specialize
    (s := ⟨f.name, [tree.type]⟩) (.cons (specialises_value tree) .nil) ha
  have hother : (⟨f.name, [tree.type]⟩ : Signature) ≠ ⟨f.name, [⟨3⟩]⟩ := by
    cases tree <;> simp [Tree.type]
  have hbind := engine_prepared.update_bindSite hother hb a.signature 0
  obtain ⟨e', heval⟩ := evaluates_entry hlists hlists' (by rw [hsites]; rfl) hbind
    (Engine.update_bindSite_bound (Assoc.get?_insert_self _ _ _)) tree
  refine Engine.returns_of_evaluates (hname ▸ engine_decorated hd) hspecialise ?_ ?_ heval hreturns ?_
  · rw [hsig]
    show engine.types.encodeAll [tree.value] [tree.type] = .ok [tree.compiled]
    rw [TypeTable.encodeAll, Tree.encode_value engine_hasTrees tree (.inl rfl)]
    rfl
  · rw [hsig]
    rfl
  · exact Tree.decode_number engine_hasTrees _

end Fold

namespace Catalog

/-- The sum of the leaves. -/
def sumFold : Fold where
  name := "sum_tree"
  amount u := u.value.toNat
  atLeaf := .unpack 0 [(6, .packed ⟨8, 24⟩)]
  otherwise := 8
  stays := trivial
  counts a e u := by
    rw [← Tree.read_leaf u]
    rfl

/-- The number of leaves. -/
def countFold : Fold where
  name := "count_leaves"
  amount _ := 1
  atLeaf := .const 6 1
  otherwise := 6
  stays := trivial
  counts _ _ _ := rfl

theorem sumFold_inCatalog : sumFold.InCatalog where
  program := ⟨sumTree, by simp [programs], rfl⟩
  parts := by decide +kernel

theorem countFold_inCatalog : countFold.InCatalog where
  program := ⟨countLeaves, by simp [programs], rfl⟩
  parts := by decide +kernel

/-- Whatever has been served before, the sum of a tree is the sum of its leaves modulo `2 ^ 24`, which is
what the work list adds up, and the count is the number of its leaves modulo `2 ^ 24`. -/
theorem folds_match_reference {e : Engine} (h : engine.Onward e) (tree : Tree) :
    e.Returns "sum_tree" [tree.value] (.u24 (leafSum tree.value)) ∧
    (leafSum tree.value).toNat = tree.sum % 2 ^ 24 ∧
    e.Returns "count_leaves" [tree.value] (.u24 (UInt64.ofNat (tree.leaves % 2 ^ 24))) := by
  have hargs : ∀ v ∈ [tree.value], v.RecordsIn fun n => (engine.types.lookup n).isSome :=
    List.forall_mem_singleton.2 (tree.recordsIn_value
      (Option.isSome_of_eq_some (TypeTable.recordNamed?_eq_some.1 engine_hasTrees.leaf).1)
      (Option.isSome_of_eq_some (TypeTable.recordNamed?_eq_some.1 engine_hasTrees.node).1))
  have hsum : leafSum tree.value = word24 tree.sum := tree.leafSum_value
  have hcount : UInt64.ofNat (tree.leaves % 2 ^ 24) = word24 tree.leaves := by
    rw [word24]
    congr 1
  refine ⟨?_, ?_, ?_⟩
  · rw [hsum]
    exact engine_prepared.returns engine_pure engine_uniform h hargs (sumFold_inCatalog.returns tree)
  · rw [hsum, toNat_word24]
    omega
  · rw [hcount]
    exact engine_prepared.returns engine_pure engine_uniform h hargs (countFold_inCatalog.returns tree)

/-- A tree with numbers of several widths, whose sum has more than 24 bits. -/
def wideTree : Tree :=
  .node (.leaf (.wrap 24 16777215)) (.node (.leaf (.wrap 64 33554434)) (.leaf (.wrap 8 7)))

/-- The engine of the catalog after a call that has compiled two specialisations and bound a call site. -/
def usedEngine : Engine := engine.after 60 (.call "sum_tree" [node (leaf 1) (leaf 2)])

theorem folds_match_reference_wide :
    usedEngine.compiled.keys.length = 2 ∧ usedEngine.bound.keys.length = 1 ∧
    usedEngine.Returns "sum_tree" [wideTree.value] (.u24 8) ∧
    usedEngine.Returns "count_leaves" [wideTree.value] (.u24 3) := by
  have hused : engine.Onward usedEngine := .after .start trivial
  obtain ⟨hsum, hvalue, hcount⟩ := folds_match_reference hused wideTree
  have hleafSum : leafSum wideTree.value = 8 := UInt64.toNat_inj.1 (hvalue.trans rfl)
  have hkept : usedEngine.compiled.keys.length = 2 ∧ usedEngine.bound.keys.length = 1 := by decide +kernel
  exact ⟨hkept.1, hkept.2, hleafSum ▸ hsum, hcount⟩

end Catalog

end ShapeCompiler
