import ShapeCompiler.WorkList

/-!
Comparison of deep trees.

Two nodes are equal if they have the same label and equal children. A comparison keeps the pairs of
nodes that are still to be compared on a stack: it takes a pair off, goes through the children of both
side by side, puts the pairs of nodes among them on the stack and compares all other pairs at once. So
its recursion does not follow the depth of a tree.
-/

namespace ShapeCompiler

/-- A node taken apart. -/
structure TreeNode (α β : Type) where
  label : β
  children : List α

/-- What a comparison sees of trees. -/
structure TreeView (α β : Type) where
  /-- The label and the children of a node; leaves have none. -/
  node? : α → Option (TreeNode α β)
  /-- Whether two trees are equal one of which is a leaf. -/
  sameLeaf : α → α → Bool
  /-- Trees have sizes, and the children of a node are together smaller than the node. -/
  exists_size : ∃ size : α → Nat, ∀ {x : α} {a : TreeNode α β},
    node? x = some a → WorkList.weigh size a.children < size x
  node?_inj : ∀ {x y : α} {a : TreeNode α β}, node? x = some a → node? y = some a → x = y
  sameLeaf_iff : ∀ {x y : α}, node? x = none ∨ node? y = none → (sameLeaf x y = true ↔ x = y)

namespace TreeView

variable {α β : Type} (view : TreeView α β)

/-- Pairs of nodes that are still to be compared, the next one first. -/
abbrev Pending (α β : Type) : Type := List (TreeNode α β × TreeNode α β)

/--
Goes through pairs of trees: pairs of nodes are put on the stack, all others are compared at once. None
if one of these differs.
-/
def defer : List (α × α) → Pending α β → Option (Pending α β)
  | [], pending => some pending
  | (x, y) :: rest, pending =>
    match view.node? x, view.node? y with
    | some a, some b => defer rest ((a, b) :: pending)
    | _, _ => if view.sameLeaf x y then defer rest pending else none

/--
Takes a pair of nodes apart and answers what is left to compare; none if their labels, the numbers of
their children or two of their leaves differ.
-/
def round [DecidableEq β] (a b : TreeNode α β) (pending : Pending α β) : Option (Pending α β) :=
  if a.label = b.label ∧ a.children.length = b.children.length then
    view.defer (a.children.zip b.children) pending
  else none

/-! ### Rounds come to an end -/

noncomputable def size : α → Nat := view.exists_size.choose

/-- The number of pending pairs and the size of all that is below their first nodes. -/
noncomputable def load (pending : Pending α β) : Nat :=
  WorkList.weigh (fun p => 1 + WorkList.weigh view.size p.1.children) pending

variable {view} {pending pending' : Pending α β}

theorem weigh_children_lt {x : α} {a : TreeNode α β} (h : view.node? x = some a) :
    WorkList.weigh view.size a.children < view.size x :=
  view.exists_size.choose_spec h

/-- What is deferred is no larger than the trees that it comes from. -/
theorem load_defer {pairs : List (α × α)} (h : view.defer pairs pending = some pending') :
    view.load pending' ≤ WorkList.weigh (fun p => view.size p.1) pairs + view.load pending := by
  induction pairs generalizing pending with
  | nil =>
    cases h
    simp
  | cons p rest ih =>
    obtain ⟨x, y⟩ := p
    rw [defer] at h
    rw [WorkList.weigh_cons]
    split at h
    · rename_i a b hx hy
      have hle := ih h
      have hlt := weigh_children_lt hx
      simp only [load, WorkList.weigh_cons] at hle ⊢
      omega
    · split at h
      · have hle := ih h
        omega
      · cases h

theorem weigh_zip_le (size : α → Nat) (xs ys : List α) :
    WorkList.weigh (fun p : α × α => size p.1) (xs.zip ys) ≤ WorkList.weigh size xs := by
  induction xs generalizing ys with
  | nil => simp
  | cons x xs ih =>
    cases ys with
    | nil => simp
    | cons y ys =>
      have hle := ih ys
      simp only [List.zip_cons_cons, WorkList.weigh_cons]
      omega

/-- A round leaves less to compare. -/
theorem load_round [DecidableEq β] {a b : TreeNode α β}
    (h : view.round a b pending = some pending') :
    view.load pending' < view.load ((a, b) :: pending) := by
  unfold round at h
  split at h
  · have hle := load_defer h
    have hzip := weigh_zip_le view.size a.children b.children
    simp only [load, WorkList.weigh_cons] at hle ⊢
    omega
  · cases h

/-! ### Comparison -/

variable (view) [DecidableEq β]

/-- Whether the two nodes of every pending pair are equal. -/
def sameNodes : Pending α β → Bool
  | [] => true
  | (a, b) :: pending =>
    match _h : view.round a b pending with
    | some pending' => sameNodes pending'
    | none => false
termination_by pending => view.load pending
decreasing_by exact load_round _h

def same (x y : α) : Bool :=
  match view.node? x, view.node? y with
  | some a, some b => view.sameNodes [(a, b)]
  | _, _ => view.sameLeaf x y

end TreeView

end ShapeCompiler
