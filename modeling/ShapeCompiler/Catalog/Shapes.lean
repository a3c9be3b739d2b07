import ShapeCompiler.Types
import ShapeCompiler.Value

/-!
Trees, lists and pairs: their declarations and their values.
-/

namespace ShapeCompiler.Catalog

/-- Binary trees with a number of 24 bits in each leaf. -/
def treeTypes : List TypeDecl :=
  [.record "Leaf" [("value", "u24")],
    .record "Node" [("left", "Tree"), ("right", "Tree")],
    .sum "Tree" ["Node", "Leaf"]]

/-- Lists of numbers of 24 bits. -/
def listTypes : List TypeDecl :=
  [.record "Nil" [],
    .record "Cons" [("head", "u24"), ("tail", "List")],
    .sum "List" ["Nil", "Cons"]]

/-- Pairs of numbers of 24 bits, a record without a home. -/
def pairTypes : List TypeDecl := [.record "Pair" [("first", "u24"), ("second", "u24")]]

def pair (first second : UInt64) : Value := .record "Pair" [.u24 first, .u24 second]

def leaf (n : UInt64) : Value := .record "Leaf" [.u24 n]

def node (left right : Value) : Value := .record "Node" [left, right]

def list (items : List UInt64) : Value :=
  items.foldr (fun head tail => .record "Cons" [.u24 head, tail]) (.record "Nil" [])

/--
Adds the numbers in the leaves of pending trees to a sum. A record of one number counts as a leaf, a
record of two fields as a node; anything else counts nothing.
-/
def sumLeaves : UInt64 → List Value → UInt64
  | sum, [] => sum
  | sum, .record _ [.uint n] :: rest => sumLeaves (sum + n.value) rest
  | sum, .record _ [left, right] :: rest => sumLeaves sum (left :: right :: rest)
  | sum, _ :: rest => sumLeaves sum rest
termination_by _ pending => pending

def leafSum (tree : Value) : UInt64 := sumLeaves 0 [tree] &&& mask 24

end ShapeCompiler.Catalog
