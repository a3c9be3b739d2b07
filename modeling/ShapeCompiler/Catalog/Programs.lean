import ShapeCompiler.Catalog.Shapes
import ShapeCompiler.Engine

/-!
Programs over trees, lists and numbers.
-/

namespace ShapeCompiler.Catalog

def plus (lhs rhs : Expr) : Expr := .binary .add lhs rhs

def minus (lhs : Expr) (n : UInt64) : Expr := .binary .sub lhs (.lit n)

def returning (e : Expr) : Block := [.ret e]

def sumTree : FunctionDef where
  name := "sum_tree"
  params := ["tree"]
  body := [.branch (.var "tree") [
    ⟨.ctor "Node" ["left", "right"],
      returning (plus (.call "sum_tree" [.var "left"]) (.call "sum_tree" [.var "right"]))⟩,
    ⟨.ctor "Leaf" ["value"], returning (.var "value")⟩]]

/-- The perfect tree of a depth around a number: subtrees are around its neighbours. -/
def genTree : FunctionDef where
  name := "gen_tree"
  params := ["depth", "n"]
  body := [.branch (.var "depth") [
    ⟨.lit 0, returning (.call "Leaf" [.var "n"])⟩,
    ⟨.wildcard, [
      .assign "next" (minus (.var "depth") 1),
      .ret (.call "Node" [
        .call "gen_tree" [.var "next", minus (.var "n") 1],
        .call "gen_tree" [.var "next", plus (.var "n") (.lit 1)]])]⟩]]

def mirror : FunctionDef where
  name := "mirror"
  params := ["tree"]
  body := returning (.branch (.var "tree") [
    ⟨.ctor "Node" ["left", "right"],
      .call "Node" [.call "mirror" [.var "right"], .call "mirror" [.var "left"]]⟩,
    ⟨.bind "leaf", .var "leaf"⟩])

def countLeaves : FunctionDef where
  name := "count_leaves"
  params := ["tree"]
  body := [.branch (.var "tree") [
    ⟨.ctor "Node" ["left", "right"],
      returning
        (plus (.call "count_leaves" [.var "left"]) (.call "count_leaves" [.var "right"]))⟩,
    ⟨.wildcard, returning (.lit 1)⟩]]

/-- The pair with its numbers exchanged. -/
def swap : FunctionDef where
  name := "swap"
  params := ["pair"]
  body := returning
    (.call "Pair" [.field (.var "pair") "second", .field (.var "pair") "first"])

/-- The list that counts down from a number to one. -/
def genList : FunctionDef where
  name := "gen_list"
  params := ["n"]
  body := [.branch (.var "n") [
    ⟨.lit 0, returning (.call "Nil" [])⟩,
    ⟨.wildcard, returning (.call "Cons" [.var "n", .call "gen_list" [minus (.var "n") 1]])⟩]]

def sumList : FunctionDef where
  name := "sum_list"
  params := ["list"]
  body := [.branch (.var "list") [
    ⟨.ctor "Nil" [], returning (.lit 0)⟩,
    ⟨.ctor "Cons" ["head", "tail"],
      returning (plus (.var "head") (.call "sum_list" [.var "tail"]))⟩]]

/-- The length of a list; the empty list falls through the match. -/
def length : FunctionDef where
  name := "length"
  params := ["list"]
  body := [
    .branch (.var "list") [
      ⟨.ctor "Cons" ["_", "tail"],
        returning (plus (.lit 1) (.call "length" [.var "tail"]))⟩],
    .ret (.lit 0)]

/-- A test of parity that counts down, asking another test at each step. -/
def parity (name other : Ident) (atZero : UInt64) : FunctionDef where
  name
  params := ["n"]
  body := [.branch (.var "n") [
    ⟨.lit 0, returning (.lit atZero)⟩,
    ⟨.wildcard, returning (.call other [minus (.var "n") 1])⟩]]

def isEven : FunctionDef := parity "is_even" "is_odd" 1

def isOdd : FunctionDef := parity "is_odd" "is_even" 0

/-- The product of the first and the third number if the first two are equal, else their sum. -/
def sumNums : FunctionDef where
  name := "sum_nums"
  params := ["a", "b", "mul"]
  body := [
    .assign "d" .incomplete,
    .branch (.binary .eq (.var "a") (.var "b")) [
      ⟨.lit 0, returning (plus (.var "a") (.var "b"))⟩,
      ⟨.lit 1, returning (.binary .mul (.var "a") (.var "mul"))⟩],
    .ret (.var "d")]

def programs : List FunctionDef :=
  [sumTree, genTree, mirror, countLeaves, swap, genList, sumList, length, isEven, isOdd, sumNums]

def engine : Engine :=
  (Engine.default.update do
    let _ ← Update.declareTypes (treeTypes ++ listTypes ++ pairTypes)
    programs.forM Update.decorate).2

end ShapeCompiler.Catalog
