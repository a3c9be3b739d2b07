import Mathlib.Tactic.Common
import ShapeCompiler.Function

/-!
Induction on programs, and the programs that never read the placeholder.

A constructor pattern binds nothing under the placeholder, so a program that reads a variable of that
name can see a difference between binding and not binding it; all others cannot.
-/

namespace ShapeCompiler

theorem Arm.sizeOf_body_lt {β : Type} [SizeOf β] {a : Arm β} {arms : List (Arm β)} (h : a ∈ arms) :
    sizeOf a.body < sizeOf arms := by
  obtain ⟨pattern, body⟩ := a
  have hlt := List.sizeOf_lt_of_mem h
  rw [Arm.mk.sizeOf_spec] at hlt
  show sizeOf body < sizeOf arms
  omega

/-- Induction on an expression with all arguments and all arms at once. -/
theorem Expr.ind {P : Expr → Prop} (lit : ∀ n, P (.lit n)) (var : ∀ name, P (.var name))
    (binary : ∀ op lhs rhs, P lhs → P rhs → P (.binary op lhs rhs))
    (call : ∀ name args, (∀ e ∈ args, P e) → P (.call name args))
    (field : ∀ subject name, P subject → P (.field subject name))
    (branch : ∀ subject arms, P subject → (∀ a ∈ arms, P a.body) → P (.branch subject arms))
    (incomplete : P .incomplete) : ∀ e, P e
  | .lit n => lit n
  | .var name => var name
  | .binary op lhs rhs =>
    binary op lhs rhs (Expr.ind lit var binary call field branch incomplete lhs)
      (Expr.ind lit var binary call field branch incomplete rhs)
  | .call name args =>
    call name args fun e _ => Expr.ind lit var binary call field branch incomplete e
  | .field subject name =>
    field subject name (Expr.ind lit var binary call field branch incomplete subject)
  | .branch subject arms =>
    branch subject arms (Expr.ind lit var binary call field branch incomplete subject)
      fun a _ => Expr.ind lit var binary call field branch incomplete a.body
  | .incomplete => incomplete
decreasing_by
  all_goals simp only [Expr.binary.sizeOf_spec, Expr.call.sizeOf_spec, Expr.field.sizeOf_spec,
    Expr.branch.sizeOf_spec]
  any_goals omega
  · have := List.sizeOf_lt_of_mem (by assumption : e ∈ args)
    omega
  · have := Arm.sizeOf_body_lt (by assumption : a ∈ arms)
    omega

/-- Induction on a block, statement by statement, with the bodies inside a statement. -/
theorem Block.ind {P : List Stmt → Prop} (nil : P [])
    (assign : ∀ name value rest, P rest → P (.assign name value :: rest))
    (ret : ∀ value rest, P (.ret value :: rest))
    (eval : ∀ value rest, P rest → P (.eval value :: rest))
    (branch : ∀ subject arms rest, (∀ a ∈ arms, P a.body) → P rest →
      P (.branch subject arms :: rest))
    (loop : ∀ condition body rest, P body → P rest → P (.loop condition body :: rest)) :
    ∀ stmts, P stmts
  | [] => nil
  | .assign name value :: rest => assign name value rest (Block.ind nil assign ret eval branch loop rest)
  | .ret value :: rest => ret value rest
  | .eval value :: rest => eval value rest (Block.ind nil assign ret eval branch loop rest)
  | .branch subject arms :: rest =>
    branch subject arms rest (fun a _ => Block.ind nil assign ret eval branch loop a.body)
      (Block.ind nil assign ret eval branch loop rest)
  | .loop condition body :: rest =>
    loop condition body rest (Block.ind nil assign ret eval branch loop body)
      (Block.ind nil assign ret eval branch loop rest)
decreasing_by
  all_goals simp only [List.cons.sizeOf_spec, Stmt.assign.sizeOf_spec, Stmt.eval.sizeOf_spec,
    Stmt.branch.sizeOf_spec, Stmt.loop.sizeOf_spec]
  any_goals omega
  have := Arm.sizeOf_body_lt (by assumption : a ∈ arms)
  omega

/-! ### Programs that never read the placeholder -/

/-- The name that binds nothing. -/
abbrev placeholder : Ident := "_"

theorem isPlaceholder_iff {name : Ident} : Ident.isPlaceholder name = true ↔ name = placeholder := by
  simp [Ident.isPlaceholder]

mutual

/-- The expression never reads the placeholder. -/
def Expr.Clean : Expr → Prop
  | .lit _ => True
  | .var name => name ≠ placeholder
  | .binary _ lhs rhs => lhs.Clean ∧ rhs.Clean
  | .call _ args => Expr.AllClean args
  | .field subject _ => subject.Clean
  | .branch subject arms => subject.Clean ∧ Expr.ArmsClean arms
  | .incomplete => True

/-- None of the expressions ever reads the placeholder. -/
def Expr.AllClean : List Expr → Prop
  | [] => True
  | e :: rest => e.Clean ∧ Expr.AllClean rest

/-- None of the arms ever reads the placeholder. -/
def Expr.ArmsClean : List (Arm Expr) → Prop
  | [] => True
  | ⟨_, body⟩ :: rest => body.Clean ∧ Expr.ArmsClean rest

end

mutual

/-- The block never reads the placeholder. -/
def Block.Clean : List Stmt → Prop
  | [] => True
  | .assign _ value :: rest => value.Clean ∧ Block.Clean rest
  | .ret value :: rest => value.Clean ∧ Block.Clean rest
  | .eval value :: rest => value.Clean ∧ Block.Clean rest
  | .loop condition body :: rest => condition.Clean ∧ Block.Clean body ∧ Block.Clean rest
  | .branch subject arms :: rest => subject.Clean ∧ Block.ArmsClean arms ∧ Block.Clean rest

/-- None of the arms ever reads the placeholder. -/
def Block.ArmsClean : List (Arm (List Stmt)) → Prop
  | ⟨_, body⟩ :: rest => Block.Clean body ∧ Block.ArmsClean rest
  | [] => True

end

theorem Expr.AllClean.mem {args : List Expr} (h : Expr.AllClean args) : ∀ e ∈ args, e.Clean := by
  induction args with
  | nil => simp
  | cons e rest ih =>
    rw [Expr.AllClean] at h
    intro x hx
    rcases List.mem_cons.1 hx with rfl | hx
    · exact h.1
    · exact ih h.2 x hx

theorem Expr.ArmsClean.mem {arms : List (Arm Expr)} (h : Expr.ArmsClean arms) :
    ∀ a ∈ arms, a.body.Clean := by
  induction arms with
  | nil => simp
  | cons a rest ih =>
    rw [Expr.ArmsClean] at h
    intro x hx
    rcases List.mem_cons.1 hx with rfl | hx
    · exact h.1
    · exact ih h.2 x hx

theorem Block.ArmsClean.mem {arms : List (Arm (List Stmt))} (h : Block.ArmsClean arms) :
    ∀ a ∈ arms, Block.Clean a.body := by
  induction arms with
  | nil => simp
  | cons a rest ih =>
    rw [Block.ArmsClean] at h
    intro x hx
    rcases List.mem_cons.1 hx with rfl | hx
    · exact h.1
    · exact ih h.2 x hx

/-- The body of the function never reads the placeholder. -/
def Function.Clean : Function → Prop
  | .decorated d => Block.Clean d.body
  | .interpreted d => Block.Clean d.body
  | .native _ => True

/-- No registered function ever reads the placeholder. -/
def Functions.Clean (functions : Functions) : Prop :=
  ∀ name f, functions.get? name = some f → f.Clean

theorem Functions.clean_empty : Functions.Clean .empty := fun _ _ h => by cases h

theorem Functions.Clean.insert {functions : Functions} (h : functions.Clean) {f : Function}
    (hf : f.Clean) (name : Ident) : Functions.Clean (Assoc.insert functions name f) := by
  intro other g hg
  rw [Assoc.get?_insert] at hg
  split at hg
  · cases hg
    exact hf
  · exact h other g hg

end ShapeCompiler
