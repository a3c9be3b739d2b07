import ShapeCompiler.Proofs.Syntax

/-!
Programs that read the placeholder only where it is bound for typing too.

The placeholder can be a parameter or an assigned variable, for the interpreter as for typing; only the
interpreter also binds it to the subject of a match. A program is tidy if no arm reads the placeholder that
its pattern binds. Main statement: a program that never reads the placeholder is tidy
(`Functions.Clean.tidy`).
-/

namespace ShapeCompiler

namespace Pattern

def binds_ : Pattern → Bool
  | bind name => Ident.isPlaceholder name
  | _ => false

/-- Whether the placeholder is shown in the arm of the pattern, if it is shown around the match. -/
def Shows (p : Pattern) (shown : Prop) : Prop := shown ∧ p.binds_ = false

end Pattern

mutual

/-- The expression is tidy, and reads the placeholder of the scope around it only if this is shown. -/
def Expr.Tidy : Prop → Expr → Prop
  | _, .lit _ => True
  | shown, .var name => name = placeholder → shown
  | shown, .binary _ lhs rhs => lhs.Tidy shown ∧ rhs.Tidy shown
  | shown, .call _ args => Expr.AllTidy shown args
  | shown, .field subject _ => subject.Tidy shown
  | shown, .branch subject arms => subject.Tidy shown ∧ Expr.ArmsTidy shown arms
  | _, .incomplete => True

def Expr.AllTidy : Prop → List Expr → Prop
  | _, [] => True
  | shown, e :: rest => e.Tidy shown ∧ Expr.AllTidy shown rest

def Expr.ArmsTidy : Prop → List (Arm Expr) → Prop
  | _, [] => True
  | shown, ⟨pattern, body⟩ :: rest => body.Tidy (pattern.Shows shown) ∧ Expr.ArmsTidy shown rest

end

mutual

/-- The block is tidy, and reads the placeholder of the scope around it only if this is shown. -/
def Block.Tidy : Prop → List Stmt → Prop
  | _, [] => True
  | shown, .assign name value :: rest => value.Tidy shown ∧ Block.Tidy (shown ∨ name = placeholder) rest
  | shown, .ret value :: _ => value.Tidy shown
  | shown, .eval value :: rest => value.Tidy shown ∧ Block.Tidy shown rest
  | shown, .loop condition body :: rest =>
    condition.Tidy shown ∧ Block.Tidy shown body ∧ Block.Tidy shown rest
  | shown, .branch subject arms :: rest =>
    subject.Tidy shown ∧ Block.ArmsTidy shown arms ∧ Block.Tidy shown rest

def Block.ArmsTidy : Prop → List (Arm (List Stmt)) → Prop
  | shown, ⟨pattern, body⟩ :: rest =>
    Block.Tidy (pattern.Shows shown) body ∧ Block.ArmsTidy shown rest
  | _, [] => True

end

/-- The body of the function is tidy; its parameters are shown. -/
def Function.Tidy : Function → Prop
  | .decorated d => Block.Tidy True d.body
  | .interpreted d => Block.Tidy True d.body
  | .native _ => True

/-- Every registered function is tidy. -/
def Functions.Tidy (functions : Functions) : Prop :=
  ∀ name f, functions.get? name = some f → f.Tidy

variable {shown : Prop}

theorem Expr.allTidy_iff {args : List Expr} : Expr.AllTidy shown args ↔ ∀ e ∈ args, e.Tidy shown := by
  induction args with
  | nil => simp [Expr.AllTidy]
  | cons e rest ih => simp [Expr.AllTidy, ih]

theorem Expr.armsTidy_iff {arms : List (Arm Expr)} :
    Expr.ArmsTidy shown arms ↔ ∀ a ∈ arms, a.body.Tidy (a.pattern.Shows shown) := by
  induction arms with
  | nil => simp [Expr.ArmsTidy]
  | cons a rest ih => simp [Expr.ArmsTidy, ih]

theorem Block.armsTidy_iff {arms : List (Arm (List Stmt))} :
    Block.ArmsTidy shown arms ↔ ∀ a ∈ arms, Block.Tidy (a.pattern.Shows shown) a.body := by
  induction arms with
  | nil => simp [Block.ArmsTidy]
  | cons a rest ih => rw [Block.ArmsTidy, ih, List.forall_mem_cons]

/-! ### Programs that never read the placeholder -/

theorem Expr.Clean.tidy {e : Expr} (h : e.Clean) : e.Tidy shown := by
  induction e using Expr.ind generalizing shown with
  | lit n => trivial
  | var name => exact fun hname => absurd hname h
  | binary op lhs rhs ihl ihr => exact ⟨ihl h.1, ihr h.2⟩
  | call name args ih => exact Expr.allTidy_iff.2 fun e he => ih e he (Expr.AllClean.mem h e he)
  | field subject name ih => exact @ih shown h
  | branch subject arms ihs iha =>
    exact ⟨ihs h.1, Expr.armsTidy_iff.2 fun a ha => iha a ha (Expr.ArmsClean.mem h.2 a ha)⟩
  | incomplete => trivial

theorem Block.Clean.tidy {stmts : List Stmt} (h : Block.Clean stmts) : Block.Tidy shown stmts := by
  induction stmts using Block.ind generalizing shown with
  | nil =>
    rw [Block.Tidy]
    trivial
  | assign name value rest ih =>
    rw [Block.Clean] at h
    rw [Block.Tidy]
    exact ⟨h.1.tidy, ih h.2⟩
  | ret value rest =>
    rw [Block.Clean] at h
    rw [Block.Tidy]
    exact h.1.tidy
  | eval value rest ih =>
    rw [Block.Clean] at h
    rw [Block.Tidy]
    exact ⟨h.1.tidy, ih h.2⟩
  | branch subject arms rest iha ih =>
    rw [Block.Clean] at h
    rw [Block.Tidy]
    exact ⟨h.1.tidy, Block.armsTidy_iff.2 fun a ha => iha a ha (h.2.1.mem a ha), ih h.2.2⟩
  | loop condition body rest ihb ih =>
    rw [Block.Clean] at h
    rw [Block.Tidy]
    exact ⟨h.1.tidy, ihb h.2.1, ih h.2.2⟩

theorem Function.Clean.tidy {f : Function} (h : f.Clean) : f.Tidy := by
  cases f with
  | decorated d => exact Block.Clean.tidy h
  | interpreted d => exact Block.Clean.tidy h
  | native n => trivial

theorem Functions.Clean.tidy {functions : Functions} (h : functions.Clean) : functions.Tidy :=
  fun name f hf => (h name f hf).tidy

end ShapeCompiler
