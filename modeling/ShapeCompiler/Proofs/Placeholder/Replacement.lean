import ShapeCompiler.Proofs.Assoc
import ShapeCompiler.Proofs.Placeholder.Tidy

/-!
Programs in which patterns that bind the placeholder are replaced by wildcards.

A replacement covers all such patterns, or those of arms that never read the placeholder before they
bind it anew. Main statements: a pattern that is not kept bound the placeholder (`Pattern.replace_cases`),
and an arm keeps its position (`Expr.replaceArms_eq_map`, `Block.replaceArms_eq_map`).
-/

namespace ShapeCompiler

/-- Which of the patterns that bind the placeholder are replaced. -/
inductive Extent where
  | all
  /-- Those whose arms do not read what they bind. -/
  | unread
  deriving DecidableEq

/-- Which patterns are replaced in decorated and in interpreted functions. -/
structure Replacement where
  decorated : Extent
  interpreted : Extent
  deriving DecidableEq

/-! ### Reading the placeholder -/

/-- The pattern of an arm after a replacement; `reads` says whether the arm reads the placeholder. -/
def Pattern.replace (x : Extent) (reads : Bool) (p : Pattern) : Pattern :=
  if p.binds_ && (x == .all || !reads) then .wildcard else p

mutual

/-- Whether the expression reads the placeholder of the scope around it. -/
def Expr.reads : Expr → Bool
  | .lit _ => false
  | .var name => Ident.isPlaceholder name
  | .binary _ lhs rhs => lhs.reads || rhs.reads
  | .call _ args => Expr.anyReads args
  | .field subject _ => subject.reads
  | .branch subject arms => subject.reads || Expr.armsRead arms
  | .incomplete => false

/-- Whether one of the expressions reads the placeholder of the scope around it. -/
def Expr.anyReads : List Expr → Bool
  | [] => false
  | e :: rest => e.reads || Expr.anyReads rest

/-- Whether one of the arms reads the placeholder of the scope around the match. -/
def Expr.armsRead : List (Arm Expr) → Bool
  | [] => false
  | ⟨pattern, body⟩ :: rest => !pattern.binds_ && body.reads || Expr.armsRead rest

end

mutual

def Block.reads : List Stmt → Bool
  | [] => false
  | .assign name value :: rest => value.reads || !Ident.isPlaceholder name && Block.reads rest
  | .ret value :: _ => value.reads
  | .eval value :: rest => value.reads || Block.reads rest
  | .loop condition body :: rest => condition.reads || Block.reads body || Block.reads rest
  | .branch subject arms :: rest => subject.reads || Block.armsRead arms || Block.reads rest

/-- Whether one of the arms reads the placeholder of the scope around the match. -/
def Block.armsRead : List (Arm (List Stmt)) → Bool
  | ⟨pattern, body⟩ :: rest => !pattern.binds_ && Block.reads body || Block.armsRead rest
  | [] => false

end

/-! ### Replacing -/

mutual

def Expr.replace (x : Extent) : Expr → Expr
  | .lit n => .lit n
  | .var name => .var name
  | .binary op lhs rhs => .binary op (lhs.replace x) (rhs.replace x)
  | .call name args => .call name (Expr.replaceAll x args)
  | .field subject name => .field (subject.replace x) name
  | .branch subject arms => .branch (subject.replace x) (Expr.replaceArms x arms)
  | .incomplete => .incomplete

def Expr.replaceAll (x : Extent) : List Expr → List Expr
  | [] => []
  | e :: rest => e.replace x :: Expr.replaceAll x rest

def Expr.replaceArms (x : Extent) : List (Arm Expr) → List (Arm Expr)
  | [] => []
  | ⟨pattern, body⟩ :: rest =>
    ⟨pattern.replace x body.reads, body.replace x⟩ :: Expr.replaceArms x rest

end

mutual

def Block.replace (x : Extent) : List Stmt → List Stmt
  | [] => []
  | .assign name value :: rest => .assign name (value.replace x) :: Block.replace x rest
  | .ret value :: rest => .ret (value.replace x) :: Block.replace x rest
  | .eval value :: rest => .eval (value.replace x) :: Block.replace x rest
  | .loop condition body :: rest =>
    .loop (condition.replace x) (Block.replace x body) :: Block.replace x rest
  | .branch subject arms :: rest =>
    .branch (subject.replace x) (Block.replaceArms x arms) :: Block.replace x rest

def Block.replaceArms (x : Extent) : List (Arm (List Stmt)) → List (Arm (List Stmt))
  | ⟨pattern, body⟩ :: rest =>
    ⟨pattern.replace x (Block.reads body), Block.replace x body⟩ :: Block.replaceArms x rest
  | [] => []

end

def FunctionDef.replace (x : Extent) (d : FunctionDef) : FunctionDef :=
  { d with body := Block.replace x d.body }

def Function.replace (r : Replacement) : Function → Function
  | .decorated d => .decorated (d.replace r.decorated)
  | .interpreted d => .interpreted (d.replace r.interpreted)
  | .native n => .native n

def Functions.replace (r : Replacement) (functions : Functions) : Functions :=
  functions.mapValues (Function.replace r)

variable {x : Extent} {r : Replacement}

/-! ### What stays -/

@[simp] theorem FunctionDef.arity_replace (d : FunctionDef) : (d.replace x).arity = d.arity := rfl

@[simp] theorem Function.arity_replace (f : Function) : (f.replace r).arity = f.arity := by
  cases f <;> rfl

/-- An arm keeps its position; its pattern may be replaced, and patterns in its body. -/
theorem Expr.replaceArms_eq_map (arms : List (Arm Expr)) :
    Expr.replaceArms x arms = arms.map fun a => ⟨a.pattern.replace x a.body.reads, a.body.replace x⟩ := by
  induction arms with
  | nil => rfl
  | cons a rest ih => rw [Expr.replaceArms, ih, List.map_cons]

/-- An arm keeps its position; its pattern may be replaced, and patterns in its body. -/
theorem Block.replaceArms_eq_map (arms : List (Arm (List Stmt))) :
    Block.replaceArms x arms =
      arms.map fun a => ⟨a.pattern.replace x (Block.reads a.body), Block.replace x a.body⟩ := by
  induction arms with
  | nil => rw [Block.replaceArms, List.map_nil]
  | cons a rest ih => rw [Block.replaceArms, ih, List.map_cons]

theorem Expr.armsRead_of_mem {arms : List (Arm Expr)} {a : Arm Expr} (ha : a ∈ arms)
    (h : (!a.pattern.binds_ && a.body.reads) = true) : Expr.armsRead arms = true := by
  induction arms with
  | nil => cases ha
  | cons b rest ih =>
    rw [Expr.armsRead, Bool.or_eq_true]
    rcases List.mem_cons.1 ha with rfl | ha
    · exact .inl h
    · exact .inr (ih ha)

theorem Block.armsRead_of_mem {arms : List (Arm (List Stmt))} {a : Arm (List Stmt)} (ha : a ∈ arms)
    (h : (!a.pattern.binds_ && Block.reads a.body) = true) : Block.armsRead arms = true := by
  induction arms with
  | nil => cases ha
  | cons b rest ih =>
    rw [Block.armsRead, Bool.or_eq_true]
    rcases List.mem_cons.1 ha with rfl | ha
    · exact .inl h
    · exact .inr (ih ha)

theorem Pattern.eq_of_binds_ (p : Pattern) (h : p.binds_ = true) : p = .bind placeholder := by
  cases p with
  | bind name => rw [isPlaceholder_iff.1 h]
  | _ => cases h

theorem Pattern.replace_cases (p : Pattern) (reads : Bool) :
    p.replace x reads = p ∨
      p = .bind placeholder ∧ p.replace x reads = .wildcard ∧ (x = .unread → reads = false) := by
  unfold Pattern.replace
  split
  · rename_i h
    rw [Bool.and_eq_true] at h
    refine .inr ⟨p.eq_of_binds_ h.1, rfl, ?_⟩
    rintro rfl
    simpa using h.2
  · exact .inl rfl

end ShapeCompiler
