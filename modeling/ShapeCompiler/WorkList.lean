/-!
Sizes of lists of pending work.

Loops over deep trees keep what is still to be visited in a list and replace a node by its
children; these lemmas say that this makes the list smaller.
-/

namespace ShapeCompiler.WorkList

variable {α : Type}

def weigh (weight : α → Nat) : List α → Nat
  | [] => 0
  | x :: xs => weight x + weigh weight xs

@[simp] theorem weigh_nil (weight : α → Nat) : weigh weight [] = 0 := rfl

@[simp] theorem weigh_cons (weight : α → Nat) (x : α) (xs : List α) :
    weigh weight (x :: xs) = weight x + weigh weight xs := rfl

@[simp] theorem weigh_append (weight : α → Nat) (xs ys : List α) :
    weigh weight (xs ++ ys) = weigh weight xs + weigh weight ys := by
  induction xs with
  | nil => simp
  | cons x xs ih => simp [ih]; omega

theorem weigh_sizeOf_lt [SizeOf α] (xs : List α) : weigh sizeOf xs < sizeOf xs := by
  induction xs with
  | nil => simp
  | cons x xs ih => simp; omega

end ShapeCompiler.WorkList
