import ShapeCompiler.Error

/-!
The arithmetic of operators: words are combined modulo a power of two and cut to a width.
-/

namespace ShapeCompiler.Operator

/-- One for a comparison that holds, zero for one that does not. -/
def truth (holds : Bool) : UInt64 := if holds then 1 else 0

/-- Shifts to the left; all bits leave the word when the amount reaches its width. -/
def shiftLeft (word amount : UInt64) : UInt64 := if amount < 64 then word <<< amount else 0

/-- Shifts to the right; all bits leave the word when the amount reaches its width. -/
def shiftRight (word amount : UInt64) : UInt64 := if amount < 64 then word >>> amount else 0

/-- The result of an operator on words of 64 bits; none for a division by zero. -/
def onWords (op : Operator) (lhs rhs : UInt64) : Option UInt64 :=
  match op with
  | .add => some (lhs + rhs)
  | .sub => some (lhs - rhs)
  | .mul => some (lhs * rhs)
  | .div => if rhs = 0 then none else some (lhs / rhs)
  | .rem => if rhs = 0 then none else some (lhs % rhs)
  | .and => some (lhs &&& rhs)
  | .or => some (lhs ||| rhs)
  | .xor => some (lhs ^^^ rhs)
  | .shl => some (shiftLeft lhs rhs)
  | .shr => some (shiftRight lhs rhs)
  | .eq => some (truth (lhs == rhs))
  | .ne => some (truth (lhs != rhs))
  | .lt => some (truth (decide (lhs < rhs)))
  | .le => some (truth (decide (lhs ≤ rhs)))
  | .gt => some (truth (decide (rhs < lhs)))
  | .ge => some (truth (decide (rhs ≤ lhs)))

/-- The result of an operator at a width; it wraps to the width. -/
def apply (op : Operator) (lhs rhs : UInt64) (bits : Nat) : Except RuntimeError UInt64 :=
  match op.onWords lhs rhs with
  | some n => .ok (n &&& mask bits)
  | none => .error .divisionByZero

end ShapeCompiler.Operator
