/-!
Unsigned numbers of a fixed width between 1 and 64 bits.

A number keeps its width and a word in which no bit above the width is set.
-/

namespace ShapeCompiler

/-- The word with its lowest `bits` bits set; all bits for a width of 64 and more. -/
def mask (bits : Nat) : UInt64 :=
  if bits < 64 then (1 <<< UInt64.ofNat bits) - 1 else 0 - 1

/-- As a number the mask is one less than the power of two of its width. -/
theorem toNat_mask (bits : Nat) : (mask bits).toNat = Nat.pow 2 (min bits 64) - 1 := by
  unfold mask
  split
  next h =>
    have hlt : 2 ^ bits < 2 ^ 64 := Nat.pow_lt_pow_right (by decide) h
    have hs : ((1 : UInt64) <<< UInt64.ofNat bits).toNat = 2 ^ bits := by
      have hb : bits < 2 ^ 64 := Nat.lt_trans h (by decide)
      rw [UInt64.toNat_shiftLeft, UInt64.toNat_ofNat_of_lt' hb, Nat.mod_eq_of_lt h,
        UInt64.toNat_one, Nat.shiftLeft_eq, Nat.one_mul, Nat.mod_eq_of_lt hlt]
    have hle : (1 : UInt64) ≤ 1 <<< UInt64.ofNat bits := by
      rw [UInt64.le_iff_toNat_le, hs]; exact Nat.one_le_two_pow
    rw [UInt64.toNat_sub_of_le _ _ hle, hs, Nat.min_eq_left (by omega)]
    rfl
  next h => rw [Nat.min_eq_right (by omega)]; rfl

/-- A width brought into the range from 1 to 64. -/
def clampWidth (bits : Nat) : Nat := max 1 (min bits 64)

/-- An unsigned number of a fixed width. -/
structure Uint where
  /-- The width. -/
  bits : Nat
  /-- The number as a word. -/
  value : UInt64
  bits_pos : 1 ≤ bits
  bits_le : bits ≤ 64
  value_masked : value &&& mask bits = value
  deriving DecidableEq

namespace Uint

/-- The number `value` wrapped to a width, the width itself brought into its range. -/
def wrap (bits : Nat) (value : UInt64) : Uint where
  bits := clampWidth bits
  value := value &&& mask (clampWidth bits)
  bits_pos := by unfold clampWidth; omega
  bits_le := by unfold clampWidth; omega
  value_masked := by rw [UInt64.and_assoc, UInt64.and_self]

def u24 (value : UInt64) : Uint := wrap 24 value

/-- The width of integer literals and untyped integers unless the options say otherwise. -/
def defaultBits : Nat := 24

def compare (a b : Uint) : Ordering :=
  (Ord.compare a.bits b.bits).then (Ord.compare a.value b.value)

/-- The decimal digits of the number; the width is not shown. -/
def text (u : Uint) : String := toString u.value

end Uint

end ShapeCompiler
