import Mathlib.Data.Nat.Bitwise
import Mathlib.Tactic.Ring
import ShapeCompiler.Interpreter
import ShapeCompiler.Machine
import ShapeCompiler.Proofs.Success
import ShapeCompiler.Proofs.Word

/-!
Operators are exact arithmetic modulo the power of two of their width.

Words are combined in 64 bits and only then cut to the width. Main statement: for numbers of a width
that is the exact result over the integers, reduced, and chains of operations, in registers as in
values, never leave the width (`Operator.exact_arithmetic`).
-/

namespace ShapeCompiler

variable {w : Nat}

/-! ### Words as numbers -/

/-- Cutting a word to a width reduces it modulo the power of two of the width. -/
theorem toNat_and_mask (n : UInt64) (hw : w ≤ 64) : (n &&& mask w).toNat = n.toNat % 2 ^ w := by
  rw [UInt64.toNat_and, toNat_mask, Nat.min_eq_left hw]
  exact Nat.and_two_pow_sub_one_eq_mod ..

theorem toNat_value_wrap (hpos : 1 ≤ w) (hw : w ≤ 64) (n : UInt64) :
    (Uint.wrap w n).value.toNat = n.toNat % 2 ^ w := by
  rw [Uint.value_wrap hpos hw, toNat_and_mask n hw]

/-- What is reduced to 64 bits first can be reduced to fewer directly. -/
theorem mod_word_mod (n : Nat) (hw : w ≤ 64) : n % 2 ^ 64 % 2 ^ w = n % 2 ^ w :=
  Nat.mod_mod_of_dvd n (Nat.pow_dvd_pow 2 hw)

namespace Operator

/-- The exact result of an operator on numbers of a width. -/
def exact (op : Operator) (w a b : Nat) : Except RuntimeError Nat :=
  match op with
  | .add => .ok (((a : Int) + b) % 2 ^ w).toNat
  | .sub => .ok (((a : Int) - b) % 2 ^ w).toNat
  | .mul => .ok (((a : Int) * b) % 2 ^ w).toNat
  | .div => if b = 0 then .error .divisionByZero else .ok (a / b)
  | .rem => if b = 0 then .error .divisionByZero else .ok (a % b)
  | .and => .ok (a &&& b)
  | .or => .ok (a ||| b)
  | .xor => .ok (a ^^^ b)
  | .shl => .ok (a * 2 ^ b % 2 ^ w)
  | .shr => .ok (a / 2 ^ b)
  | .eq => .ok (decide (a = b)).toNat
  | .ne => .ok (decide (a ≠ b)).toNat
  | .lt => .ok (decide (a < b)).toNat
  | .le => .ok (decide (a ≤ b)).toNat
  | .gt => .ok (decide (b < a)).toNat
  | .ge => .ok (decide (b ≤ a)).toNat

/-! ### Each kind of operator -/

section Words

variable {a b : UInt64}

theorem toNat_truth (holds : Bool) : (truth holds).toNat = holds.toNat := by cases holds <;> rfl

/-- Zero and one are numbers of every width. -/
theorem toNat_lt_two_pow (hpos : 1 ≤ w) (holds : Bool) : holds.toNat < 2 ^ w :=
  Nat.lt_of_lt_of_le holds.toNat_lt (Nat.pow_le_pow_right (n := 2) (i := 1) (by decide) hpos)

/-- A reduction over the integers is the one over the naturals where both are defined. -/
theorem toNat_emod (n : Nat) : ((n : Int) % 2 ^ w).toNat = n % 2 ^ w := by
  rw [show (2 : Int) ^ w = ((2 ^ w : Nat) : Int) by push_cast; rfl, ← Int.natCast_emod, Int.toNat_natCast]

theorem toNat_add_mod (hw : w ≤ 64) :
    (a + b).toNat % 2 ^ w = (((a.toNat : Int) + b.toNat) % 2 ^ w).toNat := by
  rw [UInt64.toNat_add, mod_word_mod _ hw, ← Int.natCast_add, toNat_emod]

theorem toNat_mul_mod (hw : w ≤ 64) :
    (a * b).toNat % 2 ^ w = (((a.toNat : Int) * b.toNat) % 2 ^ w).toNat := by
  rw [UInt64.toNat_mul, mod_word_mod _ hw, ← Int.natCast_mul, toNat_emod]

/-- A difference that wraps in 64 bits is off by a multiple of every smaller power of two. -/
theorem toNat_sub_mod (hw : w ≤ 64) :
    (a - b).toNat % 2 ^ w = (((a.toNat : Int) - b.toNat) % 2 ^ w).toNat := by
  have hb : b.toNat ≤ 2 ^ 64 := Nat.le_of_lt b.toNat_lt
  have hcast : (((2 ^ 64 - b.toNat + a.toNat : Nat) : Int)) = (a.toNat - b.toNat) + 2 ^ 64 := by omega
  have hdvd : (2 : Int) ^ w ∣ 2 ^ 64 := pow_dvd_pow 2 hw
  rw [UInt64.toNat_sub, mod_word_mod _ hw, ← toNat_emod, hcast, Int.add_emod,
    Int.emod_eq_zero_of_dvd hdvd, Int.add_zero, Int.emod_emod_of_dvd _ (dvd_refl _)]

/-- A shift to the left multiplies, also where every bit leaves the word. -/
theorem toNat_shiftLeft_mod (hw : w ≤ 64) :
    (shiftLeft a b).toNat % 2 ^ w = a.toNat * 2 ^ b.toNat % 2 ^ w := by
  unfold shiftLeft
  split
  next h =>
    have hb : b.toNat < 64 := h
    rw [UInt64.toNat_shiftLeft, Nat.mod_eq_of_lt hb, Nat.shiftLeft_eq, mod_word_mod _ hw]
  next h =>
    have hb : 64 ≤ b.toNat := Nat.not_lt.1 h
    have hdvd : 2 ^ w ∣ a.toNat * 2 ^ b.toNat :=
      Dvd.dvd.mul_left (Nat.pow_dvd_pow 2 (Nat.le_trans hw hb)) _
    rw [Nat.mod_eq_zero_of_dvd hdvd]
    exact Nat.zero_mod _

/-- A shift to the right divides, also where every bit leaves the word. -/
theorem toNat_shiftRight : (shiftRight a b).toNat = a.toNat / 2 ^ b.toNat := by
  unfold shiftRight
  split
  next h =>
    have hb : b.toNat < 64 := h
    rw [UInt64.toNat_shiftRight, Nat.mod_eq_of_lt hb, Nat.shiftRight_eq_div_pow]
  next h =>
    have hb : 64 ≤ b.toNat := Nat.not_lt.1 h
    have ha : a.toNat < 2 ^ b.toNat :=
      Nat.lt_of_lt_of_le a.toNat_lt (Nat.pow_le_pow_right (by decide) hb)
    rw [Nat.div_eq_of_lt ha]
    rfl

/-- Every operator answers its exact result. -/
theorem apply_exact (hpos : 1 ≤ w) (hw : w ≤ 64) (op : Operator) (ha : a.toNat < 2 ^ w)
    (hb : b.toNat < 2 ^ w) :
    (op.apply a b w).map UInt64.toNat = op.exact w a.toNat b.toNat := by
  have hcut : ∀ {n : UInt64} {m : Nat}, n.toNat % 2 ^ w = m → (n &&& mask w).toNat = m :=
    fun h => (toNat_and_mask _ hw).trans h
  have htruth : ∀ holds, (truth holds &&& mask w).toNat = holds.toNat := fun holds =>
    hcut (by rw [toNat_truth, Nat.mod_eq_of_lt (toNat_lt_two_pow hpos holds)])
  have hzero : b = 0 ↔ b.toNat = 0 := UInt64.toNat_inj.symm
  cases op with
  | add => exact congrArg Except.ok (hcut (toNat_add_mod hw))
  | sub => exact congrArg Except.ok (hcut (toNat_sub_mod hw))
  | mul => exact congrArg Except.ok (hcut (toNat_mul_mod hw))
  | div =>
    by_cases h : b = 0
    · simp only [apply, onWords, exact, if_pos h, if_pos (hzero.1 h)]
      rfl
    · have hlt := Nat.lt_of_le_of_lt (Nat.div_le_self a.toNat b.toNat) ha
      simp only [apply, onWords, exact, if_neg h, if_neg (mt hzero.2 h)]
      exact congrArg Except.ok (hcut (by rw [UInt64.toNat_div, Nat.mod_eq_of_lt hlt]))
  | rem =>
    by_cases h : b = 0
    · simp only [apply, onWords, exact, if_pos h, if_pos (hzero.1 h)]
      rfl
    · have hlt := Nat.lt_of_le_of_lt (Nat.mod_le a.toNat b.toNat) ha
      simp only [apply, onWords, exact, if_neg h, if_neg (mt hzero.2 h)]
      exact congrArg Except.ok (hcut (by rw [UInt64.toNat_mod, Nat.mod_eq_of_lt hlt]))
  | and =>
    refine congrArg Except.ok (hcut ?_)
    rw [UInt64.toNat_and, Nat.mod_eq_of_lt (Nat.and_lt_two_pow _ hb)]
  | or =>
    refine congrArg Except.ok (hcut ?_)
    rw [UInt64.toNat_or, Nat.mod_eq_of_lt (Nat.or_lt_two_pow ha hb)]
  | xor =>
    refine congrArg Except.ok (hcut ?_)
    rw [UInt64.toNat_xor, Nat.mod_eq_of_lt (Nat.xor_lt_two_pow ha hb)]
  | shl => exact congrArg Except.ok (hcut (toNat_shiftLeft_mod hw))
  | shr =>
    have hlt := Nat.lt_of_le_of_lt (Nat.div_le_self a.toNat (2 ^ b.toNat)) ha
    exact congrArg Except.ok (hcut (by rw [toNat_shiftRight, Nat.mod_eq_of_lt hlt]))
  | eq =>
    refine congrArg Except.ok ((htruth _).trans (congrArg Bool.toNat ?_))
    exact decide_eq_decide.2 UInt64.toNat_inj.symm
  | ne =>
    refine congrArg Except.ok ((htruth _).trans (congrArg Bool.toNat ?_))
    rw [bne, beq_eq_decide, ← decide_not, decide_eq_decide]
    exact not_congr UInt64.toNat_inj.symm
  | lt => exact congrArg Except.ok (htruth _)
  | le => exact congrArg Except.ok (htruth _)
  | gt => exact congrArg Except.ok (htruth _)
  | ge => exact congrArg Except.ok (htruth _)

/-- An operator fails at a division or a remainder by zero and nowhere else. -/
theorem apply_error_iff (op : Operator) (e : RuntimeError) :
    op.apply a b w = .error e ↔ e = .divisionByZero ∧ (op = .div ∨ op = .rem) ∧ b = 0 := by
  have hnone : op.onWords a b = none ↔ (op = .div ∨ op = .rem) ∧ b = 0 := by
    cases op <;> simp [onWords]
  rw [← hnone]
  unfold apply
  cases op.onWords a b with
  | none => simp [eq_comm]
  | some n => simp

theorem apply_lt (hw : w ≤ 64) {op : Operator} {n : UInt64} (h : op.apply a b w = .ok n) :
    n.toNat < 2 ^ w :=
  (and_mask_eq_iff hw).1 (apply_masked h)

end Words

end Operator

/-! ### Chains of operations -/

inductive Formula (w : Nat) where
  | number (n : UInt64) (fits : n.toNat < 2 ^ w)
  | operation (op : Operator) (lhs rhs : Formula w)

namespace Formula

/-- The result over the integers, reduced at each operation. -/
def exact : Formula w → Except RuntimeError Nat
  | number n _ => .ok n.toNat
  | operation op lhs rhs => do
    let a ← lhs.exact
    let b ← rhs.exact
    op.exact w a b

def inRegisters : Formula w → Except RuntimeError Compiled
  | number n _ => .ok (.scalar n)
  | operation op lhs rhs => do
    let a ← lhs.inRegisters
    let b ← rhs.inRegisters
    op.onCompiled w a b

def inValues (i : Interpreter) : Formula w → Except RuntimeError Value
  | number n _ => .ok (.uint (Uint.wrap w n))
  | operation op lhs rhs => do
    let a ← lhs.inValues i
    let b ← rhs.inValues i
    i.binary op a b

def word : Formula w → Except RuntimeError UInt64
  | number n _ => .ok n
  | operation op lhs rhs => do
    let a ← lhs.word
    let b ← rhs.word
    op.apply a b w

theorem word_lt (hw : w ≤ 64) {f : Formula w} {n : UInt64} (h : f.word = .ok n) :
    n.toNat < 2 ^ w := by
  cases f with
  | number m fits =>
    obtain rfl := Except.ok.inj h
    exact fits
  | operation op lhs rhs =>
    obtain ⟨a, -, h⟩ := bind_eq_ok.1 h
    obtain ⟨b, -, h⟩ := bind_eq_ok.1 h
    exact Operator.apply_lt hw h

/-- Each operation of a chain is exact because the ones below it have stayed below the bound. -/
theorem word_exact (hpos : 1 ≤ w) (hw : w ≤ 64) (f : Formula w) : f.word.map UInt64.toNat = f.exact := by
  induction f with
  | number n fits => rfl
  | operation op lhs rhs ihl ihr =>
    rw [exact, word, ← ihl, ← ihr]
    cases hl : lhs.word with
    | error e => rfl
    | ok a =>
      cases hr : rhs.word with
      | error e => rfl
      | ok b => exact Operator.apply_exact hpos hw op (word_lt hw hl) (word_lt hw hr)

theorem inRegisters_eq (f : Formula w) : f.inRegisters = f.word.map .scalar := by
  induction f with
  | number n fits => rfl
  | operation op lhs rhs ihl ihr =>
    rw [inRegisters, word, ihl, ihr]
    cases lhs.word with
    | error e => rfl
    | ok a =>
      cases rhs.word with
      | error e => rfl
      | ok b => rfl

theorem inValues_eq (hpos : 1 ≤ w) (hw : w ≤ 64) (i : Interpreter) (f : Formula w) :
    f.inValues i = f.word.map fun n => .uint (Uint.wrap w n) := by
  induction f with
  | number n fits => rfl
  | operation op lhs rhs ihl ihr =>
    rw [inValues, word, ihl, ihr]
    cases hl : lhs.word with
    | error e => rfl
    | ok a =>
      cases hr : rhs.word with
      | error e => rfl
      | ok b =>
        have hbits : ∀ n, (Uint.wrap w n).bits = w := Uint.bits_wrap hpos hw
        have hvalue : ∀ {n : UInt64}, n.toNat < 2 ^ w → (Uint.wrap w n).value = n := fun hn =>
          (Uint.value_wrap hpos hw _).trans ((and_mask_eq_iff hw).2 hn)
        show (op.apply (Uint.wrap w a).value (Uint.wrap w b).value
          (max (Uint.wrap w a).bits (Uint.wrap w b).bits)).map _ = _
        rw [hvalue (word_lt hw hl), hvalue (word_lt hw hr), hbits, hbits, Nat.max_self]
        rfl

end Formula

/-- At every width, an operator on numbers below the bound of the width answers the exact result,
which is below the bound again, and fails exactly where it divides by zero; numbers are wrapped to
the width; and so any chain of operations, in registers or in values, has the exact result. -/
theorem Operator.exact_arithmetic (hpos : 1 ≤ w) (hw : w ≤ 64) :
    (∀ (op : Operator) (a b : UInt64), a.toNat < 2 ^ w → b.toNat < 2 ^ w →
      (op.apply a b w).map UInt64.toNat = op.exact w a.toNat b.toNat ∧
      (∀ e, op.apply a b w = .error e ↔ e = .divisionByZero ∧ (op = .div ∨ op = .rem) ∧ b = 0) ∧
      ∀ n, op.apply a b w = .ok n → n.toNat < 2 ^ w) ∧
    (∀ n, (Uint.wrap w n).bits = w ∧ (Uint.wrap w n).value.toNat = n.toNat % 2 ^ w) ∧
    ∀ f : Formula w,
      f.inRegisters = f.exact.map (fun n => .scalar (UInt64.ofNat n)) ∧
      (∀ i, f.inValues i = f.exact.map fun n => .uint (Uint.wrap w (UInt64.ofNat n))) ∧
      ∀ n, f.exact = .ok n → n < 2 ^ w := by
  refine ⟨fun op a b ha hb => ⟨apply_exact hpos hw op ha hb, apply_error_iff op, fun n => apply_lt hw⟩,
    fun n => ⟨Uint.bits_wrap hpos hw n, toNat_value_wrap hpos hw n⟩, fun f => ?_⟩
  rw [← f.word_exact hpos hw, f.inRegisters_eq]
  cases hword : f.word with
  | error e =>
    refine ⟨rfl, fun i => ?_, fun n h => nomatch h⟩
    rw [f.inValues_eq hpos hw, hword]
    rfl
  | ok m =>
    have hm : UInt64.ofNat m.toNat = m := UInt64.ofNat_toNat
    refine ⟨congrArg (fun n => Except.ok (Compiled.scalar n)) hm.symm, fun i => ?_, fun n h => ?_⟩
    · rw [f.inValues_eq hpos hw, hword]
      exact congrArg (fun n => Except.ok (Value.uint (Uint.wrap w n))) hm.symm
    · obtain rfl := Except.ok.inj h
      exact Formula.word_lt hw hword

/-- Two minus three in 64 bits, a shift in one bit, and a chain that wraps in 24 bits. -/
theorem Operator.exact_arithmetic_ends :
    (Operator.sub.apply 2 3 64).map UInt64.toNat = .ok (2 ^ 64 - 1) ∧
    (Operator.shr.apply 1 1 1).map UInt64.toNat = .ok 0 ∧
    (Formula.operation .shr (.operation .sub (.number 0 (by decide)) (.number 1 (by decide)))
      (.number 20 (by decide)) : Formula 24).inRegisters = .ok (.scalar 15) := by
  have h64 := (exact_arithmetic (w := 64) (by decide) (by decide)).1 .sub 2 3 (by decide) (by decide)
  have h1 := (exact_arithmetic (w := 1) (by decide) (by decide)).1 .shr 1 1 (by decide) (by decide)
  have hchain := (exact_arithmetic (w := 24) (by decide) (by decide)).2.2
    (.operation .shr (.operation .sub (.number 0 (by decide)) (.number 1 (by decide)))
      (.number 20 (by decide)))
  refine ⟨h64.1.trans (by decide), h1.1.trans (by decide), hchain.1.trans ?_⟩
  rfl

end ShapeCompiler
