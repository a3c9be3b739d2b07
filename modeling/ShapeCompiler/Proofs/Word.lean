import Mathlib.Tactic.Common
import ShapeCompiler.Compiled.Decode
import ShapeCompiler.Compiled.Encode
import ShapeCompiler.Operator.Arithmetic

/-!
Words bit by bit: masks, wrapped numbers, and numbers packed side by side into one word.

Main statement: slots that lie side by side from some bit upward give back what was packed into
them (`map_read_pack`), and the bits below stay as they were (`bit_pack_of_lt`).
-/

namespace ShapeCompiler

/-! ### Bits -/

/-- The bit of a word at a position. -/
def bit (w : UInt64) (i : Nat) : Bool := w.toNat.testBit i

theorem bit_ext {v w : UInt64} (h : ∀ i, bit v i = bit w i) : v = w :=
  UInt64.toNat_inj.1 (Nat.eq_of_testBit_eq h)

theorem bit_of_ge (w : UInt64) {i : Nat} (h : 64 ≤ i) : bit w i = false :=
  Nat.testBit_lt_two_pow (Nat.lt_of_lt_of_le w.toNat_lt (Nat.pow_le_pow_right (by decide) h))

@[simp] theorem bit_and (v w : UInt64) (i : Nat) : bit (v &&& w) i = (bit v i && bit w i) := by
  simp [bit]

@[simp] theorem bit_or (v w : UInt64) (i : Nat) : bit (v ||| w) i = (bit v i || bit w i) := by
  simp [bit]

theorem bit_mask (b i : Nat) : bit (mask b) i = decide (i < min b 64) := by
  unfold bit
  rw [toNat_mask]
  exact Nat.testBit_two_pow_sub_one ..

theorem bit_shiftRight (w : UInt64) {k : Nat} (hk : k < 64) (i : Nat) :
    bit (w >>> UInt64.ofNat k) i = bit w (k + i) := by
  unfold bit
  rw [UInt64.toNat_shiftRight, UInt64.toNat_ofNat_of_lt' (Nat.lt_trans hk (by decide)),
    Nat.mod_eq_of_lt hk, Nat.testBit_shiftRight]

theorem bit_shiftLeft (w : UInt64) {k : Nat} (hk : k < 64) (i : Nat) :
    bit (w <<< UInt64.ofNat k) i = (decide (i < 64) && (decide (k ≤ i) && bit w (i - k))) := by
  unfold bit
  rw [UInt64.toNat_shiftLeft, UInt64.toNat_ofNat_of_lt' (Nat.lt_trans hk (by decide)),
    Nat.mod_eq_of_lt hk, Nat.testBit_mod_two_pow, Nat.testBit_shiftLeft]

/-! ### Masks and wrapped numbers -/

@[simp] theorem and_mask_and_mask (n : UInt64) (b : Nat) : n &&& mask b &&& mask b = n &&& mask b := by
  rw [UInt64.and_assoc, UInt64.and_self]

theorem bit_of_masked {n : UInt64} {b : Nat} (h : n &&& mask b = n) {i : Nat} (hi : b ≤ i) :
    bit n i = false := by
  rw [← h, bit_and, bit_mask]
  simp; omega

/-- A number keeps its bits under a mask if it is below the bound of the width. -/
theorem and_mask_eq_iff {n : UInt64} {b : Nat} (hb : b ≤ 64) :
    n &&& mask b = n ↔ n.toNat < Nat.pow 2 b := by
  have hand : n.toNat &&& (Nat.pow 2 b - 1) = n.toNat % Nat.pow 2 b := Nat.and_two_pow_sub_one_eq_mod ..
  rw [← UInt64.toNat_inj, UInt64.toNat_and, toNat_mask, Nat.min_eq_left hb]
  exact hand ▸ Nat.mod_eq_iff_lt (Nat.ne_of_gt (Nat.two_pow_pos b))

theorem clampWidth_eq {b : Nat} (h1 : 1 ≤ b) (h2 : b ≤ 64) : clampWidth b = b := by
  unfold clampWidth; omega

namespace Uint

theorem ext {u v : Uint} (hb : u.bits = v.bits) (hv : u.value = v.value) : u = v := by
  cases u; cases v; simp at hb hv; subst hb; subst hv; rfl

theorem bits_wrap {b : Nat} (h1 : 1 ≤ b) (h2 : b ≤ 64) (n : UInt64) : (wrap b n).bits = b :=
  clampWidth_eq h1 h2

theorem value_wrap {b : Nat} (h1 : 1 ≤ b) (h2 : b ≤ 64) (n : UInt64) :
    (wrap b n).value = n &&& mask b := by
  show n &&& mask (clampWidth b) = n &&& mask b
  rw [clampWidth_eq h1 h2]

/-- A width is brought into its range once. -/
theorem wrap_clampWidth (b : Nat) (n : UInt64) : wrap (clampWidth b) n = wrap b n := by
  have h : clampWidth (clampWidth b) = clampWidth b := by
    unfold clampWidth
    omega
  exact ext h (congrArg (fun b => n &&& mask b) h)

@[simp] theorem wrap_self (u : Uint) : wrap u.bits u.value = u :=
  ext (bits_wrap u.bits_pos u.bits_le _)
    ((value_wrap u.bits_pos u.bits_le _).trans u.value_masked)

end Uint

/-- Every operator answers a word without bits above its width. -/
theorem Operator.apply_masked {op : Operator} {a b n : UInt64} {bits : Nat}
    (h : op.apply a b bits = .ok n) : n &&& mask bits = n := by
  unfold Operator.apply at h
  split at h
  · injection h with h
    rw [← h, and_mask_and_mask]
  · cases h

/-! ### Slots side by side -/

/-- The word with one more number in each slot. -/
def pack : UInt64 → List Slot → List UInt64 → UInt64
  | word, s :: ss, n :: ns => pack (word ||| (n <<< UInt64.ofNat s.shift)) ss ns
  | word, _, _ => word

/-- The slots lie side by side from bit `k` upward and stay within a word. -/
def Adjacent : Nat → List Slot → Prop
  | _, [] => True
  | k, s :: ss => s.shift = k ∧ 1 ≤ s.bits ∧ k + s.bits ≤ 64 ∧ Adjacent (k + s.bits) ss

theorem Adjacent.width {k : Nat} : ∀ {slots : List Slot}, Adjacent k slots →
    ∀ s ∈ slots, 1 ≤ s.bits ∧ s.bits ≤ 64 := by
  intro slots
  induction slots generalizing k with
  | nil => intro _ s hs; cases hs
  | cons s slots ih =>
    intro h s' hs
    obtain ⟨-, h1, h2, h3⟩ := h
    rcases List.mem_cons.1 hs with rfl | hs
    · exact ⟨h1, by omega⟩
    · exact ih h3 s' hs

/-- Every slot takes a bit, so no more slots than bits fit behind the first of them. -/
theorem Adjacent.length_le {k : Nat} {slots : List Slot} (h : Adjacent k slots) (hk : k ≤ 64) :
    k + slots.length ≤ 64 := by
  induction slots generalizing k with
  | nil => simpa using hk
  | cons s slots ih =>
    obtain ⟨-, hbits, hle, hrest⟩ := h
    have := ih hrest hle
    rw [List.length_cons]
    omega

/-- Each number has no bits above the width of its slot. -/
def FitSlots : List Slot → List UInt64 → Prop
  | [], [] => True
  | s :: ss, n :: ns => n &&& mask s.bits = n ∧ FitSlots ss ns
  | _, _ => False

/-- What is packed above bit `k` leaves the bits below `k` alone. -/
theorem bit_pack_of_lt {k i : Nat} (hi : i < k) : ∀ {ss : List Slot} (word : UInt64)
    (ns : List UInt64), Adjacent k ss → bit (pack word ss ns) i = bit word i := by
  intro ss
  induction ss generalizing k with
  | nil => intro word ns _; cases ns <;> rfl
  | cons s ss ih =>
    intro word ns h
    obtain ⟨hs, hb, hle, hr⟩ := h
    cases ns with
    | nil => rfl
    | cons n ns =>
      have hlt : s.shift < 64 := by omega
      rw [pack, ih (k := k + s.bits) (by omega) _ _ hr, bit_or, bit_shiftLeft n hlt]
      have : ¬ s.shift ≤ i := by omega
      simp [this]

theorem read_eq {s : Slot} {word n : UInt64} (hs : s.shift < 64) (hn : n &&& mask s.bits = n)
    (h : ∀ i, i < s.bits → bit word (s.shift + i) = bit n i) : s.read word = n := by
  refine bit_ext fun i => ?_
  unfold Slot.read
  rw [bit_and, bit_shiftRight word hs, bit_mask]
  rcases Nat.lt_or_ge i s.bits with hi | hi
  · rw [h i hi]
    rcases Nat.lt_or_ge i 64 with h64 | h64
    · have hlt : i < min s.bits 64 := by omega
      simp [hlt]
    · simp [bit_of_ge n h64]
  · rw [bit_of_masked hn hi]
    simp; omega

/-- Slots side by side give back what was packed into them. -/
theorem map_read_pack {k : Nat} : ∀ {ss : List Slot} {word : UInt64} {ns : List UInt64},
    Adjacent k ss → FitSlots ss ns → (∀ i, k ≤ i → bit word i = false) →
    ss.map (fun s => s.read (pack word ss ns)) = ns := by
  intro ss
  induction ss generalizing k with
  | nil =>
    intro word ns _ hn _
    cases ns with
    | nil => rfl
    | cons n ns => exact hn.elim
  | cons s ss ih =>
    intro word ns h hn hw
    obtain ⟨hs, hb, hle, hr⟩ := h
    cases ns with
    | nil => exact hn.elim
    | cons n ns =>
      obtain ⟨hn, hns⟩ := hn
      have hlt : s.shift < 64 := by omega
      have hw' : ∀ i, k + s.bits ≤ i → bit (word ||| n <<< UInt64.ofNat s.shift) i = false := by
        intro i hi
        rw [bit_or, hw i (by omega), bit_shiftLeft n hlt, bit_of_masked hn (by omega : s.bits ≤ i - s.shift)]
        simp
      rw [List.map_cons]
      congr 1
      · refine read_eq hlt hn fun i hi => ?_
        rw [pack, bit_pack_of_lt (by omega) _ _ hr, bit_or, hw _ (by omega), bit_shiftLeft n hlt]
        have h1 : s.shift + i < 64 := by omega
        have h2 : s.shift + i - s.shift = i := by omega
        simp [h1, h2]
      · exact ih hr hns hw'

/-! ### What a packed word uses -/

/-- Whether a slot holds the bit at a position. -/
def Slot.covers (s : Slot) (i : Nat) : Bool := decide (s.shift ≤ i ∧ i < s.shift + s.bits)

/-- The word with the bits that the tag and the slots take. -/
def usedBits : List Slot → UInt64
  | [] => mask tagBits
  | s :: ss => (mask s.bits <<< UInt64.ofNat s.shift) ||| usedBits ss

theorem bit_slot {s : Slot} (h : s.shift + s.bits ≤ 64) (hb : 1 ≤ s.bits) (i : Nat) :
    bit (mask s.bits <<< UInt64.ofNat s.shift) i = s.covers i := by
  rw [bit_shiftLeft _ (by omega), bit_mask, Slot.covers]
  simp only [← Bool.decide_and, decide_eq_decide]
  omega

theorem bit_read {s : Slot} (h : s.shift + s.bits ≤ 64) (hb : 1 ≤ s.bits) (w : UInt64) (i : Nat) :
    bit (s.read w <<< UInt64.ofNat s.shift) i = (s.covers i && bit w i) := by
  rw [bit_shiftLeft _ (by omega), Slot.read, bit_and, bit_shiftRight w (by omega), bit_mask, Slot.covers]
  by_cases hi : s.shift ≤ i
  · rw [Nat.add_sub_cancel' hi]
    have : (decide (i < 64) && decide (i - s.shift < min s.bits 64)) = decide (i < s.shift + s.bits) := by
      rw [← Bool.decide_and, decide_eq_decide]
      omega
    simp [hi, ← this, Bool.and_comm (bit w i), Bool.and_assoc]
  · simp [hi]

theorem bit_usedBits {k : Nat} {ss : List Slot} (h : Adjacent k ss) (i : Nat) :
    bit (usedBits ss) i = (decide (i < tagBits) || ss.any (·.covers i)) := by
  induction ss generalizing k with
  | nil =>
    rw [usedBits, bit_mask, List.any_nil, Bool.or_false]
    rfl
  | cons s ss ih =>
    obtain ⟨rfl, hb, hle, hr⟩ := h
    rw [usedBits, bit_or, bit_slot hle hb, ih hr, List.any_cons, Bool.or_left_comm]

theorem and_usedBits_eq_iff {k : Nat} {ss : List Slot} (h : Adjacent k ss) {w : UInt64} :
    w &&& usedBits ss = w ↔ ∀ i, bit w i → i < tagBits ∨ ∃ s ∈ ss, s.covers i := by
  have hbit : ∀ i, bit (w &&& usedBits ss) i = bit w i ↔
      (bit w i → i < tagBits ∨ ∃ s ∈ ss, s.covers i) := by
    intro i
    rw [bit_and, bit_usedBits h]
    cases bit w i <;> simp
  constructor
  · intro he i
    exact (hbit i).1 (by rw [he])
  · intro hall
    exact bit_ext fun i => (hbit i).2 (hall i)

theorem bit_pack_read {k : Nat} {ss : List Slot} (h : Adjacent k ss) (word w : UInt64) (i : Nat) :
    bit (pack word ss (ss.map fun s => s.read w)) i = (bit word i || (ss.any (·.covers i) && bit w i)) := by
  induction ss generalizing k word with
  | nil => simp [pack]
  | cons s ss ih =>
    obtain ⟨rfl, hb, hle, hr⟩ := h
    rw [List.map_cons, pack, ih hr, bit_or, bit_read hle hb, List.any_cons, Bool.and_or_distrib_right,
      Bool.or_assoc]

/-! ### Tags -/

theorem bit_tag (t : UInt8) {i : Nat} (hi : 8 ≤ i) : bit (UInt64.ofNat t.toNat) i = false := by
  unfold bit
  have h : t.toNat < 2 ^ 8 := t.toNat_lt
  rw [UInt64.toNat_ofNat_of_lt' (Nat.lt_trans h (by decide))]
  exact Nat.testBit_lt_two_pow (Nat.lt_of_lt_of_le h (Nat.pow_le_pow_right (by decide) hi))

/-- The low byte of a packed word is the tag. -/
theorem toUInt8_pack (t : UInt8) {ss : List Slot} (ns : List UInt64) (h : Adjacent tagBits ss) :
    (pack (UInt64.ofNat t.toNat) ss ns).toUInt8 = t := by
  have ht : t.toNat < 2 ^ 8 := t.toNat_lt
  refine UInt8.toNat_inj.1 (Nat.eq_of_testBit_eq fun i => ?_)
  rw [UInt64.toNat_toUInt8, Nat.testBit_mod_two_pow]
  rcases Nat.lt_or_ge i 8 with hi | hi
  · have := bit_pack_of_lt (k := tagBits) hi (UInt64.ofNat t.toNat) ns h
    unfold bit at this
    rw [this, UInt64.toNat_ofNat_of_lt' (Nat.lt_trans ht (by decide))]
    simp [hi]
  · rw [Nat.testBit_lt_two_pow (Nat.lt_of_lt_of_le ht (Nat.pow_le_pow_right (by decide) hi))]
    simp; omega

theorem pack_read {ss : List Slot} (h : Adjacent tagBits ss) (w : UInt64) :
    pack (UInt64.ofNat w.toUInt8.toNat) ss (ss.map fun s => s.read w) = w &&& usedBits ss := by
  refine bit_ext fun i => ?_
  have htag : bit (UInt64.ofNat w.toUInt8.toNat) i = (decide (i < tagBits) && bit w i) := by
    unfold bit
    rw [UInt64.toNat_toUInt8, UInt64.toNat_ofNat_of_lt' (Nat.lt_trans (Nat.mod_lt _ (by decide)) (by decide))]
    exact Nat.testBit_mod_two_pow ..
  rw [bit_pack_read h, htag, bit_and, bit_usedBits h, ← Bool.and_or_distrib_right, Bool.and_comm]

end ShapeCompiler
