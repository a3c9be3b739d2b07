import Mathlib.Data.List.Induction
import ShapeCompiler.Proofs.Types.Registration

/-!
Names that are read as scalars.

Scalars are stored under one name each, the letter u and the numeral of the width. Main statement: the
names that are read as scalars are these and those with a plus sign or zeros in front of the numeral
(`scalarWidth_eq_some`).
-/

namespace ShapeCompiler

/-- The name of a scalar type that can be registered. -/
def Ident.IsScalar (name : Ident) : Prop := ∃ bits, 1 ≤ bits ∧ bits ≤ 64 ∧ scalarName bits = name

/-- The name is the letter u, perhaps a plus sign, any number of zeros and the numeral of a number. -/
def Ident.Spells (name : Ident) (n : Nat) : Prop :=
  ∃ sign zeros, (sign = [] ∨ sign = ['+']) ∧
    name.toList = 'u' :: (sign ++ List.replicate zeros '0' ++ Nat.toDigits 10 n)

/-! ### Digits -/

theorem decimal?_eq_some {ds : List Char} {n : Nat} :
    decimal? ds = some n ↔ ds ≠ [] ∧ (∀ c ∈ ds, c.isDigit = true) ∧ Nat.ofDigitChars 10 ds 0 = n := by
  unfold decimal? Nat.ofDigitChars
  split
  · rename_i h
    simp [List.isEmpty_iff.1 h]
  · rename_i h
    have hne : ds ≠ [] := fun he => h (List.isEmpty_iff.2 he)
    split
    · rename_i hall
      rw [Option.some.injEq]
      exact ⟨fun hn => ⟨hne, List.all_eq_true.1 hall, hn⟩, fun hn => hn.2.2⟩
    · rename_i hall
      rw [List.all_eq_true] at hall
      simp [hall]

theorem digitChar_of_isDigit {c : Char} (h : c.isDigit = true) :
    c.toNat - '0'.toNat < 10 ∧ Nat.digitChar (c.toNat - '0'.toNat) = c := by
  obtain ⟨h0, h9⟩ := Char.isDigit_iff_toNat.1 h
  have hlt : c.toNat - '0'.toNat < 10 := by
    have : '9'.toNat = '0'.toNat + 9 := rfl
    omega
  refine ⟨hlt, Char.toNat_inj.1 ?_⟩
  rw [Nat.toNat_digitChar_of_lt_ten hlt]
  have : '0'.toNat = 48 := rfl
  omega

/-- Digits of no value are zeros, and other digits are zeros and the numeral of their value. -/
theorem digits_cases {ds : List Char} (h : ∀ c ∈ ds, c.isDigit = true) :
    (Nat.ofDigitChars 10 ds 0 = 0 → ds = List.replicate ds.length '0') ∧
    (0 < Nat.ofDigitChars 10 ds 0 →
      ∃ zeros, ds = List.replicate zeros '0' ++ Nat.toDigits 10 (Nat.ofDigitChars 10 ds 0)) := by
  induction ds using List.reverseRecOn with
  | nil => simp
  | append_singleton ds c ih =>
    obtain ⟨hzero, hpos⟩ := ih fun d hd => h d (by simp [hd])
    obtain ⟨hlt, hc⟩ := digitChar_of_isDigit (h c (by simp))
    have hvalue : Nat.ofDigitChars 10 (ds ++ [c]) 0 =
        10 * Nat.ofDigitChars 10 ds 0 + (c.toNat - '0'.toNat) := by
      rw [Nat.ofDigitChars_append, Nat.ofDigitChars_cons, Nat.ofDigitChars_nil]
    rw [hvalue]
    generalize Nat.ofDigitChars 10 ds 0 = v at hzero hpos
    generalize c.toNat - '0'.toNat = d at hlt hc
    subst hc
    constructor
    · intro h0
      obtain ⟨rfl, rfl⟩ : v = 0 ∧ d = 0 := by omega
      rw [hzero rfl]
      simp [List.replicate_succ']
    · intro h0
      rcases Nat.eq_zero_or_pos v with rfl | hv
      · refine ⟨ds.length, ?_⟩
        rw [Nat.mul_zero, Nat.zero_add, Nat.toDigits_of_lt_base hlt, ← hzero rfl]
      · obtain ⟨zeros, hds⟩ := hpos hv
        refine ⟨zeros, ?_⟩
        rw [← Nat.toDigits_append_toDigits (by decide) hv hlt, Nat.toDigits_of_lt_base hlt,
          ← List.append_assoc, ← hds]

theorem decimal?_eq_some_iff {ds : List Char} {n : Nat} (hn : 0 < n) :
    decimal? ds = some n ↔ ∃ zeros, ds = List.replicate zeros '0' ++ Nat.toDigits 10 n := by
  rw [decimal?_eq_some]
  constructor
  · rintro ⟨-, hall, rfl⟩
    exact (digits_cases hall).2 hn
  · rintro ⟨zeros, rfl⟩
    refine ⟨by simp, fun c hc => ?_, ?_⟩
    · rcases List.mem_append.1 hc with hc | hc
      · rw [List.eq_of_mem_replicate hc]
        rfl
      · exact Nat.isDigit_of_mem_toDigits (by decide) (by decide) hc
    · rw [Nat.ofDigitChars_append, Nat.ofDigitChars_replicate_zero, Nat.mul_zero,
        Nat.ofDigitChars_ten_toDigits]

/-! ### Widths -/

theorem width?_bind_eq_some {ds : List Char} {n : Nat} : (decimal? ds).bind width? = some n ↔
    1 ≤ n ∧ n ≤ 64 ∧ ∃ zeros, ds = List.replicate zeros '0' ++ Nat.toDigits 10 n := by
  have hwidth : ∀ {k}, width? k = some n ↔ (1 ≤ n ∧ n ≤ 64) ∧ k = n := by
    intro k
    unfold width?
    split
    · rename_i hk
      rw [Option.some.injEq]
      constructor
      · rintro rfl
        exact ⟨hk, rfl⟩
      · exact fun h => h.2
    · rename_i hk
      constructor
      · intro h
        cases h
      · rintro ⟨hn, rfl⟩
        exact absurd hn hk
  rw [Option.bind_eq_some_iff]
  constructor
  · rintro ⟨k, hk, hw⟩
    obtain ⟨⟨h1, h64⟩, rfl⟩ := hwidth.1 hw
    exact ⟨h1, h64, (decimal?_eq_some_iff h1).1 hk⟩
  · rintro ⟨h1, h64, h⟩
    exact ⟨n, (decimal?_eq_some_iff h1).2 h, hwidth.2 ⟨⟨h1, h64⟩, rfl⟩⟩

theorem zeros_toDigits_ne_sign {zeros n : Nat} {ds : List Char} :
    List.replicate zeros '0' ++ Nat.toDigits 10 n ≠ '+' :: ds := by
  intro h
  have hmem : '+' ∈ List.replicate zeros '0' ++ Nat.toDigits 10 n := by simp [h]
  rcases List.mem_append.1 hmem with hm | hm
  · exact absurd (List.eq_of_mem_replicate hm) (by decide)
  · exact absurd (Nat.isDigit_of_mem_toDigits (by decide) (by decide) hm) (by decide)

/-- A name is read as a scalar if it is the letter u and a number from 1 to 64, in front of which there
may be a plus sign and zeros. -/
theorem scalarWidth_eq_some {name : Ident} {n : Nat} :
    scalarWidth name = some n ↔ 1 ≤ n ∧ n ≤ 64 ∧ name.Spells n := by
  unfold scalarWidth Ident.Spells
  split
  · rename_i ds hs
    rw [width?_bind_eq_some, hs]
    refine and_congr_right fun _ => and_congr_right fun _ => ⟨?_, ?_⟩
    · rintro ⟨zeros, rfl⟩
      exact ⟨_, zeros, .inr rfl, rfl⟩
    · rintro ⟨sign, zeros, rfl | rfl, h⟩
      · exact absurd (List.cons.inj h).2.symm zeros_toDigits_ne_sign
      · exact ⟨zeros, by simpa using h⟩
  · rename_i ds hnot hs
    rw [width?_bind_eq_some, hs]
    refine and_congr_right fun _ => and_congr_right fun _ => ⟨?_, ?_⟩
    · rintro ⟨zeros, rfl⟩
      exact ⟨_, zeros, .inl rfl, rfl⟩
    · rintro ⟨sign, zeros, rfl | rfl, h⟩
      · exact ⟨zeros, by simpa using h⟩
      · exact absurd (List.cons.inj h).2 (hnot _)
  · rename_i hnot
    constructor
    · intro h
      cases h
    · rintro ⟨-, -, sign, zeros, -, h⟩
      exact absurd h (hnot _)

/-- A scalar is read off the name that it is stored under. -/
theorem Ident.IsScalar.width {name : Ident} (h : name.IsScalar) :
    ∃ bits, 1 ≤ bits ∧ bits ≤ 64 ∧ scalarName bits = name ∧ scalarWidth name = some bits := by
  obtain ⟨bits, h1, h64, rfl⟩ := h
  exact ⟨bits, h1, h64, rfl, TypeTable.scalarWidth_scalarName h1 h64⟩

/-- What a table has gained is called like a scalar if it is one. -/
theorem TypeTable.GrowsByScalars.lookup_cases {t t' : TypeTable} (h : t.GrowsByScalars t')
    (hw : t.WellFormed) (hw' : t'.WellFormed) {name : Ident} (hn : (t'.lookup name).isSome) :
    (t.lookup name).isSome ∨ name.IsScalar := by
  obtain ⟨id, hid⟩ := Option.isSome_iff_exists.1 hn
  obtain ⟨d, hd, rfl⟩ := get?_of_lookup hid
  rcases h.scalars hd with hold | ⟨bits, rfl⟩
  · exact .inl (by rw [hw.lookup_name hold]; rfl)
  · exact .inr ⟨bits, (hw'.width hd).1, (hw'.width hd).2, rfl⟩

end ShapeCompiler
