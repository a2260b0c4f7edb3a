import Mathlib.Data.List.TakeWhile
import StackScript.Number.Magnitude

/-!
Decimals as digits. What is written of a decimal is read as one of the same value: zeros that the
exponent stands for become part of the coefficient, and digits behind a point stay there.
-/

namespace StackScript.Decimal

variable {whole fraction : List Char}

theorem parse?_digits (hwhole : ∀ c ∈ whole, c.isDigit = true) (hne : whole ≠ []) :
    parse? whole = some ⟨ofDigits whole, 0⟩ := by
  have hdrop : whole.dropWhile Char.isDigit = [] := List.dropWhile_eq_nil_iff.mpr hwhole
  have htake : whole.takeWhile Char.isDigit = whole := List.takeWhile_eq_self_iff.mpr hwhole
  simp [parse?, hdrop, htake, hne]

theorem parse?_fraction (hwhole : ∀ c ∈ whole, c.isDigit = true)
    (hfraction : ∀ c ∈ fraction, c.isDigit = true) (hne : whole ≠ []) (hfne : fraction ≠ []) :
    parse? (whole ++ '.' :: fraction) = some ⟨ofDigits (whole ++ fraction), -fraction.length⟩ := by
  have hpoint : Char.isDigit '.' = false := by decide
  have hdrop : (whole ++ '.' :: fraction).dropWhile Char.isDigit = '.' :: fraction := by
    rw [List.dropWhile_append_of_pos hwhole, List.dropWhile_cons_of_neg (by simp [hpoint])]
  have htake : (whole ++ '.' :: fraction).takeWhile Char.isDigit = whole := by
    rw [List.takeWhile_append_of_pos hwhole, List.takeWhile_cons_of_neg (by simp [hpoint]),
      List.append_nil]
  have hall : fraction.all Char.isDigit = true := List.all_eq_true.mpr hfraction
  simp [parse?, hdrop, htake, hne, hfne, hall]

theorem ofDigits_eq (digits : List Char) : ofDigits digits = Nat.ofDigitChars 10 digits 0 := by
  rw [Nat.ofDigitChars_eq_foldl, ofDigits]
  simp only [Nat.mul_comm]

theorem isDigit_of_mem_toDigits {value : Nat} {c : Char} (h : c ∈ Nat.toDigits 10 value) :
    c.isDigit = true :=
  Nat.isDigit_of_mem_toDigits (by decide) (by decide) h

theorem ofDigits_toDigits (value : Nat) : ofDigits (Nat.toDigits 10 value) = value := by
  rw [ofDigits_eq, Nat.ofDigitChars_ten_toDigits]

section Padded

variable {width value : Nat}

theorem isDigit_of_mem_padded {c : Char} (h : c ∈ padded width value) : c.isDigit = true := by
  rcases List.mem_append.mp h with hzero | hdigit
  · rw [List.eq_of_mem_replicate hzero]
    decide
  · exact isDigit_of_mem_toDigits hdigit

theorem length_padded (hwidth : 0 < width) (h : value < 10 ^ width) :
    (padded width value).length = width := by
  have hle : (Nat.toDigits 10 value).length ≤ width :=
    (Nat.length_toDigits_le_iff (by decide) hwidth).mpr h
  unfold padded
  dsimp only
  rw [List.length_append, List.length_replicate]
  omega

/-- Digits behind others move those up by as many places. -/
theorem ofDigits_append_padded (hwidth : 0 < width) (h : value < 10 ^ width) (first : List Char) :
    ofDigits (first ++ padded width value) = 10 ^ width * ofDigits first + value := by
  have hpadded : Nat.ofDigitChars 10 (padded width value) 0 = value := by
    unfold padded
    dsimp only
    rw [Nat.ofDigitChars_append, Nat.ofDigitChars_replicate_zero, Nat.mul_zero,
      Nat.ofDigitChars_ten_toDigits]
  rw [ofDigits_eq, Nat.ofDigitChars_append, Nat.ofDigitChars_eq_ofDigitChars_zero, hpadded,
    length_padded hwidth h, ofDigits_eq]

end Padded

theorem isDigit_of_mem_digits {d : Decimal} {c : Char} (h : c ∈ d.digits) :
    c.isDigit = true ∨ c = '.' := by
  obtain ⟨coefficient, exponent⟩ := d
  cases exponent with
  | ofNat zeros => exact Or.inl (isDigit_of_mem_toDigits h)
  | negSucc n =>
      rcases List.mem_append.mp h with hwhole | hbehind
      · exact Or.inl (isDigit_of_mem_toDigits hwhole)
      · rcases List.mem_cons.mp hbehind with hpoint | hfraction
        · exact Or.inr hpoint
        · exact Or.inl (isDigit_of_mem_padded hfraction)

/-- The written form is read as a decimal that stands for the same quotient. -/
theorem exists_parse?_digits (d : Decimal) : ∃ d', parse? d.digits = some d' ∧
    d'.numerator = d.numerator ∧ d'.denominator = d.denominator := by
  obtain ⟨coefficient, exponent⟩ := d
  cases exponent with
  | ofNat zeros =>
      refine ⟨⟨coefficient * 10 ^ zeros, 0⟩, ?_, ?_, ?_⟩
      · change parse? (Nat.toDigits 10 (coefficient * 10 ^ zeros)) = _
        rw [parse?_digits (fun _ => isDigit_of_mem_toDigits) Nat.toDigits_ne_nil, ofDigits_toDigits]
      · exact Nat.mul_one _
      · have hwhole : (-Int.ofNat zeros).toNat = 0 :=
          Int.toNat_of_nonpos (Int.neg_nonpos_of_nonneg (Int.natCast_nonneg zeros))
        unfold denominator
        rw [hwhole]
        rfl
  | negSucc n =>
      refine ⟨⟨coefficient, .negSucc n⟩, ?_, rfl, rfl⟩
      have hlow : coefficient % 10 ^ (n + 1) < 10 ^ (n + 1) :=
        Nat.mod_lt _ (Nat.pow_pos (by decide))
      have hlength := length_padded n.succ_pos hlow
      have hne : padded (n + 1) (coefficient % 10 ^ (n + 1)) ≠ [] := by
        rw [← List.length_pos_iff, hlength]
        exact n.succ_pos
      change parse? (Nat.toDigits 10 (coefficient / 10 ^ (n + 1)) ++
        '.' :: padded (n + 1) (coefficient % 10 ^ (n + 1))) = _
      rw [parse?_fraction (fun _ => isDigit_of_mem_toDigits) (fun _ => isDigit_of_mem_padded)
        Nat.toDigits_ne_nil hne, ofDigits_append_padded n.succ_pos hlow, ofDigits_toDigits,
        Nat.div_add_mod, hlength]
      rfl

end StackScript.Decimal
