import Mathlib.Tactic.Common
import StackScript.Number.Magnitude
import StackScript.Number.Shortest

/-!
Which decimals round to which double. The numbers that round to a finite double make up an
interval around it, and a decimal is read as the double exactly if it lies there. Both sides are
told in steps, of which the double is a whole number and the decimal a quotient.
-/

namespace StackScript

/-- A quotient is rounded to the integer that is no more than half away from it, and the odd one
of two never is half away. -/
theorem divHalfEven_eq_iff {n d k : Nat} (hd : 0 < d) : divHalfEven n d = k ↔
    2 * (k * d) ≤ 2 * n + d ∧ 2 * n ≤ 2 * (k * d) + d ∧
      (k % 2 = 1 → 2 * (k * d) < 2 * n + d ∧ 2 * n < 2 * (k * d) + d) := by
  have hsplit := Nat.div_add_mod n d
  have hrest := Nat.mod_lt n hd
  rw [Nat.mul_comm] at hsplit
  -- All multiples of `d` but the two around `n` are a whole `d` further away.
  have hnear : k = n / d ∨ k = n / d + 1 ∨ k < n / d ∧ (k + 1) * d ≤ n / d * d ∨
      n / d + 1 < k ∧ (n / d + 2) * d ≤ k * d := by
    rcases Nat.lt_trichotomy k (n / d) with hbelow | heq | habove
    · exact Or.inr (Or.inr (Or.inl ⟨hbelow, Nat.mul_le_mul_right d hbelow⟩))
    · exact Or.inl heq
    · rcases Nat.eq_or_lt_of_le habove with heq | habove
      · exact Or.inr (Or.inl heq.symm)
      · exact Or.inr (Or.inr (Or.inr ⟨habove, Nat.mul_le_mul_right d habove⟩))
  unfold divHalfEven
  dsimp only
  generalize n / d = q at hsplit hnear ⊢
  generalize n % d = r at hsplit hrest ⊢
  simp only [Nat.add_mul, Nat.one_mul] at hnear
  rcases hnear with rfl | rfl | ⟨hlt, hbelow⟩ | ⟨hlt, habove⟩
  · split
    · omega
    · split <;> omega
  · rw [Nat.add_mul]
    split
    · omega
    · split <;> omega
  · split
    · omega
    · split <;> omega
  · split
    · omega
    · split <;> omega

namespace Magnitude

/-- A double as its bits give it: at the smallest scale, or with the leading bit of its mantissa
set. -/
structure Canonical (m : Magnitude) : Prop where
  mantissa_lt : m.mantissa < 2 ^ (fractionBits + 1)
  leading : m.scale = 0 ∨ 2 ^ fractionBits ≤ m.mantissa

theorem canonical_ofBits (bits : Nat) : (ofBits bits).Canonical := by
  have hfraction : bits % 2 ^ fractionBits < 2 ^ fractionBits := Nat.mod_lt _ (by decide)
  unfold ofBits
  dsimp only
  split
  · exact ⟨by dsimp only; omega, Or.inl rfl⟩
  · exact ⟨by dsimp only; omega, Or.inr (Nat.le_add_right _ _)⟩

/-- Quarters of a step of the mantissa down to the lower end of the interval. -/
def gap (m : Magnitude) : Nat :=
  if m.mantissa = 2 ^ fractionBits ∧ 0 < m.scale then 1 else 2

/-- The quotient of `n` and `d`, in steps, is one of the numbers that round to `m`. The ends are
so if the mantissa is even. -/
structure Covers (m : Magnitude) (n d : Nat) : Prop where
  lower : (4 * m.mantissa - m.gap) * (d * 2 ^ m.scale) ≤ 4 * n
  upper : 4 * n ≤ (4 * m.mantissa + 2) * (d * 2 ^ m.scale)
  inner : m.mantissa % 2 = 1 → (4 * m.mantissa - m.gap) * (d * 2 ^ m.scale) < 4 * n ∧
    4 * n < (4 * m.mantissa + 2) * (d * 2 ^ m.scale)

variable {m : Magnitude} {d : Decimal}

theorem covers_iff {n d : Nat} : m.Covers n d ↔
    (4 * m.mantissa - m.gap) * (d * 2 ^ m.scale) ≤ 4 * n ∧
      4 * n ≤ (4 * m.mantissa + 2) * (d * 2 ^ m.scale) ∧
      (m.mantissa % 2 = 1 → (4 * m.mantissa - m.gap) * (d * 2 ^ m.scale) < 4 * n ∧
        4 * n < (4 * m.mantissa + 2) * (d * 2 ^ m.scale)) :=
  ⟨fun h => ⟨h.lower, h.upper, h.inner⟩, fun ⟨hlower, hupper, hinner⟩ => ⟨hlower, hupper, hinner⟩⟩

/-- The power of two that a double and the smallest one share. -/
theorem two_pow_shared (m : Magnitude) :
    2 ^ (unitBits - m.scale) * 2 ^ min m.scale unitBits = 2 ^ unitBits ∧
      2 ^ (m.scale - unitBits) * 2 ^ min m.scale unitBits = 2 ^ m.scale := by
  constructor
  · rw [← Nat.pow_add]
    congr 1
    omega
  · rw [← Nat.pow_add]
    congr 1
    omega

/-- The check of a decimal leaves out that power on both sides. -/
theorem admits_iff : m.admits d = true ↔
    m.Covers (d.numerator * 2 ^ unitBits) d.denominator := by
  have hshared : 0 < 2 ^ min m.scale unitBits := Nat.two_pow_pos _
  obtain ⟨hunit, hscale⟩ := m.two_pow_shared
  have hscaled : 4 * (d.numerator * 2 ^ unitBits) =
      d.numerator * (4 * m.denominator) * 2 ^ min m.scale unitBits := by
    rw [← hunit, denominator]
    generalize 2 ^ (unitBits - m.scale) = below
    generalize 2 ^ min m.scale unitBits = shared
    ac_rfl
  have hend (k : Nat) : k * (d.denominator * 2 ^ m.scale) =
      k * 2 ^ (m.scale - unitBits) * d.denominator * 2 ^ min m.scale unitBits := by
    rw [← hscale]
    generalize 2 ^ (m.scale - unitBits) = above
    generalize 2 ^ min m.scale unitBits = shared
    ac_rfl
  have hcovers : m.Covers (d.numerator * 2 ^ unitBits) d.denominator ↔
      (m.lower * d.denominator ≤ d.numerator * (4 * m.denominator) ∧
        d.numerator * (4 * m.denominator) ≤ m.upper * d.denominator) ∧
      (m.mantissa % 2 = 1 → m.lower * d.denominator < d.numerator * (4 * m.denominator) ∧
        d.numerator * (4 * m.denominator) < m.upper * d.denominator) := by
    rw [covers_iff, hscaled, hend, hend, Nat.mul_le_mul_right_iff hshared,
      Nat.mul_le_mul_right_iff hshared, Nat.mul_lt_mul_right hshared, Nat.mul_lt_mul_right hshared]
    exact and_assoc.symm
  rw [hcovers]
  unfold admits
  dsimp only
  split
  · rename_i heven
    simp [heven]
  · rename_i hodd
    have hone : m.mantissa % 2 = 1 := by omega
    simp only [Bool.and_eq_true, decide_eq_true_eq, hone, forall_const]
    exact ⟨fun h => ⟨⟨Nat.le_of_lt h.1, Nat.le_of_lt h.2⟩, h⟩, fun h => h.2⟩

theorem gap_cases (m : Magnitude) :
    m.gap = 2 ∧ ¬(m.mantissa = 2 ^ fractionBits ∧ 0 < m.scale) ∨
      m.gap = 1 ∧ m.mantissa = 2 ^ fractionBits ∧ 0 < m.scale := by
  unfold gap
  split
  · rename_i h
    exact Or.inr ⟨rfl, h⟩
  · rename_i h
    exact Or.inl ⟨rfl, h⟩

section Rounded

variable {n d scale : Nat} (hm : m.Canonical) (hd : 0 < d)
  (hbelow : n < 2 ^ (fractionBits + 1) * (d * 2 ^ scale))
  (habove : scale = 0 ∨ 2 ^ fractionBits * (d * 2 ^ scale) ≤ n)
include hd hbelow habove

/-- A quotient below 54 bits is rounded to one that is not above them. -/
theorem divHalfEven_bounds : divHalfEven n (d * 2 ^ scale) ≤ 2 ^ (fractionBits + 1) ∧
    (scale = 0 ∨ 2 ^ fractionBits ≤ divHalfEven n (d * 2 ^ scale)) := by
  have hstep : 0 < d * 2 ^ scale := Nat.mul_pos hd (Nat.two_pow_pos scale)
  obtain ⟨hlower, hupper, -⟩ := (divHalfEven_eq_iff (n := n) hstep).mp rfl
  unfold fractionBits at *
  generalize divHalfEven n (d * 2 ^ scale) = k at hlower hupper ⊢
  generalize d * 2 ^ scale = step at hstep hbelow habove hlower hupper
  constructor
  · have hlt : 2 * k * step < (2 ^ 54 + 1) * step := by
      rw [Nat.mul_assoc, Nat.add_mul]
      omega
    have := Nat.lt_of_mul_lt_mul_right hlt
    omega
  · rcases habove with hzero | habove
    · exact Or.inl hzero
    · right
      have hle : 2 ^ 53 * step ≤ (2 * k + 1) * step := by
        rw [Nat.add_mul, Nat.mul_assoc]
        omega
      have := Nat.le_of_mul_le_mul_right hle hstep
      omega

include hm

/-- Bits that are equal tell scale and mantissa apart, except that a mantissa that has been rounded
up to 54 bits is the least one of the next scale. -/
theorem scale_of_rounded (h : toBits ⟨divHalfEven n (d * 2 ^ scale), scale⟩ = m.toBits) :
    scale = m.scale ∧ divHalfEven n (d * 2 ^ scale) = m.mantissa ∨
      m.scale = scale + 1 ∧ divHalfEven n (d * 2 ^ scale) = 2 ^ (fractionBits + 1) ∧
        m.mantissa = 2 ^ fractionBits := by
  obtain ⟨hle, hge⟩ := divHalfEven_bounds hd hbelow habove
  have hlt := hm.mantissa_lt
  have hleading := hm.leading
  unfold toBits at h
  unfold fractionBits at *
  dsimp only at h
  generalize divHalfEven n (d * 2 ^ scale) = k at h hle hge ⊢
  omega

/-- A number that rounds to `m` has the scale of `m`, unless it lies below and `m` is the least one
of its scale. -/
theorem scale_of_covers (h : m.Covers n d) :
    scale = m.scale ∨ m.scale = scale + 1 ∧ m.mantissa = 2 ^ fractionBits := by
  have hstep : 0 < d * 2 ^ scale := Nat.mul_pos hd (Nat.two_pow_pos scale)
  have hstep' : 0 < d * 2 ^ m.scale := Nat.mul_pos hd (Nat.two_pow_pos m.scale)
  have hlt := hm.mantissa_lt
  have hgap := m.gap_cases
  have hlower := h.lower
  have hupper := h.upper
  unfold fractionBits at *
  have hfiner {low high k : Nat} (hle : low + k ≤ high) :
      d * 2 ^ low * 2 ^ k ≤ d * 2 ^ high := by
    rw [Nat.mul_assoc, ← Nat.pow_add]
    exact Nat.mul_le_mul_left d (Nat.pow_le_pow_right (by decide) hle)
  rcases Nat.lt_trichotomy scale m.scale with hless | heq | hmore
  · right
    have hleading : 2 ^ 52 ≤ m.mantissa := hm.leading.resolve_left (by omega)
    have htwice := hfiner (k := 1) hless
    have hleast : m.mantissa = 2 ^ 52 := by
      by_contra hne
      have hall : (2 ^ 54 + 2) * (d * 2 ^ m.scale) ≤ (4 * m.mantissa - m.gap) * (d * 2 ^ m.scale) :=
        Nat.mul_le_mul_right _ (by omega)
      generalize (4 * m.mantissa - m.gap) * (d * 2 ^ m.scale) = low at *
      generalize d * 2 ^ m.scale = step' at *
      generalize d * 2 ^ scale = step at *
      omega
    refine ⟨?_, hleast⟩
    by_contra hne
    have htwo : scale + 2 ≤ m.scale := by omega
    have hfour := hfiner htwo
    have hall : (2 ^ 54 - 2) * (d * 2 ^ m.scale) ≤ (4 * m.mantissa - m.gap) * (d * 2 ^ m.scale) :=
      Nat.mul_le_mul_right _ (by omega)
    generalize (4 * m.mantissa - m.gap) * (d * 2 ^ m.scale) = low at *
    generalize d * 2 ^ m.scale = step' at *
    generalize d * 2 ^ scale = step at *
    omega
  · exact Or.inl heq
  · exfalso
    have htwice := hfiner (k := 1) hmore
    have hall : (4 * m.mantissa + 2) * (d * 2 ^ m.scale) ≤ (2 ^ 55 - 2) * (d * 2 ^ m.scale) :=
      Nat.mul_le_mul_right _ (by omega)
    generalize d * 2 ^ scale = step at *
    generalize d * 2 ^ m.scale = step' at *
    generalize (4 * m.mantissa + 2) * step' = high at *
    omega

/-- A quotient is rounded to the double that covers it, at the scale that leaves 53 bits of it, if
there are as many. -/
theorem rounded_iff_covers :
    toBits ⟨divHalfEven n (d * 2 ^ scale), scale⟩ = m.toBits ↔ m.Covers n d := by
  have hstep : 0 < d * 2 ^ scale := Nat.mul_pos hd (Nat.two_pow_pos scale)
  have hnext : d * 2 ^ (scale + 1) = 2 * (d * 2 ^ scale) := by
    rw [Nat.pow_succ, ← Nat.mul_assoc, Nat.mul_comm]
  have hgap := m.gap_cases
  constructor
  · intro h
    obtain ⟨hlower, hupper, hinner⟩ := (divHalfEven_eq_iff (n := n) hstep).mp rfl
    have hscale := scale_of_rounded hm hd hbelow habove h
    rw [covers_iff]
    unfold fractionBits at *
    rcases hscale with ⟨rfl, hk⟩ | ⟨hscale, hk, hleast⟩
    · rw [hk] at hlower hupper hinner
      rcases hgap with ⟨hgap, -⟩ | ⟨hgap, hleast, hscale⟩
      · have hodd : m.mantissa % 2 = 1 → d * 2 ^ m.scale ≤ m.mantissa * (d * 2 ^ m.scale) :=
          fun hodd => Nat.le_mul_of_pos_left _ (by omega)
        rw [hgap, Nat.sub_mul, Nat.add_mul, Nat.mul_assoc]
        generalize d * 2 ^ m.scale = step at *
        generalize m.mantissa * step = point at *
        omega
      · rw [hleast] at hlower hupper ⊢
        rw [hgap]
        generalize d * 2 ^ m.scale = step at *
        omega
    · have hone : m.gap = 1 := by omega
      rw [hk] at hlower
      rw [hscale, hleast, hone, hnext]
      generalize d * 2 ^ scale = step at *
      omega
  · intro h
    have hscale := scale_of_covers hm hd hbelow habove h
    obtain ⟨hlower, hupper, hinner⟩ := h
    unfold fractionBits at *
    rcases hscale with rfl | ⟨hscale, hleast⟩
    · have hk : divHalfEven n (d * 2 ^ m.scale) = m.mantissa := by
        rw [divHalfEven_eq_iff hstep]
        rw [Nat.sub_mul, Nat.add_mul, Nat.mul_assoc] at hinner
        rw [Nat.sub_mul, Nat.mul_assoc] at hlower
        rw [Nat.add_mul, Nat.mul_assoc] at hupper
        generalize d * 2 ^ m.scale = step at *
        generalize m.mantissa * step = point at *
        rcases hgap with ⟨hgap, -⟩ | ⟨hgap, -, -⟩
        · rw [hgap] at hlower hinner
          omega
        · rw [hgap] at hlower hinner
          omega
      rw [hk]
    · have hone : m.gap = 1 := by omega
      have hk : divHalfEven n (d * 2 ^ scale) = 2 ^ 53 := by
        rw [hscale, hleast, hone, hnext] at hlower
        rw [divHalfEven_eq_iff hstep]
        generalize d * 2 ^ scale = step at *
        omega
      rw [hk]
      unfold toBits fractionBits
      dsimp only
      omega

end Rounded

end Magnitude

namespace Decimal

open Magnitude

theorem denominator_pos (d : Decimal) : 0 < d.denominator :=
  Nat.pow_pos (by decide)

/-- The scale that is chosen leaves 53 bits of the quotient, if there are as many. -/
theorem scale_bounds {n d : Nat} (hd : 0 < d) :
    n < 2 ^ (fractionBits + 1) * (d * 2 ^ ((n / d).log2 - fractionBits)) ∧
      ((n / d).log2 - fractionBits = 0 ∨
        2 ^ fractionBits * (d * 2 ^ ((n / d).log2 - fractionBits)) ≤ n) := by
  have hlt : n / d < 2 ^ 53 * 2 ^ ((n / d).log2 - fractionBits) := by
    refine Nat.lt_of_lt_of_le Nat.lt_log2_self ?_
    rw [← Nat.pow_add]
    apply Nat.pow_le_pow_right (by decide)
    unfold fractionBits
    omega
  constructor
  · rw [Nat.div_lt_iff_lt_mul hd] at hlt
    rwa [Nat.mul_comm d, ← Nat.mul_assoc]
  · by_cases hlow : (n / d).log2 - fractionBits = 0
    · exact Or.inl hlow
    · right
      have hne : n / d ≠ 0 := by
        intro hzero
        rw [hzero] at hlow
        exact hlow rfl
      have hle : 2 ^ 52 * 2 ^ ((n / d).log2 - fractionBits) ≤ n / d := by
        refine Nat.le_trans ?_ (Nat.log2_self_le hne)
        rw [← Nat.pow_add]
        apply Nat.pow_le_pow_right (by decide)
        unfold fractionBits at hlow ⊢
        omega
      rw [Nat.le_div_iff_mul_le hd] at hle
      rwa [Nat.mul_comm d, ← Nat.mul_assoc]

/-- A decimal is read as a finite double exactly if it is one of the numbers that round to it. -/
theorem nearestBits_eq_iff {m : Magnitude} {d : Decimal} (hm : m.Canonical)
    (hfinite : m.toBits < infinityBits) : d.nearestBits = m.toBits ↔ m.admits d = true := by
  obtain ⟨hbelow, habove⟩ := @scale_bounds (d.numerator * 2 ^ unitBits) _ d.denominator_pos
  rw [admits_iff, ← rounded_iff_covers hm d.denominator_pos hbelow habove]
  unfold nearestBits
  dsimp only
  omega

/-- Only the quotient matters. -/
theorem nearestBits_congr {d d' : Decimal} (hnumerator : d.numerator = d'.numerator)
    (hdenominator : d.denominator = d'.denominator) : d.nearestBits = d'.nearestBits := by
  unfold nearestBits
  rw [hnumerator, hdenominator]

end Decimal

end StackScript
