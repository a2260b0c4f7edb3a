import StackScript.Proofs.Number.Rounding

/-!
The search for the shortest decimal. What it finds rounds to the double it was asked for, and no
coarser grid has a point that does.
-/

namespace StackScript.Magnitude

variable {m : Magnitude} {d : Decimal}

/-- A double rounds to itself. -/
theorem covers_self (m : Magnitude) {d : Nat} (hd : 0 < d) :
    m.Covers (m.mantissa * (d * 2 ^ m.scale)) d := by
  have hstep : 0 < d * 2 ^ m.scale := Nat.mul_pos hd (Nat.two_pow_pos _)
  have hgap := m.gap_cases
  rw [covers_iff, ← Nat.mul_assoc 4]
  generalize d * 2 ^ m.scale = step at *
  refine ⟨Nat.mul_le_mul_right _ (Nat.sub_le _ _), Nat.mul_le_mul_right _ (Nat.le_add_right _ _),
    ?_⟩
  intro hodd
  constructor
  · exact Nat.mul_lt_mul_of_pos_right (by omega) hstep
  · exact Nat.mul_lt_mul_of_pos_right (by omega) hstep

theorem admits_exact (m : Magnitude) : m.admits m.exact = true := by
  have hdenominator : m.exact.denominator = 5 ^ unitBits * 2 ^ unitBits :=
    Nat.mul_pow 5 2 unitBits
  have hsteps : m.exact.numerator * 2 ^ unitBits =
      m.mantissa * (m.exact.denominator * 2 ^ m.scale) := by
    have hnumerator : m.exact.numerator = m.mantissa * 2 ^ m.scale * 5 ^ unitBits :=
      Nat.mul_one _
    rw [hnumerator, hdenominator]
    generalize 2 ^ unitBits = twos
    generalize 5 ^ unitBits = fives
    ac_rfl
  rw [admits_iff, hsteps]
  exact m.covers_self m.exact.denominator_pos

/-- Only the quotient matters. -/
theorem covers_mul_iff {n d k : Nat} (hk : 0 < k) : m.Covers (n * k) (d * k) ↔ m.Covers n d := by
  have hpoint : 4 * (n * k) = 4 * n * k := (Nat.mul_assoc 4 n k).symm
  have hend (e : Nat) : e * (d * k * 2 ^ m.scale) = e * (d * 2 ^ m.scale) * k := by
    generalize 2 ^ m.scale = step
    ac_rfl
  rw [covers_iff, covers_iff, hpoint, hend, hend, Nat.mul_le_mul_right_iff hk,
    Nat.mul_le_mul_right_iff hk, Nat.mul_lt_mul_right hk, Nat.mul_lt_mul_right hk]

/-- What lies between two numbers that round to the same double does so as well. -/
theorem Covers.between {low n high d : Nat} (hlow : m.Covers low d) (hhigh : m.Covers high d)
    (hle : low ≤ n) (hge : n ≤ high) : m.Covers n d := by
  have hle : 4 * low ≤ 4 * n := Nat.mul_le_mul_left 4 hle
  have hge : 4 * n ≤ 4 * high := Nat.mul_le_mul_left 4 hge
  refine ⟨Nat.le_trans hlow.lower hle, Nat.le_trans hge hhigh.upper, fun hodd => ⟨?_, ?_⟩⟩
  · exact Nat.lt_of_lt_of_le (hlow.inner hodd).1 hle
  · exact Nat.lt_of_le_of_lt hge (hhigh.inner hodd).2

section Grid

variable {exponent : Int} {point : Nat}

/-- The distance of two points of a grid, in steps over its denominator. -/
def pitch (exponent : Int) : Nat :=
  10 ^ exponent.toNat * 2 ^ unitBits

/-- The double, in steps over the denominator of a grid. -/
def onScale (m : Magnitude) (exponent : Int) : Nat :=
  m.mantissa * (10 ^ (-exponent).toNat * 2 ^ m.scale)

/-- The point of a grid at or below the double. -/
def floorOn (m : Magnitude) (exponent : Int) : Nat :=
  m.numerator * 10 ^ (-exponent).toNat / (m.denominator * 10 ^ exponent.toNat)

/-- The double lies in the lower half of the distance. -/
def NearFloor (m : Magnitude) (exponent : Int) : Prop :=
  2 * (m.numerator * 10 ^ (-exponent).toNat % (m.denominator * 10 ^ exponent.toNat)) <
    m.denominator * 10 ^ exponent.toNat

theorem admits_point_iff : m.admits ⟨point, exponent⟩ = true ↔
    m.Covers (point * pitch exponent) (10 ^ (-exponent).toNat) := by
  rw [admits_iff, pitch, ← Nat.mul_assoc]
  rfl

theorem covers_onScale (m : Magnitude) (exponent : Int) :
    m.Covers (m.onScale exponent) (10 ^ (-exponent).toNat) :=
  m.covers_self (Nat.pow_pos (by decide))

/-- The double among the points of a grid, and how far it is behind the one below it. -/
theorem floorOn_spec (m : Magnitude) (exponent : Int) : ∃ rest,
    rest < pitch exponent ∧ m.onScale exponent = m.floorOn exponent * pitch exponent + rest ∧
      (m.NearFloor exponent ↔ 2 * rest < pitch exponent) := by
  have hshared : 0 < 2 ^ min m.scale unitBits := Nat.two_pow_pos _
  obtain ⟨hunit, hscale⟩ := m.two_pow_shared
  have hpitch : pitch exponent =
      m.denominator * 10 ^ exponent.toNat * 2 ^ min m.scale unitBits := by
    rw [pitch, ← hunit, denominator]
    generalize 2 ^ min m.scale unitBits = shared
    generalize 2 ^ (unitBits - m.scale) = below
    ac_rfl
  have hdouble : m.onScale exponent =
      m.numerator * 10 ^ (-exponent).toNat * 2 ^ min m.scale unitBits := by
    rw [onScale, ← hscale, numerator]
    generalize 2 ^ min m.scale unitBits = shared
    generalize 2 ^ (m.scale - unitBits) = above
    ac_rfl
  have hdivisor : 0 < m.denominator * 10 ^ exponent.toNat :=
    Nat.mul_pos (Nat.two_pow_pos _) (Nat.pow_pos (by decide))
  rw [hpitch, hdouble, floorOn, NearFloor]
  generalize m.numerator * 10 ^ (-exponent).toNat = dividend
  generalize m.denominator * 10 ^ exponent.toNat = divisor at hdivisor
  generalize 2 ^ min m.scale unitBits = shared at hshared
  refine ⟨dividend % divisor * shared, ?_, ?_, ?_⟩
  · exact Nat.mul_lt_mul_of_pos_right (Nat.mod_lt _ hdivisor) hshared
  · rw [← Nat.mul_assoc, ← Nat.add_mul, Nat.mul_comm _ divisor, Nat.div_add_mod]
  · rw [← Nat.mul_assoc, Nat.mul_lt_mul_right hshared]

/-- If any point of a grid rounds to the double, one of the two around the double does. -/
theorem admits_around (h : m.admits ⟨point, exponent⟩ = true) :
    point ≤ m.floorOn exponent ∧ m.admits ⟨m.floorOn exponent, exponent⟩ = true ∨
      m.floorOn exponent + 1 ≤ point ∧ m.admits ⟨m.floorOn exponent + 1, exponent⟩ = true := by
  obtain ⟨rest, hrest, hdouble, -⟩ := m.floorOn_spec exponent
  have hself := m.covers_onScale exponent
  rw [hdouble] at hself
  rw [admits_point_iff] at h
  rw [admits_point_iff, admits_point_iff]
  rcases Nat.lt_or_ge (m.floorOn exponent) point with habove | hbelow
  · have hnext := Nat.mul_le_mul_right (pitch exponent) habove
    refine Or.inr ⟨habove, hself.between h ?_ hnext⟩
    rw [Nat.succ_mul]
    omega
  · have hprevious := Nat.mul_le_mul_right (pitch exponent) hbelow
    exact Or.inl ⟨hbelow, h.between hself hprevious (Nat.le_add_right _ _)⟩

/-- A grid without a result has no point that rounds to the double. -/
theorem not_admits_of_onGrid (h : m.onGrid exponent = none) (point : Nat) :
    m.admits ⟨point, exponent⟩ = false := by
  have hneither : m.admits ⟨m.floorOn exponent, exponent⟩ = false ∧
      m.admits ⟨m.floorOn exponent + 1, exponent⟩ = false := by
    unfold onGrid at h
    dsimp only at h
    split at h
    · cases h
    · cases h
    · cases h
    · rename_i hbelow habove
      exact ⟨hbelow, habove⟩
  rw [Bool.eq_false_iff]
  intro hpoint
  rcases admits_around hpoint with ⟨-, hbelow⟩ | ⟨-, habove⟩
  · exact Bool.eq_false_iff.mp hneither.1 hbelow
  · exact Bool.eq_false_iff.mp hneither.2 habove

/-- The result of a grid is one of the two points around the double, the nearer one if both would
do. -/
theorem onGrid_cases (h : m.onGrid exponent = some d) : d.exponent = exponent ∧
    m.admits d = true ∧
    (d.coefficient = m.floorOn exponent ∧
        (m.admits ⟨m.floorOn exponent + 1, exponent⟩ = true → m.NearFloor exponent) ∨
      d.coefficient = m.floorOn exponent + 1 ∧
        (m.admits ⟨m.floorOn exponent, exponent⟩ = true → ¬m.NearFloor exponent)) := by
  unfold onGrid at h
  dsimp only at h
  split at h
  · rename_i hbelow habove
    obtain rfl := Option.some.inj h
    split
    · rename_i hnear
      exact ⟨rfl, hbelow, Or.inl ⟨rfl, fun _ => hnear⟩⟩
    · rename_i hfar
      exact ⟨rfl, habove, Or.inr ⟨rfl, fun _ => hfar⟩⟩
  · rename_i hbelow habove
    obtain rfl := Option.some.inj h
    refine ⟨rfl, hbelow, Or.inl ⟨rfl, fun hadmits => ?_⟩⟩
    exact absurd hadmits (Bool.eq_false_iff.mp habove)
  · rename_i hbelow habove
    obtain rfl := Option.some.inj h
    refine ⟨rfl, habove, Or.inr ⟨rfl, fun hadmits => ?_⟩⟩
    exact absurd hadmits (Bool.eq_false_iff.mp hbelow)
  · cases h

/-- The distance of a decimal from the double, in steps over the denominator of its grid. -/
def offset (m : Magnitude) (d : Decimal) : Nat :=
  (((d.coefficient * pitch d.exponent : Nat) : Int) - (m.onScale d.exponent : Nat)).natAbs

/-- No point of a grid that rounds to the double is nearer than the result of the grid. -/
theorem offset_le_of_onGrid (h : m.onGrid exponent = some d)
    (hpoint : m.admits ⟨point, exponent⟩ = true) : m.offset d ≤ m.offset ⟨point, exponent⟩ := by
  obtain ⟨rest, hrest, hdouble, hhalf⟩ := m.floorOn_spec exponent
  obtain ⟨rfl, -, hresult⟩ := onGrid_cases h
  have haround := admits_around hpoint
  unfold offset
  dsimp only
  rw [hdouble]
  generalize m.floorOn d.exponent = floor at *
  generalize pitch d.exponent = step at *
  have hnext : (floor + 1) * step = floor * step + step := Nat.succ_mul floor step
  rcases haround with ⟨hle, hbelow⟩ | ⟨hge, habove⟩
  · have hmul := Nat.mul_le_mul_right step hle
    rcases hresult with ⟨hcoefficient, -⟩ | ⟨hcoefficient, hfar⟩
    · rw [hcoefficient]
      omega
    · have hfar := mt hhalf.mpr (hfar hbelow)
      rw [hcoefficient, hnext]
      omega
  · have hmul := Nat.mul_le_mul_right step hge
    rw [hnext] at hmul
    rcases hresult with ⟨hcoefficient, hnear⟩ | ⟨hcoefficient, -⟩
    · have hnear := hhalf.mp (hnear habove)
      rw [hcoefficient]
      omega
    · rw [hcoefficient, hnext]
      omega

theorem pitch_add (exponent : Int) (k : Nat) : pitch (exponent + k) * 10 ^ (-exponent).toNat =
    10 ^ k * pitch exponent * 10 ^ (-(exponent + k)).toNat := by
  have hpowers : 10 ^ (exponent + k).toNat * 10 ^ (-exponent).toNat =
      10 ^ k * 10 ^ exponent.toNat * 10 ^ (-(exponent + k)).toNat := by
    rw [← Nat.pow_add, ← Nat.pow_add, ← Nat.pow_add]
    congr 1
    omega
  unfold pitch
  rw [Nat.mul_right_comm, hpowers, ← Nat.mul_assoc, Nat.mul_right_comm]

/-- The same decimal on a finer grid. -/
theorem admits_add (m : Magnitude) (point : Nat) (exponent : Int) (k : Nat) :
    m.admits ⟨point, exponent + k⟩ = m.admits ⟨point * 10 ^ k, exponent⟩ := by
  have hfine : 0 < 10 ^ (-exponent).toNat := Nat.pow_pos (by decide)
  have hcoarse : 0 < 10 ^ (-(exponent + k)).toNat := Nat.pow_pos (by decide)
  have hpoint : point * pitch (exponent + k) * 10 ^ (-exponent).toNat =
      point * 10 ^ k * pitch exponent * 10 ^ (-(exponent + k)).toNat := by
    rw [Nat.mul_assoc, pitch_add, ← Nat.mul_assoc, ← Nat.mul_assoc]
  rw [Bool.eq_iff_iff, admits_point_iff, admits_point_iff, ← covers_mul_iff hfine, hpoint,
    Nat.mul_comm (10 ^ (-(exponent + k)).toNat), covers_mul_iff hcoarse]

end Grid

section Search

/-- An exponent of ten above so many powers of two. -/
def tenAbove (width : Nat) : Int :=
  ((width : Nat) - (unitBits : Int)) * 30103 / 100000 + 1

/-- Among the widths of doubles, the estimate of the logarithm is right. -/
theorem tenAbove_bounds : ∀ width < 2099,
    2 ^ width * 10 ^ (-tenAbove width).toNat ≤ pitch (tenAbove width) ∧
      pitch (tenAbove width) ≤ 11 * (2 ^ width * 10 ^ (-tenAbove width).toNat) := by
  decide +kernel

theorem admits_refine (tries : Nat) (exponent : Int) :
    m.admits (m.refine tries exponent) = true := by
  induction tries generalizing exponent with
  | zero => exact m.admits_exact
  | succ tries ih =>
      unfold refine
      split
      · rename_i h
        exact (onGrid_cases h).2.1
      · exact ih (exponent - 1)

theorem admits_shortest (m : Magnitude) : m.admits m.shortest = true := by
  unfold shortest
  split
  · rename_i hzero
    unfold admits
    simp [hzero, lower, Decimal.numerator]
  · exact admits_refine _ _

/-- The search comes to the coarsest grid that has a result. -/
theorem exists_onGrid_refine {tries k : Nat} {exponent : Int} (hk : k < tries)
    (h : m.onGrid (exponent - k) ≠ none) : ∃ i : Nat,
      m.onGrid (exponent - i) = some (m.refine tries exponent) ∧
        ∀ j : Nat, j < i → m.onGrid (exponent - j) = none := by
  induction tries generalizing exponent k with
  | zero => exact absurd hk (Nat.not_lt_zero k)
  | succ tries ih =>
      have hstart : exponent - (0 : Nat) = exponent := Int.sub_zero exponent
      have hnext (j : Nat) : exponent - 1 - (j : Nat) = exponent - (j + 1 : Nat) := by
        omega
      unfold refine
      cases hgrid : m.onGrid exponent with
      | some d =>
          refine ⟨0, ?_, fun j hj => absurd hj (Nat.not_lt_zero j)⟩
          rw [hstart, hgrid]
      | none =>
          cases k with
          | zero =>
              rw [hstart] at h
              exact absurd hgrid h
          | succ k =>
              rw [← hnext] at h
              obtain ⟨i, hresult, hcoarser⟩ := ih (Nat.lt_of_succ_lt_succ hk) h
              rw [hnext] at hresult
              refine ⟨i + 1, hresult, fun j hj => ?_⟩
              cases j with
              | zero => rw [hstart, hgrid]
              | succ j =>
                  rw [← hnext]
                  exact hcoarser j (Nat.lt_of_succ_lt_succ hj)

variable (hm : m.Canonical) (hfinite : m.toBits < infinityBits) (hne : m.mantissa ≠ 0)
include hm hfinite

/-- The shortest decimal is read as the double. -/
theorem nearestBits_shortest : m.shortest.nearestBits = m.toBits :=
  (Decimal.nearestBits_eq_iff hm hfinite).mpr m.admits_shortest

theorem width_lt : m.mantissa.log2 + m.scale + 1 < 2099 := by
  have hlt := hm.mantissa_lt
  have hleading := hm.leading
  have hlog : m.mantissa.log2 < 53 := by
    by_cases hzero : m.mantissa = 0
    · rw [hzero]
      decide
    · exact (Nat.log2_lt hzero).mpr hlt
  unfold toBits infinityBits fractionBits at *
  omega

/-- The width of the double against the distance of the points on the first grid, and on a grid
eighteen further down. -/
theorem leading_bounds (hne : m.mantissa ≠ 0) {exponent : Int}
    (hstart : m.leadingExponent = exponent + (18 : Nat)) :
    (m.mantissa + 1) * (10 ^ (-m.leadingExponent).toNat * 2 ^ m.scale) ≤ pitch m.leadingExponent ∧
      10 * pitch exponent ≤ 10 ^ (-exponent).toNat * 2 ^ m.scale := by
  obtain ⟨habove, hnot⟩ := tenAbove_bounds _ (width_lt hm hfinite)
  change 2 ^ _ * 10 ^ (-m.leadingExponent).toNat ≤ pitch m.leadingExponent at habove
  change pitch m.leadingExponent ≤ 11 * (2 ^ _ * 10 ^ (-m.leadingExponent).toNat) at hnot
  have hwidth : 2 ^ (m.mantissa.log2 + m.scale + 1) = 2 ^ (m.mantissa.log2 + 1) * 2 ^ m.scale := by
    rw [← Nat.pow_add]
    congr 1
    omega
  have hmost : 2 ^ (m.mantissa.log2 + 1) ≤ 2 ^ (fractionBits + 1) :=
    Nat.pow_le_pow_right (by decide) ((Nat.log2_lt hne).mpr hm.mantissa_lt)
  have hleast : m.mantissa + 1 ≤ 2 ^ (m.mantissa.log2 + 1) := Nat.lt_log2_self
  have hpitch := pitch_add exponent 18
  rw [← hstart] at hpitch
  rw [hwidth] at habove hnot
  have hcoarse : 0 < 10 ^ (-m.leadingExponent).toNat := Nat.pow_pos (by decide)
  generalize pitch m.leadingExponent = coarse at *
  generalize pitch exponent = fine at *
  generalize 10 ^ (-m.leadingExponent).toNat = scale at *
  generalize 10 ^ (-exponent).toNat = scale' at *
  generalize 2 ^ (m.mantissa.log2 + 1) = width at *
  generalize 2 ^ m.scale = step at *
  constructor
  · calc
      (m.mantissa + 1) * (scale * step) ≤ width * (scale * step) := Nat.mul_le_mul_right _ hleast
      _ = width * step * scale := by ac_rfl
      _ ≤ coarse := habove
  · have hwidest : width * step * scale ≤ 2 ^ (fractionBits + 1) * step * scale :=
      Nat.mul_le_mul_right scale (Nat.mul_le_mul_right step hmost)
    have hcoarsest : coarse ≤ 11 * (2 ^ (fractionBits + 1) * step * scale) :=
      Nat.le_trans hnot (Nat.mul_le_mul_left 11 hwidest)
    have hscaled : 10 ^ 18 * fine * scale ≤
        11 * (2 ^ (fractionBits + 1) * (scale' * step)) * scale := by
      calc
        10 ^ 18 * fine * scale = coarse * scale' := hpitch.symm
        _ ≤ 11 * (2 ^ (fractionBits + 1) * step * scale) * scale' :=
          Nat.mul_le_mul_right scale' hcoarsest
        _ = 11 * (2 ^ (fractionBits + 1) * (scale' * step)) * scale := by ac_rfl
    have hfine := Nat.le_of_mul_le_mul_right hscaled hcoarse
    unfold fractionBits at hfine
    generalize scale' * step = whole at *
    omega

include hne

/-- Nothing on the first grid rounds to the double: zero lies below, and all else above. -/
theorem not_admits_leading (point : Nat) : m.admits ⟨point, m.leadingExponent⟩ = false := by
  have hstart : m.leadingExponent = m.leadingExponent - 18 + (18 : Nat) := by omega
  obtain ⟨habove, -⟩ := leading_bounds hm hfinite hne hstart
  have hstep : 0 < 10 ^ (-m.leadingExponent).toNat * 2 ^ m.scale :=
    Nat.mul_pos (Nat.pow_pos (by decide)) (Nat.two_pow_pos _)
  have hgap := m.gap_cases
  rw [Bool.eq_false_iff]
  intro hpoint
  obtain ⟨hlower, hupper, -⟩ := admits_point_iff.mp hpoint
  generalize pitch m.leadingExponent = coarse at *
  generalize 10 ^ (-m.leadingExponent).toNat * 2 ^ m.scale = step at *
  rw [Nat.add_mul] at habove
  rw [Nat.add_mul, Nat.mul_assoc] at hupper
  cases point with
  | zero =>
      have hsome : 1 * step ≤ (4 * m.mantissa - m.gap) * step :=
        Nat.mul_le_mul_right step (by omega)
      omega
  | succ point =>
      have hsome : coarse ≤ (point + 1) * coarse := Nat.le_mul_of_pos_left coarse point.succ_pos
      generalize (point + 1) * coarse = position at *
      generalize m.mantissa * step = double at *
      omega

/-- Eighteen grids further down, the point above the double rounds to it. -/
theorem admits_fine {exponent : Int} (hstart : m.leadingExponent = exponent + (18 : Nat)) :
    m.admits ⟨m.floorOn exponent + 1, exponent⟩ = true := by
  obtain ⟨-, hnarrow⟩ := leading_bounds hm hfinite hne hstart
  obtain ⟨rest, hrest, hdouble, -⟩ := m.floorOn_spec exponent
  have hgap := m.gap_cases
  rw [admits_point_iff, covers_iff]
  unfold onScale at hdouble
  generalize pitch exponent = fine at *
  generalize 10 ^ (-exponent).toNat * 2 ^ m.scale = step at *
  have hnext : (m.floorOn exponent + 1) * fine = m.floorOn exponent * fine + fine :=
    Nat.succ_mul _ _
  rw [Nat.sub_mul, Nat.add_mul (4 * m.mantissa), Nat.mul_assoc 4, hdouble, hnext]
  generalize m.floorOn exponent * fine = position
  rcases hgap with ⟨hgap, -⟩ | ⟨hgap, -⟩
  · rw [hgap]
    omega
  · rw [hgap]
    omega

/-- What the search finds is the result of its grid, and no coarser grid has a point that rounds to
the double. -/
theorem shortest_coarsest : m.onGrid m.shortest.exponent = some m.shortest ∧
    ∀ d : Decimal, m.admits d = true → d.exponent ≤ m.shortest.exponent := by
  have hstart : m.leadingExponent = m.leadingExponent - (18 : Nat) + (18 : Nat) := by omega
  have hfound : m.onGrid (m.leadingExponent - (18 : Nat)) ≠ none := by
    intro hnone
    have hfine := admits_fine hm hfinite hne hstart
    rw [not_admits_of_onGrid hnone] at hfine
    cases hfine
  have hshortest : m.shortest = m.refine 20 m.leadingExponent := by
    rw [shortest, if_neg hne]
  obtain ⟨i, hresult, hcoarser⟩ := exists_onGrid_refine (by decide : 18 < 20) hfound
  rw [← hshortest] at hresult
  have hexponent := (onGrid_cases hresult).1
  rw [hexponent]
  refine ⟨hresult, fun d hd => ?_⟩
  obtain ⟨coefficient, exponent⟩ := d
  dsimp only
  apply Int.le_of_not_gt
  intro hcoarse
  have hnone : ∀ point, m.admits ⟨point, exponent⟩ = false := by
    rcases Int.lt_or_le exponent m.leadingExponent with hbelow | habove
    · obtain ⟨j, rfl⟩ : ∃ j : Nat, exponent = m.leadingExponent - j :=
        ⟨(m.leadingExponent - exponent).toNat, by omega⟩
      exact not_admits_of_onGrid (hcoarser j (by omega))
    · obtain ⟨k, rfl⟩ := Int.le.dest habove
      intro point
      rw [admits_add]
      exact not_admits_leading hm hfinite hne _
  rw [hnone] at hd
  cases hd

/-- Nor does one with fewer digits. -/
theorem length_shortest_le (h : m.admits d = true) :
    (Nat.toDigits 10 m.shortest.coefficient).length ≤ (Nat.toDigits 10 d.coefficient).length := by
  obtain ⟨coefficient, exponent⟩ := d
  obtain ⟨-, hcoarsest⟩ := shortest_coarsest hm hfinite hne
  obtain ⟨k, hk⟩ := Int.le.dest (hcoarsest _ h)
  dsimp only at hk ⊢
  have hpos : 0 < (Nat.toDigits 10 coefficient).length :=
    List.length_pos_iff.mpr Nat.toDigits_ne_nil
  generalize hn : (Nat.toDigits 10 coefficient).length = n at *
  have hlow : coefficient < 10 ^ n :=
    (Nat.length_toDigits_le_iff (by decide) hpos).mp (Nat.le_of_eq hn)
  rw [Nat.length_toDigits_le_iff (by decide) hpos]
  apply Nat.lt_of_not_le
  intro hhigh
  -- A power of ten lies between the two decimals, and so rounds to the double as well.
  have hshortest : m.admits ⟨m.shortest.coefficient * 10 ^ k, exponent⟩ = true := by
    rw [← admits_add, hk]
    exact m.admits_shortest
  have hpower : m.admits ⟨1, exponent + k + n⟩ = true := by
    rw [admits_add, admits_add, Nat.one_mul, admits_point_iff]
    refine (admits_point_iff.mp h).between (admits_point_iff.mp hshortest) ?_ ?_
    · refine Nat.mul_le_mul_right _ (Nat.le_trans (Nat.le_of_lt hlow) ?_)
      exact Nat.le_mul_of_pos_right _ (Nat.pow_pos (by decide))
    · exact Nat.mul_le_mul_right _ (Nat.mul_le_mul_right _ hhigh)
  have := hcoarsest _ hpower
  dsimp only at this
  omega

/-- Of all decimals that are read as the double, the shortest one stands on the coarsest grid, has
the fewest digits, and is the nearest of its grid. -/
theorem shortest_least {d : Decimal} (h : d.nearestBits = m.toBits) :
    d.exponent ≤ m.shortest.exponent ∧
      (Nat.toDigits 10 m.shortest.coefficient).length ≤ (Nat.toDigits 10 d.coefficient).length ∧
      (d.exponent = m.shortest.exponent → m.offset m.shortest ≤ m.offset d) := by
  have hadmits := (Decimal.nearestBits_eq_iff hm hfinite).mp h
  obtain ⟨hresult, hcoarsest⟩ := shortest_coarsest hm hfinite hne
  refine ⟨hcoarsest d hadmits, length_shortest_le hm hfinite hne hadmits, fun hgrid => ?_⟩
  rw [← hgrid] at hresult
  exact offset_le_of_onGrid hresult hadmits

end Search

end StackScript.Magnitude
