import LowPrecision.Proofs.Quantization.RoundTrip

/-!
How closely values are represented, over exact numbers. A value and the one that stands for it on the grid
of a scale and a zero point are at most half a step apart, and so are the ends of an interval around 0
and the ends of the grid that it is mapped onto.
-/

namespace LowPrecision

namespace ScaleZeroPoint

variable {p : ScaleZeroPoint Rat} {low high : Rat} {a : Int} {n : Nat}

theorem quantize_rat (p : ScaleZeroPoint Rat) (x : Rat) :
    p.quantize x = roundHalfAway (x / p.scale + p.zeroPoint) := rfl

theorem dequantize_rat (p : ScaleZeroPoint Rat) (q : Rat) :
    p.dequantize q = (q - p.zeroPoint) * p.scale := rfl

theorem dequantize_zeroPoint (p : ScaleZeroPoint Rat) : p.dequantize p.zeroPoint = 0 := by
  rw [dequantize_rat, sub_self, zero_mul]

theorem quantize_dequantize (hs : p.scale ≠ 0) (q : Int) : p.quantize (p.dequantize q) = q := by
  rw [quantize_rat, dequantize_rat, mul_div_cancel_right₀ _ hs, sub_add_cancel, roundHalfAway_intCast]

theorem abs_dequantize_quantize_sub_le (hs : 0 < p.scale) (x : Rat) :
    |p.dequantize (p.quantize x) - x| ≤ p.scale / 2 := by
  have hsteps : p.dequantize (p.quantize x) - x =
      (roundHalfAway (x / p.scale + p.zeroPoint) - (x / p.scale + p.zeroPoint)) * p.scale := by
    rw [dequantize_rat, quantize_rat]
    field_simp
    ring
  have hround := abs_roundHalfAway_sub_le (x / p.scale + p.zeroPoint)
  rw [hsteps, abs_mul, abs_of_pos hs]
  linarith [mul_le_mul_of_nonneg_right hround hs.le]

theorem steps_of_around (hn : 1 ≤ n) (hlow : low ≤ 0) (hhigh : 0 ≤ high) (hlt : low < high) :
    -(n : Rat) ≤ low / ((high - low) / n) ∧ low / ((high - low) / n) ≤ 0 := by
  have hn' : (0 : Rat) < n := by exact_mod_cast hn
  have hs : 0 < (high - low) / n := div_pos (by linarith) hn'
  have hlength : -(n : Rat) * ((high - low) / n) = low - high := by
    field_simp
    ring
  refine ⟨(le_div_iff₀ hs).mpr ?_, div_nonpos_of_nonpos_of_nonneg hlow hs.le⟩
  rw [hlength]
  linarith

theorem abs_shift_le {t : Rat} (hlow : -(n : Rat) ≤ t) (hhigh : t ≤ 0) : |shift a n t| ≤ 1 / 2 := by
  rcases shift_cases (a := a) (t := t) (Int.natCast_nonneg n) with ⟨-, -, hhalf⟩ | ⟨hpos, -⟩ | ⟨hneg, -⟩
  · exact hhalf
  · exact absurd hhigh (not_le.mpr hpos)
  · exact absurd hlow (not_le.mpr (by exact_mod_cast hneg))

/-- What the values of an interval, the whole numbers from `qLow` to `qHigh` and 0 become on the way to
the grid or back. -/
structure Resolves (p : ScaleZeroPoint Rat) (low high : Rat) (qLow qHigh : Int) : Prop where
  proper : p.degenerate = false
  origin : p.dequantize p.zeroPoint = 0
  first : |p.dequantize qLow - low| ≤ p.scale / 2
  last : |p.dequantize qHigh - high| ≤ p.scale / 2
  whole (q : Int) : p.quantize (p.dequantize q) = q
  nearest (x : Rat) : |p.dequantize (p.quantize x) - x| ≤ p.scale / 2

theorem resolves_of_around (hn : 1 ≤ n) (hlow : low ≤ 0) (hhigh : 0 ≤ high) (hlt : low < high)
    (hp : ofInterval low high (a : Rat) ((a + n : Int) : Rat) = .ok p) : p.Resolves low high a (a + n) := by
  have hn' : (0 : Rat) < n := by exact_mod_cast hn
  have hs : 0 < (high - low) / n := div_pos (by linarith) hn'
  rw [ofInterval_rat low high a hn, Except.ok.injEq, stepOf, if_neg hlt.ne] at hp
  obtain ⟨hbelow, habove⟩ := steps_of_around hn hlow hhigh hlt
  -- 0 is within the grid, so that the rounding of the zero point is all that the ends are off by.
  have hshift : |shift a n (low / ((high - low) / n))| ≤ 1 / 2 := abs_shift_le hbelow habove
  have hstart : ((a : Rat) - p.zeroPoint) * p.scale - low =
      -shift a n (low / ((high - low) / n)) * ((high - low) / n) := by
    rw [← hp, shift]
    linear_combination div_mul_cancel₀ low hs.ne'
  have hend : (((a + n : Int) : Rat) - p.zeroPoint) * p.scale - high = (a - p.zeroPoint) * p.scale - low := by
    have hlength : (n : Rat) * p.scale = high - low := by
      rw [← hp]
      exact mul_div_cancel₀ _ hn'.ne'
    push_cast
    linear_combination hlength
  have hscale : p.scale = (high - low) / n := by rw [← hp]
  have hfirst : |((a : Rat) - p.zeroPoint) * p.scale - low| ≤ p.scale / 2 := by
    rw [hstart, abs_mul, abs_neg, abs_of_pos hs, hscale]
    linarith [mul_le_mul_of_nonneg_right hshift hs.le]
  refine ⟨?_, p.dequantize_zeroPoint, hfirst, ?_, quantize_dequantize (hscale ▸ hs.ne'),
    abs_dequantize_quantize_sub_le (hscale ▸ hs)⟩
  · rw [← hp]
    exact decide_eq_false hs.ne'
  · rw [dequantize_rat, hend]
    exact hfirst

end ScaleZeroPoint

/-- A scale and a zero point represent an interval around 0 with an error of at most half a step. For every
interval the zero point is a whole number of the grid, and the scale is 1 when there is no length to divide. -/
theorem ofInterval_resolves {qLow qHigh : Int} (hq : qLow < qHigh) (low high : Rat) :
    ∃ p : ScaleZeroPoint Rat, ScaleZeroPoint.ofInterval low high (qLow : Rat) qHigh = .ok p ∧
      (∃ z : Int, p.zeroPoint = z ∧ qLow ≤ z ∧ z ≤ qHigh) ∧
      (p.degenerate = true ↔ high = low) ∧ (p.degenerate = true → p.scale = 1) ∧
      (low ≤ 0 → 0 ≤ high → low < high → p.Resolves low high qLow qHigh) := by
  obtain ⟨n, hn, rfl⟩ : ∃ n : Nat, 1 ≤ n ∧ qHigh = qLow + n := ⟨(qHigh - qLow).toNat, by omega, by omega⟩
  have hn' : (n : Rat) ≠ 0 := by exact_mod_cast Nat.one_le_iff_ne_zero.mp hn
  have hdegenerate : (high - low) / (n : Rat) = 0 ↔ high = low := by
    rw [div_eq_zero_iff, or_iff_left hn', sub_eq_zero]
  refine ⟨_, ofInterval_rat low high qLow hn, ⟨_, rfl, ?_⟩, ?_, fun h => ?_, fun hlow hhigh hlt => ?_⟩
  · rw [nearest, clampInt]
    omega
  · rw [decide_eq_true_eq, hdegenerate]
  · exact if_pos (hdegenerate.mp (of_decide_eq_true h)).symm
  · exact ScaleZeroPoint.resolves_of_around hn hlow hhigh hlt (ofInterval_rat low high qLow hn)

theorem ofInterval_resolves_of_tie : (0 : Int) < 255 ∧ ∃ p : ScaleZeroPoint Rat,
    ScaleZeroPoint.ofInterval (-1 / 2 : Rat) (509 / 2) ((0 : Int) : Rat) ((255 : Int) : Rat) = .ok p ∧
      p.zeroPoint = 1 ∧ p.Resolves (-1 / 2) (509 / 2) 0 255 ∧
      |p.dequantize ((0 : Int) : Rat) - (-1 / 2)| = p.scale / 2 := by
  have hq : (0 : Int) < 255 := by decide
  obtain ⟨p, hp, -, -, -, hresolves⟩ := ofInterval_resolves hq (-1 / 2) (509 / 2)
  have hvalue : ScaleZeroPoint.ofInterval (-1 / 2 : Rat) (509 / 2) ((0 : Int) : Rat) ((255 : Int) : Rat) =
      .ok ⟨1, 1, false⟩ := by decide +kernel
  obtain rfl := Except.ok.inj (hvalue.symm.trans hp)
  exact ⟨hq, _, hp, rfl, hresolves (by norm_num) (by norm_num) (by norm_num), by decide +kernel⟩

end LowPrecision
