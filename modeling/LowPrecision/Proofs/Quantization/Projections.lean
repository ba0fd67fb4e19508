import Mathlib.Order.Monotone.Basic
import LowPrecision.Proofs.Quantization.RoundTrip

namespace LowPrecision

section Rounding

variable {q r : Rat} {low high : Int}

theorem roundHalfAway_mono (h : q ≤ r) : roundHalfAway q ≤ roundHalfAway r := by
  rcases lt_or_ge q 0 with hq | hq
  · rcases lt_or_ge r 0 with hr | hr
    · rw [roundHalfAway, roundHalfAway, if_pos hq, if_pos hr]
      exact neg_le_neg (Rat.le_floor_iff.mpr ((Rat.floor_le _).trans (by linarith)))
    · have hzero : roundHalfAway q ≤ 0 := roundHalfAway_le (by exact_mod_cast hq.le)
      exact hzero.trans (le_roundHalfAway (by exact_mod_cast hr))
  · rw [roundHalfAway, roundHalfAway, if_neg (not_lt.mpr hq), if_neg (not_lt.mpr (hq.trans h))]
    exact Rat.le_floor_iff.mpr ((Rat.floor_le _).trans (by linarith))

theorem nearest_mono (h : q ≤ r) : nearest q low high ≤ nearest r low high := by
  have := roundHalfAway_mono h
  rw [nearest, nearest, clampInt, clampInt]
  omega

theorem nearest_eq_round_clamped (hle : low ≤ high) (q : Rat) :
    nearest q low high = roundHalfAway (max (low : Rat) (min q high)) := by
  have hcast : (low : Rat) ≤ high := by exact_mod_cast hle
  rcases le_total q low with hlow | hlow
  · rw [nearest_of_le hlow, min_eq_left (hlow.trans hcast), max_eq_left hlow, roundHalfAway_intCast]
  · rcases le_total q high with hhigh | hhigh
    · rw [nearest_eq_round hlow hhigh, min_eq_left hhigh, max_eq_right hlow]
    · rw [nearest_of_ge hle hhigh, min_eq_right hhigh, max_eq_right hcast, roundHalfAway_intCast]

theorem abs_nearest_sub_clamped_le (hle : low ≤ high) (q : Rat) :
    |(nearest q low high : Rat) - max (low : Rat) (min q high)| ≤ 1 / 2 := by
  rw [nearest_eq_round_clamped hle]
  exact abs_roundHalfAway_sub_le _

end Rounding

section Grids

variable {inLow inHigh outLow outHigh : Rat} {n : Nat}

def gridPoint (low high : Rat) (levels : Nat) (k : Int) : Rat :=
  low + k * ((high - low) / (levels - 1 : Nat))

def stepsFrom (low high : Rat) (n : Nat) (x : Rat) : Rat := (x - low) / (high - low) * n

theorem stepsFrom_mono (h : inLow < inHigh) {x y : Rat} (hxy : x ≤ y) :
    stepsFrom inLow inHigh n x ≤ stepsFrom inLow inHigh n y := by
  have hd : 0 < inHigh - inLow := sub_pos.mpr h
  rw [stepsFrom, stepsFrom]
  gcongr

theorem stepsFrom_low (inLow inHigh : Rat) (n : Nat) : stepsFrom inLow inHigh n inLow = 0 := by
  rw [stepsFrom, sub_self, zero_div, zero_mul]

theorem stepsFrom_high (h : inLow < inHigh) : stepsFrom inLow inHigh n inHigh = n := by
  rw [stepsFrom, div_self (sub_pos.mpr h).ne', one_mul]

theorem stepsFrom_gridPoint (h : inLow < inHigh) (hn : 1 ≤ n) (k : Int) :
    stepsFrom inLow inHigh n (gridPoint inLow inHigh (n + 1) k) = k := by
  have hd : inHigh - inLow ≠ 0 := (sub_pos.mpr h).ne'
  have hn' : (n : Rat) ≠ 0 := by exact_mod_cast Nat.one_le_iff_ne_zero.mp hn
  rw [stepsFrom, gridPoint, Nat.add_sub_cancel]
  field_simp
  ring

theorem fakeQuantize_nearest (h : inLow < inHigh) (hn : 1 ≤ n) (outLow outHigh x : Rat) :
    fakeQuantize x inLow inHigh outLow outHigh (n + 1) =
      .ok (gridPoint outLow outHigh (n + 1) (nearest (stepsFrom inLow inHigh n x) 0 n)) := by
  have hn' : (n : Rat) ≠ 0 := by exact_mod_cast Nat.one_le_iff_ne_zero.mp hn
  have hzero : (0 : Int) ≤ n := Int.natCast_nonneg n
  rw [fakeQuantize_eq, min_eq_left h.le, max_eq_left h.le, gridPoint, Nat.add_sub_cancel]
  refine congrArg Except.ok ?_
  by_cases hlow : x ≤ inLow
  · have hsteps := stepsFrom_mono (n := n) h hlow
    rw [stepsFrom_low] at hsteps
    rw [if_pos hlow, nearest_of_le (by exact_mod_cast hsteps), Int.cast_zero, zero_mul, add_zero]
  · have habove := stepsFrom_mono (n := n) h (le_of_not_ge hlow)
    rw [stepsFrom_low] at habove
    rw [if_neg hlow]
    by_cases hhigh : inHigh < x
    · have hsteps := stepsFrom_mono (n := n) h hhigh.le
      rw [stepsFrom_high h] at hsteps
      rw [if_pos hhigh, nearest_of_ge hzero (by exact_mod_cast hsteps), Int.cast_natCast,
        mul_div_cancel₀ _ hn']
      ring
    · have hsteps := stepsFrom_mono (n := n) h (not_lt.mp hhigh)
      rw [stepsFrom_high h] at hsteps
      rw [if_neg hhigh, nearest_eq_round (by exact_mod_cast habove) (by exact_mod_cast hsteps), stepsFrom]
      ring

def affineImage (inLow inHigh outLow outHigh x : Rat) : Rat :=
  outLow + (max inLow (min x inHigh) - inLow) / (inHigh - inLow) * (outHigh - outLow)

theorem affineImage_eq (h : inLow < inHigh) (hn : 1 ≤ n) (outLow outHigh x : Rat) :
    affineImage inLow inHigh outLow outHigh x =
      outLow + max (((0 : Int) : Rat)) (min (stepsFrom inLow inHigh n x) ((n : Int) : Rat)) *
        ((outHigh - outLow) / n) := by
  have hn' : (n : Rat) ≠ 0 := by exact_mod_cast Nat.one_le_iff_ne_zero.mp hn
  have hmono : Monotone (stepsFrom inLow inHigh n) := fun _ _ => stepsFrom_mono h
  have hclamped : stepsFrom inLow inHigh n (max inLow (min x inHigh)) =
      max ((0 : Int) : Rat) (min (stepsFrom inLow inHigh n x) ((n : Int) : Rat)) := by
    rw [hmono.map_max, hmono.map_min, stepsFrom_low, stepsFrom_high h, Int.cast_zero, Int.cast_natCast]
  rw [affineImage, ← hclamped, stepsFrom, mul_assoc, mul_div_cancel₀ _ hn']

/-- A function that takes every value to a point of the output grid, without changing the order, within
half a step of the affine image, and the points of the input grid to those of the output grid. -/
structure ProjectsOnto (f : Rat → Rat) (inLow inHigh outLow outHigh : Rat) (levels : Nat) : Prop where
  onGrid (x : Rat) : ∃ k : Int, 0 ≤ k ∧ k ≤ (levels - 1 : Nat) ∧ f x = gridPoint outLow outHigh levels k
  monotone : Monotone f
  near (x : Rat) : |f x - affineImage inLow inHigh outLow outHigh x| ≤
    (outHigh - outLow) / (levels - 1 : Nat) / 2
  points (k : Int) : 0 ≤ k → k ≤ (levels - 1 : Nat) →
    f (gridPoint inLow inHigh levels k) = gridPoint outLow outHigh levels k

theorem ProjectsOnto.idempotent {f : Rat → Rat} {levels : Nat}
    (h : ProjectsOnto f inLow inHigh inLow inHigh levels) (x : Rat) : f (f x) = f x := by
  obtain ⟨k, hk, hkn, hx⟩ := h.onGrid x
  rw [hx, h.points k hk hkn]

theorem projectsOnto_nearest (hin : inLow < inHigh) (hout : outLow ≤ outHigh) (hn : 1 ≤ n) : ProjectsOnto
    (fun x => gridPoint outLow outHigh (n + 1) (nearest (stepsFrom inLow inHigh n x) 0 n))
    inLow inHigh outLow outHigh (n + 1) where
  onGrid x := ⟨_, by rw [nearest, clampInt]; omega, by rw [nearest, clampInt]; omega, rfl⟩
  monotone x y hxy := by
    have hsteps : (nearest (stepsFrom inLow inHigh n x) 0 n : Rat) ≤ nearest (stepsFrom inLow inHigh n y) 0 n := by
      exact_mod_cast nearest_mono (stepsFrom_mono hin hxy)
    simp only [gridPoint, Nat.add_sub_cancel]
    gcongr
  near x := by
    have hstep : 0 ≤ (outHigh - outLow) / n := div_nonneg (sub_nonneg.mpr hout) (Nat.cast_nonneg n)
    have hclose := abs_nearest_sub_clamped_le (Int.natCast_nonneg n) (stepsFrom inLow inHigh n x)
    rw [affineImage_eq hin hn, gridPoint, Nat.add_sub_cancel, add_sub_add_left_eq_sub, ← sub_mul, abs_mul,
      abs_of_nonneg hstep]
    linarith [mul_le_mul_of_nonneg_right hclose hstep]
  points k hk hkn := by
    rw [stepsFrom_gridPoint hin hn, nearest_eq_round (by exact_mod_cast hk) (by exact_mod_cast hkn),
      roundHalfAway_intCast]

/-- A fake-quantize is a monotone projection onto the grid of its output interval, for all intervals and
level counts. -/
theorem fakeQuantize_projects {levels : Nat} (hin : inLow < inHigh) (hout : outLow ≤ outHigh)
    (hlevels : 2 ≤ levels) :
    ∃ f : Rat → Rat, (∀ x, fakeQuantize x inLow inHigh outLow outHigh levels = .ok (f x)) ∧
      ProjectsOnto f inLow inHigh outLow outHigh levels ∧
      (inLow = outLow → inHigh = outHigh → ∀ x, f (f x) = f x) := by
  obtain ⟨n, hn, rfl⟩ : ∃ n, 1 ≤ n ∧ levels = n + 1 := ⟨levels - 1, by omega, by omega⟩
  have hprojects := projectsOnto_nearest hin hout hn
  refine ⟨_, fakeQuantize_nearest hin hn outLow outHigh, hprojects, ?_⟩
  rintro rfl rfl
  exact hprojects.idempotent

theorem fakeQuantize_projects_of_tie : ((-1 : Rat) < 1 ∧ (0 : Rat) ≤ 10 ∧ 2 ≤ 5) ∧
    ∃ f : Rat → Rat, (∀ x, fakeQuantize x (-1) 1 0 10 5 = .ok (f x)) ∧ ProjectsOnto f (-1) 1 0 10 5 ∧
      f (1 / 4) = 15 / 2 ∧ |f (1 / 4) - affineImage (-1) 1 0 10 (1 / 4)| = 10 / (5 - 1 : Nat) / 2 := by
  have hin : (-1 : Rat) < 1 := by norm_num
  have hout : (0 : Rat) ≤ 10 := by norm_num
  obtain ⟨f, hf, hprojects, -⟩ := fakeQuantize_projects hin hout (show 2 ≤ 5 by decide)
  have hvalue : fakeQuantize (1 / 4 : Rat) (-1) 1 0 10 5 = .ok (15 / 2) := by decide +kernel
  have hmiddle : f (1 / 4) = 15 / 2 := Except.ok.inj ((hf _).symm.trans hvalue)
  refine ⟨⟨hin, hout, by decide⟩, f, hf, hprojects, hmiddle, ?_⟩
  rw [hmiddle]
  decide +kernel

end Grids

end LowPrecision
