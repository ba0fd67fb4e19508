import LowPrecision.Proofs.Quantization.Channels
import LowPrecision.Proofs.Quantization.Totality

namespace LowPrecision

section Rounding

theorem roundHalfAway_of_lt_half {q : Rat} {n : Int} (h : q < n + 1 / 2) : roundHalfAway q ≤ n := by
  have hround := (abs_le.mp (abs_roundHalfAway_sub_le q)).2
  have hlt : (roundHalfAway q : Rat) < (n + 1 : Int) := by
    push_cast
    linarith
  exact Int.lt_add_one_iff.mp (by exact_mod_cast hlt)

theorem roundHalfAway_of_neg {q : Rat} {n : Int} (hn : n < 0) (h : q ≤ n + 1 / 2) :
    roundHalfAway q ≤ n := by
  rcases lt_or_eq_of_le h with hlt | rfl
  · exact roundHalfAway_of_lt_half hlt
  · have hn' : (n : Rat) ≤ -1 := by exact_mod_cast Int.le_sub_one_iff.mpr hn
    have hhalf : (1 / 2 : Rat) - (n + 1 / 2) = ((-n : Int) : Rat) := by
      push_cast
      ring
    rw [roundHalfAway, if_pos (by linarith), hhalf, Rat.floor_intCast, neg_neg]

theorem le_roundHalfAway_of_pos {q : Rat} {n : Int} (hn : 0 < n) (h : n - 1 / 2 ≤ q) :
    n ≤ roundHalfAway q := by
  have hn' : (1 : Rat) ≤ n := by exact_mod_cast hn
  rw [roundHalfAway, if_neg (by linarith)]
  exact Rat.le_floor_iff.mpr (by linarith)

variable {a n : Int} {d : Rat}

theorem ends_of_half (hn : 0 ≤ n) (hend : 0 < a + n) (hlow : -(1 / 2) ≤ d) (hhigh : d ≤ 1 / 2)
    (hstart : a < 0 ∨ d ≠ 1 / 2) :
    nearest (a + d) a (a + n) = a ∧ nearest (a + n + d) a (a + n) = a + n := by
  have hdown : roundHalfAway (a + d) ≤ a := by
    rcases hstart with hneg | hne
    · exact roundHalfAway_of_neg hneg (by linarith)
    · exact roundHalfAway_of_lt_half (by linarith [lt_of_le_of_ne hhigh hne])
  have hup : a + n ≤ roundHalfAway (a + n + d) :=
    le_roundHalfAway_of_pos hend (by push_cast; linarith)
  rw [nearest, nearest, clampInt, clampInt]
  omega

end Rounding

section Types

theorem Grid.bounds_cases {type : ElementType} {levels : Nat} {low high : Rat}
    (h : Grid.bounds type levels = .ok (low, high)) :
    ∃ (a : Int) (n : Nat) (first last : Int), levels = n + 1 ∧ 2 ≤ n ∧ low = a ∧
      high = ((a + n : Int) : Rat) ∧ type.integerBounds = some (first, last) ∧
      first ≤ a ∧ a + n ≤ last ∧ 0 < a + n ∧ (type = .u8 ∨ a < 0) := by
  unfold Grid.bounds at h
  split at h <;> cases h
  · exact ⟨0, 255, 0, 255, by decide, by decide, rfl, rfl, rfl, by decide, by decide, by decide,
      .inl rfl⟩
  · exact ⟨0, 254, 0, 255, by decide, by decide, rfl, rfl, rfl, by decide, by decide, by decide,
      .inl rfl⟩
  · exact ⟨-128, 255, -128, 127, by decide, by decide, rfl, rfl, rfl, by decide, by decide,
      by decide, .inr (by decide)⟩
  · exact ⟨-127, 254, -128, 127, by decide, by decide, rfl, rfl, rfl, by decide, by decide,
      by decide, .inr (by decide)⟩

theorem ElementType.represents_iff {type : ElementType} {first last : Int}
    (h : type.integerBounds = some (first, last)) {v : Rat} :
    type.represents v = true ↔ (∃ k : Int, v = k) ∧ (first : Rat) ≤ v ∧ v ≤ last := by
  have hrange : type.integerRange (α := Rat) = some ((first : Rat), (last : Rat)) := by
    rw [integerRange, h]
    rfl
  rw [represents, hrange]
  simp only [Bool.and_eq_true, decide_eq_true_eq, and_assoc]
  refine and_congr_left fun _ => ?_
  change decide (v.den = 1) = true ↔ _
  rw [decide_eq_true_eq, Rat.den_eq_one_iff]
  exact ⟨fun h => ⟨_, h.symm⟩, by rintro ⟨k, rfl⟩; rfl⟩

end Types

namespace ChannelRange

variable {r : ChannelRange} {n : Nat}

theorem value_between (hn : 1 ≤ n) (x : Rat) :
    ∃ v, r.value (n + 1) x = .ok v ∧ min r.outputLow r.outputHigh ≤ v ∧
      v ≤ max r.outputLow r.outputHigh := by
  obtain ⟨k, hk, hkn, hvalue, -⟩ := fakeQuantize_point x r.inputLow r.inputHigh hn
  have hn' : (0 : Rat) < n := by exact_mod_cast hn
  have hratio : (0 : Rat) ≤ k / n ∧ (k : Rat) / n ≤ 1 := by
    have hk' : (0 : Rat) ≤ k := by exact_mod_cast hk
    have hkn' : (k : Rat) ≤ n := by exact_mod_cast hkn
    exact ⟨div_nonneg hk' hn'.le, (div_le_one hn').mpr hkn'⟩
  refine ⟨_, hvalue _ _, ?_⟩
  rcases le_total r.outputLow r.outputHigh with hle | hle
  · rw [min_eq_left hle, max_eq_right hle]
    have hstep := mul_le_of_le_one_left (sub_nonneg.mpr hle) hratio.2
    have hstart := mul_nonneg hratio.1 (sub_nonneg.mpr hle)
    constructor <;> linarith
  · rw [min_eq_right hle, max_eq_left hle]
    have hstep := mul_le_of_le_one_left (sub_nonneg.mpr hle) hratio.2
    have hstart := mul_nonneg hratio.1 (sub_nonneg.mpr hle)
    constructor <;> linarith

theorem value_second (hn : 2 ≤ n) (hne : r.inputLow ≠ r.inputHigh) :
    r.value (n + 1) (r.inputLow + (r.inputHigh - r.inputLow) / n) =
      .ok (1 / n * (r.outputHigh - r.outputLow) + r.outputLow) := by
  have hn' : (2 : Rat) ≤ n := by exact_mod_cast hn
  have hd : r.inputHigh - r.inputLow ≠ 0 := sub_ne_zero.mpr (Ne.symm hne)
  have hpoint : (r.inputLow + (r.inputHigh - r.inputLow) / n - r.inputLow) /
      (r.inputHigh - r.inputLow) * n = ((1 : Int) : Rat) := by
    push_cast
    field_simp
    ring
  have hstep : |(r.inputHigh - r.inputLow) / n| < |r.inputHigh - r.inputLow| := by
    rw [abs_div, abs_of_pos (by linarith : (0 : Rat) < n)]
    exact div_lt_self (abs_pos.mpr hd) (by linarith)
  have hinner : min r.inputLow r.inputHigh < r.inputLow + (r.inputHigh - r.inputLow) / n ∧
      r.inputLow + (r.inputHigh - r.inputLow) / n ≤ max r.inputHigh r.inputLow := by
    rcases lt_or_gt_of_ne hne with hlt | hgt
    · have hpos : 0 < (r.inputHigh - r.inputLow) / n := div_pos (by linarith) (by linarith)
      rw [abs_of_pos hpos, abs_of_pos (by linarith)] at hstep
      rw [min_eq_left hlt.le, max_eq_left hlt.le]
      constructor <;> linarith
    · have hneg : (r.inputHigh - r.inputLow) / n < 0 :=
        div_neg_of_neg_of_pos (by linarith) (by linarith)
      rw [abs_of_neg hneg, abs_of_neg (by linarith)] at hstep
      rw [min_eq_right hgt.le, max_eq_right hgt.le]
      constructor <;> linarith
  rw [value, fakeQuantize_eq, if_neg (not_le.mpr hinner.1), if_neg (not_lt.mpr hinner.2), hpoint,
    roundHalfAway_intCast]
  push_cast
  rfl

theorem whole_iff (hn : 2 ≤ n) {low high : Int} (hlow : r.outputLow = low) (hhigh : r.outputHigh = high)
    (hlength : |high - low| ≤ n) :
    (∀ x v, r.value (n + 1) x = .ok v → ∃ k : Int, v = k) ↔
      r.inputLow = r.inputHigh ∨ low = high ∨ |high - low| = n := by
  have hn' : (n : Rat) ≠ 0 := by exact_mod_cast (by omega : n ≠ 0)
  constructor
  · intro h
    by_cases hne : r.inputLow = r.inputHigh
    · exact .inl hne
    · -- Already the first inner point tells: its value is whole only if the steps divide the
      obtain ⟨k, hk⟩ := h _ _ (value_second hn hne)
      rw [hlow, hhigh] at hk
      have hdvd : high - low = n * (k - low) := by
        have hproduct : (high : Rat) - low = n * (k - low) := by
          rw [← hk]
          field_simp
          ring
        exact_mod_cast hproduct
      refine .inr ?_
      by_cases heq : low = high
      · exact .inl heq
      · refine .inr (le_antisymm hlength (Int.le_of_dvd (abs_pos.mpr (by omega)) ?_))
        exact (dvd_abs _ _).mpr ⟨_, hdvd⟩
  · intro h x v hv
    obtain ⟨k, hk, hkn, hvalue, hfirst, hlast⟩ :=
      fakeQuantize_point x r.inputLow r.inputHigh (by omega : 1 ≤ n)
    obtain rfl := Except.ok.inj ((hvalue _ _).symm.trans hv)
    rw [hlow, hhigh]
    rcases h with heq | heq | heq
    · rw [heq, min_self] at hfirst
      rw [heq, max_self] at hlast
      rcases le_or_gt x r.inputHigh with hle | hgt
      · exact ⟨low, by simp [hfirst hle]⟩
      · refine ⟨high, ?_⟩
        rw [hlast hgt]
        push_cast
        rw [div_self hn']
        ring
    · exact ⟨low, by simp [heq]⟩
    · rcases abs_choice (high - low) with hsign | hsign
      · refine ⟨low + k, ?_⟩
        have hdiff : (high : Rat) - low = n := by exact_mod_cast hsign.symm.trans heq
        rw [hdiff, div_mul_cancel₀ _ hn']
        push_cast
        ring
      · refine ⟨low - k, ?_⟩
        have hdiff : (high : Rat) - low = -n := by
          have hint : high - low = -n := by omega
          exact_mod_cast hint
        rw [hdiff, mul_neg, div_mul_cancel₀ _ hn']
        push_cast
        ring

end ChannelRange

def ZeroPointTie (low high : Rat) (levels : Nat) : Prop :=
  ∃ k : Int, low / ((high - low) / (levels - 1 : Nat)) = k + 1 / 2

theorem not_zeroPointTie_zero (high : Rat) (levels : Nat) : ¬ ZeroPointTie 0 high levels := by
  rintro ⟨k, hk⟩
  rw [zero_div] at hk
  have hodd : 2 * k + 1 = 0 := by
    have hdouble : 2 * (k : Rat) + 1 = 0 := by linarith
    exact_mod_cast hdouble
  omega

structure ValuesIn (type : ElementType) (levels : Nat) (r : ChannelRange) : Prop where
  inside (x : Rat) : ∃ v first last, r.value levels x = .ok v ∧
    type.integerBounds = some (first, last) ∧ (first : Rat) ≤ v ∧ v ≤ last
  represented : (∀ x v, r.value levels x = .ok v → type.represents v = true) ↔
    r.inputLow = r.inputHigh ∨ r.outputLow = r.outputHigh ∨
      |r.outputHigh - r.outputLow| = (levels - 1 : Nat)

section Channel

variable {grid : Grid Rat} {levels : Nat} {p : ScaleZeroPoint Rat} {r : ChannelRange} {low high : Rat}

theorem valuesIn_of_bounds (hgrid : Grid.bounds grid.precision levels = .ok (grid.low, grid.high))
    (hlow : quantizeBound grid p low = .ok r.outputLow)
    (hhigh : quantizeBound grid p high = .ok r.outputHigh) : ValuesIn grid.precision levels r := by
  obtain ⟨a, n, first, last, rfl, hn, hstart, hend, hbounds, hfirst, hlast, -⟩ :=
    Grid.bounds_cases hgrid
  rw [quantizeBound_rat hstart hend, Except.ok.injEq] at hlow hhigh
  obtain ⟨l, hl, hal, hln⟩ : ∃ l : Int, r.outputLow = l ∧ a ≤ l ∧ l ≤ a + n :=
    ⟨_, hlow.symm, by rw [nearest, clampInt]; omega, by rw [nearest, clampInt]; omega⟩
  obtain ⟨h, hh, hah, hhn⟩ : ∃ h : Int, r.outputHigh = h ∧ a ≤ h ∧ h ≤ a + n :=
    ⟨_, hhigh.symm, by rw [nearest, clampInt]; omega, by rw [nearest, clampInt]; omega⟩
  have hinside (x : Rat) : ∃ v, r.value (n + 1) x = .ok v ∧ (first : Rat) ≤ v ∧ v ≤ last := by
    obtain ⟨v, hv, hmin, hmax⟩ := r.value_between (by omega : 1 ≤ n) x
    rw [hl, hh] at hmin hmax
    refine ⟨v, hv, le_trans ?_ hmin, le_trans hmax ?_⟩
    · exact_mod_cast (le_min (by omega) (by omega) : first ≤ min l h)
    · exact_mod_cast (max_le (by omega) (by omega) : max l h ≤ last)
  refine ⟨fun x => ?_, ?_⟩
  · obtain ⟨v, hv, hrange⟩ := hinside x
    exact ⟨v, first, last, hv, hbounds, hrange⟩
  · have hlength : |h - l| ≤ n := abs_le.mpr ⟨by omega, by omega⟩
    have hwhole := r.whole_iff hn hl hh hlength
    rw [Nat.add_sub_cancel, hl, hh, Int.cast_inj]
    have hcast : |(h : Rat) - l| = n ↔ |h - l| = n := by
      constructor <;> intro h <;> exact_mod_cast h
    rw [hcast, ← hwhole]
    refine forall_congr' fun x => forall_congr' fun v => imp_congr_right fun hv => ?_
    rw [ElementType.represents_iff hbounds]
    refine and_iff_left ?_
    obtain ⟨w, hw, hrange⟩ := hinside x
    obtain rfl := Except.ok.inj (hw.symm.trans hv)
    exact hrange

theorem spans_of_own (hgrid : Grid.bounds grid.precision levels = .ok (grid.low, grid.high))
    (hne : low ≠ high) (hmin : min low high ≤ 0) (hmax : 0 ≤ max low high)
    (htie : grid.precision = .u8 → ¬ ZeroPointTie low high levels)
    (hp : ScaleZeroPoint.ofInterval low high grid.low grid.high = .ok p)
    (hlow : quantizeBound grid p low = .ok r.outputLow)
    (hhigh : quantizeBound grid p high = .ok r.outputHigh) :
    |r.outputHigh - r.outputLow| = (levels - 1 : Nat) := by
  obtain ⟨a, n, first, last, rfl, hn, hstart, hend, -, -, -, hpositive, hsign⟩ :=
    Grid.bounds_cases hgrid
  have hn' : (0 : Rat) < n := by exact_mod_cast (by omega : 0 < n)
  obtain ⟨hs, -, -, hlast, hl, hh⟩ :=
    bounds_on_grid (by omega : 1 ≤ n) hne hstart hend hp hlow hhigh
  rw [ZeroPointTie, Nat.add_sub_cancel] at htie
  have hfirst : low = (high - low) / n * (low / ((high - low) / n)) := (mul_div_cancel₀ _ hs).symm
  generalize low / ((high - low) / n) = t at *
  have hbetween : t ≤ 0 ∧ -(n : Rat) ≤ t := by
    rcases lt_or_gt_of_ne hne with hlt | hgt
    · have hpos : 0 < (high - low) / n := div_pos (by linarith) hn'
      rw [min_eq_left hlt.le, hfirst] at hmin
      rw [max_eq_right hlt.le, hlast] at hmax
      have hend := nonneg_of_mul_nonneg_right hmax hpos
      exact ⟨nonpos_of_mul_nonpos_right hmin hpos, by linarith⟩
    · have hneg : (high - low) / n < 0 := div_neg_of_neg_of_pos (by linarith) hn'
      rw [min_eq_right hgt.le, hlast] at hmin
      rw [max_eq_left hgt.le, hfirst] at hmax
      have hend := nonneg_of_mul_nonpos_right hmin hneg
      exact ⟨nonpos_of_mul_nonneg_right hmax hneg, by linarith⟩
  obtain ⟨-, -, hhalf⟩ | ⟨hpos, -⟩ | ⟨hneg, -⟩ := shift_cases (a := a) (t := t) (Int.natCast_nonneg n)
  · obtain ⟨hdown, hup⟩ := abs_le.mp hhalf
    have hends : nearest (a + shift a n t) a (a + n) = a ∧
        nearest (a + n + shift a n t) a (a + n) = a + n := by
      refine ends_of_half (Int.natCast_nonneg n) hpositive hdown hup ?_
      refine hsign.symm.imp_right fun hu8 heq => htie hu8 ?_
      refine ⟨a - nearest (a - t) a (a + n), ?_⟩
      rw [shift] at heq
      push_cast
      linarith
    rw [hl, hh, hends.1, hends.2]
    push_cast
    rw [add_sub_cancel_left, abs_of_pos hn']
  · exact absurd hbetween.1 (not_le.mpr hpos)
  · exact absurd hbetween.2 (not_le.mpr (by exact_mod_cast hneg))

end Channel

end LowPrecision
