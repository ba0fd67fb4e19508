import Mathlib.Tactic.Linarith
import Mathlib.Tactic.FieldSimp
import Mathlib.Tactic.LinearCombination
import Mathlib.Tactic.Ring
import Mathlib.Algebra.Order.Floor.Ring
import Mathlib.Data.Rat.Floor
import LowPrecision.Rewrite.Basic

namespace LowPrecision

section Rounding

theorem abs_roundHalfAway_sub_le (q : Rat) : |(roundHalfAway q : Rat) - q| ≤ 1 / 2 := by
  rw [roundHalfAway, abs_le]
  split
  · have hle := Rat.floor_le (1 / 2 - q)
    have hlt := Rat.lt_floor_add_one (1 / 2 - q)
    push_cast at hlt ⊢
    constructor <;> linarith
  · have hle := Rat.floor_le (q + 1 / 2)
    have hlt := Rat.lt_floor_add_one (q + 1 / 2)
    push_cast at hlt ⊢
    constructor <;> linarith

theorem roundHalfAway_le {q : Rat} {n : Int} (h : q ≤ n) : roundHalfAway q ≤ n := by
  have hround := (abs_le.mp (abs_roundHalfAway_sub_le q)).2
  have hlt : (roundHalfAway q : Rat) < (n + 1 : Int) := by
    push_cast
    linarith
  exact Int.lt_add_one_iff.mp (by exact_mod_cast hlt)

theorem le_roundHalfAway {q : Rat} {n : Int} (h : (n : Rat) ≤ q) : n ≤ roundHalfAway q := by
  have hround := (abs_le.mp (abs_roundHalfAway_sub_le q)).1
  have hlt : ((n - 1 : Int) : Rat) < roundHalfAway q := by
    push_cast
    linarith
  exact Int.sub_one_lt_iff.mp (by exact_mod_cast hlt)

theorem roundHalfAway_intCast (n : Int) : roundHalfAway n = n :=
  le_antisymm (roundHalfAway_le (le_refl _)) (le_roundHalfAway (le_refl _))

def clampInt (n low high : Int) : Int := max low (min high n)

def nearest (q : Rat) (low high : Int) : Int := clampInt (roundHalfAway q) low high

theorem nearest_of_le {q : Rat} {low high : Int} (hq : q ≤ low) :
    nearest q low high = low := by
  have := roundHalfAway_le hq
  rw [nearest, clampInt]
  omega

theorem nearest_of_ge {q : Rat} {low high : Int} (h : low ≤ high) (hq : (high : Rat) ≤ q) :
    nearest q low high = high := by
  have := le_roundHalfAway hq
  rw [nearest, clampInt]
  omega

theorem nearest_eq_round {q : Rat} {low high : Int} (hlow : (low : Rat) ≤ q) (hhigh : q ≤ high) :
    nearest q low high = roundHalfAway q := by
  have := le_roundHalfAway hlow
  have := roundHalfAway_le hhigh
  rw [nearest, clampInt]
  omega

theorem abs_nearest_sub_le_one {q : Rat} {low high : Int} (h : low ≤ high) :
    |(nearest q low high : Rat) - q| ≤ 1 ↔ low - 1 ≤ q ∧ q ≤ high + 1 := by
  have hcast : (low : Rat) ≤ high := by exact_mod_cast h
  rcases le_total q low with hlow | hlow
  · rw [nearest_of_le hlow, abs_of_nonneg (by linarith)]
    constructor
    · intro hd
      constructor <;> linarith
    · rintro ⟨hd, -⟩
      linarith
  · rcases le_total (high : Rat) q with hhigh | hhigh
    · rw [nearest_of_ge h hhigh, abs_of_nonpos (by linarith)]
      constructor
      · intro hd
        constructor <;> linarith
      · rintro ⟨-, hd⟩
        linarith
    · have hhalf := abs_roundHalfAway_sub_le q
      rw [nearest_eq_round hlow hhigh]
      constructor
      · intro
        constructor <;> linarith
      · intro
        linarith

end Rounding

section Steps

variable {a n : Int} {t : Rat}

def shift (a n : Int) (t : Rat) : Rat := nearest (a - t) a (a + n) + t - a

theorem shift_cases (hn : 0 ≤ n) :
    (t ≤ 0 ∧ -n ≤ t ∧ |shift a n t| ≤ 1 / 2) ∨ (0 < t ∧ shift a n t = t) ∨
      (t < -n ∧ shift a n t = t + n) := by
  have hcast : (0 : Rat) ≤ n := by exact_mod_cast hn
  rcases lt_or_ge 0 t with hpos | hpos
  · refine .inr (.inl ⟨hpos, ?_⟩)
    rw [shift, nearest_of_le (by linarith)]
    ring
  · rcases lt_or_ge t (-n) with hneg | hneg
    · refine .inr (.inr ⟨hneg, ?_⟩)
      rw [shift, nearest_of_ge (by omega) (by push_cast; linarith)]
      push_cast
      ring
    · refine .inl ⟨hpos, hneg, ?_⟩
      have hsame : (roundHalfAway (a - t) : Rat) + t - a = roundHalfAway (a - t) - (a - t) := by ring
      rw [shift, nearest_eq_round (by linarith) (by push_cast; linarith), hsame]
      exact abs_roundHalfAway_sub_le (a - t)

theorem abs_shift_le_one (hn : 0 ≤ n) : |shift a n t| ≤ 1 ↔ t ≤ 1 ∧ -1 ≤ t + n := by
  have hcast : (0 : Rat) ≤ n := by exact_mod_cast hn
  rcases shift_cases (a := a) (t := t) hn with ⟨hpos, hneg, hhalf⟩ | ⟨hpos, hshift⟩ | ⟨hneg, hshift⟩
  · constructor
    · intro
      constructor <;> linarith
    · intro
      linarith
  · rw [hshift, abs_of_pos hpos]
    constructor
    · intro
      constructor <;> linarith
    · rintro ⟨h, -⟩
      exact h
  · rw [hshift, abs_of_neg (by linarith)]
    constructor
    · intro
      constructor <;> linarith
    · rintro ⟨-, h⟩
      linarith

theorem shift_within_grid (hn : 0 ≤ n) :
    (-1 ≤ shift a n t ∧ shift a n t ≤ n + 1) ↔ |t| ≤ n + 1 := by
  have hcast : (0 : Rat) ≤ n := by exact_mod_cast hn
  rw [abs_le (a := t)]
  rcases shift_cases (a := a) (t := t) hn with ⟨hpos, hneg, hhalf⟩ | ⟨hpos, hshift⟩ | ⟨hneg, hshift⟩
  · obtain ⟨hlow, hhigh⟩ := abs_le.mp hhalf
    constructor
    · intro
      constructor <;> linarith
    · intro
      constructor <;> linarith
  · rw [hshift]
    constructor
    · rintro ⟨-, h⟩
      constructor <;> linarith
    · rintro ⟨-, h⟩
      constructor <;> linarith
  · rw [hshift]
    constructor
    · rintro ⟨h, -⟩
      constructor <;> linarith
    · rintro ⟨h, -⟩
      constructor <;> linarith

theorem within_one {u v : Rat} {m : Int} (hlow : v - 1 ≤ m) (hhigh : (m : Rat) + 1 ≤ v + 1)
    (hmu : (m : Rat) ≤ u) (hum : u ≤ m + 1) :
    |u - v| ≤ 1 ∧ |(roundHalfAway u : Rat) - v| ≤ 1 := by
  have hm : (m : Rat) ≤ roundHalfAway u := by exact_mod_cast le_roundHalfAway hmu
  have hm' : (roundHalfAway u : Rat) ≤ m + 1 := by
    exact_mod_cast roundHalfAway_le (n := m + 1) (by push_cast; exact hum)
  rw [abs_le, abs_le]
  refine ⟨⟨?_, ?_⟩, ?_, ?_⟩ <;> linarith

theorem ends_of_nonneg {d : Rat} (hn : 1 ≤ n) (h₀ : 0 ≤ d) (h₁ : d ≤ 1) :
    nearest (a + n + d) a (a + n) = a + n ∧
      a ≤ nearest (a + d) a (a + n) ∧ nearest (a + d) a (a + n) ≤ a + 1 := by
  have hcast : (1 : Rat) ≤ n := by exact_mod_cast hn
  refine ⟨nearest_of_ge (by omega) (by push_cast; linarith), ?_⟩
  rw [nearest_eq_round (by linarith) (by push_cast; linarith)]
  exact ⟨le_roundHalfAway (by linarith), roundHalfAway_le (by push_cast; linarith)⟩

theorem ends_of_nonpos {d : Rat} (hn : 1 ≤ n) (h₀ : d ≤ 0) (h₁ : -1 ≤ d) :
    nearest (a + d) a (a + n) = a ∧
      a + n - 1 ≤ nearest (a + n + d) a (a + n) ∧ nearest (a + n + d) a (a + n) ≤ a + n := by
  have hcast : (1 : Rat) ≤ n := by exact_mod_cast hn
  refine ⟨nearest_of_le (by linarith), ?_⟩
  rw [nearest_eq_round (by linarith) (by push_cast; linarith)]
  exact ⟨le_roundHalfAway (by push_cast; linarith), roundHalfAway_le (by push_cast; linarith)⟩

theorem step_error {d : Rat} {p low high : Int} (hn : 1 ≤ n) (hd : |d| ≤ 1) (hp : 0 ≤ p)
    (hpn : p ≤ n) (hlow : low = nearest (a + d) a (a + n))
    (hhigh : high = nearest (a + n + d) a (a + n)) :
    |(p : Rat) / n * (high - low) + low - (a + d + p)| ≤ 1 ∧
      |(roundHalfAway ((p : Rat) / n * (high - low) + low) : Rat) - (a + d + p)| ≤ 1 := by
  have hn' : (1 : Rat) ≤ n := by exact_mod_cast hn
  have hp' : (0 : Rat) ≤ p := by exact_mod_cast hp
  have hpn' : (p : Rat) ≤ n := by exact_mod_cast hpn
  have hratio : (0 : Rat) ≤ p / n ∧ (p : Rat) / n ≤ 1 :=
    ⟨by positivity, (div_le_one (by linarith)).mpr hpn'⟩
  have hwhole : (p : Rat) / n * n = p := div_mul_cancel₀ _ (by linarith)
  obtain ⟨hdlow, hdhigh⟩ := abs_le.mp hd
  rcases le_total 0 d with hpos | hneg
  · -- Ends that are off upwards are cut at the upper end of the grid.
    obtain ⟨hend, hstart⟩ := ends_of_nonneg (a := a) hn hpos hdhigh
    rw [← hhigh] at hend
    rw [← hlow] at hstart
    have hend' : (high : Rat) = a + n := by exact_mod_cast hend
    have hstart' : (a : Rat) ≤ low ∧ (low : Rat) ≤ a + 1 := by exact_mod_cast hstart
    have hu : (p : Rat) / n * (high - low) + low = a + p + (low - a) * (1 - p / n) := by
      rw [hend']
      linear_combination hwhole
    have hrest : 0 ≤ ((low : Rat) - a) * (1 - p / n) ∧ ((low : Rat) - a) * (1 - p / n) ≤ 1 :=
      ⟨mul_nonneg (by linarith) (by linarith),
        mul_le_one₀ (by linarith) (by linarith) (by linarith)⟩
    refine within_one (m := a + p) ?_ ?_ ?_ ?_ <;> push_cast <;> linarith
  · -- Ends that are off downwards are cut at the lower one.
    obtain ⟨hstart, hend⟩ := ends_of_nonpos (a := a) hn hneg hdlow
    rw [← hlow] at hstart
    rw [← hhigh] at hend
    have hstart' : (low : Rat) = a := by exact_mod_cast hstart
    have hend' : (a : Rat) + n - 1 ≤ high ∧ (high : Rat) ≤ a + n := by exact_mod_cast hend
    have hu : (p : Rat) / n * (high - low) + low = a + p - p / n * (a + n - high) := by
      rw [hstart']
      linear_combination hwhole
    have hrest : 0 ≤ (p : Rat) / n * (a + n - high) ∧ (p : Rat) / n * (a + n - high) ≤ 1 :=
      ⟨mul_nonneg hratio.1 (by linarith), mul_le_one₀ hratio.2 (by linarith) (by linarith)⟩
    refine within_one (m := a + p - 1) ?_ ?_ ?_ ?_ <;> push_cast <;> linarith

theorem end_error {d : Rat} (hn : 0 ≤ n) (hd : 1 < |d|) :
    1 < |(nearest (a + d) a (a + n) : Rat) - (a + d)| ∨
      1 < |(nearest (a + n + d) a (a + n) : Rat) - (a + n + d)| := by
  rcases lt_abs.mp hd with hpos | hneg
  · right
    rw [nearest_of_ge (by omega) (by push_cast; linarith), abs_of_neg (by push_cast; linarith)]
    push_cast
    linarith
  · left
    rw [nearest_of_le (by linarith), abs_of_pos (by linarith)]
    linarith

end Steps

section Exact

theorem lesser_rat (x y : Rat) : Arithmetic.lesser x y = min x y := by
  have hnumber : Arithmetic.isNumber x = true := decide_eq_true rfl
  rw [Arithmetic.lesser, hnumber, min_comm, min_def_lt]
  rfl

theorem greater_rat (x y : Rat) : Arithmetic.greater x y = max x y := by
  have hnumber : Arithmetic.isNumber x = true := decide_eq_true rfl
  rw [Arithmetic.greater, hnumber, max_def_lt]
  rfl

theorem clamp_rat {n low high : Int} (h : low ≤ high) :
    Arithmetic.clamp (n : Rat) low high = .ok ((clampInt n low high : Int) : Rat) := by
  have hcast : (low : Rat) ≤ high := by exact_mod_cast h
  have hint : (if high < (if n < low then low else n) then high else (if n < low then low else n)) =
      clampInt n low high := by
    rw [clampInt]
    split <;> split <;> omega
  rw [Arithmetic.clamp, if_pos hcast, ← hint]
  change Except.ok (if (high : Rat) < (if (n : Rat) < low then _ else _) then _ else _) = _
  simp only [Int.cast_lt, ← apply_ite (Int.cast : Int → Rat)]

theorem fakeQuantize_eq (x inputLow inputHigh low high : Rat) (n : Nat) :
    fakeQuantize x inputLow inputHigh low high (n + 1) =
      .ok (if x ≤ min inputLow inputHigh then low
        else if max inputHigh inputLow < x then high
        else (roundHalfAway ((x - inputLow) / (inputHigh - inputLow) * n) : Rat) / n *
          (high - low) + low) := by
  rw [fakeQuantize, lesser_rat, greater_rat]
  change (if x ≤ min inputLow inputHigh then _ else _) = _
  split
  · rfl
  · change (if max inputHigh inputLow < x then _ else _) = _
    split <;> rfl

theorem ratio_between {x low high : Rat} (hmin : min low high < x) (hmax : x ≤ max low high) :
    0 ≤ (x - low) / (high - low) ∧ (x - low) / (high - low) ≤ 1 := by
  rw [min_lt_iff] at hmin
  rw [le_max_iff] at hmax
  rcases lt_trichotomy low high with hlt | heq | hgt
  · have hpos : 0 < high - low := by linarith
    have hx : low ≤ x ∧ x ≤ high := by
      constructor
      · rcases hmin with h | h <;> linarith
      · rcases hmax with h | h <;> linarith
    exact ⟨div_nonneg (by linarith) hpos.le, (div_le_one hpos).mpr (by linarith)⟩
  · simp [heq]
  · have hneg : high - low < 0 := by linarith
    have hx : high ≤ x ∧ x ≤ low := by
      constructor
      · rcases hmin with h | h <;> linarith
      · rcases hmax with h | h <;> linarith
    exact ⟨div_nonneg_of_nonpos (by linarith) hneg.le, (div_le_one_of_neg hneg).mpr (by linarith)⟩

theorem fakeQuantize_point (x inputLow inputHigh : Rat) {n : Nat} (hn : 1 ≤ n) :
    ∃ p : Int, 0 ≤ p ∧ p ≤ n ∧
      (∀ low high : Rat, fakeQuantize x inputLow inputHigh low high (n + 1) =
        .ok (p / n * (high - low) + low)) ∧
      (x ≤ min inputLow inputHigh → p = 0) ∧ (max inputLow inputHigh < x → p = n) := by
  have hn' : (0 : Rat) < n := by exact_mod_cast hn
  by_cases hmin : x ≤ min inputLow inputHigh
  · refine ⟨0, le_refl _, by omega, fun low high => ?_, fun _ => rfl, fun hmax => ?_⟩
    · rw [fakeQuantize_eq, if_pos hmin]
      simp
    · exact absurd (lt_of_lt_of_le hmax hmin) (not_lt.mpr min_le_max)
  by_cases hmax : max inputLow inputHigh < x
  · refine ⟨n, by omega, le_refl _, fun low high => ?_, fun h => absurd h hmin, fun _ => rfl⟩
    rw [fakeQuantize_eq, if_neg hmin, if_pos (by rwa [max_comm])]
    simp [hn'.ne']
  have hratio := ratio_between (not_le.mp hmin) (not_lt.mp hmax)
  refine ⟨roundHalfAway ((x - inputLow) / (inputHigh - inputLow) * n), ?_, ?_,
    fun low high => ?_, fun h => absurd h hmin, fun h => absurd h hmax⟩
  · exact le_roundHalfAway (by exact_mod_cast mul_nonneg hratio.1 hn'.le)
  · refine roundHalfAway_le ?_
    push_cast
    exact mul_le_of_le_one_left hn'.le hratio.2
  · rw [fakeQuantize_eq, if_neg hmin, if_neg (by rwa [max_comm])]

def stepOf (low high : Rat) (n : Nat) : Rat := if low = high then 1 else (high - low) / n

theorem stepOf_ne_zero {low high : Rat} {n : Nat} (hn : 1 ≤ n) : stepOf low high n ≠ 0 := by
  have hn' : (n : Rat) ≠ 0 := by exact_mod_cast Nat.one_le_iff_ne_zero.mp hn
  rw [stepOf]
  split
  · exact one_ne_zero
  · next hne => exact div_ne_zero (sub_ne_zero.mpr (Ne.symm hne)) hn'

theorem ofWideInterval_rat (low high qLow qHigh : Rat) :
    ScaleZeroPoint.ofWideInterval low high qLow qHigh =
      (let degenerate := decide ((high - low) / (qHigh - qLow) = 0) || !true
       let scale := if degenerate then 1 else (high - low) / (qHigh - qLow)
       (Arithmetic.clamp (roundHalfAway (qLow - low / scale) : Rat) qLow qHigh).map fun z =>
        ⟨scale, z, degenerate⟩) := rfl

theorem ofInterval_rat (low high : Rat) (a : Int) {n : Nat} (hn : 1 ≤ n) :
    ScaleZeroPoint.ofInterval low high (a : Rat) ((a + n : Int) : Rat) =
      .ok ⟨stepOf low high n, nearest (a - low / stepOf low high n) a (a + n),
        decide ((high - low) / (n : Rat) = 0)⟩ := by
  have hn' : (n : Rat) ≠ 0 := by exact_mod_cast Nat.one_le_iff_ne_zero.mp hn
  have hlength : ((a + n : Int) : Rat) - a = n := by push_cast; ring
  have hscale : (if decide ((high - low) / (n : Rat) = 0) = true then 1 else (high - low) / n) =
      stepOf low high n := by
    simp only [decide_eq_true_eq, div_eq_zero_iff, hn', or_false, sub_eq_zero, stepOf]
    congr 1
    exact propext eq_comm
  have hwide : ScaleZeroPoint.ofInterval low high (a : Rat) ((a + n : Int) : Rat) =
      ScaleZeroPoint.ofWideInterval low high (a : Rat) ((a + n : Int) : Rat) := by
    rw [ScaleZeroPoint.ofInterval]
    exact bind_pure _
  rw [hwide, ofWideInterval_rat, hlength]
  dsimp only
  rw [Bool.not_true, Bool.or_false, hscale, clamp_rat (by omega)]
  rfl

theorem quantizeBound_rat {grid : Grid Rat} {a : Int} {n : Nat} (hlow : grid.low = a)
    (hhigh : grid.high = ((a + n : Int) : Rat)) (p : ScaleZeroPoint Rat) (value : Rat) :
    quantizeBound grid p value =
      .ok (nearest (value / p.scale + p.zeroPoint) a (a + n) : Rat) := by
  have hclamp : quantizeBound grid p value =
      Arithmetic.clamp (roundHalfAway (value / p.scale + p.zeroPoint) : Rat) grid.low grid.high :=
    rfl
  rw [hclamp, hlow, hhigh, clamp_rat (by omega), nearest]

def margin (low high : Rat) (levels : Nat) : Rat :=
  if low = high then levels else |high - low| / (levels - 1 : Nat)

def NearZero (low high : Rat) (levels : Nat) : Prop :=
  min low high ≤ margin low high levels ∧ -margin low high levels ≤ max low high

instance (low high : Rat) (levels : Nat) : Decidable (NearZero low high levels) :=
  inferInstanceAs (Decidable (_ ∧ _))

theorem nearZero_empty (a : Int) (low : Rat) (n : Nat) :
    NearZero low low (n + 1) ↔
      |(nearest (a + shift a n low) a (a + n) : Rat) - (a + shift a n low)| ≤ 1 := by
  rw [abs_nearest_sub_le_one (by omega), NearZero, margin, if_pos rfl, min_self, max_self]
  have hshift := shift_within_grid (a := a) (t := low) (Int.natCast_nonneg n)
  rw [abs_le] at hshift
  push_cast at hshift ⊢
  constructor
  · rintro ⟨h₁, h₂⟩
    obtain ⟨h₃, h₄⟩ := hshift.mpr ⟨by linarith, h₁⟩
    constructor <;> linarith
  · rintro ⟨h₁, h₂⟩
    obtain ⟨h₃, h₄⟩ := hshift.mp ⟨by linarith, by linarith⟩
    constructor <;> linarith

theorem nearZero_iff_shift (a : Int) {low high : Rat} (hne : low ≠ high) {n : Nat} (hn : 1 ≤ n) :
    NearZero low high (n + 1) ↔ |shift a n (low / ((high - low) / n))| ≤ 1 := by
  have hn' : (0 : Rat) < n := by exact_mod_cast hn
  rw [abs_shift_le_one (Int.natCast_nonneg n), NearZero, margin, if_neg hne, Nat.add_sub_cancel]
  have hend : low / ((high - low) / n) + (n : Int) = high / ((high - low) / n) := by
    have hd : high - low ≠ 0 := sub_ne_zero.mpr (Ne.symm hne)
    push_cast
    field_simp
    ring
  rw [hend]
  rcases lt_or_gt_of_ne hne with hlt | hgt
  · have hs : 0 < (high - low) / n := div_pos (by linarith) hn'
    rw [min_eq_left hlt.le, max_eq_right hlt.le, abs_of_pos (by linarith), div_le_one hs,
      le_div_iff₀ hs, neg_one_mul]
  · have hs : (high - low) / n < 0 := div_neg_of_neg_of_pos (by linarith) hn'
    rw [min_eq_right hgt.le, max_eq_left hgt.le, abs_of_neg (by linarith), div_le_one_of_neg hs,
      le_div_iff_of_neg hs, neg_one_mul, neg_div, neg_neg]
    exact and_comm

def Restores (scale zeroPoint quantized value : Rat) : Prop :=
  |(quantized - zeroPoint) * scale - value| ≤ |scale|

theorem restores_iff {scale z t w k : Rat} (hs : scale ≠ 0) :
    Restores scale z w (scale * (t + k)) ↔ |w - (z + t + k)| ≤ 1 := by
  have hfactor : (w - z) * scale - scale * (t + k) = scale * (w - (z + t + k)) := by ring
  rw [Restores, hfactor, abs_mul]
  exact mul_le_iff_le_one_right (abs_pos.mpr hs)

variable {grid : Grid Rat} {a : Int} {n : Nat} {low high qLow qHigh : Rat} {p : ScaleZeroPoint Rat}

theorem restores_empty (hn : 1 ≤ n) (hlow : grid.low = a) (hhigh : grid.high = ((a + n : Int) : Rat))
    (hp : ScaleZeroPoint.ofInterval low low grid.low grid.high = .ok p)
    (hq : quantizeBound grid p low = .ok qLow) :
    (Restores p.scale p.zeroPoint qLow low ↔ NearZero low low (n + 1)) ∧
      ∃ m : Int, qLow = m := by
  rw [hlow, hhigh, ofInterval_rat low low a hn, Except.ok.injEq] at hp
  rw [quantizeBound_rat hlow hhigh, Except.ok.injEq] at hq
  have hstep : stepOf low low n = 1 := if_pos rfl
  subst hp
  simp only [hstep, div_one] at hq ⊢
  have hgrid : low + (nearest (a - low) a (a + n) : Rat) = a + shift a n low := by
    rw [shift]
    ring
  have hrestores := restores_iff (z := nearest (a - low) a (a + n)) (t := low) (w := qLow) (k := 0)
    (one_ne_zero (α := Rat))
  rw [one_mul, add_zero, add_zero, add_comm _ low, hgrid] at hrestores
  rw [hgrid] at hq
  exact ⟨by rw [hrestores, nearZero_empty a low n, hq], _, hq.symm⟩

theorem bounds_on_grid (hn : 1 ≤ n) (hne : low ≠ high) (hlow : grid.low = a)
    (hhigh : grid.high = ((a + n : Int) : Rat))
    (hp : ScaleZeroPoint.ofInterval low high grid.low grid.high = .ok p)
    (hql : quantizeBound grid p low = .ok qLow) (hqh : quantizeBound grid p high = .ok qHigh) :
    let s := (high - low) / n
    let d := shift a n (low / s)
    s ≠ 0 ∧ p.scale = s ∧ p.zeroPoint + low / s = a + d ∧ high = s * (low / s + n) ∧
      qLow = nearest (a + d) a (a + n) ∧ qHigh = nearest (a + n + d) a (a + n) := by
  intro s d
  rw [hlow, hhigh, ofInterval_rat low high a hn, Except.ok.injEq] at hp
  rw [quantizeBound_rat hlow hhigh, Except.ok.injEq] at hql hqh
  have hstep : stepOf low high n = s := if_neg hne
  have hs : s ≠ 0 := hstep ▸ stepOf_ne_zero hn
  have hn' : (n : Rat) ≠ 0 := by exact_mod_cast Nat.one_le_iff_ne_zero.mp hn
  subst hp
  simp only [hstep] at hql hqh ⊢
  have hgrid : low / s + (nearest (a - low / s) a (a + n) : Rat) = a + d := by
    change _ = a + shift a n (low / s)
    rw [shift]
    ring
  have hend : high = s * (low / s + n) := by
    have hlength : s * n = high - low := div_mul_cancel₀ _ hn'
    rw [mul_add, mul_div_cancel₀ _ hs, hlength]
    ring
  have hend' : high / s + (nearest (a - low / s) a (a + n) : Rat) = a + n + d := by
    rw [div_eq_iff hs |>.mpr (hend.trans (mul_comm _ _)), add_right_comm, hgrid]
    ring
  refine ⟨hs, trivial, by rw [add_comm, hgrid], hend, ?_, ?_⟩
  · rw [← hql, hgrid]
  · rw [← hqh, hend']

theorem point_restores (hn : 1 ≤ n) (hne : low ≠ high) (hlow : grid.low = a)
    (hhigh : grid.high = ((a + n : Int) : Rat))
    (hp : ScaleZeroPoint.ofInterval low high grid.low grid.high = .ok p)
    (hql : quantizeBound grid p low = .ok qLow) (hqh : quantizeBound grid p high = .ok qHigh)
    (hnear : NearZero low high (n + 1)) {k : Int} (hk : 0 ≤ k) (hkn : k ≤ n) :
    let v := (k : Rat) / n * (high - low) + low
    let w := (k : Rat) / n * (qHigh - qLow) + qLow
    Restores p.scale p.zeroPoint w v ∧ Restores p.scale p.zeroPoint (roundHalfAway w) v := by
  intro v w
  obtain ⟨hs, hscale, hzero, hend, hqLow, hqHigh⟩ := bounds_on_grid hn hne hlow hhigh hp hql hqh
  have hn' : (n : Rat) ≠ 0 := by exact_mod_cast Nat.one_le_iff_ne_zero.mp hn
  have hv : v = (high - low) / n * (low / ((high - low) / n) + k) := by
    rw [mul_add, mul_div_cancel₀ _ hs, add_comm]
    change (k : Rat) / n * (high - low) + low = _
    ring
  have herror := step_error (a := a) (n := n) (by exact_mod_cast hn)
    ((nearZero_iff_shift a hne hn).mp hnear) hk hkn rfl rfl
  rw [hv, hscale, restores_iff hs, restores_iff hs, hzero]
  change |(k : Rat) / n * (qHigh - qLow) + qLow - _| ≤ 1 ∧
    |(roundHalfAway ((k : Rat) / n * (qHigh - qLow) + qLow) : Rat) - _| ≤ 1
  rw [hqLow, hqHigh]
  exact_mod_cast herror

theorem end_not_restored (hn : 1 ≤ n) (hne : low ≠ high) (hlow : grid.low = a)
    (hhigh : grid.high = ((a + n : Int) : Rat))
    (hp : ScaleZeroPoint.ofInterval low high grid.low grid.high = .ok p)
    (hql : quantizeBound grid p low = .ok qLow) (hqh : quantizeBound grid p high = .ok qHigh)
    (hfar : ¬ NearZero low high (n + 1)) :
    ¬ Restores p.scale p.zeroPoint qLow low ∨ ¬ Restores p.scale p.zeroPoint qHigh high := by
  obtain ⟨hs, hscale, hzero, hend, hqLow, hqHigh⟩ := bounds_on_grid hn hne hlow hhigh hp hql hqh
  have hshift := mt (nearZero_iff_shift a hne hn).mpr hfar
  have hstart : low = (high - low) / n * (low / ((high - low) / n) + 0) := by
    rw [add_zero, mul_div_cancel₀ _ hs]
  have hlowIff := restores_iff (z := p.zeroPoint) (t := low / ((high - low) / n)) (w := qLow)
    (k := 0) hs
  have hhighIff := restores_iff (z := p.zeroPoint) (t := low / ((high - low) / n)) (w := qHigh)
    (k := n) hs
  rw [← hstart, hzero, add_zero] at hlowIff
  rw [← hend, hzero, add_right_comm] at hhighIff
  rw [hscale, hlowIff, hhighIff, hqLow, hqHigh, not_le, not_le]
  exact_mod_cast end_error (Int.natCast_nonneg n) (not_le.mp hshift)

theorem channel_restores (hn : 1 ≤ n) (hlow : grid.low = a)
    (hhigh : grid.high = ((a + n : Int) : Rat))
    (hp : ScaleZeroPoint.ofInterval low high grid.low grid.high = .ok p)
    (hql : quantizeBound grid p low = .ok qLow) (hqh : quantizeBound grid p high = .ok qHigh) :
    (NearZero low high (n + 1) → ∀ k : Int, 0 ≤ k → k ≤ n →
      Restores p.scale p.zeroPoint (k / n * (qHigh - qLow) + qLow) (k / n * (high - low) + low) ∧
      Restores p.scale p.zeroPoint (roundHalfAway (k / n * (qHigh - qLow) + qLow))
        (k / n * (high - low) + low)) ∧
    (¬ NearZero low high (n + 1) → ¬ Restores p.scale p.zeroPoint qLow low ∨
      ¬ Restores p.scale p.zeroPoint qHigh high) ∧
    (∃ m : Int, qLow = m) ∧ ∃ m : Int, qHigh = m := by
  by_cases hne : low = high
  · subst hne
    obtain rfl : qLow = qHigh := Except.ok.inj (hql.symm.trans hqh)
    obtain ⟨hiff, hwhole⟩ := restores_empty hn hlow hhigh hp hql
    refine ⟨fun hnear k _ _ => ?_, fun hfar => .inl (mt hiff.mp hfar), hwhole, hwhole⟩
    obtain ⟨m, rfl⟩ := hwhole
    rw [sub_self, sub_self, mul_zero, zero_add, zero_add, roundHalfAway_intCast]
    exact ⟨hiff.mpr hnear, hiff.mpr hnear⟩
  · obtain ⟨-, -, -, -, hqLow, hqHigh⟩ := bounds_on_grid hn hne hlow hhigh hp hql hqh
    exact ⟨fun hnear k hk hkn => point_restores hn hne hlow hhigh hp hql hqh hnear hk hkn,
      end_not_restored hn hne hlow hhigh hp hql hqh, ⟨_, hqLow⟩, _, hqHigh⟩

end Exact

end LowPrecision
