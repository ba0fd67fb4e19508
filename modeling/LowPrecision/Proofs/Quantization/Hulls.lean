import Mathlib.Data.Set.Insert
import LowPrecision.Markup.Alignment

namespace LowPrecision

namespace Binary

variable {f : BinaryFormat} {x y z : Binary f}

theorem ordered_iff : ordered x y = true ↔ x.isNaN = false ∧ y.isNaN = false := by
  rw [ordered, Bool.and_eq_true, Bool.not_eq_true', Bool.not_eq_true']

theorem le_iff : x ≤ y ↔ (x.isNaN = false ∧ y.isNaN = false) ∧ x.position ≤ y.position := by
  change le x y = true ↔ _
  rw [le, Bool.and_eq_true, ordered_iff, decide_eq_true_eq]

theorem lt_iff : x < y ↔ (x.isNaN = false ∧ y.isNaN = false) ∧ x.position < y.position := by
  change lt x y = true ↔ _
  rw [lt, Bool.and_eq_true, ordered_iff, decide_eq_true_eq]

theorem isNumber_of_not_nan (hx : x.isNaN = false) : Arithmetic.isNumber x = true := by
  change equal x x = true
  rw [equal, Bool.and_eq_true, ordered_iff, decide_eq_true_eq]
  exact ⟨⟨hx, hx⟩, rfl⟩

theorem le_self (hx : x.isNaN = false) : x ≤ x := le_iff.mpr ⟨⟨hx, hx⟩, Int.le_refl _⟩

theorem le_trans (hxy : x ≤ y) (hyz : y ≤ z) : x ≤ z := by
  obtain ⟨⟨hx, -⟩, hxy⟩ := le_iff.mp hxy
  obtain ⟨⟨-, hz⟩, hyz⟩ := le_iff.mp hyz
  exact le_iff.mpr ⟨⟨hx, hz⟩, Int.le_trans hxy hyz⟩

theorem lesser_cases (hx : x.isNaN = false) (hy : y.isNaN = false) :
    Arithmetic.lesser x y = x ∧ x ≤ y ∨ Arithmetic.lesser x y = y ∧ y ≤ x := by
  rw [Arithmetic.lesser, if_pos (isNumber_of_not_nan hx)]
  split
  · next hlt => exact .inr ⟨rfl, le_iff.mpr ⟨⟨hy, hx⟩, Int.le_of_lt (lt_iff.mp hlt).2⟩⟩
  · next hlt =>
    refine .inl ⟨rfl, le_iff.mpr ⟨⟨hx, hy⟩, Int.not_lt.mp fun hpos => hlt ?_⟩⟩
    exact lt_iff.mpr ⟨⟨hy, hx⟩, hpos⟩

theorem greater_cases (hx : x.isNaN = false) (hy : y.isNaN = false) :
    Arithmetic.greater x y = x ∧ y ≤ x ∨ Arithmetic.greater x y = y ∧ x ≤ y := by
  rw [Arithmetic.greater, if_pos (isNumber_of_not_nan hx)]
  split
  · next hlt => exact .inr ⟨rfl, le_iff.mpr ⟨⟨hx, hy⟩, Int.le_of_lt (lt_iff.mp hlt).2⟩⟩
  · next hlt =>
    refine .inl ⟨rfl, le_iff.mpr ⟨⟨hy, hx⟩, Int.not_lt.mp fun hpos => hlt ?_⟩⟩
    exact lt_iff.mpr ⟨⟨hx, hy⟩, hpos⟩

end Binary

structure IsHull {α : Type} [Arithmetic α] (intervals : Set (SharedInterval α))
    (hull : SharedInterval α) : Prop where
  low_mem : ∃ i ∈ intervals, hull.low = i.low
  low_le : ∀ i ∈ intervals, hull.low ≤ i.low
  high_mem : ∃ i ∈ intervals, hull.high = i.high
  le_high : ∀ i ∈ intervals, i.high ≤ hull.high
  levels_mem : ∃ i ∈ intervals, hull.levels = i.levels
  levels_le : ∀ i ∈ intervals, hull.levels ≤ i.levels

section Hulls

variable {f : BinaryFormat} {x y : SharedInterval (Binary f)}
  {intervals intervals' : Set (SharedInterval (Binary f))}

namespace SharedInterval

theorem low_widen {α : Type} [Arithmetic α] (x y : SharedInterval α) :
    (x.widen y).low = Arithmetic.lesser x.low y.low := rfl

theorem high_widen {α : Type} [Arithmetic α] (x y : SharedInterval α) :
    (x.widen y).high = Arithmetic.greater x.high y.high := rfl

theorem levels_widen {α : Type} [Arithmetic α] (x y : SharedInterval α) :
    (x.widen y).levels = min x.levels y.levels := rfl

def Numeric (i : SharedInterval (Binary f)) : Prop :=
  i.low.isNaN = false ∧ i.high.isNaN = false

theorem Numeric.widen (hx : x.Numeric) (hy : y.Numeric) : (x.widen y).Numeric := by
  constructor
  · rw [low_widen]
    rcases Binary.lesser_cases hx.1 hy.1 with ⟨he, -⟩ | ⟨he, -⟩ <;> rw [he]
    · exact hx.1
    · exact hy.1
  · rw [high_widen]
    rcases Binary.greater_cases hx.2 hy.2 with ⟨he, -⟩ | ⟨he, -⟩ <;> rw [he]
    · exact hx.2
    · exact hy.2

end SharedInterval

open SharedInterval

namespace IsHull

theorem numeric (h : IsHull intervals x) (hall : ∀ i ∈ intervals, i.Numeric) : x.Numeric := by
  obtain ⟨i, hi, hlow⟩ := h.low_mem
  obtain ⟨j, hj, hhigh⟩ := h.high_mem
  exact ⟨hlow ▸ (hall i hi).1, hhigh ▸ (hall j hj).2⟩

theorem single (hx : x.Numeric) : IsHull {x} x where
  low_mem := ⟨x, rfl, rfl⟩
  low_le i hi := by
    obtain rfl : i = x := hi
    exact Binary.le_self hx.1
  high_mem := ⟨x, rfl, rfl⟩
  le_high i hi := by
    obtain rfl : i = x := hi
    exact Binary.le_self hx.2
  levels_mem := ⟨x, rfl, rfl⟩
  levels_le i hi := by
    obtain rfl : i = x := hi
    exact Nat.le_refl _

theorem widen (h : IsHull intervals x) (h' : IsHull intervals' y) (hx : x.Numeric)
    (hy : y.Numeric) : IsHull (intervals ∪ intervals') (x.widen y) := by
  have hmem : ∀ {P : SharedInterval (Binary f) → Prop},
      (∃ i ∈ intervals, P i) ∨ (∃ i ∈ intervals', P i) → ∃ i ∈ intervals ∪ intervals', P i := by
    rintro P (⟨i, hi, hp⟩ | ⟨i, hi, hp⟩)
    · exact ⟨i, .inl hi, hp⟩
    · exact ⟨i, .inr hi, hp⟩
  refine {
    low_mem := hmem ?low_mem
    low_le := fun i hi => ?low_le
    high_mem := hmem ?high_mem
    le_high := fun i hi => ?le_high
    levels_mem := hmem ?levels_mem
    levels_le := fun i hi => ?levels_le }
  case low_mem =>
    rw [low_widen]
    rcases Binary.lesser_cases hx.1 hy.1 with ⟨he, -⟩ | ⟨he, -⟩ <;> rw [he]
    · exact .inl h.low_mem
    · exact .inr h'.low_mem
  case low_le =>
    rw [low_widen]
    rcases Binary.lesser_cases hx.1 hy.1 with ⟨he, hle⟩ | ⟨he, hle⟩ <;> rw [he]
    · exact hi.elim (h.low_le i) fun hi => Binary.le_trans hle (h'.low_le i hi)
    · exact hi.elim (fun hi => Binary.le_trans hle (h.low_le i hi)) (h'.low_le i)
  case high_mem =>
    rw [high_widen]
    rcases Binary.greater_cases hx.2 hy.2 with ⟨he, -⟩ | ⟨he, -⟩ <;> rw [he]
    · exact .inl h.high_mem
    · exact .inr h'.high_mem
  case le_high =>
    rw [high_widen]
    rcases Binary.greater_cases hx.2 hy.2 with ⟨he, hle⟩ | ⟨he, hle⟩ <;> rw [he]
    · exact hi.elim (h.le_high i) fun hi => Binary.le_trans (h'.le_high i hi) hle
    · exact hi.elim (fun hi => Binary.le_trans (h.le_high i hi) hle) (h'.le_high i)
  case levels_mem =>
    rw [levels_widen]
    rcases Nat.le_total x.levels y.levels with hle | hle
    · rw [Nat.min_eq_left hle]
      exact .inl h.levels_mem
    · rw [Nat.min_eq_right hle]
      exact .inr h'.levels_mem
  case levels_le =>
    rw [levels_widen]
    exact hi.elim (fun hi => Nat.le_trans (Nat.min_le_left _ _) (h.levels_le i hi))
      fun hi => Nat.le_trans (Nat.min_le_right _ _) (h'.levels_le i hi)

theorem flatten {covered : Set (SharedInterval (Binary f))} (h : IsHull intervals x)
    (hparts : ∀ i ∈ intervals, ∃ part ⊆ covered, IsHull part i)
    (hall : ∀ j ∈ covered, ∃ i ∈ intervals, ∃ part, j ∈ part ∧ IsHull part i) :
    IsHull covered x where
  low_mem := by
    obtain ⟨i, hi, he⟩ := h.low_mem
    obtain ⟨part, hpart, hhull⟩ := hparts i hi
    obtain ⟨j, hj, he'⟩ := hhull.low_mem
    exact ⟨j, hpart hj, he.trans he'⟩
  low_le j hj := by
    obtain ⟨i, hi, part, hpart, hhull⟩ := hall j hj
    exact Binary.le_trans (h.low_le i hi) (hhull.low_le j hpart)
  high_mem := by
    obtain ⟨i, hi, he⟩ := h.high_mem
    obtain ⟨part, hpart, hhull⟩ := hparts i hi
    obtain ⟨j, hj, he'⟩ := hhull.high_mem
    exact ⟨j, hpart hj, he.trans he'⟩
  le_high j hj := by
    obtain ⟨i, hi, part, hpart, hhull⟩ := hall j hj
    exact Binary.le_trans (hhull.le_high j hpart) (h.le_high i hi)
  levels_mem := by
    obtain ⟨i, hi, he⟩ := h.levels_mem
    obtain ⟨part, hpart, hhull⟩ := hparts i hi
    obtain ⟨j, hj, he'⟩ := hhull.levels_mem
    exact ⟨j, hpart hj, he.trans he'⟩
  levels_le j hj := by
    obtain ⟨i, hi, part, hpart, hhull⟩ := hall j hj
    exact Nat.le_trans (h.levels_le i hi) (hhull.levels_le j hpart)

end IsHull

end Hulls

section Ranges

open Markup

variable {r first : Ranges Binary32} {rest : List (Ranges Binary32)}

def Ranges.Numeric (r : Ranges Binary32) : Prop :=
  ∀ x ∈ r.outputLow.data ++ r.outputHigh.data, x.isNaN = false

theorem foldl_choice_mem {β : Type} (p : β → β → Bool) (rest : List β) (first : β) :
    rest.foldl (fun held x => if p held x then held else x) first ∈ first :: rest := by
  induction rest generalizing first with
  | nil => exact List.mem_singleton.mpr rfl
  | cons x rest ih =>
    rw [List.foldl_cons]
    split
    · exact List.mem_cons.mpr ((List.mem_cons.mp (ih first)).imp id (List.mem_cons_of_mem _))
    · exact List.mem_cons_of_mem _ (ih x)

theorem Tensor.extremes_mem {t : Tensor Binary32} {low high : Binary32}
    (h : t.extremes = some (low, high)) : low ∈ t.data ∧ high ∈ t.data := by
  rw [Tensor.extremes] at h
  split at h
  · cases h
  · next first rest hdata =>
    cases h
    rw [hdata]
    exact ⟨foldl_choice_mem Scalar.precedes rest first,
      foldl_choice_mem (fun high x => Scalar.precedes x high) rest first⟩

theorem Ranges.Numeric.intervalOf (h : r.Numeric) : (intervalOf r).Numeric := by
  have hzero : (Arithmetic.zero : Binary32).isNaN = false := by decide +kernel
  have hpick : ∀ {t : Tensor Binary32} {pick : Binary32 × Binary32 → Binary32},
      (∀ x ∈ t.data, x.isNaN = false) → (∀ low high, pick (low, high) = low ∨ pick (low, high) = high) →
      ((t.extremes.map pick).getD Arithmetic.zero).isNaN = false := by
    intro t pick hdata hpick
    cases hextremes : t.extremes with
    | none => exact hzero -- a range without values has the interval of a zero
    | some e =>
      obtain ⟨low, high⟩ := e
      obtain ⟨hlow, hhigh⟩ := Tensor.extremes_mem hextremes
      change (pick (low, high)).isNaN = false
      rcases hpick low high with he | he <;> rw [he]
      · exact hdata low hlow
      · exact hdata high hhigh
  exact ⟨hpick (fun x hx => h x (List.mem_append_left _ hx)) fun _ _ => .inl rfl,
    hpick (fun x hx => h x (List.mem_append_right _ hx)) fun _ _ => .inr rfl⟩

theorem isHull_foldl (h : ∀ r ∈ first :: rest, r.Numeric) :
    IsHull {i | ∃ r ∈ first :: rest, i = intervalOf r}
      (rest.foldl (fun hull r => hull.widen (intervalOf r)) (intervalOf first)) := by
  suffices hfold : ∀ (rest : List (Ranges Binary32)) (intervals : Set (SharedInterval Binary32))
      (hull : SharedInterval Binary32), (∀ r ∈ rest, r.Numeric) → IsHull intervals hull →
      hull.Numeric → IsHull (intervals ∪ {i | ∃ r ∈ rest, i = intervalOf r})
        (rest.foldl (fun hull r => hull.widen (intervalOf r)) hull) by
    have hfirst := (h first List.mem_cons_self).intervalOf
    have hset : {i | ∃ r ∈ first :: rest, i = intervalOf r} =
        {intervalOf first} ∪ {i | ∃ r ∈ rest, i = intervalOf r} := by
      ext i
      simp
    rw [hset]
    exact hfold rest _ _ (fun r hr => h r (List.mem_cons_of_mem _ hr)) (.single hfirst) hfirst
  intro rest
  induction rest with
  | nil =>
    intro intervals hull _ hhull _
    simpa using hhull
  | cons r rest ih =>
    intro intervals hull hrest hhull hnumeric
    obtain ⟨hr, hrest⟩ := List.forall_mem_cons.mp hrest
    have hset : intervals ∪ {i | ∃ r' ∈ r :: rest, i = intervalOf r'} =
        intervals ∪ {intervalOf r} ∪ {i | ∃ r ∈ rest, i = intervalOf r} := by
      ext i
      simp only [List.mem_cons, exists_eq_or_imp, Set.mem_union, Set.mem_ofPred_eq,
        Set.mem_singleton_iff, or_assoc]
    rw [List.foldl_cons, hset]
    exact ih _ _ hrest (hhull.widen (.single hr.intervalOf) hnumeric hr.intervalOf)
      (hnumeric.widen hr.intervalOf)

end Ranges

end LowPrecision
