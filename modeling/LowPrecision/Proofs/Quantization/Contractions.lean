import LowPrecision.Proofs.Quantization.Elements

namespace LowPrecision

namespace Values

def scaled (x : Values) (f : Index → Rat) : Values := .of x.shape fun i => x.get i * f i

theorem get_scaled {x : Values} {f : Index → Rat} {i : Index} (hi : i.Inside x.shape) :
    (x.scaled f).get i = x.get i * f i := get_of hi

def single (shape : List Nat) (i : Index) : Values := .of shape fun j => if j = i then 1 else 0

theorem get_single {shape : List Nat} {i j : Index} (hj : j.Inside shape) :
    (single shape i).get j = if j = i then 1 else 0 := get_of hj

end Values

theorem Tensor.zip_scaled {t : Tensor Rat} {x : Values} (h : t.SpreadsOver x.shape) :
    x.zip (· * ·) t.values = some (x.scaled t.valueAt) := Tensor.zip_values h

structure Contraction where
  shape : List Nat
  terms : Index → List (Index × Index)

namespace Contraction

variable {c : Contraction} {left right : List Nat}

def apply (c : Contraction) (x y : Values) : Values :=
  .of c.shape fun i => ((c.terms i).map fun p => x.get p.1 * y.get p.2).sum

def Reads (c : Contraction) (left right : List Nat) : Prop :=
  ∀ i : Index, i.Inside c.shape → ∀ p ∈ c.terms i, p.1.Inside left ∧ p.2.Inside right

/-- Factors of the elements agree with those of the sums in which they occur. -/
def Factors (c : Contraction) (a b e : Index → Rat) : Prop :=
  ∀ i : Index, i.Inside c.shape → ∀ p ∈ c.terms i, a p.1 * b p.2 = e i

theorem sum_single {terms : List (Index × Index)} {p : Index × Index} (a : Index × Index → Rat) :
    (terms.map fun r => (if r = p then 1 else 0) * a r).sum = (terms.count p : Rat) * a p := by
  induction terms with
  | nil => simp
  | cons r terms ih =>
    rw [List.map_cons, List.sum_cons, ih, List.count_cons]
    by_cases h : r = p
    · subst h
      simp only [if_true, beq_self_eq_true, Nat.cast_add, Nat.cast_one]
      ring
    · simp [h]

theorem apply_scaled_iff (h : c.Reads left right) (a b e : Index → Rat) :
    (∀ x y : Values, x.shape = left → y.shape = right →
      c.apply (x.scaled a) (y.scaled b) = (c.apply x y).scaled e) ↔ c.Factors a b e := by
  have hold : ∀ x y : Values, x.shape = left → y.shape = right → ∀ i, i.Inside c.shape →
      ((c.terms i).map fun p => (x.scaled a).get p.1 * (y.scaled b).get p.2).sum =
        ((c.terms i).map fun p => (x.get p.1 * y.get p.2) * (a p.1 * b p.2)).sum := by
    intro x y hx hy i hi
    refine congrArg List.sum (List.map_congr_left fun p hp => ?_)
    obtain ⟨hleft, hright⟩ := h i hi p hp
    rw [Values.get_scaled (hx ▸ hleft), Values.get_scaled (hy ▸ hright)]
    ring
  constructor
  · intro hall i hi p hp
    have hone := Values.of_inj.mp (hall (.single left p.1) (.single right p.2) rfl rfl) i hi
    have hproduct : ∀ r ∈ c.terms i, (Values.single left p.1).get r.1 * (Values.single right p.2).get r.2 =
        if r = p then 1 else 0 := by
      intro r hr
      obtain ⟨hleft, hright⟩ := h i hi r hr
      rw [Values.get_single hleft, Values.get_single hright]
      by_cases h₁ : r.1 = p.1 <;> by_cases h₂ : r.2 = p.2 <;> simp [Prod.ext_iff, h₁, h₂]
    rw [hold _ _ rfl rfl i hi, apply, Values.get_of hi,
      List.map_congr_left fun r hr => congrArg (· * (a r.1 * b r.2)) (hproduct r hr),
      List.map_congr_left hproduct, sum_single fun r => a r.1 * b r.2] at hone
    have hcount : ((c.terms i).map fun r => (if r = p then 1 else 0) * (1 : Rat)).sum = _ :=
      sum_single fun _ => 1
    simp only [mul_one] at hcount
    rw [hcount] at hone
    have hne : ((c.terms i).count p : Rat) ≠ 0 := Nat.cast_ne_zero.mpr (List.count_pos_iff.mpr hp).ne'
    exact mul_left_cancel₀ hne hone
  · intro hall x y hx hy
    refine Values.of_congr fun i hi => ?_
    rw [hold x y hx hy i hi, apply, Values.get_of hi, ← List.sum_map_mul_right]
    exact congrArg List.sum (List.map_congr_left fun p hp => by rw [hall i hi p hp])

theorem apply_zip_iff {s : Tensor Rat} (h : c.Reads left right) (a b : Index → Rat) :
    (∀ x y : Values, x.shape = left → y.shape = right →
      (c.apply x y).zip (· * ·) s.values = some (c.apply (x.scaled a) (y.scaled b))) ↔
      s.SpreadsOver c.shape ∧ c.Factors a b s.valueAt := by
  constructor
  · intro hall
    have hspread : s.SpreadsOver c.shape := by
      have hzip := hall (.of left fun _ => 0) (.of right fun _ => 0) rfl rfl
      rw [Values.zip] at hzip
      split at hzip
      · next shape hshape =>
        obtain rfl : shape = c.shape := congrArg Values.shape (Option.some.inj hzip)
        exact broadcastShape_comm hshape
      · cases hzip
    refine ⟨hspread, (apply_scaled_iff h _ _ _).mp fun x y hx hy => ?_⟩
    have hzip := hall x y hx hy
    rw [Tensor.zip_scaled (x := c.apply x y) hspread] at hzip
    exact (Option.some.inj hzip).symm
  · rintro ⟨hspread, hfactors⟩ x y hx hy
    rw [Tensor.zip_scaled (x := c.apply x y) hspread, (apply_scaled_iff h _ _ _).mpr hfactors x y hx hy]

end Contraction

end LowPrecision
