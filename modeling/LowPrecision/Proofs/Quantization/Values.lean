import LowPrecision.Proofs.Quantization.Broadcasting
import LowPrecision.Proofs.Quantization.Layouts

namespace LowPrecision

theorem Widens.drop_pad {shape target : List Nat} (h : Widens (padShape target.length shape) target) :
    Widens shape (target.drop (target.length - shape.length)) := by
  have hrest := List.forall₂_drop (target.length - shape.length) h
  rwa [padShape, List.drop_left' (List.length_replicate ..)] at hrest

namespace Index

def fit (i : Index) (shape : List Nat) : Index :=
  List.zipWith (fun dim x => if dim = 1 then 0 else x) shape (i.drop (i.length - shape.length))

instance (i : Index) (shape : List Nat) : Decidable (i.Inside shape) :=
  inferInstanceAs (Decidable (List.Forall₂ (· < ·) i shape))

theorem Inside.fit_self {i : Index} {shape : List Nat} (h : i.Inside shape) : i.fit shape = i := by
  have hlength : i.length = shape.length := h.length_eq
  rw [fit, hlength, Nat.sub_self, List.drop_zero]
  clear hlength
  induction h with
  | nil => rfl
  | cons hlt _ ih =>
    rw [List.zipWith_cons_cons, ih]
    split
    · next hone =>
      subst hone
      rw [Nat.lt_one_iff.mp hlt]
    · rfl

theorem Inside.drop {i : Index} {shape : List Nat} (h : i.Inside shape) (k : Nat) :
    Inside (i.drop k) (shape.drop k) := List.forall₂_drop k h

theorem Inside.fit_widens {i : Index} {shape target : List Nat} (h : i.Inside target)
    (hw : Widens (padShape target.length shape) target) :
    (i.fit shape).Inside shape := by
  have hlength : i.length = target.length := h.length_eq
  have hdrop := hw.drop_pad
  have hin := h.drop (target.length - shape.length)
  rw [fit, hlength]
  generalize target.drop (target.length - shape.length) = inner at hdrop hin
  generalize i.drop (target.length - shape.length) = j at hin
  clear hlength hw h
  induction hdrop generalizing j with
  | nil => cases hin; exact .nil
  | cons hd _ ih =>
    cases hin with
    | cons hlt hin =>
      refine .cons ?_ (ih _ hin)
      dsimp only
      split
      · next hone => rw [hone]; exact Nat.one_pos
      · next hne => exact hd.resolve_right hne ▸ hlt

end Index

theorem Tensor.place_fit (shape : List Nat) (i : Index) :
    place shape (i.fit shape) = place shape (i.drop (i.length - shape.length)) := by
  rw [Index.fit]
  generalize i.drop (i.length - shape.length) = j
  induction shape generalizing j with
  | nil => simp [place]
  | cons dim shape ih =>
    cases j with
    | nil => simp [place]
    | cons x j =>
      rw [List.zipWith_cons_cons, place, place, ih]
      split <;> simp [*]

/-- A shape with a number at each index inside it, and 0 everywhere else. -/
@[ext]
structure Values where
  shape : List Nat
  get : Index → Rat
  outside (i : Index) : ¬ i.Inside shape → get i = 0

namespace Values

def of (shape : List Nat) (f : Index → Rat) : Values where
  shape := shape
  get i := if i.Inside shape then f i else 0
  outside _ h := if_neg h

variable {shape : List Nat} {x y : Values} {f g : Index → Rat} {op : Rat → Rat → Rat} {i : Index}

@[simp] theorem shape_of : (of shape f).shape = shape := rfl

theorem get_of (hi : i.Inside shape) : (of shape f).get i = f i := if_pos hi

theorem of_congr (h : ∀ i, i.Inside shape → f i = g i) : of shape f = of shape g := by
  refine Values.ext rfl (funext fun i => ?_)
  change (if _ then _ else _) = (if _ then _ else _)
  split
  · next hi => exact h i hi
  · rfl

theorem of_get (x : Values) : of x.shape x.get = x := by
  refine Values.ext rfl (funext fun i => ?_)
  change (if _ then _ else _) = _
  split
  · rfl
  · next hi => exact (x.outside i hi).symm

theorem of_inj : of shape f = of shape g ↔ ∀ i, i.Inside shape → f i = g i := by
  refine ⟨fun h i hi => ?_, of_congr⟩
  rw [← get_of (f := f) hi, h, get_of hi]

def zip (op : Rat → Rat → Rat) (x y : Values) : Option Values :=
  match broadcastShape x.shape y.shape with
  | .ok shape => some (of shape fun i => op (x.get (i.fit x.shape)) (y.get (i.fit y.shape)))
  | .error _ => none

end Values

theorem joinAxes_comm {lhs rhs shape : List Nat} (h : joinAxes lhs rhs = .ok shape) :
    joinAxes rhs lhs = .ok shape := by
  induction lhs generalizing rhs shape with
  | nil =>
    cases rhs <;> exact h
  | cons a lhs ih =>
    cases rhs with
    | nil => exact h
    | cons b rhs =>
      rw [joinAxes] at h ⊢
      split at h
      · next hab =>
        obtain ⟨rest, hjoin, rfl⟩ := except_map_mapError_eq_ok h
        rw [ih hjoin]
        rw [Bool.or_eq_true, decide_eq_true_eq, decide_eq_true_eq] at hab
        rcases hab with rfl | rfl
        · simp [Except.mapError, Functor.map, Except.map]
        · by_cases ha : a = 1 <;> simp [ha, eq_comm, Except.mapError, Functor.map, Except.map]
      · next hab =>
        split at h
        · next ha =>
          obtain ⟨rest, hjoin, rfl⟩ := except_map_mapError_eq_ok h
          rw [ih hjoin]
          simp [ha, Except.mapError, Functor.map, Except.map]
        · cases h

theorem broadcastShape_eq_ok {lhs rhs shape : List Nat} :
    broadcastShape lhs rhs = .ok shape ↔
      joinAxes (padShape (max lhs.length rhs.length) lhs)
        (padShape (max lhs.length rhs.length) rhs) = .ok shape := by
  rw [broadcastShape]
  split
  · next h => rw [h, Except.ok.injEq, Except.ok.injEq]
  · next h => rw [h]; simp

theorem broadcastShape_comm {lhs rhs shape : List Nat} (h : broadcastShape lhs rhs = .ok shape) :
    broadcastShape rhs lhs = .ok shape := by
  rw [broadcastShape_eq_ok] at h ⊢
  rw [Nat.max_comm]
  exact joinAxes_comm h

namespace Values

variable {shape : List Nat} {x y : Values} {op : Rat → Rat → Rat} {i : Index}

theorem zip_eq_some_of (h : broadcastShape x.shape y.shape = .ok shape) :
    zip op x y = some (of shape fun i => op (x.get (i.fit x.shape)) (y.get (i.fit y.shape))) := by
  rw [zip, h]

theorem zip_comm (hop : ∀ a b, op a b = op b a) (x y : Values) : zip op x y = zip op y x := by
  cases h : broadcastShape x.shape y.shape with
  | ok shape =>
    rw [zip_eq_some_of h, zip_eq_some_of (broadcastShape_comm h)]
    exact congrArg some (of_congr fun i _ => hop _ _)
  | error e =>
    cases h' : broadcastShape y.shape x.shape with
    | ok shape => cases h.symm.trans (broadcastShape_comm h')
    | error e' => rw [zip, zip, h, h']

end Values

namespace Tensor

def Filled {α : Type} (t : Tensor α) : Prop := t.size = t.shape.prod

def values (t : Tensor Rat) : Values := .of t.shape fun i => (t.data[place t.shape i]?).getD 0

def valueAt (t : Tensor Rat) (i : Index) : Rat := (t.spread? i).getD 0

@[simp] theorem valueAt_scalar (a : Rat) (i : Index) : (scalar a).valueAt i = a := by
  rw [valueAt, spread?_scalar, Option.getD_some]

variable {t : Tensor Rat} {shape : List Nat} {i : Index}

theorem SpreadsOver.widens (h : t.SpreadsOver shape) :
    Widens (padShape shape.length t.shape) shape := (Widens.of_broadcastShape h).1

theorem get_values (h : (i.fit t.shape).Inside t.shape) : t.values.get (i.fit t.shape) = t.valueAt i := by
  rw [values, Values.get_of h, valueAt, spread?, place_fit]
  rfl

theorem get_values_of_spreadsOver (h : t.SpreadsOver shape) (hi : i.Inside shape) :
    t.values.get (i.fit t.shape) = t.valueAt i :=
  get_values (hi.fit_widens h.widens)

theorem zip_values {op : Rat → Rat → Rat} {x : Values} (h : t.SpreadsOver x.shape) :
    x.zip op t.values = some (.of x.shape fun i => op (x.get i) (t.valueAt i)) := by
  have hshape : broadcastShape x.shape t.values.shape = .ok x.shape := broadcastShape_comm h
  rw [Values.zip_eq_some_of hshape]
  refine congrArg some (Values.of_congr fun i hi => ?_)
  rw [hi.fit_self]
  exact congrArg (op (x.get i)) (get_values_of_spreadsOver h hi)

end Tensor

namespace Tensor

theorem place_lt {shape : List Nat} {i : Index} (h : i.Inside shape) : place shape i < shape.prod := by
  induction h with
  | nil => exact Nat.one_pos
  | @cons x dim i shape hx _ ih =>
    rw [place, List.prod_cons]
    split
    · next hone => simpa [hone] using ih
    · have hle : (x + 1) * shape.prod ≤ dim * shape.prod := Nat.mul_le_mul_right _ hx
      rw [Nat.succ_mul] at hle
      omega

theorem exists_index {shape : List Nat} {k : Nat} (hk : k < shape.prod) :
    ∃ i : Index, i.Inside shape ∧ place shape i = k := by
  induction shape generalizing k with
  | nil => exact ⟨[], .nil, (Nat.lt_one_iff.mp hk).symm⟩
  | cons dim shape ih =>
    rw [List.prod_cons] at hk
    have hpos : 0 < shape.prod := Nat.pos_of_ne_zero fun h => by simp [h] at hk
    obtain ⟨i, hi, hplace⟩ := ih (Nat.mod_lt k hpos)
    have hdiv : k / shape.prod < dim := Nat.div_lt_of_lt_mul (Nat.mul_comm _ _ ▸ hk)
    refine ⟨k / shape.prod :: i, .cons hdiv hi, ?_⟩
    rw [place, hplace]
    split
    · next hone =>
      subst hone
      rw [Nat.one_mul] at hk
      rw [Nat.mod_eq_of_lt hk, Nat.zero_add]
    · exact Nat.div_add_mod' k shape.prod

variable {t : Tensor Rat} {shape : List Nat} {i : Index}

theorem exists_spread? (hfilled : t.Filled) (h : t.SpreadsOver shape) (hi : i.Inside shape) :
    ∃ a, t.spread? i = some a ∧ a ∈ t.data := by
  have hlt := place_lt (hi.fit_widens h.widens)
  rw [place_fit, ← hfilled] at hlt
  exact ⟨_, List.getElem?_eq_getElem hlt, List.getElem_mem hlt⟩

theorem eq_of_isUniform (h : t.isUniform = true) {a b : Rat} (ha : a ∈ t.data) (hb : b ∈ t.data) :
    a = b := by
  rw [isUniform] at h
  cases hdata : t.data with
  | nil => rw [hdata] at ha; cases ha
  | cons first rest =>
    rw [hdata] at h ha hb
    have hall : ∀ x ∈ first :: rest, x = first := by
      intro x hx
      rcases List.mem_cons.mp hx with rfl | hx
      · rfl
      · exact (of_decide_eq_true (List.all_eq_true.mp h x hx)).symm
    rw [hall a ha, hall b hb]

theorem toScalar_of_isUniform (hfilled : t.Filled) (h : t.isUniform = true) (hne : t.data ≠ []) :
    ∃ a, t.toScalar = scalar a ∧ a ∈ t.data := by
  obtain ⟨first, rest, hdata⟩ := List.exists_cons_of_ne_nil hne
  refine ⟨first, ?_, hdata ▸ List.mem_cons_self⟩
  rw [toScalar, hdata]
  dsimp only
  split
  · rfl
  · next hrank =>
    rw [h, Bool.and_true, decide_eq_true_eq, Nat.pos_iff_ne_zero, not_not] at hrank
    have hshape : t.shape = [] := List.length_eq_zero_iff.mp hrank
    rw [Filled, size, hdata, hshape, List.prod_nil, List.length_cons] at hfilled
    obtain rfl : rest = [] := List.length_eq_zero_iff.mp (by omega)
    obtain ⟨_, _⟩ := t
    cases hdata
    cases hshape
    rfl

theorem toScalar_valueAt (hfilled : t.Filled) (h : t.isUniform = true) (hne : t.data ≠ []) (out : List Nat) :
    t.toScalar.SpreadsOver out ∧ ∀ {shape i}, t.SpreadsOver shape → i.Inside shape →
      ∀ j, t.toScalar.valueAt j = t.valueAt i := by
  obtain ⟨a, hscalar, ha⟩ := toScalar_of_isUniform hfilled h hne
  rw [hscalar]
  refine ⟨spreadsOver_scalar a out, fun hspread hi j => ?_⟩
  obtain ⟨b, hb, hmem⟩ := exists_spread? hfilled hspread hi
  rw [valueAt_scalar, valueAt, hb, Option.getD_some, eq_of_isUniform h ha hmem]

end Tensor

namespace AffineParams

variable {p : AffineParams Rat} {q : Values} {shape : List Nat}

def shift (p : AffineParams Rat) (q : Values) : Option Values :=
  match p.zeroPoint with
  | none => some q
  | some zeroPoint => q.zip (· - ·) zeroPoint.values

def dequantize (p : AffineParams Rat) (q : Values) : Option Values :=
  (p.shift q).bind fun x => x.zip (· * ·) p.scale.values

def zeroAt (p : AffineParams Rat) (i : Index) : Rat := (p.zeroPoint.map (·.valueAt i)).getD 0

def valueAt (p : AffineParams Rat) (i : Index) (x : Rat) : Rat := (x - p.zeroAt i) * p.scale.valueAt i

theorem shift_of_spreadsOver (h : p.SpreadsOver q.shape) :
    p.shift q = some (.of q.shape fun i => q.get i - p.zeroAt i) := by
  rw [shift]
  unfold zeroAt
  cases hz : p.zeroPoint with
  | none => exact congrArg some (q.of_get.symm.trans (Values.of_congr fun i _ => (sub_zero _).symm))
  | some zeroPoint => exact Tensor.zip_values (h.2 zeroPoint hz)

theorem dequantize_of_spreadsOver (h : p.SpreadsOver q.shape) :
    p.dequantize q = some (.of q.shape fun i => p.valueAt i (q.get i)) := by
  rw [dequantize, shift_of_spreadsOver h, Option.bind_some]
  refine (Tensor.zip_values (x := .of q.shape _) h.1).trans ?_
  refine congrArg some (Values.of_congr fun i hi => ?_)
  rw [Values.get_of (show i.Inside q.shape from hi), valueAt]

def Forall (p : AffineParams Rat) (P : Tensor Rat → Prop) : Prop := P p.scale ∧ ∀ z ∈ p.zeroPoint, P z

theorem toScalar_valueAt (hfilled : p.Forall Tensor.Filled) (huniform : p.isUniform = true)
    (hne : p.Forall fun t => t.data ≠ []) (out : List Nat) :
    p.toScalar.SpreadsOver out ∧ ∀ {shape i}, p.SpreadsOver shape → i.Inside shape →
      ∀ j x, p.toScalar.valueAt j x = p.valueAt i x := by
  obtain ⟨scale, zeroPoint⟩ := p
  rw [isUniform, Bool.and_eq_true] at huniform
  have hscale := Tensor.toScalar_valueAt hfilled.1 huniform.1 hne.1 out
  cases zeroPoint with
  | none =>
    refine ⟨⟨hscale.1, by simp [toScalar]⟩, fun hspread hi j x => ?_⟩
    rw [valueAt, valueAt]
    exact congrArg ((x - 0) * ·) (hscale.2 hspread.1 hi j)
  | some z =>
    have hzero := Tensor.toScalar_valueAt (hfilled.2 z rfl) huniform.2 (hne.2 z rfl) out
    refine ⟨⟨hscale.1, by simpa [toScalar] using hzero.1⟩, fun hspread hi j x => ?_⟩
    exact congrArg₂ (fun a b => (x - a) * b) (hzero.2 (hspread.2 z rfl) hi j) (hscale.2 hspread.1 hi j)

end AffineParams

end LowPrecision
