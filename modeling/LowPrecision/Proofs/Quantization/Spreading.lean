import LowPrecision.Proofs.Quantization.OutputRanges

/-!
The elements of a tensor by their index, and what becomes of them when tensors are spread over a shape
and combined. Shapes are aligned on the right, and the joint shape of two shapes is the least one that
both can be spread over.
-/

namespace LowPrecision

section Alignment

variable {R : Nat → Nat → Prop} {l r s t : List Nat} {n : Nat}

def Aligned (R : Nat → Nat → Prop) (l r : List Nat) : Prop :=
  ∀ (k d e : Nat), l.reverse[k]? = some d → r.reverse[k]? = some e → R d e

/-- A shape can be spread over another one when it has no more axes, and each of them has the size of
the axis that it meets, or size 1. -/
def StretchesTo (s t : List Nat) : Prop :=
  s.length ≤ t.length ∧ Aligned (fun d e => d = e ∨ d = 1) s t

def Compatible (l r : List Nat) : Prop := Aligned (fun d e => d = e ∨ d = 1 ∨ e = 1) l r

theorem forall₂_iff_getElem? : List.Forall₂ R l r ↔
    l.length = r.length ∧ ∀ (k d e : Nat), l[k]? = some d → r[k]? = some e → R d e := by
  rw [List.forall₂_iff_get]
  refine and_congr_right fun _ => ⟨fun h k d e hd he => ?_, fun h k hl hr => ?_⟩
  · obtain ⟨hl, rfl⟩ := List.getElem?_eq_some_iff.mp hd
    obtain ⟨hr, rfl⟩ := List.getElem?_eq_some_iff.mp he
    exact h k hl hr
  · exact h k _ _ (List.getElem?_eq_getElem hl) (List.getElem?_eq_getElem hr)

theorem reverse_padShape (n : Nat) (s : List Nat) :
    (padShape n s).reverse = s.reverse ++ List.replicate (n - s.length) 1 := by
  rw [padShape, List.reverse_append, List.reverse_replicate]

theorem getElem?_reverse_padShape {k d : Nat} (h : (padShape n s).reverse[k]? = some d) :
    s.reverse[k]? = some d ∨ s.length ≤ k ∧ k < n ∧ d = 1 := by
  rw [reverse_padShape] at h
  rcases Nat.lt_or_ge k s.reverse.length with hk | hk
  · rw [List.getElem?_append_left hk] at h
    exact .inl h
  · rw [List.getElem?_append_right hk, List.getElem?_replicate] at h
    rw [List.length_reverse] at h hk
    split at h
    · exact .inr ⟨hk, by omega, (Option.some.inj h).symm⟩
    · cases h

theorem getElem?_reverse_of_padShape {k d : Nat} (h : s.reverse[k]? = some d) :
    (padShape n s).reverse[k]? = some d := by
  rw [reverse_padShape, List.getElem?_append_left (List.getElem?_eq_some_iff.mp h).1, h]

theorem aligned_iff (hl : l.length ≤ n) (hr : r.length ≤ n) (hone : ∀ e, R 1 e)
    (hone' : r.length < n → ∀ d, R d 1) :
    Aligned R l r ↔ List.Forall₂ R (padShape n l) (padShape n r) := by
  rw [← List.forall₂_reverse_iff, forall₂_iff_getElem?, List.length_reverse, List.length_reverse,
    length_padShape hl, length_padShape hr]
  refine ⟨fun h => ⟨rfl, fun k d e hd he => ?_⟩, fun h k d e hd he =>
    h.2 k d e (getElem?_reverse_of_padShape hd) (getElem?_reverse_of_padShape he)⟩
  rcases getElem?_reverse_padShape hd with hd | ⟨-, -, rfl⟩
  · rcases getElem?_reverse_padShape he with he | ⟨hk, hn, rfl⟩
    · exact h k d e hd he
    · exact hone' (Nat.lt_of_le_of_lt hk hn) d
  · exact hone e

theorem stretchesTo_iff : StretchesTo s t ↔ broadcastShape s t = .ok t := by
  rw [broadcastShape_eq_right]
  refine and_congr_right fun hle => ?_
  rw [aligned_iff hle le_rfl (fun _ => .inr rfl) (fun h => absurd h (Nat.lt_irrefl _)), padShape_length]
  rfl

theorem exists_widens (h : List.Forall₂ (fun d e => d = e ∨ d = 1 ∨ e = 1) l r) :
    ∃ t, Widens l t ∧ Widens r t := by
  induction h with
  | nil => exact ⟨[], .nil, .nil⟩
  | @cons d e l r hde _ ih =>
    obtain ⟨t, hl, hr⟩ := ih
    by_cases hd : d = 1
    · exact ⟨e :: t, .cons (.inr hd) hl, .cons (.inl rfl) hr⟩
    · exact ⟨d :: t, .cons (.inl rfl) hl, .cons ((hde.imp_left Eq.symm).imp_right (Or.resolve_left · hd)) hr⟩

theorem compatible_iff : Compatible l r ↔ ∃ joint, broadcastShape l r = .ok joint := by
  constructor
  · intro h
    rw [Compatible, aligned_iff (Nat.le_max_left l.length r.length) (Nat.le_max_right l.length r.length)
      (fun _ => .inr (.inl rfl)) (fun _ _ => .inr (.inr rfl))] at h
    obtain ⟨t, hl, hr⟩ := exists_widens h
    obtain ⟨joint, hjoint⟩ := Widens.exists_joined hl hr
    exact ⟨joint, broadcastShape_eq_ok.mpr hjoint⟩
  · rintro ⟨joint, hjoint⟩ k d e hd he
    obtain ⟨⟨hle, hleft⟩, -, hright⟩ :=
      (broadcastShape_of_ok hjoint).imp stretchesTo_iff.mpr stretchesTo_iff.mpr
    have hk : k < joint.reverse.length := by
      have hlt := (List.getElem?_eq_some_iff.mp hd).1
      rw [List.length_reverse] at hlt ⊢
      omega
    have hj := List.getElem?_eq_getElem hk
    rcases hleft k d _ hd hj with hd | hd
    · exact (hright k e _ he hj).imp (fun he => hd.trans he.symm) .inr
    · exact .inr (.inl hd)

theorem broadcastShape_eq_ok_iff : broadcastShape l r = .ok s ↔
    ∀ t, broadcastShape s t = .ok t ↔ broadcastShape l t = .ok t ∧ broadcastShape r t = .ok t := by
  refine ⟨fun h t => broadcastShape_joint_iff h, fun h => ?_⟩
  obtain ⟨hl, hr⟩ := (h s).mp (broadcastShape_self s)
  obtain ⟨joint, hjoint⟩ := exists_broadcastShape hl hr
  have hle : broadcastShape joint s = .ok s := (broadcastShape_joint_iff hjoint).mpr ⟨hl, hr⟩
  have hge : broadcastShape s joint = .ok joint := (h joint).mpr (broadcastShape_of_ok hjoint)
  rw [hjoint, broadcastShape_antisymm hle hge]

theorem broadcastShape_symm (l r s : List Nat) :
    broadcastShape l r = .ok s ↔ broadcastShape r l = .ok s :=
  ⟨broadcastShape_comm, broadcastShape_comm⟩

theorem exists_joint_iff {a b c : List Nat} :
    (∃ joint, broadcastShape a b = .ok joint ∧ broadcastShape joint c = .ok s) ↔
      ∀ t, broadcastShape s t = .ok t ↔
        (broadcastShape a t = .ok t ∧ broadcastShape b t = .ok t) ∧ broadcastShape c t = .ok t := by
  constructor
  · rintro ⟨joint, hjoint, hs⟩ t
    rw [broadcastShape_eq_ok_iff.mp hs t, broadcastShape_eq_ok_iff.mp hjoint t]
  · intro h
    obtain ⟨⟨ha, hb⟩, -⟩ := (h s).mp (broadcastShape_self s)
    obtain ⟨joint, hjoint⟩ := exists_broadcastShape ha hb
    refine ⟨joint, hjoint, broadcastShape_eq_ok_iff.mpr fun t => ?_⟩
    rw [h t, broadcastShape_joint_iff hjoint]

theorem broadcastShape_assoc (a b c s : List Nat) :
    (∃ joint, broadcastShape a b = .ok joint ∧ broadcastShape joint c = .ok s) ↔
      ∃ joint, broadcastShape b c = .ok joint ∧ broadcastShape a joint = .ok s := by
  simp only [broadcastShape_symm a, exists_joint_iff]
  refine forall_congr' fun t => iff_congr Iff.rfl ?_
  tauto

end Alignment

namespace Tensor

variable {α : Type} {t u out : Tensor α} {s : List Nat} {i : Index}

def rowMajor : List Nat → Index → Nat
  | _ :: shape, x :: i => x * shape.prod + rowMajor shape i
  | _, _ => 0

def at? (t : Tensor α) (i : Index) : Option α := t.data[rowMajor t.shape i]?

def Valid (t : Tensor α) : Prop := (make t.shape t.data).run = .ok (.ok t)

instance [DecidableEq α] (t : Tensor α) : Decidable t.Valid := inferInstanceAs (Decidable (_ = _))

theorem valid_iff : t.Valid ↔ Checked.product t.shape = .ok t.size := by
  rw [Valid, make_eq_ok]
  exact and_iff_left rfl

theorem Valid.filled (h : t.Valid) : t.Filled := by
  obtain ⟨hsize, -⟩ := product_eq_ok (valid_iff.mp h)
  rw [Filled, hsize, Nat.one_mul]

theorem Filled.valid (h : t.Filled) (hfits : FitsWord t.shape) : t.Valid := by
  rw [valid_iff, hfits.product, h]

theorem place_eq_rowMajor (h : i.Inside s) : place s i = rowMajor s i := by
  induction h with
  | nil => rfl
  | @cons x d i s hx _ ih =>
    rw [place, rowMajor, ih]
    split
    · next hone =>
      subst hone
      rw [Nat.lt_one_iff.mp hx, Nat.zero_mul]
    · rfl

theorem spread?_eq_at? (h : (i.fit t.shape).Inside t.shape) : t.spread? i = t.at? (i.fit t.shape) := by
  rw [at?, ← place_eq_rowMajor h, place_fit]
  rfl

theorem spread?_of_inside (h : i.Inside t.shape) : t.spread? i = t.at? i := by
  have hfit := spread?_eq_at? (h.fit_self.symm ▸ h)
  rwa [h.fit_self] at hfit

theorem exists_at? (hfilled : t.Filled) (hi : i.Inside t.shape) : ∃ x, t.at? i = some x := by
  have hlt := place_lt hi
  rw [place_eq_rowMajor hi, ← hfilled] at hlt
  exact ⟨_, List.getElem?_eq_getElem hlt⟩

/-- Every element of a tensor over a shape is that of the given one at the index which is aligned on the
right, with 0 along axes of size 1. -/
structure SpreadInto (t : Tensor α) (s : List Nat) (out : Tensor α) : Prop where
  shape : out.shape = s
  size : out.size = s.prod
  elements (i : Index) : i.Inside s → (i.fit t.shape).Inside t.shape ∧
    ∃ x, t.at? (i.fit t.shape) = some x ∧ out.at? i = some x

structure RoomFor (t : Tensor α) (s : List Nat) : Prop where
  fits : FitsWord s
  reserve : t.shape ≠ s → Checked.reserve s.prod elementWidth = .ok ()

theorem broadcastTo_of_stretchesTo (hvalid : t.Valid) (hfits : FitsWord t.shape) (hroom : t.RoomFor s)
    (h : StretchesTo t.shape s) : ∃ out, (t.broadcastTo s).run = .ok (.ok out) := by
  by_cases hsame : t.shape = s
  · refine ⟨t, ?_⟩
    rw [broadcastTo, if_pos hsame]
    rfl
  · obtain ⟨out, hout, -⟩ := broadcastTo_ok hfits.strides hvalid.filled (stretchesTo_iff.mp h)
      hroom.fits.product (hroom.reserve hsame)
    exact ⟨out, hout⟩

theorem broadcastTo_of_not_stretchesTo (h : ¬ StretchesTo t.shape s) :
    ∃ e, (t.broadcastTo s).run = .ok (.error e) := by
  rw [stretchesTo_iff] at h
  have hne : t.shape ≠ s := fun hsame => h (hsame ▸ broadcastShape_self s)
  rw [broadcastTo, if_neg hne]
  cases hshape : broadcastShape t.shape s with
  | error e => exact ⟨e, rfl⟩
  | ok joint =>
    have hjoint : joint ≠ s := fun heq => h (heq ▸ hshape)
    refine ⟨.notBroadcastable t.shape s, ?_⟩
    change ((if joint ≠ s then _ else _ : Attempt TensorError (Tensor α)).run) = _
    rw [if_pos hjoint]
    rfl

theorem spreadInto_of_broadcastTo (hfilled : t.Filled) (h : (t.broadcastTo s).run = .ok (.ok out)) :
    StretchesTo t.shape s ∧ t.SpreadInto s out := by
  have hstretches : StretchesTo t.shape s := by
    by_contra hne
    obtain ⟨e, he⟩ := broadcastTo_of_not_stretchesTo hne
    cases h.symm.trans he
  obtain ⟨rfl, hout, hspread⟩ := broadcastTo_eq_ok hfilled h
  refine ⟨hstretches, rfl, hout, fun i hi => ?_⟩
  have hin : (i.fit t.shape).Inside t.shape :=
    hi.fit_widens (broadcastShape_eq_right.mp (stretchesTo_iff.mp hstretches)).2
  obtain ⟨x, hx⟩ := exists_at? hfilled hin
  refine ⟨hin, x, hx, ?_⟩
  rw [← spread?_of_inside hi, hspread i hi, spread?_eq_at? hin, hx]

structure CombinedInto (t u : Tensor α) (f : α → α → α) (out : Tensor α) : Prop where
  shape : broadcastShape t.shape u.shape = .ok out.shape
  size : out.size = out.shape.prod
  elements (i : Index) : i.Inside out.shape → ∃ x y, t.at? (i.fit t.shape) = some x ∧
    u.at? (i.fit u.shape) = some y ∧ out.at? i = some (f x y)

theorem combinedInto_of_broadcastZip {f : α → α → α} (ht : t.Filled) (hu : u.Filled)
    (h : (t.broadcastZip u f).run = .ok (.ok out)) : t.CombinedInto u f out := by
  obtain ⟨hshape, hfilled, hspread⟩ := spread?_broadcastZip ht hu h
  obtain ⟨hleft, hright, -⟩ := Widens.of_broadcastShape hshape
  refine ⟨hshape, hfilled, fun i hi => ?_⟩
  obtain ⟨x, y, hx, hy, hout⟩ := hspread i hi
  rw [spread?_eq_at? (hi.fit_widens hleft)] at hx
  rw [spread?_eq_at? (hi.fit_widens hright)] at hy
  rw [spread?_of_inside hi] at hout
  exact ⟨x, y, hx, hy, hout⟩

theorem broadcastZip_of_compatible {f : α → α → α} (ht : t.Valid) (hu : u.Valid)
    (htfits : FitsWord t.shape) (hufits : FitsWord u.shape)
    (hroom : ∀ joint, broadcastShape t.shape u.shape = .ok joint → t.RoomFor joint ∧ u.RoomFor joint)
    (h : Compatible t.shape u.shape) : ∃ out, (t.broadcastZip u f).run = .ok (.ok out) := by
  obtain ⟨joint, hjoint⟩ := compatible_iff.mp h
  obtain ⟨hleft, hright⟩ := broadcastShape_of_ok hjoint
  obtain ⟨lhs, hlhs⟩ := broadcastTo_of_stretchesTo ht htfits (hroom joint hjoint).1 (stretchesTo_iff.mpr hleft)
  obtain ⟨rhs, hrhs⟩ := broadcastTo_of_stretchesTo hu hufits (hroom joint hjoint).2 (stretchesTo_iff.mpr hright)
  exact ⟨_, broadcastZip_run f hjoint hlhs hrhs⟩

theorem broadcastZip_of_not_compatible {f : α → α → α} (h : ¬ Compatible t.shape u.shape) :
    ∃ e, (t.broadcastZip u f).run = .ok (.error e) := by
  rw [broadcastZip]
  cases hshape : broadcastShape t.shape u.shape with
  | error e => exact ⟨e, rfl⟩
  | ok joint => exact absurd (compatible_iff.mpr ⟨joint, hshape⟩) h

/-- A tensor can be spread over the shapes that it is aligned with, and two tensors can be combined when
the axes that meet agree; each element of the result comes from the elements at the aligned indices. Which
joint shape two shapes have, or whether they have one, does not depend on their order or grouping. -/
theorem broadcast_elements (f : α → α → α) (ht : t.Valid) (hu : u.Valid) (htfits : FitsWord t.shape)
    (hufits : FitsWord u.shape) (hs : t.RoomFor s)
    (hroom : ∀ joint, broadcastShape t.shape u.shape = .ok joint → t.RoomFor joint ∧ u.RoomFor joint) :
    (((∃ out, (t.broadcastTo s).run = .ok (.ok out)) ↔ StretchesTo t.shape s) ∧
      (¬ StretchesTo t.shape s → ∃ e, (t.broadcastTo s).run = .ok (.error e)) ∧
      ∀ out, (t.broadcastTo s).run = .ok (.ok out) → t.SpreadInto s out) ∧
    (((∃ out, (t.broadcastZip u f).run = .ok (.ok out)) ↔ Compatible t.shape u.shape) ∧
      (¬ Compatible t.shape u.shape → ∃ e, (t.broadcastZip u f).run = .ok (.error e)) ∧
      ∀ out, (t.broadcastZip u f).run = .ok (.ok out) → t.CombinedInto u f out) ∧
    (∀ a b shape, broadcastShape a b = .ok shape ↔ broadcastShape b a = .ok shape) ∧
    ∀ a b c shape, (∃ joint, broadcastShape a b = .ok joint ∧ broadcastShape joint c = .ok shape) ↔
      ∃ joint, broadcastShape b c = .ok joint ∧ broadcastShape a joint = .ok shape := by
  refine ⟨⟨⟨?_, broadcastTo_of_stretchesTo ht htfits hs⟩, broadcastTo_of_not_stretchesTo,
    fun _ hout => (spreadInto_of_broadcastTo ht.filled hout).2⟩, ⟨⟨?_, broadcastZip_of_compatible ht hu
      htfits hufits hroom⟩, broadcastZip_of_not_compatible,
    fun _ => combinedInto_of_broadcastZip ht.filled hu.filled⟩, broadcastShape_symm, broadcastShape_assoc⟩
  · rintro ⟨out, hout⟩
    exact (spreadInto_of_broadcastTo ht.filled hout).1
  · rintro ⟨out, hout⟩
    exact compatible_iff.mpr ⟨out.shape, (combinedInto_of_broadcastZip ht.filled hu.filled hout).shape⟩

def sampleColumn : Tensor Rat := ⟨[2, 1], [1, 2]⟩

def sampleRow : Tensor Rat := ⟨[3], [10, 20, 30]⟩

theorem broadcast_elements_of_samples :
    (sampleColumn.Valid ∧ sampleRow.Valid ∧ FitsWord sampleColumn.shape ∧ FitsWord sampleRow.shape ∧
      sampleColumn.RoomFor [2, 3] ∧ ∀ joint, broadcastShape sampleColumn.shape sampleRow.shape = .ok joint →
        sampleColumn.RoomFor joint ∧ sampleRow.RoomFor joint) ∧
    StretchesTo sampleColumn.shape [2, 3] ∧ Compatible sampleColumn.shape sampleRow.shape ∧
    sampleColumn.SpreadInto [2, 3] ⟨[2, 3], [1, 1, 1, 2, 2, 2]⟩ ∧
    sampleColumn.CombinedInto sampleRow (· - ·) ⟨[2, 3], [-9, -19, -29, -8, -18, -28]⟩ := by
  have ht : sampleColumn.Valid := by decide +kernel
  have hu : sampleRow.Valid := by decide +kernel
  have htfits : FitsWord sampleColumn.shape := by decide +kernel
  have hufits : FitsWord sampleRow.shape := by decide +kernel
  have hs : sampleColumn.RoomFor [2, 3] := ⟨by decide +kernel, fun _ => by decide +kernel⟩
  have hs' : sampleRow.RoomFor [2, 3] := ⟨by decide +kernel, fun _ => by decide +kernel⟩
  have hroom : ∀ joint, broadcastShape sampleColumn.shape sampleRow.shape = .ok joint →
      sampleColumn.RoomFor joint ∧ sampleRow.RoomFor joint := by
    intro joint hjoint
    obtain rfl : [2, 3] = joint := Except.ok.inj hjoint
    exact ⟨hs, hs'⟩
  obtain ⟨⟨hiff, -, hspread⟩, ⟨hzip, -, hcombined⟩, -⟩ :=
    broadcast_elements (· - ·) ht hu htfits hufits hs hroom
  have hout : (sampleColumn.broadcastTo [2, 3]).run = .ok (.ok ⟨[2, 3], [1, 1, 1, 2, 2, 2]⟩) := by
    decide +kernel
  have hout' : (sampleColumn.broadcastZip sampleRow (· - ·)).run =
      .ok (.ok ⟨[2, 3], [-9, -19, -29, -8, -18, -28]⟩) := by decide +kernel
  exact ⟨⟨ht, hu, htfits, hufits, hs, hroom⟩, hiff.mp ⟨_, hout⟩, hzip.mp ⟨_, hout'⟩, hspread _ hout,
    hcombined _ hout'⟩

theorem broadcastTo_beyond_memory : (scalar (1 : Rat)).Valid ∧ FitsWord (scalar (1 : Rat)).shape ∧
    FitsWord [2 ^ 61] ∧ StretchesTo (scalar (1 : Rat)).shape [2 ^ 61] ∧
    ((scalar (1 : Rat)).broadcastTo [2 ^ 61]).run = .error .capacity := by
  refine ⟨by decide +kernel, by decide +kernel, by decide +kernel, stretchesTo_iff.mpr ?_, ?_⟩
  · exact broadcastShape_ones (by simp [scalar]) (Nat.zero_le _)
  · decide +kernel

end Tensor

end LowPrecision
