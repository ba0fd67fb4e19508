import LowPrecision.Proofs.Quantization.Elements
import LowPrecision.Quantization.Affine

namespace LowPrecision

section Joints

variable {l r joint s t : List Nat} {shapes shapes' : List (List Nat)}

theorem Widens.exists_joined (hl : Widens l t) (hr : Widens r t) :
    ∃ joint, LowPrecision.joinAxes l r = .ok joint := by
  induction hl generalizing r with
  | nil =>
    cases hr
    exact ⟨[], rfl⟩
  | cons hd _ ih =>
    cases hr with
    | cons he hr =>
      obtain ⟨joint, hjoint⟩ := ih hr
      rw [LowPrecision.joinAxes, hjoint]
      split
      · exact ⟨_, rfl⟩
      · next hne =>
        rw [Bool.or_eq_true, decide_eq_true_eq, decide_eq_true_eq, not_or] at hne
        obtain rfl := he.resolve_right hne.2
        rw [if_pos (hd.resolve_left hne.1)]
        exact ⟨_, rfl⟩

theorem exists_broadcastShape (hl : broadcastShape l t = .ok t) (hr : broadcastShape r t = .ok t) :
    ∃ joint, broadcastShape l r = .ok joint := by
  obtain ⟨hle, hl⟩ := broadcastShape_eq_right.mp hl
  obtain ⟨hle', hr⟩ := broadcastShape_eq_right.mp hr
  have hmax := Nat.max_le.mpr ⟨hle, hle'⟩
  rw [padShape_eq_append (Nat.le_max_left l.length r.length) hmax] at hl
  rw [padShape_eq_append (Nat.le_max_right l.length r.length) hmax] at hr
  have hleft := List.forall₂_drop (t.length - max l.length r.length) hl
  have hright := List.forall₂_drop (t.length - max l.length r.length) hr
  rw [List.drop_left' List.length_replicate] at hleft hright
  obtain ⟨joint, hjoint⟩ := Widens.exists_joined hleft hright
  exact ⟨joint, broadcastShape_eq_ok.mpr hjoint⟩

theorem broadcastShape_antisymm (h : broadcastShape s t = .ok t) (h' : broadcastShape t s = .ok s) :
    s = t := Except.ok.inj (h'.symm.trans (broadcastShape_comm h))

theorem broadcastShape_joint_iff (h : broadcastShape l r = .ok joint) : broadcastShape joint t = .ok t ↔
    broadcastShape l t = .ok t ∧ broadcastShape r t = .ok t := by
  obtain ⟨hl, hr⟩ := broadcastShape_of_ok h
  exact ⟨fun ht => ⟨broadcastShape_trans hl ht, broadcastShape_trans hr ht⟩,
    fun ht => broadcastShape_of_joint ht.1 ht.2 h⟩

def SpreadTo (shapes : List (List Nat)) (t : List Nat) : Prop :=
  ∀ s ∈ shapes, broadcastShape s t = .ok t

def jointShape : List (List Nat) → Option (List Nat)
  | [] => some []
  | s :: shapes => (jointShape shapes).bind fun t => (broadcastShape s t).toOption

theorem spreadTo_iff (h : jointShape shapes = some joint) :
    SpreadTo shapes t ↔ broadcastShape joint t = .ok t := by
  induction shapes generalizing joint with
  | nil =>
    cases h
    exact ⟨fun _ => broadcastShape_ones (by simp) (Nat.zero_le _), fun _ _ hs => by cases hs⟩
  | cons s shapes ih =>
    obtain ⟨rest, hrest, hjoint⟩ := Option.bind_eq_some_iff.mp h
    cases hs : broadcastShape s rest with
    | error e => rw [hs] at hjoint; cases hjoint
    | ok shape =>
      rw [hs] at hjoint
      obtain rfl : shape = joint := Option.some.inj hjoint
      rw [broadcastShape_joint_iff hs, ← ih hrest, SpreadTo, List.forall_mem_cons]
      rfl

theorem exists_jointShape (h : SpreadTo shapes t) : ∃ joint, jointShape shapes = some joint := by
  induction shapes with
  | nil => exact ⟨[], rfl⟩
  | cons s shapes ih =>
    obtain ⟨hs, hrest⟩ := List.forall_mem_cons.mp h
    obtain ⟨rest, hjoint⟩ := ih hrest
    obtain ⟨joint, hok⟩ := exists_broadcastShape hs ((spreadTo_iff hjoint).mp hrest)
    exact ⟨joint, by rw [jointShape, hjoint, Option.bind_some, hok]; rfl⟩

theorem jointShape_congr (h : ∀ t, SpreadTo shapes t ↔ SpreadTo shapes' t) :
    jointShape shapes = jointShape shapes' := by
  have hself : ∀ {shapes joint}, jointShape shapes = some joint → SpreadTo shapes joint :=
    fun hjoint => (spreadTo_iff hjoint).mpr (broadcastShape_self _)
  cases hjoint : jointShape shapes with
  | some joint =>
    obtain ⟨joint', hjoint'⟩ := exists_jointShape ((h joint).mp (hself hjoint))
    have hle := (spreadTo_iff hjoint).mp ((h joint').mpr (hself hjoint'))
    have hge := (spreadTo_iff hjoint').mp ((h joint).mp (hself hjoint))
    rw [hjoint', broadcastShape_antisymm hle hge]
  | none =>
    cases hjoint' : jointShape shapes' with
    | none => rfl
    | some joint' =>
      obtain ⟨joint, hsome⟩ := exists_jointShape ((h joint').mpr (hself hjoint'))
      rw [hjoint] at hsome
      cases hsome

end Joints

def Interpolates (f : Rat → Rat → Rat) : Prop :=
  ∀ w a b c, f (w * (b - a) + a) c = w * (f b c - f a c) + f a c

theorem interpolates_sub : Interpolates (· - ·) := fun w a b c => by ring

theorem interpolates_mul : Interpolates (· * ·) := fun w a b c => by ring

theorem exists_place (x low high : Rat) (steps : Nat) :
    ∃ w : Rat, ∀ outLow outHigh : Rat,
      fakeQuantize x low high outLow outHigh (steps + 1) = .ok (w * (outHigh - outLow) + outLow) := by
  unfold fakeQuantize
  by_cases hlow : x ≤ Arithmetic.lesser low high
  · exact ⟨0, fun outLow outHigh => by simp [Checked.pred, hlow]⟩
  · by_cases hhigh : Arithmetic.greater high low < x
    · exact ⟨1, fun outLow outHigh => by simp [Checked.pred, hlow, hhigh]⟩
    · exact ⟨Arithmetic.round ((x - low) / (high - low) * Arithmetic.ofNat steps) / Arithmetic.ofNat steps,
        fun outLow outHigh => by simp [Checked.pred, hlow, hhigh]⟩

theorem fakeQuantize_interpolates {f : Rat → Rat → Rat} (hf : Interpolates f)
    (x low high outLow outHigh c : Rat) (levels : Nat) :
    (fakeQuantize x low high (f outLow c) (f outHigh c) levels).toOption =
      (fakeQuantize x low high outLow outHigh levels).toOption.map (f · c) := by
  cases levels with
  | zero => rfl
  | succ steps =>
    obtain ⟨w, hw⟩ := exists_place x low high steps
    rw [hw, hw]
    exact congrArg some (hf w outLow outHigh c).symm

namespace Index

theorem zipWith_zipWith {s inner : List Nat} (h : Widens s inner) (j : Index) :
    List.zipWith (fun dim x => if dim = 1 then 0 else x) s
      (List.zipWith (fun dim x => if dim = 1 then 0 else x) inner j) =
        List.zipWith (fun dim x => if dim = 1 then 0 else x) s j := by
  induction h generalizing j with
  | nil => rfl
  | cons hd _ ih =>
    cases j with
    | nil => rfl
    | cons x j =>
      rw [List.zipWith_cons_cons, List.zipWith_cons_cons, List.zipWith_cons_cons, ih]
      congr 1
      split
      · rfl
      · next hne => rw [if_neg (hd.resolve_right hne ▸ hne)]

theorem fit_fit {i : Index} {s t : List Nat} (h : broadcastShape s t = .ok t)
    (hi : t.length ≤ i.length) : (i.fit t).fit s = i.fit s := by
  obtain ⟨hle, hw⟩ := broadcastShape_eq_right.mp h
  have hlength : List.length (i.fit t) = t.length := length_fit hi
  have hindex : (i.drop (i.length - t.length)).drop (t.length - s.length) =
      i.drop (i.length - s.length) := by
    rw [List.drop_drop]
    congr 1
    omega
  change List.zipWith _ s (List.drop (List.length (i.fit t) - s.length) (i.fit t)) = _
  rw [hlength, fit, fit, List.drop_zipWith, hindex]
  exact zipWith_zipWith hw.drop_pad _

end Index

def Values.valueAt (x : Values) (i : Index) : Rat := x.get (i.fit x.shape)

theorem Tensor.values_valueAt {t : Tensor Rat} {shape : List Nat} {i : Index} (h : t.SpreadsOver shape)
    (hi : i.Inside shape) : t.values.valueAt i = t.valueAt i := get_values_of_spreadsOver h hi

theorem Tensor.valueAt_zipped {f : Rat → Rat → Rat} {t u out : Tensor Rat} {shape : List Nat} {i : Index}
    (ht : t.Filled) (hu : u.Filled) (h : (t.broadcastZip u f).run = .ok (.ok out))
    (hspread : t.SpreadsOver shape) (hspread' : u.SpreadsOver shape) (hi : i.Inside shape) :
    out.values.valueAt i = f (t.values.valueAt i) (u.valueAt i) := by
  obtain ⟨hshape, -, -⟩ := broadcastZip_eq_ok ht hu h
  have hout : out.SpreadsOver shape := (broadcastShape_joint_iff hshape).mpr ⟨hspread, hspread'⟩
  rw [values_valueAt hout hi, values_valueAt hspread hi, valueAt_of_broadcastZip ht hu h hout hi]

namespace Values

theorem valueAt_fit {x : Values} {t : List Nat} {i : Index} (h : broadcastShape x.shape t = .ok t)
    (hi : t.length ≤ i.length) : x.valueAt (i.fit t) = x.valueAt i := by
  rw [valueAt, valueAt, Index.fit_fit h hi]

theorem inside_fit {shape target : List Nat} {i : Index} (h : broadcastShape shape target = .ok target)
    (hi : i.Inside target) : (i.fit shape).Inside shape :=
  hi.fit_widens (broadcastShape_eq_right.mp h).2

def quantize (levels : Nat) (data inLow inHigh outLow outHigh : Values) : Option Values :=
  if levels = 0 then none else
    (jointShape [data.shape, inLow.shape, inHigh.shape, outLow.shape, outHigh.shape]).map fun shape =>
      of shape fun i => ((fakeQuantize (data.valueAt i) (inLow.valueAt i) (inHigh.valueAt i)
        (outLow.valueAt i) (outHigh.valueAt i) levels).toOption).getD 0

variable {f : Rat → Rat → Rat} {data inLow inHigh : Values} {low high value outLow outHigh : Tensor Rat}
  {levels : Nat}

theorem fakeQuantize_getD (hf : Interpolates f) (hlevels : levels ≠ 0) (x low high outLow outHigh c : Rat) :
    ((fakeQuantize x low high (f outLow c) (f outHigh c) levels).toOption).getD 0 =
      f (((fakeQuantize x low high outLow outHigh levels).toOption).getD 0) c := by
  rw [fakeQuantize_interpolates hf]
  obtain ⟨steps, rfl⟩ := Nat.exists_eq_succ_of_ne_zero hlevels
  obtain ⟨w, hw⟩ := exists_place x low high steps
  rw [hw]
  rfl

theorem quantize_zip (hf : Interpolates f) (hlow : low.Filled) (hhigh : high.Filled) (hvalue : value.Filled)
    (hl : (low.broadcastZip value f).run = .ok (.ok outLow))
    (hh : (high.broadcastZip value f).run = .ok (.ok outHigh)) :
    data.quantize levels inLow inHigh outLow.values outHigh.values =
      (data.quantize levels inLow inHigh low.values high.values).bind fun x => x.zip f value.values := by
  by_cases hlevels : levels = 0
  · simp [quantize, hlevels]
  obtain ⟨hlshape, -, -⟩ := Tensor.broadcastZip_eq_ok hlow hvalue hl
  obtain ⟨hhshape, -, -⟩ := Tensor.broadcastZip_eq_ok hhigh hvalue hh
  have hjoint : jointShape [data.shape, inLow.shape, inHigh.shape, outLow.shape, outHigh.shape] =
      jointShape [value.shape, data.shape, inLow.shape, inHigh.shape, low.shape, high.shape] := by
    refine jointShape_congr fun t => ?_
    simp only [SpreadTo, List.forall_mem_cons, broadcastShape_joint_iff hlshape,
      broadcastShape_joint_iff hhshape]
    tauto
  rw [quantize, quantize, if_neg hlevels, if_neg hlevels]
  change (jointShape [data.shape, inLow.shape, inHigh.shape, outLow.shape, outHigh.shape]).map _ = _
  rw [hjoint, jointShape]
  change _ = ((jointShape [data.shape, inLow.shape, inHigh.shape, low.shape, high.shape]).map _).bind _
  cases hall : jointShape [data.shape, inLow.shape, inHigh.shape, low.shape, high.shape] with
  | none => rfl
  | some joint =>
    rw [Option.bind_some, Option.map_some, Option.bind_some]
    cases hshape : broadcastShape value.shape joint with
    | error e =>
      cases hshape' : broadcastShape joint value.shape with
      | error e' =>
        have herror : broadcastShape joint value.values.shape = .error e' := hshape'
        rw [zip, shape_of, herror]
        rfl
      | ok shape => cases hshape.symm.trans (broadcastShape_comm hshape')
    | ok shape =>
      have hcomm : broadcastShape joint value.values.shape = .ok shape := broadcastShape_comm hshape
      refine Eq.trans ?_ (zip_eq_some_of hcomm).symm
      refine congrArg some (of_congr fun i hi => ?_)
      obtain ⟨hvaluego, hjointgo⟩ := broadcastShape_of_ok hshape
      have hlength : joint.length ≤ i.length :=
        hi.length_eq.symm ▸ (broadcastShape_eq_right.mp hjointgo).1
      have hgo := (spreadTo_iff hall).mpr (broadcastShape_self joint)
      simp only [SpreadTo, List.forall_mem_cons] at hgo
      obtain ⟨hdata, hinLow, hinHigh, hlowgo, hhighgo, -⟩ := hgo
      rw [shape_of, get_of (inside_fit hjointgo hi), valueAt_fit hdata hlength,
        valueAt_fit hinLow hlength, valueAt_fit hinHigh hlength, valueAt_fit hlowgo hlength,
        valueAt_fit hhighgo hlength]
      rw [Tensor.valueAt_zipped hlow hvalue hl (broadcastShape_trans hlowgo hjointgo) hvaluego hi,
        Tensor.valueAt_zipped hhigh hvalue hh (broadcastShape_trans hhighgo hjointgo) hvaluego hi,
        fakeQuantize_getD hf hlevels]
      exact congrArg _ (Tensor.values_valueAt hvaluego hi).symm

end Values

end LowPrecision
