import Mathlib.Algebra.Field.Rat
import Mathlib.Data.List.Forall2
import LowPrecision.Quantization.Dequantization
import LowPrecision.Tensor.Broadcast
import LowPrecision.Proofs.Runs

namespace LowPrecision

abbrev Index := List Nat

namespace Index

def Inside (i : Index) (shape : List Nat) : Prop := List.Forall₂ (· < ·) i shape

def channel (i : Index) : Nat := i.getD 1 0

theorem Inside.channel_lt {i : Index} {shape : List Nat} {n : Nat} (hi : i.Inside shape)
    (hn : shape[1]? = some n) : i.channel < n := by
  obtain ⟨hlt, hget⟩ := List.getElem?_eq_some_iff.mp hn
  have hlength : i.length = shape.length := hi.length_eq
  have hin := List.Forall₂.get hi (by omega : 1 < i.length) hlt
  rw [channel, List.getD_eq_getElem?_getD, List.getElem?_eq_getElem (by omega : 1 < i.length)]
  simpa [hget] using hin

end Index

def channelShape (rank channels : Nat) : List Nat := (List.replicate rank 1).set 1 channels

def channelValue (values : List Rat) (c : Nat) : Rat := values.getD c (values.headD 0)

theorem getElem?_channel {values : List Rat} {c : Nat} (hc : c < values.length) :
    values[c]? = some (channelValue values c) := by
  rw [channelValue, List.getD_eq_getElem?_getD, List.getElem?_eq_getElem hc, Option.getD_some]

namespace Tensor

variable {α : Type}

def place : List Nat → Index → Nat
  | dim :: shape, x :: i => (if dim = 1 then 0 else x * shape.prod) + place shape i
  | _, _ => 0

def spread? (t : Tensor α) (i : Index) : Option α :=
  t.data[place t.shape (i.drop (i.length - t.rank))]?

def SpreadsOver (t : Tensor α) (shape : List Nat) : Prop :=
  broadcastShape t.shape shape = .ok shape

@[simp] theorem spread?_scalar (v : α) (i : Index) : (scalar v).spread? i = some v := by
  simp [spread?, scalar, place]

theorem place_append (k : Nat) (shape : List Nat) (i : Index) :
    place (List.replicate k 1 ++ shape) i = place shape (i.drop k) := by
  induction k generalizing i with
  | zero => rfl
  | succ k ih =>
    cases i with
    | nil => cases shape <;> simp [place, List.replicate_succ]
    | cons x i => simpa [place, List.replicate_succ] using ih i

theorem place_ones (k : Nat) (i : Index) : place (List.replicate k 1) i = 0 := by
  have h := place_append k [] i
  simpa [place] using h

theorem place_channelShape {i : Index} (hi : 2 ≤ i.length) (n : Nat) :
    place (channelShape i.length n) i = if n = 1 then 0 else i.channel := by
  match i, hi with
  | x :: y :: i, _ =>
    simp [channelShape, List.replicate_succ, place, place_ones, Index.channel]

theorem spread?_of_pad {t : Tensor α} {i : Index} {n : Nat} (hi : 2 ≤ i.length)
    (hpad : padShape i.length t.shape = channelShape i.length n) (hn : n = 1 → i.channel = 0) :
    t.spread? i = t.data[i.channel]? := by
  have hplace : place t.shape (i.drop (i.length - t.rank)) = i.channel := by
    rw [← place_append, rank, ← padShape, hpad, place_channelShape hi]
    split
    · next h => exact (hn h).symm
    · rfl
  rw [spread?, hplace]

theorem joinAxes_ones (shape : List Nat) :
    joinAxes (List.replicate shape.length 1) shape = .ok shape := by
  induction shape with
  | nil => rfl
  | cons dim shape ih =>
    simp only [List.length_cons, List.replicate_succ, joinAxes, ih]
    split
    · next h =>
      obtain rfl : dim = 1 := by
        simp only [Bool.or_eq_true, decide_eq_true_eq] at h
        omega
      rfl
    · rfl

theorem spreadsOver_scalar (v : α) (shape : List Nat) : (scalar v).SpreadsOver shape := by
  simp [SpreadsOver, broadcastShape, scalar, padShape, joinAxes_ones]

theorem joinAxes_getElem? {lhs rhs shape : List Nat} (h : joinAxes lhs rhs = .ok shape)
    {k a c : Nat} (ha : lhs[k]? = some a) (hc : shape[k]? = some c) : c = a ∨ a = 1 := by
  induction lhs generalizing rhs shape k with
  | nil => simp at ha
  | cons a' lhs ih =>
    cases rhs with
    | nil =>
      cases h
      simp at hc
    | cons b rhs =>
      rw [joinAxes] at h
      cases hj : joinAxes lhs rhs with
      | error e =>
        rw [hj] at h
        split at h
        · cases h
        · split at h <;> cases h
      | ok rest =>
        rw [hj] at h
        cases k with
        | zero =>
          obtain rfl : a' = a := by simpa using ha
          split at h
          · cases h
            left
            simpa using hc.symm
          · split at h
            · next hone => exact .inr hone
            · cases h
        | succ k =>
          have hrest : rest[k]? = some c := by
            split at h
            · cases h
              simpa using hc
            · split at h
              · cases h
                simpa using hc
              · cases h
          exact ih hj (by simpa using ha) hrest

theorem channels_of_spreadsOver {shape : List Nat} {n : Nat} {values : List α}
    (hr : 2 ≤ shape.length)
    (h : (⟨channelShape shape.length n, values⟩ : Tensor α).SpreadsOver shape) :
    n = 1 ∨ shape[1]? = some n := by
  simp only [SpreadsOver, broadcastShape, padShape, channelShape, List.length_set,
    List.length_replicate, max_self, Nat.sub_self, List.replicate_zero, List.nil_append] at h
  split at h
  · next joint hjoint =>
    cases h
    have hlt : 1 < shape.length := hr
    have hn : ((List.replicate shape.length 1).set 1 n)[1]? = some n := by
      simp [hlt]
    rcases joinAxes_getElem? hjoint hn (List.getElem?_eq_getElem hlt) with hc | hone
    · exact .inr (by rw [List.getElem?_eq_getElem hlt, hc])
    · exact .inl hone
  · cases h

theorem perChannel_eq_ok {values : List α} {rank : Nat} {t : Tensor α} (hr : 2 ≤ rank)
    (h : perChannel values rank = .ok t) :
    (∃ v, values = [v] ∧ t = scalar v) ∨ t = ⟨channelShape rank values.length, values⟩ := by
  have hlisted (h : (do
      let ones ← Checked.replicate dimensionWidth (max rank 1) 1
      return (⟨ones.set (channelAxis rank) values.length, values⟩ : Tensor α)) = .ok t) :
      t = ⟨channelShape rank values.length, values⟩ := by
    obtain ⟨ones, hones, ht⟩ := except_bind_eq_ok.mp h
    obtain ⟨-, -, hones⟩ := except_bind_eq_ok.mp hones
    cases hones
    cases ht
    simp only [channelShape, channelAxis, if_pos hr]
    rw [Nat.max_eq_left (by omega)]
  match values, h, hlisted with
  | [], h, hlisted => exact .inr (hlisted h)
  | [v], h, _ =>
    cases h
    exact .inl ⟨v, rfl, rfl⟩
  | _ :: _ :: _, h, hlisted => exact .inr (hlisted h)

theorem spread?_perChannel {values : List Rat} {rank : Nat} {shape : List Nat} {t : Tensor Rat}
    {i : Index} (hvalues : values ≠ []) (hr : values.length = 1 ∨ rank = shape.length ∧ 2 ≤ rank)
    (h : perChannel values rank = .ok t) (hspread : t.toScalar.SpreadsOver shape)
    (hi : i.Inside shape) : t.toScalar.spread? i = some (channelValue values i.channel) := by
  rcases hr with hone | ⟨rfl, hr⟩
  · obtain ⟨v, rfl⟩ := List.length_eq_one_iff.mp hone
    cases h
    cases hc : i.channel <;> simp [toScalar, scalar, Tensor.rank, spread?, place, channelValue]
  obtain ⟨first, rest, rfl⟩ := List.exists_cons_of_ne_nil hvalues
  rcases perChannel_eq_ok hr h with ⟨v, hv, rfl⟩ | rfl
  · -- Equal values have been replaced by a single one.
    obtain ⟨rfl, rfl⟩ := List.cons.inj hv
    cases hc : i.channel <;> simp [toScalar, scalar, rank, spread?, place, channelValue]
  · rw [toScalar] at hspread ⊢
    simp only at hspread ⊢
    split at hspread
    · next huniform =>
      rw [if_pos huniform, spread?_scalar]
      simp only [isUniform, Bool.and_eq_true, List.all_eq_true] at huniform
      have hall : ∀ x ∈ first :: rest, x = first := by
        intro x hx
        rcases List.mem_cons.mp hx with rfl | hx
        · rfl
        · exact (of_decide_eq_true (huniform.2 x hx) : first = x).symm
      rw [channelValue, List.getD_eq_getElem?_getD]
      cases hx : (first :: rest)[i.channel]? with
      | none => rfl
      | some x => rw [Option.getD_some, hall x (List.mem_of_getElem? hx)]
    · next huniform =>
      rw [if_neg huniform]
      have hlength : i.length = shape.length := hi.length_eq
      have hone : rest ≠ [] := by
        rintro rfl
        apply huniform
        have hlt : 0 < shape.length := by omega
        simp [isUniform, rank, channelShape, hlt]
      have hshape : shape[1]? = some (first :: rest).length := by
        rcases channels_of_spreadsOver hr hspread with hn | hn
        · exact absurd (List.length_eq_zero_iff.mp (by simpa using hn)) hone
        · exact hn
      have hlt : i.channel < (first :: rest).length := hi.channel_lt hshape
      rw [spread?_of_pad (n := (first :: rest).length) (by omega)]
      · exact getElem?_channel hlt
      · simp [padShape, channelShape, hlength]
      · intro hn
        simp only [hn] at hlt
        omega

end Tensor

namespace AffineParams

def SpreadsOver (d : AffineParams Rat) (shape : List Nat) : Prop :=
  d.scale.SpreadsOver shape ∧ ∀ z ∈ d.zeroPoint, z.SpreadsOver shape

def value? (d : AffineParams Rat) (i : Index) (q : Rat) : Option Rat := do
  let scale ← d.scale.spread? i
  match d.zeroPoint with
  | none => return q * scale
  | some zeroPoint => return (q - (← zeroPoint.spread? i)) * scale

theorem value?_ofChannels {scales zeroPoints : List Rat} {rank : Nat} {shape : List Nat}
    {d : AffineParams Rat} {i : Index} (hscales : scales ≠ [])
    (hlength : scales.length = zeroPoints.length)
    (hr : scales.length = 1 ∨ rank = shape.length ∧ 2 ≤ rank)
    (h : ofChannels scales zeroPoints rank = .ok d) (hspread : d.SpreadsOver shape)
    (hi : i.Inside shape) (q : Rat) :
    d.value? i q =
      some ((q - channelValue zeroPoints i.channel) * channelValue scales i.channel) := by
  have hzeroPoints : zeroPoints ≠ [] := by
    rintro rfl
    exact hscales (List.length_eq_zero_iff.mp hlength)
  rw [ofChannels] at h
  split at h
  · obtain ⟨z, hz, h⟩ := except_bind_eq_ok.mp h
    obtain ⟨s, hs, h⟩ := except_bind_eq_ok.mp h
    cases h
    cases hzero : Tensor.perChannel zeroPoints rank with
    | error e => simp [hzero] at hz
    | ok t =>
      obtain rfl : some t.toScalar = z := by simpa [hzero] using hz
      simp only [value?, Tensor.spread?_perChannel hscales hr hs hspread.1 hi,
        Tensor.spread?_perChannel hzeroPoints (hlength ▸ hr) hzero (hspread.2 _ rfl) hi]
      rfl
  · next hzero =>
    simp only [pure_bind] at h
    obtain ⟨s, hs, h⟩ := except_bind_eq_ok.mp h
    cases h
    have hall : ∀ z ∈ zeroPoints, z = 0 := by
      intro z hz
      by_contra hne
      have hnot : (!decide (z = 0)) = true := by simp [hne]
      exact hzero (List.any_eq_true.mpr ⟨z, hz, hnot⟩)
    have hvalue : channelValue zeroPoints i.channel = 0 := by
      obtain ⟨first, rest, rfl⟩ := List.exists_cons_of_ne_nil hzeroPoints
      rw [channelValue, List.getD_eq_getElem?_getD]
      cases hx : (first :: rest)[i.channel]? with
      | none => exact hall first List.mem_cons_self
      | some x => exact hall x (List.mem_of_getElem? hx)
    simp only [value?, Tensor.spread?_perChannel hscales hr hs hspread.1 hi, hvalue, sub_zero]
    rfl

end AffineParams

end LowPrecision
