import LowPrecision.Proofs.Quantization.Transposition
import Mathlib.Algebra.Order.BigOperators.Group.List

namespace LowPrecision

variable {α : Type}

/-- Bounds on the dimensions of constants and on the number of dimensions of any value, with a smaller
bound on the dimensions of the values that are joined or convolved. Dimensions of size 0 may be left
out. -/
structure Limits where
  least : Nat
  channels : Nat
  extent : Nat
  rank : Nat
  least_le : least ≤ 1
  channels_pos : 0 < channels
  channels_le : channels ≤ extent
  rank_pos : 0 < rank
  elements : extent ^ rank * Tensor.elementWidth < Checked.wordSize / 2
  dimensions : rank * Tensor.dimensionWidth < Checked.wordSize / 2

namespace Limits

variable {l : Limits} {shape target lhs rhs : List Nat} {n : Nat}

def Allows (l : Limits) (shape : List Nat) : Prop :=
  shape.length ≤ l.rank ∧ ∀ d ∈ shape, l.least ≤ d ∧ d ≤ l.extent

instance (l : Limits) (shape : List Nat) : Decidable (l.Allows shape) := inferInstanceAs (Decidable (_ ∧ _))

theorem extent_pos (l : Limits) : 0 < l.extent := Nat.lt_of_lt_of_le l.channels_pos l.channels_le

theorem allows_nil (l : Limits) : l.Allows [] := ⟨Nat.zero_le _, fun _ hd => absurd hd List.not_mem_nil⟩

theorem extent_le (l : Limits) : l.extent ≤ l.extent ^ l.rank :=
  Nat.le_self_pow (Nat.pos_iff_ne_zero.mp l.rank_pos) l.extent

theorem reserve_ok (h : n ≤ l.extent ^ l.rank) : Checked.reserve n Tensor.elementWidth = .ok () :=
  if_pos (Nat.lt_of_le_of_lt (Nat.mul_le_mul_right _ h) l.elements)

theorem lt_wordSize (h : n ≤ l.extent ^ l.rank) : n < Checked.wordSize := by
  have hwidth : n ≤ n * Tensor.elementWidth := Nat.le_mul_of_pos_right n (by decide)
  have hlt := Nat.lt_of_le_of_lt (Nat.mul_le_mul_right Tensor.elementWidth h) l.elements
  omega

namespace Allows

theorem sublist (h : l.Allows shape) (hsub : target.Sublist shape) : l.Allows target :=
  ⟨Nat.le_trans hsub.length_le h.1, fun d hd => h.2 d (hsub.subset hd)⟩

theorem prod_le (h : l.Allows shape) : shape.prod ≤ l.extent ^ l.rank :=
  Nat.le_trans (List.prod_le_pow_card shape l.extent fun d hd => (h.2 d hd).2)
    (Nat.pow_le_pow_right l.extent_pos h.1)

theorem fitsWord (h : l.Allows shape) : FitsWord shape :=
  fun _ hsub => lt_wordSize (h.sublist hsub).prod_le

theorem product (h : l.Allows shape) : Checked.product shape = .ok shape.prod := h.fitsWord.product

theorem strides (h : l.Allows shape) : strides shape = .ok (suffixProducts shape) := h.fitsWord.strides

theorem one (l : Limits) : l.least ≤ 1 ∧ 1 ≤ l.extent := ⟨l.least_le, l.extent_pos⟩

theorem replicate (h : n ≤ l.rank) : l.Allows (List.replicate n 1) :=
  ⟨by rwa [List.length_replicate], fun _ hd => List.eq_of_mem_replicate hd ▸ one l⟩

theorem set (h : l.Allows shape) (i : Nat) (hn : l.least ≤ n ∧ n ≤ l.extent) : l.Allows (shape.set i n) :=
  ⟨by rw [List.length_set]; exact h.1, fun d hd =>
    (List.mem_or_eq_of_mem_set hd).elim (h.2 d) fun heq => heq ▸ hn⟩

end Allows

theorem mem_of_joinAxes (h : joinAxes lhs rhs = .ok shape) {d : Nat} (hd : d ∈ shape) :
    d ∈ lhs ∨ d ∈ rhs := by
  induction lhs generalizing rhs shape with
  | nil =>
    cases h
    cases hd
  | cons a lhs ih =>
    cases rhs with
    | nil =>
      cases h
      cases hd
    | cons b rhs =>
      rw [joinAxes] at h
      split at h
      · obtain ⟨rest, hjoin, rfl⟩ := except_map_mapError_eq_ok h
        rcases List.mem_cons.mp hd with rfl | hd
        · exact .inl List.mem_cons_self
        · exact (ih hjoin hd).imp (List.mem_cons_of_mem a) (List.mem_cons_of_mem b)
      · split at h
        · obtain ⟨rest, hjoin, rfl⟩ := except_map_mapError_eq_ok h
          rcases List.mem_cons.mp hd with rfl | hd
          · exact .inr List.mem_cons_self
          · exact (ih hjoin hd).imp (List.mem_cons_of_mem a) (List.mem_cons_of_mem b)
        · cases h

theorem Allows.joint (hl : l.Allows lhs) (hr : l.Allows rhs) (h : broadcastShape lhs rhs = .ok shape) :
    l.Allows shape := by
  have hpad : ∀ {rank : Nat} {s : List Nat}, l.Allows s →
      ∀ d ∈ padShape rank s, l.least ≤ d ∧ d ≤ l.extent := by
    intro rank s hs d hd
    rcases List.mem_append.mp hd with hone | hd
    · exact List.eq_of_mem_replicate hone ▸ Allows.one l
    · exact hs.2 d hd
  rw [broadcastShape] at h
  split at h
  · next joint hjoin =>
    obtain rfl := Except.ok.inj h
    have hleft : (padShape (max lhs.length rhs.length) lhs).length = max lhs.length rhs.length :=
      length_padShape (Nat.le_max_left ..)
    have hright : (padShape (max lhs.length rhs.length) rhs).length = max lhs.length rhs.length :=
      length_padShape (Nat.le_max_right ..)
    have hlength := (Widens.of_joinAxes (hleft.trans hright.symm) hjoin).1.length_eq
    refine ⟨?_, fun d hd => (mem_of_joinAxes hjoin hd).elim (hpad hl d) (hpad hr d)⟩
    rw [← hlength, hleft]
    exact Nat.max_le.mpr ⟨hl.1, hr.1⟩
  · cases h

end Limits

namespace Tensor

variable {l : Limits} {t u : Tensor α}

structure Within (l : Limits) (t : Tensor α) : Prop where
  shape : l.Allows t.shape
  filled : t.size = t.shape.prod

theorem within_scalar (l : Limits) (x : α) : (scalar x).Within l := ⟨l.allows_nil, rfl⟩

namespace Within

theorem exists_cons (h : t.Within l) (hleast : 0 < l.least) : ∃ x xs, t.data = x :: xs := by
  refine List.exists_cons_of_length_pos (Nat.pos_of_ne_zero fun hzero => ?_)
  obtain ⟨hle, -⟩ := h.shape.2 0 (List.prod_eq_zero_iff.mp (h.filled ▸ hzero))
  exact absurd hleast (Nat.not_lt.mpr hle)

theorem toScalar [Arithmetic α] (h : t.Within l) : t.toScalar.Within l := by
  rw [Tensor.toScalar]
  split
  · split
    · exact within_scalar l _
    · exact h
  · exact h

theorem of_data {data : List α} (h : t.Within l) (hlength : data.length = t.data.length) :
    (Tensor.mk t.shape data).Within l :=
  ⟨h.shape, hlength.trans h.filled⟩

end Within

theorem make_yields {shape : List Nat} (h : l.Allows shape) (data : List α) :
    (make shape data).Yields (Within l) := by
  refine Attempt.Yields.bind (.lift ⟨_, h.product, rfl⟩) ?_
  rintro _ rfl
  split
  · next hlength => exact .pure ⟨h, hlength⟩
  · exact .throw _

theorem channelValues_finds (t : Tensor α) {channels : Nat} (h : channels ≤ l.extent ^ l.rank) :
    Checked.Finds (fun values => values.length = channels) (t.channelValues channels) := by
  rw [channelValues]
  split
  · rw [Checked.replicate, Limits.reserve_ok h]
    exact .some List.length_replicate
  · by_cases hlength : t.data.length = channels
    · rw [if_pos hlength]
      exact .some hlength
    · rw [if_neg hlength]
      exact .none

theorem perChannel_ok {values : List α} (hvalues : l.least ≤ values.length ∧ values.length ≤ l.extent)
    {rank : Nat} (hrank : rank ≤ l.rank) : ∃ t, perChannel values rank = .ok t ∧ t.Within l := by
  have hmax : max rank 1 ≤ l.rank := Nat.max_le.mpr ⟨hrank, l.rank_pos⟩
  have hones : Checked.replicate dimensionWidth (max rank 1) 1 = .ok (List.replicate (max rank 1) 1) := by
    rw [Checked.replicate, Checked.reserve,
      if_pos (Nat.lt_of_le_of_lt (Nat.mul_le_mul_right _ hmax) l.dimensions)]
    rfl
  have haxis : channelAxis rank < (List.replicate (max rank 1) 1).length := by
    rw [List.length_replicate, channelAxis]
    split <;> omega
  have hwithin : (Tensor.mk ((List.replicate (max rank 1) 1).set (channelAxis rank) values.length)
      values).Within l := by
    refine ⟨(Limits.Allows.replicate hmax).set _ hvalues, ?_⟩
    rw [List.prod_set, if_pos haxis, List.take_replicate, List.drop_replicate, List.prod_replicate,
      List.prod_replicate, one_pow, one_pow, one_mul, mul_one]
    rfl
  rcases values with _ | ⟨value, _ | ⟨next, rest⟩⟩
  case cons.nil => exact ⟨_, rfl, within_scalar l value⟩
  all_goals exact ⟨_, except_bind_eq_ok.mpr ⟨_, hones, rfl⟩, hwithin⟩

section Broadcast

theorem broadcastTo_within {target : List Nat} (ht : t.Within l) (htarget : l.Allows target)
    (h : broadcastShape t.shape target = .ok target) :
    ∃ out, (t.broadcastTo target).run = .ok (.ok out) ∧ out.size = target.prod := by
  obtain ⟨out, hout, -, hsize⟩ := broadcastTo_ok ht.shape.strides ht.filled h htarget.product
    (Limits.reserve_ok htarget.prod_le)
  exact ⟨out, hout, hsize⟩

theorem broadcastZip_yields (ht : t.Within l) (hu : u.Within l) (f : α → α → α) :
    (t.broadcastZip u f).Yields (Within l) := by
  rw [broadcastZip]
  cases hjoint : broadcastShape t.shape u.shape with
  | error e => exact ⟨.error e, rfl, fun _ hb => by cases hb⟩
  | ok shape =>
    have hshape := ht.shape.joint hu.shape hjoint
    obtain ⟨hleft, hright, hl, hr⟩ := Widens.of_broadcastShape hjoint
    obtain ⟨lhs, hlhs, hlsize⟩ := broadcastTo_within ht hshape (hleft.broadcastShape hl)
    obtain ⟨rhs, hrhs, hrsize⟩ := broadcastTo_within hu hshape (hright.broadcastShape hr)
    have hzip : (t.broadcastZip u f).run = .ok (.ok ⟨shape, List.zipWith f lhs.data rhs.data⟩) :=
      attempt_bind_eq_ok.mpr ⟨shape, by rw [hjoint]; rfl,
        attempt_bind_eq_ok.mpr ⟨lhs, hlhs, attempt_bind_eq_ok.mpr ⟨rhs, hrhs, rfl⟩⟩⟩
    rw [broadcastZip, hjoint] at hzip
    refine ⟨_, hzip, fun out hout => ?_⟩
    obtain rfl := Except.ok.inj hout
    refine ⟨hshape, ?_⟩
    change (List.zipWith f lhs.data rhs.data).length = shape.prod
    rw [size] at hlsize hrsize
    rw [List.length_zipWith, hlsize, hrsize, Nat.min_self]

end Broadcast

section Transpose

theorem transposeLastTwo_ok (h : t.Within l) : ∃ u, t.transposeLastTwo = .ok u ∧ u.Within l := by
  by_cases hrank : t.rank < 2
  · exact ⟨t, transposeLastTwo_of_rank hrank, h⟩
  · obtain ⟨outer, rows, cols, hshape⟩ := exists_plane (Nat.le_of_not_lt hrank)
    have hplane : l.Allows [rows, cols] := h.shape.sublist (hshape ▸ List.sublist_append_right _ _)
    obtain ⟨u, hu⟩ := exists_transposeLastTwo hshape (by simpa using hplane.fitsWord _ (.refl _))
    obtain ⟨hushape, hfilled, -⟩ := transposeLastTwo_eq_ok hshape h.filled hu
    have hperm := hushape ▸ hshape ▸ perm_swapped outer rows cols
    exact ⟨u, hu, ⟨hperm.length_eq ▸ h.shape.1, fun d hd => h.shape.2 d (hperm.mem_iff.mpr hd)⟩, hfilled⟩

end Transpose

end Tensor

section Params

variable {l : Limits}

theorem layOut_yields {shape : List Nat} (h : l.Allows shape) (values : List α) :
    (layOut shape values).Yields (Tensor.Within l) := by
  match values with
  | [value] => exact .pure (Tensor.within_scalar l value)
  | [] | _ :: _ :: _ => exact Tensor.make_yields h _

namespace AffineParams

variable [Arithmetic α]

structure Within (l : Limits) (p : AffineParams α) : Prop where
  scale : p.scale.Within l
  zeroPoint (z : Tensor α) : p.zeroPoint = some z → z.Within l

theorem Within.toScalar {p : AffineParams α} (h : p.Within l) : p.toScalar.Within l where
  scale := h.scale.toScalar
  zeroPoint z hz := by
    obtain ⟨z₀, hz₀, rfl⟩ := Option.map_eq_some_iff.mp hz
    exact (h.zeroPoint z₀ hz₀).toScalar

theorem ofChannels_ok {scales zeroPoints : List α}
    (hscales : l.least ≤ scales.length ∧ scales.length ≤ l.extent)
    (hzero : zeroPoints.length = scales.length) {rank : Nat} (hrank : rank ≤ l.rank) :
    ∃ p, ofChannels scales zeroPoints rank = .ok p ∧ p.Within l := by
  obtain ⟨scale, hscale, hwithin⟩ := Tensor.perChannel_ok hscales hrank
  obtain ⟨zero, hz, hzwithin⟩ := Tensor.perChannel_ok (hzero ▸ hscales) hrank
  rw [ofChannels, hscale, hz]
  split
  · refine ⟨⟨scale.toScalar, some zero.toScalar⟩, rfl, hwithin.toScalar, fun _ h => ?_⟩
    exact Option.some.inj h ▸ hzwithin.toScalar
  · exact ⟨⟨scale.toScalar, none⟩, rfl, hwithin.toScalar, fun _ h => by cases h⟩

end AffineParams

end Params

end LowPrecision
