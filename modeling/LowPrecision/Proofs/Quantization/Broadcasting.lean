import LowPrecision.Proofs.Quantization.Totality
import LowPrecision.Tensor.Broadcast
import Mathlib.Algebra.BigOperators.Ring.List
import Mathlib.Data.List.Sublists

namespace LowPrecision

section Shapes

theorem except_map_mapError_eq_ok {α β ε ε' : Type} {x : Except ε α} {f : α → β} {e : ε → ε'} {y : β}
    (h : f <$> x.mapError e = .ok y) : ∃ a, x = .ok a ∧ y = f a := by
  cases x with
  | error err => cases h
  | ok a =>
    cases h
    exact ⟨a, rfl, rfl⟩

def Widens (shape target : List Nat) : Prop := List.Forall₂ (fun d e => d = e ∨ d = 1) shape target

theorem Widens.of_joinAxes {lhs rhs shape : List Nat} (hlength : lhs.length = rhs.length)
    (h : joinAxes lhs rhs = .ok shape) : Widens lhs shape ∧ Widens rhs shape := by
  induction lhs generalizing rhs shape with
  | nil =>
    obtain rfl := List.length_eq_zero_iff.mp hlength.symm
    cases h
    exact ⟨.nil, .nil⟩
  | cons a lhs ih =>
    cases rhs with
    | nil => cases hlength
    | cons b rhs =>
      have hrest := Nat.succ.inj hlength
      rw [joinAxes] at h
      split at h
      · next hab =>
        rw [Bool.or_eq_true, decide_eq_true_eq, decide_eq_true_eq] at hab
        obtain ⟨rest, hjoin, rfl⟩ := except_map_mapError_eq_ok h
        obtain ⟨hl, hr⟩ := ih hrest hjoin
        exact ⟨.cons (.inl rfl) hl, .cons (hab.imp_left Eq.symm) hr⟩
      · split at h
        · next ha =>
          obtain ⟨rest, hjoin, rfl⟩ := except_map_mapError_eq_ok h
          obtain ⟨hl, hr⟩ := ih hrest hjoin
          exact ⟨.cons (.inr ha) hl, .cons (.inl rfl) hr⟩
        · cases h

theorem Widens.joinAxes {shape target : List Nat} (h : Widens shape target) :
    joinAxes shape target = .ok target := by
  induction h with
  | nil => rfl
  | cons hd _ ih =>
    rw [LowPrecision.joinAxes]
    split
    · next hsame =>
      rw [Bool.or_eq_true, decide_eq_true_eq, decide_eq_true_eq] at hsame
      rw [ih]
      rcases hd with rfl | rfl
      · rfl
      · rcases hsame with rfl | rfl <;> rfl
    · next hne =>
      rw [Bool.or_eq_true, decide_eq_true_eq, decide_eq_true_eq] at hne
      rw [if_pos (hd.resolve_left fun he => hne (.inl he)), ih]
      rfl

theorem length_padShape {rank : Nat} {shape : List Nat} (h : shape.length ≤ rank) :
    (padShape rank shape).length = rank := by
  rw [padShape, List.length_append, List.length_replicate]
  omega

theorem padShape_length (shape : List Nat) : padShape shape.length shape = shape := by
  rw [padShape, Nat.sub_self]
  rfl

theorem Widens.of_broadcastShape {lhs rhs shape : List Nat} (h : broadcastShape lhs rhs = .ok shape) :
    Widens (padShape shape.length lhs) shape ∧ Widens (padShape shape.length rhs) shape ∧
      lhs.length ≤ shape.length ∧ rhs.length ≤ shape.length := by
  rw [broadcastShape] at h
  split at h
  · next hjoin =>
    cases h
    have hl : (padShape (max lhs.length rhs.length) lhs).length = max lhs.length rhs.length :=
      length_padShape (Nat.le_max_left ..)
    have hr : (padShape (max lhs.length rhs.length) rhs).length = max lhs.length rhs.length :=
      length_padShape (Nat.le_max_right ..)
    obtain ⟨hleft, hright⟩ := Widens.of_joinAxes (hl.trans hr.symm) hjoin
    obtain hlength : max lhs.length rhs.length = shape.length := hl.symm.trans hleft.length_eq
    rw [hlength] at hleft hright
    exact ⟨hleft, hright, hlength ▸ Nat.le_max_left .., hlength ▸ Nat.le_max_right ..⟩
  · cases h

theorem Widens.broadcastShape {shape target : List Nat} (hle : shape.length ≤ target.length)
    (h : Widens (padShape target.length shape) target) : broadcastShape shape target = .ok target := by
  rw [LowPrecision.broadcastShape, Nat.max_eq_right hle, padShape_length, h.joinAxes]

theorem Widens.pos {shape target : List Nat} (h : Widens shape target) (hpos : ∀ d ∈ target, 0 < d) :
    ∀ d ∈ shape, 0 < d := by
  intro d hd
  induction h with
  | nil => cases hd
  | cons hde _ ih =>
    rcases List.mem_cons.mp hd with rfl | hd
    · rcases hde with rfl | rfl
      · exact hpos _ List.mem_cons_self
      · exact Nat.one_pos
    · exact ih (fun e he => hpos e (List.mem_cons_of_mem _ he)) hd

end Shapes

section Strides

def suffixProducts : List Nat → List Nat
  | [] => []
  | _ :: rest => rest.prod :: suffixProducts rest

theorem word_ok {n : Nat} (h : n < Checked.wordSize) : Checked.word n = .ok n := if_pos h

theorem mul_eq_ok {m n k : Nat} : Checked.mul m n = .ok k ↔ m * n < Checked.wordSize ∧ k = m * n := by
  rw [Checked.mul, Checked.word]
  split
  · next h => simp [h, eq_comm]
  · next h => simp [h]

theorem get_eq_ok {α : Type} {xs : List α} {i : Nat} {x : α} :
    Checked.get xs i = .ok x ↔ xs[i]? = some x := by
  rw [Checked.get]
  split <;> simp_all

theorem product_eq_ok {sizes : List Nat} {base n : Nat}
    (h : sizes.foldlM Checked.mul base = .ok n) : n = base * sizes.prod ∧ (sizes ≠ [] → n < Checked.wordSize) := by
  induction sizes generalizing base with
  | nil =>
    cases h
    exact ⟨by simp, fun hne => absurd rfl hne⟩
  | cons d rest ih =>
    rw [List.foldlM_cons] at h
    obtain ⟨m, hm, hrest⟩ := except_bind_eq_ok.mp h
    obtain ⟨hlt, rfl⟩ := mul_eq_ok.mp hm
    obtain ⟨rfl, hword⟩ := ih hrest
    refine ⟨by rw [List.prod_cons, Nat.mul_assoc], fun _ => ?_⟩
    cases rest with
    | nil => simpa using hlt
    | cons e rest => exact hword (by simp)

theorem product_lt_wordSize {sizes : List Nat} {n : Nat} (h : Checked.product sizes = .ok n) :
    n < Checked.wordSize := by
  cases sizes with
  | nil =>
    cases h
    decide
  | cons d rest => exact (product_eq_ok h).2 (List.cons_ne_nil d rest)

theorem strides_ok {shape : List Nat} (h : ∀ n ∈ suffixProducts shape, n < Checked.wordSize) :
    strides shape = .ok (suffixProducts shape) := by
  induction shape with
  | nil => rfl
  | cons d rest ih =>
    cases rest with
    | nil => rfl
    | cons e rest =>
      rw [suffixProducts, List.forall_mem_cons] at h
      rw [strides, ih h.2]
      change (Checked.mul rest.prod e >>= fun n => pure (n :: suffixProducts (e :: rest))) = _
      rw [Checked.mul, word_ok (by rw [Nat.mul_comm, ← List.prod_cons]; exact h.1), Nat.mul_comm, ← List.prod_cons]
      rfl

theorem exists_suffix_of_mem {shape : List Nat} {n : Nat} (h : n ∈ suffixProducts shape) :
    ∃ rest, rest <:+ shape ∧ rest.prod = n := by
  induction shape with
  | nil => cases h
  | cons d rest ih =>
    rcases List.mem_cons.mp h with rfl | h
    · exact ⟨rest, List.suffix_cons d rest, rfl⟩
    · obtain ⟨part, hpart, rfl⟩ := ih h
      exact ⟨part, hpart.trans (List.suffix_cons d rest), rfl⟩

def FitsWord (shape : List Nat) : Prop :=
  ∀ dims : List Nat, dims.Sublist shape → dims.prod < Checked.wordSize

instance (shape : List Nat) : Decidable (FitsWord shape) :=
  decidable_of_iff (∀ dims ∈ shape.sublists, dims.prod < Checked.wordSize)
    (forall_congr' fun _ => imp_congr_left List.mem_sublists)

theorem FitsWord.perm {shape shape' : List Nat} (h : FitsWord shape) (hperm : shape.Perm shape') :
    FitsWord shape' := by
  intro dims hsub
  obtain ⟨part, hpart, hsub⟩ := hsub.subperm.trans hperm.symm.subperm
  exact hpart.prod_eq ▸ h part hsub

theorem FitsWord.product {shape : List Nat} (h : FitsWord shape) : Checked.product shape = .ok shape.prod := by
  have hfrom : ∀ front rest, front ++ rest = shape →
      rest.foldlM Checked.mul front.prod = .ok shape.prod := by
    intro front rest
    induction rest generalizing front with
    | nil =>
      rintro rfl
      rw [List.append_nil]
      rfl
    | cons d rest ih =>
      intro heq
      have hfront : (front ++ [d]).Sublist shape :=
        heq ▸ (List.singleton_sublist.mpr List.mem_cons_self).append_left front
      have hprod : (front ++ [d]).prod = front.prod * d := by rw [List.prod_append, List.prod_singleton]
      rw [List.foldlM_cons, Checked.mul, ← hprod, word_ok (h _ hfront)]
      exact ih (front ++ [d]) (by rw [← heq, List.append_assoc, List.singleton_append])
  exact hfrom [] shape rfl

theorem FitsWord.strides {shape : List Nat} (h : FitsWord shape) :
    strides shape = .ok (suffixProducts shape) := strides_ok fun n hn => by
  obtain ⟨rest, hrest, rfl⟩ := exists_suffix_of_mem hn
  exact h rest hrest.sublist

theorem pos_of_mem_of_prod_pos {shape : List Nat} (h : 0 < shape.prod) {d : Nat} (hd : d ∈ shape) : 0 < d :=
  Nat.pos_of_ne_zero fun hzero => h.ne' (List.prod_eq_zero_iff.mpr (hzero ▸ hd))

theorem prod_suffix_le {shape rest : List Nat} (hpos : ∀ d ∈ shape, 0 < d) (h : rest <:+ shape) :
    rest.prod ≤ shape.prod := by
  obtain ⟨front, rfl⟩ := h
  rw [List.prod_append]
  refine Nat.le_mul_of_pos_left _ (Nat.pos_of_ne_zero fun hzero => ?_)
  exact absurd (hpos 0 (List.mem_append_left _ (List.prod_eq_zero_iff.mp hzero))) (Nat.lt_irrefl 0)

theorem le_prod_of_mem_suffixProducts {shape : List Nat} {n : Nat} (hpos : ∀ d ∈ shape, 0 < d)
    (h : n ∈ suffixProducts shape) : n ≤ shape.prod := by
  obtain ⟨rest, hrest, rfl⟩ := exists_suffix_of_mem h
  exact prod_suffix_le hpos hrest

theorem length_suffixProducts (shape : List Nat) : (suffixProducts shape).length = shape.length := by
  induction shape with
  | nil => rfl
  | cons d rest ih => rw [suffixProducts, List.length_cons, List.length_cons, ih]

def steps (shape : List Nat) : List Nat :=
  List.zipWith (fun dim stride => if dim = 1 then 0 else stride) shape (suffixProducts shape)

theorem steps_replicate (k : Nat) (shape : List Nat) :
    steps (List.replicate k 1 ++ shape) = List.replicate k 0 ++ steps shape := by
  induction k with
  | zero => rfl
  | succ k ih =>
    rw [List.replicate_succ, List.cons_append, steps, suffixProducts, List.zipWith_cons_cons,
      if_pos rfl, List.replicate_succ, List.cons_append, ← ih]
    rfl

theorem length_steps (shape : List Nat) : (steps shape).length = shape.length := by
  rw [steps, List.length_zipWith, length_suffixProducts, Nat.min_self]

theorem length_positions (axes : List (Nat × Nat)) (base : Nat) :
    (positions axes base).length = (axes.map Prod.fst).prod := by
  induction axes generalizing base with
  | nil => rfl
  | cons axis axes ih =>
    rw [positions, List.length_flatMap, List.map_congr_left fun i _ => ih _, List.map_const',
      List.length_range, List.sum_replicate, List.map_cons, List.prod_cons, smul_eq_mul]

theorem lt_of_mem_positions {shape target : List Nat} (h : Widens shape target) {base i : Nat}
    (hi : i ∈ positions (target.zip (steps shape)) base) : i < base + shape.prod := by
  induction h generalizing base with
  | nil => simp_all [positions, steps]
  | @cons d e shape target hde _ ih =>
    rw [steps, suffixProducts, List.zipWith_cons_cons, List.zip_cons_cons, positions,
      List.mem_flatMap] at hi
    obtain ⟨j, hj, hi⟩ := hi
    have hlt := ih hi
    rw [List.prod_cons]
    split at hlt
    · next hone =>
      subst hone
      omega
    · next hone =>
      obtain rfl := hde.resolve_right hone
      have hle : (j + 1) * shape.prod ≤ d * shape.prod :=
        Nat.mul_le_mul_right _ (List.mem_range.mp hj)
      rw [Nat.succ_mul] at hle
      omega

end Strides

namespace Tensor

variable {α : Type}

theorem prod_padShape (rank : Nat) (shape : List Nat) : (padShape rank shape).prod = shape.prod := by
  rw [padShape, List.prod_append, List.prod_replicate, one_pow, one_mul]

theorem exists_values {xs : List α} {indices : List Nat} (h : ∀ i ∈ indices, i < xs.length) :
    ∃ values, (indices.mapM fun i => match xs.toArray[i]? with
        | some x => pure x
        | none => throwThe Fault .outOfRange : Attempt TensorError (List α)).run = .ok (.ok values) ∧
      values.length = indices.length := by
  refine exists_attempt_mapM fun i hi => ⟨xs.get ⟨i, h i hi⟩, ?_⟩
  rw [List.getElem?_toArray, List.getElem?_eq_getElem (h i hi)]
  rfl

theorem lt_size_of_position {t : Tensor α} {target : List Nat} (hsize : t.size = t.shape.prod)
    (h : broadcastShape t.shape target = .ok target) {i : Nat}
    (hi : i ∈ positions (target.zip (List.replicate (target.length - t.rank) 0 ++ steps t.shape)) 0) :
    i < t.size := by
  rw [← steps_replicate] at hi
  have hlt := lt_of_mem_positions (Widens.of_broadcastShape h).1 hi
  rwa [prod_padShape, Nat.zero_add, ← hsize] at hlt

theorem broadcastTo_ok {t : Tensor α} {target : List Nat} {total : Nat}
    (hstrides : strides t.shape = .ok (suffixProducts t.shape)) (hsize : t.size = t.shape.prod)
    (h : broadcastShape t.shape target = .ok target) (htotal : Checked.product target = .ok total)
    (hreserve : Checked.reserve total elementWidth = .ok ()) :
    ∃ out, (t.broadcastTo target).run = .ok (.ok out) ∧ out.shape = target ∧
      out.size = target.prod := by
  obtain ⟨htarget, -⟩ := product_eq_ok htotal
  rw [Nat.one_mul] at htarget
  obtain ⟨-, -, hle, -⟩ := Widens.of_broadcastShape h
  have hcells : ∀ i ∈ positions (target.zip (List.replicate (target.length - t.rank) 0 ++
      steps t.shape)) 0, i < t.data.length := fun _ => lt_size_of_position hsize h
  have hcount : (positions (target.zip (List.replicate (target.length - t.rank) 0 ++
      steps t.shape)) 0).length = target.prod := by
    rw [length_positions, List.map_fst_zip]
    rw [List.length_append, List.length_replicate, length_steps, rank]
    omega
  have hjoint : (liftM (broadcastShape t.shape target) : Attempt TensorError _).run = .ok (.ok target) := by
    rw [h]
    rfl
  by_cases hsame : t.shape = target
  · refine ⟨t, ?_, hsame, hsame ▸ hsize⟩
    rw [broadcastTo, if_pos hsame]
    rfl
  rw [broadcastTo, if_neg hsame]
  by_cases hzero : total = 0
  · refine ⟨⟨target, []⟩, attempt_bind_eq_ok.mpr ⟨target, hjoint, ?_⟩, rfl, (htarget ▸ hzero).symm⟩
    rw [if_neg (fun hne => hne rfl)]
    refine attempt_bind_eq_ok.mpr ⟨_, attempt_lift_eq_ok.mpr hstrides, ?_⟩
    refine attempt_bind_eq_ok.mpr ⟨_, attempt_lift_eq_ok.mpr htotal, ?_⟩
    refine attempt_bind_eq_ok.mpr ⟨_, attempt_lift_eq_ok.mpr hreserve, ?_⟩
    rw [if_pos hzero]
    rfl
  · obtain ⟨data, hdata, hlength⟩ := exists_values hcells
    refine ⟨⟨target, data⟩, attempt_bind_eq_ok.mpr ⟨target, hjoint, ?_⟩, rfl, hlength.trans hcount⟩
    rw [if_neg (fun hne => hne rfl)]
    refine attempt_bind_eq_ok.mpr ⟨_, attempt_lift_eq_ok.mpr hstrides, ?_⟩
    refine attempt_bind_eq_ok.mpr ⟨_, attempt_lift_eq_ok.mpr htotal, ?_⟩
    refine attempt_bind_eq_ok.mpr ⟨_, attempt_lift_eq_ok.mpr hreserve, ?_⟩
    rw [if_neg hzero]
    exact attempt_bind_eq_ok.mpr ⟨data, hdata, rfl⟩

structure Joins (t u : Tensor α) : Prop where
  left : Checked.product t.shape = .ok t.size
  right : Checked.product u.shape = .ok u.size
  joint : ∃ shape count, broadcastShape t.shape u.shape = .ok shape ∧
    Checked.product shape = .ok count ∧ 0 < count ∧ Checked.reserve count elementWidth = .ok ()

theorem Joins.broadcastTo_ok {t : Tensor α} (ht : Checked.product t.shape = .ok t.size)
    {target : List Nat} {count : Nat} (hle : t.shape.length ≤ target.length)
    (h : Widens (padShape target.length t.shape) target)
    (hcount : Checked.product target = .ok count) (hpos : 0 < count)
    (hreserve : Checked.reserve count elementWidth = .ok ()) :
    ∃ out, (t.broadcastTo target).run = .ok (.ok out) := by
  obtain ⟨htarget, -⟩ := product_eq_ok hcount
  rw [Nat.one_mul] at htarget
  obtain ⟨hsize, -⟩ := product_eq_ok ht
  rw [Nat.one_mul] at hsize
  have hdims : ∀ d ∈ t.shape, 0 < d := fun d hd =>
    h.pos (fun e he => pos_of_mem_of_prod_pos (htarget ▸ hpos) he) d (List.mem_append_right _ hd)
  have hstrides : strides t.shape = .ok (suffixProducts t.shape) := by
    refine strides_ok fun n hn => (le_prod_of_mem_suffixProducts hdims hn).trans_lt ?_
    exact hsize ▸ product_lt_wordSize ht
  obtain ⟨out, hout, -⟩ := Tensor.broadcastTo_ok hstrides hsize (h.broadcastShape hle) hcount hreserve
  exact ⟨out, hout⟩

theorem broadcastZip_run {t u lhs rhs : Tensor α} {shape : List Nat} (f : α → α → α)
    (hshape : broadcastShape t.shape u.shape = .ok shape) (hlhs : (t.broadcastTo shape).run = .ok (.ok lhs))
    (hrhs : (u.broadcastTo shape).run = .ok (.ok rhs)) :
    (t.broadcastZip u f).run = .ok (.ok ⟨shape, List.zipWith f lhs.data rhs.data⟩) := by
  refine attempt_bind_eq_ok.mpr ⟨shape, ?_, ?_⟩
  · rw [hshape]
    rfl
  · exact attempt_bind_eq_ok.mpr ⟨lhs, hlhs, attempt_bind_eq_ok.mpr ⟨rhs, hrhs, rfl⟩⟩

theorem broadcastZip_ok {t u : Tensor α} (h : t.Joins u) (f : α → α → α) :
    ∃ out, (t.broadcastZip u f).run = .ok (.ok out) := by
  obtain ⟨shape, count, hshape, hcount, hpos, hreserve⟩ := h.joint
  obtain ⟨hleft, hright, hl, hr⟩ := Widens.of_broadcastShape hshape
  obtain ⟨lhs, hlhs⟩ := Joins.broadcastTo_ok h.left hl hleft hcount hpos hreserve
  obtain ⟨rhs, hrhs⟩ := Joins.broadcastTo_ok h.right hr hright hcount hpos hreserve
  exact ⟨_, broadcastZip_run f hshape hlhs hrhs⟩

end Tensor

end LowPrecision
