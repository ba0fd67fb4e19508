import Mathlib.Algebra.BigOperators.Group.List.Lemmas
import LowPrecision.Proofs.Quantization.Channels
import LowPrecision.Proofs.Quantization.Values

namespace LowPrecision

section Shapes

theorem broadcastShape_eq_right {shape target : List Nat} : broadcastShape shape target = .ok target ↔
    shape.length ≤ target.length ∧ Widens (padShape target.length shape) target := by
  refine ⟨fun h => ?_, fun ⟨hle, h⟩ => h.broadcastShape hle⟩
  obtain ⟨h, -, hle, -⟩ := Widens.of_broadcastShape h
  exact ⟨hle, h⟩

theorem padShape_append (n : Nat) (s r : List Nat) :
    padShape (n + r.length) (s ++ r) = padShape n s ++ r := by
  rw [padShape, padShape, List.length_append, Nat.add_sub_add_right, List.append_assoc]

theorem padShape_eq_append {m n : Nat} {s : List Nat} (hm : s.length ≤ m) (hn : m ≤ n) :
    padShape n s = List.replicate (n - m) 1 ++ padShape m s := by
  rw [padShape, padShape, ← List.append_assoc, List.replicate_append_replicate]
  congr 2
  omega

theorem Widens.refl (s : List Nat) : Widens s s := List.forall₂_same.mpr fun _ _ => .inl rfl

theorem Widens.trans {s t u : List Nat} (h : Widens s t) (h' : Widens t u) : Widens s u := by
  induction h generalizing u with
  | nil => exact h'
  | cons hd _ ih =>
    cases h' with
    | cons hd' h' =>
      refine .cons ?_ (ih h')
      rcases hd with rfl | hone
      · exact hd'
      · exact .inr hone

theorem broadcastShape_of_widens {s t : List Nat} (h : Widens s t) : broadcastShape s t = .ok t := by
  have hlength : s.length = t.length := h.length_eq
  refine broadcastShape_eq_right.mpr ⟨le_of_eq hlength, ?_⟩
  rwa [← hlength, padShape_length]

theorem Widens.append {s t s' t' : List Nat} (h : Widens s t) (h' : Widens s' t') :
    Widens (s ++ s') (t ++ t') := List.rel_append h h'

theorem widens_ones {s : List Nat} (h : ∀ d ∈ s, d = 1) : ∀ {target : List Nat},
    s.length = target.length → Widens s target := by
  induction s with
  | nil =>
    intro target hlength
    obtain rfl := List.length_eq_zero_iff.mp hlength.symm
    exact .nil
  | cons d s ih =>
    intro target hlength
    obtain ⟨e, target, rfl⟩ := List.exists_cons_of_length_eq_add_one hlength.symm
    exact .cons (.inr (h d List.mem_cons_self))
      (ih (fun e he => h e (List.mem_cons_of_mem d he)) (Nat.succ.inj hlength))

theorem widens_channelShape {shape : List Nat} {n : Nat} (hn : n = 1 ∨ shape[1]? = some n) :
    Widens (channelShape shape.length n) shape := by
  match shape, hn with
  | [], _ => exact .nil
  | [_], _ => exact .cons (.inr rfl) .nil
  | _ :: e :: shape, hn =>
    have hrest : Widens (List.replicate shape.length 1) shape :=
      widens_ones (fun _ hd => List.eq_of_mem_replicate hd) List.length_replicate
    exact .cons (.inr rfl) (.cons (hn.symm.imp_left fun h => (Option.some.inj h).symm) hrest)

theorem broadcastShape_ones {s target : List Nat} (h : ∀ d ∈ s, d = 1)
    (hle : s.length ≤ target.length) : broadcastShape s target = .ok target := by
  refine broadcastShape_eq_right.mpr ⟨hle, widens_ones (fun d hd => ?_) (length_padShape hle)⟩
  rcases List.mem_append.mp hd with hd | hd
  · exact List.eq_of_mem_replicate hd
  · exact h d hd

theorem broadcastShape_trans {s t u : List Nat} (h : broadcastShape s t = .ok t)
    (h' : broadcastShape t u = .ok u) : broadcastShape s u = .ok u := by
  rw [broadcastShape_eq_right] at h h' ⊢
  refine ⟨h.1.trans h'.1, ?_⟩
  rw [padShape_eq_append h.1 h'.1]
  exact ((Widens.refl _).append h.2).trans h'.2

theorem broadcastShape_append {s t r r' : List Nat} (h : broadcastShape s t = .ok t) (hr : Widens r r') :
    broadcastShape (s ++ r) (t ++ r') = .ok (t ++ r') := by
  rw [broadcastShape_eq_right] at h ⊢
  have hlength := hr.length_eq
  refine ⟨?_, ?_⟩
  · rw [List.length_append, List.length_append, hlength]
    exact Nat.add_le_add_right h.1 _
  · rw [List.length_append, ← hlength, padShape_append]
    exact h.2.append hr

theorem broadcastShape_split {s t r r' : List Nat}
    (h : broadcastShape (s ++ r) (t ++ r') = .ok (t ++ r')) (hlength : r.length = r'.length) :
    broadcastShape s t = .ok t ∧ Widens r r' := by
  obtain ⟨hle, hw⟩ := broadcastShape_eq_right.mp h
  rw [List.length_append, List.length_append, hlength, Nat.add_le_add_iff_right] at hle
  rw [List.length_append, ← hlength, padShape_append] at hw
  have hpad : (padShape t.length s).length = t.length := length_padShape hle
  have hfirst := List.forall₂_take_append _ _ _ hw
  have hlast := List.forall₂_drop_append _ _ _ hw
  rw [List.take_left' hpad] at hfirst
  rw [List.drop_left' hpad] at hlast
  exact ⟨broadcastShape_eq_right.mpr ⟨hle, hfirst⟩, hlast⟩

theorem broadcastShape_self (s : List Nat) : broadcastShape s s = .ok s :=
  broadcastShape_of_widens (.refl s)

theorem broadcastShape_of_ok {l r joint : List Nat} (h : broadcastShape l r = .ok joint) :
    broadcastShape l joint = .ok joint ∧ broadcastShape r joint = .ok joint := by
  obtain ⟨hl, hr, hle, hle'⟩ := Widens.of_broadcastShape h
  exact ⟨broadcastShape_eq_right.mpr ⟨hle, hl⟩, broadcastShape_eq_right.mpr ⟨hle', hr⟩⟩

theorem Widens.of_joined {l r joint target : List Nat} (hl : Widens l target) (hr : Widens r target)
    (h : LowPrecision.joinAxes l r = .ok joint) : Widens joint target := by
  induction hl generalizing r joint with
  | nil =>
    cases hr
    cases h
    exact .nil
  | cons hd _ ih =>
    cases hr with
    | cons hd' hr =>
      rw [LowPrecision.joinAxes] at h
      split at h
      · obtain ⟨rest, hjoin, rfl⟩ := except_map_mapError_eq_ok h
        exact .cons hd (ih hr hjoin)
      · split at h
        · obtain ⟨rest, hjoin, rfl⟩ := except_map_mapError_eq_ok h
          exact .cons hd' (ih hr hjoin)
        · cases h

theorem joinAxes_append_ones {l r joint : List Nat} (h : joinAxes l r = .ok joint) (k : Nat) :
    joinAxes (List.replicate k 1 ++ l) (List.replicate k 1 ++ r) = .ok (List.replicate k 1 ++ joint) := by
  induction k with
  | zero => exact h
  | succ k ih =>
    change joinAxes (1 :: (List.replicate k 1 ++ l)) (1 :: (List.replicate k 1 ++ r)) = _
    rw [joinAxes, ih]
    rfl

theorem broadcastShape_of_joint {l r joint target : List Nat} (hl : broadcastShape l target = .ok target)
    (hr : broadcastShape r target = .ok target) (h : broadcastShape l r = .ok joint) :
    broadcastShape joint target = .ok target := by
  obtain ⟨-, -, hlj, hrj⟩ := Widens.of_broadcastShape h
  rw [broadcastShape_eq_right] at hl hr ⊢
  have hjoint : joinAxes (padShape (max l.length r.length) l) (padShape (max l.length r.length) r) =
      .ok joint := broadcastShape_eq_ok.mp h
  have hlength : joint.length = max l.length r.length := by
    have hleft := (Widens.of_joinAxes ((length_padShape (Nat.le_max_left ..)).trans
      (length_padShape (Nat.le_max_right ..)).symm) hjoint).1.length_eq
    rw [length_padShape (Nat.le_max_left ..)] at hleft
    exact hleft.symm
  have hle : joint.length ≤ target.length := hlength ▸ Nat.max_le.mpr ⟨hl.1, hr.1⟩
  refine ⟨hle, ?_⟩
  rw [← hlength] at hjoint
  refine .of_joined hl.2 hr.2 ?_
  rw [padShape_eq_append hlj hle, padShape_eq_append hrj hle]
  exact joinAxes_append_ones hjoint _

theorem ones_of_broadcastShape {l r joint : List Nat} (hl : ∀ d ∈ l, d = 1) (hr : ∀ d ∈ r, d = 1)
    (h : broadcastShape l r = .ok joint) : ∀ d ∈ joint, d = 1 := by
  obtain ⟨hle, hle'⟩ := (Widens.of_broadcastShape h).2.2
  have hones : broadcastShape joint (List.replicate joint.length 1) = .ok (List.replicate joint.length 1) :=
    broadcastShape_of_joint (broadcastShape_ones hl (by simpa using hle))
      (broadcastShape_ones hr (by simpa using hle')) h
  have hwidens := (broadcastShape_eq_right.mp hones).2
  rw [List.length_replicate, padShape_length] at hwidens
  intro d hd
  obtain ⟨i, hi⟩ := List.getElem?_of_mem hd
  obtain ⟨e, he, hde⟩ := forall₂_getElem? hwidens hi
  rw [List.getElem?_replicate] at he
  split at he
  · cases he
    exact hde.elim id id
  · cases he

end Shapes

namespace Tensor

theorem place_of_append {s : List Nat} {i : Index} (h : i.length = s.length) (s' : List Nat) (i' : Index) :
    place (s ++ s') (i ++ i') = place s i * s'.prod + place s' i' := by
  induction s generalizing i with
  | nil =>
    obtain rfl := List.length_eq_zero_iff.mp h
    simp [place]
  | cons d s ih =>
    obtain ⟨x, i, rfl⟩ := List.exists_cons_of_length_eq_add_one h
    rw [List.cons_append, List.cons_append, place, place, ih (Nat.succ.inj h), List.prod_append]
    split
    · rw [Nat.zero_add, Nat.zero_add]
    · rw [Nat.add_mul, Nat.mul_assoc, Nat.add_assoc]

theorem place_zipWith {s inner : List Nat} (h : Widens s inner) (j : Index) :
    place s (List.zipWith (fun dim x => if dim = 1 then 0 else x) inner j) = place s j := by
  induction h generalizing j with
  | nil => rfl
  | cons hd _ ih =>
    cases j with
    | nil => rfl
    | cons x j =>
      rw [List.zipWith_cons_cons, place, place, ih]
      congr 1
      split
      · rfl
      · next hne => rw [if_neg (hd.resolve_right hne ▸ hne)]

theorem spread?_fit {α : Type} {t : Tensor α} {shape : List Nat} {i : Index} (h : t.SpreadsOver shape)
    (hi : shape.length ≤ i.length) : t.spread? (i.fit shape) = t.spread? i := by
  obtain ⟨s, data⟩ := t
  obtain ⟨hle, hw⟩ := broadcastShape_eq_right.mp h
  dsimp only at hle hw
  have hlength : (i.fit shape).length = shape.length := by
    rw [Index.fit, List.length_zipWith, List.length_drop]
    omega
  have hindex : (i.drop (i.length - shape.length)).drop (shape.length - s.length) =
      i.drop (i.length - s.length) := by
    rw [List.drop_drop]
    congr 1
    omega
  rw [spread?, spread?, rank, hlength, Index.fit, List.drop_zipWith, hindex]
  exact congrArg (data[·]?) (place_zipWith hw.drop_pad _)

theorem valueAt_fit {t : Tensor Rat} {shape : List Nat} {i : Index} (h : t.SpreadsOver shape)
    (hi : shape.length ≤ i.length) : t.valueAt (i.fit shape) = t.valueAt i := by
  rw [valueAt, valueAt, spread?_fit h hi]

section Positions

variable {α β : Type}

theorem getElem?_flatten_of_length {k : Nat} {xss : List (List α)} (h : ∀ xs ∈ xss, xs.length = k)
    {m n : Nat} (hn : n < k) : xss.flatten[m * k + n]? = xss[m]?.bind (·[n]?) := by
  induction xss generalizing m with
  | nil => rfl
  | cons xs xss ih =>
    have hlength := h xs List.mem_cons_self
    rw [List.flatten_cons]
    cases m with
    | zero =>
      rw [Nat.zero_mul, Nat.zero_add, List.getElem?_append_left (hlength ▸ hn)]
      rfl
    | succ m =>
      rw [List.getElem?_append_right (by rw [hlength, Nat.succ_mul]; omega), hlength, Nat.succ_mul,
        show m * k + k + n - k = m * k + n by omega,
        ih fun ys hys => h ys (List.mem_cons_of_mem xs hys)]
      rfl

theorem getElem?_positions {axes : List (Nat × Nat)} {i : Index} (hi : i.Inside (axes.map Prod.fst))
    (base : Nat) : (positions axes base)[place (axes.map Prod.fst) i]? =
      some (base + (List.zipWith (· * ·) i (axes.map Prod.snd)).sum) := by
  induction axes generalizing i base with
  | nil =>
    cases hi
    rfl
  | cons axis axes ih =>
    obtain ⟨dim, step⟩ := axis
    rw [List.map_cons] at hi
    cases hi with
    | @cons x _ i _ hx hi =>
      have hblocks : ∀ xs ∈ (List.range dim).map fun j => positions axes (base + j * step),
          xs.length = (axes.map Prod.fst).prod := by
        intro xs hxs
        obtain ⟨j, -, rfl⟩ := List.mem_map.mp hxs
        exact length_positions _ _
      have hplace : place (dim :: axes.map Prod.fst) (x :: i) =
          x * (axes.map Prod.fst).prod + place (axes.map Prod.fst) i := by
        rw [place]
        split
        · next hone =>
          subst hone
          rw [Nat.lt_one_iff.mp hx, Nat.zero_mul]
        · rfl
      rw [positions, List.flatMap_def, List.map_cons, hplace,
        getElem?_flatten_of_length hblocks (place_lt hi), List.getElem?_map,
        List.getElem?_range hx, Option.map_some, Option.bind_some, ih hi, List.map_cons,
        List.zipWith_cons_cons, List.sum_cons, Nat.add_assoc]

theorem sum_steps {shape : List Nat} {i : Index} (h : i.length = shape.length) :
    (List.zipWith (· * ·) i (steps shape)).sum = place shape i := by
  induction shape generalizing i with
  | nil =>
    obtain rfl := List.length_eq_zero_iff.mp h
    rfl
  | cons d shape ih =>
    obtain ⟨x, i, rfl⟩ := List.exists_cons_of_length_eq_add_one h
    rw [steps, suffixProducts, List.zipWith_cons_cons, List.zipWith_cons_cons, List.sum_cons, place]
    congr 1
    · split
      · rfl
      · rfl
    · exact ih (Nat.succ.inj h)

end Positions

section Spreading

variable {α : Type} {t u out : Tensor α} {target : List Nat} {i : Index}

theorem attempt_except_eq_ok {β ε : Type} {x : Except ε β} {a : β} :
    (liftM x : Attempt ε β).run = .ok (.ok a) ↔ x = .ok a := by
  change Except.ok x = Except.ok (Except.ok a) ↔ _
  rw [Except.ok.injEq]

theorem spread?_inside (hi : i.length = t.shape.length) : t.spread? i = t.data[place t.shape i]? := by
  rw [spread?, rank, hi, Nat.sub_self, List.drop_zero]

theorem strides_eq_ok {shape steps : List Nat} (h : strides shape = .ok steps) :
    steps = suffixProducts shape := by
  match shape with
  | [] => cases h; rfl
  | [_] => cases h; rfl
  | d :: e :: rest =>
    rw [strides] at h
    obtain ⟨tail, htail, h⟩ := except_bind_eq_ok.mp h
    obtain ⟨first, hfirst, h⟩ := except_bind_eq_ok.mp h
    cases h
    obtain rfl := strides_eq_ok htail
    obtain ⟨-, rfl⟩ := mul_eq_ok.mp hfirst
    simp [suffixProducts, Nat.mul_comm]

theorem broadcastTo_eq_ok (hfilled : t.Filled) (h : (t.broadcastTo target).run = .ok (.ok out)) :
    out.shape = target ∧ out.Filled ∧ ∀ i : Index, i.Inside target → out.spread? i = t.spread? i := by
  rw [broadcastTo] at h
  split at h
  · next hsame =>
    cases h
    exact ⟨hsame, hfilled, fun _ _ => rfl⟩
  obtain ⟨shape, hshape, h⟩ := attempt_bind_eq_ok.mp h
  split at h
  · cases h
  next hshape' =>
  obtain rfl : shape = target := not_not.mp hshape'
  have hjoint : broadcastShape t.shape shape = .ok shape := attempt_except_eq_ok.mp hshape
  obtain ⟨hle, hwidens⟩ := broadcastShape_eq_right.mp hjoint
  obtain ⟨lengths, hlengths, h⟩ := attempt_bind_eq_ok.mp h
  obtain rfl := strides_eq_ok (attempt_lift_eq_ok.mp hlengths)
  obtain ⟨total, htotal, h⟩ := attempt_bind_eq_ok.mp h
  obtain ⟨htotal, -⟩ := product_eq_ok (attempt_lift_eq_ok.mp htotal)
  rw [Nat.one_mul] at htotal
  obtain ⟨-, -, h⟩ := attempt_bind_eq_ok.mp h
  split at h
  · next hzero =>
    cases h
    have hempty : shape.prod = 0 := htotal ▸ hzero
    refine ⟨rfl, hempty.symm, fun i hi => ?_⟩
    exact absurd (place_lt hi) (by rw [hempty]; exact Nat.not_lt_zero _)
  · obtain ⟨data, hdata, h⟩ := attempt_bind_eq_ok.mp h
    cases h
    have hread := attempt_mapM_eq_ok.mp hdata
    have haxes : List.replicate (shape.length - t.rank) 0 ++ steps t.shape =
        steps (padShape shape.length t.shape) := (steps_replicate _ _).symm
    have hfirst : (shape.zip (steps (padShape shape.length t.shape))).map Prod.fst = shape := by
      rw [List.map_fst_zip]
      rw [length_steps, length_padShape hle]
    have hsecond : (shape.zip (steps (padShape shape.length t.shape))).map Prod.snd =
        steps (padShape shape.length t.shape) := by
      rw [List.map_snd_zip]
      rw [length_steps, length_padShape hle]
    change List.Forall₂ _ (positions (shape.zip (List.replicate (shape.length - t.rank) 0 ++
      steps t.shape)) 0) data at hread
    rw [haxes] at hread
    refine ⟨rfl, ?_, fun i hi => ?_⟩
    · have hcount := hread.length_eq
      rw [length_positions, hfirst] at hcount
      exact hcount.symm
    · have hlength : i.length = shape.length := hi.length_eq
      have hposition := getElem?_positions (hfirst.symm ▸ hi) 0
      rw [hfirst, hsecond, Nat.zero_add, sum_steps (hlength.trans (length_padShape hle).symm), padShape,
        place_append] at hposition
      obtain ⟨x, hx, hget⟩ := forall₂_getElem? hread hposition
      rw [spread?_inside hlength]
      refine hx.trans ?_
      rw [spread?, hlength]
      split at hget
      · next y hy =>
        cases hget
        rw [List.getElem?_toArray] at hy
        exact hy.symm
      · cases hget

theorem spread?_broadcastZip {f : α → α → α} (ht : t.Filled) (hu : u.Filled)
    (h : (t.broadcastZip u f).run = .ok (.ok out)) :
    broadcastShape t.shape u.shape = .ok out.shape ∧ out.Filled ∧
      ∀ i : Index, i.Inside out.shape → ∃ x y, t.spread? i = some x ∧ u.spread? i = some y ∧
        out.spread? i = some (f x y) := by
  rw [broadcastZip] at h
  obtain ⟨shape, hshape, h⟩ := attempt_bind_eq_ok.mp h
  obtain ⟨lhs, hlhs, h⟩ := attempt_bind_eq_ok.mp h
  obtain ⟨rhs, hrhs, h⟩ := attempt_bind_eq_ok.mp h
  cases h
  obtain ⟨hls, hlf, hl⟩ := broadcastTo_eq_ok ht hlhs
  obtain ⟨hrs, hrf, hr⟩ := broadcastTo_eq_ok hu hrhs
  rw [Filled, size, hls] at hlf
  rw [Filled, size, hrs] at hrf
  refine ⟨attempt_except_eq_ok.mp hshape, ?_, fun i hi => ?_⟩
  · rw [Filled, size, List.length_zipWith, hlf, hrf, Nat.min_self]
  · have hlength : i.length = shape.length := hi.length_eq
    have hlt := place_lt hi
    have hleft := spread?_inside (hlength.trans (congrArg _ hls.symm))
    have hright := spread?_inside (hlength.trans (congrArg _ hrs.symm))
    rw [hls, List.getElem?_eq_getElem (hlf ▸ hlt), hl i hi] at hleft
    rw [hrs, List.getElem?_eq_getElem (hrf ▸ hlt), hr i hi] at hright
    refine ⟨_, _, hleft, hright, ?_⟩
    rw [spread?_inside hlength, List.getElem?_zipWith, List.getElem?_eq_getElem (hlf ▸ hlt),
      List.getElem?_eq_getElem (hrf ▸ hlt)]

end Spreading

section Broadcasting

variable {t u out : Tensor Rat} {target : List Nat} {i : Index}

theorem broadcastZip_eq_ok {f : Rat → Rat → Rat} (ht : t.Filled) (hu : u.Filled)
    (h : (t.broadcastZip u f).run = .ok (.ok out)) :
    broadcastShape t.shape u.shape = .ok out.shape ∧ out.Filled ∧
      ∀ i : Index, i.Inside out.shape → out.valueAt i = f (t.valueAt i) (u.valueAt i) := by
  obtain ⟨hshape, hfilled, hspread⟩ := spread?_broadcastZip ht hu h
  refine ⟨hshape, hfilled, fun i hi => ?_⟩
  obtain ⟨x, y, hx, hy, hout⟩ := hspread i hi
  rw [valueAt, valueAt, valueAt, hx, hy, hout]
  rfl

theorem valueAt_of_broadcastZip {f : Rat → Rat → Rat} (ht : t.Filled) (hu : u.Filled)
    (h : (t.broadcastZip u f).run = .ok (.ok out)) (hspread : out.SpreadsOver target)
    (hi : i.Inside target) : out.valueAt i = f (t.valueAt i) (u.valueAt i) := by
  obtain ⟨hshape, -, hvalue⟩ := broadcastZip_eq_ok ht hu h
  obtain ⟨hleft, hright⟩ := broadcastShape_of_ok hshape
  have hle : out.shape.length ≤ i.length := hi.length_eq.symm ▸ (broadcastShape_eq_right.mp hspread).1
  have hself : out.SpreadsOver out.shape := broadcastShape_self _
  rw [← valueAt_fit hself hle, hvalue _ (hi.fit_widens hspread.widens), valueAt_fit hleft hle,
    valueAt_fit hright hle]

theorem toScalar_spreadsOver (ht : t.Filled) (hspread : t.SpreadsOver target) :
    t.toScalar.SpreadsOver target ∧ ∀ i : Index, i.Inside target → t.toScalar.valueAt i = t.valueAt i := by
  rw [toScalar]
  split
  · next first rest hdata =>
    split
    · next huniform =>
      rw [Bool.and_eq_true] at huniform
      refine ⟨spreadsOver_scalar _ _, fun i hi => ?_⟩
      obtain ⟨a, ha, hmem⟩ := exists_spread? ht hspread hi
      rw [valueAt_scalar, valueAt, ha, Option.getD_some]
      exact eq_of_isUniform huniform.2 (hdata ▸ List.mem_cons_self) hmem
    · exact ⟨hspread, fun _ _ => rfl⟩
  · exact ⟨hspread, fun _ _ => rfl⟩

theorem place_of_ones {s : List Nat} (h : ∀ d ∈ s, d = 1) (i : Index) : place s i = 0 := by
  rw [List.eq_replicate_of_mem h]
  exact place_ones _ i

theorem exists_single (ht : t.Filled) (h : t.size = 1) :
    ∃ a, t.data = [a] ∧ (∀ d ∈ t.shape, d = 1) ∧ t.toScalar = scalar a ∧ ∀ i, t.valueAt i = a := by
  obtain ⟨a, ha⟩ := List.length_eq_one_iff.mp h
  have hprod : t.shape.prod = 1 := ht ▸ h
  have hones : ∀ d ∈ t.shape, d = 1 := fun d hd => Nat.dvd_one.mp (hprod ▸ List.dvd_prod hd)
  refine ⟨a, ha, hones, ?_, fun i => ?_⟩
  · obtain ⟨b, hb, hmem⟩ := toScalar_of_isUniform ht (by rw [isUniform, ha]; rfl) (by simp [ha])
    rw [ha, List.mem_singleton] at hmem
    rw [hb, hmem]
  · rw [valueAt, spread?, place_of_ones hones, ha]
    rfl

theorem single_of_broadcastZip {f : Rat → Rat → Rat} (ht : t.Filled) (hu : u.Filled)
    (h : (t.broadcastZip u f).run = .ok (.ok out)) (hone : t.size = 1) (hone' : u.size = 1) :
    ∃ v, out.toScalar = scalar v ∧ ∀ i j, v = f (t.valueAt i) (u.valueAt j) := by
  obtain ⟨hshape, hfilled, hvalue⟩ := broadcastZip_eq_ok ht hu h
  obtain ⟨a, -, hones, -, ha⟩ := exists_single ht hone
  obtain ⟨b, -, hones', -, hb⟩ := exists_single hu hone'
  have hout := ones_of_broadcastShape hones hones' hshape
  obtain ⟨v, -, -, hscalar, hv⟩ := exists_single hfilled (by rw [hfilled, List.prod_eq_one hout])
  refine ⟨v, hscalar, fun i j => ?_⟩
  have hin : Index.Inside (List.replicate out.shape.length 0) out.shape := by
    refine List.forall₂_iff_get.mpr ⟨List.length_replicate, fun i hi hi' => ?_⟩
    rw [List.get_eq_getElem, List.get_eq_getElem, List.getElem_replicate, hout _ (List.getElem_mem hi')]
    exact Nat.one_pos
  have hproduct := hvalue _ hin
  rwa [hv, ha, hb, ← ha i, ← hb j] at hproduct

end Broadcasting

end Tensor

namespace Index

theorem Inside.split {i j : Index} {s s' : List Nat} (h : Inside (i ++ j) (s ++ s'))
    (hlength : i.length = s.length) : i.Inside s ∧ j.Inside s' := by
  have hfirst := List.forall₂_take_append _ _ _ h
  have hlast := List.forall₂_drop_append _ _ _ h
  rw [← hlength, List.take_left] at hfirst
  rw [← hlength, List.drop_left] at hlast
  exact ⟨hfirst, hlast⟩

theorem fit_append {i j : Index} {s s' : List Nat} (hle : s.length ≤ i.length)
    (hlength : j.length = s'.length) : fit (i ++ j) (s ++ s') = fit i s ++ fit j s' := by
  rw [fit, fit, fit, List.length_append, List.length_append, hlength, Nat.add_sub_add_right, Nat.sub_self,
    List.drop_zero, List.drop_append_of_le_length (Nat.sub_le ..), List.zipWith_append]
  rw [List.length_drop]
  omega

theorem length_fit {i : Index} {s : List Nat} (hle : s.length ≤ i.length) :
    (i.fit s).length = s.length := by
  rw [fit, List.length_zipWith, List.length_drop]
  omega

end Index

end LowPrecision
