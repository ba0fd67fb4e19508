import LowPrecision.Proofs.Quantization.Transposition

/-!
What the tensor operations compute in machine words. Positions of elements always fit, and nothing is read
outside of the data; the products of dimensions that are formed before any element is read need not fit
where the tensor is empty, since its size of 0 bounds no other product.
-/

namespace LowPrecision

namespace Checked

def add (m n : Nat) : Checked Nat := word (m + n)

def sub (m n : Nat) : Checked Nat := if n ≤ m then .ok (m - n) else .error .overflow

end Checked

section Words

variable {m n : Nat}

theorem add_ok (h : m + n < Checked.wordSize) : Checked.add m n = .ok (m + n) := word_ok h

theorem mul_ok (h : m * n < Checked.wordSize) : Checked.mul m n = .ok (m * n) := word_ok h

theorem sub_ok (h : n ≤ m) : Checked.sub m n = .ok (m - n) := if_pos h

theorem mul_overflow (h : Checked.wordSize ≤ m * n) : Checked.mul m n = .error .overflow :=
  if_neg (Nat.not_lt.mpr h)

end Words

section Positions

def wordPositions : List (Nat × Nat) → Nat → Checked (List Nat)
  | [], base => return [base]
  | (dim, step) :: rest, base => do
    let count ← Checked.word dim
    let parts ← (List.range count).mapM fun i => do
      wordPositions rest (← Checked.add base (← Checked.mul i step))
    return parts.flatten

variable {axes : List (Nat × Nat)} {base : Nat}

theorem base_mem_positions (h : ∀ axis ∈ axes, 0 < axis.1) : base ∈ positions axes base := by
  induction axes with
  | nil => exact List.mem_singleton_self base
  | cons axis axes ih =>
    obtain ⟨dim, step⟩ := axis
    rw [List.forall_mem_cons] at h
    refine List.mem_flatMap.mpr ⟨0, List.mem_range.mpr h.1, ?_⟩
    rw [Nat.zero_mul, Nat.add_zero]
    exact ih h.2

theorem wordPositions_eq (hdims : ∀ axis ∈ axes, 0 < axis.1 ∧ axis.1 < Checked.wordSize)
    (h : ∀ p ∈ positions axes base, p < Checked.wordSize) :
    wordPositions axes base = .ok (positions axes base) := by
  induction axes generalizing base with
  | nil => rfl
  | cons axis axes ih =>
    obtain ⟨dim, step⟩ := axis
    rw [List.forall_mem_cons] at hdims
    have hpart : ∀ i ∈ List.range dim,
        (do wordPositions axes (← Checked.add base (← Checked.mul i step)) : Checked (List Nat)) =
          .ok (positions axes (base + i * step)) := by
      intro i hi
      have hrest : ∀ p ∈ positions axes (base + i * step), p < Checked.wordSize :=
        fun p hp => h p (List.mem_flatMap.mpr ⟨i, hi, hp⟩)
      have hlt := hrest _ (base_mem_positions fun axis haxis => (hdims.2 axis haxis).1)
      exact except_bind_eq_ok.mpr ⟨_, mul_ok (Nat.lt_of_le_of_lt (Nat.le_add_left ..) hlt),
        except_bind_eq_ok.mpr ⟨_, add_ok hlt, ih hdims.2 hrest⟩⟩
    have hparts := (except_mapM_congr hpart).trans List.mapM_pure
    refine except_bind_eq_ok.mpr ⟨dim, word_ok hdims.1.2, except_bind_eq_ok.mpr ⟨_, hparts, ?_⟩⟩
    rw [positions, List.flatMap_def]
    rfl

end Positions

section Strides

variable {shape : List Nat}

def StridesOverflow (shape : List Nat) : Prop := ∃ n ∈ suffixProducts shape, Checked.wordSize ≤ n

instance (shape : List Nat) : Decidable (StridesOverflow shape) := inferInstanceAs (Decidable (∃ _ ∈ _, _))

theorem strides_of_fits (h : ¬ StridesOverflow shape) : strides shape = .ok (suffixProducts shape) :=
  strides_ok fun n hn => Nat.lt_of_not_le fun hle => h ⟨n, hn, hle⟩

theorem strides_of_overflow (h : StridesOverflow shape) : strides shape = .error .overflow := by
  induction shape with
  | nil => simp [StridesOverflow, suffixProducts] at h
  | cons d rest ih =>
    cases rest with
    | nil => simp [StridesOverflow, suffixProducts, Checked.wordSize] at h
    | cons e rest =>
      rw [strides]
      by_cases hrest : StridesOverflow (e :: rest)
      · rw [ih hrest]
        rfl
      · obtain ⟨n, hn, hle⟩ := h
        rcases List.mem_cons.mp hn with rfl | hn
        · rw [strides_of_fits hrest]
          change (Checked.mul rest.prod e >>= fun n => pure (n :: suffixProducts (e :: rest))) = _
          rw [mul_overflow (by rwa [Nat.mul_comm, ← List.prod_cons])]
          rfl
        · exact absurd ⟨n, hn, hle⟩ hrest

end Strides

namespace Tensor

variable {α : Type} {t u : Tensor α} {s : List Nat}

theorem Valid.size_lt (h : t.Valid) : t.size < Checked.wordSize := product_lt_wordSize (valid_iff.mp h)

section Transposition

def cellPosition (start cols r c : Nat) : Checked Nat := do
  Checked.add (← Checked.add start (← Checked.mul r cols)) c

/-- `transposeLastTwo` with all of its arithmetic in words. -/
def transposeInWords (t : Tensor α) : Checked (Tensor α) :=
  match t.shape.reverse with
  | cols :: rows :: outer => do
    let plane ← Checked.mul rows cols
    let data ← (List.range (t.size / max plane 1)).mapM fun batch => do
      let start ← Checked.mul (← Checked.mul batch rows) cols
      (List.range cols).mapM fun c =>
        (List.range rows).mapM fun r => do
          Checked.get t.data (← cellPosition start cols r c)
    return ⟨(rows :: cols :: outer).reverse, data.flatten.flatten⟩
  | _ => return t

theorem cellPosition_eq {start cols r c : Nat} (h : start + r * cols + c < Checked.wordSize) :
    cellPosition start cols r c = .ok (start + r * cols + c) :=
  except_bind_eq_ok.mpr ⟨_, mul_ok (by omega), except_bind_eq_ok.mpr ⟨_, add_ok (by omega), add_ok h⟩⟩

theorem Filled.plane_pos {outer : List Nat} {rows cols batch : Nat} (hfilled : t.Filled)
    (hshape : t.shape = outer ++ [rows, cols]) (hbatch : batch < t.size / max (rows * cols) 1) :
    0 < rows ∧ 0 < cols := by
  have hplane : rows * cols ≠ 0 := fun hzero => by
    rw [hfilled.size_planes hshape, hzero, Nat.mul_zero, Nat.zero_div] at hbatch
    exact Nat.not_lt_zero _ hbatch
  exact ⟨Nat.pos_of_ne_zero (left_ne_zero_of_mul hplane), Nat.pos_of_ne_zero (right_ne_zero_of_mul hplane)⟩

theorem transposeInWords_eq (ht : t.Valid) : t.transposeInWords = t.transposeLastTwo := by
  rw [transposeInWords, transposeLastTwo]
  rcases hreverse : t.shape.reverse with - | ⟨cols, - | ⟨rows, outer⟩⟩
  · rfl
  · rfl
  have hshape : t.shape = outer.reverse ++ [rows, cols] := by simpa using congrArg List.reverse hreverse
  dsimp only
  cases hplane : Checked.mul rows cols with
  | error e => rfl
  | ok plane =>
    obtain ⟨-, rfl⟩ := mul_eq_ok.mp hplane
    have hplanes : ((List.range (t.size / max (rows * cols) 1)).mapM fun batch => (do
          let start ← Checked.mul (← Checked.mul batch rows) cols
          (List.range cols).mapM fun c => (List.range rows).mapM fun r => do
            Checked.get t.data (← cellPosition start cols r c) : Checked (List (List α)))) =
        (List.range (t.size / max (rows * cols) 1)).mapM fun batch => (List.range cols).mapM fun c =>
          (List.range rows).mapM fun r => Checked.get t.data (batch * (rows * cols) + r * cols + c) := by
      refine except_mapM_congr fun batch hbatch => ?_
      rw [List.mem_range] at hbatch
      obtain ⟨hrows, hcols⟩ := ht.filled.plane_pos hshape hbatch
      have hstart : batch * rows * cols < Checked.wordSize := by
        have hlt := (transposed_lt hbatch hrows hcols).trans ht.size_lt
        rwa [Nat.zero_mul, Nat.add_zero, ← Nat.mul_assoc] at hlt
      have hbatches : batch * rows < Checked.wordSize := (Nat.le_mul_of_pos_right _ hcols).trans_lt hstart
      rw [mul_ok hbatches, except_ok_bind, mul_ok hstart, except_ok_bind, Nat.mul_assoc]
      refine except_mapM_congr fun c hc => except_mapM_congr fun r hr => ?_
      rw [List.mem_range] at hc hr
      rw [cellPosition_eq ((transposed_lt hbatch hr hc).trans ht.size_lt), except_ok_bind]
    rw [except_ok_bind, except_ok_bind, hplanes]

def PlanesOverflow (shape : List Nat) : Prop :=
  ∃ outer rows cols, shape = outer ++ [rows, cols] ∧ Checked.wordSize ≤ rows * cols

theorem planesOverflow_iff {shape outer : List Nat} {rows cols : Nat} (hshape : shape = outer ++ [rows, cols]) :
    PlanesOverflow shape ↔ Checked.wordSize ≤ rows * cols := by
  refine ⟨?_, fun h => ⟨outer, rows, cols, hshape, h⟩⟩
  rintro ⟨outer', rows', cols', hshape', h⟩
  obtain ⟨-, hlast⟩ := List.append_inj' (hshape.symm.trans hshape') rfl
  obtain ⟨rfl, rfl⟩ : rows = rows' ∧ cols = cols' := by simpa using hlast
  exact h

theorem transposeLastTwo_fault_iff {e : Fault} :
    t.transposeLastTwo = .error e ↔ e = .overflow ∧ PlanesOverflow t.shape := by
  by_cases hrank : t.rank < 2
  · rw [transposeLastTwo_of_rank hrank]
    refine ⟨fun h => (by cases h), ?_⟩
    rintro ⟨-, outer, rows, cols, hshape, -⟩
    rw [rank, hshape] at hrank
    simp at hrank
  · obtain ⟨outer, rows, cols, hshape⟩ := exists_plane (Nat.le_of_not_lt hrank)
    rw [planesOverflow_iff hshape]
    by_cases hfits : rows * cols < Checked.wordSize
    · obtain ⟨t', ht'⟩ := exists_transposeLastTwo hshape hfits
      rw [ht']
      exact ⟨fun h => (by cases h), fun h => absurd h.2 (Nat.not_le.mpr hfits)⟩
    · have hreverse : t.shape.reverse = cols :: rows :: outer.reverse := by simp [hshape]
      rw [transposeLastTwo, hreverse]
      dsimp only
      rw [mul_overflow (Nat.le_of_not_lt hfits)]
      change Except.error Fault.overflow = _ ↔ _
      rw [Except.error.injEq, eq_comm, and_iff_left (Nat.le_of_not_lt hfits)]

end Transposition

section Broadcasting

def broadcastToInWords (t : Tensor α) (target : List Nat) : Attempt TensorError (Tensor α) := do
  if t.shape = target then return t
  let shape ← broadcastShape t.shape target
  if shape ≠ target then throw (.notBroadcastable t.shape target)
  let missing ← Checked.sub target.length t.rank
  let strides ← strides t.shape
  let total ← Checked.product target
  Checked.reserve total elementWidth
  if total = 0 then return ⟨target, []⟩
  let steps := List.zipWith (fun dim stride => if dim = 1 then 0 else stride) t.shape strides
  let places ← wordPositions (target.zip (List.replicate missing 0 ++ steps)) 0
  let cells := t.data.toArray
  let data ← places.mapM fun i =>
    match cells[i]? with
    | some x => pure x
    | none => throwThe Fault .outOfRange
  return ⟨target, data⟩

theorem dims_of_pos {total : Nat} (htotal : Checked.product s = .ok total) (hpos : total ≠ 0) :
    ∀ d ∈ s, 0 < d ∧ d < Checked.wordSize := by
  obtain ⟨hprod, -⟩ := product_eq_ok htotal
  rw [Nat.one_mul] at hprod
  have hprodpos : 0 < s.prod := Nat.pos_of_ne_zero (hprod ▸ hpos)
  exact fun d hd => ⟨pos_of_mem_of_prod_pos hprodpos hd,
    (Nat.le_of_dvd hprodpos (List.dvd_prod hd)).trans_lt (hprod ▸ product_lt_wordSize htotal)⟩

theorem wordPositions_of_stretches (ht : t.Valid) (hshape : broadcastShape t.shape s = .ok s) {total : Nat}
    (htotal : Checked.product s = .ok total) (hpos : total ≠ 0) :
    wordPositions (s.zip (List.replicate (s.length - t.rank) 0 ++ steps t.shape)) 0 =
      .ok (positions (s.zip (List.replicate (s.length - t.rank) 0 ++ steps t.shape)) 0) :=
  wordPositions_eq (fun axis haxis => dims_of_pos htotal hpos axis.1 (List.of_mem_zip haxis).1)
    fun _ hi => (lt_size_of_position ht.filled hshape hi).trans ht.size_lt

theorem broadcastToInWords_eq (ht : t.Valid) {total : Nat} (htotal : Checked.product s = .ok total) :
    t.broadcastToInWords s = t.broadcastTo s := by
  rw [broadcastToInWords, broadcastTo]
  by_cases hsame : t.shape = s
  · rw [if_pos hsame, if_pos hsame]
  rw [if_neg hsame, if_neg hsame]
  cases hshape : broadcastShape t.shape s with
  | error e => rfl
  | ok joint =>
    rw [attempt_answer_bind, attempt_answer_bind]
    by_cases hjoint : joint = s
    · subst hjoint
      rw [if_neg (fun h => h rfl), if_neg (fun h => h rfl), rank, sub_ok (stretchesTo_iff.mpr hshape).1,
        attempt_checked_bind]
      by_cases hover : StridesOverflow t.shape
      · rw [strides_of_overflow hover]
        rfl
      rw [strides_of_fits hover, htotal]
      simp only [attempt_checked_bind]
      refine bind_congr fun _ => ?_
      by_cases hzero : total = 0
      · rw [if_pos hzero, if_pos hzero]
      · rw [if_neg hzero, if_neg hzero]
        have hplaces := wordPositions_of_stretches ht hshape htotal hzero
        rw [rank, steps] at hplaces
        rw [hplaces]
        rfl
    · rw [if_pos hjoint, if_pos hjoint]
      rfl

def broadcastZipInWords (t u : Tensor α) (f : α → α → α) : Attempt TensorError (Tensor α) := do
  let shape ← broadcastShape t.shape u.shape
  let lhs ← t.broadcastToInWords shape
  let rhs ← u.broadcastToInWords shape
  return ⟨shape, List.zipWith f lhs.data rhs.data⟩

def JointFits (t u : Tensor α) : Prop :=
  ∀ joint, broadcastShape t.shape u.shape = .ok joint → ∃ n, Checked.product joint = .ok n

theorem broadcastZipInWords_eq (f : α → α → α) (ht : t.Valid) (hu : u.Valid) (hjoint : t.JointFits u) :
    t.broadcastZipInWords u f = t.broadcastZip u f := by
  rw [broadcastZipInWords, broadcastZip]
  cases hshape : broadcastShape t.shape u.shape with
  | error e => rfl
  | ok joint =>
    obtain ⟨total, htotal⟩ := hjoint joint hshape
    rw [attempt_answer_bind, attempt_answer_bind, broadcastToInWords_eq ht htotal, broadcastToInWords_eq hu htotal]

instance (shape target : List Nat) : Decidable (StretchesTo shape target) :=
  decidable_of_iff _ stretchesTo_iff.symm

def spreadFault? (shape target : List Nat) : Option Fault :=
  if shape = target ∨ ¬ StretchesTo shape target then none
  else if StridesOverflow shape then some .overflow
  else if Checked.wordSize / 2 ≤ target.prod * elementWidth then some .capacity
  else none

theorem spreadFault?_ne_outOfRange (shape target : List Nat) : spreadFault? shape target ≠ some .outOfRange := by
  rw [spreadFault?]
  split_ifs <;> simp

theorem broadcastTo_of_spreadFault {total : Nat} {e : Fault} (htotal : Checked.product s = .ok total)
    (h : spreadFault? t.shape s = some e) : (t.broadcastTo s).run = .error e := by
  have hprod := (product_eq_ok htotal).1
  rw [spreadFault?] at h
  split at h
  · cases h
  · next hspread =>
    obtain ⟨hne, hstretches⟩ := not_or.mp hspread
    have hshape := stretchesTo_iff.mp (not_not.mp hstretches)
    rw [broadcastTo, if_neg hne, hshape, attempt_answer_bind, if_neg fun hdiffers => hdiffers rfl]
    split at h
    · next hover =>
      cases h
      exact attempt_bind_fault (attempt_lift_fault (strides_of_overflow hover)) _
    · next hover =>
      rw [strides_of_fits hover, htotal, attempt_checked_bind, attempt_checked_bind]
      split at h
      · next hlarge =>
        cases h
        rw [← Nat.one_mul s.prod, ← hprod] at hlarge
        exact attempt_bind_fault (attempt_lift_fault (if_neg (Nat.not_lt.mpr hlarge))) _
      · cases h

theorem broadcastTo_of_no_spreadFault (ht : t.Valid) {total : Nat} (htotal : Checked.product s = .ok total)
    (hstretches : StretchesTo t.shape s) (h : spreadFault? t.shape s = none) :
    ∃ out, (t.broadcastTo s).run = .ok (.ok out) := by
  by_cases hsame : t.shape = s
  · refine ⟨t, ?_⟩
    rw [broadcastTo, if_pos hsame]
    rfl
  have hprod := (product_eq_ok htotal).1
  rw [Nat.one_mul] at hprod
  rw [spreadFault?, if_neg (not_or.mpr ⟨hsame, not_not.mpr hstretches⟩)] at h
  split at h
  · cases h
  · next hover =>
    split at h
    · cases h
    · next hlarge =>
      obtain ⟨out, hout, -⟩ := broadcastTo_ok (strides_of_fits hover) ht.filled (stretchesTo_iff.mp hstretches)
        htotal (if_pos (hprod ▸ Nat.lt_of_not_le hlarge))
      exact ⟨out, hout⟩

theorem broadcastTo_fault_iff (ht : t.Valid) {total : Nat} (htotal : Checked.product s = .ok total) {e : Fault} :
    (t.broadcastTo s).run = .error e ↔ spreadFault? t.shape s = some e := by
  refine ⟨fun h => ?_, broadcastTo_of_spreadFault htotal⟩
  cases hfault : spreadFault? t.shape s with
  | some e' =>
    cases (broadcastTo_of_spreadFault htotal hfault).symm.trans h
    rfl
  | none =>
    by_cases hstretches : StretchesTo t.shape s
    · obtain ⟨out, hout⟩ := broadcastTo_of_no_spreadFault ht htotal hstretches hfault
      cases hout.symm.trans h
    · obtain ⟨err, herr⟩ := broadcastTo_of_not_stretchesTo hstretches
      cases herr.symm.trans h

theorem broadcastZip_fault_iff (f : α → α → α) (ht : t.Valid) (hu : u.Valid) (hjoint : t.JointFits u)
    {e : Fault} : (t.broadcastZip u f).run = .error e ↔ ∃ joint, broadcastShape t.shape u.shape = .ok joint ∧
      (spreadFault? t.shape joint).or (spreadFault? u.shape joint) = some e := by
  cases hshape : broadcastShape t.shape u.shape with
  | error err =>
    rw [broadcastZip, hshape]
    refine ⟨fun h => (by cases h), ?_⟩
    rintro ⟨joint, h, -⟩
    cases h
  | ok joint =>
    obtain ⟨total, htotal⟩ := hjoint joint hshape
    obtain ⟨hleft, hright⟩ := broadcastShape_of_ok hshape
    rw [broadcastZip, hshape, attempt_answer_bind]
    simp only [Except.ok.injEq, exists_eq_left']
    cases hlhs : spreadFault? t.shape joint with
    | some e' =>
      rw [attempt_bind_fault (broadcastTo_of_spreadFault htotal hlhs), Option.some_or, Except.error.injEq,
        Option.some.injEq]
    | none =>
      obtain ⟨lhs, hrun⟩ := broadcastTo_of_no_spreadFault ht htotal (stretchesTo_iff.mpr hleft) hlhs
      rw [attempt_bind_ok hrun, Option.none_or]
      cases hrhs : spreadFault? u.shape joint with
      | some e' =>
        rw [attempt_bind_fault (broadcastTo_of_spreadFault htotal hrhs), Except.error.injEq, Option.some.injEq]
      | none =>
        obtain ⟨rhs, hrun⟩ := broadcastTo_of_no_spreadFault hu htotal (stretchesTo_iff.mpr hright) hrhs
        rw [attempt_bind_ok hrun]
        exact ⟨fun h => (by cases h), fun h => (by cases h)⟩

end Broadcasting

section Faults

theorem not_planesOverflow (ht : t.Valid) (hpos : 0 < t.size) : ¬ PlanesOverflow t.shape := by
  rintro ⟨outer, rows, cols, hshape, hlarge⟩
  have hsize := ht.filled.size_planes hshape
  have houter : 0 < outer.prod := Nat.pos_of_mul_pos_right (hsize ▸ hpos)
  exact absurd ht.size_lt (Nat.not_lt.mpr (hlarge.trans (hsize ▸ Nat.le_mul_of_pos_left _ houter)))

theorem not_stridesOverflow (ht : t.Valid) (hpos : 0 < t.size) : ¬ StridesOverflow t.shape := by
  rintro ⟨n, hn, hlarge⟩
  rw [ht.filled] at hpos
  have hle := le_prod_of_mem_suffixProducts (fun d => pos_of_mem_of_prod_pos hpos) hn
  exact absurd ht.size_lt (Nat.not_lt.mpr (hlarge.trans (ht.filled ▸ hle)))

/-- In words the operations do what they do otherwise, and they read no element which is not there. All
that stops them are products of dimensions which are formed ahead of the elements, where the tensor has
none of these, and a target that is larger than the address space. -/
theorem operations_fault_iff (f : α → α → α) (ht : t.Valid) (hu : u.Valid)
    (hs : ∃ total, Checked.product s = .ok total) (hjoint : t.JointFits u) :
    (t.transposeInWords = t.transposeLastTwo ∧ t.broadcastToInWords s = t.broadcastTo s ∧
      t.broadcastZipInWords u f = t.broadcastZip u f) ∧
    (∀ e, t.transposeLastTwo = .error e ↔ e = .overflow ∧ PlanesOverflow t.shape) ∧
    (∀ e, (t.broadcastTo s).run = .error e ↔ spreadFault? t.shape s = some e) ∧
    (∀ e, (t.broadcastZip u f).run = .error e ↔ ∃ joint, broadcastShape t.shape u.shape = .ok joint ∧
      (spreadFault? t.shape joint).or (spreadFault? u.shape joint) = some e) ∧
    (∀ shape target, spreadFault? shape target ≠ some .outOfRange) ∧
    (0 < t.size → ¬ PlanesOverflow t.shape ∧ ¬ StridesOverflow t.shape) ∧
    (0 < u.size → ¬ StridesOverflow u.shape) := by
  obtain ⟨total, htotal⟩ := hs
  refine ⟨⟨transposeInWords_eq ht, broadcastToInWords_eq ht htotal, broadcastZipInWords_eq f ht hu hjoint⟩,
    fun _ => transposeLastTwo_fault_iff, fun _ => broadcastTo_fault_iff ht htotal,
    fun _ => broadcastZip_fault_iff f ht hu hjoint, spreadFault?_ne_outOfRange, fun hpos => ?_,
    not_stridesOverflow hu⟩
  exact ⟨not_planesOverflow ht hpos, not_stridesOverflow ht hpos⟩

def hollowStack : Tensor Rat := ⟨[2 ^ 32, 0, 2 ^ 32], []⟩

theorem operations_fault_iff_of_hollowStack :
    hollowStack.Valid ∧ (scalar (7 : Rat)).Valid ∧ (∃ total, Checked.product [1, 2 ^ 32, 0, 2 ^ 32] = .ok total) ∧
      hollowStack.JointFits (scalar 7) ∧ (∀ e, hollowStack.transposeLastTwo ≠ .error e) ∧
      (∀ e, (hollowStack.broadcastTo [1, 2 ^ 32, 0, 2 ^ 32]).run ≠ .error e) ∧
      ∀ e, (hollowStack.broadcastZip (scalar 7) (· * ·)).run ≠ .error e := by
  have ht : hollowStack.Valid := by decide +kernel
  have hu : (scalar (7 : Rat)).Valid := by decide +kernel
  have hs : ∃ total, Checked.product [1, 2 ^ 32, 0, 2 ^ 32] = .ok total := ⟨0, by decide +kernel⟩
  have hshape : broadcastShape hollowStack.shape (scalar (7 : Rat)).shape = .ok hollowStack.shape := by
    decide +kernel
  have hjoint : hollowStack.JointFits (scalar 7) := fun joint h => by
    cases hshape.symm.trans h
    exact ⟨0, by decide +kernel⟩
  obtain ⟨-, htranspose, hspread, hzip, -⟩ := operations_fault_iff (· * ·) ht hu hs hjoint
  refine ⟨ht, hu, hs, hjoint, fun e h => ?_, fun e h => ?_, fun e h => ?_⟩
  · have hplane : hollowStack.shape = [2 ^ 32] ++ [0, 2 ^ 32] := rfl
    exact absurd ((planesOverflow_iff hplane).mp ((htranspose e).mp h).2) (by decide +kernel)
  · have hnone : spreadFault? hollowStack.shape [1, 2 ^ 32, 0, 2 ^ 32] = none := by decide +kernel
    cases hnone.symm.trans ((hspread e).mp h)
  · obtain ⟨joint, hsame, hfault⟩ := (hzip e).mp h
    cases hshape.symm.trans hsame
    have hnone : (spreadFault? hollowStack.shape hollowStack.shape).or
        (spreadFault? (scalar (7 : Rat)).shape hollowStack.shape) = none := by decide +kernel
    cases hnone.symm.trans hfault

def emptyStack : Tensor Rat := ⟨[0, 2 ^ 32, 2 ^ 32], []⟩

theorem emptyStack_overflows : emptyStack.Valid ∧ (⟨[1, 1, 1, 1], [7]⟩ : Tensor Rat).Valid ∧
    Checked.product [1, 0, 2 ^ 32, 2 ^ 32] = .ok 0 ∧
    broadcastShape emptyStack.shape [1, 1, 1, 1] = .ok [1, 0, 2 ^ 32, 2 ^ 32] ∧
    emptyStack.transposeLastTwo = .error .overflow ∧
    (emptyStack.broadcastTo [1, 0, 2 ^ 32, 2 ^ 32]).run = .error .overflow ∧
    (emptyStack.broadcastZip ⟨[1, 1, 1, 1], [7]⟩ (· * ·)).run = .error .overflow := by decide +kernel

end Faults

end Tensor

end LowPrecision
