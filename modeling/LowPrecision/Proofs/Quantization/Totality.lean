import LowPrecision.Proofs.Quantization.Channels

namespace LowPrecision

variable {α : Type}

theorem clamp_ok [Arithmetic α] {low high : α} (h : low ≤ high) (x : α) :
    ∃ v, Arithmetic.clamp x low high = .ok v := by
  rw [Arithmetic.clamp, if_pos h]
  exact ⟨_, rfl⟩

theorem ofWideInterval_ok [Arithmetic α] {qLow qHigh : α} (h : qLow ≤ qHigh) (low high : α) :
    ∃ p, ScaleZeroPoint.ofWideInterval low high qLow qHigh = .ok p := by
  unfold ScaleZeroPoint.ofWideInterval
  generalize (high - low) / (qHigh - qLow) = length
  dsimp only
  generalize (if (Arithmetic.equal length Arithmetic.zero || !Arithmetic.isFinite length) = true
    then Arithmetic.one else length) = scale
  obtain ⟨zeroPoint, hzero⟩ := clamp_ok h (Arithmetic.round (qLow - low / scale))
  rw [hzero]
  exact ⟨_, rfl⟩

theorem fakeQuantize_ok [Arithmetic α] {levels : Nat} (hlevels : isSupportedLevels levels = true)
    (value inputLow inputHigh outputLow outputHigh : α) :
    ∃ v, fakeQuantize value inputLow inputHigh outputLow outputHigh levels = .ok v := by
  have hsteps : ∃ n, Checked.pred levels = .ok n := by
    simp only [isSupportedLevels, Bool.or_eq_true, beq_iff_eq] at hlevels
    rcases hlevels with rfl | rfl <;> exact ⟨_, rfl⟩
  obtain ⟨n, hn⟩ := hsteps
  rw [fakeQuantize, hn]
  dsimp only [bind, Except.bind]
  split
  · exact ⟨_, rfl⟩
  · split <;> exact ⟨_, rfl⟩

theorem layOut_ok {shape : List Nat} {values : List α}
    (h : Checked.product shape = .ok values.length) :
    ∃ t : Tensor α, (layOut shape values).run = .ok (.ok t) := by
  match values, h with
  | [], h => exact ⟨_, Tensor.make_eq_ok.mpr ⟨h, rfl⟩⟩
  | [value], _ => exact ⟨_, rfl⟩
  | _ :: _ :: _, h => exact ⟨_, Tensor.make_eq_ok.mpr ⟨h, rfl⟩⟩

theorem channelValues_ok {t : Tensor α} {count : Nat} (hsize : t.size = 1 ∨ t.size = count)
    (hreserve : Checked.reserve count Tensor.elementWidth = .ok ()) :
    ∃ values, t.channelValues count = .ok (some values) ∧ values.length = count := by
  rw [Tensor.channelValues]
  split
  · next value hdata =>
    refine ⟨List.replicate count value, ?_, List.length_replicate⟩
    rw [Checked.replicate, hreserve]
    rfl
  · next hdata =>
    have hlength : t.data.length = count := by
      refine hsize.resolve_left fun hone => ?_
      obtain ⟨value, hvalue⟩ := List.length_eq_one_iff.mp hone
      exact hdata value hvalue
    exact ⟨t.data, by rw [if_pos hlength]; rfl, hlength⟩

section Grids

variable [Scalar α]

def OrderedGrids (α : Type) [Scalar α] : Prop :=
  ∀ type levels (low high : α), Grid.bounds type levels = .ok (low, high) →
    low ≤ high ∧ (Scalar.widen low : Scalar.Wide α) ≤ Scalar.widen high

theorem orderedGrids_binary : OrderedGrids Binary32 := by
  intro type levels low high h
  unfold Grid.bounds at h
  split at h <;> cases h <;> decide +kernel

theorem orderedGrids_rat : OrderedGrids Rat := by
  intro type levels low high h
  unfold Grid.bounds at h
  split at h <;> cases h <;> decide +kernel

theorem bounds_ok {type : ElementType} {levels : Nat} (htype : type = .u8 ∨ type = .i8)
    (hlevels : isSupportedLevels levels = true) :
    ∃ low high, Grid.bounds (α := α) type levels = .ok (low, high) := by
  simp only [isSupportedLevels, Bool.or_eq_true, beq_iff_eq] at hlevels
  rcases htype with rfl | rfl <;> rcases hlevels with rfl | rfl <;> exact ⟨_, _, rfl⟩

theorem choose_mem {lows : List α} {allowed : PrecisionSet} {type : ElementType}
    (h : Grid.choose lows allowed = some type) : type ∈ allowed := by
  rw [Grid.choose] at h
  generalize (if (lows.all (Arithmetic.zero ≤ ·)) = true then ElementType.u8 else .i8) = preferred at h
  split at h
  · next hmem => exact Option.some.inj h ▸ hmem
  · exact List.mem_of_head? h

theorem precision_of_select {lows highs : List α} {levels : Nat} {allowed : PrecisionSet}
    {grid : Grid α} (h : (Grid.select lows highs levels allowed).run = .ok (.ok (some grid))) :
    grid.precision ∈ allowed :=
  choose_mem (select_run h).1

theorem ofInterval_ok {qLow qHigh : α}
    (h : (Scalar.widen qLow : Scalar.Wide α) ≤ Scalar.widen qHigh) (low high : α) :
    ∃ p, ScaleZeroPoint.ofInterval low high qLow qHigh = .ok p := by
  obtain ⟨p, hp⟩ := ofWideInterval_ok h (Scalar.widen low) (Scalar.widen high)
  rw [ScaleZeroPoint.ofInterval, hp]
  exact ⟨_, rfl⟩

theorem select_ok (hordered : OrderedGrids α) {levels : Nat} {allowed : PrecisionSet}
    (hlevels : isSupportedLevels levels = true)
    (hallowed : ∀ type ∈ allowed, type = .u8 ∨ type = .i8) (lows highs : List α) :
    ∃ found, (Grid.select lows highs levels allowed).run = .ok (.ok found) := by
  rw [Grid.select]
  cases hchoose : Grid.choose lows allowed with
  | none => exact ⟨none, rfl⟩
  | some type =>
    obtain ⟨low, high, hbounds⟩ := bounds_ok (α := α) (hallowed type (choose_mem hchoose)) hlevels
    obtain ⟨-, hwide⟩ := hordered type levels low high hbounds
    dsimp only
    rw [hbounds]
    refine attempt_bind_exists (P := (· = (low, high))) ⟨_, rfl, rfl⟩ fun found hfound => ?_
    subst hfound
    refine attempt_bind_exists (P := fun _ => True) ?_ fun zero _ => ⟨_, rfl⟩
    refine (anyM_ok fun x _ => ?_).imp fun zero hzero => ⟨hzero, trivial⟩
    obtain ⟨p, hp⟩ := ofInterval_ok hwide x.1 x.2
    exact ⟨_, attempt_bind_eq_ok.mpr ⟨p, attempt_lift_eq_ok.mpr hp, rfl⟩⟩

variable {grid : Grid α}

theorem channelParams_ok (h : (Scalar.widen grid.low : Scalar.Wide α) ≤ Scalar.widen grid.high)
    (lows highs : List α) : ∃ params, channelParams grid lows highs = .ok params := by
  simp only [channelParams, except_mapM_eq_ok]
  exact exists_forall₂ fun x _ => ofInterval_ok h x.1 x.2

theorem quantizeBound_ok (h : grid.low ≤ grid.high) (p : ScaleZeroPoint α) (value : α) :
    ∃ v, quantizeBound grid p value = .ok v :=
  clamp_ok h _

theorem quantizeBounds_ok (h : grid.low ≤ grid.high) (params : List (ScaleZeroPoint α))
    (values : List α) : ∃ quantized, quantizeBounds grid params values = .ok quantized := by
  simp only [quantizeBounds, except_mapM_eq_ok]
  exact exists_forall₂ fun x _ => quantizeBound_ok h x.2 x.1

end Grids

namespace Decomposition

variable [Scalar α] {shape : List Nat} {params : List (ScaleZeroPoint α)}

theorem affineParams_ok (h : Checked.product shape = .ok params.length) :
    ∃ affine, (affineParams shape params).run = .ok (.ok affine) := by
  have hlength : ∀ f : ScaleZeroPoint α → α,
      Checked.product shape = .ok (params.map f).length := by
    intro f
    rwa [List.length_map]
  obtain ⟨scale, hscale⟩ := layOut_ok (hlength (·.scale))
  obtain ⟨zero, hzero⟩ := layOut_ok (hlength (·.zeroPoint))
  by_cases hany : (params.any fun p => !Arithmetic.equal p.zeroPoint Arithmetic.zero) = true
  · refine ⟨⟨scale.toScalar, some zero.toScalar⟩, ?_⟩
    refine attempt_bind_eq_ok.mpr ⟨scale, hscale, ?_⟩
    dsimp only
    rw [if_pos hany]
    exact attempt_bind_eq_ok.mpr ⟨_, attempt_map_eq_ok.mpr ⟨zero, hzero, rfl⟩, rfl⟩
  · refine ⟨⟨scale.toScalar, none⟩, ?_⟩
    refine attempt_bind_eq_ok.mpr ⟨scale, hscale, ?_⟩
    dsimp only
    rw [if_neg hany]
    rfl

theorem channelOf_lt {channels size i : Nat} (hdvd : channels ∣ size) (hi : i < size) :
    channelOf channels size i < channels := by
  obtain ⟨count, rfl⟩ := hdvd
  have hpos : 0 < channels := Nat.pos_of_mul_pos_right (Nat.zero_lt_of_lt hi)
  have hcount : 0 < count := Nat.pos_of_mul_pos_left (Nat.zero_lt_of_lt hi)
  rw [channelOf]
  split
  · next hone => exact hone ▸ Nat.one_pos
  · rw [show max channels 1 = channels from Nat.max_eq_left hpos, Nat.mul_div_cancel_left count hpos,
      Nat.max_eq_left hcount]
    exact Nat.div_lt_of_lt_mul (Nat.mul_comm channels count ▸ hi)

theorem foldWeight_ok {grid : Grid α} (hgrid : grid.low ≤ grid.high) {levels : Nat}
    (hlevels : isSupportedLevels levels = true) (c : WeightChannel α) (weight : α) :
    ∃ v, foldWeight grid levels c weight = .ok v := by
  obtain ⟨low, hlow⟩ := quantizeBound_ok hgrid c.params c.outputLow
  obtain ⟨high, hhigh⟩ := quantizeBound_ok hgrid c.params c.outputHigh
  obtain ⟨v, hv⟩ := fakeQuantize_ok hlevels weight c.inputLow c.inputHigh low high
  refine ⟨Arithmetic.round v, ?_⟩
  rw [foldWeight, hlow, hhigh]
  exact congrArg (Arithmetic.round <$> ·) hv

theorem foldWeights_ok {grid : Grid α} (hgrid : grid.low ≤ grid.high) {r : Ranges α}
    (hlevels : isSupportedLevels r.levels = true) {lows highs : List α}
    (hlows : lows.length = params.length) (hhighs : highs.length = params.length)
    (hlow : r.inputLow.size = 1 ∨ r.inputLow.size = params.length)
    (hhigh : r.inputHigh.size = 1 ∨ r.inputHigh.size = params.length)
    (hreserve : Checked.reserve params.length Tensor.elementWidth = .ok ()) {weights : Tensor α}
    (hshape : Checked.product weights.shape = .ok weights.size)
    (hdvd : params.length ∣ weights.size) (name : String) :
    ∃ folded, (foldWeights name r grid lows highs params weights).run = .ok (.ok folded) := by
  obtain ⟨inLows, hinLows, hinLength⟩ := channelValues_ok hlow hreserve
  obtain ⟨inHighs, hinHighs, hinLength'⟩ := channelValues_ok hhigh hreserve
  rw [foldWeights]
  refine attempt_bind_exists ⟨_, attempt_lift_eq_ok.mpr hinLows, rfl⟩ ?_
  rintro _ rfl
  refine attempt_bind_exists ⟨_, attempt_lift_eq_ok.mpr hinHighs, rfl⟩ ?_
  rintro _ rfl
  refine attempt_bind_exists (exists_attempt_mapM fun x hx => ?_) fun values hvalues => ?_
  · have hc : channelOf params.length weights.size x.2 < params.length :=
      channelOf_lt hdvd (List.mem_zipIdx' hx).1
    dsimp only
    generalize channelOf params.length weights.size x.2 = c at hc
    have hget : ∀ {β : Type} {ys : List β}, ys.length = params.length → ∃ y, ys[c]? = some y :=
      fun hys => ⟨_, List.getElem?_eq_getElem (hys ▸ hc)⟩
    obtain ⟨low, hlow⟩ := hget hlows
    obtain ⟨high, hhigh⟩ := hget hhighs
    obtain ⟨q, hq⟩ : ∃ q, params[c]? = some q := hget rfl
    obtain ⟨inLow, hinLow⟩ := hget hinLength
    obtain ⟨inHigh, hinHigh⟩ := hget hinLength'
    rw [hlow, hhigh, hq, hinLow, hinHigh]
    obtain ⟨v, hv⟩ := foldWeight_ok hgrid hlevels ⟨inLow, inHigh, low, high, q⟩ x.1
    exact ⟨v, attempt_lift_eq_ok.mpr hv⟩
  · refine ⟨_, attempt_adapt_eq_ok.mpr (Tensor.make_eq_ok.mpr ⟨?_, rfl⟩)⟩
    rw [hvalues, List.length_zipIdx]
    exact hshape

end Decomposition

end LowPrecision
