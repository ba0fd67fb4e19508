import LowPrecision.Proofs.Quantization.RoundTrip
import LowPrecision.Proofs.Runs
import LowPrecision.Rewrite.Decomposition

namespace LowPrecision

variable {α β ε : Type}

section Lists

def atChannel (values : List α) (c : Nat) : Option α := values[if values.length = 1 then 0 else c]?

theorem forall₂_getElem? {R : α → β → Prop} {xs : List α} {ys : List β} (h : List.Forall₂ R xs ys)
    {i : Nat} {x : α} (hi : xs[i]? = some x) : ∃ y, ys[i]? = some y ∧ R x y := by
  induction h generalizing i with
  | nil => cases hi
  | cons hr _ ih =>
    cases i with
    | zero =>
      cases hi
      exact ⟨_, rfl, hr⟩
    | succ i => exact ih hi

theorem atChannel_of_getElem? {xs : List α} {c : Nat} {x : α} (h : xs[c]? = some x) :
    atChannel xs c = some x := by
  rw [atChannel]
  split
  · next hone =>
    have hlt := (List.getElem?_eq_some_iff.mp h).1
    obtain rfl : c = 0 := by omega
    exact h
  · exact h

theorem atChannel_of_forall₂ {R : α → β → Prop} {xs : List α} {ys : List β} {c : Nat} {x : α}
    (h : List.Forall₂ R xs ys) (hx : atChannel xs c = some x) :
    ∃ y, atChannel ys c = some y ∧ R x y := by
  rw [atChannel, ← h.length_eq]
  exact forall₂_getElem? h hx

theorem atChannel_zip {xs : List α} {ys : List β} {c : Nat} {x : α} {y : β}
    (hlength : xs.length = ys.length) (hx : atChannel xs c = some x) (hy : atChannel ys c = some y) :
    atChannel (xs.zip ys) c = some (x, y) := by
  rw [atChannel] at hx hy ⊢
  rw [List.length_zip, ← hlength, Nat.min_self, List.getElem?_zip_eq_some]
  rw [← hlength] at hy
  exact ⟨hx, hy⟩

theorem atChannel_unzip {xs : List α} {ys : List β} {c : Nat} {x : α} {y : β}
    (hlength : xs.length = ys.length) (h : atChannel (xs.zip ys) c = some (x, y)) :
    atChannel xs c = some x ∧ atChannel ys c = some y := by
  rw [atChannel, List.length_zip, ← hlength, Nat.min_self, List.getElem?_zip_eq_some] at h
  rw [atChannel, atChannel, ← hlength]
  exact h

theorem atChannel_map {xs : List α} {c : Nat} (f : α → β) :
    atChannel (xs.map f) c = (atChannel xs c).map f := by
  rw [atChannel, atChannel, List.length_map, List.getElem?_map]

theorem exists_forall₂ {R : α → β → Prop} {xs : List α} (h : ∀ x ∈ xs, ∃ y, R x y) :
    ∃ ys, List.Forall₂ R xs ys := by
  induction xs with
  | nil => exact ⟨[], .nil⟩
  | cons x xs ih =>
    obtain ⟨y, hy⟩ := h x List.mem_cons_self
    obtain ⟨ys, hys⟩ := ih fun z hz => h z (List.mem_cons_of_mem x hz)
    exact ⟨y :: ys, .cons hy hys⟩

theorem attempt_bind_exists {γ : Type} {x : Attempt ε β} {k : β → Attempt ε γ} {P : β → Prop}
    (hx : ∃ b, x.run = .ok (.ok b) ∧ P b) (hk : ∀ b, P b → ∃ c, (k b).run = .ok (.ok c)) :
    ∃ c, (x >>= k).run = .ok (.ok c) := by
  obtain ⟨b, hb, hp⟩ := hx
  obtain ⟨c, hc⟩ := hk b hp
  exact ⟨c, attempt_bind_eq_ok.mpr ⟨b, hb, hc⟩⟩

theorem exists_attempt_mapM {f : α → Attempt ε β} {xs : List α}
    (h : ∀ x ∈ xs, ∃ y, (f x).run = .ok (.ok y)) :
    ∃ ys, (xs.mapM f).run = .ok (.ok ys) ∧ ys.length = xs.length := by
  obtain ⟨ys, hys⟩ := exists_forall₂ h
  exact ⟨ys, attempt_mapM_eq_ok.mpr hys, hys.length_eq.symm⟩

theorem exists_except_mapM {f : α → Except ε β} {xs : List α} (h : ∀ x ∈ xs, ∃ y, f x = .ok y) :
    ∃ ys, xs.mapM f = .ok ys := by
  obtain ⟨ys, hys⟩ := exists_forall₂ h
  exact ⟨ys, except_mapM_eq_ok.mpr hys⟩

theorem anyM_ok {f : α → Attempt ε Bool} {xs : List α} (h : ∀ x ∈ xs, ∃ b, (f x).run = .ok (.ok b)) :
    ∃ b, (xs.anyM f).run = .ok (.ok b) := by
  induction xs with
  | nil => exact ⟨false, rfl⟩
  | cons x xs ih =>
    obtain ⟨b, hb⟩ := h x List.mem_cons_self
    obtain ⟨rest, hrest⟩ := ih fun y hy => h y (List.mem_cons_of_mem x hy)
    rw [List.anyM]
    cases b with
    | false => exact ⟨rest, attempt_bind_eq_ok.mpr ⟨false, hb, hrest⟩⟩
    | true => exact ⟨true, attempt_bind_eq_ok.mpr ⟨true, hb, rfl⟩⟩

end Lists

namespace Tensor

def channel (t : Tensor α) (c : Nat) : Option α := atChannel t.data c

theorem make_eq_ok {shape : List Nat} {values : List α} {t : Tensor α} :
    (make shape values).run = .ok (.ok t) ↔
      Checked.product shape = .ok values.length ∧ t = ⟨shape, values⟩ := by
  rw [make, attempt_bind_eq_ok]
  simp only [attempt_lift_eq_ok]
  constructor
  · rintro ⟨size, hsize, h⟩
    split at h
    · next hlength =>
      cases h
      exact ⟨hlength ▸ hsize, rfl⟩
    · cases h
  · rintro ⟨hsize, rfl⟩
    refine ⟨_, hsize, ?_⟩
    rw [if_pos rfl]
    rfl

theorem data_of_layOut {shape : List Nat} {values : List α} {t : Tensor α}
    (h : (layOut shape values).run = .ok (.ok t)) : t.data = values := by
  match values, h with
  | [], h => exact congrArg Tensor.data (make_eq_ok.mp h).2
  | [value], h =>
    cases h
    rfl
  | _ :: _ :: _, h => exact congrArg Tensor.data (make_eq_ok.mp h).2

theorem channel_toScalar {t : Tensor Rat} {c : Nat} {v : Rat} (h : t.channel c = some v) :
    t.toScalar.channel c = some v := by
  rw [toScalar]
  split
  · next first rest hdata =>
    split
    · next huniform =>
      simp only [Bool.and_eq_true, decide_eq_true_eq, isUniform, hdata, List.all_eq_true] at huniform
      have hmem : v ∈ t.data := List.mem_of_getElem? h
      rw [hdata, List.mem_cons] at hmem
      have hv : v = first := by
        rcases hmem with hv | hv
        · exact hv
        · exact (of_decide_eq_true (huniform.2 v hv) : first = v).symm
      rw [hv]
      rfl
    · exact h
  · exact h

theorem channelValues_eq_ok {t : Tensor α} {count : Nat} {values : List α}
    (h : t.channelValues count = .ok (some values)) :
    (∃ v, t.data = [v] ∧ values = List.replicate count v) ∨ t.data.length = count ∧ values = t.data := by
  rw [channelValues] at h
  split at h
  · next v hdata =>
    cases hreplicate : Checked.replicate Tensor.elementWidth count v with
    | error fault =>
      rw [hreplicate] at h
      cases h
    | ok repeated =>
      rw [hreplicate] at h
      cases h
      obtain ⟨-, -, hrepeated⟩ := except_bind_eq_ok.mp hreplicate
      cases hrepeated
      exact .inl ⟨v, hdata, rfl⟩
  · by_cases hlength : t.data.length = count
    · rw [if_pos hlength] at h
      cases h
      exact .inr ⟨hlength, rfl⟩
    · rw [if_neg hlength] at h
      cases h

theorem channelValues_size (t : Tensor α) : t.channelValues t.size = .ok (some t.data) := by
  rw [channelValues]
  split
  · next value hdata =>
    rw [size, hdata]
    rfl
  · exact congrArg Except.ok (if_pos rfl)

end Tensor

structure ChannelRange where
  inputLow : Rat
  inputHigh : Rat
  outputLow : Rat
  outputHigh : Rat
  deriving DecidableEq

namespace ChannelRange

def withOutput (r : ChannelRange) (low high : Rat) : ChannelRange :=
  { r with outputLow := low, outputHigh := high }

def value (r : ChannelRange) (levels : Nat) (x : Rat) : Checked Rat :=
  fakeQuantize x r.inputLow r.inputHigh r.outputLow r.outputHigh levels

theorem value_low (r : ChannelRange) (n : Nat) :
    r.value (n + 1) (min r.inputLow r.inputHigh) = .ok r.outputLow := by
  rw [value, fakeQuantize_eq, if_pos (le_refl _)]

theorem value_high (r : ChannelRange) (n : Nat) :
    r.value (n + 1) (max r.inputLow r.inputHigh + 1) = .ok r.outputHigh := by
  have hmax : max r.inputHigh r.inputLow < max r.inputLow r.inputHigh + 1 := by
    rw [max_comm]
    exact lt_add_one _
  rw [value, fakeQuantize_eq, if_neg (not_le.mpr (lt_of_le_of_lt min_le_max (lt_add_one _))),
    if_pos hmax]

end ChannelRange

namespace Ranges

variable {r : Ranges Rat}

def channel (r : Ranges Rat) (c : Nat) : Option ChannelRange := do
  return ⟨← r.inputLow.channel c, ← r.inputHigh.channel c, ← r.outputLow.channel c,
    ← r.outputHigh.channel c⟩

theorem channel_eq_some {c : Nat} {range : ChannelRange} :
    r.channel c = some range ↔ r.inputLow.channel c = some range.inputLow ∧
      r.inputHigh.channel c = some range.inputHigh ∧
      r.outputLow.channel c = some range.outputLow ∧
      r.outputHigh.channel c = some range.outputHigh := by
  obtain ⟨_, _, _, _⟩ := range
  simp only [channel, Option.bind_eq_bind, Option.pure_def, Option.bind_eq_some_iff,
    Option.some.injEq, ChannelRange.mk.injEq]
  constructor
  · rintro ⟨_, h₁, _, h₂, _, h₃, _, h₄, rfl, rfl, rfl, rfl⟩
    exact ⟨h₁, h₂, h₃, h₄⟩
  · rintro ⟨h₁, h₂, h₃, h₄⟩
    exact ⟨_, h₁, _, h₂, _, h₃, _, h₄, rfl, rfl, rfl, rfl⟩

theorem outputBounds_eq {r : Ranges α} (h : r.outputLow.size = r.outputHigh.size) :
    r.outputBounds = .ok (r.outputLow.data, r.outputHigh.data) := by
  rw [outputBounds, channels, ← h, Nat.max_self, Tensor.channelValues_size, h,
    Tensor.channelValues_size]
  rfl

theorem make_eq_ok {levels : Nat} {inputLow inputHigh outputLow outputHigh : Tensor α}
    {r : Ranges α} :
    make levels inputLow inputHigh outputLow outputHigh = .ok r ↔
      inputLow.size = inputHigh.size ∧ outputLow.size = outputHigh.size ∧
        isSupportedLevels levels = true ∧
        r = ⟨levels, inputLow, inputHigh, outputLow, outputHigh⟩ := by
  rw [make]
  split
  · next hsize =>
    simp only [ne_eq, Bool.or_eq_true, decide_eq_true_eq] at hsize
    simp only [reduceCtorEq, false_iff]
    omega
  · next hsize =>
    simp only [ne_eq, Bool.or_eq_true, decide_eq_true_eq, not_or, not_not] at hsize
    split
    · next hlevels => simp [hsize, hlevels, eq_comm]
    · next hlevels => simp [hlevels]

theorem ofNode_eq_ok {g : Graph α} {id : NodeId} {r : Ranges α} :
    ofNode g id = .ok r ↔ ∃ n data low high outLow outHigh rest, g.node? id = some n ∧
      n.op = .fakeQuantize r.levels ∧
      n.inputs = data :: low :: high :: outLow :: outHigh :: rest ∧
      g.constant? low = some r.inputLow ∧ g.constant? high = some r.inputHigh ∧
      g.constant? outLow = some r.outputLow ∧ g.constant? outHigh = some r.outputHigh ∧
      r.inputLow.size = r.inputHigh.size ∧ r.outputLow.size = r.outputHigh.size ∧
      isSupportedLevels r.levels = true := by
  constructor
  · intro h
    rw [ofNode] at h
    split at h
    · cases h
    · next n hn =>
      dsimp only at h
      split at h
      · next levels _ _ _ _ hop h₁ h₂ h₃ h₄ =>
        obtain ⟨hinput, houtput, hlevels, rfl⟩ := make_eq_ok.mp h
        obtain ⟨low, hlow, hlow'⟩ := Option.bind_eq_some_iff.mp h₁
        obtain ⟨high, hhigh, hhigh'⟩ := Option.bind_eq_some_iff.mp h₂
        obtain ⟨outLow, hout, hout'⟩ := Option.bind_eq_some_iff.mp h₃
        obtain ⟨outHigh, hend, hend'⟩ := Option.bind_eq_some_iff.mp h₄
        rw [Node.input?] at hlow hhigh hout hend
        match hin : n.inputs, hlow, hhigh, hout, hend with
        | data :: _ :: _ :: _ :: _ :: rest, rfl, rfl, rfl, rfl =>
          exact ⟨n, data, low, high, outLow, outHigh, rest, hn, hop, hin, hlow', hhigh', hout', hend',
            hinput, houtput, hlevels⟩
      · cases h
  · rintro ⟨n, data, low, high, outLow, outHigh, rest, hn, hop, hin, h₁, h₂, h₃, h₄, hinput, houtput,
      hlevels⟩
    rw [ofNode, hn]
    simp only [Node.input?, hin, hop, List.getElem?_cons_succ, List.getElem?_cons_zero,
      Option.bind_some, h₁, h₂, h₃, h₄]
    exact make_eq_ok.mpr ⟨hinput, houtput, hlevels, rfl⟩

end Ranges

namespace AffineParams

def channel (p : AffineParams Rat) (c : Nat) : Option (Rat × Rat) := do
  return (← p.scale.channel c, ← (p.zeroPoint.map (·.channel c)).getD (some 0))

theorem channel_of {scale : Tensor Rat} {zeroPoint : Option (Tensor Rat)} {c : Nat} {s z : Rat}
    (hs : scale.channel c = some s)
    (hz : (zeroPoint.map (·.channel c)).getD (some 0) = some z) :
    (⟨scale, zeroPoint⟩ : AffineParams Rat).channel c = some (s, z) := by
  simp [channel, hs, hz]

end AffineParams

section Select

variable [Scalar α] {lows highs : List α} {levels : Nat} {allowed : PrecisionSet} {grid : Grid α}

theorem select_run (h : (Grid.select lows highs levels allowed).run = .ok (.ok (some grid))) :
    Grid.choose lows allowed = some grid.precision ∧
      Grid.bounds grid.precision levels = .ok (grid.low, grid.high) ∧
      ((lows.zip highs).anyM (m := Attempt TransformError) fun (l, h) => do
        let p ← ScaleZeroPoint.ofInterval l h grid.low grid.high
        return !Arithmetic.equal p.zeroPoint Arithmetic.zero).run =
          .ok (.ok grid.hasZeroPoint) := by
  rw [Grid.select] at h
  split at h
  · cases h
  · next type htype =>
    obtain ⟨⟨low, high⟩, hbounds, h⟩ := attempt_bind_eq_ok.mp h
    obtain ⟨zero, hzero, h⟩ := attempt_bind_eq_ok.mp h
    cases attempt_pure_eq_ok.mp h
    refine ⟨htype, ?_, hzero⟩
    cases hgrid : Grid.bounds (α := α) type levels with
    | error e =>
      rw [hgrid] at hbounds
      cases hbounds
    | ok out =>
      rw [hgrid] at hbounds
      cases hbounds
      rfl

theorem bounds_of_select
    (h : (Grid.select lows highs levels allowed).run = .ok (.ok (some grid))) :
    Grid.bounds grid.precision levels = .ok (grid.low, grid.high) :=
  (select_run h).2.1

end Select

namespace Decomposition

variable {shape : List Nat} {params : List (ScaleZeroPoint Rat)} {affine : AffineParams Rat}

theorem affineParams_channel (h : (affineParams shape params).run = .ok (.ok affine)) {c : Nat}
    {p : ScaleZeroPoint Rat} (hc : atChannel params c = some p) :
    affine.channel c = some (p.scale, p.zeroPoint) := by
  rw [affineParams] at h
  obtain ⟨scale, hscale, h⟩ := attempt_bind_eq_ok.mp h
  have hscale' : scale.toScalar.channel c = some p.scale := by
    refine Tensor.channel_toScalar ?_
    rw [Tensor.channel, Tensor.data_of_layOut hscale, atChannel_map, hc]
    rfl
  dsimp only at h
  split at h
  · obtain ⟨zeroPoint, hzero, h⟩ := attempt_bind_eq_ok.mp h
    obtain ⟨t, ht, rfl⟩ := attempt_map_eq_ok.mp hzero
    cases h
    refine AffineParams.channel_of hscale' (Tensor.channel_toScalar (t := t) ?_)
    rw [Tensor.channel, Tensor.data_of_layOut ht, atChannel_map, hc]
    rfl
  · next hnone =>
    cases h
    have hmem : p ∈ params := List.mem_of_getElem? hc
    have hzero : p.zeroPoint = 0 := by
      by_contra hne
      have hequal : Arithmetic.equal p.zeroPoint Arithmetic.zero = false := decide_eq_false hne
      exact hnone (List.any_eq_true.mpr ⟨p, hmem, by rw [hequal]; rfl⟩)
    exact AffineParams.channel_of hscale' (congrArg some hzero.symm)

theorem grid_bounds {type : ElementType} {levels : Nat} {low high : Rat}
    (h : Grid.bounds type levels = .ok (low, high)) :
    ∃ (a : Int) (n : Nat), levels = n + 1 ∧ 1 ≤ n ∧ low = a ∧ high = ((a + n : Int) : Rat) := by
  unfold Grid.bounds at h
  split at h <;> cases h
  · exact ⟨0, 255, rfl, by decide, rfl, rfl⟩
  · exact ⟨0, 254, rfl, by decide, rfl, rfl⟩
  · exact ⟨-128, 255, rfl, by decide, rfl, rfl⟩
  · exact ⟨-127, 254, rfl, by decide, rfl, rfl⟩

section Channel

variable {grid : Grid Rat} {a : Int} {n : Nat} {q : ScaleZeroPoint Rat} {qLow qHigh : Rat}

def Reproduces (scale zeroPoint : Rat) (f quantized : Rat → Checked Rat) : Prop :=
  ∀ x, ∃ v w, f x = .ok v ∧ quantized x = .ok w ∧ Restores scale zeroPoint w v

def Misses (scale zeroPoint : Rat) (f quantized : Rat → Checked Rat) : Prop :=
  ∃ x v w, f x = .ok v ∧ quantized x = .ok w ∧ ¬ Restores scale zeroPoint w v

/-- A channel is reproduced when its output range comes close to 0, and missed when it does not. -/
def ReproducesNearZero (range : ChannelRange) (levels : Nat) (q : ScaleZeroPoint Rat)
    (quantized : Rat → Checked Rat) : Prop :=
  (NearZero range.outputLow range.outputHigh levels →
    Reproduces q.scale q.zeroPoint (range.value levels) quantized) ∧
  (¬ NearZero range.outputLow range.outputHigh levels →
    Misses q.scale q.zeroPoint (range.value levels) quantized)

theorem reproducesNearZero (range : ChannelRange) (hn : 1 ≤ n) (hlow : grid.low = a)
    (hhigh : grid.high = ((a + n : Int) : Rat))
    (hq : ScaleZeroPoint.ofInterval range.outputLow range.outputHigh grid.low grid.high = .ok q)
    (hql : quantizeBound grid q range.outputLow = .ok qLow)
    (hqh : quantizeBound grid q range.outputHigh = .ok qHigh) {f : Rat → Rat}
    (hf : f = id ∨ f = fun w => (roundHalfAway w : Rat)) :
    ReproducesNearZero range (n + 1) q
      fun x => f <$> (range.withOutput qLow qHigh).value (n + 1) x := by
  obtain ⟨hnear, hfar, ⟨low, hlowInt⟩, ⟨high, hhighInt⟩⟩ := channel_restores hn hlow hhigh hq hql hqh
  have hfixed : f qLow = qLow ∧ f qHigh = qHigh := by
    rcases hf with rfl | rfl
    · exact ⟨rfl, rfl⟩
    · subst hlowInt hhighInt
      exact ⟨congrArg Int.cast (roundHalfAway_intCast low),
        congrArg Int.cast (roundHalfAway_intCast high)⟩
  constructor
  · intro h x
    obtain ⟨k, hk, hkn, hvalue, -, -⟩ := fakeQuantize_point x range.inputLow range.inputHigh hn
    refine ⟨_, _, hvalue _ _, congrArg (f <$> ·) (hvalue qLow qHigh), ?_⟩
    have hpoint := hnear h k hk hkn
    rcases hf with rfl | rfl
    · exact hpoint.1
    · exact hpoint.2
  · intro hno
    rcases hfar hno with hend | hend
    · refine ⟨_, _, f qLow, range.value_low n, ?_, by rwa [hfixed.1]⟩
      exact congrArg (f <$> ·) ((range.withOutput qLow qHigh).value_low n)
    · refine ⟨_, _, f qHigh, range.value_high n, ?_, by rwa [hfixed.2]⟩
      exact congrArg (f <$> ·) ((range.withOutput qLow qHigh).value_high n)

end Channel

theorem quantizeBounds_channel {grid : Grid Rat} {values quantized : List Rat}
    (h : quantizeBounds grid params values = .ok quantized) (hlength : values.length = params.length)
    {c : Nat} {value : Rat} {q : ScaleZeroPoint Rat} (hvalue : atChannel values c = some value)
    (hq : atChannel params c = some q) :
    ∃ v, atChannel quantized c = some v ∧ quantizeBound grid q value = .ok v := by
  rw [quantizeBounds, except_mapM_eq_ok] at h
  obtain ⟨v, hv, hbound⟩ := atChannel_of_forall₂ h (atChannel_zip hlength hvalue hq)
  exact ⟨v, hv, hbound⟩

theorem channel_of_channelValues {t : Tensor Rat} {count c : Nat} {values : List Rat} {v : Rat}
    (h : t.channelValues count = .ok (some values)) (hv : values[c]? = some v) :
    t.channel c = some v := by
  rcases Tensor.channelValues_eq_ok h with ⟨value, hdata, rfl⟩ | ⟨-, rfl⟩
  · rw [List.getElem?_replicate] at hv
    split at hv
    · cases hv
      simp [Tensor.channel, atChannel, hdata]
    · cases hv
  · exact atChannel_of_getElem? hv

theorem foldWeights_run {name : String} {r : Ranges Rat} {grid : Grid Rat} {weights folded : Tensor Rat}
    (h : (foldWeights name r grid r.outputLow.data r.outputHigh.data params weights).run =
      .ok (.ok folded)) :
    folded.shape = weights.shape ∧ ∀ i weight, weights.data[i]? = some weight →
      ∃ range q v, r.channel (channelOf params.length weights.size i) = some range ∧
        atChannel params (channelOf params.length weights.size i) = some q ∧
        foldWeight grid r.levels
          ⟨range.inputLow, range.inputHigh, range.outputLow, range.outputHigh, q⟩ weight = .ok v ∧
        folded.data[i]? = some v := by
  rw [foldWeights] at h
  obtain ⟨inputLow, hlow, h⟩ := attempt_bind_eq_ok.mp h
  obtain ⟨inputHigh, hhigh, h⟩ := attempt_bind_eq_ok.mp h
  split at h
  · next lows highs =>
    obtain ⟨values, hvalues, h⟩ := attempt_bind_eq_ok.mp h
    obtain ⟨-, rfl⟩ := Tensor.make_eq_ok.mp (attempt_adapt_eq_ok.mp h)
    refine ⟨rfl, fun i weight hi => ?_⟩
    have hzip : weights.data.zipIdx[i]? = some (weight, i) := by
      simp [List.getElem?_zipIdx, hi]
    obtain ⟨v, hv, hfold⟩ := forall₂_getElem? (attempt_mapM_eq_ok.mp hvalues) hzip
    dsimp only at hfold
    split at hfold
    · next _ _ _ _ _ low high q inLow inHigh hlows hhighs hq hinLow hinHigh =>
      refine ⟨⟨inLow, inHigh, low, high⟩, q, v, Ranges.channel_eq_some.mpr ⟨?_, ?_, ?_, ?_⟩,
        atChannel_of_getElem? hq, attempt_lift_eq_ok.mp hfold, hv⟩
      · exact channel_of_channelValues (attempt_lift_eq_ok.mp hlow) hinLow
      · exact channel_of_channelValues (attempt_lift_eq_ok.mp hhigh) hinHigh
      · exact atChannel_of_getElem? hlows
      · exact atChannel_of_getElem? hhighs
    · cases hfold
  · cases h

structure Lowering.Fits (p : Lowering Rat) (affine : AffineParams Rat) : Prop where
  lows : p.lows = p.ranges.outputLow.data
  highs : p.highs = p.ranges.outputHigh.data
  length : p.lows.length = p.highs.length
  grid : ∃ (a : Int) (n : Nat), p.ranges.levels = n + 1 ∧ 1 ≤ n ∧ p.grid.low = a ∧
    p.grid.high = ((a + n : Int) : Rat)
  params : channelParams p.grid p.lows p.highs = .ok p.params
  affine : (affineParams p.ranges.boundsShape p.params).run = .ok (.ok affine)

namespace Lowering.Fits

variable {p : Lowering Rat} {affine : AffineParams Rat}

theorem channel (h : p.Fits affine) {c : Nat} {range : ChannelRange}
    (hc : p.ranges.channel c = some range) :
    ∃ q, atChannel p.params c = some q ∧ affine.channel c = some (q.scale, q.zeroPoint) ∧
      ScaleZeroPoint.ofInterval range.outputLow range.outputHigh p.grid.low p.grid.high =
        .ok q := by
  obtain ⟨-, -, hlow, hhigh⟩ := Ranges.channel_eq_some.mp hc
  rw [Tensor.channel, ← h.lows] at hlow
  rw [Tensor.channel, ← h.highs] at hhigh
  obtain ⟨q, hq, hparams⟩ := atChannel_of_forall₂ (except_mapM_eq_ok.mp h.params)
    (atChannel_zip h.length hlow hhigh)
  exact ⟨q, hq, affineParams_channel h.affine hq, hparams⟩

theorem reproduces (h : p.Fits affine) {c : Nat} {range : ChannelRange}
    (hc : p.ranges.channel c = some range) :
    ∃ q qLow qHigh, atChannel p.params c = some q ∧
      affine.channel c = some (q.scale, q.zeroPoint) ∧
      quantizeBound p.grid q range.outputLow = .ok qLow ∧
      quantizeBound p.grid q range.outputHigh = .ok qHigh ∧
      ∀ f : Rat → Rat, f = id ∨ (f = fun w => (roundHalfAway w : Rat)) →
        ReproducesNearZero range p.ranges.levels q
          fun x => f <$> (range.withOutput qLow qHigh).value p.ranges.levels x := by
  obtain ⟨q, hq, haffine, hinterval⟩ := h.channel hc
  obtain ⟨a, n, hlevels, hn, hlow, hhigh⟩ := h.grid
  have hql := quantizeBound_rat hlow hhigh q range.outputLow
  have hqh := quantizeBound_rat hlow hhigh q range.outputHigh
  refine ⟨q, _, _, hq, haffine, hql, hqh, fun f hf => ?_⟩
  rw [hlevels]
  exact reproducesNearZero range hn hlow hhigh hinterval hql hqh hf

end Lowering.Fits

theorem foldWeight_eq {grid : Grid Rat} {levels : Nat} {range : ChannelRange}
    {q : ScaleZeroPoint Rat} {qLow qHigh : Rat}
    (hql : quantizeBound grid q range.outputLow = .ok qLow)
    (hqh : quantizeBound grid q range.outputHigh = .ok qHigh) (x : Rat) :
    foldWeight grid levels
        ⟨range.inputLow, range.inputHigh, range.outputLow, range.outputHigh, q⟩ x =
      (fun w => (roundHalfAway w : Rat)) <$> (range.withOutput qLow qHigh).value levels x := by
  rw [foldWeight]
  dsimp only
  rw [hql, hqh]
  rfl

end Decomposition

end LowPrecision
