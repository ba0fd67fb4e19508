import LowPrecision.Proofs.Rewrite.Recipes

namespace LowPrecision

open LowPrecision.Graph

variable {α : Type}

theorem anyM_eq_false {ε β : Type} {xs : List β} {f : β → Attempt ε Bool}
    (h : (xs.anyM f).run = .ok (.ok false)) : ∀ x ∈ xs, (f x).run = .ok (.ok false) := by
  induction xs with
  | nil => simp
  | cons x xs ih =>
    rw [List.anyM] at h
    obtain ⟨found, hfound, h⟩ := attempt_bind_eq_ok.mp h
    cases found with
    | true => cases h
    | false =>
      intro y hy
      rcases List.mem_cons.mp hy with rfl | hy
      · exact hfound
      · exact ih h y hy

def Arithmetic.IsZero [Arithmetic α] (z : α) : Prop := Arithmetic.equal z Arithmetic.zero = true

def Graph.AddsNoSubtract (g g' : Graph α) : Prop :=
  ∀ v f, g.nodes.size ≤ v → g'.face? v = some f → f.kind ≠ .subtract

theorem Graph.Emits.addsNoSubtract {q : Recipe α} {g g' : Graph α} (h : Emits q g g')
    (hq : ∀ t, ¬ q.zeroPoint t) : g.AddsNoSubtract g' := by
  intro v f hv hf hkind
  have hop : f.op = .subtract := by
    rw [Face.kind] at hkind
    cases hop : f.op <;> rw [hop] at hkind <;> first | rfl | cases hkind
  obtain ⟨s, t, -, -, hzero⟩ := (h.meets v f hv hf).subtract hop
  exact hq t hzero

section Parameters

variable [Scalar α]

theorem Grid.zero_of_select {lows highs : List α} {levels : Nat} {allowed : PrecisionSet}
    {grid : Grid α} (h : (Grid.select lows highs levels allowed).run = .ok (.ok (some grid)))
    (hzero : grid.hasZeroPoint = false) {low high : α} (hmem : (low, high) ∈ lows.zip highs)
    {p : ScaleZeroPoint α}
    (hp : ScaleZeroPoint.ofInterval low high grid.low grid.high = .ok p) :
    Arithmetic.IsZero p.zeroPoint := by
  obtain ⟨-, -, hfound⟩ := select_run h
  rw [hzero] at hfound
  have hnone := anyM_eq_false hfound _ hmem
  obtain ⟨p', hp', hpure⟩ := attempt_bind_eq_ok.mp hnone
  rw [attempt_lift_eq_ok] at hp'
  obtain rfl : p = p' := Except.ok.inj (hp.symm.trans hp')
  simpa [Arithmetic.IsZero] using attempt_pure_eq_ok.mp hpure

theorem zero_of_channelParams {lows highs : List α} {grid : Grid α}
    {params : List (ScaleZeroPoint α)} (hparams : channelParams grid lows highs = .ok params)
    (h : ∀ i ∈ lows.zip highs, ∀ p, ScaleZeroPoint.ofInterval i.1 i.2 grid.low grid.high = .ok p →
      Arithmetic.IsZero p.zeroPoint) : ∀ p ∈ params, Arithmetic.IsZero p.zeroPoint := by
  intro p hp
  obtain ⟨k, hk⟩ := List.mem_iff_getElem?.mp hp
  obtain ⟨i, hi, hchannel⟩ := forall₂_getElem? (except_mapM_eq_ok.mp hparams).flip hk
  exact h i (List.mem_of_getElem? hi) p hchannel

omit [Scalar α] in
theorem Decomposition.zeroPoint_of_affineParams [Scalar α] {shape : List Nat}
    {params : List (ScaleZeroPoint α)} {affine : AffineParams α}
    (haffine : (Decomposition.affineParams shape params).run = .ok (.ok affine))
    (h : ∀ p ∈ params, Arithmetic.IsZero p.zeroPoint) : affine.zeroPoint = none := by
  have hnone : params.any (fun p => !Arithmetic.equal p.zeroPoint Arithmetic.zero) = false := by
    refine List.any_eq_false.mpr fun p hp => ?_
    rw [show Arithmetic.equal p.zeroPoint Arithmetic.zero = true from h p hp]
    decide
  rw [affineParams] at haffine
  obtain ⟨scale, -, haffine⟩ := attempt_bind_eq_ok.mp haffine
  rw [hnone] at haffine
  obtain ⟨zeroPoint, hzero, haffine⟩ := attempt_bind_eq_ok.mp haffine
  cases attempt_pure_eq_ok.mp hzero
  cases attempt_pure_eq_ok.mp haffine
  rfl

end Parameters

namespace ConcatPlan

variable [Scalar α] {c : Context} {g : Graph α} {concat id : NodeId} {plan : ConcatPlan α}

def mappedIntervals (plan : ConcatPlan α) (g : Graph α) (id : NodeId) (r : Ranges α) :
    List (α × α) :=
  match plan.sharedInterval g id, r.outputBounds with
  | some interval, _ => [interval]
  | none, .ok (lows, highs) => lows.zip highs
  | none, .error _ => []

def Symmetric (plan : ConcatPlan α) (g : Graph α) : Prop :=
  ∀ b ∈ plan.region.boundary.zip plan.ranges, ∀ i ∈ plan.mappedIntervals g b.1 b.2, ∀ p,
    ScaleZeroPoint.ofInterval i.1 i.2 plan.grid.low plan.grid.high = .ok p →
      Arithmetic.IsZero p.zeroPoint

theorem Symmetric.branches (h : plan.Symmetric g) (hchosen : Chosen c g plan) :
    ∀ branch ∈ plan.branches, branch.params.Only (fun _ => True) Arithmetic.IsZero := by
  intro branch hbranch
  obtain ⟨k, hk⟩ := List.mem_iff_getElem?.mp hbranch
  obtain ⟨id, r, _, hid, hr, -, hplan, -⟩ := hchosen.branch hk
  have hmem : (id, r) ∈ plan.region.boundary.zip plan.ranges :=
    List.mem_of_getElem? (List.getElem?_zip_eq_some.mpr ⟨hid, hr⟩)
  have hsymmetric := h (id, r) hmem
  dsimp only at hsymmetric
  obtain ⟨lows, highs, params, hbounds, hmapped, -, -, hparams⟩ := planBranch_run hplan
  refine ChannelParams.only_of_ofList? hparams fun q hq => ⟨trivial, ?_⟩
  unfold mappedIntervals at hsymmetric
  unfold Mapped at hmapped
  split at hmapped
  · next low high hinterval =>
    obtain ⟨p, hp, rfl⟩ := hmapped
    rw [(List.mem_replicate.mp hq).2]
    rw [hinterval] at hsymmetric
    exact hsymmetric (low, high) List.mem_cons_self p hp
  · next hinterval =>
    rw [hinterval, hbounds] at hsymmetric
    exact zero_of_channelParams hmapped hsymmetric q hq

theorem Chosen.isSymmetric (h : Chosen c g plan) (hzero : plan.grid.hasZeroPoint = false)
    (hshared : ∀ id ∈ plan.region.boundary, plan.sharedInterval g id = some plan.interval) :
    plan.Symmetric g := by
  intro b hb i hi p hp
  obtain ⟨_, _, _, -, -, -, hselect⟩ := h.grid
  rw [mappedIntervals, hshared b.1 (List.of_mem_zip hb).1] at hi
  obtain rfl := List.mem_singleton.mp hi
  exact Grid.zero_of_select hselect hzero (by simp) hp

theorem zeroPoint_of_dequantization {p : ChannelParams α} {port : Port} {params : AffineParams α}
    (hparams : p.dequantization port = .ok params)
    (h : ∀ z ∈ p.zeroPoints, Arithmetic.IsZero z) : params.zeroPoint = none := by
  have hnone : p.zeroPoints.any (fun z => !Arithmetic.equal z Arithmetic.zero) = false := by
    refine List.any_eq_false.mpr fun z hz => ?_
    rw [show Arithmetic.equal z Arithmetic.zero = true from h z hz]
    decide
  rw [ChannelParams.dequantization, AffineParams.ofChannels, hnone] at hparams
  obtain ⟨zeroPoint, hzero, hparams⟩ := except_bind_eq_ok.mp hparams
  obtain ⟨scale, -, hparams⟩ := except_bind_eq_ok.mp hparams
  cases hzero
  cases hparams
  rfl

theorem Symmetric.addsNoSubtract {s s' : Session α} (h : plan.Symmetric s.graph)
    (hg : s.graph.WellFormed) (hplan : ofConcat? s.context s.graph concat = .ok (some plan))
    (hrun : exec plan.apply s = .ok (.ok (), s')) : s.graph.AddsNoSubtract s'.graph := by
  obtain ⟨haccepted, hchosen⟩ := planned_of_ofConcat? hplan
  refine (apply_emits hg haccepted hrun).addsNoSubtract ?_
  rintro t ⟨p, hp, port, params, hparams, hzero⟩
  have hnone := zeroPoint_of_dequantization hparams
    (haccepted.only (h.branches hchosen) hp).zeroPoints
  rw [hnone] at hzero
  cases hzero

end ConcatPlan

section Runs

open Decomposition

variable [Scalar α] {s : Session α}

def Decomposition.NeedsZeroPoint (g : Graph α) (id : NodeId) : Prop :=
  ∃ r lows highs grid, Ranges.ofNode g id = .ok r ∧ r.outputBounds = .ok (lows, highs) ∧
    (Grid.select lows highs r.levels (Markup.allowedPrecisions g id)).run = .ok (.ok (some grid)) ∧
    grid.hasZeroPoint = true

theorem Decomposition.NeedsZeroPoint.skipped {c : Context} {g : Graph α} {id : NodeId}
    (h : NeedsZeroPoint g id) (hsymmetric : c.params.supportAsymmetric = false) :
    canApply c g id = .ok false := by
  obtain ⟨r, lows, highs, grid, hr, hbounds, hselect, hzero⟩ := h
  obtain ⟨n, -, -, -, -, -, -, hn, -⟩ := Ranges.ofNode_eq_ok.mp hr
  rw [canApply, hn]
  dsimp only
  split
  · rfl
  rw [hr]
  dsimp only
  split
  · rfl
  refine except_bind_eq_ok.mpr ⟨(lows, highs), hbounds, ?_⟩
  refine except_bind_eq_ok.mpr ⟨_, hselect, ?_⟩
  simp only [hzero, hsymmetric, Bool.not_false, Bool.and_self, ↓reduceIte]
  rfl

theorem Decomposition.addsNoSubtract {id : NodeId} {d : Dequantization α} {s' : Session α}
    (hg : s.graph.WellFormed) (hsymmetric : s.context.params.supportAsymmetric = false)
    (hcan : canApply s.context s.graph id = .ok true)
    (hrun : exec (decompose id) s = .ok (.ok d, s')) :
    d.zeroPoint? = none ∧ s.graph.AddsNoSubtract s'.graph := by
  obtain ⟨p, affine, hr, hbounds, hselect, hparams, haffine, hd, hemits⟩ := decompose_emits hg hrun
  have hzero : p.grid.hasZeroPoint = false := by
    refine Bool.eq_false_iff.mpr fun hzero => ?_
    have hskipped : canApply s.context s.graph id = .ok false :=
      NeedsZeroPoint.skipped ⟨p.ranges, p.lows, p.highs, p.grid, hr, hbounds, hselect, hzero⟩ hsymmetric
    rw [hcan] at hskipped
    cases hskipped
  have hnone : affine.zeroPoint = none :=
    zeroPoint_of_affineParams haffine (zero_of_channelParams hparams fun i hi q hq =>
      Grid.zero_of_select hselect hzero hi hq)
  refine ⟨?_, hemits.addsNoSubtract fun t ht => ?_⟩
  · rw [← hnone, ← hd]
    rfl
  · cases hnone.symm.trans ht

/-- When zero points are not allowed, a fake-quantize whose grid needs one is skipped, and no other
decomposition adds one. The check of a concatenation looks at the grid of the interval that covers its
region. A region adds no zero point either when none of the intervals needs one by which its branches
are mapped; so it is when these are that one interval. -/
theorem symmetric_lowerings (hg : s.graph.WellFormed)
    (hsymmetric : s.context.params.supportAsymmetric = false) :
    (∀ id, NeedsZeroPoint s.graph id → canApply s.context s.graph id = .ok false) ∧
      (∀ id d s', canApply s.context s.graph id = .ok true →
        exec (decompose id) s = .ok (.ok d, s') →
          d.zeroPoint? = none ∧ s.graph.AddsNoSubtract s'.graph) ∧
      ∀ concat plan, ConcatPlan.ofConcat? s.context s.graph concat = .ok (some plan) →
        plan.grid.hasZeroPoint = false ∧
          ((∀ id ∈ plan.region.boundary, plan.sharedInterval s.graph id = some plan.interval) →
            plan.Symmetric s.graph) ∧
          (plan.Symmetric s.graph → ∀ s', exec plan.apply s = .ok (.ok (), s') →
            s.graph.AddsNoSubtract s'.graph) := by
  refine ⟨fun id h => h.skipped hsymmetric, fun id d s' hcan hrun =>
    addsNoSubtract hg hsymmetric hcan hrun, fun concat plan hplan => ?_⟩
  have hchosen := (ConcatPlan.planned_of_ofConcat? hplan).2
  have hzero : plan.grid.hasZeroPoint = false := by
    refine Bool.eq_false_iff.mpr fun hzero => ?_
    rw [hchosen.symmetric hzero] at hsymmetric
    cases hsymmetric
  exact ⟨hzero, hchosen.isSymmetric hzero, fun h s' => h.addsNoSubtract hg hplan⟩

end Runs

def joinedPair {α : Type} [Arithmetic α] (data joined : List Nat) (low high : Rat) : Graph α :=
  Graph.assemble [("x", .parameter, [], [⟨.f32, some data⟩]),
    ("low_a", .constant (Tensor.scalar (Arithmetic.ofRat (-32 / 25))), [], [⟨.f32, some []⟩]),
    ("high_a", .constant (Tensor.scalar (Arithmetic.ofRat (127 / 100))), [], [⟨.f32, some []⟩]),
    ("low_b", .constant (Tensor.scalar (Arithmetic.ofRat low)), [], [⟨.f32, some []⟩]),
    ("high_b", .constant (Tensor.scalar (Arithmetic.ofRat high)), [], [⟨.f32, some []⟩]),
    ("fq_a", .fakeQuantize 256, [⟨0, 0⟩, ⟨1, 0⟩, ⟨2, 0⟩, ⟨1, 0⟩, ⟨2, 0⟩], [⟨.f32, some data⟩]),
    ("fq_b", .fakeQuantize 256, [⟨0, 0⟩, ⟨3, 0⟩, ⟨4, 0⟩, ⟨3, 0⟩, ⟨4, 0⟩], [⟨.f32, some data⟩]),
    ("concat", .concat 1, [⟨5, 0⟩, ⟨6, 0⟩], [⟨.f32, some joined⟩]),
    ("y", .result, [⟨7, 0⟩], [])]

def symmetricOnly : Context := .start { Params.default with supportAsymmetric := false }

theorem symmetric_lowerings_of_joinedPair :
    (joinedPair [1, 2] [1, 4] 0 (51 / 20) : Graph Binary32).WellFormed ∧
      (joinedPair [1, 2] [1, 4] (-16 / 25) (127 / 100) : Graph Binary32).WellFormed ∧
      symmetricOnly.params.supportAsymmetric = false ∧
      (∃ d s', exec (Decomposition.decompose 5)
          (⟨joinedPair [1, 2] [1, 4] 0 (51 / 20), symmetricOnly⟩ : Session Binary32) =
            .ok (.ok d, s') ∧ d.zeroPoint? = none ∧
        (joinedPair [1, 2] [1, 4] 0 (51 / 20)).AddsNoSubtract s'.graph) ∧
      ∃ plan s', ConcatPlan.ofConcat? symmetricOnly
          (joinedPair [1, 2] [1, 4] (-16 / 25) (127 / 100)) 7 = .ok (some plan) ∧
        plan.Symmetric (joinedPair [1, 2] [1, 4] (-16 / 25) (127 / 100)) ∧
        exec plan.apply (⟨joinedPair [1, 2] [1, 4] (-16 / 25) (127 / 100), symmetricOnly⟩ :
          Session Binary32) = .ok (.ok (), s') ∧
        (joinedPair [1, 2] [1, 4] (-16 / 25) (127 / 100)).AddsNoSubtract s'.graph := by
  generalize hfirst : (joinedPair [1, 2] [1, 4] 0 (51 / 20) : Graph Binary32) = g₁
  generalize hsecond : (joinedPair [1, 2] [1, 4] (-16 / 25) (127 / 100) : Graph Binary32) = g₂
  have hg₁ : g₁.WellFormed := hfirst ▸ (Graph.assemble_ordered _).1
  have hg₂ : g₂.WellFormed := hsecond ▸ (Graph.assemble_ordered _).1
  have hcan : Decomposition.canApply symmetricOnly g₁ 5 = .ok true := by
    subst hfirst
    decide +kernel
  have hdecomposed : (exec (Decomposition.decompose 5) (⟨g₁, symmetricOnly⟩ :
      Session Binary32)).map (·.1.toOption.isSome) = .ok true := by
    subst hfirst
    decide +kernel
  have hjoined : (do
      match ← ConcatPlan.ofConcat? symmetricOnly g₂ 7 with
      | some plan =>
        let out ← exec plan.apply (⟨g₂, symmetricOnly⟩ : Session Binary32)
        return some (plan.region.boundary, plan.multiChannel, out.1)
      | none => return none : Checked _) = .ok (some ([5, 6], false, .ok ())) := by
    subst hsecond
    decide +kernel
  have hunshared : [5, 6].all (fun id => g₂.attributes.interval? id = none) = true := by
    subst hsecond
    decide +kernel
  refine ⟨hg₁, hg₂, rfl, ?_, ?_⟩
  · obtain ⟨⟨r, s'⟩, hrun, hsome⟩ := except_map_eq_ok.mp hdecomposed
    cases r with
    | error e => cases hsome
    | ok d =>
      obtain ⟨-, hdecompose, -⟩ := symmetric_lowerings (s := ⟨g₁, symmetricOnly⟩) hg₁ rfl
      exact ⟨d, s', hrun, hdecompose 5 d s' hcan hrun⟩
  · obtain ⟨found, hplan, hjoined⟩ := except_bind_eq_ok.mp hjoined
    cases found with
    | none => cases hjoined
    | some plan =>
      obtain ⟨⟨r, s'⟩, hrun, hout⟩ := except_bind_eq_ok.mp hjoined
      simp only [pure, Except.pure, Except.ok.injEq, Option.some.injEq, Prod.mk.injEq] at hout
      obtain ⟨hboundary, hmulti, rfl⟩ := hout
      obtain ⟨-, -, hconcat⟩ := symmetric_lowerings (s := ⟨g₂, symmetricOnly⟩) hg₂ rfl
      obtain ⟨-, hshared, hadds⟩ := hconcat 7 plan hplan
      have hsymmetric := hshared fun id hid => by
        have hnone := of_decide_eq_true (List.all_eq_true.mp hunshared id (hboundary ▸ hid))
        rw [ConcatPlan.sharedInterval, hmulti, hnone]
        rfl
      exact ⟨plan, s', hplan, hsymmetric, hrun, hadds hsymmetric s' hrun⟩

theorem narrow_branch_adds_zero_point :
    (joinedPair [1, 2, 4, 4] [1, 4, 4, 4] (-16 / 25) (127 / 100) : Graph Binary32).WellFormed ∧
      symmetricOnly.params.supportAsymmetric = false ∧
      Rule.concat.canApply symmetricOnly
        (joinedPair [1, 2, 4, 4] [1, 4, 4, 4] (-16 / 25) (127 / 100) : Graph Binary32)
        ⟨7, .concat, [5, 6], [8]⟩ = .ok true ∧
      ∃ s' z, exec (Rule.concat.apply ⟨7, .concat, [5, 6], [8]⟩)
          (⟨joinedPair [1, 2, 4, 4] [1, 4, 4, 4] (-16 / 25) (127 / 100), symmetricOnly⟩ :
            Session Binary32) = .ok (.ok true, s') ∧
        s'.graph.kind? 18 = some .subtract ∧ s'.graph.input? 18 1 = some ⟨17, 0⟩ ∧
        s'.graph.constantValue? ⟨17, 0⟩ = some z ∧ ¬ ∀ v ∈ z.data, Arithmetic.IsZero v := by
  generalize hdef :
    (joinedPair [1, 2, 4, 4] [1, 4, 4, 4] (-16 / 25) (127 / 100) : Graph Binary32) = g
  have hrun : (exec (Rule.concat.apply ⟨7, .concat, [5, 6], [8]⟩)
      (⟨g, symmetricOnly⟩ : Session Binary32)).map (fun out => (out.1, out.2.graph.kind? 18,
        out.2.graph.input? 18 1, (out.2.graph.constantValue? ⟨17, 0⟩).map fun z =>
          z.data.all fun v => Arithmetic.equal v Arithmetic.zero)) =
      .ok (.ok true, some .subtract, some ⟨17, 0⟩, some false) := by
    subst hdef
    decide +kernel
  obtain ⟨⟨_, s'⟩, hexec, hout⟩ := except_map_eq_ok.mp hrun
  simp only [Prod.mk.injEq, Option.map_eq_some_iff] at hout
  obtain ⟨rfl, hkind, hinput, z, hz, hall⟩ := hout
  refine ⟨hdef ▸ (Graph.assemble_ordered _).1, rfl, ?_, s', z, hexec, hkind, hinput, hz, fun h => ?_⟩
  · subst hdef
    decide +kernel
  · rw [List.all_eq_true.mpr h] at hall
    cases hall

end LowPrecision
