import LowPrecision.Proofs.Pipeline.Precisions
import LowPrecision.Proofs.Rewrite.Symmetry

/-!
Interval groups. The analyses give the fake-quantizes in front of a concatenation one interval, and no
rewrite changes it. A rewrite of a region with members of one group maps all of them onto its grid
by that interval.
-/

namespace LowPrecision

open LowPrecision.Graph

variable {α β : Type}

namespace AttributeStore

variable {s : AttributeStore α} {id : NodeId} {group : GroupId}

theorem intervalGroup?_eq_some :
    s.intervalGroup? id = some group ↔ s.get? (.node id) .intervals = some (.intervals group) := by
  rw [intervalGroup?]
  split
  · next found h =>
    rw [h]
    simp
  · next h =>
    constructor
    · intro h'
      cases h'
    · intro h'
      exact absurd h' (h group)

theorem interval?_congr {other : NodeId} (h : s.intervalRoot? id = s.intervalRoot? other) :
    s.interval? id = s.interval? other := by
  rw [intervalRoot?, intervalRoot?] at h
  rw [interval?, interval?]
  cases hid : s.intervalGroup? id with
  | none =>
    rw [hid, Option.map_none, eq_comm, Option.map_eq_none_iff] at h
    rw [h]
  | some group =>
    rw [hid, Option.map_some, eq_comm, Option.map_eq_some_iff] at h
    obtain ⟨group', hgroup', hfind⟩ := h
    rw [hgroup']
    exact SharedCells.get?_congr hfind.symm

structure Spanned (s : AttributeStore α) : Prop where
  linked : s.intervalCells.Linked
  bounded (id : NodeId) (group : GroupId) : s.intervalGroup? id = some group →
    group < s.intervalCells.size

namespace Spanned

theorem interval? (h : s.Spanned) {root : GroupId} (hroot : s.intervalRoot? id = some root) :
    ∃ i, s.interval? id = some i := by
  obtain ⟨group, hgroup, -⟩ := Option.map_eq_some_iff.mp hroot
  obtain ⟨i, hi⟩ := SharedCells.exists_get? h.linked (h.bounded id group hgroup)
  exact ⟨i, by rw [AttributeStore.interval?, hgroup]; exact hi⟩

theorem cleared (s : AttributeStore α) : (s.clear .intervals).Spanned where
  linked := SharedCells.linked_empty
  bounded id group h := by
    rw [intervalGroup?_eq_some, get?_clear, if_pos rfl] at h
    cases h

theorem of_cells {cells : SharedCells (SharedInterval α)} (h : s.Spanned) (hlinked : cells.Linked)
    (hsize : s.intervalCells.size ≤ cells.size) :
    ({ s with intervalCells := cells } : AttributeStore α).Spanned :=
  ⟨hlinked, fun id group hgroup => Nat.lt_of_lt_of_le (h.bounded id group hgroup) hsize⟩

theorem addConflict (h : s.Spanned) (conflict : AlignmentConflict) :
    (s.addConflict conflict).Spanned := ⟨h.linked, h.bounded⟩

theorem set (h : s.Spanned) {target : Target} {value : Attribute}
    (hvalue : ∀ group, value = .intervals group → group < s.intervalCells.size) :
    (s.set target value).Spanned := by
  refine ⟨h.linked, fun id group hgroup => ?_⟩
  rw [intervalGroup?_eq_some, get?_set] at hgroup
  split at hgroup
  · exact hvalue group (Option.some.inj hgroup)
  · exact h.bounded id group (intervalGroup?_eq_some.mpr hgroup)

end Spanned

end AttributeStore

namespace Markup

variable [Scalar α] {g g' : Graph α} {s s' : AttributeStore α}

theorem shareInterval_spanned {interval : SharedInterval α} {members : List NodeId}
    (hs : s.Spanned) (hrun : shareInterval interval members s = .ok s') : s'.Spanned := by
  obtain ⟨⟨group, t⟩, hmerge, hset⟩ := except_bind_eq_ok.mp hrun
  cases hset
  have hnew : (s.newInterval interval).2.Spanned ∧
      (s.newInterval interval).1 < (s.newInterval interval).2.intervalCells.size := by
    have hsize := SharedCells.size_insert s.intervalCells interval
    constructor
    · exact hs.of_cells (SharedCells.linked_insert hs.linked interval) (hsize ▸ Nat.le_succ _)
    · exact hsize ▸ Nat.lt_succ_self _
  have hmerged : t.Spanned ∧ group < t.intervalCells.size := by
    refine except_foldlM_keeps (P := fun c : GroupId × AttributeStore α =>
      c.2.Spanned ∧ c.1 < c.2.intervalCells.size) ?_ hnew hmerge
    rintro member - ⟨group, u⟩ ⟨group', u'⟩ ⟨hu, hgroup⟩ hstep
    dsimp only at hstep hu hgroup ⊢
    split at hstep
    · next existing hexisting =>
      obtain ⟨⟨root, cells⟩, hcells, hstep⟩ := except_bind_eq_ok.mp hstep
      cases hstep
      have hmerges := SharedCells.merges hu.linked (hu.bounded _ _ hexisting) hgroup hcells
      exact ⟨hu.of_cells hmerges.linked (Nat.le_of_eq hmerges.size.symm), hmerges.bounded⟩
    · cases hstep
      exact ⟨hu, hgroup⟩
  obtain ⟨ht, hgroup⟩ := hmerged
  clear hmerge hrun
  induction members generalizing t with
  | nil => exact ht
  | cons member members ih =>
    rw [List.foldl_cons]
    split
    · exact ih t ht hgroup
    · refine ih _ (ht.set ?_) hgroup
      rintro _ ⟨⟩
      exact hgroup

theorem alignIntervals_spanned (hrun : alignIntervals g = .ok g') : g'.attributes.Spanned := by
  obtain ⟨t, hfold, h⟩ := except_bind_eq_ok.mp hrun
  cases h
  refine except_foldlM_keeps (fun concat _ s s' hs hstep => ?_) (.cleared g.attributes) hfold
  split at hstep
  · exact shareInterval_spanned hs hstep
  · cases hstep
    exact hs

theorem alignParameters_spanned (hg : g.attributes.Spanned) (hrun : alignParameters g = .ok g') :
    g'.attributes.Spanned := by
  obtain ⟨t, hfold, h⟩ := except_bind_eq_ok.mp hrun
  cases h
  have hcleared : (g.attributes.clear .alignment).Spanned := by
    refine ⟨hg.linked, fun id group hgroup => hg.bounded id group ?_⟩
    rw [AttributeStore.intervalGroup?_eq_some, AttributeStore.get?_clear, if_neg (by simp)] at hgroup
    exact AttributeStore.intervalGroup?_eq_some.mpr hgroup
  refine except_foldlM_keeps (P := AttributeStore.Spanned) (fun group _ s s' hs hstep => ?_) hcleared hfold
  obtain ⟨conflict, -, hstep⟩ := except_bind_eq_ok.mp hstep
  have hset : ∀ (members : List NodeId) (cell : GroupId) (u : AttributeStore α), u.Spanned →
      (members.foldl (fun u member => u.set (.node member) (.alignment cell)) u).Spanned := by
    intro members cell
    induction members with
    | nil => exact fun u hu => hu
    | cons member members ih => exact fun u hu => ih _ (hu.set (by simp))
  have hnew : ∀ value, (s.newAlignment value).2.Spanned := fun _ => ⟨hs.linked, hs.bounded⟩
  dsimp only at hstep
  split at hstep
  · cases hstep
    exact hset _ _ _ (hnew _)
  · cases hstep
    exact (hset _ _ _ (hnew _)).addConflict _

theorem spanned_of_analyses {settings : Settings} {t t' : Session α}
    (hrun : exec (Pipeline.analyses settings) t = .ok (.ok (), t')) :
    t'.graph.attributes.Spanned := by
  obtain ⟨_, _, -, hintervals, hparameters⟩ := passes_of_analyses hrun
  exact alignParameters_spanned (alignIntervals_spanned hintervals) hparameters

end Markup

theorem Lineage.interval? {g₀ g : Graph α} {fresh : Face α → Prop} (h : Lineage g₀ fresh g)
    {f : NodeId} (hf : f < g₀.nodes.size) (hlive : g.isLive f = true) :
    g.attributes.interval? f = g₀.attributes.interval? f := by
  rw [AttributeStore.interval?, AttributeStore.interval?, AttributeStore.intervalGroup?,
    AttributeStore.intervalGroup?, h.kept (.node f) .intervals hf hlive, h.intervals]

namespace ConcatPlan

variable [Scalar α] {c : Context} {g : Graph α} {plan : ConcatPlan α} {p : ScaleZeroPoint α}

/-- Fake-quantizes with the ranges of the boundary, mapped onto the grid by one scale and zero point,
and dequantizations with those. -/
def alikeRecipe (plan : ConcatPlan α) (p : ScaleZeroPoint α) (type : ElementType) : Recipe α where
  quantizer r stored := stored = type ∧ ∃ old lows highs, old ∈ plan.ranges ∧
    old.outputBounds = .ok (lows, highs) ∧ r.levels = old.levels ∧ r.inputLow = old.inputLow ∧
    r.inputHigh = old.inputHigh ∧
    quantizeBounds plan.grid (List.replicate lows.length p) lows = .ok r.outputLow.data ∧
    quantizeBounds plan.grid (List.replicate lows.length p) highs = .ok r.outputHigh.data
  scale t := ∀ v ∈ t.data, v = p.scale
  zeroPoint t := ∀ v ∈ t.data, v = p.zeroPoint

theorem mem_data_of_perChannel {values : List α} {rank : Nat} {t : Tensor α}
    (h : Tensor.perChannel values rank = .ok t) {v : α} (hv : v ∈ t.toScalar.data) : v ∈ values := by
  have hdata : t.data = values := by
    unfold Tensor.perChannel at h
    split at h
    · cases h
      rfl
    · obtain ⟨ones, -, h⟩ := except_bind_eq_ok.mp h
      cases h
      rfl
  rw [← hdata]
  rw [Tensor.toScalar] at hv
  split at hv
  · next first rest hfirst =>
    split at hv
    · rw [List.mem_singleton.mp hv, hfirst]
      exact List.mem_cons_self
    · exact hv
  · exact hv

theorem only_of_dequantization {scale zeroPoint : α → Prop} {params : ChannelParams α} {port : Port}
    {affine : AffineParams α} (h : params.Only scale zeroPoint)
    (hdequantization : params.dequantization port = .ok affine) :
    (∀ v ∈ affine.scale.data, scale v) ∧
      ∀ t, affine.zeroPoint = some t → ∀ v ∈ t.data, zeroPoint v := by
  rw [ChannelParams.dequantization, AffineParams.ofChannels] at hdequantization
  split at hdequantization
  · obtain ⟨zero, hzero, hrest⟩ := except_bind_eq_ok.mp hdequantization
    obtain ⟨scales, hscales, hpure⟩ := except_bind_eq_ok.mp hrest
    obtain ⟨u, hu, rfl⟩ := except_map_eq_ok.mp hzero
    cases hpure
    refine ⟨fun v hv => h.scales v (mem_data_of_perChannel hscales hv), fun t ht v hv => ?_⟩
    cases ht
    exact h.zeroPoints v (mem_data_of_perChannel hu hv)
  · obtain ⟨zero, hzero, hrest⟩ := except_bind_eq_ok.mp hdequantization
    obtain ⟨scales, hscales, hpure⟩ := except_bind_eq_ok.mp hrest
    cases hzero
    cases hpure
    exact ⟨fun v hv => h.scales v (mem_data_of_perChannel hscales hv), by simp⟩

theorem Chosen.exists_params {concat : NodeId} {interval : α × α} (h : Chosen c g plan)
    (haccepted : Accepted c g concat plan)
    (hshared : ∀ id ∈ plan.region.boundary, plan.sharedInterval g id = some interval) :
    ∃ p, ScaleZeroPoint.ofInterval interval.1 interval.2 plan.grid.low plan.grid.high = .ok p := by
  obtain ⟨first, hfirst⟩ := List.exists_mem_of_ne_nil _ haccepted.boundary
  obtain ⟨k, hk⟩ := List.mem_iff_getElem?.mp hfirst
  obtain ⟨r, hr, -⟩ := forall₂_getElem? haccepted.ranges hk
  obtain ⟨branch, hbranch, -⟩ := forall₂_getElem? haccepted.branches hr
  obtain ⟨id, _, _, hid, -, -, hplanned, -⟩ := h.branch hbranch
  rw [hshared id (List.mem_of_getElem? hid)] at hplanned
  obtain ⟨_, _, _, -, ⟨p, hp, -⟩, -⟩ := planBranch_run hplanned
  exact ⟨p, hp⟩

theorem Chosen.alike {interval : α × α} (h : Chosen c g plan)
    (hshared : ∀ id ∈ plan.region.boundary, plan.sharedInterval g id = some interval)
    (hp : ScaleZeroPoint.ofInterval interval.1 interval.2 plan.grid.low plan.grid.high = .ok p) :
    (∀ branch ∈ plan.branches, branch.params.Only (· = p.scale) (· = p.zeroPoint)) ∧
      ∀ type r stored, (plan.recipe type).quantizer r stored →
        (plan.alikeRecipe p type).quantizer r stored := by
  have hbranch : ∀ {k : Nat} {branch : Branch α}, plan.branches[k]? = some branch →
      ∃ r lows highs, plan.ranges[k]? = some r ∧ r.outputBounds = .ok (lows, highs) ∧
        quantizeBounds plan.grid (List.replicate lows.length p) lows = .ok branch.low.data ∧
        quantizeBounds plan.grid (List.replicate lows.length p) highs = .ok branch.high.data ∧
        ChannelParams.ofList? (List.replicate lows.length p) = some branch.params := by
    intro k branch hk
    obtain ⟨id, r, allowed, hid, hr, -, hplanned, -⟩ := h.branch hk
    -- With a shared interval the plan of a branch no longer depends on the range of the branch.
    rw [hshared id (List.mem_of_getElem? hid)] at hplanned
    obtain ⟨lows, highs, params, hbounds, ⟨q, hq, rfl⟩, hlow, hhigh, hparams⟩ :=
      planBranch_run hplanned
    obtain rfl : p = q := Except.ok.inj (hp.symm.trans hq)
    exact ⟨r, lows, highs, hr, hbounds, hlow, hhigh, hparams⟩
  constructor
  · intro branch hmem
    obtain ⟨k, hk⟩ := List.mem_iff_getElem?.mp hmem
    obtain ⟨_, _, _, -, -, -, -, hparams⟩ := hbranch hk
    refine ChannelParams.only_of_ofList? hparams fun q hq => ?_
    rw [(List.mem_replicate.mp hq).2]
    exact ⟨rfl, rfl⟩
  · rintro type r stored ⟨htype, r₀, branch, hmem, rfl⟩
    obtain ⟨k, hk⟩ := List.mem_iff_getElem?.mp hmem
    obtain ⟨hr₀, hk⟩ := List.getElem?_zip_eq_some.mp hk
    obtain ⟨old, lows, highs, hold, hbounds, hlow, hhigh, -⟩ := hbranch hk
    obtain rfl := Option.some.inj (hr₀.symm.trans hold)
    exact ⟨htype, r₀, lows, highs, List.mem_of_getElem? hold, hbounds, rfl, rfl, rfl, hlow, hhigh⟩

end ConcatPlan

namespace Pipeline

variable [Scalar α] {s₁ s : Session α}

/-- One interval per group decides the scale and zero point of every region that holds members of the
group only. -/
theorem grouped_members_alike (settings : Settings) (g : Graph α) (hg : g.WellFormed)
    (hanalyses : exec (analyses settings) ⟨g, .start settings.params⟩ = .ok (.ok (), s₁))
    {member : NodeId} {root : GroupId} (hmember : s₁.graph.attributes.intervalRoot? member = some root) :
    ∃ interval, (∀ id, s₁.graph.attributes.intervalRoot? id = some root →
        s₁.graph.attributes.interval? id = some interval) ∧
      ∀ (s : Session α) (concat : NodeId) (plan : ConcatPlan α), Evolves s₁ s →
        ConcatPlan.ofConcat? s.context s.graph concat = .ok (some plan) → plan.multiChannel = false →
        (∀ id ∈ plan.region.boundary, s₁.graph.kind? id = some .fakeQuantize ∧
          s₁.graph.attributes.intervalRoot? id = some root) →
        ∃ p, ScaleZeroPoint.ofInterval interval.low interval.high plan.grid.low plan.grid.high = .ok p ∧
          (∀ params ∈ plan.allParams, params.Only (· = p.scale) (· = p.zeroPoint)) ∧
          ∀ s', exec plan.apply s = .ok (.ok (), s') →
            s.graph.Emits (plan.alikeRecipe p (storageType settings.params plan.grid.precision))
              s'.graph := by
  obtain ⟨interval, hinterval⟩ := (Markup.spanned_of_analyses hanalyses).interval? hmember
  have hsame : ∀ id, s₁.graph.attributes.intervalRoot? id = some root →
      s₁.graph.attributes.interval? id = some interval := by
    intro id hid
    rw [← hinterval]
    exact AttributeStore.interval?_congr (hid.trans hmember.symm)
  refine ⟨interval, hsame, fun s concat plan hevolves hplan hsingle hgroup => ?_⟩
  obtain ⟨haccepted, hchosen⟩ := ConcatPlan.planned_of_ofConcat? hplan
  have hdescends := hevolves.descends (Markup.analysed_of_analyses hg hanalyses).wellFormed
  have hshared : ∀ id ∈ plan.region.boundary,
      plan.sharedInterval s.graph id = some (interval.low, interval.high) := by
    intro id hid
    obtain ⟨n, _, hn, -⟩ := haccepted.open hid
    have hlive : s.graph.isLive id = true := by
      rw [Graph.isLive, hn]
      rfl
    obtain ⟨n₁, hn₁, -⟩ := Option.map_eq_some_iff.mp (hgroup id hid).1
    rw [ConcatPlan.sharedInterval, hsingle,
      hdescends.interval? (Graph.lt_size_of_node? hn₁) hlive, hsame id (hgroup id hid).2]
    rfl
  obtain ⟨p, hp⟩ := hchosen.exists_params haccepted hshared
  obtain ⟨honly, hquantizer⟩ := hchosen.alike hshared hp
  refine ⟨p, hp, fun params => haccepted.only honly, fun s' hrun => ?_⟩
  have hparams : s.context.params = settings.params := by
    rw [hevolves.params, (annotates_analyses hanalyses).2]
    rfl
  rw [← hparams]
  refine (ConcatPlan.apply_emits hdescends.wellFormed haccepted hrun).imp (hquantizer _) ?_ ?_
  · rintro t ⟨params, hmem, port, affine, hdequantization, rfl⟩
    exact (ConcatPlan.only_of_dequantization (haccepted.only honly hmem) hdequantization).1
  · rintro t ⟨params, hmem, port, affine, hdequantization, hzero⟩
    exact (ConcatPlan.only_of_dequantization (haccepted.only honly hmem) hdequantization).2 t hzero

theorem grouped_members_alike_of_joinedPair :
    (joinedPair [1, 2] [1, 4] (-16 / 25) (127 / 100) : Graph Binary32).WellFormed ∧
      ∃ (s₁ s' : Session Binary32) (plan : ConcatPlan Binary32) (p : ScaleZeroPoint Binary32),
        exec (analyses Settings.default)
          ⟨joinedPair [1, 2] [1, 4] (-16 / 25) (127 / 100), .start .default⟩ = .ok (.ok (), s₁) ∧
        s₁.graph.attributes.intervalRoot? 5 = some 0 ∧
        Evolves s₁ s₁ ∧ ConcatPlan.ofConcat? s₁.context s₁.graph 7 = .ok (some plan) ∧
        plan.multiChannel = false ∧
        (∀ id ∈ plan.region.boundary, s₁.graph.kind? id = some .fakeQuantize ∧
          s₁.graph.attributes.intervalRoot? id = some 0) ∧
        exec plan.apply s₁ = .ok (.ok (), s') ∧
        s₁.graph.Emits (plan.alikeRecipe p (storageType .default plan.grid.precision))
          s'.graph := by
  generalize hdef : (joinedPair [1, 2] [1, 4] (-16 / 25) (127 / 100) : Graph Binary32) = g
  have hg : g.WellFormed := hdef ▸ (Graph.assemble_ordered _).1
  have hanswers : (do
      let (outcome, s₁) ← exec (analyses Settings.default) (⟨g, .start .default⟩ : Session Binary32)
      match ← ConcatPlan.ofConcat? s₁.context s₁.graph 7 with
      | some plan =>
        let out ← exec plan.apply s₁
        return some (outcome, decide (s₁.graph.attributes.intervalRoot? 5 = some 0 ∧
          plan.multiChannel = false ∧ ∀ id ∈ plan.region.boundary,
            s₁.graph.kind? id = some .fakeQuantize ∧ s₁.graph.attributes.intervalRoot? id = some 0),
          out.1)
      | none => return none : Checked _) = .ok (some (.ok (), true, .ok ())) := by
    subst hdef
    decide +kernel
  obtain ⟨⟨outcome, s₁⟩, hanalyses, hanswers⟩ := except_bind_eq_ok.mp hanswers
  obtain ⟨found, hplan, hanswers⟩ := except_bind_eq_ok.mp hanswers
  cases found with
  | none => cases hanswers
  | some plan =>
    obtain ⟨⟨r, s'⟩, hrun, hanswers⟩ := except_bind_eq_ok.mp hanswers
    simp only [pure, Except.pure, Except.ok.injEq, Option.some.injEq, Prod.mk.injEq,
      decide_eq_true_eq] at hanswers
    obtain ⟨rfl, ⟨hmember, hsingle, hgroup⟩, rfl⟩ := hanswers
    obtain ⟨_, -, hregions⟩ := grouped_members_alike Settings.default g hg hanalyses hmember
    obtain ⟨p, -, -, halike⟩ := hregions s₁ 7 plan .refl hplan hsingle hgroup
    exact ⟨hg, s₁, s', plan, p, hanalyses, hmember, .refl, hplan, hsingle, hgroup, hrun, halike s' hrun⟩

def joinedTwice {α : Type} [Arithmetic α] : Graph α :=
  Graph.assemble [("x", .parameter, [], [⟨.f32, some [1, 2]⟩]),
    ("low", .constant (Tensor.scalar (Arithmetic.ofRat 0)), [], [⟨.f32, some []⟩]),
    ("high0", .constant (Tensor.scalar (Arithmetic.ofRat (51 / 10))), [], [⟨.f32, some []⟩]),
    ("high1", .constant (Tensor.scalar (Arithmetic.ofRat (51 / 20))), [], [⟨.f32, some []⟩]),
    ("high2", .constant (Tensor.scalar (Arithmetic.ofRat (51 / 40))), [], [⟨.f32, some []⟩]),
    ("fq0", .fakeQuantize 256, [⟨0, 0⟩, ⟨1, 0⟩, ⟨2, 0⟩, ⟨1, 0⟩, ⟨2, 0⟩], [⟨.f32, some [1, 2]⟩]),
    ("fq1", .fakeQuantize 256, [⟨0, 0⟩, ⟨1, 0⟩, ⟨3, 0⟩, ⟨1, 0⟩, ⟨3, 0⟩], [⟨.f32, some [1, 2]⟩]),
    ("fq2", .fakeQuantize 256, [⟨0, 0⟩, ⟨1, 0⟩, ⟨4, 0⟩, ⟨1, 0⟩, ⟨4, 0⟩], [⟨.f32, some [1, 2]⟩]),
    ("lower", .concat 1, [⟨5, 0⟩, ⟨6, 0⟩], [⟨.f32, some [1, 4]⟩]),
    ("upper", .concat 1, [⟨8, 0⟩, ⟨7, 0⟩], [⟨.f32, some [1, 6]⟩]),
    ("y", .result, [⟨9, 0⟩], [])]

theorem nested_group_lowers_apart :
    (joinedTwice : Graph Binary32).Regular ∧
      ∃ s₁ s₂ s₃ : Session Binary32,
        exec (analyses Settings.default) ⟨joinedTwice, .start .default⟩ = .ok (.ok (), s₁) ∧
        [5, 6, 7, 8, 9].map s₁.graph.attributes.intervalRoot? = List.replicate 5 (some 0) ∧
        [5, 6, 7].map s₁.graph.attributes.isAligned = [true, true, true] ∧
        s₁.graph.attributes.conflicts = [] ∧
        [8, 9].map (fun c => (Region.around s₁.graph c).map (ConcatPlan.keepsScales s₁.graph)) =
          [.ok false, .ok false] ∧
        exec (sweep Rule.forKind) s₁ = .ok (.ok 1, s₂) ∧
        exec (sweep Rule.forKind) s₂ = .ok (.ok 2, s₃) ∧
        [5, 6, 7].map s₃.graph.kind? = [none, none, none] ∧
        [13, 16, 22].map s₃.graph.kind? = List.replicate 3 (some .fakeQuantize) ∧
        [13, 16, 22].map s₃.graph.name? = [some "fq0", some "fq1", some "fq2"] ∧
        (s₃.graph.node? 26).map Node.inputs = some [⟨8, 0⟩, ⟨18, 0⟩] ∧
        (s₃.graph.node? 25).map Node.inputs = some [⟨23, 0⟩, ⟨24, 0⟩] ∧
        [18, 24].map (fun scale => (s₃.graph.constant? ⟨scale, 0⟩).map Tensor.data) =
          [some [Arithmetic.ofRat (1 / 50)], some [Arithmetic.ofRat (1 / 200)]] := by
  generalize hdef : (joinedTwice : Graph Binary32) = g
  have hanswers : (do
      let (outcome, s₁) ← exec (analyses Settings.default) (⟨g, .start .default⟩ : Session Binary32)
      let (first, s₂) ← exec (sweep Rule.forKind) s₁
      let (second, s₃) ← exec (sweep Rule.forKind) s₂
      return (outcome, first, second, decide (
        [5, 6, 7, 8, 9].map s₁.graph.attributes.intervalRoot? = List.replicate 5 (some 0) ∧
        [5, 6, 7].map s₁.graph.attributes.isAligned = [true, true, true] ∧
        s₁.graph.attributes.conflicts = [] ∧
        [8, 9].map (fun c => (Region.around s₁.graph c).map (ConcatPlan.keepsScales s₁.graph)) =
          [.ok false, .ok false] ∧
        [5, 6, 7].map s₃.graph.kind? = [none, none, none] ∧
        [13, 16, 22].map s₃.graph.kind? = List.replicate 3 (some .fakeQuantize) ∧
        [13, 16, 22].map s₃.graph.name? = [some "fq0", some "fq1", some "fq2"] ∧
        (s₃.graph.node? 26).map Node.inputs = some [⟨8, 0⟩, ⟨18, 0⟩] ∧
        (s₃.graph.node? 25).map Node.inputs = some [⟨23, 0⟩, ⟨24, 0⟩] ∧
        [18, 24].map (fun scale => (s₃.graph.constant? ⟨scale, 0⟩).map Tensor.data) =
          [some [Arithmetic.ofRat (1 / 50)], some [Arithmetic.ofRat (1 / 200)]])) : Checked _) =
        .ok (.ok (), .ok 1, .ok 2, true) := by
    subst hdef
    decide +kernel
  obtain ⟨⟨outcome, s₁⟩, hanalyses, hanswers⟩ := except_bind_eq_ok.mp hanswers
  obtain ⟨⟨first, s₂⟩, hfirst, hanswers⟩ := except_bind_eq_ok.mp hanswers
  obtain ⟨⟨second, s₃⟩, hsecond, hanswers⟩ := except_bind_eq_ok.mp hanswers
  simp only [pure, Except.pure, Except.ok.injEq, Prod.mk.injEq, decide_eq_true_eq] at hanswers
  obtain ⟨rfl, rfl, rfl, hroots, haligned, hconflicts, hscales, hlowered⟩ := hanswers
  refine ⟨?_, s₁, s₂, s₃, hanalyses, hroots, haligned, hconflicts, hscales, hfirst, hsecond, hlowered⟩
  subst hdef
  exact Graph.assemble_regular (by decide)

end Pipeline

end LowPrecision
