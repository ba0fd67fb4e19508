import LowPrecision.Proofs.Rewrite.Emission

namespace LowPrecision

open LowPrecision.Graph

variable {α : Type} {g₀ g g' : Graph α} {s s' : Session α} {id : NodeId}

namespace Graph.WellFormed

theorem input_of_readers {n : Node α} (h : g.WellFormed) (hn : g.node? id = some n) {index : Nat}
    {r : Slot} (hr : r ∈ n.readers index) : g.input? r.node r.index = some ⟨id, index⟩ := by
  refine h.mem_readers.mp ?_
  rw [readers, hn]
  exact hr

end Graph.WellFormed

theorem ranged_of_ofNode {r : Ranges α} (h : Ranges.ofNode g id = .ok r) {f : Face α}
    (hf : g.face? id = some f) : f.op = .fakeQuantize r.levels ∧ g.Ranged f r := by
  obtain ⟨n, data, low, high, outLow, outHigh, rest, hn, hop, hin, hlow, hhigh, hout, hend, -⟩ :=
    Ranges.ofNode_eq_ok.mp h
  obtain rfl := Option.some.inj ((face?_eq_some.mpr ⟨n, hn, rfl⟩).symm.trans hf)
  refine ⟨hop, ?_, ?_, ?_, ?_⟩ <;> simpa [Node.face, hin]

section Decomposition

open Decomposition

variable [Scalar α]

def Decomposition.Lowering.recipe (p : Lowering α) (affine : AffineParams α) (type : ElementType) :
    Recipe α where
  quantizer r stored := stored = type ∧ r.levels = p.ranges.levels ∧
    r.inputLow = p.ranges.inputLow ∧ r.inputHigh = p.ranges.inputHigh ∧
    quantizeBounds p.grid p.params p.lows = .ok r.outputLow.data ∧
    quantizeBounds p.grid p.params p.highs = .ok r.outputHigh.data
  scale t := t = affine.scale
  zeroPoint t := affine.zeroPoint = some t

theorem Decomposition.Lowering.recipe_admits (p : Lowering α) (affine : AffineParams α)
    (type : ElementType) : (p.recipe affine type).Admits affine := ⟨rfl, fun _ h => h⟩

namespace Decomposition

variable {p : Lowering α} {type : ElementType}

theorem addSource_emits (affine : AffineParams α) {name : String} {weights : Option (Tensor α)} {source : Slot}
    (hg : g.WellFormed) (hid : Ranges.ofNode g id = .ok p.ranges)
    (hrun : exec (addSource id name p type weights) g = .ok (.ok source, g')) :
    Emits (p.recipe affine type) g g' ∧ g.nodes.size ≤ source.node ∧
      Extends g g' (fun _ => True) := by
  cases weights with
  | some weights =>
    obtain ⟨folded, -, rfl, hadded⟩ := addSource_some hg hrun
    have hextends : Extends g g' (fun _ => True) := hadded.extends (by simp) (by simp)
    exact ⟨(Emits.refl hg).added ((Lineage.refl hg).added Face.stable_true hadded trivial) hadded
      (.of_kind (by rintro ⟨⟩) (by rintro ⟨⟩) (by rintro ⟨⟩)), Nat.le_refl _, hextends⟩
  | none =>
    rw [addSource] at hrun
    obtain ⟨newLow, k, hrunLow, hrun₁⟩ := exec_bind_eq_answer.mp hrun
    obtain ⟨newHigh, k', hrunHigh, hrun₂⟩ := exec_bind_eq_answer.mp hrun₁
    obtain ⟨hnewLow, rfl⟩ := bound_done hrunLow
    obtain ⟨hnewHigh, rfl⟩ := bound_done hrunHigh
    obtain ⟨v, k₁, hadd, hpure⟩ := exec_bind_eq_answer.mp hrun₂
    cases hpure
    obtain ⟨_, _, _, _, _, _, _, -, -, -, -, -, hdoubled⟩ := addFakeQuantize_done hg hadd
    have hquantizer : (p.recipe affine type).quantizer
        ⟨p.ranges.levels, p.ranges.inputLow, p.ranges.inputHigh, newLow, newHigh⟩ type :=
      ⟨rfl, rfl, rfl, rfl, hnewLow, hnewHigh⟩
    have hemits := Edit.emits_addFakeQuantize hquantizer (.refl hg) (fun _ => ranged_of_ofNode hid) hadd
    refine ⟨hemits.1, hemits.2.2.1, ?_⟩
    exact ⟨hdoubled.wellFormed, hdoubled.size, hdoubled.old,
      fun v f hv hf s hs => ⟨fun _ => trivial, (hdoubled.inputs v f hv hf s hs).2⟩, hdoubled.name,
      hdoubled.attributes⟩

theorem decompose_emits {d : Dequantization α} (hg : s.graph.WellFormed)
    (hrun : exec (decompose id) s = .ok (.ok d, s')) :
    ∃ (p : Lowering α) (affine : AffineParams α),
      Ranges.ofNode s.graph id = .ok p.ranges ∧
      p.ranges.outputBounds = .ok (p.lows, p.highs) ∧
      (Grid.select p.lows p.highs p.ranges.levels (Markup.allowedPrecisions s.graph id)).run =
        .ok (.ok (some p.grid)) ∧
      channelParams p.grid p.lows p.highs = .ok p.params ∧
      (affineParams p.ranges.boundsShape p.params).run = .ok (.ok affine) ∧ d.params = affine ∧
      Emits (p.recipe affine (storageType s.context.params p.grid.precision)) s.graph s'.graph := by
  obtain ⟨p, affine, type, name, hranges, hbounds, hselect, hparams, haffine, rfl, hlower⟩ :=
    decompose_run hrun
  refine ⟨p, affine, hranges, hbounds, hselect, hparams, haffine, ?_⟩
  obtain ⟨n, data, low, high, outLow, outHigh, rest, hn, hop, hin, -⟩ :=
    Ranges.ofNode_eq_ok.mp hranges
  have hdata : n.input? 0 = some data := by simp [Node.input?, hin]
  have hkind : s.graph.kind? id = some .fakeQuantize := by
    rw [kind?, hn, Option.map_some, Node.kind, hop]
    rfl
  obtain ⟨source, g₁, hsource, hplace⟩ := lower_run hn hdata hlower
  obtain ⟨hemits, hnew, hextends⟩ := addSource_emits affine hg hranges hsource
  obtain ⟨g₂, hinsert, hreplace⟩ := place_run hplace
  have hkind₁ : g₁.kind? id = some .fakeQuantize := hextends.kind hkind
  have hslots : ∀ r ∈ n.readers 0, ∃ t, g₁.input? r.node r.index = some t ∧
      ¬ g₁.Fixed s.graph.nodes.size s.graph.nodes.size r.node t := by
    intro r hr
    refine ⟨⟨id, 0⟩, hextends.input (hg.input_of_readers hn hr), ?_⟩
    rintro (⟨hle, -⟩ | ⟨-, -, hk⟩)
    · exact absurd (lt_size_of_node? hn) (Nat.not_lt.mpr hle)
    · cases hkind₁.symm.trans hk
  have hemits₂ := (Dequantization.emits_insert source (n.readers 0) (p.recipe_admits affine _) n.name
    g₁ _ g₂ ⟨hemits, hslots⟩ hinsert).1 d rfl
  have houtput := ((Edit.ensures_insert Face.stable_true (fun _ _ _ => trivial) source (n.readers 0)
    affine n.name g₁ _ g₂ hemits.descends hinsert).1 d rfl).2
  obtain ⟨-, mid, -, hinserted⟩ := Dequantization.insert_done hemits.descends.wellFormed hinsert
  refine ⟨?_, (Edit.emits_replaceNode (by decide) ?_ g₂ _ _
    ⟨hemits₂, hinserted.kind hkind₁⟩ (exec_adapt_eq_ok.mpr hreplace)).1 () rfl⟩
  · rw [Dequantization.params, hinserted.built.scale, hinserted.built.zeroPoint]
    rfl
  · rcases successor_eq (s.graph.constant? data) source d with hsame | ⟨t, hmultiply⟩
    · rwa [hsame]
    · rwa [Dequantization.output_of_multiply hmultiply] at houtput

end Decomposition

end Decomposition

theorem Face.stable_kind_ne (k : OpKind) : Face.Stable (fun f : Face α => f.kind ≠ k) := by
  intro f f' hop _ h
  rwa [← show f'.kind = f.kind from congrArg Op.kind hop] at h

namespace ConcatPlan

variable {q : Recipe α} {type : ElementType}

def Lowers (q : Recipe α) (type : ElementType) (g₀ : Graph α) (b : NodeId × Branch α) : Prop :=
  b.1 < g₀.nodes.size ∧ ∃ r : Ranges α,
    (∀ f, g₀.face? b.1 = some f → f.op = .fakeQuantize r.levels ∧ g₀.Ranged f r) ∧
      q.quantizer ⟨r.levels, r.inputLow, r.inputHigh, b.2.low, b.2.high⟩ type

theorem Lowers.kind {b : NodeId × Branch α} (h : Lowers q type g₀ b) (hg : g₀.Descends g)
    {k : OpKind} (hk : g.kind? b.1 = some k) : k = .fakeQuantize := by
  obtain ⟨f, hf, rfl⟩ := face_of_kind (hg.kind h.1 hk)
  obtain ⟨r, hr, -⟩ := h.2
  exact congrArg Op.kind (hr f hf).1

structure Lowered (q : Recipe α) (g₀ g g' : Graph α) (branches : List (NodeId × Branch α))
    (lowered : List (String × NodeId × ChannelParams α)) : Prop where
  emits : Emits q g₀ g'
  entry (e : String × NodeId × ChannelParams α) : e ∈ lowered →
    g₀.nodes.size ≤ e.2.1 ∧ e.2.1 < g'.nodes.size ∧
      (∀ k, g'.kind? e.2.1 = some k → k = .fakeQuantize) ∧ ∃ b ∈ branches, e.2.2 = b.2.params
  all (v : NodeId) : g₀.nodes.size ≤ v → g'.kind? v = some .fakeQuantize →
    g.kind? v = some .fakeQuantize ∨ ∃ e ∈ lowered, e.2.1 = v

theorem lowerBoundary_emits {branches : List (NodeId × Branch α)}
    (hbranches : ∀ b ∈ branches, Lowers q type g₀ b) (hg : Emits q g₀ s.graph)
    (hsteady : Steady 0 g₀.nodes.size g₀ s.graph)
    {lowered : List (String × NodeId × ChannelParams α)}
    (hrun : exec (lowerBoundary type branches) s = .ok (.ok lowered, s')) :
    Lowered q g₀ s.graph s'.graph branches lowered := by
  induction branches generalizing s lowered with
  | nil =>
    cases hrun
    exact ⟨hg, by simp, fun _ _ hk => .inl hk⟩
  | cons b rest ih =>
    obtain ⟨id, branch⟩ := b
    obtain ⟨hid, r, hr, hquantizer⟩ := hbranches (id, branch) List.mem_cons_self
    have hrest : ∀ b ∈ rest, Lowers q type g₀ b := fun b hb => hbranches b (List.mem_cons_of_mem _ hb)
    obtain ⟨n, v, g₁, s₁, below, -, hadd, hreplace, hbelow, rfl⟩ := lowerBoundary_cons hrun
    have hranged : ∀ f, s.graph.face? id = some f →
        f.op = .fakeQuantize r.levels ∧ s.graph.Ranged f r := by
      intro f hf
      obtain ⟨f₀, hf₀, hop, -⟩ := hsteady.face id f hid hf
      obtain ⟨hlevels, hread⟩ := hr f₀ hf₀
      exact ⟨hop.trans hlevels,
        hsteady.ranged (Nat.zero_le _) hf₀ hf (congrArg Op.kind hlevels) hread⟩
    obtain ⟨hg₁, -, hv, hk, hsteady₁, -, hold, hnew⟩ :=
      Edit.emits_addFakeQuantize hquantizer hg hranged hadd
    have hv₀ : g₀.nodes.size ≤ v := Nat.le_trans hg.descends.size hv
    have hg₂ : Emits q g₀ s₁.graph := (Edit.emits_replaceNode (by decide) hv₀ _ _ _ ⟨hg₁, hold⟩
      (exec_adapt_eq_ok.mpr hreplace)).1 () rfl
    obtain ⟨-, hrerouted, hsize, -⟩ := replaceNode_rerouted hg₁.descends.wellFormed hreplace
    have hsteady₂ : Steady 0 g₀.nodes.size g₁ s₁.graph := by
      refine .of_rerouted hrerouted ?_
      rintro t t' ⟨rfl, -⟩
      rw [hold]
      exact ⟨by decide, by decide⟩
    have hbelow' := ih hrest hg₂ ((hsteady.trans hsteady₁).trans hsteady₂) hbelow
    have hdescends : s₁.graph.Descends s'.graph := by
      refine (ensures_lowerBoundary (Face.admits_true type) rest (fun b hb => ?_) s₁ _ s'
        (.refl hg₂.descends.wellFormed) hbelow).1 below rfl
      refine ⟨Nat.lt_of_lt_of_le (hrest b hb).1 hg₂.descends.size, fun f hf => ?_⟩
      exact (hrest b hb).kind hg₂.descends (by rw [kind?_eq_face, hf]; rfl)
    have hlt : v < g₁.nodes.size := by
      obtain ⟨f, hf, -⟩ := face_of_kind hk
      exact lt_size_of_face? hf
    have hlt₁ : v < s₁.graph.nodes.size := hsize ▸ hlt
    refine ⟨hbelow'.emits, fun e he => ?_, fun u hu hku => ?_⟩
    · rcases List.mem_cons.mp he with rfl | he
      · refine ⟨hv₀, Nat.lt_of_lt_of_le hlt₁ hdescends.size, fun k hk' => ?_,
          (id, branch), List.mem_cons_self, rfl⟩
        exact Option.some.inj ((hrerouted.kind hlt (hdescends.kind hlt₁ hk')).symm.trans hk)
      · obtain ⟨hnew, hlt, hkind, b, hb, hparams⟩ := hbelow'.entry e he
        exact ⟨hnew, hlt, hkind, b, List.mem_cons_of_mem _ hb, hparams⟩
    · rcases hbelow'.all u hu hku with hku₁ | ⟨e, he, rfl⟩
      · obtain ⟨f, hf, -⟩ := face_of_kind hku₁
        have hkind := hrerouted.kind (hsize ▸ lt_size_of_face? hf) hku₁
        rcases Nat.lt_or_ge u s.graph.nodes.size with hlt' | hge
        · exact .inl (hsteady₁.kind hlt' hkind)
        · exact .inr ⟨_, List.mem_cons_self, (hnew u hge hkind).symm⟩
      · exact .inr ⟨e, List.mem_cons_of_mem _ he, rfl⟩

def Follows (q : Recipe α) (g₀ g₁ g : Graph α) : Prop :=
  Emits q g₀ g ∧ Lineage g₁ (fun f => f.kind ≠ .fakeQuantize) g

theorem emits_retypeLayers {g₁ : Graph α} {layers : List NodeId} (hsize : g₀.nodes.size ≤ g₁.nodes.size)
    (hlayers : ∀ id ∈ layers, id < g₀.nodes.size) :
    Ensures (Follows q g₀ g₁) (fun _ => Follows q g₀ g₁) Fatal
      (retypeLayers (α := α) type layers) := by
  have hstable : Face.Stable (fun f : Face α => f.kind ≠ .fakeQuantize) := Face.stable_kind_ne _
  refine .and (.forM fun id hid => ?_) (ensures_retypeLayers hstable fun id hid =>
    Nat.lt_of_lt_of_le (hlayers id hid) hsize)
  refine (Edit.ensures_node id).left.bind fun n => .forM ?_
  refine fun index _ => Edit.ensures_step fun g g' hg hrun => ?_
  obtain ⟨-, hrecast⟩ := setOutputType_done hg.descends.wellFormed hrun
  have hsame : ∀ v (f : Face α), (if v = id then f.retype index type else f).inputs = f.inputs ∧
      (if v = id then f.retype index type else f).op = f.op := by
    intro v f
    split <;> exact ⟨rfl, rfl⟩
  have hdescends : g₀.Descends g' := hg.descends.recast Face.stable_true hrecast fun v f _ => by
    split
    · next hv => exact ⟨rfl, .inr (hv ▸ hlayers id hid)⟩
    · exact ⟨rfl, .inl rfl⟩
  refine hg.step hdescends (.of_recast hrecast (fun v f => (hsame v f).2)
    fun v f i t _ hi _ => (hsame v f).1 ▸ hi) (fun v f f' hv hf hf' => ?_) fun v f hv hf => ?_
  · rw [hrecast.face, hf, Option.map_some, Option.some.injEq] at hf'
    rw [← hf', if_neg fun he : v = id => Nat.not_lt.mpr hv (he ▸ hlayers id hid)]
  · exact absurd (lt_size_of_face? hf) (Nat.not_lt.mpr (hrecast.size ▸ hv))

variable [Scalar α]

theorem emits_dequantizeBehind {g₁ : Graph α} {inside : Region} {p : ChannelParams α}
    (hq : ∀ port params, p.dequantization port = .ok params → q.Admits params)
    (hid : id < g₀.nodes.size ∨ id < g₁.nodes.size ∧
      ∀ k, g₁.kind? id = some k → k = .fakeQuantize)
    (hinside : ∀ v, g₀.nodes.size ≤ v → g₁.kind? v = some .fakeQuantize → v ∈ inside.members) :
    Ensures (Follows q g₀ g₁) (fun _ => Follows q g₀ g₁) Fatal (dequantizeBehind inside id p) := by
  have hstable : Face.Stable (fun f : Face α => f.kind ≠ .fakeQuantize) := Face.stable_kind_ne _
  have hchain : ∀ (g : Graph α) f, g.IsChainStep f → f.kind ≠ .fakeQuantize := by
    intro g f hstep hk
    have hplain := hstep.isStep.1
    rw [hk] at hplain
    simp [IsStep] at hplain
  refine (Edit.ensures_node id).left.bind fun n => .forM ?_
  intro index _
  refine (Edit.ensures_read (Region.readersOutside · inside ⟨id, index⟩)).bind fun readers => ?_
  split
  rotate_left
  · exact .pure fun _ h => h.1
  refine (Edit.ensures_port ⟨id, index⟩).left.bind fun port => ?_
  refine ((Ensures.lift _).weaken (fun _ h => h) fun _ _ h => ⟨h.2, h.1⟩).bind fun params => .of_fact
    fun hparams => ?_
  suffices hinsert : Ensures (fun g => Follows q g₀ g₁ g ∧
      readers = Region.readersOutside g inside ⟨id, index⟩) (fun _ g => Follows q g₀ g₁ g) Fatal
      (Dequantization.insert ⟨id, index⟩ readers params n.name) from hinsert.discard fun _ _ h => h
  rintro g r g' ⟨⟨hg, hlineage⟩, hreaders⟩ hrun
  have hlater := Edit.ensures_insert hstable hchain ⟨id, index⟩ readers params n.name g r g' hlineage
    hrun
  refine ⟨fun d hd => ⟨?_, (hlater.1 d hd).1⟩, hlater.2⟩
  refine (Dequantization.emits_insert ⟨id, index⟩ readers (hq port params hparams) n.name g r g'
    ⟨hg, fun reader hr => ⟨⟨id, index⟩, ?_, ?_⟩⟩ hrun).1 d hd
  · rw [hreaders] at hr
    exact hg.descends.wellFormed.mem_readers.mp (List.mem_filter.mp hr).1
  · -- A slot that must not move belongs to a chain step or to a new fake-quantize; these are
    rintro (⟨hnew, hk⟩ | ⟨hnew, hk, -⟩)
    · obtain ⟨hlt, hquantizer⟩ := hid.resolve_left (Nat.not_lt.mpr hnew)
      have hkind : ∀ {k : OpKind}, g.kind? id = some k → k = .fakeQuantize := fun hk =>
        hquantizer _ (hlineage.kind hlt hk)
      rcases hk with hk | hk <;> cases hkind hk
    · have hlt : reader.node < g₁.nodes.size := by
        obtain ⟨f, hf, hfk⟩ := face_of_kind hk
        exact Nat.lt_of_not_le fun hge => hlineage.fresh _ f hge hf hfk
      rw [hreaders] at hr
      have houtside := (List.mem_filter.mp hr).2
      have hmember := hinside _ hnew (hlineage.kind hlt hk)
      simp [Region.contains, hmember] at houtside

def allParams (plan : ConcatPlan α) : List (ChannelParams α) :=
  plan.layers.map Prod.snd ++ plan.branches.map Branch.params

def recipe (plan : ConcatPlan α) (type : ElementType) : Recipe α where
  quantizer r stored := stored = type ∧ ∃ r₀ branch, (r₀, branch) ∈ plan.ranges.zip plan.branches ∧
    r = ⟨r₀.levels, r₀.inputLow, r₀.inputHigh, branch.low, branch.high⟩
  scale t := ∃ p ∈ plan.allParams, ∃ port affine, p.dequantization port = .ok affine ∧ affine.scale = t
  zeroPoint t := ∃ p ∈ plan.allParams, ∃ port affine, p.dequantization port = .ok affine ∧
    affine.zeroPoint = some t

theorem recipe_admits {plan : ConcatPlan α} {p : ChannelParams α} (hp : p ∈ plan.allParams)
    (type : ElementType) {port : Port} {params : AffineParams α}
    (h : p.dequantization port = .ok params) : (plan.recipe type).Admits params :=
  ⟨⟨p, hp, port, params, h, rfl⟩, fun _ hz => ⟨p, hp, port, params, h, hz⟩⟩

theorem Chosen.branch {c : Context} {g : Graph α} {plan : ConcatPlan α} (h : Chosen c g plan)
    {k : Nat} {branch : Branch α} (hbranch : plan.branches[k]? = some branch) :
    ∃ id r allowed, plan.region.boundary[k]? = some id ∧ plan.ranges[k]? = some r ∧
      readBoundary? c g id = some (r, allowed) ∧
      planBranch plan.grid r (plan.sharedInterval g id) = .ok (some branch) ∧
      Grid.bounds plan.grid.precision r.levels = .ok (plan.grid.low, plan.grid.high) := by
  obtain ⟨first, firstAllowed, rest, hread, hranges, hsame, hselect⟩ := h.grid
  obtain ⟨⟨r, shared⟩, hentry, hplanned⟩ := forall₂_getElem? h.branches.flip hbranch
  obtain ⟨hr, hshared⟩ := List.getElem?_zip_eq_some.mp hentry
  rw [List.getElem?_map, Option.map_eq_some_iff] at hshared
  obtain ⟨id, hid, rfl⟩ := hshared
  obtain ⟨⟨r', allowed⟩, hsecond, hboundary⟩ := forall₂_getElem? hread hid
  obtain rfl : r' = r := by
    rw [hranges, List.getElem?_map, hsecond] at hr
    exact Option.some.inj hr
  refine ⟨id, r', allowed, hid, hr, hboundary, hplanned, ?_⟩
  have hlevels : r'.levels = first.levels := by
    rcases List.mem_cons.mp (List.mem_of_getElem? hsecond) with heq | hrest
    · rw [(Prod.mk.inj heq).1]
    · exact hsame _ hrest
  rw [hlevels]
  exact bounds_of_select hselect

theorem Accepted.only {c : Context} {g : Graph α} {concat : NodeId} {plan : ConcatPlan α}
    {scale zeroPoint : α → Prop} (h : Accepted c g concat plan)
    (hbranches : ∀ branch ∈ plan.branches, branch.params.Only scale zeroPoint) {p : ChannelParams α}
    (hp : p ∈ plan.allParams) : p.Only scale zeroPoint := by
  rcases List.mem_append.mp hp with hp | hp
  · obtain ⟨layer, hlayer, rfl⟩ := List.mem_map.mp hp
    refine (derives_of_paramsOf ((layerParams_eq_ok h.layers).2 layer hlayer)).only fun b hb => ?_
    obtain ⟨branch, hbranch, hparams⟩ := List.mem_map.mp (List.of_mem_zip hb).2
    exact hparams ▸ hbranches branch hbranch
  · obtain ⟨branch, hbranch, rfl⟩ := List.mem_map.mp hp
    exact hbranches branch hbranch

theorem apply_emits {concat : NodeId} {plan : ConcatPlan α} (hg : s.graph.WellFormed)
    (hplan : Accepted s.context s.graph concat plan)
    (hrun : exec plan.apply s = .ok (.ok (), s')) :
    Emits (plan.recipe (storageType s.context.params plan.grid.precision)) s.graph s'.graph := by
  obtain ⟨lowered, s₁, s₂, hlower, hrework, hgraph⟩ := apply_run hrun
  rw [hgraph]
  generalize storageType s.context.params plan.grid.precision = type at hlower hrework
  have hbranches : ∀ b ∈ plan.region.boundary.zip plan.branches,
      Lowers (plan.recipe type) type s.graph b := by
    intro b hb
    obtain ⟨i, hi⟩ := List.mem_iff_getElem?.mp hb
    obtain ⟨hid, hbranch⟩ := List.getElem?_zip_eq_some.mp hi
    obtain ⟨r, hr, allowed, hread⟩ := forall₂_getElem? hplan.ranges hid
    obtain ⟨n, hn, -, hranges, -⟩ := readBoundary?_eq_some hread
    refine ⟨lt_size_of_node? hn, r, fun f hf => ranged_of_ofNode hranges hf, rfl, r, b.2, ?_, rfl⟩
    exact List.mem_of_getElem? (List.getElem?_zip_eq_some.mpr ⟨hr, hbranch⟩)
  obtain ⟨hemits, hentry, hall⟩ := lowerBoundary_emits hbranches (.refl hg) (.refl hg) hlower
  have hnone : ∀ v, s.graph.nodes.size ≤ v → s₁.graph.kind? v = some .fakeQuantize →
      ∃ e ∈ lowered, e.2.1 = v := fun v hv hk => (hall v hv hk).resolve_left fun hk => by
    obtain ⟨f, hf, -⟩ := face_of_kind hk
    exact Nat.not_lt.mpr hv (lt_size_of_face? hf)
  obtain ⟨hids, -⟩ := layerParams_eq_ok hplan.layers
  have hlayer : ∀ e ∈ plan.layers, e.1 < s.graph.nodes.size := fun e he =>
    (hplan.reads (hids ▸ List.mem_map.mpr ⟨e, he, rfl⟩)).1
  have hknown : ∀ e ∈ plan.layers ++ lowered.map Prod.snd, e.2 ∈ plan.allParams ∧
      (e.1 < s.graph.nodes.size ∨ e.1 < s₁.graph.nodes.size ∧
        ∀ k, s₁.graph.kind? e.1 = some k → k = .fakeQuantize) := by
    intro e he
    rcases List.mem_append.mp he with he | he
    · exact ⟨List.mem_append_left _ (List.mem_map.mpr ⟨e, he, rfl⟩), .inl (hlayer e he)⟩
    · obtain ⟨entry, hmem, rfl⟩ := List.mem_map.mp he
      obtain ⟨-, hlt, hkind, b, hb, hparams⟩ := hentry entry hmem
      refine ⟨List.mem_append_right _ (List.mem_map.mpr ⟨b.2, ?_, hparams.symm⟩), .inr ⟨hlt, hkind⟩⟩
      exact (List.of_mem_zip hb).2
  have hstart : Follows (plan.recipe type) s.graph s₁.graph s₁.graph :=
    ⟨hemits, .refl hemits.descends.wellFormed⟩
  refine ((ensures_rework (p := Follows (plan.recipe type) s.graph s₁.graph) (fun ids hids => ?_)
    (fun e he => ?_) s₁ _ s₂ hstart hrework).1 () rfl).1
  · exact emits_retypeLayers hemits.descends.size fun id hid => (hplan.reads (hids id hid)).1
  · obtain ⟨hp, hid⟩ := hknown e he
    refine emits_dequantizeBehind (fun _ _ => recipe_admits hp type) hid fun v hv hk => ?_
    obtain ⟨e, he, rfl⟩ := hnone v hv hk
    refine List.mem_append_left _ (List.mem_map.mpr ⟨e.2, List.mem_append_right _ ?_, rfl⟩)
    exact List.mem_map.mpr ⟨e, he, rfl⟩

end ConcatPlan

end LowPrecision
