import LowPrecision.Proofs.Graph.BoundedWalks
import LowPrecision.Proofs.Graph.Ranks
import LowPrecision.Proofs.Rewrite.Layers

/-!
When a rewritten region computes the same values. The boundary is dequantized either before the
layers or behind each of them; both agree under conditions that can be read off the layers and the
parameters that the plan gives them.
-/

namespace LowPrecision

namespace ChannelParams

def scaleAt (p : ChannelParams Rat) (c : Nat) : Rat := channelValue p.scales c

def zeroPointAt (p : ChannelParams Rat) (c : Nat) : Rat := channelValue p.zeroPoints c

def Agree (p : ChannelParams Rat) (c c' : Nat) : Prop :=
  p.scaleAt c = p.scaleAt c' ∧ (p.scaleAt c = 0 ∨ p.zeroPointAt c = p.zeroPointAt c')

theorem agree_iff {p : ChannelParams Rat} {c c' : Nat} :
    p.Agree c c' ↔ ∀ x, p.value c x = p.value c' x := by
  simp only [Agree, scaleAt, zeroPointAt, value]
  constructor
  · rintro ⟨hscale, hzero | hzero⟩ x
    · rw [← hscale, hzero, mul_zero, mul_zero]
    · rw [hscale, hzero]
  · intro h
    have h0 := h 0
    have h1 := h 1
    have hscale : channelValue p.scales c = channelValue p.scales c' := by linarith
    refine ⟨hscale, ?_⟩
    rw [← hscale] at h0
    have hprod : channelValue p.scales c *
        (channelValue p.zeroPoints c - channelValue p.zeroPoints c') = 0 := by
      linear_combination -h0
    rcases mul_eq_zero.mp hprod with hzero | hzero
    · exact .inl hzero
    · exact .inr (sub_eq_zero.mp hzero)

def FixesZero (p : ChannelParams Rat) (c : Nat) : Prop :=
  0 ≤ p.scaleAt c ∧ (p.scaleAt c = 0 ∨ p.zeroPointAt c = 0)

theorem fixesZero_iff {p : ChannelParams Rat} {c : Nat} :
    p.FixesZero c ↔ ∀ x, max 0 (p.value c x) = p.value c (max 0 x) :=
  Geometry.max_zero_affine_iff.symm

def boundary (p : ChannelParams Rat) (r : Ranges Rat) : AffineParams Rat :=
  if p.isSingle then ⟨⟨[], p.scales⟩, some ⟨[], p.zeroPoints⟩⟩
  else ⟨⟨r.boundsShape, p.scales⟩, some ⟨r.boundsShape, p.zeroPoints⟩⟩

def LiesAlongChannels (p : ChannelParams Rat) (r : Ranges Rat) (shape : List Nat) : Prop :=
  2 ≤ shape.length ∧
    padShape shape.length r.boundsShape = channelShape shape.length p.scales.length ∧
    shape[1]? = some p.scales.length

theorem value?_boundary {p : ChannelParams Rat} {r : Ranges Rat} {shape : List Nat} {i : Index}
    (hp : p.Balanced) (h : p.isSingle = true ∨ p.LiesAlongChannels r shape) (hi : i.Inside shape)
    (x : Rat) : (p.boundary r).value? i x = some (p.value i.channel x) := by
  by_cases hsingle : p.isSingle = true
  · have hscales : p.scales.length = 1 := by simpa [isSingle] using hsingle
    obtain ⟨s, hs⟩ := List.length_eq_one_iff.mp hscales
    obtain ⟨z, hz⟩ := List.length_eq_one_iff.mp (hp.symm.trans hscales)
    rw [value_of_isSingle hp hsingle i.channel 0 x, boundary, if_pos hsingle]
    simp [AffineParams.value?, Tensor.spread?, Tensor.place, value, channelValue, hs, hz]
  · obtain ⟨hrank, hpad, hchannels⟩ := h.resolve_left hsingle
    have hlength : i.length = shape.length := hi.length_eq
    have hlt : i.channel < p.scales.length := hi.channel_lt hchannels
    have hspread : ∀ values : List Rat, values.length = p.scales.length →
        (⟨r.boundsShape, values⟩ : Tensor Rat).spread? i =
          some (channelValue values i.channel) := by
      intro values hvalues
      rw [Tensor.spread?_of_pad (n := p.scales.length) (by omega) (by rw [hlength]; exact hpad)]
      · exact getElem?_channel (hvalues ▸ hlt)
      · omega
    rw [boundary, if_neg hsingle]
    simp only [AffineParams.value?, hspread p.scales rfl, hspread p.zeroPoints hp.symm]
    rfl

end ChannelParams

namespace ConcatPlan

variable (plan : ConcatPlan Rat) (g : Graph Rat) (geo : Geometry)

def bounds : List (NodeId × Ranges Rat × Branch Rat) :=
  plan.region.boundary.zip (plan.ranges.zip plan.branches)

def StartsFrom (q x : Element → Rat) : Prop :=
  ∀ bound ∈ plan.bounds, ∀ n, g.node? bound.1 = some n → ∀ k < n.outputs.length, ∀ i : Index,
    i.Inside (geo.shape ⟨bound.1, k⟩) →
      (bound.2.2.params.boundary bound.2.1).value? i (q (⟨bound.1, k⟩, i)) =
        some (x (⟨bound.1, k⟩, i))

/-- Whatever is stored at the boundary, the layers compute the same values from the dequantized
boundary as the dequantization behind each of them makes of what it computes from the boundary. -/
def Commutes : Prop :=
  ∀ q x : Element → Rat, geo.Evaluates g plan.region q → geo.Evaluates g plan.region x →
    plan.StartsFrom g geo q x →
    ∀ layer ∈ plan.layers, ∀ n, g.node? layer.1 = some n → ∀ k port, n.output? k = some port →
      ∃ d, layer.2.dequantization port = .ok d ∧ d.SpreadsOver (geo.shape ⟨layer.1, k⟩) ∧
        ∀ i : Index, i.Inside (geo.shape ⟨layer.1, k⟩) →
          d.value? i (q (⟨layer.1, k⟩, i)) = some (x (⟨layer.1, k⟩, i))

structure Aligned : Prop where
  boundary : ∀ bound ∈ plan.bounds, bound.2.2.params.isSingle = true ∨
    ∀ n, g.node? bound.1 = some n → ∀ k < n.outputs.length,
      bound.2.2.params.LiesAlongChannels bound.2.1 (geo.shape ⟨bound.1, k⟩)
  layers : ∀ layer ∈ plan.layers, layer.2.isSingle = true ∨
    ∀ n, g.node? layer.1 = some n → ∀ k port, n.output? k = some port →
      ∃ rank, port.rank = some rank ∧ 2 ≤ rank

structure SoundAt (id : NodeId) (p : ChannelParams Rat) (n : Node Rat) (k : Nat) (port : Port) :
    Prop where
  spreads : ∃ d, p.dequantization port = .ok d ∧ d.SpreadsOver (geo.shape ⟨id, k⟩)
  relu (hop : n.op = .relu) (i : Index) (hi : i.Inside (geo.shape ⟨id, k⟩)) : p.FixesZero i.channel
  maxPool (hop : n.op = .maxPool) (i : Index) (hi : i.Inside (geo.shape ⟨id, k⟩)) :
    0 ≤ p.scaleAt i.channel ∨ ∀ q, geo.Evaluates g plan.region q →
      ∀ e ∈ geo.reads n (⟨id, k⟩, i), ∀ e' ∈ geo.reads n (⟨id, k⟩, i), q e = q e'
  moved (hop : n.op.keepsChannels = false) (i : Index) (hi : i.Inside (geo.shape ⟨id, k⟩)) :
    ∀ e ∈ geo.reads n (⟨id, k⟩, i), p.Agree i.channel e.2.channel

def Sound : Prop :=
  ∀ layer ∈ plan.layers, ∀ n, g.node? layer.1 = some n → ∀ k port, n.output? k = some port →
    plan.SoundAt g geo layer.1 layer.2 n k port

section Members

variable {plan g geo} {c : Context} {concat : NodeId}

def known (plan : ConcatPlan Rat) : List (NodeId × ChannelParams Rat) :=
  plan.region.boundary.zip (plan.branches.map Branch.params)

theorem find?_zip_of_nodup {β : Type} {keys : List NodeId} {values : List β} {key : NodeId}
    {value : β} (hnodup : keys.Nodup) (h : (key, value) ∈ keys.zip values) :
    (keys.zip values).find? (·.1 = key) = some (key, value) := by
  induction keys generalizing values with
  | nil => simp at h
  | cons k keys ih =>
    cases values with
    | nil => simp at h
    | cons v values =>
      obtain ⟨hnot, hnodup⟩ := List.nodup_cons.mp hnodup
      rw [List.zip_cons_cons] at h ⊢
      rcases List.mem_cons.mp h with he | h
      · cases he
        simp
      · have hne : k ≠ key := by
          rintro rfl
          exact hnot (List.of_mem_zip h).1
        rw [List.find?_cons_of_neg (by simpa using hne)]
        exact ih hnodup h

theorem mem_known_iff (h : Accepted c g concat plan) {id : NodeId} {p : ChannelParams Rat} :
    (id, p) ∈ plan.known ↔ ∃ bound ∈ plan.bounds, bound.1 = id ∧ bound.2.2.params = p := by
  have hlength : plan.branches.length ≤ plan.ranges.length := Nat.le_of_eq h.branches.length_eq.symm
  have hmap : plan.known = plan.bounds.map fun bound => (bound.1, bound.2.2.params) := by
    have hbranches : plan.branches.map Branch.params =
        (plan.ranges.zip plan.branches).map fun pair => pair.2.params := by
      rw [← Function.comp_def Branch.params Prod.snd, ← List.map_map, List.map_snd_zip hlength]
    rw [known, bounds, hbranches, List.zip_map_right]
    rfl
  rw [hmap, List.mem_map]
  simp only [Prod.mk.injEq]

theorem known_of_bound (h : Accepted c g concat plan) {bound : NodeId × Ranges Rat × Branch Rat}
    (hbound : bound ∈ plan.bounds) :
    plan.known.find? (·.1 = bound.1) = some (bound.1, bound.2.2.params) :=
  find?_zip_of_nodup (Region.closed_of_around h.region).nodup
    ((mem_known_iff h).mpr ⟨bound, hbound, rfl, rfl⟩)

theorem bound_of_known (h : Accepted c g concat plan) {id b : NodeId} {p : ChannelParams Rat}
    (hfind : plan.known.find? (·.1 = id) = some (b, p)) :
    ∃ bound ∈ plan.bounds, bound.1 = id ∧ bound.2.2.params = p := by
  obtain rfl : b = id := by simpa using List.find?_some hfind
  exact (mem_known_iff h).mp (List.mem_of_find?_eq_some hfind)

theorem unknown_of_layer (h : Accepted c g concat plan) {id : NodeId}
    (hid : id ∈ plan.region.layers) : plan.known.find? (·.1 = id) = none := by
  refine List.find?_eq_none.mpr fun entry hentry he => ?_
  obtain rfl : entry.1 = id := by simpa using he
  exact (Region.closed_of_around h.region).not_boundary_of_layer hid (List.of_mem_zip hentry).1

theorem bound_params (h : Accepted c g concat plan) {b : NodeId × ChannelParams Rat}
    (hb : b ∈ plan.known) : b.2.Balanced ∧ b.2.scales ≠ [] := by
  obtain ⟨branch, hbranch, he⟩ := List.mem_map.mp (List.of_mem_zip hb).2
  rw [← he]
  have hforall := List.forall₂_iff_zip.mp h.branches
  obtain ⟨k, hk, rfl⟩ := List.mem_iff_getElem.mp hbranch
  have hk' : k < plan.ranges.length := h.branches.length_eq ▸ hk
  obtain ⟨interval, hplan⟩ := hforall.2 (List.mem_iff_getElem.mpr
    ⟨k, by simpa using ⟨hk', hk⟩, List.getElem_zip⟩)
  exact planBranch_eq_ok hplan

theorem derives_of_layer (h : Accepted c g concat plan) {layer : NodeId × ChannelParams Rat}
    (hlayer : layer ∈ plan.layers) :
    layer.1 ∈ plan.region.layers ∧ Derives g plan.known layer.1 layer.2 := by
  obtain ⟨hids, hparams⟩ := layerParams_eq_ok h.layers
  exact ⟨hids ▸ List.mem_map_of_mem hlayer, derives_of_paramsOf (hparams layer hlayer)⟩

theorem layer_of_mem (h : Accepted c g concat plan) {id : NodeId} (hid : id ∈ plan.region.layers) :
    ∃ p, (id, p) ∈ plan.layers ∧
      paramsOf g plan.known (g.nodes.size + 1) id = .ok (some p) := by
  obtain ⟨hids, hparams⟩ := layerParams_eq_ok h.layers
  rw [← hids] at hid
  obtain ⟨layer, hlayer, rfl⟩ := List.mem_map.mp hid
  exact ⟨layer.2, hlayer, hparams layer hlayer⟩

theorem member_of_reads (hg : g.WellFormed) (h : Accepted c g concat plan) {id : NodeId}
    (hid : id ∈ plan.region.layers) {n : Node Rat} (hn : g.node? id = some n) {e e' : Element}
    (he : e' ∈ geo.reads n e) :
    e'.1.node ∈ plan.region.members ∧
      ∃ m, g.node? e'.1.node = some m ∧ e'.1.index < m.outputs.length := by
  have hmem := Geometry.mem_inputs_of_reads he
  obtain ⟨k, hk⟩ := List.mem_iff_getElem?.mp hmem
  have hinput : g.input? id k = some e'.1 := Graph.input?_eq_some.mpr ⟨n, hn, hk⟩
  obtain ⟨w, hw⟩ := Option.isSome_iff_exists.mp (hg.wire_of_input hinput)
  obtain ⟨m, hm, hindex⟩ := Graph.wire?_eq_some.mp hw
  refine ⟨(Region.closed_of_around h.region).mem_of_input hid hn hmem (by simp [hm]), m, hm, ?_⟩
  exact (List.getElem?_eq_some_iff.mp hindex).1

theorem bound_of_mem (h : Accepted c g concat plan) {id : NodeId}
    (hid : id ∈ plan.region.boundary) : ∃ bound ∈ plan.bounds, bound.1 = id := by
  obtain ⟨k, hk, rfl⟩ := List.mem_iff_getElem.mp hid
  have hranges : k < plan.ranges.length := h.ranges.length_eq ▸ hk
  have hbranches : k < plan.branches.length := h.branches.length_eq ▸ hranges
  refine ⟨_, List.mem_iff_getElem.mpr ⟨k, ?_, rfl⟩, ?_⟩
  · simp only [bounds, List.length_zip]
    omega
  · simp [bounds]

theorem layer_of_unknown (h : Accepted c g concat plan) {id : NodeId}
    (hid : id ∈ plan.region.members) (hunknown : plan.known.find? (·.1 = id) = none) :
    id ∈ plan.region.layers := by
  rcases List.mem_append.mp hid with hid | hid
  · exact hid
  · obtain ⟨bound, hbound, rfl⟩ := bound_of_mem h hid
    rw [known_of_bound h hbound] at hunknown
    cases hunknown

end Members

end ConcatPlan

def Geometry.Has (geo : Geometry) (g : Graph Rat) (e : Element) : Prop :=
  e.2.Inside (geo.shape e.1) ∧ ∃ n, g.node? e.1.node = some n ∧ e.1.index < n.outputs.length

namespace ConcatPlan

section Elements

variable {plan : ConcatPlan Rat} {g : Graph Rat} {geo : Geometry} {c : Context} {concat : NodeId}
  {e e' : Element} {n : Node Rat} {p p' : ChannelParams Rat}

theorem reads_ne_nil (hgeo : geo.Describes g plan.region) (hid : e.1.node ∈ plan.region.layers)
    (hn : g.node? e.1.node = some n) (he : geo.Has g e) : geo.reads n e ≠ [] := by
  obtain ⟨hinside, m, hm, hk⟩ := he
  obtain rfl := Option.some.inj (hn.symm.trans hm)
  exact ((hgeo.layer _ hid n hn _ hk).reads e.2 hinside).1

theorem value_of_kept (h : Accepted c g concat plan) (hgeo : geo.Describes g plan.region)
    (hid : e.1.node ∈ plan.region.layers) (hn : g.node? e.1.node = some n)
    (he : geo.Has g e) (hkeeps : n.op.keepsChannels = true)
    (hp : Derives g plan.known e.1.node p) (he' : e' ∈ geo.reads n e)
    (hp' : Derives g plan.known e'.1.node p') (x : Rat) :
    p.value e.2.channel x = p'.value e'.2.channel x := by
  obtain ⟨hinside, m, hm, hk⟩ := he
  obtain rfl := Option.some.inj (hn.symm.trans hm)
  exact Geometry.value_of_reads hgeo (fun b hb => (bound_params h hb).1) hid
    (unknown_of_layer h hid) hn hk hinside hkeeps hp he' hp' x

theorem value_of_boundary (h : Accepted c g concat plan) (hal : plan.Aligned g geo)
    {bound : NodeId × Ranges Rat × Branch Rat} (hbound : bound ∈ plan.bounds)
    (hnode : e.1.node = bound.1) (he : geo.Has g e) (x : Rat) :
    (bound.2.2.params.boundary bound.2.1).value? e.2 x =
      some (bound.2.2.params.value e.2.channel x) := by
  obtain ⟨hbalanced, -⟩ := bound_params h (List.mem_of_find?_eq_some (known_of_bound h hbound))
  obtain ⟨hinside, n, hn, hk⟩ := he
  rw [hnode] at hn
  have hslot : (⟨bound.1, e.1.index⟩ : Slot) = e.1 := by rw [← hnode]
  refine ChannelParams.value?_boundary hbalanced ?_ hinside x
  exact (hal.boundary bound hbound).imp_right fun hlies => hslot ▸ hlies n hn e.1.index hk

variable (hg : g.WellFormed) (h : Accepted c g concat plan) (hgeo : geo.Describes g plan.region)

include hg h hgeo

theorem has_of_reads (hid : e.1.node ∈ plan.region.layers) (hn : g.node? e.1.node = some n)
    (he : geo.Has g e) (he' : e' ∈ geo.reads n e) :
    e'.1.node ∈ plan.region.members ∧ geo.Has g e' := by
  obtain ⟨hinside, m, hm, hk⟩ := he
  obtain rfl := Option.some.inj (hn.symm.trans hm)
  obtain ⟨hmem, hlive⟩ := member_of_reads hg h hid hn he'
  exact ⟨hmem, ((hgeo.layer _ hid n hn _ hk).reads e.2 hinside).2 e' he', hlive⟩

theorem element_induction {P : Element → ChannelParams Rat → Prop}
    (hbound : ∀ bound ∈ plan.bounds, ∀ e, e.1.node = bound.1 → geo.Has g e →
      P e bound.2.2.params)
    (hlayer : ∀ e n p, e.1.node ∈ plan.region.layers → g.node? e.1.node = some n → geo.Has g e →
      Derives g plan.known e.1.node p →
      (∀ e' ∈ geo.reads n e, ∃ p', Derives g plan.known e'.1.node p' ∧ P e' p') → P e p)
    (hmem : e.1.node ∈ plan.region.members) (he : geo.Has g e)
    (hp : Derives g plan.known e.1.node p) : P e p := by
  generalize hid : e.1.node = id at hp
  induction hp generalizing e with
  | known hfind =>
    obtain ⟨bound, hin, hnode, rfl⟩ := bound_of_known h hfind
    exact hbound bound hin e (hid.trans hnode.symm) he
  | @joined id n axis inputs p hunknown hn hop hslots hall hjoin ih =>
    subst hid
    have hlayer' := layer_of_unknown h hmem hunknown
    refine hlayer e n p hlayer' hn he (.joined hunknown hn hop hslots hall hjoin) ?_
    intro e' he'
    obtain ⟨hmem', hhas⟩ := has_of_reads hg h hgeo hlayer' hn he he'
    have hslot := Geometry.mem_inputs_of_reads he'
    rw [← hslots] at hslot
    obtain ⟨input, hinput, hfst⟩ := List.mem_map.mp hslot
    exact ⟨input.2, hfst ▸ hall input hinput, ih input hinput hmem' hhas (by rw [hfst])⟩
  | @passed id n s p hunknown hn hop hs hp ih =>
    subst hid
    have hlayer' := layer_of_unknown h hmem hunknown
    refine hlayer e n p hlayer' hn he (.passed hunknown hn hop hs hp) ?_
    intro e' he'
    obtain ⟨hmem', hhas⟩ := has_of_reads hg h hgeo hlayer' hn he he'
    have hslot := Geometry.slot_of_reads hop hs he'
    exact ⟨p, hslot ▸ hp, ih hmem' hhas (by rw [hslot])⟩

theorem ne_nil_of_has (hmem : e.1.node ∈ plan.region.members) (he : geo.Has g e)
    (hp : Derives g plan.known e.1.node p) : p.scales ≠ [] := by
  refine element_induction hg h hgeo (P := fun _ p => p.scales ≠ []) ?_ ?_ hmem he hp
  · intro bound hbound e hnode he
    exact (bound_params h (List.mem_of_find?_eq_some (known_of_bound h hbound))).2
  · intro e n p hid hn he hp hreads
    obtain ⟨e', he'⟩ := List.exists_mem_of_ne_nil _ (reads_ne_nil hgeo hid hn he)
    obtain ⟨p', hp', hne⟩ := hreads e' he'
    have hunknown := unknown_of_layer h hid
    by_cases hop : ∀ axis, n.op ≠ .concat axis
    · rw [Geometry.params_of_passed hunknown hn hop hp he' hp']
      exact hne
    · cases hp with
      | known hfind => simp [hunknown] at hfind
      | passed _ hn' hop' =>
        obtain rfl := Option.some.inj (hn.symm.trans hn')
        exact absurd hop' hop
      | @joined _ _ axis inputs _ _ hn' hop' hslots hall hjoin =>
        obtain rfl := Option.some.inj (hn.symm.trans hn')
        rcases joinParams_eq_ok hjoin with ⟨hsingle, -, -⟩ | ⟨rfl, hjoined⟩
        · intro hnil
          simp [ChannelParams.isSingle, hnil] at hsingle
        · rw [Geometry.reads, hop', ← hslots] at he'
          obtain ⟨hlt, -⟩ := Geometry.value_of_part hgeo hjoined
            (fun input hinput => (hall input hinput).balanced fun b hb => (bound_params h hb).1)
            (Option.mem_toList.mp he')
          intro hnil
          simp [hnil] at hlt

theorem value_of_dequantization (hal : plan.Aligned g geo) {layer : NodeId × ChannelParams Rat}
    (hlayer : layer ∈ plan.layers) (hnode : e.1.node = layer.1) (he : geo.Has g e)
    (hn : g.node? e.1.node = some n) {port : Port} (hport : n.output? e.1.index = some port)
    {d : AffineParams Rat} (hd : layer.2.dequantization port = .ok d)
    (hspread : d.SpreadsOver (geo.shape e.1)) (x : Rat) :
    d.value? e.2 x = some (layer.2.value e.2.channel x) := by
  obtain ⟨hid, hderives⟩ := derives_of_layer h hlayer
  rw [← hnode] at hid hderives
  have hmem : e.1.node ∈ plan.region.members := List.mem_append_left _ hid
  refine AffineParams.value?_ofChannels (ne_nil_of_has hg h hgeo hmem he hderives)
    (hderives.balanced fun b hb => (bound_params h hb).1) ?_ hd hspread he.1 x
  rcases hal.layers layer hlayer with hsingle | hstatic
  · exact .inl (by simpa [ChannelParams.isSingle] using hsingle)
  · obtain ⟨rank, hrank, htwo⟩ := hstatic n (hnode ▸ hn) e.1.index port hport
    obtain ⟨shape, hshape, rfl⟩ := Option.map_eq_some_iff.mp hrank
    have hslot : g.port? e.1 = some port := by
      obtain ⟨w, hw, hwp⟩ := Option.map_eq_some_iff.mp hport
      rw [Graph.port?_eq, Graph.wire?_eq_some.mpr ⟨n, hn, hw⟩, Option.map_some, hwp]
    rw [hgeo.static e.1 port shape hslot hshape, hrank]
    exact .inr ⟨rfl, htwo⟩

omit hg h hgeo in
theorem evaluates_at {v : Element → Rat} (hv : geo.Evaluates g plan.region v)
    (hid : e.1.node ∈ plan.region.layers) (hn : g.node? e.1.node = some n) (he : geo.Has g e) :
    Geometry.combine n.op ((geo.reads n e).map v) = some (v e) := by
  obtain ⟨hinside, m, hm, hk⟩ := he
  obtain rfl := Option.some.inj (hn.symm.trans hm)
  exact hv _ hid n hn _ hk e.2 hinside

def Tracks (plan : ConcatPlan Rat) (g : Graph Rat) (geo : Geometry) (q x : Element → Rat) : Prop :=
  ∀ e p, e.1.node ∈ plan.region.members → geo.Has g e → Derives g plan.known e.1.node p →
    x e = p.value e.2.channel (q e)

omit hg hgeo in
theorem tracks_boundary (hal : plan.Aligned g geo) {q x : Element → Rat}
    (hstart : plan.StartsFrom g geo q x) {bound : NodeId × Ranges Rat × Branch Rat}
    (hbound : bound ∈ plan.bounds) (hnode : e.1.node = bound.1) (he : geo.Has g e) :
    x e = bound.2.2.params.value e.2.channel (q e) := by
  have hvalue := value_of_boundary h hal hbound hnode he (q e)
  obtain ⟨hinside, n, hn, hk⟩ := he
  have hslot : (⟨bound.1, e.1.index⟩ : Slot) = e.1 := by rw [← hnode]
  have hstored := hstart bound hbound n (hnode ▸ hn) e.1.index hk e.2 (by rw [hslot]; exact hinside)
  rw [hslot] at hstored
  exact Option.some.inj (hstored.symm.trans hvalue)

theorem tracks_of_sound (hal : plan.Aligned g geo) (hsound : plan.Sound g geo)
    {q x : Element → Rat} (hq : geo.Evaluates g plan.region q) (hx : geo.Evaluates g plan.region x)
    (hstart : plan.StartsFrom g geo q x) : plan.Tracks g geo q x := by
  intro e p hmem he hp
  refine element_induction hg h hgeo (P := fun e p => x e = p.value e.2.channel (q e)) ?_ ?_
    hmem he hp
  · intro bound hbound e hnode he
    exact tracks_boundary h hal hstart hbound hnode he
  · intro e n p hid hn he hp hreads
    obtain ⟨p₀, hlayer, hparams⟩ := layer_of_mem h hid
    obtain rfl : p = p₀ := hp.unique (derives_of_paramsOf hparams)
    obtain ⟨hinside, m, hm, hk⟩ := id he
    obtain rfl := Option.some.inj (hn.symm.trans hm)
    have hport : n.output? e.1.index = some n.outputs[e.1.index].port := by
      rw [Node.output?, List.getElem?_eq_getElem hk, Option.map_some]
    have hat := hsound _ hlayer n hn e.1.index _ hport
    have hsame : (geo.reads n e).map x =
        ((geo.reads n e).map q).map fun y => p.value e.2.channel y := by
      rw [List.map_map]
      apply List.map_congr_left
      intro e' he'
      obtain ⟨p', hp', hvalue⟩ := hreads e' he'
      rw [hvalue, Function.comp_apply]
      cases hkeeps : n.op.keepsChannels with
      | true => exact (value_of_kept h hgeo hid hn he hkeeps hp he' hp' _).symm
      | false =>
        have hop : ∀ axis, n.op ≠ .concat axis := by
          intro axis hop
          simp [hop, Op.keepsChannels] at hkeeps
        rw [← Geometry.params_of_passed (unknown_of_layer h hid) hn hop hp he' hp']
        exact (ChannelParams.agree_iff.mp (hat.moved hkeeps e.2 hinside e' he') _).symm
    have hcombined := evaluates_at hx hid hn he
    rw [hsame] at hcombined
    rw [show (fun y => p.value e.2.channel y) =
      fun y => (y - p.zeroPointAt e.2.channel) * p.scaleAt e.2.channel from rfl,
      Geometry.combine_map (fun hop => hat.relu hop e.2 hinside), evaluates_at hq hid hn he]
      at hcombined
    · exact (Option.some.inj hcombined).symm
    · intro hop
      refine (hat.maxPool hop e.2 hinside).imp_right fun htied => ?_
      simp only [List.forall_mem_map]
      exact htied q hq

theorem commutes_of_sound (hal : plan.Aligned g geo) (hsound : plan.Sound g geo) :
    plan.Commutes g geo := by
  intro q x hq hx hstart layer hlayer n hn k port hport
  obtain ⟨d, hd, hspread⟩ := (hsound layer hlayer n hn k port hport).spreads
  refine ⟨d, hd, hspread, fun i hi => ?_⟩
  obtain ⟨hid, hderives⟩ := derives_of_layer h hlayer
  have hk : k < n.outputs.length := by
    obtain ⟨w, hw, -⟩ := Option.map_eq_some_iff.mp hport
    exact (List.getElem?_eq_some_iff.mp hw).1
  have he : geo.Has g (⟨layer.1, k⟩, i) := ⟨hi, n, hn, hk⟩
  have htracks := tracks_of_sound hg h hgeo hal hsound hq hx hstart _ _
    (List.mem_append_left _ hid) he hderives
  rw [htracks]
  exact value_of_dequantization hg h hgeo hal hlayer rfl he hn hport hd hspread _

omit hg in
theorem exists_evaluation (start : Element → Rat) : ∃ v : Element → Rat,
    geo.Evaluates g plan.region v ∧ ∀ bound ∈ plan.bounds, ∀ e : Element, e.1.node = bound.1 →
      v e = start e := by
  have hlayers : ∀ id ∈ plan.region.layers, plan.known.find? (·.1 = id) = none ∧
      ∃ p, paramsOf g plan.known (g.nodes.size + 1) id = .ok (some p) :=
    fun id hid => ⟨unknown_of_layer h hid, (layer_of_mem h hid).imp fun p hp => hp.2⟩
  obtain ⟨v, hv, hstart⟩ := Geometry.exists_evaluation hgeo hlayers start
  refine ⟨v, hv, fun bound hbound e hnode => ?_⟩
  exact hstart e _ (hnode ▸ known_of_bound h hbound)

theorem exists_tracks (hal : plan.Aligned g geo) (hcommutes : plan.Commutes g geo)
    {q : Element → Rat} (hq : geo.Evaluates g plan.region q) : ∃ x : Element → Rat,
      geo.Evaluates g plan.region x ∧ plan.StartsFrom g geo q x ∧ plan.Tracks g geo q x := by
  obtain ⟨x, hx, hbound⟩ := exists_evaluation h hgeo fun e =>
    match plan.known.find? (·.1 = e.1.node) with
    | some (_, p) => p.value e.2.channel (q e)
    | none => 0
  have hstart : plan.StartsFrom g geo q x := by
    intro bound hin n hn k hk i hi
    have he : geo.Has g (⟨bound.1, k⟩, i) := ⟨hi, n, hn, hk⟩
    rw [hbound bound hin (⟨bound.1, k⟩, i) rfl]
    simp only [known_of_bound h hin]
    exact value_of_boundary h hal hin rfl he _
  refine ⟨x, hx, hstart, fun e p hmem he hp => ?_⟩
  rcases List.mem_append.mp hmem with hid | hid
  · obtain ⟨p₀, hlayer, hparams⟩ := layer_of_mem h hid
    obtain rfl : p = p₀ := hp.unique (derives_of_paramsOf hparams)
    obtain ⟨hinside, n, hn, hk⟩ := id he
    have hport : n.output? e.1.index = some n.outputs[e.1.index].port := by
      rw [Node.output?, List.getElem?_eq_getElem hk, Option.map_some]
    obtain ⟨d, hd, hspread, hvalue⟩ :=
      hcommutes q x hq hx hstart _ hlayer n hn e.1.index _ hport
    have hbehind := value_of_dequantization hg h hgeo hal hlayer rfl he hn hport hd hspread (q e)
    exact Option.some.inj ((hvalue e.2 hinside).symm.trans hbehind)
  · obtain ⟨bound, hin, hnode⟩ := bound_of_mem h hid
    have hp' : Derives g plan.known e.1.node bound.2.2.params :=
      .known (hnode ▸ known_of_bound h hin)
    rw [hp.unique hp']
    exact tracks_boundary h hal hstart hin hnode.symm he

def Constant (plan : ConcatPlan Rat) (g : Graph Rat) (geo : Geometry) (c : Rat)
    (v : Element → Rat) : Prop :=
  geo.Evaluates g plan.region v ∧ ∀ bound ∈ plan.bounds, ∀ e : Element, e.1.node = bound.1 → v e = c

theorem eq_of_constant {v : Element → Rat} {a : Rat} (ha : 0 ≤ a) (hv : plan.Constant g geo a v)
    (hmem : e.1.node ∈ plan.region.members) (he : geo.Has g e)
    (hp : Derives g plan.known e.1.node p) : v e = a := by
  refine element_induction hg h hgeo (P := fun e _ => v e = a) ?_ ?_ hmem he hp
  · intro bound hbound e hnode _
    exact hv.2 bound hbound e hnode
  · intro e n p hid hn he hp hreads
    have hcombined := evaluates_at hv.1 hid hn he
    have hne : (geo.reads n e).map v ≠ [] := by simpa using reads_ne_nil hgeo hid hn he
    have hall : ∀ y ∈ (geo.reads n e).map v, y = a := by
      intro y hy
      obtain ⟨e', he', rfl⟩ := List.mem_map.mp hy
      obtain ⟨p', -, hvalue⟩ := hreads e' he'
      exact hvalue
    rw [Geometry.combine_const hne hall, max_eq_right ha, ite_self] at hcombined
    exact (Option.some.inj hcombined).symm

theorem value_of_commutes (hal : plan.Aligned g geo) (hcommutes : plan.Commutes g geo)
    (hid : e.1.node ∈ plan.region.layers) (hn : g.node? e.1.node = some n) (he : geo.Has g e)
    (hp : Derives g plan.known e.1.node p) (he' : e' ∈ geo.reads n e)
    (hp' : Derives g plan.known e'.1.node p') (y : Rat) :
    p.value e.2.channel y = p'.value e'.2.channel y := by
  cases hkeeps : n.op.keepsChannels with
  | true => exact value_of_kept h hgeo hid hn he hkeeps hp he' hp' y
  | false =>
    obtain ⟨hmem', hhas⟩ := has_of_reads hg h hgeo hid hn he he'
    have hpoint : ∀ a : Rat, 0 ≤ a → p.value e.2.channel a = p'.value e'.2.channel a := by
      intro a ha
      obtain ⟨v, hv⟩ := exists_evaluation h hgeo fun _ => a
      obtain ⟨x, hx, -, htracks⟩ := exists_tracks hg h hgeo hal hcommutes hv.1
      have hmoved : x e = x e' := by
        have hcombined := evaluates_at hx hid hn he
        rw [Geometry.reads_of_moved hkeeps he', Geometry.combine_of_moved hkeeps] at hcombined
        exact (Option.some.inj hcombined).symm
      rw [htracks e p (List.mem_append_left _ hid) he hp, htracks e' p' hmem' hhas hp',
        eq_of_constant hg h hgeo ha hv (List.mem_append_left _ hid) he hp,
        eq_of_constant hg h hgeo ha hv hmem' hhas hp'] at hmoved
      exact hmoved
    exact Geometry.affine_ext (hpoint 0 le_rfl) (hpoint 1 zero_le_one) y

theorem reaches_or_fixesZero (hal : plan.Aligned g geo) (hcommutes : plan.Commutes g geo)
    {v : Rat → Element → Rat} (hv : ∀ a, plan.Constant g geo a (v a))
    (hmem : e.1.node ∈ plan.region.members) (he : geo.Has g e)
    (hp : Derives g plan.known e.1.node p) : (∀ a, v a e = a) ∨ p.FixesZero e.2.channel := by
  refine element_induction hg h hgeo (P := fun e p => (∀ a, v a e = a) ∨ p.FixesZero e.2.channel)
    ?_ ?_ hmem he hp
  · intro bound hbound e hnode _
    exact .inl fun a => (hv a).2 bound hbound e hnode
  · intro e n p hid hn he hp hreads
    by_cases hall : ∀ e' ∈ geo.reads n e, ∀ a, v a e' = a
    · have hne := reads_ne_nil hgeo hid hn he
      have hvalue : ∀ a, v a e = if n.op = .relu then max 0 a else a := by
        intro a
        have hcombined := evaluates_at (hv a).1 hid hn he
        rw [Geometry.combine_const (by simpa using hne)
          (by simpa only [List.forall_mem_map] using fun e' he' => hall e' he' a)] at hcombined
        exact (Option.some.inj hcombined).symm
      by_cases hop : n.op = .relu
      · right
        refine ChannelParams.fixesZero_iff.mpr fun a => ?_
        -- Below 0 a `Relu` loses the stored value, and the real one with it. So the parameters take
        -- 0 to 0.
        obtain ⟨x, hx, -, htracks⟩ := exists_tracks hg h hgeo hal hcommutes (hv a).1
        have hconst : ∀ y ∈ (geo.reads n e).map x, y = p.value e.2.channel a := by
          intro y hy
          obtain ⟨e', he', rfl⟩ := List.mem_map.mp hy
          obtain ⟨p', hp', -⟩ := hreads e' he'
          obtain ⟨hmem', hhas⟩ := has_of_reads hg h hgeo hid hn he he'
          rw [htracks e' p' hmem' hhas hp', hall e' he' a,
            value_of_commutes hg h hgeo hal hcommutes hid hn he hp he' hp']
        have hcombined := evaluates_at hx hid hn he
        rw [Geometry.combine_const (by simpa using hne) hconst, if_pos hop,
          htracks e p (List.mem_append_left _ hid) he hp, hvalue a, if_pos hop] at hcombined
        exact Option.some.inj hcombined
      · left
        intro a
        rw [hvalue a, if_neg hop]
    · right
      simp only [not_forall] at hall
      obtain ⟨e', he', a, ha⟩ := hall
      obtain ⟨p', hp', hreach | hfixes⟩ := hreads e' he'
      · exact absurd (hreach a) ha
      · -- The value was lost before, where the parameters fix 0, and these are passed on.
        have hsame := value_of_commutes hg h hgeo hal hcommutes hid hn he hp he' hp'
        refine ChannelParams.fixesZero_iff.mpr fun y => ?_
        rw [hsame, hsame]
        exact ChannelParams.fixesZero_iff.mp hfixes y

theorem tied_of_commutes (hal : plan.Aligned g geo) (hcommutes : plan.Commutes g geo) {n : Node Rat}
    (hid : e.1.node ∈ plan.region.layers) (hn : g.node? e.1.node = some n) (he : geo.Has g e)
    (hp : Derives g plan.known e.1.node p) (hop : n.op = .maxPool)
    (hneg : p.scaleAt e.2.channel < 0) {q : Element → Rat} (hq : geo.Evaluates g plan.region q) :
    ∀ e₁ ∈ geo.reads n e, ∀ e₂ ∈ geo.reads n e, q e₁ = q e₂ := by
  obtain ⟨x, hx, -, htracks⟩ := exists_tracks hg h hgeo hal hcommutes hq
  have hstored := evaluates_at hq hid hn he
  have hreal := evaluates_at hx hid hn he
  have hsame : (geo.reads n e).map x = ((geo.reads n e).map q).map fun y => p.value e.2.channel y := by
    rw [List.map_map]
    apply List.map_congr_left
    intro e' he'
    obtain ⟨hmem', hhas'⟩ := has_of_reads hg h hgeo hid hn he he'
    obtain ⟨p', hp'⟩ := Geometry.derives_of_reads (unknown_of_layer h hid) hn hp he'
    rw [htracks e' p' hmem' hhas' hp', Function.comp_apply]
    exact (value_of_commutes hg h hgeo hal hcommutes hid hn he hp he' hp' _).symm
  rw [hsame, htracks e p (List.mem_append_left _ hid) he hp] at hreal
  rw [hop] at hstored hreal
  intro e₁ he₁ e₂ he₂
  exact Geometry.eq_of_max?_map hneg hstored hreal _ (List.mem_map_of_mem he₁) _
    (List.mem_map_of_mem he₂)

theorem sound_of_commutes (hal : plan.Aligned g geo) (hcommutes : plan.Commutes g geo) :
    plan.Sound g geo := by
  intro layer hlayer n hn k port hport
  obtain ⟨hid, hderives⟩ := derives_of_layer h hlayer
  have hmem : layer.1 ∈ plan.region.members := List.mem_append_left _ hid
  have hk : k < n.outputs.length := by
    obtain ⟨w, hw, -⟩ := Option.map_eq_some_iff.mp hport
    exact (List.getElem?_eq_some_iff.mp hw).1
  have hhas : ∀ i : Index, i.Inside (geo.shape ⟨layer.1, k⟩) → geo.Has g (⟨layer.1, k⟩, i) :=
    fun i hi => ⟨hi, n, hn, hk⟩
  have hconstant : ∀ a, ∃ v, plan.Constant g geo a v := fun a => exists_evaluation h hgeo fun _ => a
  refine ⟨?_, fun hop i hi => ?_, fun hop i hi => ?_, fun hop i hi e' he' => ?_⟩
  · obtain ⟨q, hq⟩ := hconstant 0
    obtain ⟨x, hx, hstart, -⟩ := exists_tracks hg h hgeo hal hcommutes hq.1
    obtain ⟨d, hd, hspread, -⟩ := hcommutes q x hq.1 hx hstart layer hlayer n hn k port hport
    exact ⟨d, hd, hspread⟩
  · -- A `Relu` that -1 reaches as it is would lose it, so its parameters fix 0.
    choose v hv using hconstant
    have he := hhas i hi
    rcases reaches_or_fixesZero hg h hgeo hal hcommutes hv hmem he hderives with hreach | hfixes
    · have hcombined := evaluates_at (hv (-1)).1 hid hn he
      rw [hreach, hop] at hcombined
      obtain ⟨y, -, hy⟩ := Option.map_eq_some_iff.mp hcombined
      exact absurd (le_max_left 0 y) (by rw [hy]; norm_num)
    · exact hfixes
  · by_cases hs : 0 ≤ layer.2.scaleAt i.channel
    · exact .inl hs
    right
    exact fun q hq => tied_of_commutes hg h hgeo hal hcommutes hid hn (hhas i hi) hderives hop
      (lt_of_not_ge hs) hq
  · obtain ⟨p', hp'⟩ := Geometry.derives_of_reads (unknown_of_layer h hid) hn hderives he'
    have hjoin : ∀ axis, n.op ≠ .concat axis := by
      intro axis hjoin
      simp [hjoin, Op.keepsChannels] at hop
    obtain rfl := Geometry.params_of_passed (unknown_of_layer h hid) hn hjoin hderives he' hp'
    exact ChannelParams.agree_iff.mpr fun y =>
      value_of_commutes hg h hgeo hal hcommutes hid hn (hhas i hi) hderives he' hp' y

end Elements

/-- For an accepted concatenation whose parameters lie along the channels, the rewritten region
computes the same values exactly when its layers are sound. -/
theorem commutes_iff_sound {c : Context} {g : Graph Rat} {concat : NodeId} {plan : ConcatPlan Rat}
    {geo : Geometry} (hg : g.WellFormed) (hplan : ofConcat? c g concat = .ok (some plan))
    (hgeo : geo.Describes g plan.region) (hal : plan.Aligned g geo) :
    plan.Commutes g geo ↔ plan.Sound g geo :=
  ⟨sound_of_commutes hg (accepted_of_ofConcat? hplan) hgeo hal,
    commutes_of_sound hg (accepted_of_ofConcat? hplan) hgeo hal⟩

section Sample

def pointwise (g : Graph Rat) : Geometry where
  shape s := ((g.port? s).bind Port.shape).getD []
  source _ i := i
  window _ i := [i]

def sample (op : Op Rat) (low high low' high' : Rat) : Graph Rat :=
  let port : Port := ⟨.f32, some [1, 1, 1, 1]⟩
  Graph.assemble [("x", .parameter, [], [port]),
    ("low", .constant (Tensor.scalar low), [], [⟨.f32, some []⟩]),
    ("high", .constant (Tensor.scalar high), [], [⟨.f32, some []⟩]),
    ("fq", .fakeQuantize 256, [⟨0, 0⟩, ⟨1, 0⟩, ⟨2, 0⟩, ⟨1, 0⟩, ⟨2, 0⟩], [port]),
    ("layer", op, [⟨3, 0⟩], [port]),
    ("low'", .constant (Tensor.scalar low'), [], [⟨.f32, some []⟩]),
    ("high'", .constant (Tensor.scalar high'), [], [⟨.f32, some []⟩]),
    ("fq'", .fakeQuantize 256, [⟨0, 0⟩, ⟨5, 0⟩, ⟨6, 0⟩, ⟨5, 0⟩, ⟨6, 0⟩], [port]),
    ("concat", .concat 1, [⟨4, 0⟩, ⟨7, 0⟩], [⟨.f32, some [1, 2, 1, 1]⟩]),
    ("y", .result, [⟨8, 0⟩], [])]

structure IsSample (g : Graph Rat) (op : Op Rat) : Prop where
  layer : g.node? 4 =
    some ⟨"layer", op, [⟨3, 0⟩], [⟨⟨.f32, some [1, 1, 1, 1]⟩, [⟨8, 0⟩]⟩], none⟩
  concat : g.node? 8 =
    some ⟨"concat", .concat 1, [⟨4, 0⟩, ⟨7, 0⟩], [⟨⟨.f32, some [1, 2, 1, 1]⟩, [⟨9, 0⟩]⟩], none⟩
  region : Region.around g 8 = .ok ⟨[8], [4, 8], [7, 3]⟩
  keepsScales : keepsScales g ⟨[8], [4, 8], [7, 3]⟩ = true
  shapes : [3, 4, 7, 8].map (fun id => (pointwise g).shape ⟨id, 0⟩) =
    [[1, 1, 1, 1], [1, 1, 1, 1], [1, 1, 1, 1], [1, 2, 1, 1]]

theorem isSample_of_checks {g : Graph Rat} {op : Op Rat}
    (hnodes : g.node? 4 =
        some ⟨"layer", op, [⟨3, 0⟩], [⟨⟨.f32, some [1, 1, 1, 1]⟩, [⟨8, 0⟩]⟩], none⟩ ∧
      g.node? 8 = some ⟨"concat", .concat 1, [⟨4, 0⟩, ⟨7, 0⟩],
        [⟨⟨.f32, some [1, 2, 1, 1]⟩, [⟨9, 0⟩]⟩], none⟩)
    (hgrow : Region.growWithin g true 30 .empty [8] [] = some ⟨[8], [4, 8], [7, 3]⟩)
    (hport : g.port? ⟨8, 0⟩ = some ⟨.f32, some [1, 2, 1, 1]⟩)
    (hkinds : (g.liveNodes.all fun entry => entry.2.kind != .convolution) = true)
    (hshapes : [3, 4, 7, 8].map (fun id => (pointwise g).shape ⟨id, 0⟩) =
      [[1, 1, 1, 1], [1, 1, 1, 1], [1, 1, 1, 1], [1, 2, 1, 1]]) : IsSample g op := by
  refine ⟨hnodes.1, hnodes.2, Region.collect_of_growWithin ?_ hgrow, ?_, hshapes⟩
  · simp [Graph.kind?, hnodes.2, Node.kind, Op.kind]
  · have hkinds' : ∀ entry ∈ g.liveNodes, entry.2.kind ≠ .convolution := by
      simpa [List.all_eq_true] using hkinds
    simp [keepsScales, Region.feedsNoConvolution_of_kinds _ hkinds', hnodes.2, hport, Port.rank]

theorem describes_of_isSample {g : Graph Rat} {op : Op Rat} (h : IsSample g op)
    (hop : op = .relu ∨ op = .maxPool) : (pointwise g).Describes g ⟨[8], [4, 8], [7, 3]⟩ := by
  obtain ⟨hlayer, hconcat, -, -, hshapes⟩ := h
  simp only [List.map_cons, List.map_nil, List.cons.injEq, and_true] at hshapes
  obtain ⟨h3, h4, h7, h8⟩ := hshapes
  refine ⟨fun s p shape hp hshape => by simp [pointwise, hp, hshape], ?_⟩
  intro id hid n hn k hk
  rcases List.mem_cons.mp hid with rfl | hid
  · obtain rfl := Option.some.inj (hlayer.symm.trans hn)
    obtain rfl : k = 0 := Nat.lt_one_iff.mp hk
    have hreads : ∀ i : Index, (pointwise g).reads
        ⟨"layer", op, [⟨3, 0⟩], [⟨⟨.f32, some [1, 1, 1, 1]⟩, [⟨8, 0⟩]⟩], none⟩ (⟨4, 0⟩, i) =
          [(⟨3, 0⟩, i)] := by
      intro i
      rcases hop with rfl | rfl <;> rfl
    refine ⟨.inl (by rcases hop with rfl | rfl <;> rfl), fun i hi => ?_, fun _ _ i hi => ?_⟩
    · rw [h4] at hi
      rw [hreads]
      simpa [h3] using hi
    · rw [hreads]
      simp
  · obtain rfl : id = 8 := by simpa using hid
    obtain rfl := Option.some.inj (hconcat.symm.trans hn)
    obtain rfl : k = 0 := Nat.lt_one_iff.mp hk
    refine ⟨.inl rfl, fun i hi => ?_, fun _ hjoin => absurd rfl (hjoin 1)⟩
    rw [h8] at hi
    obtain ⟨a, rest, ha, hrest, rfl⟩ := List.forall₂_cons_right_iff.mp hi
    obtain ⟨x, b, hx, hb, rfl⟩ := List.forall₂_cons_right_iff.mp hrest
    have hpart : (pointwise g).reads ⟨"concat", .concat 1, [⟨4, 0⟩, ⟨7, 0⟩],
        [⟨⟨.f32, some [1, 2, 1, 1]⟩, [⟨9, 0⟩]⟩], none⟩ (⟨8, 0⟩, a :: x :: b) =
          [(⟨if x = 0 then 4 else 7, 0⟩, a :: 0 :: b)] := by
      match x, hx with
      | 0, _ => simp [Geometry.reads, Geometry.part, h4]
      | 1, _ => simp [Geometry.reads, Geometry.part, h4, h7]
    rw [hpart]
    refine ⟨by simp, fun e he => ?_⟩
    obtain rfl := List.mem_singleton.mp he
    have hin : Index.Inside (a :: 0 :: b) [1, 1, 1, 1] := .cons ha (.cons Nat.one_pos hb)
    dsimp only
    split
    · rw [h4]
      exact hin
    · rw [h7]
      exact hin

theorem exists_plan {c : Context} {g : Graph Rat} {concat : NodeId} {r : Region}
    (hregion : Region.around g concat = .ok r) {multiChannel : Bool}
    (hkeeps : keepsScales g r = multiChannel) (ok : ConcatPlan Rat → Bool)
    (h : (ofRegion? c g r multiChannel).toOption.join.any ok = true) :
    ∃ plan, ofConcat? c g concat = .ok (some plan) ∧ ok plan = true := by
  obtain ⟨plan, hplan, hok⟩ := (Option.any_eq_true _ _).mp h
  refine ⟨plan, ?_, hok⟩
  subst hkeeps
  rw [ofConcat?, hregion]
  dsimp only
  cases hrun : ofRegion? c g r (keepsScales g r) with
  | error e => simp [hrun, Except.toOption] at hplan
  | ok found => simpa [hrun, Except.toOption] using hplan

theorem commutes_iff_sound_of_maxPool :
    ∃ plan, (sample .maxPool 0 (51 / 20) 0 (51 / 40)).WellFormed ∧
      ofConcat? (.start .default) (sample .maxPool 0 (51 / 20) 0 (51 / 40)) 8 = .ok (some plan) ∧
      (pointwise (sample .maxPool 0 (51 / 20) 0 (51 / 40))).Describes
        (sample .maxPool 0 (51 / 20) 0 (51 / 40)) plan.region ∧
      plan.Aligned (sample .maxPool 0 (51 / 20) 0 (51 / 40))
        (pointwise (sample .maxPool 0 (51 / 20) 0 (51 / 40))) ∧
      plan.Commutes (sample .maxPool 0 (51 / 20) 0 (51 / 40))
        (pointwise (sample .maxPool 0 (51 / 20) 0 (51 / 40))) := by
  generalize hdef : sample .maxPool 0 (51 / 20) 0 (51 / 40) = g
  have hg : g.WellFormed := hdef ▸ (Graph.assemble_ordered _).1
  have hsample : IsSample g .maxPool := by
    subst hdef
    exact isSample_of_checks (by decide +kernel) (by decide +kernel) (by decide +kernel)
      (by decide +kernel) (by decide +kernel)
  obtain ⟨plan, hplan, hfacts⟩ := exists_plan (c := .start .default) hsample.region
    hsample.keepsScales (fun plan => plan.region = ⟨[8], [4, 8], [7, 3]⟩ &&
      plan.layers = [(4, ⟨[1 / 100], [0]⟩), (8, ⟨[1 / 100, 1 / 200], [0, 0]⟩)] &&
      plan.bounds.all fun bound => bound.2.2.params.isSingle) (by
    subst hdef
    decide +kernel)
  simp only [Bool.and_eq_true, decide_eq_true_eq, List.all_eq_true] at hfacts
  obtain ⟨⟨hregion, hlayers⟩, hbounds⟩ := hfacts
  have hgeo : (pointwise g).Describes g plan.region :=
    hregion ▸ describes_of_isSample hsample (.inr rfl)
  have hal : plan.Aligned g (pointwise g) := by
    refine ⟨fun bound hbound => .inl (hbounds bound hbound), fun layer hlayer => ?_⟩
    rw [hlayers] at hlayer
    simp only [List.mem_cons, List.not_mem_nil, or_false] at hlayer
    rcases hlayer with rfl | rfl
    · exact .inl rfl
    · right
      intro n hn k port hport
      obtain rfl := Option.some.inj (hsample.concat.symm.trans hn)
      cases k with
      | succ k => cases hport
      | zero =>
        cases hport
        exact ⟨4, rfl, by decide⟩
  refine ⟨plan, hg, hplan, hgeo, hal, (commutes_iff_sound hg hplan hgeo hal).mpr ?_⟩
  intro layer hlayer n hn k port hport
  rw [hlayers] at hlayer
  simp only [List.mem_cons, List.not_mem_nil, or_false] at hlayer
  rcases hlayer with rfl | rfl
  · obtain rfl := Option.some.inj (hsample.layer.symm.trans hn)
    cases k with
    | succ k => cases hport
    | zero =>
      cases hport
      refine ⟨⟨⟨Tensor.scalar (1 / 100), none⟩, by decide +kernel, ?_⟩, by rintro ⟨⟩, ?_, by rintro ⟨⟩⟩
      · exact ⟨Tensor.spreadsOver_scalar _ _, by simp⟩
      · intro _ i _
        left
        cases hc : i.channel <;> simp [ChannelParams.scaleAt, channelValue]
  · obtain rfl := Option.some.inj (hsample.concat.symm.trans hn)
    cases k with
    | succ k => cases hport
    | zero =>
      cases hport
      refine ⟨⟨⟨⟨[1, 2, 1, 1], [1 / 100, 1 / 200]⟩, none⟩, by decide +kernel, ?_⟩, by rintro ⟨⟩,
        by rintro ⟨⟩, by rintro ⟨⟩⟩
      refine ⟨?_, by simp⟩
      have hshapes := hsample.shapes
      simp only [List.map_cons, List.map_nil, List.cons.injEq, and_true] at hshapes
      rw [hshapes.2.2.2]
      rfl

theorem relu_does_not_commute :
    ∃ plan, (sample .relu (-1) (31 / 20) (-1) (31 / 20)).WellFormed ∧
      ofConcat? (.start .default) (sample .relu (-1) (31 / 20) (-1) (31 / 20)) 8 =
        .ok (some plan) ∧
      (pointwise (sample .relu (-1) (31 / 20) (-1) (31 / 20))).Describes
        (sample .relu (-1) (31 / 20) (-1) (31 / 20)) plan.region ∧
      plan.Aligned (sample .relu (-1) (31 / 20) (-1) (31 / 20))
        (pointwise (sample .relu (-1) (31 / 20) (-1) (31 / 20))) ∧
      ¬plan.Commutes (sample .relu (-1) (31 / 20) (-1) (31 / 20))
        (pointwise (sample .relu (-1) (31 / 20) (-1) (31 / 20))) := by
  generalize hdef : sample .relu (-1) (31 / 20) (-1) (31 / 20) = g
  have hg : g.WellFormed := hdef ▸ (Graph.assemble_ordered _).1
  have hsample : IsSample g .relu := by
    subst hdef
    exact isSample_of_checks (by decide +kernel) (by decide +kernel) (by decide +kernel)
      (by decide +kernel) (by decide +kernel)
  obtain ⟨plan, hplan, hfacts⟩ := exists_plan (c := .start .default) hsample.region
    hsample.keepsScales (fun plan => plan.region = ⟨[8], [4, 8], [7, 3]⟩ &&
      plan.layers = [(4, ⟨[1 / 100], [-28]⟩), (8, ⟨[1 / 100], [-28]⟩)] &&
      plan.bounds.all fun bound => bound.2.2.params.isSingle) (by
    subst hdef
    decide +kernel)
  simp only [Bool.and_eq_true, decide_eq_true_eq, List.all_eq_true] at hfacts
  obtain ⟨⟨hregion, hlayers⟩, hbounds⟩ := hfacts
  have hgeo : (pointwise g).Describes g plan.region :=
    hregion ▸ describes_of_isSample hsample (.inl rfl)
  have hal : plan.Aligned g (pointwise g) := by
    refine ⟨fun bound hbound => .inl (hbounds bound hbound), fun layer hlayer => ?_⟩
    rw [hlayers] at hlayer
    simp only [List.mem_cons, List.not_mem_nil, or_false] at hlayer
    rcases hlayer with rfl | rfl <;> exact .inl rfl
  refine ⟨plan, hg, hplan, hgeo, hal, fun hcommutes => ?_⟩
  have hsound := sound_of_commutes hg (accepted_of_ofConcat? hplan) hgeo hal hcommutes
  have hat := hsound (4, ⟨[1 / 100], [-28]⟩) (by simp [hlayers]) _ hsample.layer 0 _ rfl
  have hinside : Index.Inside [0, 0, 0, 0] ((pointwise g).shape ⟨4, 0⟩) := by
    have hshapes := hsample.shapes
    simp only [List.map_cons, List.map_nil, List.cons.injEq, and_true] at hshapes
    rw [hshapes.2.1]
    exact .cons Nat.one_pos (.cons Nat.one_pos (.cons Nat.one_pos (.cons Nat.one_pos .nil)))
  obtain ⟨-, hzero⟩ := hat.relu rfl [0, 0, 0, 0] hinside
  norm_num [ChannelParams.scaleAt, ChannelParams.zeroPointAt, channelValue, Index.channel] at hzero

end Sample
end ConcatPlan

end LowPrecision
