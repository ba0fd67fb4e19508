import LowPrecision.Proofs.Markup.Analyses
import LowPrecision.Proofs.Pipeline.FixedPoints
import LowPrecision.Proofs.Rewrite.Exchanges
import LowPrecision.Proofs.Rewrite.Successors
import LowPrecision.Proofs.Rewrite.Symmetry

namespace LowPrecision

variable {α : Type} {g : Graph α} {f : NodeId} {slot : Slot} {type : ElementType}

section Params

variable {β γ : Type}

def Rewrite.KeepsParams (p : Params) (x : Rewrite α β) : Prop :=
  Stays (fun s : Session α => s.context.params = p) (fun _ => True) x

variable {p : Params}

namespace Rewrite.KeepsParams

theorem pure (b : β) : KeepsParams p (Pure.pure b : Rewrite α β) := Stays.pure b

theorem lift (c : Checked β) : KeepsParams p (liftM c : Rewrite α β) := Stays.lift c

theorem bind {x : Rewrite α β} {k : β → Rewrite α γ} (hx : KeepsParams p x)
    (hk : ∀ b, KeepsParams p (k b)) : KeepsParams p (x >>= k) := Stays.bind hx hk

theorem forM {xs : List γ} {f : γ → Rewrite α Unit} (h : ∀ c, KeepsParams p (f c)) :
    KeepsParams p (xs.forM f) := Stays.forM fun c _ => h c

theorem edit (e : Edit α TransformError β) : KeepsParams p (Rewrite.edit e) := by
  intro s r s' hs hrun
  exact ⟨(congrArg Context.params (exec_edit_eq.mp hrun).2).trans hs, fun _ _ => trivial⟩

theorem graph : KeepsParams p (Rewrite.graph (α := α)) := by
  intro s r s' hs hrun
  cases hrun
  exact ⟨hs, fun _ _ => trivial⟩

theorem context : KeepsParams p (Rewrite.context (α := α)) := by
  intro s r s' hs hrun
  cases hrun
  exact ⟨hs, fun _ _ => trivial⟩

theorem changeContext {f : Context → Context} (hf : ∀ c, (f c).params = c.params) :
    KeepsParams p (Rewrite.changeContext (α := α) f) := by
  intro s r s' hs hrun
  cases hrun
  exact ⟨(hf s.context).trans hs, fun _ _ => trivial⟩

theorem markHandled (name : String) : KeepsParams p (Rewrite.markHandled (α := α) name) := by
  apply changeContext
  intro c
  rw [Context.markHandled]
  split <;> rfl

theorem withPlan {plan? : Option β} {f : β → Rewrite α Unit} (h : ∀ plan, KeepsParams p (f plan)) :
    KeepsParams p (Rule.withPlan plan? f) := by
  cases plan? with
  | none => exact .pure _
  | some plan => exact (h plan).bind fun _ => .pure _

end Rewrite.KeepsParams

open Rewrite

variable [Scalar α]

theorem Decomposition.keepsParams (id : NodeId) : KeepsParams p (decompose (α := α) id) := by
  apply (KeepsParams.edit _).bind
  intro r
  apply (KeepsParams.lift _).bind
  intro bounds
  apply (KeepsParams.edit _).bind
  intro grid
  apply (KeepsParams.lift _).bind
  intro params
  refine KeepsParams.bind (.changeContext ?_) fun _ => ?_
  · exact fun _ => rfl
  apply (KeepsParams.edit _).bind
  intro affine
  apply KeepsParams.context.bind
  intro c
  apply (KeepsParams.edit _).bind
  intro placed
  apply (KeepsParams.markHandled _).bind
  intro _
  exact .pure _

theorem ConcatPlan.keepsParams (plan : ConcatPlan α) : KeepsParams p plan.apply := by
  have hlower : ∀ (type : ElementType) (branches : List (NodeId × Branch α)),
      KeepsParams p (lowerBoundary type branches) := by
    intro type branches
    induction branches with
    | nil => exact .pure _
    | cons branch branches ih =>
      apply (KeepsParams.edit _).bind
      intro n
      apply (KeepsParams.edit _).bind
      intro lowered
      apply (KeepsParams.edit _).bind
      intro _
      refine KeepsParams.bind (.changeContext ?_) fun _ => ?_
      · exact fun _ => rfl
      · exact ih.bind fun rest => .pure _
  apply KeepsParams.context.bind
  intro c
  apply (hlower _ _).bind
  intro lowered
  apply (KeepsParams.edit _).bind
  intro order
  apply (KeepsParams.edit _).bind
  intro _
  refine (KeepsParams.forM fun id => ?_).bind fun _ => .forM fun _ => .markHandled _
  split
  · exact .edit _
  · exact .pure _

theorem Rule.keepsParams (rule : Rule) (m : NodeMatch) : KeepsParams p (rule.apply (α := α) m) := by
  apply KeepsParams.graph.bind
  intro g
  apply KeepsParams.context.bind
  intro c
  cases rule with
  | decomposition =>
    refine KeepsParams.bind ?_ fun _ => .pure _
    exact (Decomposition.keepsParams _).bind fun _ => .pure _
  | matMul | convolution =>
    exact (KeepsParams.lift _).bind fun plan? => .withPlan fun plan => .edit _
  | concat => exact (KeepsParams.lift _).bind fun plan? => .withPlan ConcatPlan.keepsParams
  | depthToSpace | transparent => exact .withPlan fun plan => .edit _
  | convertFusion | sanitization | foldConvert | fuseSubtract | fuseMultiply => exact .edit _

theorem Pipeline.Evolves.params {s s' : Session α} (h : Evolves s s') :
    s'.context.params = s.context.params := by
  induction h with
  | refl => rfl
  | tail _ hstep ih =>
    obtain ⟨id, rule, m, -, -, -, hrun⟩ := hstep
    exact ((Rule.keepsParams rule m _ _ _ rfl hrun).1).trans ih

end Params

section Chosen

theorem mem_of_foldl_inter {first : PrecisionSet} {rest : List (Ranges α × PrecisionSet)}
    (h : type ∈ rest.foldl (fun allowed (_, here) => allowed.inter here) first) :
    type ∈ first ∧ ∀ r allowed, (r, allowed) ∈ rest → type ∈ allowed := by
  induction rest generalizing first with
  | nil => exact ⟨h, by simp⟩
  | cons entry rest ih =>
    obtain ⟨hinter, hrest⟩ := ih h
    refine ⟨SharedCells.inter_subset_left _ _ hinter, fun r allowed hmem => ?_⟩
    rcases List.mem_cons.mp hmem with rfl | hmem
    · exact SharedCells.inter_subset_right _ _ hinter
    · exact hrest r allowed hmem

variable [Scalar α] {s s' : Session α}

theorem ConcatPlan.precision_mem {c : Context} {concat : NodeId} {plan : ConcatPlan α}
    (h : ofConcat? c g concat = .ok (some plan)) (hf : f ∈ plan.region.boundary) :
    plan.grid.precision ∈ Markup.allowedPrecisions g f := by
  obtain ⟨first, firstAllowed, rest, hread, -, -, hselect⟩ := (planned_of_ofConcat? h).2.grid
  have hprecision := mem_of_foldl_inter (precision_of_select hselect)
  obtain ⟨k, hk⟩ := List.mem_iff_getElem?.mp hf
  obtain ⟨⟨r, allowed⟩, hmem, hreadf⟩ := forall₂_getElem? hread hk
  obtain ⟨-, -, -, -, -, rfl⟩ := readBoundary?_eq_some hreadf
  rcases List.mem_cons.mp (List.mem_of_getElem? hmem) with heq | hmem
  · cases heq
    exact hprecision.1
  · exact hprecision.2 r _ hmem

end Chosen

namespace Decomposition

variable [Scalar α] {g₁ g' : Graph α} {id : NodeId} {n : Node α} {levels : Nat}
  {data source : Slot} {name : String} {p : Lowering α}
  {affine : AffineParams α} {weights : Option (Tensor α)} {d : Dequantization α}

structure Stored (g g₁ : Graph α) (source : Slot) (type : ElementType) : Prop where
  wellFormed : g₁.WellFormed
  new : g.nodes.size ≤ source.node
  port : ∃ q, g₁.port? source = some q ∧ q.elementType = type

theorem addSource_stored (hg : g.WellFormed)
    (hrun : exec (addSource id name p type weights) g = .ok (.ok source, g₁)) :
    Stored g g₁ source type := by
  cases weights with
  | some weights =>
    obtain ⟨folded, -, rfl, hadded⟩ := addSource_some hg hrun
    refine ⟨hadded.wellFormed, Nat.le_refl _, ⟨type, some folded.shape⟩, ?_, rfl⟩
    rw [Graph.port?_eq_face, hadded.new]
    rfl
  | none =>
    obtain ⟨_, _, _, _, _, _, q, _, _, -, -, -, -, rfl, hdoubled⟩ := addSource_doubled hg hrun
    refine ⟨hdoubled.wellFormed, Nat.le_add_right _ _, q.withType type, ?_, rfl⟩
    rw [Graph.port?_eq_face, hdoubled.fakeQuantize]
    rfl

theorem place_stored (h : Stored g g₁ source type)
    (hrun : exec (place id n weights affine source) g₁ = .ok (.ok d, g')) :
    d.data = source ∧ ∀ q, g'.port? d.data = some q → q.elementType = type := by
  obtain ⟨g₂, hinsert, hreplace⟩ := place_run hrun
  obtain ⟨k, mid, hport, hinserted⟩ := Dequantization.insert_done h.wellFormed hinsert
  obtain ⟨q₁, hq₁, htype⟩ := h.port
  rw [Graph.port?_eq_face] at hq₁
  obtain ⟨f, hf, hindex⟩ := Option.bind_eq_some_iff.mp hq₁
  have hlt := Graph.lt_size_of_face? hf
  have hf₂ := hinserted.face_old hlt
  rw [hf, Option.map_some] at hf₂
  refine ⟨hinserted.built.data, fun q hq => ?_⟩
  rw [hinserted.built.data, Graph.port?_eq_face] at hq
  obtain ⟨f', hf', hindex'⟩ := Option.bind_eq_some_iff.mp hq
  obtain ⟨-, hrerouted, -⟩ := Graph.replaceNode_rerouted hinserted.recast.wellFormed
    hreplace
  obtain ⟨f₂, hf₂', hsame⟩ := hrerouted.face source.node f' (Graph.lt_size_of_face? hf₂) hf'
  cases hf₂.symm.trans hf₂'
  rw [hsame.ports, Face.ports_redirect, hindex] at hindex'
  rw [← Option.some.inj hindex', htype]

theorem place_live (hg : g.WellFormed) {rank : NodeId → Nat} (hrank : g.Ranked rank)
    (hn : g.node? id = some n) (hop : n.op = .fakeQuantize levels)
    (hsource : exec (addSource id n.name p type (g.constant? data)) g = .ok (.ok source, g₁))
    (hplace : exec (place id n (g.constant? data) affine source) g₁ = .ok (.ok d, g')) :
    (g'.port? d.data).isSome := by
  have hstored := addSource_stored hg hsource
  have hsourced : ∃ kind, Sourced g g₁ rank id source kind := by
    cases hweights : g.constant? data with
    | some weights =>
      rw [hweights] at hsource
      obtain ⟨_, -, rfl, hadded⟩ := addSource_some hg hsource
      exact ⟨.constant, sourced_of_added hadded⟩
    | none =>
      rw [hweights] at hsource
      obtain ⟨_, _, _, _, _, _, _, _, _, hm, -, hin, -, rfl, hdoubled⟩ := addSource_doubled hg hsource
      exact ⟨.fakeQuantize, sourced_of_doubled (fun _ => ranges_below hrank hm hin) hdoubled⟩
  obtain ⟨kind, hsourced⟩ := hsourced
  obtain ⟨hinstalled, -⟩ :=
    (place_ok hg hrank hn (not_interface_of_fakeQuantize hop) hsourced).2 d g' hplace
  obtain ⟨q, hq, -⟩ := hstored.port
  rw [hinstalled.data, Graph.port?_eq_face]
  rw [Graph.port?_eq_face] at hq
  obtain ⟨f, hf, hindex⟩ := Option.bind_eq_some_iff.mp hq
  rw [hinstalled.new source.node f hstored.new hf, Option.bind_some, hindex]
  rfl

variable {s s' : Session α}

theorem decompose_stored (hg : s.graph.WellFormed) (hrun : exec (decompose id) s = .ok (.ok d, s')) :
    ∃ precision ∈ Markup.allowedPrecisions s.graph id,
      (∀ q, s'.graph.port? d.data = some q →
        q.elementType = storageType s.context.params precision) ∧
      (s.graph.Acyclic → (s'.graph.port? d.data).isSome) := by
  obtain ⟨n, _, _, p, _, _, _, hn, hop, -, hprecision, hsource, hplace⟩ := decompose_steps hrun
  obtain ⟨-, htype⟩ := place_stored (addSource_stored hg hsource) hplace
  refine ⟨p.grid.precision, hprecision, htype, fun hacyclic => ?_⟩
  obtain ⟨rank, hrank⟩ := hacyclic
  exact place_live hg hrank hn hop hsource hplace

end Decomposition

section Apply

variable [Scalar α] {s s' : Session α}

def Face.StoredAs (type : ElementType) (face : Face α) : Prop :=
  face.kind = .fakeQuantize → ∀ p ∈ face.ports, p.elementType = type

omit [Scalar α] in
theorem Face.admits_storedAs (type : ElementType) :
    Face.Admits (α := α) type (Face.StoredAs type) where
  stable f f' hop hports h := by
    rw [Face.StoredAs, hports, Face.kind, hop]
    exact h
  step g f hstep := by
    obtain ⟨port, -, ⟨hop, -⟩ | ⟨-, value, hop⟩ | ⟨hop | hop, -⟩⟩ := hstep <;>
      (intro hkind; rw [Face.kind, hop] at hkind; cases hkind)
  quantizer levels inputs port _ q hq := by
    obtain rfl := List.mem_singleton.mp hq
    rfl

theorem ConcatPlan.apply_stored {concat : NodeId} {plan : ConcatPlan α} (hg : s.graph.WellFormed)
    (hplan : plan.Accepted s.context s.graph concat) (hrun : exec plan.apply s = .ok (.ok (), s'))
    {v : NodeId} {face : Face α} (hnew : s.graph.nodes.size ≤ v) (hface : s'.graph.face? v = some face) :
    face.StoredAs (storageType s.context.params plan.grid.precision) := by
  refine ((ensures_apply (Face.admits_storedAs _) (fun id hid => ?_) (fun id hid => ?_) s _ s'
    ⟨.refl hg, rfl⟩ hrun).1 () rfl).fresh v face hnew hface
  · exact hplan.isQuantizer hid
  · exact (hplan.reads hid).1

end Apply

namespace Markup

/-- The restricted inputs that the values of the node reach accept the type. -/
def Serves (restrictions : List OperationRestriction) (g : Graph α) (f : NodeId)
    (type : ElementType) : Prop :=
  ∀ v n restriction entry slot, g.node? v = some n → n.kind ≠ .fakeQuantize →
    g.preservesPrecision v = false → restrictions.find? (·.kind = n.kind) = some restriction →
      entry ∈ restriction.inputs → n.input? entry.index = some slot → g.Carries f slot →
        type ∈ entry.precisions

theorem allowedPrecisions_subset {types : List ElementType}
    (h : Bounded g.attributes ⟨f, 0⟩ types) : allowedPrecisions g f ⊆ types := by
  obtain ⟨group, held, hgroup, hheld, hsub⟩ := h
  have hprecisions : g.attributes.precisions? ⟨f, 0⟩ = some held := by
    rw [AttributeStore.precisions?, hgroup]
    exact hheld
  rw [allowedPrecisions, hprecisions]
  exact hsub

theorem port_of_carries (hg : g.WellFormed) (h : g.Carries f slot) (v : NodeId) (index : Nat)
    (hread : g.input? v index = some slot) : (g.port? ⟨f, 0⟩).isSome := by
  induction h generalizing v index with
  | source => exact Graph.wire?_isSome_eq_port _ _ ▸ hg.wire_of_input hread
  | pass _ hinner _ ih => exact ih _ _ hinner

variable {restrictions : List OperationRestriction}

theorem Analysed.serves (h : Analysed restrictions g) (hf : g.kind? f = some .fakeQuantize)
    (htype : type ∈ allowedPrecisions g f) : Serves restrictions g f type := by
  intro v n restriction entry slot hn hkind hcomputes hfind hentry hslot hcarries
  have hread : g.input? v entry.index = some slot := by
    rw [Graph.input?, hn]
    exact hslot
  obtain ⟨-, hbounded⟩ := h.settled f ⟨h.wellFormed, h.ends, hf, port_of_carries h.wellFormed hcarries v _ hread⟩
  have hrestricts : g.Restricts v slot entry.precisions :=
    ⟨⟨n, hn, hkind⟩, hcomputes, _, entry.index, h.restricts v n restriction hn hfind, hentry, hread⟩
  exact allowedPrecisions_subset (hbounded v slot _ hrestricts hcarries) htype

theorem Analysed.allowed_eq_nil (h : Analysed restrictions g) (hf : g.kind? f = some .fakeQuantize)
    (hnone : ∀ type ∈ PrecisionSet.eightBit, ¬ Serves restrictions g f type) :
    allowedPrecisions g f = [] := by
  refine List.eq_nil_iff_forall_not_mem.mpr fun type htype => ?_
  have hport : (g.port? ⟨f, 0⟩).isSome := by
    by_contra hport
    refine hnone .u8 (by decide) fun v n restriction entry slot hn _ _ _ _ hslot hcarries =>
      absurd (port_of_carries h.wellFormed hcarries v entry.index ?_) hport
    rw [Graph.input?, hn]
    exact hslot
  obtain ⟨heightBit, -⟩ := h.settled f ⟨h.wellFormed, h.ends, hf, hport⟩
  exact hnone type (allowedPrecisions_subset heightBit htype) (h.serves hf htype)

end Markup

theorem Lineage.allowed {g₀ : Graph α} {fresh : Face α → Prop} (h : Lineage g₀ fresh g)
    (hf : f < g₀.nodes.size) (hlive : g.isLive f = true) :
    Markup.allowedPrecisions g f = Markup.allowedPrecisions g₀ f := by
  have hgroup := AttributeStore.precisionGroup?_congr
    (h.kept (.output ⟨f, 0⟩) .precisions hf hlive)
  rw [Markup.allowedPrecisions, Markup.allowedPrecisions, AttributeStore.precisions?,
    AttributeStore.precisions?, hgroup, h.cells]

namespace Pipeline

variable [Scalar α] {s₁ s : Session α} {settings : Settings}

theorem Evolves.allowed (h : Evolves s₁ s) (hg : s₁.graph.WellFormed)
    (hf : f < s₁.graph.nodes.size) (hlive : s.graph.isLive f = true) :
    Markup.allowedPrecisions s.graph f = Markup.allowedPrecisions s₁.graph f :=
  (h.descends hg).allowed hf hlive

theorem Evolves.serves (h : Evolves s₁ s) (hf : s₁.graph.kind? f = some .fakeQuantize)
    (hanalysed : Markup.Analysed settings.restrictions s₁.graph)
    (hlive : s.graph.isLive f = true) (htype : type ∈ Markup.allowedPrecisions s.graph f) :
    Markup.Serves settings.restrictions s₁.graph f type := by
  obtain ⟨n, hn, -⟩ := Option.map_eq_some_iff.mp hf
  exact hanalysed.serves hf (h.allowed hanalysed.wellFormed (Graph.lt_size_of_node? hn) hlive ▸ htype)

/-- Whichever rule lowers a fake-quantize, the type in which it is stored is accepted by every
restricted input that its values reach in the graph after the analyses. Where no type is, it is not
lowered. With a region, what its readers read is made of a new fake-quantize of that type. -/
theorem stored_types_serve (settings : Settings) (g : Graph α) (f : NodeId) (hg : g.WellFormed)
    (hupdate : settings.params.updatePrecisions = true)
    (hanalyses : exec (analyses settings) ⟨g, .start settings.params⟩ = .ok (.ok (), s₁))
    (hevolves : Evolves s₁ s) (hf : s₁.graph.kind? f = some .fakeQuantize) :
    (∀ d s', exec (Decomposition.decompose f) s = .ok (.ok d, s') →
      ∃ type, Markup.Serves settings.restrictions s₁.graph f type ∧
        (∀ q, s'.graph.port? d.data = some q → q.elementType = type) ∧
        (s.graph.Acyclic → (s'.graph.port? d.data).isSome)) ∧
    (∀ concat plan, ConcatPlan.ofConcat? s.context s.graph concat = .ok (some plan) →
      f ∈ plan.region.boundary →
        Markup.Serves settings.restrictions s₁.graph f plan.grid.precision ∧
        ∀ s', exec plan.apply s = .ok (.ok (), s') →
          (∀ v face, s.graph.nodes.size ≤ v → s'.graph.face? v = some face →
            face.StoredAs plan.grid.precision) ∧
          ∃ v, s.graph.LoweredTo s'.graph f v ∧ ∀ r i, s.graph.input? r i = some ⟨f, 0⟩ →
            s'.graph.isLive r = true → ∃ p, s'.graph.kind? v = some .fakeQuantize ∧
              s'.graph.port? ⟨v, 0⟩ = some p ∧ p.elementType = plan.grid.precision) ∧
    ((∀ type ∈ PrecisionSet.eightBit, ¬ Markup.Serves settings.restrictions s₁.graph f type) →
      (∀ d s', exec (Decomposition.decompose f) s ≠ .ok (.ok d, s')) ∧
      ∀ concat plan, ConcatPlan.ofConcat? s.context s.graph concat = .ok (some plan) →
        f ∉ plan.region.boundary) := by
  have hanalysed := Markup.analysed_of_analyses hg hanalyses
  have hstorage : ∀ precision, storageType s.context.params precision = precision := by
    intro precision
    rw [hevolves.params, (annotates_analyses hanalyses).2, storageType]
    exact if_pos hupdate
  have hwf := (hevolves.descends hanalysed.wellFormed).wellFormed
  have hdecompose : ∀ d s', exec (Decomposition.decompose f) s = .ok (.ok d, s') →
      s.graph.isLive f = true := by
    intro d s' hrun
    obtain ⟨_, _, _, _, hr, -⟩ := Decomposition.decompose_run hrun
    obtain ⟨n, _, _, _, _, _, _, hn, -⟩ := Ranges.ofNode_eq_ok.mp hr
    rw [Graph.isLive, hn]
    rfl
  have hconcat : ∀ concat plan, ConcatPlan.ofConcat? s.context s.graph concat = .ok (some plan) →
      f ∈ plan.region.boundary → s.graph.isLive f = true := by
    intro concat plan hplan hmem
    obtain ⟨face, _, hface, -⟩ := (ConcatPlan.accepted_of_ofConcat? hplan).isBoundary hmem
    obtain ⟨n, hn, -⟩ := Graph.face?_eq_some.mp hface
    rw [Graph.isLive, hn]
    rfl
  refine ⟨fun d s' hrun => ?_, fun concat plan hplan hmem => ⟨?_, fun s' hrun => ?_⟩, fun hnone => ?_⟩
  · obtain ⟨precision, hprecision, htype, hport⟩ := Decomposition.decompose_stored hwf hrun
    exact ⟨precision, hevolves.serves hf hanalysed (hdecompose d s' hrun) hprecision,
      fun q hq => (htype q hq).trans (hstorage precision), hport⟩
  · exact hevolves.serves hf hanalysed (hconcat concat plan hplan hmem)
      (ConcatPlan.precision_mem hplan hmem)
  · have haccepted := ConcatPlan.accepted_of_ofConcat? hplan
    have hstored : ∀ v face, s.graph.nodes.size ≤ v → s'.graph.face? v = some face →
        face.StoredAs plan.grid.precision := fun v face hv hface =>
      hstorage plan.grid.precision ▸ ConcatPlan.apply_stored hwf haccepted hrun hv hface
    obtain ⟨v, hlowered⟩ := ConcatPlan.apply_lowers hwf haccepted hmem hrun
    refine ⟨hstored, v, hlowered, fun r i hi hr => ?_⟩
    obtain ⟨p, hkind, hp⟩ := hlowered.exists_port hi hr
    obtain ⟨face, hface, hk⟩ := Graph.face_of_kind hkind
    exact ⟨p, hkind, hp, hstored v face hlowered.new hface hk p (Graph.mem_ports hface hp)⟩
  · have hnothing : s.graph.isLive f = true → Markup.allowedPrecisions s.graph f = [] := by
      intro hlive
      obtain ⟨n, hn, -⟩ := Option.map_eq_some_iff.mp hf
      rw [hevolves.allowed hanalysed.wellFormed (Graph.lt_size_of_node? hn) hlive,
        hanalysed.allowed_eq_nil hf hnone]
    refine ⟨fun d s' hrun => ?_, fun concat plan hplan hmem => ?_⟩
    · obtain ⟨precision, hprecision, -⟩ := Decomposition.decompose_stored hwf hrun
      simp [hnothing (hdecompose d s' hrun)] at hprecision
    · have hprecision := ConcatPlan.precision_mem hplan hmem
      simp [hnothing (hconcat concat plan hplan hmem)] at hprecision

def signedAbove : Graph Binary32 :=
  Graph.assemble [("x", .parameter, [], [⟨.f32, some [1, 1, 2, 2]⟩]),
    ("low", .constant (Tensor.scalar (Arithmetic.ofRat (-32 / 25))), [], [⟨.f32, some []⟩]),
    ("high", .constant (Tensor.scalar (Arithmetic.ofRat (127 / 100))), [], [⟨.f32, some []⟩]),
    ("fq", .fakeQuantize 256, [⟨0, 0⟩, ⟨1, 0⟩, ⟨2, 0⟩, ⟨1, 0⟩, ⟨2, 0⟩],
      [⟨.f32, some [1, 1, 2, 2]⟩]),
    ("pool", .maxPool, [⟨3, 0⟩], [⟨.f32, some [1, 1, 2, 2]⟩]),
    ("kernel", .constant ⟨[1, 1, 1, 1], [Arithmetic.ofRat 1]⟩, [], [⟨.f32, some [1, 1, 1, 1]⟩]),
    ("conv", .convolution, [⟨4, 0⟩, ⟨5, 0⟩], [⟨.f32, some [1, 1, 2, 2]⟩]),
    ("y", .result, [⟨6, 0⟩], [])]

theorem stored_types_serve_of_signedAbove : (signedAbove.WellFormed ∧
    Params.default.updatePrecisions = true ∧ ∃ s₁ d s' q,
      exec (analyses Settings.default) ⟨signedAbove, .start .default⟩ = .ok (.ok (), s₁) ∧
      Evolves s₁ s₁ ∧ s₁.graph.kind? 3 = some .fakeQuantize ∧
      exec (Decomposition.decompose 3) s₁ = .ok (.ok d, s') ∧
      s'.graph.port? d.data = some q ∧ q.elementType = .u8 ∧
      Markup.Serves Settings.default.restrictions s₁.graph 3 .u8) ∧
    (joinedPair [1, 2] [1, 4] 0 (51 / 20) : Graph Binary32).WellFormed ∧ ∃ s₁ s' plan v p,
      exec (analyses Settings.default)
        (⟨joinedPair [1, 2] [1, 4] 0 (51 / 20), .start .default⟩ : Session Binary32) = .ok (.ok (), s₁) ∧
      Evolves s₁ s₁ ∧ s₁.graph.kind? 5 = some .fakeQuantize ∧
      ConcatPlan.ofConcat? s₁.context s₁.graph 7 = .ok (some plan) ∧ 5 ∈ plan.region.boundary ∧
      exec plan.apply s₁ = .ok (.ok (), s') ∧ plan.grid.precision = .i8 ∧
      Markup.Serves Settings.default.restrictions s₁.graph 5 .i8 ∧ s₁.graph.LoweredTo s'.graph 5 v ∧
      s₁.graph.input? 7 0 = some ⟨5, 0⟩ ∧ s'.graph.isLive 7 = true ∧
      s'.graph.port? ⟨v, 0⟩ = some p ∧ p.elementType = .i8 := by
  refine ⟨?_, ?_⟩
  · have hg : signedAbove.WellFormed :=
      (Graph.assemble_regular (by decide) : signedAbove.Regular).wellFormed
    have hanswers : (exec (analyses Settings.default) ⟨signedAbove, .start .default⟩).map (fun out =>
        (out.1.map fun _ => out.2.graph.kind? 3,
          (exec (Decomposition.decompose 3) out.2).map fun out => out.1.map fun d =>
            (out.2.graph.port? d.data).map Port.elementType)) =
        .ok (.ok (some .fakeQuantize), .ok (.ok (some .u8))) := by decide +kernel
    obtain ⟨⟨outcome, s₁⟩, hanalyses, hpair⟩ := except_map_eq_ok.mp hanswers
    obtain ⟨houtcome, hlowered⟩ := Prod.mk.inj hpair
    obtain ⟨⟨⟩, rfl, hkind⟩ := except_map_eq_ok.mp houtcome
    obtain ⟨⟨answer, s'⟩, hdecompose, hanswer⟩ := except_map_eq_ok.mp hlowered
    obtain ⟨d, rfl, hport⟩ := except_map_eq_ok.mp hanswer
    obtain ⟨q, hq, htype⟩ := Option.map_eq_some_iff.mp hport
    obtain ⟨type, hserves, hstored, -⟩ := (stored_types_serve Settings.default signedAbove 3
      hg rfl hanalyses .refl hkind).1 d s' hdecompose
    obtain rfl : type = .u8 := (hstored q hq).symm.trans htype
    exact ⟨hg, rfl, s₁, d, s', q, hanalyses, .refl, hkind, hdecompose, hq, htype, hserves⟩
  · generalize hdef : (joinedPair [1, 2] [1, 4] 0 (51 / 20) : Graph Binary32) = g
    have hg : g.WellFormed := hdef ▸ (Graph.assemble_ordered _).1
    have hanswers : (do
        let (outcome, s₁) ← exec (analyses Settings.default) (⟨g, .start .default⟩ : Session Binary32)
        match ← ConcatPlan.ofConcat? s₁.context s₁.graph 7 with
        | some plan =>
          let out ← exec plan.apply s₁
          return some (outcome, decide (s₁.graph.kind? 5 = some .fakeQuantize ∧
            5 ∈ plan.region.boundary ∧ plan.grid.precision = .i8 ∧
            s₁.graph.input? 7 0 = some ⟨5, 0⟩ ∧ out.2.graph.isLive 7 = true), out.1)
        | none => return none : Checked _) = .ok (some (.ok (), true, .ok ())) := by
      subst hdef
      decide +kernel
    obtain ⟨⟨outcome, s₁⟩, hanalyses, hanswers⟩ := except_bind_eq_ok.mp hanswers
    obtain ⟨found, hplan, hanswers⟩ := except_bind_eq_ok.mp hanswers
    cases found with
    | none => cases hanswers
    | some plan =>
      obtain ⟨⟨r, s'⟩, hrun, hanswers⟩ := except_bind_eq_ok.mp hanswers
      simp only [pure, Except.pure, Except.ok.injEq, Option.some.injEq, Prod.mk.injEq,
        decide_eq_true_eq] at hanswers
      obtain ⟨rfl, ⟨hkind, hmem, htype, hread, hlive⟩, rfl⟩ := hanswers
      obtain ⟨hserves, hlowers⟩ := (stored_types_serve Settings.default g 5 hg rfl hanalyses .refl hkind).2.1
        7 plan hplan hmem
      obtain ⟨-, v, hlowered, hport⟩ := hlowers s' hrun
      obtain ⟨p, -, hp, hstored⟩ := hport 7 0 hread hlive
      exact ⟨hg, s₁, s', plan, v, p, hanalyses, .refl, hkind, hplan, hmem, hrun, htype, htype ▸ hserves,
        hlowered, hread, hlive, hp, hstored.trans htype⟩

end Pipeline

end LowPrecision
