import LowPrecision.Proofs.Pipeline.Precisions
import LowPrecision.Proofs.Rewrite.Applications
import LowPrecision.Proofs.Rewrite.TracedConcat

/-!
What the operands of lowered kernels are. Integers that come from a fake-quantize are of a type that
the kernel accepts.
-/

namespace LowPrecision

variable {α : Type} [Scalar α] {g₀ g g' : Graph α} {id : NodeId} {type : ElementType}
  {s s' : Session α} {restrictions : List OperationRestriction}

open LowPrecision.Graph

namespace Traced

omit [Scalar α] in
theorem storable (ht : Traced g₀ g) (ha : Markup.Analysed restrictions g₀)
    (hk : g.kind? id = some .fakeQuantize) {p : Port} (hp : g.port? ⟨id, 0⟩ = some p)
    (hreal : p.elementType.isLowPrecision = false)
    (htype : type ∈ Markup.allowedPrecisions g id) : g₀.Storable id type := by
  obtain ⟨f, hf, hport⟩ := Option.bind_eq_some_iff.mp (port?_eq_face g _ ▸ hp)
  have hkind : f.kind = .fakeQuantize := by
    rw [kind?_eq_face, hf] at hk
    exact Option.some.inj hk
  have hid : id < g₀.nodes.size := by
    refine Nat.lt_of_not_le fun hnew => ?_
    rw [(ht.fresh id f hnew hf).2 hkind p (List.mem_of_getElem? hport)] at hreal
    cases hreal
  have hk₀ := ht.kind hid hk
  rw [ht.allowed hid (isLive_iff_face.mpr ⟨_, hf⟩)] at htype
  obtain ⟨height, -⟩ := ha.settled id ⟨ha.wellFormed, ha.ends, hk₀,
    ht.ports ⟨id, 0⟩ hid (by rw [hp]; rfl)⟩
  have hmem := Markup.allowedPrecisions_subset height htype
  exact ⟨hk₀, htype, by revert hmem; cases type <;> decide⟩

end Traced

namespace Decomposition

variable {n : Node α} {data source : Slot} {p : Lowering α} {affine : AffineParams α}
  {weights : Option (Tensor α)} {d : Dequantization α} {g₁ : Graph α}

theorem addSource_traced {name : String} (ht : Traced g₀ g) (hid : g₀.Storable id type)
    (hrun : exec (addSource id name p type weights) g = .ok (.ok source, g₁)) :
    Traced g₀ g₁ ∧ g₀.nodes.size ≤ source.node ∧ source.index = 0 ∧ g₁.isLive source.node = true ∧
      (∃ q, Extends g g₁ q) ∧ Represents g₀ g₁ ⟨id, 0⟩ source := by
  cases weights with
  | some weights =>
    obtain ⟨folded, -, rfl, hadded⟩ := addSource_some ht.wellFormed hrun
    refine ⟨ht.added hadded (.of_kind (k := .constant) rfl (by decide) (by decide)), ht.size, rfl, ?_,
      ⟨fun _ => True, hadded.extends (fun _ _ => trivial) (by simp)⟩, ?_⟩
    · exact isLive_iff_face.mpr ⟨_, hadded.new⟩
    · refine hid.represents ht.size hadded.new (.inr rfl) (fun q hq => ?_) 0
      rw [List.mem_singleton.mp hq]
  | none =>
    obtain ⟨_, _, _, _, _, _, q, _, _, -, -, -, -, rfl, hdoubled⟩ := addSource_doubled ht.wellFormed hrun
    obtain ⟨ht₁, hnew, hk, hrep⟩ := ht.doubled hid hdoubled
    refine ⟨ht₁, hnew, rfl, ?_, ⟨_, hdoubled.toExtends⟩, hrep⟩
    exact isLive_iff_face.mpr ⟨_, hdoubled.fakeQuantize⟩

theorem place_traced (ht : Traced g₀ g) (hn : g.node? id = some n) (hid : g₀.Storable id type)
    (hkind : n.kind = .fakeQuantize)
    (hsource : exec (addSource id n.name p type weights) g = .ok (.ok source, g₁))
    (hrun : exec (place id n weights affine source) g₁ = .ok (.ok d, g')) : Traced g₀ g' := by
  have hk : g.kind? id = some .fakeQuantize := by rw [kind?, hn, Option.map_some, hkind]
  obtain ⟨ht₁, hnew, hindex, hlive, ⟨q, hextends⟩, hrep⟩ := addSource_traced ht hid hsource
  obtain ⟨g₂, hinsert, hreplaced⟩ := place_run hrun
  obtain ⟨port, mid, -, hins⟩ := Dequantization.insert_done ht₁.wellFormed hinsert
  have hslots : ∀ r ∈ n.readers 0, g₁.input? r.node r.index = some ⟨id, 0⟩ := fun r hr =>
    hextends.input (mem_readers_of_node ht.wellFormed hn hr)
  have hk₁ := hextends.kind hk
  have hstart : g₀.kind? source.node ≠ some .fakeQuantize := by
    exact kind?_ne_of_size_le hnew
  have hfed : g₀.Fed ⟨id, 0⟩ := hid.fits.fed
  have hmid : Represents g₀ mid ⟨id, 0⟩ source := hrep.extended hfed hins.built.toExtends
  have hsub : ∀ o, g₀.Fed o → Represents g₀ mid o ⟨id, 0⟩ →
      Represents g₀ mid o source ∧ g₀.kind? source.node ≠ some .fakeQuantize := by
    intro o ho h
    obtain ⟨rfl, -⟩ := hid.eq_of_represents (ht₁.built hins.built) ho h
    exact ⟨hmid, hstart⟩
  have ht₂ : Traced g₀ g₂ := ht₁.inserted hins hslots hk₁ (by decide) hsub
  have hkeeps : ∀ t, Represents g₀ mid ⟨id, 0⟩ t → mid.isLive t.node = true →
      Represents g₀ g₂ ⟨id, 0⟩ t := fun t =>
    hins.keeps hslots (hins.substitutes ht₁.size hk₁ (by decide) hsub) hfed
  rcases successor_eq weights source d with hsuccessor | ⟨scale, hscale⟩
  · rw [hsuccessor] at hreplaced
    refine ht₂.replaced_quantizer hid hnew ?_ (hins.kind hk₁) hreplaced
    have hsame : (⟨source.node, 0⟩ : Slot) = source := by rw [← hindex]
    refine hsame ▸ hkeeps source hmid ?_
    rw [isLive_eq_face] at hlive ⊢
    obtain ⟨f, hf⟩ := Option.isSome_iff_exists.mp hlive
    rw [hins.built.face hf]
    rfl
  · have houtput := Dequantization.output_of_multiply hscale
    obtain ⟨f, _, hf, -⟩ := hins.built.output
    have hend := hkeeps d.output (hins.built.represents ht₁.size hmid hstart)
      (isLive_iff_face.mpr ⟨_, hf⟩)
    have hnode := hins.built.new
    rw [houtput] at hend hnode
    exact ht₂.replaced_quantizer hid (Nat.le_trans ht₁.size hnode) hend (hins.kind hk₁) hreplaced

theorem decompose_traced (ht : Traced g₀ s.graph)
    (hid : ∀ precision ∈ Markup.allowedPrecisions s.graph id,
      g₀.Storable id (storageType s.context.params precision))
    (hrun : exec (decompose id) s = .ok (.ok d, s')) : Traced g₀ s'.graph := by
  obtain ⟨n, _, _, p, _, _, _, hn, hop, -, hprecision, hsource, hplace⟩ := decompose_steps hrun
  exact place_traced ht hn (hid _ hprecision) (congrArg Op.kind hop) hsource hplace

end Decomposition

namespace Rule

variable {m : NodeMatch} {rule : Rule}

theorem apply_traced (hrule : rule ∉ cleanup) (ha : Markup.Analysed restrictions g₀)
    (ht : Traced g₀ s.graph) (hupdate : s.context.params.updatePrecisions = true)
    (hm : rule.pattern.matchAt s.graph id = some m)
    (hcan : rule.canApply s.context s.graph m = .ok true)
    (hrun : exec (rule.apply m) s = .ok (.ok true, s')) : Traced g₀ s'.graph := by
  obtain ⟨n, hn, happlied⟩ := applied_of_apply hm hcan hrun
  have hk : s.graph.kind? id = some n.kind := by rw [kind?, hn]; rfl
  have hstorage : ∀ precision, storageType s.context.params precision = precision := fun precision => by
    rw [storageType, hupdate]
    rfl
  cases happlied with
  | decomposed _ hkind hport hfloat hrun =>
    refine Decomposition.decompose_traced ht (fun precision hprecision => ?_) hrun
    rw [hstorage]
    exact ht.storable ha (hkind ▸ hk) hport (ElementType.not_low_of_float hfloat) hprecision
  | fused _ hm hkind hrun => exact ht.fused (hm ▸ hn) hkind hrun
  | lowered _ hkind _ _ hrun => exact ht.lowered hn hkind hrun
  | joined _ hplan hrun =>
    have haccepted := ConcatPlan.accepted_of_ofConcat? hplan
    refine ConcatPlan.apply_traced ht haccepted (fun b hb => ?_) hrun
    obtain ⟨f, levels, hf, hop, -⟩ := haccepted.isBoundary hb
    obtain ⟨p, hp, hreal⟩ := haccepted.float hb
    have hk : s.graph.kind? b = some .fakeQuantize := by
      rw [kind?_eq_face, hf, Option.map_some, Face.kind, hop]
      rfl
    rw [hstorage]
    exact ht.storable ha hk hp hreal (ConcatPlan.precision_mem hplan hb)
  | sanitized _ hm hkind hrun => exact ht.sanitized (by rw [hm, hk, hkind]) hrun
  | moved hmoves hkind hchain hrun =>
    have hpasses : n.kind.Passes := ⟨rule, by rcases hmoves with rfl | rfl <;> decide, hkind⟩
    have hconcat : n.kind ≠ .concat := by
      intro he
      rw [he] at hkind
      rcases hmoves with rfl | rfl <;> exact absurd hkind (by decide)
    exact (Edit.ensures_moved hpasses hconcat (ht.lt_size_of_passes hk hpasses) _ _ s.graph _ s'.graph
      ⟨⟨ht, hk⟩, hchain⟩ hrun).1 () rfl
  | folded h => exact absurd (by rw [h]; decide) hrule
  | absorbed h => exact absurd (by rcases h with rfl | rfl <;> decide) hrule

end Rule

namespace Pipeline

variable {s₁ : Session α} {settings : Settings}

theorem Evolves.traced (h : Evolves s₁ s) (ha : Markup.Analysed restrictions s₁.graph)
    (hreal : ∀ t p, s₁.graph.port? t = some p → p.elementType.isLowPrecision = false)
    (hupdate : s₁.context.params.updatePrecisions = true) : Traced s₁.graph s.graph := by
  induction h with
  | refl => exact .refl ha.wellFormed ha.marked hreal
  | tail hevolves hstep ih =>
    obtain ⟨id, rule, m, hrule, hm, hcan, hrun⟩ := hstep
    exact Rule.apply_traced hrule ha ih (Evolves.params hevolves ▸ hupdate) hm hcan hrun

structure Restricted (restrictions : List OperationRestriction) (g : Graph α) (id : NodeId)
    (entry : InputRestriction) : Prop where
  listed : ∃ n restriction, g.node? id = some n ∧
    restrictions.find? (·.kind = n.kind) = some restriction ∧ entry ∈ restriction.inputs
  fed : ∃ o, g.input? id entry.index = some o ∧ g.Fed o

omit [Scalar α] in
theorem Restricted.of_quantizer {g : Graph α} {kind : OpKind} {restriction : OperationRestriction}
    {entry : InputRestriction} {f : NodeId} (hk : g.kind? id = some kind)
    (hfind : restrictions.find? (·.kind = kind) = some restriction) (hentry : entry ∈ restriction.inputs)
    (hinput : g.input? id entry.index = some ⟨f, 0⟩) (hf : g.kind? f = some .fakeQuantize) :
    Restricted restrictions g id entry := by
  obtain ⟨n, hn, rfl⟩ := Option.map_eq_some_iff.mp hk
  exact ⟨⟨n, restriction, hn, hfind, hentry⟩, ⟨f, 0⟩, hinput, f, hf, .source⟩

variable {n : Node α} {a b d : Dequantization α} {scale : Tensor α} {rule : Rule}

omit [Scalar α] in
theorem Restricted.type_listed {entry : InputRestriction}
    (h : Restricted restrictions s₁.graph id entry) (ha : Markup.Analysed restrictions s₁.graph)
    (ht : Traced s₁.graph s.graph) (hn : s.graph.node? id = some n)
    (hkind : n.kind = .matMul ∨ n.kind = .convolution ∨ n.kind = .groupConvolution)
    (hd : Dequantization.ofInput s.graph id entry.index = some d) :
    ∃ p, s.graph.port? d.data = some p ∧ p.elementType.isLowPrecision = true ∧
      p.elementType ∈ entry.precisions := by
  obtain ⟨⟨n₁, restriction, hn₁, hfind, hentry⟩, o, ho, hfed⟩ := h
  obtain ⟨output, houtput, hchain⟩ := Option.bind_eq_some_iff.mp hd
  obtain ⟨_, hsame, hrepresents⟩ := ht.slots id entry.index o ho hfed (by rw [isLive, hn]; rfl)
  cases houtput.symm.trans hsame
  obtain ⟨-, -, p, hp, hlow, f, hf, hfeeds, htype⟩ :=
    Dequantization.ofOutput_represents ht hfed hrepresents hchain
  have hk₁ : s₁.graph.kind? id = some n.kind :=
    ht.kind (lt_size_of_node? hn₁) (by rw [kind?, hn]; rfl)
  have hkind₁ : n₁.kind = n.kind := by
    rw [kind?, hn₁] at hk₁
    exact Option.some.inj hk₁
  obtain ⟨hpasses, -, hquantizer, -⟩ := OpKind.computes_of_kernel hkind
  have hcomputes : s₁.graph.preservesPrecision id = false := by
    refine Bool.eq_false_of_not_eq_true fun hpass => ?_
    obtain ⟨k, hk, h⟩ := ha.marked.isPassing hpass
    cases hk₁.symm.trans hk
    exact hpasses h
  have hinput : n₁.input? entry.index = some o := by
    rw [input?, hn₁] at ho
    exact ho
  exact ⟨p, hp, hlow, ha.serves hf htype id n₁ restriction entry o hn₁
    (hkind₁ ▸ hquantizer) hcomputes hfind hentry hinput hfeeds.carries⟩

theorem lowered_of_fires (hrule : rule = .matMul ∨ rule = .convolution) (h : Fires rule id s s') :
    ∃ n a b scale, s.graph.node? id = some n ∧
      (n.kind = .matMul ∨ n.kind = .convolution ∨ n.kind = .groupConvolution) ∧
      Dequantization.ofInput s.graph id 0 = some a ∧ Dequantization.ofInput s.graph id 1 = some b ∧
      exec (lowerKernel id [a.data, b.data] scale) s.graph = .ok (.ok (), s'.graph) := by
  obtain ⟨m, hm, hcan, hrun⟩ := h
  obtain ⟨n, hn, happlied⟩ := Rule.applied_of_apply hm hcan hrun
  cases happlied with
  | lowered _ hkind ha hb hrun => exact ⟨n, _, _, _, hn, hkind, ha, hb, hrun⟩
  | decomposed h | fused h | joined h | sanitized h | folded h =>
    subst h
    simp at hrule
  | moved h | absorbed h => rcases h with rfl | rfl <;> simp at hrule

theorem live_of_lowerKernel (hg : s.graph.Regular) (hn : s.graph.node? id = some n)
    (hkind : n.kind = .matMul ∨ n.kind = .convolution ∨ n.kind = .groupConvolution)
    (ha : Dequantization.ofInput s.graph id 0 = some a) (hb : Dequantization.ofInput s.graph id 1 = some b)
    (hrun : exec (lowerKernel id [a.data, b.data] scale) s.graph = .ok (.ok (), g')) :
    g'.isLive s.graph.nodes.size = true := by
  obtain ⟨rank, hr⟩ := hg.acyclic
  have hone : n.kind.HasOneOutput ∧ ¬ n.kind.IsInterface := by
    rcases hkind with h | h | h <;> rw [h] <;> decide
  obtain ⟨_, _, hexec, -, hface⟩ := lowerKernel_ok hg.wellFormed hr hn (hg.length_outputs hn hone.1) hone.2
    (data_below hr ha hb) scale
  cases hexec.symm.trans hrun
  exact isLive_iff_face.mpr ⟨_, hface⟩

/-- A lowered kernel reads integers, or values that an old fake-quantize or another lowered kernel left
on a quantized grid. Where the analyses saw the data of a fake-quantize at a restricted input, these are
integers of a type that the restriction lists. -/
theorem lowered_kernels_read_listed_types (settings : Settings) (g : Graph α) (hg : g.WellFormed)
    (hreal : ∀ t p, g.port? t = some p → p.elementType.isLowPrecision = false)
    (hupdate : settings.params.updatePrecisions = true)
    (hanalyses : exec (analyses settings) ⟨g, .start settings.params⟩ = .ok (.ok (), s₁))
    (hevolves : Evolves s₁ s) (hrule : rule = .matMul ∨ rule = .convolution)
    (hfires : Fires rule id s s') :
    ∃ n, s.graph.node? id = some n ∧ (g.Regular → s'.graph.isLive s.graph.nodes.size = true) ∧
      ∀ kernel, s'.graph.face? s.graph.nodes.size = some kernel →
        kernel.op = n.op ∧ kernel.relaxed = some (.float 2 1) ∧ kernel.inputs.length = 2 ∧
        ∀ index t, kernel.inputs[index]? = some t → ∃ p, s'.graph.port? t = some p ∧
          (p.elementType.isLowPrecision = true ∨ s.graph.isQuantizedDomain t.node = true) ∧
          ∀ entry, Restricted settings.restrictions s₁.graph id entry → entry.index = index →
            p.elementType.isLowPrecision = true ∧ p.elementType ∈ entry.precisions := by
  have hanalysed := Markup.analysed_of_analyses hg hanalyses
  obtain ⟨⟨attributes, hgraph⟩, hcontext⟩ := annotates_analyses hanalyses
  have htraced : Traced s₁.graph s.graph := by
    refine hevolves.traced hanalysed (fun t p hp => hreal t p ?_) ?_
    · rw [hgraph] at hp
      exact hp
    · rw [hcontext]
      exact hupdate
  obtain ⟨n, a, b, scale, hn, hkind, ha, hb, hrun⟩ := lowered_of_fires hrule hfires
  have hwf := (hfires.descends htraced.wellFormed).wellFormed
  obtain ⟨hkernel, hports⟩ := Traced.operands_of_lowerKernel htraced.wellFormed hn hrun
  refine ⟨n, hn, fun hregular => ?_, fun kernel hface => ?_⟩
  · have hstart := (stays_analyses settings ⟨g, .start settings.params⟩ _ _ (.refl hregular) hanalyses).1
    exact live_of_lowerKernel (hevolves.regular hstart.graph.regular) hn hkind ha hb hrun
  · obtain ⟨hop, hinputs, hrelaxed⟩ := hkernel kernel hface
    refine ⟨hop, hrelaxed, by rw [hinputs]; rfl, fun index t ht => ?_⟩
    obtain ⟨d, hd, rfl⟩ : ∃ d, Dequantization.ofInput s.graph id index = some d ∧ d.data = t := by
      rw [hinputs] at ht
      rcases index with _ | _ | index
      · exact ⟨a, ha, Option.some.inj ht⟩
      · exact ⟨b, hb, Option.some.inj ht⟩
      · cases ht
    obtain ⟨p, hp, hquantized⟩ := Dequantization.quantized_of_ofInput hd
    obtain ⟨p', hp'⟩ := hwf.exists_port (v := s.graph.nodes.size) (i := index)
      (by rw [input?_eq_face, hface]; exact ht)
    have hsame := hports d.data p' (lt_size_of_port hp) hp'
    cases hp.symm.trans hsame
    refine ⟨p, hp', hquantized, fun entry hrestricted hindex => ?_⟩
    subst hindex
    obtain ⟨q, hq, hlisted⟩ := hrestricted.type_listed hanalysed htraced hn hkind hd
    cases hp.symm.trans hq
    exact hlisted

theorem evolves_of_applied {steps : List (NodeId × Rule)} (hg : s.graph.WellFormed)
    (hmain : ∀ e ∈ steps, e.2 ∉ Rule.cleanup)
    (hrun : exec (steps.allM fun e => applyRule e.1 e.2) s = .ok (.ok true, s')) : Evolves s s' := by
  induction steps generalizing s with
  | nil =>
    cases hrun
    exact .refl
  | cons e steps ih =>
    obtain ⟨hfirst, hrest⟩ := List.forall_mem_cons.mp hmain
    rw [List.allM] at hrun
    obtain ⟨applied, t, happlied, hrun⟩ := exec_bind_eq_answer.mp hrun
    rcases applyRule_answer hg happlied with ⟨rfl, hfires⟩ | ⟨rfl, -⟩
    · exact (ih (hfires.descends hg).wellFormed hrest hrun).head (.of_fires hfires hfirst)
    · cases hrun

def stackedKernels : Graph Binary32 :=
  Graph.assemble [("x", .parameter, [], [⟨.f32, some [1, 1, 1, 1]⟩]),
    ("low", .constant (Tensor.scalar (Arithmetic.ofRat 0)), [], [⟨.f32, some []⟩]),
    ("high", .constant (Tensor.scalar (Arithmetic.ofRat (51 / 20))), [], [⟨.f32, some []⟩]),
    ("data", .fakeQuantize 256, [⟨0, 0⟩, ⟨1, 0⟩, ⟨2, 0⟩, ⟨1, 0⟩, ⟨2, 0⟩],
      [⟨.f32, some [1, 1, 1, 1]⟩]),
    ("kernel", .constant ⟨[1, 1, 1, 1], [Arithmetic.ofRat 1]⟩, [], [⟨.f32, some [1, 1, 1, 1]⟩]),
    ("lowest", .constant (Tensor.scalar (Arithmetic.ofRat (-127 / 100))), [], [⟨.f32, some []⟩]),
    ("highest", .constant (Tensor.scalar (Arithmetic.ofRat (127 / 100))), [], [⟨.f32, some []⟩]),
    ("weights", .fakeQuantize 255, [⟨4, 0⟩, ⟨5, 0⟩, ⟨6, 0⟩, ⟨5, 0⟩, ⟨6, 0⟩],
      [⟨.f32, some [1, 1, 1, 1]⟩]),
    ("first", .convolution, [⟨3, 0⟩, ⟨7, 0⟩], [⟨.f32, some [1, 1, 1, 1]⟩]),
    ("second", .convolution, [⟨8, 0⟩, ⟨7, 0⟩], [⟨.f32, some [1, 1, 1, 1]⟩]),
    ("y", .result, [⟨9, 0⟩], [])]

theorem stackedKernels_regular : stackedKernels.Regular :=
  Graph.assemble_regular (by simp [OpKind.HasOneOutput, Op.kind])

theorem stackedKernels_float (t : Slot) (p : Port) (hp : stackedKernels.port? t = some p) :
    p.elementType = .f32 := by
  obtain ⟨n, hn, hmem⟩ := Graph.assemble_port hp
  simp only [List.mem_cons, List.not_mem_nil, or_false] at hn
  rcases hn with rfl | rfl | rfl | rfl | rfl | rfl | rfl | rfl | rfl | rfl | rfl <;> simp at hmem <;>
    rw [hmem]

theorem lowered_kernels_read_listed_types_of_stackedKernels :
    stackedKernels.Regular ∧ (∀ t p, stackedKernels.port? t = some p → p.elementType.isLowPrecision = false) ∧
      Settings.default.params.updatePrecisions = true ∧ ∃ s₁ s s' : Session Binary32,
        exec (analyses .default) ⟨stackedKernels, .start Settings.default.params⟩ = .ok (.ok (), s₁) ∧
        Evolves s₁ s ∧ Fires .convolution 8 s s' ∧
        Restricted Settings.default.restrictions s₁.graph 8 ⟨0, [.u8]⟩ ∧
        Restricted Settings.default.restrictions s₁.graph 8 ⟨1, [.i8]⟩ ∧
        ∃ kernel, s'.graph.face? s.graph.nodes.size = some kernel ∧
          (∃ t p, kernel.inputs[0]? = some t ∧ s'.graph.port? t = some p ∧ p.elementType ∈ [.u8]) ∧
          ∃ t p, kernel.inputs[1]? = some t ∧ s'.graph.port? t = some p ∧ p.elementType ∈ [.i8] := by
  have hfloat : ∀ t p, stackedKernels.port? t = some p → p.elementType.isLowPrecision = false := by
    intro t p hp
    rw [stackedKernels_float t p hp]
    rfl
  have hanswers : (exec (analyses .default) ⟨stackedKernels, .start Settings.default.params⟩ >>= fun analysed =>
      exec ([(3, Rule.decomposition), (7, .decomposition)].allM fun e => applyRule e.1 e.2) analysed.2 >>=
        fun lowered => (exec (applyRule 8 .convolution) lowered.2).map fun replaced =>
          ((analysed.1.toOption, lowered.1.toOption, replaced.1.toOption),
            decide (analysed.2.graph.kind? 8 = some .convolution ∧
              [0, 1].map (analysed.2.graph.input? 8) = [some ⟨3, 0⟩, some ⟨7, 0⟩] ∧
              [3, 7].map analysed.2.graph.kind? = [some .fakeQuantize, some .fakeQuantize]))) =
      .ok ((some (), some true, some true), true) := by decide +kernel
  obtain ⟨⟨analysed, s₁⟩, hanalyses, hanswers⟩ := except_bind_eq_ok.mp hanswers
  obtain ⟨⟨lowered, s⟩, hlowered, hanswers⟩ := except_bind_eq_ok.mp hanswers
  obtain ⟨⟨replaced, s'⟩, hreplaced, hanswers⟩ := except_map_eq_ok.mp hanswers
  obtain ⟨houtcomes, hfacts⟩ := Prod.mk.inj hanswers
  obtain ⟨rfl, rfl, rfl⟩ : analysed = .ok () ∧ lowered = .ok true ∧ replaced = .ok true := by
    simpa [except_toOption_eq_some] using houtcomes
  obtain ⟨hkind, hinputs, hquantizers⟩ := of_decide_eq_true hfacts
  have hwf := (Markup.analysed_of_analyses stackedKernels_regular.wellFormed hanalyses).wellFormed
  have hevolves : Evolves s₁ s := evolves_of_applied hwf (by decide) hlowered
  have hfires : Fires .convolution 8 s s' := by
    rcases applyRule_answer (hevolves.descends hwf).wellFormed hreplaced with ⟨-, h⟩ | ⟨h, -⟩
    · exact h
    · cases h
  have hrestricted : Restricted Settings.default.restrictions s₁.graph 8 ⟨0, [.u8]⟩ ∧
      Restricted Settings.default.restrictions s₁.graph 8 ⟨1, [.i8]⟩ := by
    simp only [List.map_cons, List.map_nil, List.cons.injEq, and_true] at hinputs hquantizers
    exact ⟨.of_quantizer hkind rfl (by decide) hinputs.1 hquantizers.1,
      .of_quantizer hkind rfl (by decide) hinputs.2 hquantizers.2⟩
  obtain ⟨n, -, hlive, hkernel⟩ := lowered_kernels_read_listed_types .default stackedKernels
    stackedKernels_regular.wellFormed hfloat rfl hanalyses hevolves (.inr rfl) hfires
  obtain ⟨kernel, hface⟩ := Option.isSome_iff_exists.mp
    (isLive_eq_face s'.graph _ ▸ hlive stackedKernels_regular)
  obtain ⟨-, -, hlength, hreads⟩ := hkernel kernel hface
  have hread : ∀ index < 2, ∀ types, Restricted Settings.default.restrictions s₁.graph 8 ⟨index, types⟩ →
      ∃ t p, kernel.inputs[index]? = some t ∧ s'.graph.port? t = some p ∧ p.elementType ∈ types := by
    intro index hindex types h
    have ht := List.getElem?_eq_getElem (hlength ▸ hindex : index < kernel.inputs.length)
    obtain ⟨p, hp, -, hlisted⟩ := hreads index _ ht
    exact ⟨_, p, ht, hp, (hlisted _ h rfl).2⟩
  exact ⟨stackedKernels_regular, hfloat, rfl, s₁, s, s', hanalyses, hevolves, hfires, hrestricted.1,
    hrestricted.2, kernel, hface, hread 0 (by decide) _ hrestricted.1, hread 1 (by decide) _ hrestricted.2⟩

theorem stacked_kernel_reads_float :
    stackedKernels.Regular ∧ (∀ t p, stackedKernels.port? t = some p → p.elementType = .f32) ∧
      (∀ v f, stackedKernels.face? v = some f → f.relaxed = none) ∧
      Settings.default.params.updatePrecisions = true ∧
      Settings.default.restriction? .convolution = some ⟨.convolution, [⟨0, [.u8]⟩, ⟨1, [.i8]⟩]⟩ ∧
      ∃ report g' kernel t p, run .default stackedKernels = .ok (.ok report, g') ∧
        stackedKernels.nodes.size ≤ 24 ∧ g'.face? 24 = some kernel ∧ kernel.kind = .convolution ∧
        kernel.relaxed = some (.float 2 1) ∧ kernel.inputs[0]? = some t ∧ g'.port? t = some p ∧
        p.elementType = .f32 := by
  have hrun : ((run .default stackedKernels).map fun out => (out.1.map Report.converged,
      (out.2.face? 24).map fun f => ((f.kind, f.relaxed),
        (f.inputs[0]?.bind out.2.port?).map Port.elementType))) =
        .ok (.ok true, some ((.convolution, some (.float 2 1)), some .f32)) := by decide +kernel
  obtain ⟨⟨outcome, g'⟩, hrun, hfacts⟩ := except_map_eq_ok.mp hrun
  obtain ⟨houtcome, hfacts⟩ := Prod.mk.inj hfacts
  obtain ⟨report, rfl, -⟩ := except_map_eq_ok.mp houtcome
  obtain ⟨kernel, hface, hfacts⟩ := Option.map_eq_some_iff.mp hfacts
  obtain ⟨hkernel, hread⟩ := Prod.mk.inj hfacts
  obtain ⟨hkind, hrelaxed⟩ := Prod.mk.inj hkernel
  obtain ⟨p, hp, htype⟩ := Option.map_eq_some_iff.mp hread
  obtain ⟨t, ht, hp⟩ := Option.bind_eq_some_iff.mp hp
  refine ⟨stackedKernels_regular, stackedKernels_float, fun v f hf => ?_, rfl, rfl, report, g', kernel, t, p,
    hrun, by decide +kernel, hface, hkind, hrelaxed, ht, hp, htype⟩
  obtain ⟨n, -, rfl⟩ := Graph.assemble_face hf
  rfl

end Pipeline

end LowPrecision
