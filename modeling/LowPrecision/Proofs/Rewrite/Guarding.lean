import LowPrecision.Proofs.Rewrite.Shapes

/-!
Who reads integers. Conversions do, operations whose types are relaxed, and operations that pass the
type on to their outputs; all others compute on floats. While a rule is at work some outputs are not to
be read yet, and some nodes are exempt.
-/

namespace LowPrecision

variable {α : Type} {g g' : Graph α} {lax : Prop} {pending pending' : Slot → Prop}
  {busy : NodeId → Prop} {v : NodeId} {f : Face α} {s s' : Slot} {type : ElementType}

namespace Face

def Takes (f : Face α) (type : ElementType) : Prop :=
  f.kind = .convert ∨ f.relaxed.isSome ∨ f.kind.Passes ∧ ∀ p ∈ f.ports, p.elementType = type

def Accepts (lax : Prop) (f : Face α) (type : ElementType) : Prop :=
  if f.kind = .fakeQuantize then lax else f.Takes type

structure Typed (f : Face α) : Prop where
  low (p : Port) : p ∈ f.ports → p.elementType.isLowPrecision = true →
    f.kind = .fakeQuantize ∨ f.kind = .constant ∨ f.kind.Passes
  converted (type : ElementType) (p : Port) : f.op = .convert type → p ∈ f.ports →
    p.elementType = type

theorem Typed.of_real (h : ∀ p ∈ f.ports, p.elementType.isLowPrecision = false)
    (hkind : f.kind ≠ .convert) : f.Typed where
  low p hp hlow := by
    rw [h p hp] at hlow
    cases hlow
  converted _ _ hop _ := absurd (congrArg Op.kind hop) hkind

theorem Typed.of_kind (h : f.kind = .fakeQuantize ∨ f.kind = .constant ∨ f.kind.Passes) : f.Typed where
  low _ _ _ := h
  converted type p hop _ := by
    rw [show f.kind = .convert from congrArg Op.kind hop] at h
    exact absurd h (by decide)

theorem Typed.changed {f' : Face α} (h : f.Typed) (hop : f'.op = f.op)
    (hports : f'.ports = f.ports ∨ f.kind.Passes) : f'.Typed := by
  have hkind : f'.kind = f.kind := congrArg Op.kind hop
  rcases hports with hports | hpasses
  · exact ⟨fun p hp hlow => hkind ▸ h.low p (hports ▸ hp) hlow,
      fun type p hconvert hp => h.converted type p (hop ▸ hconvert) (hports ▸ hp)⟩
  · exact .of_kind (.inr (.inr (hkind ▸ hpasses)))

theorem Takes.mono {f' : Face α} (h : f.Takes type) (hop : f'.op = f.op) (hports : f'.ports = f.ports)
    (hrelaxed : f.relaxed.isSome → f'.relaxed.isSome) : f'.Takes type := by
  rw [Takes, kind, hop, hports]
  exact h.imp_right (.imp_left hrelaxed)

theorem accepts_iff_of_quantizer (hkind : f.kind = .fakeQuantize) : f.Accepts lax type ↔ lax := by
  rw [Accepts, if_pos hkind]

theorem Accepts.mono {f' : Face α} (h : f.Accepts lax type) (hop : f'.op = f.op)
    (hports : f'.ports = f.ports) (hrelaxed : f.relaxed.isSome → f'.relaxed.isSome) :
    f'.Accepts lax type := by
  have hkind : f'.kind = f.kind := congrArg Op.kind hop
  by_cases hquantizer : f.kind = .fakeQuantize
  · rw [Accepts, if_pos hquantizer] at h
    rwa [Accepts, hkind, if_pos hquantizer]
  · rw [Accepts, if_neg hquantizer] at h
    rw [Accepts, hkind, if_neg hquantizer]
    exact h.mono hop hports hrelaxed

theorem accepts_of_takes (h : f.Takes type) (hkind : f.kind ≠ .fakeQuantize) : f.Accepts lax type := by
  rw [Accepts, if_neg hkind]
  exact h

end Face

namespace Graph

structure Raw (g : Graph α) (pending : Slot → Prop) (s : Slot) (type : ElementType) : Prop where
  settled : ¬ pending s
  low : type.isLowPrecision = true
  port : (g.port? s).map Port.elementType = some type

structure ReadsWell (lax : Prop) (pending : Slot → Prop) (g : Graph α) (f : Face α) : Prop where
  takes (s : Slot) (type : ElementType) : s ∈ f.inputs → g.Raw pending s type → f.Accepts lax type
  first (s : Slot) (p : Port) : f.kind.Passes → f.inputs[0]? = some s → p ∈ f.ports →
    p.elementType.isLowPrecision = true → g.Raw pending s p.elementType

/-- Only nodes that pass precision through are marked so, and all nodes only read integers that they
accept, save for those that are busy. -/
structure Guarded (lax : Prop) (pending : Slot → Prop) (busy : NodeId → Prop) (g : Graph α) : Prop where
  wellFormed : g.WellFormed
  marked (e : AttributeKey × Attribute) : e ∈ g.attributes.entries → e.2 = .precisionPreserved true →
    e.1.target.owner < g.nodes.size ∧
      ∀ f, g.face? e.1.target.owner = some f → f.kind.Passes
  typed (v : NodeId) (f : Face α) : g.face? v = some f → f.Typed
  reads (v : NodeId) (f : Face α) : g.face? v = some f → ¬ busy v → g.ReadsWell lax pending f

abbrev WellGuarded (lax : Prop) (g : Graph α) : Prop := g.Guarded lax (fun _ => False) fun _ => False

theorem raw_congr (hpending : pending s ↔ pending' s')
    (htype : (g.port? s).map Port.elementType = (g'.port? s').map Port.elementType) :
    g.Raw pending s type ↔ g'.Raw pending' s' type := by
  constructor
  · rintro ⟨hsettled, hlow, hp⟩
    exact ⟨fun h => hsettled (hpending.mpr h), hlow, htype ▸ hp⟩
  · rintro ⟨hsettled, hlow, hp⟩
    exact ⟨fun h => hsettled (hpending.mp h), hlow, htype ▸ hp⟩

theorem raw_of_eq (hpending : pending s ↔ pending' s') (hport : g.port? s = g'.port? s') :
    g.Raw pending s type ↔ g'.Raw pending' s' type := raw_congr hpending (by rw [hport])

theorem Raw.eq_of_port {p : Port} (h : g.Raw pending s type) (hp : g.port? s = some p) :
    p.elementType = type := by
  have hport := h.port
  rw [hp] at hport
  exact Option.some.inj hport

def KeepsMarks (g g' : Graph α) : Prop :=
  ∀ e ∈ g'.attributes.entries, e.2 = .precisionPreserved true → ∃ e' ∈ g.attributes.entries,
    e'.2 = .precisionPreserved true ∧ e'.1.target.owner = e.1.target.owner

theorem KeepsMarks.of_eq (h : g'.attributes = g.attributes) : g.KeepsMarks g' :=
  fun e he hmark => ⟨e, h ▸ he, hmark, rfl⟩

theorem KeepsMarks.of_inherits {old new : NodeId} (h : Inherits old new g g')
    (hold : ∀ e ∈ g.attributes.entries, e.2 = .precisionPreserved true →
      e.1.target.owner ≠ old) : g.KeepsMarks g' := by
  intro e he hmark
  rcases h.gained e he with hmem | ⟨-, e', hmem, howner, hsame⟩
  · exact ⟨e, hmem, hmark, rfl⟩
  · exact absurd howner (hold e' hmem (hsame.trans hmark))

theorem KeepsMarks.removeDead (g : Graph α) (stack : List NodeId) :
    g.KeepsMarks (g.removeDead stack) := by
  intro e he hmark
  rcases (removeDead_inherits 0 0 g stack).gained e he with hmem | ⟨howner, e', hmem, howner', hsame⟩
  · exact ⟨e, hmem, hmark, rfl⟩
  · exact ⟨e', hmem, hsame.trans hmark, howner'.trans howner.symm⟩

theorem not_raw_of_port {p : Port} (hp : g.port? s = some p)
    (hreal : p.elementType.isLowPrecision = false) : ¬ g.Raw pending s type := by
  intro h
  have hlow := h.low
  rw [← h.eq_of_port hp, hreal] at hlow
  cases hlow

theorem ReadsWell.of_inputs_nil (h : f.inputs = []) : g.ReadsWell lax pending f where
  takes _ _ hs := absurd (h ▸ hs) List.not_mem_nil
  first _ _ _ hs := by
    rw [h] at hs
    cases hs

theorem ReadsWell.of_accepts (hkind : ¬ f.kind.Passes)
    (h : ∀ s ∈ f.inputs, ∀ type, g.Raw pending s type → f.Accepts lax type) :
    g.ReadsWell lax pending f where
  takes s type hs := h s hs type
  first _ _ hpasses := absurd hpasses hkind

theorem ReadsWell.of_relaxed (hrelaxed : f.relaxed.isSome) (hpasses : ¬ f.kind.Passes)
    (hkind : f.kind ≠ .fakeQuantize) : g.ReadsWell lax pending f :=
  .of_accepts hpasses fun _ _ _ _ => Face.accepts_of_takes (.inr (.inl hrelaxed)) hkind

namespace Guarded

variable (h : Guarded lax pending busy g)
include h

theorem not_raw_of_kind {k : OpKind} (hk : g.kind? s.node = some k)
    (hkind : ¬ (k = .fakeQuantize ∨ k = .constant ∨ k.Passes)) : ¬ g.Raw pending s type := by
  intro hraw
  obtain ⟨p, hp, htype⟩ := Option.map_eq_some_iff.mp hraw.port
  obtain ⟨f, hf, rfl⟩ := face_of_kind hk
  exact hkind ((h.typed s.node f hf).low p (mem_ports hf hp) (htype ▸ hraw.low))

theorem step {busy' : NodeId → Prop} (hwf : g'.WellFormed) (hsize : g.nodes.size ≤ g'.nodes.size)
    (hmarks : g.KeepsMarks g')
    (hold : ∀ v f', v < g.nodes.size → g'.face? v = some f' → ∃ f, g.face? v = some f ∧
      f'.op = f.op ∧ (f'.ports = f.ports ∨ f.kind.Passes) ∧ (¬ busy' v → ¬ busy v ∧
        f'.ports = f.ports ∧ (f.relaxed.isSome → f'.relaxed.isSome) ∧
        List.Forall₂ (fun s s' => ∀ type, g.Raw pending s type ↔ g'.Raw pending' s' type)
          f.inputs f'.inputs))
    (hnew : ∀ v f, g.nodes.size ≤ v → g'.face? v = some f → f.Typed ∧ g'.ReadsWell lax pending' f) :
    Guarded lax pending' busy' g' where
  wellFormed := hwf
  marked e he hmark := by
    obtain ⟨e', he', hmark', hsame⟩ := hmarks e he hmark
    obtain ⟨howner, hpasses⟩ := h.marked e' he' hmark'
    rw [hsame] at howner hpasses
    refine ⟨Nat.lt_of_lt_of_le howner hsize, fun f' hf' => ?_⟩
    obtain ⟨f, hf, hop, -⟩ := hold _ f' howner hf'
    rw [Face.kind, hop]
    exact hpasses f hf
  typed v f' hf' := by
    rcases Nat.lt_or_ge v g.nodes.size with hlt | hge
    · obtain ⟨f, hf, hop, hports, -⟩ := hold v f' hlt hf'
      exact (h.typed v f hf).changed hop hports
    · exact (hnew v f' hge hf').1
  reads v f' hf' hbusy := by
    rcases Nat.lt_or_ge v g.nodes.size with hlt | hge
    rotate_left
    · exact (hnew v f' hge hf').2
    obtain ⟨f, hf, hop, -, hsame⟩ := hold v f' hlt hf'
    obtain ⟨hidle, hports, hrelaxed, hinputs⟩ := hsame hbusy
    have hreads := h.reads v f hf hidle
    refine ⟨fun s' type hs' hraw => ?_, fun s' p hpasses hs' hp hlow => ?_⟩
    · obtain ⟨i, hi⟩ := List.mem_iff_getElem?.mp hs'
      obtain ⟨s, hs, hsame⟩ := forall₂_getElem? hinputs.flip hi
      exact (hreads.takes s type (List.mem_of_getElem? hs) ((hsame type).mpr hraw)).mono hop hports hrelaxed
    · obtain ⟨s, hs, hsame⟩ := forall₂_getElem? hinputs.flip hs'
      rw [Face.kind, hop] at hpasses
      exact (hsame p.elementType).mp (hreads.first s p hpasses hs (hports ▸ hp) hlow)

theorem extended {p : Slot → Prop} (he : Extends g g' p)
    (hpending : ∀ s, s.node < g.nodes.size → (pending s ↔ pending' s))
    (hnew : ∀ v f, g.nodes.size ≤ v → g'.face? v = some f → f.Typed ∧ g'.ReadsWell lax pending' f) :
    Guarded lax pending' busy g' := by
  refine h.step he.wellFormed he.size (.of_eq he.attributes) (fun v f hv hf => ?_) hnew
  have hf₀ : g.face? v = some f := he.old v hv ▸ hf
  refine ⟨f, hf₀, rfl, .inl rfl, fun hbusy => ⟨hbusy, rfl, id, List.forall₂_same.mpr fun s hs type => ?_⟩⟩
  obtain ⟨i, hi⟩ := List.mem_iff_getElem?.mp hs
  obtain ⟨p, hp⟩ := h.wellFormed.exists_port (v := v) (i := i) (by rw [input?_eq_face, hf₀]; exact hi)
  exact raw_of_eq (hpending s (lt_size_of_port hp)) (hp.trans (he.port hp).symm)

theorem added (ha : Added g g' f) (hread : ∀ s ∈ f.inputs, (g.port? s).isSome)
    (hpending : ∀ s, s.node < g.nodes.size → (pending s ↔ pending' s)) (htyped : f.Typed)
    (hreads : g'.ReadsWell lax pending' f) : Guarded lax pending' busy g' := by
  refine h.extended (ha.extends (p := fun _ => True) (fun _ _ => trivial) hread) hpending
    fun v k hv hk => ?_
  obtain ⟨-, rfl⟩ := ha.eq_new hv hk
  exact ⟨htyped, hreads⟩

theorem rerouted {move : Slot → Slot → Prop} (hr : Rerouted move g g')
    (hsize : g'.nodes.size = g.nodes.size)
    (hmarks : g.KeepsMarks g')
    (hmove : ∀ v i s s' type, ¬ busy v → g.input? v i = some s → move s s' →
      (g.Raw pending s type ↔ g.Raw pending s' type)) : Guarded lax pending busy g' := by
  refine h.step hr.wellFormed hr.size hmarks (fun v f' hv hf' => ?_)
    fun v f hv hf => absurd (lt_size_of_face? hf) (Nat.not_lt.mpr (hsize ▸ hv))
  obtain ⟨f, hf, hsame⟩ := hr.face v f' hv hf'
  refine ⟨f, hf, hsame.op, .inl hsame.ports, fun hbusy => ⟨hbusy, hsame.ports, fun hrelaxed => ?_, ?_⟩⟩
  · rw [hsame.relaxed]
    exact hrelaxed
  refine List.forall₂_iff_get.mpr ⟨hsame.inputs.length_eq, fun i hi hi' type => ?_⟩
  rw [List.get_eq_getElem, List.get_eq_getElem]
  have hread' : g'.input? v i = some f'.inputs[i] := by
    rw [input?_eq_face, hf']
    exact List.getElem?_eq_getElem hi'
  have hread : g.input? v i = some f.inputs[i] := by
    rw [input?_eq_face, hf]
    exact List.getElem?_eq_getElem hi
  obtain ⟨p, hp⟩ := hr.wellFormed.exists_port hread'
  have hkept : g.Raw pending f'.inputs[i] type ↔ g'.Raw pending f'.inputs[i] type :=
    raw_of_eq .rfl ((hr.port (hsize ▸ lt_size_of_port hp) hp).trans hp.symm)
  refine Iff.trans ?_ hkept
  rcases hsame.inputs.get hi hi' with hsame | hmoved
  · exact iff_of_eq (by rw [show f'.inputs[i] = f.inputs[i] from hsame])
  · exact hmove v i _ _ type hbusy hread hmoved

theorem recast {change : NodeId → Face α → Face α} (hr : Recast g g' change)
    (hchange : ∀ v f, g.face? v = some f → (change v f).op = f.op ∧
      ((change v f).ports = f.ports ∨ f.kind.Passes) ∧ (¬ busy v →
        (change v f).ports = f.ports ∧ (f.relaxed.isSome → (change v f).relaxed.isSome) ∧
        (change v f).inputs = f.inputs))
    (hport : ∀ s, ¬ pending s → g'.port? s = g.port? s) : Guarded lax pending busy g' := by
  refine h.step hr.wellFormed (Nat.le_of_eq hr.size.symm) (.of_eq hr.attributes)
    (fun v f' _ hf' => ?_) fun v f hv hf => absurd (lt_size_of_face? hf) (Nat.not_lt.mpr (hr.size ▸ hv))
  rw [hr.face] at hf'
  obtain ⟨f, hf, rfl⟩ := Option.map_eq_some_iff.mp hf'
  obtain ⟨hop, hports, hsame⟩ := hchange v f hf
  refine ⟨f, hf, hop, hports, fun hbusy => ?_⟩
  obtain ⟨hports, hrelaxed, hinputs⟩ := hsame hbusy
  refine ⟨hbusy, hports, hrelaxed, hinputs ▸ List.forall₂_same.mpr fun s _ type => ⟨?_, ?_⟩⟩
  · exact fun hraw => (raw_of_eq .rfl (hport s hraw.settled).symm).mp hraw
  · exact fun hraw => (raw_of_eq .rfl (hport s hraw.settled).symm).mpr hraw

theorem relaxed {id : NodeId} {types : RelaxedTypes}
    (hr : Recast g g' fun v f => if v = id then f.relax types else f) : Guarded lax pending busy g' := by
  refine h.recast hr (fun v f _ => ?_) fun s _ => hr.port (fun v f => by split <;> rfl) s
  split
  · exact ⟨rfl, .inl rfl, fun _ => ⟨rfl, fun _ => rfl, rfl⟩⟩
  · exact ⟨rfl, .inl rfl, fun _ => ⟨rfl, fun h => h, rfl⟩⟩

theorem retyped {type : ElementType}
    (hr : Recast g g' fun v f => if v = s.node then f.retype s.index type else f)
    (hpasses : ∀ f, g.face? s.node = some f → f.kind.Passes) (hbusy : busy s.node) (hs : pending s) :
    Guarded lax pending busy g' := by
  refine h.recast hr (fun v f hf => ?_) fun t ht => hr.port_of_ne fun he => ht (he ▸ hs)
  split
  · next hv => exact ⟨rfl, .inr (hpasses f (hv ▸ hf)), fun hidle => absurd (hv ▸ hbusy) hidle⟩
  · exact ⟨rfl, .inl rfl, fun _ => ⟨rfl, fun h => h, rfl⟩⟩

theorem redirected {id : NodeId} {index : Nat} {source : Slot}
    (hr : Recast g g' fun v f => f.redirect v [⟨id, index⟩] source) (hbusy : busy id) :
    Guarded lax pending busy g' := by
  refine h.recast hr (fun v f _ => ⟨rfl, .inl rfl, fun hidle => ⟨rfl, fun h => h, ?_⟩⟩)
    fun s _ => hr.port (fun _ _ => rfl) s
  rw [Face.redirect_of_not_mem]
  intro i hi
  obtain rfl : v = id := congrArg Slot.node (List.mem_singleton.mp hi)
  exact hidle hbusy

theorem of_faces (hwf : g'.WellFormed) (hsize : g'.nodes.size = g.nodes.size)
    (hface : ∀ v, g'.face? v = g.face? v) (hmarks : g.KeepsMarks g') : Guarded lax pending busy g' :=
  have hr : Rerouted (fun _ _ => False) g g' :=
    ⟨hwf, Nat.le_of_eq hsize.symm, fun v f' _ hf' => ⟨f', hface v ▸ hf', .refl f'⟩⟩
  h.rerouted hr hsize hmarks fun _ _ _ _ _ _ _ hmove => hmove.elim

theorem renamed {id : NodeId} {name : String} (hrun : g.rename id name = (.ok (), g')) :
    Guarded lax pending busy g' := by
  obtain ⟨hwf, hsize, hface, hattributes⟩ := rename_done h.wellFormed hrun
  exact h.of_faces hwf hsize hface (.of_eq hattributes)

theorem removed (stack : List NodeId) : Guarded lax pending busy (g.removeDead stack) := by
  have hpruned := h.wellFormed.pruned stack
  have hr : Rerouted (fun _ _ => False) g (g.removeDead stack) := hpruned.rerouted
  exact h.rerouted hr hpruned.size (.removeDead g stack) fun _ _ _ _ _ _ _ hmove => hmove.elim

theorem replaced {old new : NodeId}
    (hrun : exec (replaceNode old new : Edit α GraphError Unit) g = .ok (.ok (), g'))
    (hkind : ∀ f, g.face? old = some f → ¬ f.kind.Passes)
    (hraw : ∀ v i j type, ¬ busy v → g.input? v i = some ⟨old, j⟩ →
      (g.Raw pending ⟨old, j⟩ type ↔ g.Raw pending ⟨new, j⟩ type)) : Guarded lax pending busy g' := by
  obtain ⟨⟨f, _, hf, -⟩, hrerouted, hsize, hinherits⟩ := replaceNode_rerouted h.wellFormed hrun
  refine h.rerouted hrerouted hsize (.of_inherits hinherits fun e he hmark howner => ?_) ?_
  · have hpasses := (h.marked e he hmark).2
    rw [howner] at hpasses
    exact hkind f hf (hpasses f hf)
  · rintro v i ⟨_, j⟩ _ type hbusy hi ⟨rfl, rfl⟩
    exact hraw v i j type hbusy hi

theorem exempted {busy' : NodeId → Prop} (hpending : ∀ s, pending s → pending' s)
    (hraw : ∀ s type, pending' s → ¬ g.Raw pending s type) (hbusy : ∀ v, busy v → busy' v) :
    Guarded lax pending' busy' g where
  wellFormed := h.wellFormed
  marked := h.marked
  typed := h.typed
  reads v f hf hidle := by
    have hreads := h.reads v f hf fun hb => hidle (hbusy v hb)
    refine ⟨fun s type hs hr => hreads.takes s type hs ⟨fun hp => hr.settled (hpending s hp), hr.low, hr.port⟩,
      fun s p hpasses hs hp hlow => ?_⟩
    have hr := hreads.first s p hpasses hs hp hlow
    exact ⟨fun hp => hraw s _ hp hr, hr.low, hr.port⟩

theorem settled (hpending : ∀ s, pending' s → pending s)
    (hreads : ∀ v f, g.face? v = some f → ¬ busy v → ∀ s ∈ f.inputs, pending s → ∀ type,
      g.Raw pending' s type → f.Accepts lax type) : Guarded lax pending' busy g where
  wellFormed := h.wellFormed
  marked := h.marked
  typed := h.typed
  reads v f hf hidle := by
    have hwell := h.reads v f hf hidle
    refine ⟨fun s type hs hr => ?_, fun s p hpasses hs hp hlow => ?_⟩
    · by_cases hp : pending s
      · exact hreads v f hf hidle s hs hp type hr
      · exact hwell.takes s type hs ⟨hp, hr.low, hr.port⟩
    · have hr := hwell.first s p hpasses hs hp hlow
      exact ⟨fun hp => hr.settled (hpending s hp), hr.low, hr.port⟩

theorem narrowed (hsub : ∀ s, pending' s → pending s)
    (hpending : ∀ s p, g.port? s = some p → pending s → pending' s) :
    Guarded lax pending' busy g :=
  h.settled hsub fun _ _ _ _ s _ hs _ hraw => by
    obtain ⟨p, hp, -⟩ := Option.map_eq_some_iff.mp hraw.port
    exact absurd (hpending s p hp hs) hraw.settled

theorem released {busy' : NodeId → Prop}
    (hreads : ∀ v f, g.face? v = some f → busy v → ¬ busy' v → g.ReadsWell lax pending f) :
    Guarded lax pending busy' g where
  wellFormed := h.wellFormed
  marked := h.marked
  typed := h.typed
  reads v f hf hidle := by
    by_cases hb : busy v
    · exact hreads v f hf hb hidle
    · exact h.reads v f hf hb

end Guarded

section Chains

theorem IsChainStep.of_ports (h : g.IsChainStep f) (hports : ∀ s p, g.port? s = some p → g'.port? s = some p) :
    g'.IsChainStep f := by
  obtain ⟨port, hsingle, hstep⟩ := h
  refine ⟨port, hsingle, hstep.imp_right (.imp_right fun ⟨hop, htype, hinputs⟩ => ⟨hop, htype, ?_⟩)⟩
  intro s hs
  obtain ⟨p, hp, hreal⟩ := hinputs s hs
  exact ⟨p, hports s p hp, hreal⟩

theorem IsChainStep.typed (h : g.IsChainStep f) : f.Typed := by
  obtain ⟨port, hports, ⟨hop, htype⟩ | ⟨-, value, hop⟩ | ⟨hop, htype, -⟩⟩ := h
  · refine ⟨fun p hp hlow => ?_, fun type p hconvert hp => ?_⟩ <;>
      obtain rfl := List.mem_singleton.mp (hports ▸ hp)
    · rw [htype] at hlow
      cases hlow
    · cases hop.symm.trans hconvert
      exact htype
  · exact .of_kind (.inr (.inl (congrArg Op.kind hop)))
  · refine .of_real (fun p hp => ?_) ?_
    · obtain rfl := List.mem_singleton.mp (hports ▸ hp)
      rw [htype]
      rfl
    · rcases hop with hop | hop <;> rw [Face.kind, hop] <;> rintro ⟨⟩

theorem IsChainStep.accepts (h : g.IsChainStep f) (hs : s ∈ f.inputs) (hraw : g.Raw pending s type) :
    f.Accepts lax type := by
  obtain ⟨-, -, ⟨hop, -⟩ | ⟨hnil, -⟩ | ⟨-, -, hinputs⟩⟩ := h
  · have hkind : f.kind = .convert := congrArg Op.kind hop
    exact Face.accepts_of_takes (.inl hkind) (by rw [hkind]; decide)
  · exact absurd (hnil ▸ hs) List.not_mem_nil
  · obtain ⟨p, hp, htype⟩ := hinputs s hs
    exact absurd hraw (not_raw_of_port hp (by rw [htype]; rfl))

theorem IsChainStep.readsWell (h : g.IsChainStep f) : g.ReadsWell lax pending f := by
  refine .of_accepts ?_ fun s hs type hraw => h.accepts hs hraw
  rcases h.isStep.1 with hk | hk | hk | hk <;> rw [hk] <;> decide

variable {source old : Slot} {slots : List Slot} {params : AffineParams α} {d : Dequantization α}
  {mid : Graph α}

theorem unread_of_inserted (hi : Dequantization.Inserted g g' source slots params d mid)
    (hall : ∀ v i, g.input? v i = some old → (⟨v, i⟩ : Slot) ∈ slots) (hold : old.node < g.nodes.size)
    (hsource : source ≠ old) {i : Nat} : g'.input? v i ≠ some old := by
  intro hread
  rw [input?_eq_face, hi.recast.face, Option.bind_map] at hread
  obtain ⟨f, hf, hread⟩ := Option.bind_eq_some_iff.mp hread
  rw [Function.comp_apply, Face.input_redirect] at hread
  obtain ⟨t, ht, hmoved⟩ := Option.map_eq_some_iff.mp hread
  split at hmoved
  · exact absurd hold (Nat.not_lt.mpr (hmoved ▸ hi.built.new))
  · next hnot =>
    subst hmoved
    rcases Nat.lt_or_ge v g.nodes.size with hlt | hge
    · exact hnot (hall v i (by rw [input?_eq_face, ← hi.built.old v hlt, hf]; exact ht))
    · exact hsource ((hi.built.inputs v f hge hf t (List.mem_of_getElem? ht)).1 hold).symm

namespace Guarded

open Dequantization

theorem inserted (h : Guarded lax pending busy g) (hi : Inserted g g' source slots params d mid)
    (hslots : ∀ r ∈ slots, g.input? r.node r.index = some old)
    {q : Port} (hq : g.port? old = some q) (hold : ∀ type, ¬ g.Raw pending old type) :
    Guarded lax pending busy g' := by
  have hmid : Guarded lax pending busy mid :=
    h.extended hi.built.toExtends (fun _ _ => .rfl) fun v f hv hf =>
      ⟨(hi.built.fresh v f hv hf).typed, (hi.built.fresh v f hv hf).readsWell⟩
  refine hmid.rerouted (hi.recast.rerouted fun r hr => hi.built.input (hslots r hr)) hi.recast.size
    (.of_eq hi.recast.attributes) ?_
  rintro v i _ _ type - hread ⟨rfl, rfl⟩
  obtain ⟨p, hp, htype⟩ := hi.built.port
  refine iff_of_false (fun hraw => hold type ?_) (not_raw_of_port hp (by rw [htype]; rfl))
  exact (raw_of_eq .rfl (hq.trans (hi.built.toExtends.port hq).symm)).mpr hraw

theorem behind (h : Guarded lax (fun t => pending t ∨ t = source) busy g)
    (hi : Inserted g g' source slots params d mid)
    (hslots : ∀ r ∈ slots, g.input? r.node r.index = some source) {q : Port}
    (hq : g.port? source = some q)
    (hrest : ∀ v i, g.input? v i = some source → ¬ busy v →
      (⟨v, i⟩ : Slot) ∈ slots ∨ g.kind? v = some .fakeQuantize ∧ lax) :
    Guarded lax pending busy g' := by
  have hinserted := h.inserted hi hslots hq fun _ hraw => hraw.settled (.inr rfl)
  refine hinserted.settled (fun _ => .inl) fun v f' hf' hbusy s hs hpending type hraw => ?_
  obtain rfl := hpending.resolve_left hraw.settled
  rcases Nat.lt_or_ge v g.nodes.size with hlt | hge
  · rw [hi.face_old hlt] at hf'
    obtain ⟨f, hf, rfl⟩ := Option.map_eq_some_iff.mp hf'
    obtain ⟨i, hs⟩ := List.mem_iff_getElem?.mp hs
    rw [Face.input_redirect] at hs
    obtain ⟨t, ht, hmoved⟩ := Option.map_eq_some_iff.mp hs
    split at hmoved
    · exact absurd (lt_size_of_port hq) (Nat.not_lt.mpr (hmoved ▸ hi.built.new))
    · next hnot =>
      subst hmoved
      obtain ⟨hkind, hlax⟩ := (hrest v i (by rw [input?_eq_face, hf]; exact ht) hbusy).resolve_left hnot
      rw [kind?_eq_face, hf, Option.map_some, Option.some.injEq] at hkind
      exact (Face.accepts_iff_of_quantizer hkind).mpr hlax
  · have hnode : ∀ r ∈ slots, r.node < g.nodes.size := fun r hr => lt_size_of_input? (hslots r hr)
    rw [hi.face_new hnode hge] at hf'
    have hstep : g'.IsChainStep f' := (hi.built.fresh v f' hge hf').of_ports fun t p hp => by
      rw [hi.recast.port fun _ _ => rfl, hp]
    exact hstep.accepts hs hraw

end Guarded

end Chains

end Graph

end LowPrecision
