import LowPrecision.Proofs.Markup.Analyses
import LowPrecision.Proofs.Rewrite.Lineage

/-!
Which values an input slot reads after a number of rewrites. A slot that read the values of a
fake-quantize still reads that output, or an integer value that took its place, behind no more than the
steps of dequantizations.
-/

namespace LowPrecision

variable {α : Type} {g₀ g g' : Graph α} {f id v : NodeId} {o s s' : Slot} {type : ElementType}

namespace Graph

inductive Feeds (g : Graph α) (f : NodeId) : Slot → Prop
  | source : Feeds g f ⟨f, 0⟩
  | pass {v : NodeId} {index output : Nat} {slot : Slot} (hpass : g.preservesPrecision v = true)
      (hinput : g.input? v index = some slot) (hdata : index = 0 ∨ g.kind? v = some .concat)
      (h : Feeds g f slot) : Feeds g f ⟨v, output⟩

def Fed (g : Graph α) (s : Slot) : Prop := ∃ f, g.kind? f = some .fakeQuantize ∧ g.Feeds f s

def Fits (g : Graph α) (s : Slot) (type : ElementType) : Prop :=
  ∃ f, g.kind? f = some .fakeQuantize ∧ g.Feeds f s ∧ type ∈ Markup.allowedPrecisions g f

theorem Feeds.carries (h : g.Feeds f s) : g.Carries f s := by
  induction h with
  | source => exact .source
  | pass hpass hinput _ _ ih => exact .pass hpass hinput ih

theorem not_isPassing_size : ¬ g.IsPassing g.nodes.size := by
  rintro ⟨k, hk, -⟩
  exact kind?_ne_of_size_le (Nat.le_refl _) hk

theorem Fits.fed (h : g.Fits s type) : g.Fed s := h.imp fun _ h => ⟨h.1, h.2.1⟩

theorem Fed.kind (hmarked : g.Marked) (h : g.Fed s) :
    ∃ k, g.kind? s.node = some k ∧ (k = .fakeQuantize ∨ k.Passes) := by
  obtain ⟨f, hf, h⟩ := h
  cases h with
  | source => exact ⟨_, hf, .inl rfl⟩
  | pass hpass => exact (hmarked.isPassing hpass).imp fun _ h => ⟨h.1, .inr h.2⟩

theorem Feeds.of_quantizer (hmarked : g.Marked) (hv : g.kind? s.node = some .fakeQuantize)
    (h : g.Feeds f s) : s = ⟨f, 0⟩ := by
  cases h with
  | source => rfl
  | pass hpass =>
    obtain ⟨k, hk, hpasses⟩ := hmarked.isPassing hpass
    cases hv.symm.trans hk
    exact absurd hpasses (by decide)

end Graph

def Face.Sealed (f : Face α) : Prop :=
  ¬ f.kind.Passes ∧ (f.kind = .fakeQuantize → ∀ p ∈ f.ports, p.elementType.isLowPrecision = true)

theorem Face.stable_sealed : Face.Stable (Face.Sealed (α := α)) := fun f f' hop hports h => by
  rw [Face.Sealed, Face.kind, hop, hports]
  exact h

theorem Face.Sealed.of_kind {f : Face α} {k : OpKind} (hk : f.kind = k) (hpasses : ¬ k.Passes)
    (hquantizer : k ≠ .fakeQuantize) : f.Sealed :=
  ⟨hk ▸ hpasses, fun h => absurd (hk.symm.trans h) hquantizer⟩

theorem Face.admits_sealed (htype : type.isLowPrecision = true) :
    Face.Admits type (Face.Sealed (α := α)) where
  stable := stable_sealed
  step g f hstep := by
    obtain ⟨port, -, ⟨hop, -⟩ | ⟨-, value, hop⟩ | ⟨hop | hop, -⟩⟩ := hstep
    · exact .of_kind (k := .convert) (congrArg Op.kind hop) (by decide) (by decide)
    · exact .of_kind (k := .constant) (congrArg Op.kind hop) (by decide) (by decide)
    · exact .of_kind (k := .subtract) (congrArg Op.kind hop) (by decide) (by decide)
    · exact .of_kind (k := .multiply) (congrArg Op.kind hop) (by decide) (by decide)
  quantizer levels inputs port := by
    refine ⟨(by decide : ¬ OpKind.fakeQuantize.Passes), fun _ q hq => ?_⟩
    obtain rfl := List.mem_singleton.mp hq
    exact htype

namespace Graph

structure StepOn (g : Graph α) (f : Face α) (data : Slot) : Prop where
  input : f.inputs[0]? = some data
  real : ∀ p ∈ f.ports, p.elementType.isLowPrecision = false
  op : f.kind = .convert ∨ ∃ c, f.inputs[1]? = some c ∧
    (f.kind = .subtract ∧ (g.constantValue? c).isSome ∨ f.kind = .multiply ∧ (g.constant? c).isSome)

theorem StepOn.kind {k : Face α} {data : Slot} (h : g.StepOn k data) :
    k.kind = .convert ∨ k.kind = .subtract ∨ k.kind = .multiply := by
  rcases h.op with h | ⟨_, -, ⟨h, -⟩ | ⟨h, -⟩⟩
  · exact .inl h
  · exact .inr (.inl h)
  · exact .inr (.inr h)

/-- The output is the origin, an integer value that took its place, or a step of a dequantization on
an output that is held. A fake-quantize of the start takes no step before it is lowered. -/
inductive Unfolds (g₀ g : Graph α) (o : Slot) (held : Slot → Prop) : Slot → Prop
  | origin : Unfolds g₀ g o held o
  | lowered {s : Slot} {f : Face α} (hnew : g₀.nodes.size ≤ s.node) (hf : g.face? s.node = some f)
      (hkind : f.kind = .fakeQuantize ∨ f.kind = .constant)
      (hports : ∀ p ∈ f.ports, p.elementType.isLowPrecision = true ∧ g₀.Fits o p.elementType) :
      Unfolds g₀ g o held s
  | step {s data : Slot} {f : Face α} (hnew : g₀.nodes.size ≤ s.node)
      (hf : g.face? s.node = some f) (hstep : g.StepOn f data)
      (hdata : g₀.kind? data.node ≠ some .fakeQuantize) (hheld : held data) : Unfolds g₀ g o held s

def Represents (g₀ g : Graph α) (o s : Slot) : Prop :=
  ∃ held : Slot → Prop, held s ∧ ∀ t, held t → Unfolds g₀ g o held t

theorem Unfolds.imp {held held' : Slot → Prop} (h : Unfolds g₀ g o held s)
    (himp : ∀ t, held t → held' t) : Unfolds g₀ g o held' s := by
  cases h with
  | origin => exact .origin
  | lowered hnew hf hkind hports => exact .lowered hnew hf hkind hports
  | step hnew hf hstep hdata hheld => exact .step hnew hf hstep hdata (himp _ hheld)

theorem Represents.unfold (h : Represents g₀ g o s) : Unfolds g₀ g o (Represents g₀ g o) s := by
  obtain ⟨held, hs, hheld⟩ := h
  exact (hheld s hs).imp fun t ht => ⟨held, ht, hheld⟩

theorem Unfolds.represents (h : Unfolds g₀ g o (Represents g₀ g o) s) : Represents g₀ g o s :=
  ⟨Unfolds g₀ g o (Represents g₀ g o), h, fun _ ht => ht.imp fun _ hu => hu.unfold⟩

theorem Represents.refl : Represents g₀ g o o := Unfolds.origin.represents

structure Substitutes (g₀ g : Graph α) (s s' : Slot) : Prop where
  represents (o : Slot) : g₀.Fed o → Represents g₀ g o s →
    Represents g₀ g o s' ∧ g₀.kind? s'.node ≠ some .fakeQuantize
  literal : (g.constantValue? s).isSome → (g.constant? s').isSome

structure Altered (g₀ g g' : Graph α) : Prop where
  wellFormed : g'.WellFormed
  face (v : NodeId) (f' : Face α) : v < g.nodes.size → g'.face? v = some f' →
    ∃ f, g.face? v = some f ∧ f'.op = f.op ∧ f'.ports.length = f.ports.length ∧
      (g₀.nodes.size ≤ v → f'.ports = f.ports) ∧
      List.Forall₂ (fun s s' => s' = s ∨ Substitutes g₀ g s s') f.inputs f'.inputs

theorem Rerouted.port {move : Slot → Slot → Prop} (h : Rerouted move g g') {p : Port}
    (hs : s.node < g.nodes.size) (hp : g'.port? s = some p) : g.port? s = some p := by
  rw [port?_eq_face] at hp ⊢
  obtain ⟨k', hk', hport⟩ := Option.bind_eq_some_iff.mp hp
  obtain ⟨k, hk, hsame⟩ := h.face _ _ hs hk'
  rwa [hk, Option.bind_some, ← hsame.ports]

theorem Rerouted.altered {move : Slot → Slot → Prop} (h : Rerouted move g g')
    (hmove : ∀ s s', move s s' → Substitutes g₀ g s s') : Altered g₀ g g' where
  wellFormed := h.wellFormed
  face v f' hv hf' := by
    obtain ⟨f, hf, hsame⟩ := h.face v f' hv hf'
    exact ⟨f, hf, hsame.op, hsame.ports ▸ rfl, fun _ => hsame.ports,
      hsame.inputs.imp fun _ _ => .imp_right (hmove _ _)⟩

theorem constantValue_of_constant (h : (g.constant? s).isSome) : (g.constantValue? s).isSome := by
  obtain ⟨value, hvalue⟩ := Option.isSome_iff_exists.mp h
  rw [constantValue?, hvalue]
  rfl

namespace Altered

theorem live (h : Altered g₀ g g') {i : Nat} (hi : g'.input? v i = some s) :
    g'.isLive s.node = true := by
  obtain ⟨n, hn⟩ := h.wellFormed.live_of_input hi
  rw [isLive, hn]
  rfl

theorem face_of_live (h : Altered g₀ g g') {k : Face α} (hk : g.face? v = some k)
    (hlive : g'.isLive v = true) :
    ∃ k', g'.face? v = some k' ∧ k'.op = k.op ∧ (g₀.nodes.size ≤ v → k'.ports = k.ports) ∧
      List.Forall₂ (fun s s' => s' = s ∨ Substitutes g₀ g s s') k.inputs k'.inputs := by
  obtain ⟨k', hk'⟩ := isLive_iff_face.mp hlive
  obtain ⟨f, hf, hop, -, hsame⟩ := h.face v k' (lt_size_of_face? hk) hk'
  cases hk.symm.trans hf
  exact ⟨k', hk', hop, hsame⟩

theorem input_of_face {k : Face α} (hk : g.face? v = some k) {i : Nat} (hi : k.inputs[i]? = some s) :
    g.input? v i = some s := by
  rw [input?_eq_face, hk]
  exact hi

theorem constant (h : Altered g₀ g g') (hs : (g.constant? s).isSome)
    (hread : s' = s ∨ Substitutes g₀ g s s') (hlive : g'.isLive s'.node = true) :
    (g'.constant? s').isSome := by
  have hs' : (g.constant? s').isSome := by
    rcases hread with rfl | hread
    · exact hs
    · exact hread.literal (constantValue_of_constant hs)
  rw [constant?_eq_face] at hs'
  obtain ⟨k, hk, hconstant⟩ := Option.bind_eq_some_iff.mp (Option.eq_some_of_isSome hs')
  obtain ⟨k', hk', hop, -⟩ := h.face_of_live hk hlive
  rw [constant?_eq_face, hk', Option.bind_some, hop, hconstant]
  rfl

theorem constantValue (h : Altered g₀ g g') (hs : (g.constantValue? s).isSome)
    (hread : s' = s ∨ Substitutes g₀ g s s') (hlive : g'.isLive s'.node = true) :
    (g'.constantValue? s').isSome := by
  rcases hread with rfl | hread
  · rw [constantValue?_eq_face] at hs
    obtain ⟨k, hk, hvalue⟩ := Option.bind_eq_some_iff.mp (Option.eq_some_of_isSome hs)
    obtain ⟨k', hk', hop, -, hinputs⟩ := h.face_of_live hk hlive
    rw [constantValue?_eq_face, hk', Option.bind_some, hop]
    split at hvalue
    · rfl
    · obtain ⟨c, hc, hvalue⟩ := Option.bind_eq_some_iff.mp hvalue
      obtain ⟨c', hc', hread⟩ := forall₂_getElem? hinputs hc
      rw [hc', Option.bind_some]
      exact h.constant (by rw [hvalue]; rfl) hread (h.live (input_of_face hk' hc'))
    · cases hvalue
  · exact constantValue_of_constant (h.constant (Option.isSome_iff_exists.mpr
      ⟨_, Option.eq_some_of_isSome (hread.literal hs)⟩) (.inl rfl) hlive)

theorem represents (h : Altered g₀ g g') (ho : g₀.Fed o) (hs : Represents g₀ g o s)
    (hlive : s = o ∨ g'.isLive s.node = true) : Represents g₀ g' o s := by
  refine ⟨fun t => Represents g₀ g o t ∧ (t = o ∨ g'.isLive t.node = true), ⟨hs, hlive⟩, ?_⟩
  rintro t ⟨ht, rfl | hlive⟩
  · exact .origin
  cases ht.unfold with
  | origin => exact .origin
  | lowered hnew hf hkind hports =>
    obtain ⟨k', hk', hop, hsame, -⟩ := h.face_of_live hf hlive
    rw [← hsame hnew] at hports
    rw [Face.kind, ← hop] at hkind
    exact .lowered hnew hk' hkind hports
  | step hnew hf hstep hdata hheld =>
    obtain ⟨k', hk', hop, hsame, hinputs⟩ := h.face_of_live hf hlive
    obtain ⟨data', hdata', hread⟩ := forall₂_getElem? hinputs hstep.input
    have hlive' := h.live (input_of_face hk' hdata')
    have hkept : Represents g₀ g o data' ∧ g₀.kind? data'.node ≠ some .fakeQuantize := by
      rcases hread with rfl | hread
      · exact ⟨hheld, hdata⟩
      · exact hread.represents o ho hheld
    refine .step hnew hk' ⟨hdata', hsame hnew ▸ hstep.real, ?_⟩ hkept.2 ⟨hkept.1, .inr hlive'⟩
    rw [Face.kind, hop]
    refine hstep.op.imp_right ?_
    rintro ⟨c, hc, hconstant⟩
    obtain ⟨c', hc', hread⟩ := forall₂_getElem? hinputs hc
    have hlive' := h.live (input_of_face hk' hc')
    exact ⟨c', hc', hconstant.imp (.imp_right fun hs => h.constantValue hs hread hlive')
      (.imp_right fun hs => h.constant hs hread hlive')⟩

end Altered

end Graph

/-- A graph in which every slot that read the values of a fake-quantize still reads them, and where
integers only stand in types that are allowed for what they are values of. -/
structure Traced (g₀ g : Graph α) : Prop extends Lineage g₀ Face.Sealed g where
  start : g₀.Marked
  marked : ∀ e ∈ g.attributes.entries, e.2 = .precisionPreserved true →
    g₀.IsPassing e.1.target.owner
  slots (v : NodeId) (index : Nat) (o : Slot) : g₀.input? v index = some o → g₀.Fed o →
    g.isLive v = true → ∃ s, g.input? v index = some s ∧ Graph.Represents g₀ g o s
  stored (s : Slot) (p : Port) : g₀.Fed s → g.port? s = some p → p.elementType.isLowPrecision = true →
    g₀.Fits s p.elementType
  ports (s : Slot) : s.node < g₀.nodes.size → (g.port? s).isSome → (g₀.port? s).isSome

namespace Traced

open LowPrecision.Graph

theorem refl (hg : g.WellFormed) (hmarked : g.Marked)
    (hreal : ∀ s p, g.port? s = some p → p.elementType.isLowPrecision = false) : Traced g g where
  toLineage := .refl hg
  start := hmarked
  marked := hmarked
  slots v index o ho _ _ := ⟨o, ho, .refl⟩
  stored s p _ hp hlow := by
    rw [hreal s p hp] at hlow
    cases hlow
  ports _ _ hp := hp

theorem altered {old new : NodeId} (h : Traced g₀ g) (hlineage : Lineage g₀ Face.Sealed g')
    (ha : Altered g₀ g g') (hattributes : Inherits old new g g') (hold : ¬ g₀.IsPassing old)
    (hstored : ∀ s p, g₀.Fed s → g'.port? s = some p → p.elementType.isLowPrecision = true →
      g.port? s = some p ∨ g₀.Fits s p.elementType) : Traced g₀ g' where
  toLineage := hlineage
  start := h.start
  marked e he hmark := by
    rcases hattributes.gained e he with he | ⟨-, e', he', howner, hvalue⟩
    · exact h.marked e he hmark
    · exact absurd (howner ▸ h.marked e' he' (hvalue.trans hmark)) hold
  slots v index o ho hfed hlive := by
    obtain ⟨k', hk'⟩ := isLive_iff_face.mp hlive
    obtain ⟨n, hn, -⟩ := input?_eq_some.mp ho
    obtain ⟨k, hk, -, -, -, hinputs⟩ :=
      ha.face v k' (Nat.lt_of_lt_of_le (lt_size_of_node? hn) h.size) hk'
    obtain ⟨s, hs, hrepresents⟩ := h.slots v index o ho hfed (isLive_iff_face.mpr ⟨_, hk⟩)
    rw [input?_eq_face, hk] at hs
    obtain ⟨s', hs', hread⟩ := forall₂_getElem? hinputs hs
    have hlive' := ha.live (Altered.input_of_face hk' hs')
    refine ⟨s', Altered.input_of_face hk' hs', ha.represents hfed ?_ (.inr hlive')⟩
    rcases hread with rfl | hread
    · exact hrepresents
    · exact (hread.represents o hfed hrepresents).1
  stored s p hfed hp hlow :=
    (hstored s p hfed hp hlow).elim (fun hp => h.stored s p hfed hp hlow) fun hfits => hfits
  ports s hs hp := by
    refine h.ports s hs ?_
    rw [port?_eq_face] at hp ⊢
    obtain ⟨p, hp⟩ := Option.isSome_iff_exists.mp hp
    obtain ⟨k', hk', hport⟩ := Option.bind_eq_some_iff.mp hp
    obtain ⟨k, hk, -, hlength, -⟩ := ha.face _ k' (Nat.lt_of_lt_of_le hs h.size) hk'
    rw [hk, Option.bind_some, isSome_getElem?, ← hlength]
    exact (List.getElem?_eq_some_iff.mp hport).1

theorem kind_of_fed (h : Traced g₀ g) (ho : g₀.Fed o) {k : OpKind} (hk : g.kind? o.node = some k) :
    k = .fakeQuantize ∨ k.Passes := by
  obtain ⟨k', hk', hcases⟩ := ho.kind h.start
  obtain ⟨n, hn, -⟩ := Option.map_eq_some_iff.mp hk'
  cases hk'.symm.trans (h.kind (lt_size_of_node? hn) hk)
  exact hcases

theorem lt_size_of_fed (h : Traced g₀ g) (ho : g₀.Fed o) : o.node < g₀.nodes.size := by
  obtain ⟨k', hk', -⟩ := ho.kind h.start
  obtain ⟨n, hn, -⟩ := Option.map_eq_some_iff.mp hk'
  exact lt_size_of_node? hn

theorem rerouted {move : Slot → Slot → Prop} {old new : NodeId} (h : Traced g₀ g)
    (hr : Rerouted move g g') (hmove : ∀ s s', move s s' → Substitutes g₀ g s s')
    (hadded : ∀ v f, g.nodes.size ≤ v → g'.face? v = some f → f.Sealed)
    (hattributes : Inherits old new g g') (hold : ¬ g₀.IsPassing old) (hnew : g₀.nodes.size ≤ new) :
    Traced g₀ g' := by
  refine h.altered (h.toLineage.rerouted Face.stable_sealed hr hadded hattributes hnew)
    (hr.altered hmove) hattributes hold fun s p hs hp _ => .inl ?_
  exact hr.port (Nat.lt_of_lt_of_le (h.lt_size_of_fed hs) h.size) hp

theorem extended {p : Slot → Prop} (h : Traced g₀ g) (he : Extends g g' p)
    (hadded : ∀ v f, g.nodes.size ≤ v → g'.face? v = some f → f.Sealed) : Traced g₀ g' :=
  h.rerouted (he.rerouted : Rerouted (fun _ _ => False) g g') (fun _ _ h => h.elim) hadded
    (.of_eq he.attributes : Inherits g₀.nodes.size g₀.nodes.size g g') not_isPassing_size
    (Nat.le_refl _)

theorem added {k : Face α} (h : Traced g₀ g) (ha : Added g g' k) (hk : k.Sealed) : Traced g₀ g' :=
  h.rerouted (ha.rerouted : Rerouted (fun _ _ => False) g g') (fun _ _ h => h.elim)
    (fun v f hv hf => by
      obtain ⟨-, rfl⟩ := ha.eq_new hv hf
      exact hk)
    (.of_eq ha.attributes : Inherits g₀.nodes.size g₀.nodes.size g g') not_isPassing_size
    (Nat.le_refl _)

theorem removed (h : Traced g₀ g) (stack : List NodeId) : Traced g₀ (g.removeDead stack) := by
  have hpruned := h.wellFormed.pruned stack
  refine h.rerouted (hpruned.rerouted : Rerouted (fun _ _ => False) g _) (fun _ _ h => h.elim)
    (fun v f hv hf => ?_) (removeDead_inherits g₀.nodes.size g₀.nodes.size g stack)
    not_isPassing_size (Nat.le_refl _)
  rw [face?_of_size_le (Nat.le_trans (Nat.le_of_eq hpruned.size) hv)] at hf
  cases hf

theorem redirected {slots : List Slot} {source : Slot} (h : Traced g₀ g)
    (hr : Recast g g' fun v f => f.redirect v slots source)
    (hslots : ∀ r ∈ slots, g.input? r.node r.index = some s) (hsub : Substitutes g₀ g s source) :
    Traced g₀ g' := by
  refine h.rerouted (hr.rerouted hslots) ?_ (fun v f hv hf => ?_)
    (.of_eq hr.attributes : Inherits g₀.nodes.size g₀.nodes.size g g') not_isPassing_size
    (Nat.le_refl _)
  · rintro _ _ ⟨rfl, rfl⟩
    exact hsub
  · rw [face?_of_size_le (Nat.le_trans (Nat.le_of_eq hr.size) hv)] at hf
    cases hf

theorem recast {change : NodeId → Face α → Face α} (h : Traced g₀ g) (hr : Recast g g' change)
    (hchange : ∀ v f, g.face? v = some f → (change v f).op = f.op ∧ (change v f).inputs = f.inputs ∧
      (change v f).ports.length = f.ports.length ∧
        ((change v f).ports = f.ports ∨ v < g₀.nodes.size))
    (hstored : ∀ s p, g₀.Fed s → g'.port? s = some p → p.elementType.isLowPrecision = true →
      g.port? s = some p ∨ g₀.Fits s p.elementType) : Traced g₀ g' := by
  refine h.altered (h.toLineage.recast Face.stable_sealed hr fun v f hf =>
    ⟨(hchange v f hf).1, (hchange v f hf).2.2.2⟩) ⟨hr.wellFormed, fun v f' _ hf' => ?_⟩
    (.of_eq hr.attributes : Inherits g₀.nodes.size g₀.nodes.size g g') not_isPassing_size hstored
  rw [hr.face] at hf'
  obtain ⟨f, hf, rfl⟩ := Option.map_eq_some_iff.mp hf'
  obtain ⟨hop, hinputs, hlength, hports⟩ := hchange v f hf
  exact ⟨f, hf, hop, hlength, fun hv => hports.resolve_right (Nat.not_lt.mpr hv),
    hinputs.symm ▸ List.forall₂_same.mpr fun _ _ => .inl rfl⟩

theorem relaxed {types : RelaxedTypes} (h : Traced g₀ g)
    (hr : Recast g g' fun v f => if v = id then f.relax types else f) : Traced g₀ g' := by
  refine h.recast hr (fun v f _ => ?_) fun s p _ hp _ => .inl ?_
  · split <;> exact ⟨rfl, rfl, rfl, .inl rfl⟩
  · rwa [hr.port fun v f => by split <;> rfl] at hp

theorem retyped (h : Traced g₀ g)
    (hr : Recast g g' fun v f => if v = s.node then f.retype s.index type else f)
    (hold : s.node < g₀.nodes.size)
    (hfits : type.isLowPrecision = true → g₀.Fed s → g₀.Fits s type) : Traced g₀ g' := by
  refine h.recast hr (fun v f _ => ?_) fun t p ht hp hlow => ?_
  · split
    · next hv => exact ⟨rfl, rfl, List.length_modify .., .inr (hv ▸ hold)⟩
    · exact ⟨rfl, rfl, rfl, .inl rfl⟩
  · rw [port?_eq_face, hr.face] at hp
    rw [port?_eq_face]
    obtain ⟨k', hk', hport⟩ := Option.bind_eq_some_iff.mp hp
    obtain ⟨k, hk, rfl⟩ := Option.map_eq_some_iff.mp hk'
    rw [hk, Option.bind_some]
    split at hport
    rotate_left
    · exact .inl hport
    next hnode =>
    rw [Face.retype, List.getElem?_modify] at hport
    obtain ⟨q, hq, rfl⟩ := Option.map_eq_some_iff.mp hport
    by_cases hindex : s.index = t.index
    · obtain rfl : t = s := by
        obtain ⟨_, _⟩ := t
        obtain ⟨_, _⟩ := s
        cases hnode
        cases hindex
        rfl
      simp only [↓reduceIte] at hlow ⊢
      exact .inr (hfits hlow ht)
    · simp only [hindex, ↓reduceIte]
      exact .inl hq

end Traced

end LowPrecision
