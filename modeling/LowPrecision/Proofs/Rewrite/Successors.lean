import LowPrecision.Proofs.Graph.Succession
import LowPrecision.Proofs.Rewrite.Verdicts

namespace LowPrecision

variable {α : Type} {g₀ g g' : Graph α} {f v : NodeId} {first : Nat} {s : Slot}

namespace Graph

inductive Derives (g : Graph α) (first : Nat) (v : NodeId) : Slot → Prop
  | self : Derives g first v ⟨v, 0⟩
  | step {w : NodeId} {face : Face α} {data : Slot} (hnew : first ≤ w) (hface : g.face? w = some face)
      (hkind : face.kind = .convert ∨ face.kind = .subtract ∨ face.kind = .multiply)
      (hdata : face.inputs[0]? = some data) (h : Derives g first v data) : Derives g first v ⟨w, 0⟩

namespace Derives

theorem port (h : g.Derives first v s) (hg : g.WellFormed) (hs : (g.port? s).isSome) :
    ∃ p, g.port? ⟨v, 0⟩ = some p := by
  induction h with
  | self => exact Option.isSome_iff_exists.mp hs
  | @step w face data _ hface _ hdata _ ih =>
    have hread : g.input? w 0 = some data := by
      rw [input?_eq_face, hface]
      exact hdata
    obtain ⟨p, hp⟩ := hg.exists_port hread
    exact ih (by rw [hp]; rfl)

theorem new (h : g.Derives first v s) (hv : first ≤ v) : first ≤ s.node := by
  cases h with
  | self => exact hv
  | step hnew => exact hnew

theorem extended {p : Slot → Prop} (h : g.Derives first v s) (he : Extends g g' p) : g'.Derives first v s := by
  induction h with
  | self => exact .self
  | step hnew hface hkind hdata _ ih => exact .step hnew (he.face hface) hkind hdata ih

theorem recast {change : NodeId → Face α → Face α} (h : g.Derives first v s) (hr : Recast g g' change)
    (hchange : ∀ w face, (change w face).op = face.op ∧ (change w face).inputs = face.inputs) :
    g'.Derives first v s := by
  induction h with
  | self => exact .self
  | @step w face data hnew hface hkind hdata _ ih =>
    obtain ⟨hop, hinputs⟩ := hchange w face
    have hface' : g'.face? w = some (change w face) := by rw [hr.face, hface, Option.map_some]
    refine .step hnew hface' ?_ (hinputs ▸ hdata) ih
    rwa [Face.kind, hop]

theorem displaced {old new : NodeId} (h : g.Derives first v s) (hd : Displaced g g' old new)
    (hv : first ≤ v) (hold : old < first) (hs : g'.isLive s.node = true) : g'.Derives first v s := by
  induction h with
  | self => exact .self
  | @step w face data hnew hface hkind hdata h ih =>
    have hread : g.input? w 0 = some data := by
      rw [input?_eq_face, hface]
      exact hdata
    have hread' := hd.input_kept hs hread (Nat.ne_of_gt (Nat.lt_of_lt_of_le hold (h.new hv)))
    obtain ⟨n, hn⟩ := hd.wellFormed.live_of_input hread'
    obtain ⟨face', hface'⟩ := isLive_iff_face.mp hs
    obtain ⟨_, hsame, rfl⟩ := hd.face w face' hface'
    cases hface.symm.trans hsame
    rw [input?_eq_face, hface', Option.bind_some] at hread'
    refine .step hnew hface' ?_ hread' (ih (isLive_of_node? hn))
    rwa [Face.kind, Face.op_replace]

end Derives

end Graph

open LowPrecision.Graph

namespace Dequantization

variable {d : Dequantization α} {source : Slot} {slots : List Slot} {params : AffineParams α} {mid : Graph α}

theorem Stands.derives (h : d.Stands g) (hnodes : ∀ id ∈ d.nodes, first ≤ id)
    (hdata : g.Derives first v d.data) : g.Derives first v d.output := by
  have hconverted : g.Derives first v d.converted := by
    rw [converted]
    cases hconvert : d.convert with
    | none => exact hdata
    | some id =>
      obtain ⟨face, hface, hop, hin⟩ := h.convert id hconvert
      exact .step (hnodes id (by simp [nodes, hconvert])) hface (.inl (congrArg Op.kind hop)) (by rw [hin]; rfl)
        hdata
  have hshifted : g.Derives first v d.shifted := by
    rw [shifted]
    cases hsubtract : d.subtract with
    | none => exact hconverted
    | some step =>
      obtain ⟨face, b, hface, hop, hin, -⟩ := h.subtract step.1 step.2 hsubtract
      exact .step (hnodes step.1 (by simp [nodes, hsubtract])) hface (.inr (.inl (congrArg Op.kind hop)))
        (by rw [hin]; rfl) hconverted
  rw [output_eq]
  cases hmultiply : d.multiply with
  | none => exact hshifted
  | some step =>
    obtain ⟨face, b, hface, hop, hin, -⟩ := h.multiply step.1 step.2 hmultiply
    exact .step (hnodes step.1 (by simp [nodes, hmultiply])) hface (.inr (.inr (congrArg Op.kind hop)))
      (by rw [hin]; rfl) hshifted

theorem Inserted.derives (h : Inserted g g' source slots params d mid) (hfirst : first ≤ g.nodes.size)
    (hslots : ∀ r ∈ slots, g.input? r.node r.index = some source) (hs : g.Derives first v s) :
    g'.Derives first v s ∧ (s = source → g'.Derives first v d.output) := by
  have hslot : ∀ r ∈ slots, r.node < g.nodes.size := by
    intro r hr
    obtain ⟨n, hn, -⟩ := input?_eq_some.mp (hslots r hr)
    exact lt_size_of_node? hn
  have hstands : d.Stands g' := h.built.stands g' fun w hw _ => h.face_new hslot hw
  have hnodes : ∀ id ∈ d.nodes, first ≤ id := fun id hid => Nat.le_trans hfirst (h.built.steps id hid)
  have hend : g'.Derives first v source → g'.Derives first v d.output := fun hsource =>
    hstands.derives hnodes (h.built.data ▸ hsource)
  have hkept : g'.Derives first v s := by
    induction hs with
    | self => exact .self
    | @step w face data hnew hface hkind hdata _ ih =>
      have hface' : g'.face? w = some (face.redirect w slots d.output) := by
        rw [h.face_old (lt_size_of_face? hface), hface, Option.map_some]
      by_cases hmem : (⟨w, 0⟩ : Slot) ∈ slots
      · have hread := hslots _ hmem
        rw [input?_eq_face, hface, Option.bind_some, hdata] at hread
        obtain rfl := Option.some.inj hread
        exact .step hnew hface' hkind (by rw [Face.input_redirect, hdata, Option.map_some, if_pos hmem])
          (hend ih)
      · exact .step hnew hface' hkind (by rw [Face.input_redirect, hdata, Option.map_some, if_neg hmem]) ih
  exact ⟨hkept, fun hsource => hend (hsource ▸ hkept)⟩

end Dequantization

namespace Graph

/-- The node came in the place of a fake-quantize. Slots that read that one read the node, directly or
through dequantizations, and it goes by the name of that one. -/
structure LoweredTo (g₀ g : Graph α) (f v : NodeId) : Prop where
  wellFormed : g.WellFormed
  new : g₀.nodes.size ≤ v
  size : v < g.nodes.size
  kind (k : OpKind) : g.kind? v = some k → k = .fakeQuantize
  reads (r : NodeId) (i : Nat) : g₀.input? r i = some ⟨f, 0⟩ → g.isLive r = true →
    ∃ t, g.input? r i = some t ∧ g.Derives g₀.nodes.size v t
  name : ¬ g₀.Reads f f → g.isLive v = true → g.name? v = g₀.name? f

structure Unlowered (g₀ g : Graph α) (f : NodeId) : Prop where
  wellFormed : g.WellFormed
  size : g₀.nodes.size ≤ g.nodes.size
  kind : g₀.kind? f = some .fakeQuantize
  reads (r : NodeId) (i : Nat) : g₀.input? r i = some ⟨f, 0⟩ → g.isLive r = true →
    g.input? r i = some ⟨f, 0⟩
  alone : ¬ g₀.Reads f f → ¬ g.Reads f f
  name : g.isLive f = true → g.kind? f = some .fakeQuantize ∧ g.name? f = g₀.name? f

theorem Unlowered.refl (hg : g.WellFormed) (hf : g.kind? f = some .fakeQuantize) : g.Unlowered g f where
  wellFormed := hg
  size := Nat.le_refl _
  kind := hf
  reads _ _ hi _ := hi
  alone h := h
  name _ := ⟨hf, rfl⟩

theorem Unlowered.lt_size (h : Unlowered g₀ g f) : f < g₀.nodes.size := by
  obtain ⟨face, hface, -⟩ := face_of_kind h.kind
  exact lt_size_of_face? hface

theorem Unlowered.extended {p : Slot → Prop} (h : Unlowered g₀ g f) (he : Extends g g' p) :
    Unlowered g₀ g' f := by
  have hlt : f < g.nodes.size := Nat.lt_of_lt_of_le h.lt_size h.size
  refine ⟨he.wellFormed, Nat.le_trans h.size he.size, h.kind, fun r i hi hr => ?_, fun halone hread => ?_,
    fun hlive => ?_⟩
  · obtain ⟨m, hm, -⟩ := input?_eq_some.mp hi
    have hold : r < g.nodes.size := Nat.lt_of_lt_of_le (lt_size_of_node? hm) h.size
    rw [isLive_eq_face, he.old r hold, ← isLive_eq_face] at hr
    exact he.input (h.reads r i hi hr)
  · obtain ⟨i, t, ht, hnode⟩ := hread
    rw [input?_eq_face, he.old f hlt, ← input?_eq_face] at ht
    exact h.alone halone ⟨i, t, ht, hnode⟩
  · rw [isLive_eq_face, he.old f hlt, ← isLive_eq_face] at hlive
    obtain ⟨hkind, hname⟩ := h.name hlive
    exact ⟨he.kind hkind, by rw [he.name f hlt, hname]⟩

theorem Unlowered.replaced {old new : NodeId} (h : Unlowered g₀ g f) (hne : old ≠ f) (hnew : g₀.nodes.size ≤ new)
    (hrun : exec (replaceNode old new : Edit α GraphError Unit) g = .ok (.ok (), g')) :
    Unlowered g₀ g' f := by
  have hd := displaced_of_replaceNode h.wellFormed hrun
  obtain ⟨-, hnames⟩ := names_of_replaceNode h.wellFormed hrun
  obtain ⟨-, -, hsize, -⟩ := replaceNode_rerouted h.wellFormed hrun
  have hfnew : f ≠ new := Nat.ne_of_lt (Nat.lt_of_lt_of_le h.lt_size hnew)
  refine ⟨hd.wellFormed, Nat.le_trans h.size (Nat.le_of_eq hsize.symm), h.kind, fun r i hi hr => ?_,
    fun halone hread => ?_, fun hlive => ?_⟩
  · exact hd.input_kept hr (h.reads r i hi (hd.live hr)) hne.symm
  · have hlive := hread.live
    obtain ⟨i, t, ht, hnode⟩ := hread
    rw [hd.input hlive] at ht
    obtain ⟨t₀, ht₀, rfl⟩ := Option.map_eq_some_iff.mp ht
    split at hnode
    · exact hfnew hnode.symm
    · exact h.alone halone ⟨i, t₀, ht₀, hnode⟩
  · obtain ⟨hkind, hname⟩ := h.name (hd.live hlive)
    exact ⟨(hd.kind hlive).trans hkind, (hnames f hfnew hlive).trans hname⟩

theorem Unlowered.lowered (h : Unlowered g₀ g f) (hf : g.isLive f = true) (hnew : g₀.nodes.size ≤ v)
    (hv : g.kind? v = some .fakeQuantize) (halone : ¬ g₀.Reads f f → ¬ g.Reads v f)
    (hrun : exec (replaceNode f v : Edit α GraphError Unit) g = .ok (.ok (), g')) :
    LoweredTo g₀ g' f v := by
  have hd := displaced_of_replaceNode h.wellFormed hrun
  obtain ⟨hinherited, -⟩ := names_of_replaceNode h.wellFormed hrun
  obtain ⟨-, -, hsize, -⟩ := replaceNode_rerouted h.wellFormed hrun
  obtain ⟨k, hk, -⟩ := face_of_kind hv
  obtain ⟨hquantizer, hname⟩ := h.name hf
  refine ⟨hd.wellFormed, hnew, hsize ▸ lt_size_of_face? hk, fun k' hk' => ?_, fun r i hi hr => ?_, fun hself _ => ?_⟩
  · have hlive : g'.isLive v = true := by
      obtain ⟨face, hface, -⟩ := face_of_kind hk'
      exact isLive_iff_face.mpr ⟨face, hface⟩
    rw [hd.kind hlive, hv] at hk'
    exact (Option.some.inj hk').symm
  · obtain ⟨m, hm, -⟩ := input?_eq_some.mp hi
    have hne : r ≠ v := Nat.ne_of_lt (Nat.lt_of_lt_of_le (lt_size_of_node? hm) hnew)
    exact ⟨⟨v, 0⟩, hd.input_moved hr (h.reads r i hi (hd.live hr)) hne rfl, .self⟩
  · have hne : f ≠ v := Nat.ne_of_lt (Nat.lt_of_lt_of_le h.lt_size hnew)
    have hgone : g'.isLive f = false := by
      refine hd.gone (fun face hface => ?_) hne (halone hself)
      rw [kind?_eq_face, hface] at hquantizer
      rw [Option.some.inj hquantizer]
      decide
    rw [hinherited hgone, hname]

namespace LoweredTo

theorem extended {p : Slot → Prop} (h : LoweredTo g₀ g f v) (he : Extends g g' p) (hsize : g₀.nodes.size ≤ g.nodes.size) :
    LoweredTo g₀ g' f v where
  wellFormed := he.wellFormed
  new := h.new
  size := Nat.lt_of_lt_of_le h.size he.size
  kind k hk := by
    rw [kind?_eq_face, he.old v h.size, ← kind?_eq_face] at hk
    exact h.kind k hk
  reads r i hi hr := by
    obtain ⟨m, hm, -⟩ := input?_eq_some.mp hi
    have hold : r < g.nodes.size := Nat.lt_of_lt_of_le (lt_size_of_node? hm) hsize
    rw [isLive_eq_face, he.old r hold, ← isLive_eq_face] at hr
    obtain ⟨t, ht, hderives⟩ := h.reads r i hi hr
    exact ⟨t, he.input ht, hderives.extended he⟩
  name hself hlive := by
    rw [isLive_eq_face, he.old v h.size, ← isLive_eq_face] at hlive
    rw [he.name v h.size, h.name hself hlive]

theorem size_le (h : LoweredTo g₀ g f v) : g₀.nodes.size ≤ g.nodes.size :=
  Nat.le_trans h.new (Nat.le_of_lt h.size)

theorem replaced {old new : NodeId} (h : LoweredTo g₀ g f v) (hold : old < g₀.nodes.size) (hne : v ≠ new)
    (hrun : exec (replaceNode old new : Edit α GraphError Unit) g = .ok (.ok (), g')) :
    LoweredTo g₀ g' f v := by
  have hd := displaced_of_replaceNode h.wellFormed hrun
  obtain ⟨-, hnames⟩ := names_of_replaceNode h.wellFormed hrun
  obtain ⟨-, hrerouted, hsize, -⟩ := replaceNode_rerouted h.wellFormed hrun
  refine ⟨hd.wellFormed, h.new, hsize ▸ h.size, fun k hk => ?_, fun r i hi hr => ?_, fun hself hlive => ?_⟩
  · exact h.kind k (hrerouted.kind h.size hk)
  · obtain ⟨t, ht, hderives⟩ := h.reads r i hi (hd.live hr)
    have hread := hd.input_kept hr ht (Nat.ne_of_gt (Nat.lt_of_lt_of_le hold (hderives.new h.new)))
    obtain ⟨n, hn⟩ := hd.wellFormed.live_of_input hread
    exact ⟨t, hread, hderives.displaced hd h.new hold (isLive_of_node? hn)⟩
  · rw [hnames v hne hlive, h.name hself (hd.live hlive)]

theorem recast {change : NodeId → Face α → Face α} (h : LoweredTo g₀ g f v) (hr : Recast g g' change)
    (hchange : ∀ w face, (change w face).op = face.op ∧ (change w face).inputs = face.inputs) :
    LoweredTo g₀ g' f v where
  wellFormed := hr.wellFormed
  new := h.new
  size := hr.size ▸ h.size
  kind k hk := h.kind k (hr.kind (fun w face => (hchange w face).1) v ▸ hk)
  reads r i hi hlive := by
    rw [hr.isLive] at hlive
    obtain ⟨t, ht, hderives⟩ := h.reads r i hi hlive
    refine ⟨t, ?_, hderives.recast hr hchange⟩
    rw [hr.input fun w face => (hchange w face).2, ht]
  name hself hlive := by
    rw [hr.isLive] at hlive
    rw [hr.name h.wellFormed, h.name hself hlive]

theorem inserted {source : Slot} {slots : List Slot} {params : AffineParams α} {d : Dequantization α}
    {mid : Graph α} (h : LoweredTo g₀ g f v) (hins : Dequantization.Inserted g g' source slots params d mid)
    (hslots : ∀ r ∈ slots, g.input? r.node r.index = some source) : LoweredTo g₀ g' f v where
  wellFormed := hins.recast.wellFormed
  new := h.new
  size := hins.recast.size ▸ Nat.lt_of_lt_of_le h.size hins.built.size
  kind k hk := by
    rw [hins.recast.kind fun _ _ => rfl, kind?_eq_face, hins.built.old v h.size, ← kind?_eq_face] at hk
    exact h.kind k hk
  reads r i hi hlive := by
    obtain ⟨m, hm, -⟩ := input?_eq_some.mp hi
    have hold : r < g.nodes.size := Nat.lt_of_lt_of_le (lt_size_of_node? hm) h.size_le
    rw [hins.recast.isLive, isLive_eq_face, hins.built.old r hold, ← isLive_eq_face] at hlive
    obtain ⟨t, ht, hderives⟩ := h.reads r i hi hlive
    obtain ⟨hkept, hend⟩ := hins.derives h.size_le hslots hderives
    rw [input?_eq_face] at ht
    obtain ⟨face, hface, ht⟩ := Option.bind_eq_some_iff.mp ht
    have hread : g'.input? r i = some (if (⟨r, i⟩ : Slot) ∈ slots then d.output else t) := by
      rw [input?_eq_face, hins.face_old hold, hface, Option.map_some, Option.bind_some, Face.input_redirect, ht,
        Option.map_some]
    by_cases hmem : (⟨r, i⟩ : Slot) ∈ slots
    · rw [if_pos hmem] at hread
      refine ⟨d.output, hread, hend ?_⟩
      have hsource := hslots _ hmem
      rw [input?_eq_face, hface, Option.bind_some, ht] at hsource
      exact Option.some.inj hsource
    · rw [if_neg hmem] at hread
      exact ⟨t, hread, hkept⟩
  name hself hlive := by
    rw [hins.recast.isLive, isLive_eq_face, hins.built.old v h.size, ← isLive_eq_face] at hlive
    rw [hins.recast.name hins.built.wellFormed, hins.built.name v h.size, h.name hself hlive]

theorem exists_port (h : LoweredTo g₀ g f v) {r : NodeId} {i : Nat} (hi : g₀.input? r i = some ⟨f, 0⟩)
    (hr : g.isLive r = true) : ∃ p, g.kind? v = some .fakeQuantize ∧ g.port? ⟨v, 0⟩ = some p := by
  obtain ⟨t, ht, hderives⟩ := h.reads r i hi hr
  obtain ⟨q, hq⟩ := h.wellFormed.exists_port ht
  obtain ⟨p, hp⟩ := hderives.port h.wellFormed (by rw [hq]; rfl)
  obtain ⟨face, hface, -⟩ := Option.bind_eq_some_iff.mp (port?_eq_face g _ ▸ hp)
  have hkind : g.kind? v = some face.kind := by rw [kind?_eq_face, hface, Option.map_some]
  exact ⟨p, by rw [hkind, h.kind _ hkind], hp⟩

end LoweredTo

end Graph

namespace ConcatPlan

variable {type : ElementType} {t t' : Session α} {branches : List (NodeId × Branch α)}
  {lowered : List (String × NodeId × ChannelParams α)}

theorem lowerBoundary_keeps (h : LoweredTo g₀ t.graph f v) (hids : ∀ b ∈ branches, b.1 < g₀.nodes.size)
    (hrun : exec (lowerBoundary type branches) t = .ok (.ok lowered, t')) : LoweredTo g₀ t'.graph f v := by
  induction branches generalizing t lowered with
  | nil =>
    cases hrun
    exact h
  | cons b rest ih =>
    obtain ⟨id, branch⟩ := b
    obtain ⟨n, w, g₁, t₁, below, -, hadd, hreplace, hbelow, -⟩ := lowerBoundary_cons hrun
    obtain ⟨m, _, _, _, _, _, p, -, -, -, -, rfl, hdoubled⟩ := addFakeQuantize_done h.wellFormed hadd
    have h₁ := h.extended hdoubled.toExtends h.size_le
    have hne : v ≠ t.graph.nodes.size + 2 := Nat.ne_of_lt (Nat.lt_add_right 2 h.size)
    have h₂ := h₁.replaced (hids _ List.mem_cons_self) hne hreplace
    exact ih h₂ (fun b hb => hids b (List.mem_cons_of_mem _ hb)) hbelow

theorem lowerBoundary_lowers (h : Unlowered g₀ t.graph f) (hids : ∀ b ∈ branches, b.1 < g₀.nodes.size)
    (hf : f ∈ branches.map Prod.fst) (hrun : exec (lowerBoundary type branches) t = .ok (.ok lowered, t')) :
    ∃ v, LoweredTo g₀ t'.graph f v := by
  induction branches generalizing t lowered with
  | nil => cases hf
  | cons b rest ih =>
    obtain ⟨id, branch⟩ := b
    have hrest : ∀ b ∈ rest, b.1 < g₀.nodes.size := fun b hb => hids b (List.mem_cons_of_mem _ hb)
    obtain ⟨n, w, g₁, t₁, below, -, hadd, hreplace, hbelow, -⟩ := lowerBoundary_cons hrun
    obtain ⟨m, _, data, inLow, inHigh, tail, p, hm, -, hin, -, rfl, hdoubled⟩ :=
      addFakeQuantize_done h.wellFormed hadd
    have hnew : g₀.nodes.size ≤ t.graph.nodes.size + 2 := Nat.le_add_right_of_le h.size
    by_cases hid : id = f
    · subst hid
      have hkind : g₁.kind? (t.graph.nodes.size + 2) = some .fakeQuantize := by
        rw [kind?_eq_face, hdoubled.fakeQuantize]
        rfl
      have halone : ¬ g₀.Reads id id → ¬ g₁.Reads (t.graph.nodes.size + 2) id := by
        rintro hself ⟨i, s, hs, hnode⟩
        rw [input?_eq_face, hdoubled.fakeQuantize, Option.bind_some] at hs
        have hlt := lt_size_of_node? hm
        have hmem : s ∈ m.inputs := by
          have hcases := List.mem_of_getElem? hs
          simp only [List.mem_cons, List.not_mem_nil, or_false] at hcases
          rw [hin]
          rcases hcases with rfl | rfl | rfl | rfl | rfl
          · simp
          · simp
          · simp
          · exact absurd (hnode ▸ hlt) (Nat.lt_irrefl _)
          · exact absurd (hnode ▸ hlt) (Nat.not_lt.mpr (Nat.le_succ _))
        obtain ⟨j, hj⟩ := List.mem_iff_getElem?.mp hmem
        exact h.alone hself ⟨j, s, input?_eq_some.mpr ⟨m, hm, hj⟩, hnode⟩
      have h₁ := (h.extended hdoubled.toExtends).lowered
        (isLive_iff_face.mpr ⟨_, hdoubled.toExtends.face (face?_eq_some.mpr ⟨m, hm, rfl⟩)⟩) hnew hkind halone hreplace
      exact ⟨_, lowerBoundary_keeps h₁ hrest hbelow⟩
    · have hmem : f ∈ rest.map Prod.fst := (List.mem_cons.mp hf).resolve_left fun h => hid h.symm
      have h₁ := (h.extended hdoubled.toExtends).replaced hid hnew hreplace
      exact ih h₁ hrest hmem hbelow

theorem keeps_retypeLayers {layers : List NodeId} :
    Ensures (fun g : Graph α => LoweredTo g₀ g f v) (fun _ g => LoweredTo g₀ g f v) Fatal (retypeLayers type layers) := by
  refine .forM fun id _ => ?_
  refine (Edit.ensures_node id).left.bind fun n => .forM fun index _ => ?_
  refine Edit.ensures_step fun g g' h hrun => ?_
  obtain ⟨-, hrecast⟩ := setOutputType_done h.wellFormed hrun
  refine h.recast hrecast fun w face => ?_
  split <;> exact ⟨rfl, rfl⟩

variable [Scalar α] {plan : ConcatPlan α}

theorem keeps_dequantizeBehind {inside : Region} {id : NodeId} {p : ChannelParams α} :
    Ensures (fun g => LoweredTo g₀ g f v) (fun _ g => LoweredTo g₀ g f v) Fatal (dequantizeBehind inside id p) := by
  refine (Edit.ensures_node id).left.bind fun n => .forM fun index _ => ?_
  apply (Edit.ensures_read (Region.readersOutside · inside ⟨id, index⟩)).bind
  intro readers
  split
  · apply (Edit.ensures_port ⟨id, index⟩).left.bind
    intro port
    apply ((Ensures.lift _).weaken (fun _ h => h) fun _ _ h => h.2).bind
    intro params
    have hinsert : Ensures (fun g => LoweredTo g₀ g f v ∧ readers = Region.readersOutside g inside ⟨id, index⟩)
        (fun _ g => LoweredTo g₀ g f v) Fatal (Dequantization.insert ⟨id, index⟩ readers params n.name) := by
      rintro g r g' ⟨h, rfl⟩ hrun
      refine ⟨fun d hd => ?_, (Edit.ensures_insert Face.stable_true (fun _ _ _ => trivial) _ _
        params n.name g r g' (.refl h.wellFormed) hrun).2⟩
      subst hd
      obtain ⟨port, mid, -, hins⟩ := Dequantization.insert_done h.wellFormed hrun
      exact h.inserted hins fun r hr => h.wellFormed.mem_readers.mp (List.mem_filter.mp hr).1
    exact hinsert.discard fun _ _ h => h
  · exact .pure fun _ h => h.1

theorem apply_lowers {concat : NodeId} (hg : t.graph.WellFormed) (hplan : Accepted t.context t.graph concat plan)
    (hf : f ∈ plan.region.boundary) (hrun : exec plan.apply t = .ok (.ok (), t')) :
    ∃ v, LoweredTo t.graph t'.graph f v := by
  obtain ⟨lowered, t₁, t₂, hlower, hrework, hgraph⟩ := apply_run hrun
  obtain ⟨face, levels, hface, hop, -⟩ := hplan.isBoundary hf
  have hkind : t.graph.kind? f = some .fakeQuantize := by
    rw [kind?_eq_face, hface, Option.map_some, Face.kind, hop]
    rfl
  have hids : ∀ b ∈ plan.region.boundary.zip plan.branches, b.1 < t.graph.nodes.size := fun b hb =>
    (hplan.isQuantizer (List.of_mem_zip hb).1).1
  have hmem : f ∈ (plan.region.boundary.zip plan.branches).map Prod.fst := by
    rw [List.map_fst_zip (Nat.le_of_eq (hplan.ranges.length_eq.trans hplan.branches.length_eq))]
    exact hf
  obtain ⟨v, hlowered⟩ := lowerBoundary_lowers (.refl hg hkind) hids hmem hlower
  rw [hgraph]
  have hkept := ensures_rework (p := fun g => LoweredTo t.graph g f v) (fun ids _ => keeps_retypeLayers)
    (fun _ _ => keeps_dequantizeBehind) t₁ _ t₂ hlowered hrework
  exact ⟨v, hkept.1 () rfl⟩

end ConcatPlan

end LowPrecision
