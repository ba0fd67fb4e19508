import LowPrecision.Proofs.Graph.BoundedWalks
import LowPrecision.Proofs.Graph.Regions
import LowPrecision.Proofs.Graph.Walks

namespace LowPrecision

variable {α : Type} {g : Graph α} {c u v : NodeId}

namespace Graph

structure Preserved (g : Graph α) (v : NodeId) : Prop where
  kind : ∃ k, g.kind? v = some k ∧ k ≠ .fakeQuantize
  passes : g.preservesPrecision v = true

/-- The producers of a node, and those of each preserved node among them, and so on. -/
inductive Behind (g : Graph α) (c : NodeId) : NodeId → Prop
  | producer {v : NodeId} : g.Reads c v → g.Behind c v
  | pass {u v : NodeId} : g.Behind c u → g.Preserved u → g.Reads u v → g.Behind c v

theorem Preserved.kind_ne (h : g.Preserved v) : g.kind? v ≠ some .fakeQuantize := by
  obtain ⟨k, hk, hne⟩ := h.kind
  rw [hk]
  exact fun he => hne (Option.some.inj he)

theorem Behind.trans (h : g.Behind c u) (hu : g.Preserved u) (huv : g.Behind u v) :
    g.Behind c v := by
  induction huv with
  | producer hread => exact h.pass hu hread
  | pass _ hpass hread ih => exact ih.pass hpass hread

end Graph

namespace Region

variable {r r' : Region} {pending queue : List NodeId} {n : Node α} {id : NodeId}

structure Listed (g : Graph α) (r : Region) : Prop where
  concats (v : NodeId) : v ∈ r.concats ↔ v ∈ r.layers ∧ g.kind? v = some .concat
  nodup : r.concats.Nodup
  sorted : r.layers.Pairwise (· < ·)

namespace Listed

theorem empty : Listed g .empty where
  concats v := by simp [Region.empty]
  nodup := List.nodup_nil
  sorted := List.Pairwise.nil

theorem addConcat (h : Listed g r) (hkind : g.kind? id = some .concat) (hnew : id ∉ r.concats) :
    Listed g (r.addConcat id) where
  concats v := by
    rw [Region.addConcat, mem_insertSorted, List.mem_append, List.mem_singleton, h.concats v]
    constructor
    · rintro (⟨hv, hconcat⟩ | rfl)
      · exact ⟨.inr hv, hconcat⟩
      · exact ⟨.inl rfl, hkind⟩
    · rintro ⟨rfl | hv, hconcat⟩
      · exact .inr rfl
      · exact .inl ⟨hv, hconcat⟩
  nodup := by
    rw [Region.addConcat, List.nodup_append]
    refine ⟨h.nodup, List.nodup_singleton id, fun a ha b hb => ?_⟩
    rw [List.mem_singleton.mp hb]
    rintro rfl
    exact hnew ha
  sorted := Graph.pairwise_insertSorted h.sorted

theorem addLayer (h : Listed g r) (hn : g.node? id = some n) (hnew : id ∉ r.members) :
    Listed g (r.addLayer id n.kind) := by
  have hkind : g.kind? id = some n.kind := by rw [Graph.kind?, hn]; rfl
  rw [Region.addLayer]
  split
  · next hconcat =>
    refine h.addConcat (hkind.trans (congrArg some hconcat)) fun hmem => hnew ?_
    exact List.mem_append_left _ ((h.concats id).mp hmem).1
  · next hne =>
    refine ⟨fun v => ?_, h.nodup, Graph.pairwise_insertSorted h.sorted⟩
    rw [h.concats v, mem_insertSorted]
    constructor
    · exact fun h => h.imp_left .inr
    · rintro ⟨rfl | hv, hconcat⟩
      · exact absurd (Option.some.inj (hkind.symm.trans hconcat)) hne
      · exact ⟨hv, hconcat⟩

theorem addBoundary (h : Listed g r) (id : NodeId) : Listed g (r.addBoundary id) :=
  ⟨h.concats, h.nodup, h.sorted⟩

end Listed

theorem listed_of_grow {fanOut : Bool} (h : Listed g r)
    (hpending : ∀ d ∈ pending, g.kind? d = some .concat)
    (hgrow : grow g fanOut r pending queue = .ok r') : Listed g r' := by
  fun_induction grow g fanOut r pending queue with
  | case1 => cases hgrow; exact h
  | case2 r d pending hdead ih => exact ih h (List.forall_mem_cons.mp hpending).2 hgrow
  | case3 r d pending n hn hmem ih => exact ih h (List.forall_mem_cons.mp hpending).2 hgrow
  | case4 r d pending n hn hmem ih =>
    obtain ⟨hkind, hrest⟩ := List.forall_mem_cons.mp hpending
    exact ih (h.addConcat hkind hmem) hrest hgrow
  | case5 r pending id queue hdead ih => exact ih h hpending hgrow
  | case6 r pending id queue n hn hmem ih => exact ih h hpending hgrow
  | case7 r pending id queue n hn hmem hkind below ih =>
    refine ih (h.addBoundary id) (List.forall_mem_append.mpr ⟨hpending, fun d hd => ?_⟩) hgrow
    simp only [below] at hd
    split at hd
    · exact concat_of_mem_concatsBelow hd
    · exact absurd hd List.not_mem_nil
  | case8 r pending id queue n hn hmem hkind hpass ih =>
    exact ih (h.addLayer hn hmem) hpending hgrow
  | case9 => cases hgrow

theorem listed_of_collect {fanOut : Bool} (h : collect g fanOut c = .ok r) : Listed g r := by
  rw [collect] at h
  split at h
  · next hkind => exact listed_of_grow .empty (by simpa using hkind) h
  · cases h

namespace Closed

variable (h : Closed g r)
include h

theorem mem_of_reads (hg : g.WellFormed) (hu : u ∈ r.layers) (hread : g.Reads u v) :
    v ∈ r.members := by
  obtain ⟨n, hn, -, -, hreads⟩ := h.layer u hu
  exact (hreads v ((Graph.mem_producers hn).mpr hread) (hg.live_of_reads hread)).resolve_right
    List.not_mem_nil

theorem kind_of_boundary (hv : v ∈ r.boundary) : g.kind? v = some .fakeQuantize := by
  obtain ⟨n, hn, hkind⟩ := h.bound v hv
  rw [Graph.kind?, hn]
  exact congrArg some hkind

theorem mem_layers (hv : v ∈ r.members) (hpreserved : g.Preserved v) : v ∈ r.layers := by
  rcases List.mem_append.mp hv with hv | hv
  · exact hv
  · exact absurd (h.kind_of_boundary hv) hpreserved.kind_ne

theorem mem_boundary (hv : v ∈ r.members) (hkind : g.kind? v = some .fakeQuantize) :
    v ∈ r.boundary := by
  rcases List.mem_append.mp hv with hv | hv
  · obtain ⟨n, hn, hne, -⟩ := h.layer v hv
    rw [Graph.kind?, hn] at hkind
    exact absurd (Option.some.inj hkind) hne
  · exact hv

theorem mem_of_behind (hg : g.WellFormed) (hc : c ∈ r.layers) (hv : g.Behind c v) :
    v ∈ r.members := by
  induction hv with
  | producer hread => exact h.mem_of_reads hg hc hread
  | pass _ hpass hread ih => exact h.mem_of_reads hg (h.mem_layers ih hpass) hread

end Closed

structure Tracked (g : Graph α) (c : NodeId) (r : Region) (queue : List NodeId) : Prop where
  start : c ∈ r.layers
  layer : ∀ v ∈ r.layers, v = c ∨ g.Behind c v ∧ g.Preserved v
  bound : ∀ v ∈ r.boundary, g.Behind c v
  queue : ∀ v ∈ queue, g.Behind c v

def Open (g : Graph α) (c : NodeId) (e : RegionError) : Prop :=
  ∃ v n, g.Behind c v ∧ v ≠ c ∧ g.node? v = some n ∧ n.kind ≠ .fakeQuantize ∧
    ¬ g.Preserved v ∧ e = .openBoundary n.name n.kind

namespace Tracked

theorem pop (h : Tracked g c r (id :: queue)) : Tracked g c r queue :=
  { h with queue := (List.forall_mem_cons.mp h.queue).2 }

theorem addBoundary (h : Tracked g c r (id :: queue)) : Tracked g c (r.addBoundary id) queue :=
  { h.pop with
    bound := List.forall_mem_append.mpr
      ⟨h.bound, List.forall_mem_singleton.mpr (h.queue id List.mem_cons_self)⟩ }

theorem addLayer (h : Tracked g c r (id :: queue)) (hn : g.node? id = some n)
    (hpreserved : g.Preserved id) (kind : OpKind) :
    Tracked g c (r.addLayer id kind) (queue ++ n.producers) where
  start := by
    rw [Growing.layers_addLayer, mem_insertSorted]
    exact .inr h.start
  layer v hv := by
    rw [Growing.layers_addLayer, mem_insertSorted] at hv
    rcases hv with rfl | hv
    · exact .inr ⟨h.queue v List.mem_cons_self, hpreserved⟩
    · exact h.layer v hv
  bound := by
    rw [Growing.boundary_addLayer]
    exact h.bound
  queue := by
    refine List.forall_mem_append.mpr ⟨h.pop.queue, fun v hv => ?_⟩
    exact (h.queue id List.mem_cons_self).pass hpreserved ((Graph.mem_producers hn).mp hv)

end Tracked

theorem tracked_of_grow (h : Tracked g c r queue) (hpending : pending = []) :
    (∀ r', grow g false r pending queue = .ok r' → Tracked g c r' []) ∧
      ∀ e, grow g false r pending queue = .error e → Open g c e := by
  fun_induction grow g false r pending queue with
  | case1 r =>
    refine ⟨fun r' hr' => Except.ok.inj hr' ▸ h, fun e he => ?_⟩
    cases he
  | case2 | case3 | case4 => cases hpending
  | case5 r pending id queue hdead ih => exact ih h.pop hpending
  | case6 r pending id queue n hn hmem ih => exact ih h.pop hpending
  | case7 r pending id queue n hn hmem hkind below ih =>
    exact ih h.addBoundary (by rw [hpending]; rfl)
  | case8 r pending id queue n hn hmem hkind hpass ih =>
    have hpreserved : g.Preserved id := ⟨⟨n.kind, by rw [Graph.kind?, hn]; rfl, hkind⟩, hpass⟩
    exact ih (h.addLayer hn hpreserved n.kind) hpending
  | case9 r pending id queue n hn hmem hkind hpass =>
    refine ⟨fun r' hr' => ?_, fun e he => ?_⟩
    · cases hr'
    · cases he
      refine ⟨id, n, h.queue id List.mem_cons_self, ?_, hn, hkind, fun hp => hpass hp.passes, rfl⟩
      rintro rfl
      exact hmem (List.mem_append_left _ h.start)

theorem behind_of_not_concat (h : g.kind? c ≠ some .concat) : behind g c = .error (.notConcat c) := by
  rw [behind, collect, if_neg h]
  rfl

theorem tracked_of_behind (h : g.kind? c = some .concat) :
    (∀ r, behind g c = .ok r → Tracked g c r []) ∧ ∀ e, behind g c = .error e → Open g c e := by
  obtain ⟨n, hn, hkind⟩ := Option.map_eq_some_iff.mp h
  have hstart : behind g c = grow g false (Region.empty.addConcat c) [] n.producers := by
    rw [behind, collect, if_pos h, grow]
    split
    · next hdead => simp [hn] at hdead
    · next m hm =>
      obtain rfl : n = m := Option.some.inj (hn.symm.trans hm)
      exact if_neg List.not_mem_nil
  rw [hstart]
  refine tracked_of_grow ⟨?_, ?_, ?_, fun v hv => .producer ((Graph.mem_producers hn).mp hv)⟩ rfl <;>
    simp [Region.addConcat, Region.empty, Graph.insertSorted]

/-- The region behind a concatenation: itself and the preserved nodes behind it as layers, the
fake-quantizes behind it as boundary, and the concatenations among the layers. -/
structure Spans (g : Graph α) (c : NodeId) (r : Region) : Prop where
  layers (v : NodeId) : v ∈ r.layers ↔ v = c ∨ g.Behind c v ∧ g.Preserved v
  sorted : r.layers.Pairwise (· < ·)
  boundary (v : NodeId) : v ∈ r.boundary ↔ g.Behind c v ∧ g.kind? v = some .fakeQuantize
  boundary_nodup : r.boundary.Nodup
  concats (v : NodeId) : v ∈ r.concats ↔ v ∈ r.layers ∧ g.kind? v = some .concat
  concats_nodup : r.concats.Nodup

theorem spans_of_behind (hg : g.WellFormed) (h : behind g c = .ok r) : Spans g c r := by
  have hclosed := closed_of_behind h
  have hlisted := listed_of_collect h
  have hkind : g.kind? c = some .concat := by
    by_contra hne
    rw [behind_of_not_concat hne] at h
    cases h
  have htracked := (tracked_of_behind hkind).1 r h
  refine ⟨fun v => ⟨htracked.layer v, ?_⟩, hlisted.sorted, fun v => ⟨fun hv =>
    ⟨htracked.bound v hv, hclosed.kind_of_boundary hv⟩, fun ⟨hv, hfq⟩ => ?_⟩, hclosed.nodup,
    hlisted.concats, hlisted.nodup⟩
  · rintro (rfl | ⟨hv, hpreserved⟩)
    · exact htracked.start
    · exact hclosed.mem_layers (hclosed.mem_of_behind hg htracked.start hv) hpreserved
  · exact hclosed.mem_boundary (hclosed.mem_of_behind hg htracked.start hv) hfq

/-- The region behind a node is found exactly when the node is a concatenation and all else behind it
quantizes or is preserved. It consists of that, each node once. The error names a node that is in the
way. -/
theorem behind_exact (hg : g.WellFormed) (c : NodeId) :
    ((∃ r, behind g c = .ok r) ↔ g.kind? c = some .concat ∧
      ∀ v, g.Behind c v → v ≠ c → g.kind? v = some .fakeQuantize ∨ g.Preserved v) ∧
    (∀ r, behind g c = .ok r → Spans g c r) ∧
    ∀ e, behind g c = .error e →
      (g.kind? c ≠ some .concat ∧ e = .notConcat c) ∨ (g.kind? c = some .concat ∧ Open g c e) := by
  refine ⟨⟨?_, ?_⟩, fun r => spans_of_behind hg, fun e he => ?_⟩
  · rintro ⟨r, hr⟩
    have hkind : g.kind? c = some .concat := by
      by_contra hne
      rw [behind_of_not_concat hne] at hr
      cases hr
    have hspans := spans_of_behind hg hr
    refine ⟨hkind, fun v hv hne => ?_⟩
    have hmem := (closed_of_behind hr).mem_of_behind hg ((hspans.layers c).mpr (.inl rfl)) hv
    rcases List.mem_append.mp hmem with hmem | hmem
    · exact .inr (((hspans.layers v).mp hmem).resolve_left hne).2
    · exact .inl ((hspans.boundary v).mp hmem).2
  · rintro ⟨hkind, hall⟩
    cases hrun : behind g c with
    | ok r => exact ⟨r, rfl⟩
    | error e =>
      obtain ⟨v, n, hv, hne, hn, hfq, hpreserved, -⟩ := (tracked_of_behind hkind).2 e hrun
      rcases hall v hv hne with hkind | hp
      · rw [Graph.kind?, hn] at hkind
        exact absurd (Option.some.inj hkind) hfq
      · exact absurd hp hpreserved
  · by_cases hkind : g.kind? c = some .concat
    · exact .inr ⟨hkind, (tracked_of_behind hkind).2 e he⟩
    · rw [behind_of_not_concat hkind] at he
      cases he
      exact .inl ⟨hkind, rfl⟩

def ringed : Graph Rat :=
  let ports : List Port := [⟨.f32, some [1, 2]⟩]
  let built : Graph Rat := Graph.assemble [("x", .parameter, [], ports),
    ("fq", .fakeQuantize 256, [⟨0, 0⟩], ports), ("pool", .maxPool, [⟨1, 0⟩], ports),
    ("inner", .concat 1, [⟨2, 0⟩, ⟨1, 0⟩, ⟨1, 0⟩], ports),
    ("outer", .concat 1, [⟨3, 0⟩, ⟨3, 0⟩, ⟨1, 0⟩], ports), ("act", .relu, [⟨4, 0⟩], ports)]
  (built.setInput 3 2 ⟨5, 0⟩).2

theorem behind_exact_of_ringed : ringed.WellFormed ∧
    behind ringed 4 = .ok ⟨[4, 3], [2, 3, 4, 5], [1]⟩ ∧
    Spans ringed 4 ⟨[4, 3], [2, 3, 4, 5], [1]⟩ ∧ ringed.Behind 4 4 := by
  have hg : ringed.WellFormed := (Graph.sound_setInput (Graph.assemble_ordered _).1 3 2 ⟨5, 0⟩).wellFormed
  have hgrow : growWithin ringed false 20 .empty [4] [] = some ⟨[4, 3], [2, 3, 4, 5], [1]⟩ := by
    decide +kernel
  have hrun : behind ringed 4 = .ok ⟨[4, 3], [2, 3, 4, 5], [1]⟩ :=
    collect_of_growWithin (by decide +kernel) hgrow
  have hspans := (behind_exact hg 4).2.1 _ hrun
  have hact := (hspans.layers 5).mp (by decide)
  exact ⟨hg, hrun, hspans, (hact.resolve_left (by decide)).1.pass (hact.resolve_left (by decide)).2
    ⟨0, ⟨4, 0⟩, by decide +kernel, rfl⟩⟩

end Region

end LowPrecision
