import Mathlib.Data.List.Nodup
import LowPrecision.Graph.Region
import LowPrecision.Proofs.Graph.Views

namespace LowPrecision.Region

variable {α : Type} {g : Graph α}

structure Growing (g : Graph α) (r : Region) (pending queue : List NodeId) : Prop where
  layer : ∀ id ∈ r.layers, ∃ n, g.node? id = some n ∧ n.kind ≠ .fakeQuantize ∧
    (n.kind = .concat ∨ g.preservesPrecision id = true) ∧
    ∀ p ∈ n.producers, (g.node? p).isSome → p ∈ r.members ∨ p ∈ queue
  bound : ∀ id ∈ r.boundary, ∃ n, g.node? id = some n ∧ n.kind = .fakeQuantize
  nodup : r.boundary.Nodup
  concats : ∀ id ∈ pending, g.kind? id = some .concat

def Closed (g : Graph α) (r : Region) : Prop := Growing g r [] []

namespace Growing

variable {r : Region} {pending queue : List NodeId} {id : NodeId} {n : Node α}

theorem empty (h : g.kind? id = some .concat) : Growing g .empty [id] [] where
  layer := by simp [Region.empty]
  bound := by simp [Region.empty]
  nodup := List.nodup_nil
  concats := by simpa using h

theorem skip (h : Growing g r pending (id :: queue)) (hv : g.node? id = none ∨ id ∈ r.members) :
    Growing g r pending queue where
  layer := by
    intro layer hlayer
    obtain ⟨n, hn, hkind, hpass, hreads⟩ := h.layer layer hlayer
    refine ⟨n, hn, hkind, hpass, fun p hp hlive => ?_⟩
    rcases hreads p hp hlive with hmem | hmem
    · exact .inl hmem
    · rcases List.mem_cons.mp hmem with rfl | hmem
      · rcases hv with hdead | hv
        · simp [hdead] at hlive
        · exact .inl hv
      · exact .inr hmem
  bound := h.bound
  nodup := h.nodup
  concats := h.concats

theorem addBoundary (h : Growing g r pending (id :: queue)) (hn : g.node? id = some n)
    (hnew : id ∉ r.members) (hkind : n.kind = .fakeQuantize) {below : List NodeId}
    (hbelow : ∀ c ∈ below, g.kind? c = some .concat) :
    Growing g (r.addBoundary id) (pending ++ below) queue where
  layer := by
    intro layer hlayer
    obtain ⟨n, hn, hkind, hpass, hreads⟩ := h.layer layer hlayer
    refine ⟨n, hn, hkind, hpass, fun p hp hlive => ?_⟩
    rw [mem_members_addBoundary]
    rcases hreads p hp hlive with hmem | hmem
    · exact .inl (.inr hmem)
    · rcases List.mem_cons.mp hmem with rfl | hmem
      · exact .inl (.inl rfl)
      · exact .inr hmem
  bound := by
    intro other hother
    rcases List.mem_append.mp hother with hother | hother
    · exact h.bound other hother
    · obtain rfl := List.mem_singleton.mp hother
      exact ⟨n, hn, hkind⟩
  nodup := by
    have hnot : id ∉ r.boundary := fun hmem => hnew (List.mem_append_right _ hmem)
    simpa [Region.addBoundary, List.nodup_append] using
      ⟨h.nodup, fun a ha he => hnot (he ▸ ha)⟩
  concats := by
    intro c hc
    rcases List.mem_append.mp hc with hc | hc
    · exact h.concats c hc
    · exact hbelow c hc

theorem layers_addLayer (r : Region) (id : NodeId) (kind : OpKind) :
    (r.addLayer id kind).layers = Graph.insertSorted id r.layers := by
  unfold Region.addLayer Region.addConcat
  split <;> rfl

theorem boundary_addLayer (r : Region) (id : NodeId) (kind : OpKind) :
    (r.addLayer id kind).boundary = r.boundary := by
  unfold Region.addLayer Region.addConcat
  split <;> rfl

theorem addLayer (h : Growing g r pending (id :: queue)) (hn : g.node? id = some n)
    (hkind : n.kind ≠ .fakeQuantize) (hpass : n.kind = .concat ∨ g.preservesPrecision id = true)
    (kind : OpKind) : Growing g (r.addLayer id kind) pending (queue ++ n.producers) where
  layer := by
    intro layer hlayer
    rw [layers_addLayer, mem_insertSorted] at hlayer
    rcases hlayer with rfl | hlayer
    · exact ⟨n, hn, hkind, hpass, fun p hp _ => .inr (List.mem_append_right _ hp)⟩
    · obtain ⟨m, hm, hmkind, hmpass, hreads⟩ := h.layer layer hlayer
      refine ⟨m, hm, hmkind, hmpass, fun p hp hlive => ?_⟩
      rw [mem_members_addLayer]
      rcases hreads p hp hlive with hmem | hmem
      · exact .inl (.inr hmem)
      · rcases List.mem_cons.mp hmem with rfl | hmem
        · exact .inl (.inl rfl)
        · exact .inr (List.mem_append_left _ hmem)
  bound := by
    rw [boundary_addLayer]
    exact h.bound
  nodup := by
    rw [boundary_addLayer]
    exact h.nodup
  concats := h.concats

theorem pop (h : Growing g r (id :: pending) []) : Growing g r pending [] :=
  { h with concats := fun c hc => h.concats c (List.mem_cons_of_mem id hc) }

theorem addConcat (h : Growing g r (id :: pending) []) (hn : g.node? id = some n) :
    Growing g (r.addConcat id) pending n.producers := by
  have hkind : n.kind = .concat := by
    simpa [Graph.kind?, hn] using h.concats id List.mem_cons_self
  have hqueue : Growing g r pending [id] :=
    { h.pop with
      layer := by
        intro layer hlayer
        obtain ⟨m, hm, hmkind, hmpass, hreads⟩ := h.layer layer hlayer
        exact ⟨m, hm, hmkind, hmpass, fun p hp hlive => (hreads p hp hlive).imp_right (by simp)⟩ }
  have hadded := hqueue.addLayer hn (by simp [hkind]) (.inl hkind) .concat
  simpa [Region.addLayer] using hadded

end Growing

theorem concat_of_mem_concatsBelow {id c : NodeId} (h : c ∈ concatsBelow g id) :
    g.kind? c = some .concat := by
  simp only [concatsBelow, List.mem_filter, beq_iff_eq] at h
  exact h.2

theorem closed_of_grow {fanOut : Bool} {r r' : Region} {pending queue : List NodeId}
    (h : Growing g r pending queue) (hgrow : grow g fanOut r pending queue = .ok r') :
    Closed g r' := by
  fun_induction grow g fanOut r pending queue with
  | case1 => cases hgrow; exact h
  | case2 r concat pending hdead ih => exact ih h.pop hgrow
  | case3 r concat pending n hn hmem ih => exact ih h.pop hgrow
  | case4 r concat pending n hn hmem ih => exact ih (h.addConcat hn) hgrow
  | case5 r pending id queue hdead ih => exact ih (h.skip (.inl hdead)) hgrow
  | case6 r pending id queue n hn hmem ih => exact ih (h.skip (.inr hmem)) hgrow
  | case7 r pending id queue n hn hmem hkind below ih =>
    refine ih (h.addBoundary hn hmem hkind ?_) hgrow
    intro c hc
    simp only [below] at hc
    split at hc
    · exact concat_of_mem_concatsBelow hc
    · simp at hc
  | case8 r pending id queue n hn hmem hkind hpass ih =>
    exact ih (h.addLayer hn hkind (.inr hpass) n.kind) hgrow
  | case9 => cases hgrow

theorem closed_of_around {concat : NodeId} {r : Region} (h : around g concat = .ok r) :
    Closed g r := by
  unfold around collect at h
  split at h
  · next hkind => exact closed_of_grow (.empty hkind) h
  · cases h

theorem closed_of_behind {concat : NodeId} {r : Region} (h : behind g concat = .ok r) :
    Closed g r := by
  unfold behind collect at h
  split at h
  · next hkind => exact closed_of_grow (.empty hkind) h
  · cases h

namespace Closed

variable {r : Region} (h : Closed g r)
include h

theorem mem_of_input {id : NodeId} (hid : id ∈ r.layers) {n : Node α} (hn : g.node? id = some n)
    {s : Slot} (hs : s ∈ n.inputs) (hlive : (g.node? s.node).isSome) : s.node ∈ r.members := by
  obtain ⟨m, hm, -, -, hreads⟩ := h.layer id hid
  obtain rfl : n = m := Option.some.inj (hn.symm.trans hm)
  simpa using hreads s.node (List.mem_map_of_mem hs) hlive

theorem not_boundary_of_layer {id : NodeId} (hid : id ∈ r.layers) : id ∉ r.boundary := by
  intro hbound
  obtain ⟨n, hn, hkind, -⟩ := h.layer id hid
  obtain ⟨m, hm, hfq⟩ := h.bound id hbound
  obtain rfl : n = m := Option.some.inj (hn.symm.trans hm)
  exact hkind hfq

end Closed

end LowPrecision.Region
