import Mathlib.Data.Finset.Card
import LowPrecision.Proofs.Graph.Order

/-!
The topological order is the first one. It exists exactly when no chain of inputs leads back to its
start, and every other order of the live nodes comes later when lists are compared id by id.
-/

namespace LowPrecision

namespace Graph

variable {α : Type} {g : Graph α} {rank : NodeId → Nat} {id u v : NodeId}

def Reads (g : Graph α) (v u : NodeId) : Prop := ∃ i s, g.input? v i = some s ∧ s.node = u

def HasCycle (g : Graph α) : Prop := ∃ v, Relation.TransGen g.Reads v v

structure Schedules (g : Graph α) (order : List NodeId) : Prop where
  nodup : order.Nodup
  mem (v : NodeId) : v ∈ order ↔ g.isLive v = true
  behind (before rest : List NodeId) (v u : NodeId) :
    order = before ++ v :: rest → g.Reads v u → u ∈ before

section Cycles

theorem Reads.live (h : g.Reads v u) : g.isLive v = true := by
  obtain ⟨i, s, hs, -⟩ := h
  obtain ⟨n, hn, -⟩ := input?_eq_some.mp hs
  exact Option.isSome_iff_exists.mpr ⟨n, hn⟩

theorem Ranked.lt_of_transGen (hr : g.Ranked rank) (h : Relation.TransGen g.Reads v u) :
    rank u < rank v := by
  have hread : ∀ v u, g.Reads v u → rank u < rank v := by
    rintro v u ⟨i, s, hs, rfl⟩
    exact hr v i s hs
  induction h with
  | single h => exact hread _ _ h
  | tail _ h ih => exact Nat.lt_trans (hread _ _ h) ih

theorem Acyclic.not_hasCycle (h : g.Acyclic) : ¬ g.HasCycle := by
  obtain ⟨rank, hr⟩ := h
  rintro ⟨v, hv⟩
  exact Nat.lt_irrefl _ (hr.lt_of_transGen hv)

open Classical in
noncomputable def sources (g : Graph α) (v : NodeId) : Finset NodeId :=
  (Finset.range g.nodes.size).filter fun u => Relation.TransGen g.Reads v u

theorem mem_sources : u ∈ g.sources v ↔ u < g.nodes.size ∧ Relation.TransGen g.Reads v u := by
  classical
  rw [sources, Finset.mem_filter, Finset.mem_range]

theorem card_sources_le (g : Graph α) (v : NodeId) : (g.sources v).card ≤ g.nodes.size := by
  have hsub : g.sources v ⊆ Finset.range g.nodes.size := fun u hu => Finset.mem_range.mpr (mem_sources.mp hu).1
  exact (Finset.card_le_card hsub).trans (Finset.card_range _).le

theorem sources_subset (hread : g.Reads v u) : g.sources u ⊆ g.sources v := fun _ hw =>
  mem_sources.mpr ⟨(mem_sources.mp hw).1, .head hread (mem_sources.mp hw).2⟩

theorem mem_sources_of_reads (hg : g.WellFormed) (hread : g.Reads v u) : u ∈ g.sources v := by
  obtain ⟨i, s, hs, rfl⟩ := hread
  obtain ⟨n, hn⟩ := hg.live_of_input hs
  exact mem_sources.mpr ⟨lt_size_of_node? hn, .single ⟨i, s, hs, rfl⟩⟩

theorem not_mem_sources (h : ¬ g.HasCycle) : v ∉ g.sources v :=
  fun hmem => h ⟨v, (mem_sources.mp hmem).2⟩

theorem ranked_card_sources (hg : g.WellFormed) (h : ¬ g.HasCycle) :
    g.Ranked fun v => (g.sources v).card := by
  intro v i s hs
  have hread : g.Reads v s.node := ⟨i, s, hs, rfl⟩
  exact Finset.card_lt_card ((Finset.ssubset_iff_of_subset (sources_subset hread)).mpr
    ⟨s.node, mem_sources_of_reads hg hread, not_mem_sources h⟩)

theorem acyclic_of_not_hasCycle (hg : g.WellFormed) (h : ¬ g.HasCycle) : g.Acyclic :=
  ⟨_, ranked_card_sources hg h⟩

end Cycles

namespace InOrder

variable {placed order before rest : List NodeId}

theorem behind (h : g.InOrder placed order) (hsplit : order = before ++ v :: rest)
    (hread : g.Reads v u) : u ∈ placed ∨ u ∈ before := by
  induction before generalizing placed order with
  | nil =>
    subst hsplit
    obtain ⟨⟨n, hn, -, hinputs⟩, -⟩ := h
    obtain ⟨i, s, hs, rfl⟩ := hread
    obtain ⟨m, hm, hi⟩ := input?_eq_some.mp hs
    cases hn.symm.trans hm
    exact .inl (hinputs s (List.mem_of_getElem? hi))
  | cons w before ih =>
    subst hsplit
    rcases ih h.2 rfl with hmem | hmem
    · rcases List.mem_cons.mp hmem with rfl | hplaced
      · exact .inr List.mem_cons_self
      · exact .inl hplaced
    · exact .inr (List.mem_cons_of_mem w hmem)

theorem of_behind (hnodup : order.Nodup) (hlive : ∀ v ∈ order, g.isLive v = true)
    (hnew : ∀ v ∈ order, v ∉ placed)
    (hbehind : ∀ before rest v u, order = before ++ v :: rest → g.Reads v u →
      u ∈ placed ∨ u ∈ before) : g.InOrder placed order := by
  induction order generalizing placed with
  | nil => trivial
  | cons id rest ih =>
    obtain ⟨hid, hrest⟩ := List.nodup_cons.mp hnodup
    obtain ⟨n, hn⟩ := Option.isSome_iff_exists.mp (hlive id List.mem_cons_self)
    refine ⟨⟨n, hn, hnew id List.mem_cons_self, fun s hs => ?_⟩, ih hrest
      (fun v hv => hlive v (List.mem_cons_of_mem id hv)) (fun v hv hmem => ?_)
      fun before rest' v u hsplit hread => ?_⟩
    · obtain ⟨i, hi⟩ := List.getElem?_of_mem hs
      have hread : g.Reads id s.node := ⟨i, s, input?_eq_some.mpr ⟨n, hn, hi⟩, rfl⟩
      exact (hbehind [] rest id s.node rfl hread).resolve_right List.not_mem_nil
    · rcases List.mem_cons.mp hmem with rfl | hplaced
      · exact hid hv
      · exact hnew v (List.mem_cons_of_mem id hv) hplaced
    · rcases hbehind (id :: before) rest' v u (by rw [hsplit]; rfl) hread with hplaced | hmem
      · exact .inl (List.mem_cons_of_mem id hplaced)
      · rcases List.mem_cons.mp hmem with rfl | hbefore
        · exact .inl List.mem_cons_self
        · exact .inr hbefore

end InOrder

namespace Schedules

variable {order : List NodeId}

theorem inOrder (h : g.Schedules order) : g.InOrder [] order :=
  .of_behind h.nodup (fun v => (h.mem v).mp) (fun _ _ => List.not_mem_nil)
    fun before rest v u hsplit hread => .inr (h.behind before rest v u hsplit hread)

theorem acyclic (h : g.Schedules order) : g.Acyclic := by
  refine ⟨order.idxOf, fun v i s hs => ?_⟩
  have hread : g.Reads v s.node := ⟨i, s, hs, rfl⟩
  obtain ⟨before, rest, hsplit, hv⟩ := List.eq_append_cons_of_mem ((h.mem v).mpr hread.live)
  have hmem := h.behind before rest v s.node hsplit hread
  change order.idxOf s.node < order.idxOf v
  rw [hsplit, List.idxOf_append_of_mem hmem, List.idxOf_append_of_notMem hv, List.idxOf_cons_self]
  exact List.idxOf_lt_length_of_mem hmem

end Schedules

theorem schedules_of_run (hg : g.WellFormed) {order : List NodeId}
    (hrun : g.topologicalOrder.run = .ok (.ok order)) : g.Schedules order := by
  obtain ⟨hsorted, hperm⟩ := topologicalOrder_sorted hg hrun
  refine ⟨hsorted.nodup.1, fun v => ?_, fun before rest v u hsplit hread => ?_⟩
  · rw [hperm.mem_iff, isLive, Option.isSome_iff_exists]
    simp only [List.mem_map, Prod.exists, exists_and_right, exists_eq_right, WellFormed.mem_liveNodes]
  · exact (hsorted.behind hsplit hread).resolve_left List.not_mem_nil

section Sorted

theorem pairwise_insertSorted {ids : List NodeId} (h : ids.Pairwise (· < ·)) :
    (insertSorted id ids).Pairwise (· < ·) := by
  induction ids with
  | nil => exact List.pairwise_singleton _ _
  | cons other ids ih =>
    obtain ⟨hother, hids⟩ := List.pairwise_cons.mp h
    rw [insertSorted]
    split
    · next hlt =>
      refine List.pairwise_cons.mpr ⟨fun v hv => ?_, h⟩
      rcases List.mem_cons.mp hv with rfl | hv
      · exact hlt
      · exact Nat.lt_trans hlt (hother v hv)
    · split
      · exact h
      · next hlt hne =>
        refine List.pairwise_cons.mpr ⟨fun v hv => ?_, ih hids⟩
        rcases Region.mem_insertSorted.mp hv with rfl | hv
        · exact Nat.lt_of_le_of_ne (Nat.not_lt.mp hlt) (Ne.symm hne)
        · exact hother v hv

namespace Frontier

variable {f f' : Frontier}

theorem pairwise_start (g : Graph α) : (start g).ready.Pairwise (· < ·) := by
  have hids : (g.liveNodes.map Prod.fst).Pairwise (· < ·) := by
    rw [liveNodes, List.map_filterMap]
    refine List.pairwise_lt_range.filterMap _ fun i j hij a ha b hb => ?_
    simp only [Option.map_map, Option.map_eq_some_iff, Function.comp_apply] at ha hb
    obtain ⟨_, -, rfl⟩ := ha
    obtain ⟨_, -, rfl⟩ := hb
    exact hij
  exact hids.sublist (List.filter_sublist.map _)

theorem pairwise_supply (hf : f.ready.Pairwise (· < ·)) (h : f.supply v = .ok f') :
    f'.ready.Pairwise (· < ·) := by
  rw [supply] at h
  split at h
  · cases h
  obtain ⟨count, -, h⟩ := except_bind_eq_ok.mp h
  cases h
  dsimp only
  split
  · exact pairwise_insertSorted hf
  · exact hf

theorem pairwise_supplyAll {ids : List NodeId} (hf : f.ready.Pairwise (· < ·))
    (h : f.supplyAll ids = .ok f') : f'.ready.Pairwise (· < ·) := by
  induction ids generalizing f with
  | nil =>
    cases h
    exact hf
  | cons v ids ih =>
    rw [supplyAll, List.foldlM_cons] at h
    obtain ⟨f₁, h₁, h⟩ := except_bind_eq_ok.mp h
    exact ih (pairwise_supply hf h₁) h

end Frontier

end Sorted

section Drain

variable {placed order other : List NodeId} {f : Frontier}

theorem Draining.mem_ready_of_inOrder (h : Draining g placed [] f) {rest : List NodeId}
    (hother : g.InOrder placed (u :: rest)) : u ∈ f.ready := by
  obtain ⟨⟨n, hn, hplaced, hinputs⟩, -⟩ := hother
  exact (h.ready u).mpr ⟨Option.isSome_iff_exists.mpr ⟨n, hn⟩, hplaced, (waiting_eq_zero hn).mpr hinputs⟩

theorem lex_nil (other : List NodeId) : [] = other ∨ List.Lex (· < ·) [] other := by
  cases other with
  | nil => exact .inl rfl
  | cons u others => exact .inr .nil

theorem drain_least (hg : g.WellFormed) {count : Nat} (h : Draining g placed [] f)
    (hclosed : ∀ v ∈ placed, g.waiting placed v = 0) (hf : f.ready.Pairwise (· < ·))
    (hrun : (g.drain count f).run = .ok (.ok order)) (hother : g.InOrder placed other)
    (hall : ∀ v, g.isLive v = true → v ∉ placed → v ∈ other) :
    order = other ∨ List.Lex (· < ·) order other := by
  -- By induction on the steps. The other order can only begin with a ready node, and the walk takes
  -- the least of these.
  induction count generalizing placed f order other with
  | zero =>
    cases hrun
    exact lex_nil other
  | succ count ih =>
    cases hready : f.ready with
    | nil =>
      rw [drain, hready] at hrun
      cases hrun
      exact lex_nil other
    | cons id ready =>
      obtain ⟨n, f', hn, hid, -, hsupply, h', hclosed'⟩ := h.advance hg hclosed hready
      obtain ⟨rest, hrest, rfl⟩ := (drain_cons_eq_ok hready hn hsupply).mp hrun
      obtain ⟨hid_lt, hready_lt⟩ := List.pairwise_cons.mp (hready ▸ hf)
      cases other with
      | nil => exact absurd (hall id (Option.isSome_iff_exists.mpr ⟨n, hn⟩) hid) List.not_mem_nil
      | cons u others =>
        rcases List.mem_cons.mp (hready ▸ h.mem_ready_of_inOrder hother) with rfl | hu
        · have hothers : ∀ v, g.isLive v = true → v ∉ u :: placed → v ∈ others := by
            intro v hv hplaced
            rw [List.mem_cons, not_or] at hplaced
            exact (List.mem_cons.mp (hall v hv hplaced.2)).resolve_left hplaced.1
          exact (ih h' hclosed' (Frontier.pairwise_supplyAll hready_lt hsupply) hrest hother.2
            hothers).imp (congrArg _) .cons
        · exact .inr (.rel (hid_lt u hu))

theorem drain_ends (hg : g.WellFormed) (h : Draining g placed [] f)
    (hclosed : ∀ v ∈ placed, g.waiting placed v = 0) :
    ∃ order, ∀ count, (g.unplaced placed).length ≤ count →
      (g.drain count f).run = .ok (.ok order) := by
  induction hlength : (g.unplaced placed).length using Nat.strongRecOn generalizing placed f with
  | ind length ih =>
    cases hready : f.ready with
    | nil =>
      refine ⟨[], fun count _ => ?_⟩
      cases count with
      | zero => rfl
      | succ count =>
        rw [drain, hready]
        rfl
    | cons id ready =>
      obtain ⟨n, f', hn, hid, -, hsupply, h', hclosed'⟩ := h.advance hg hclosed hready
      have hsplit := (perm_unplaced (Option.isSome_iff_exists.mpr ⟨n, hn⟩) hid).length_eq
      rw [List.length_cons, hlength] at hsplit
      obtain ⟨order, horder⟩ := ih _ (Nat.lt_of_lt_of_eq (Nat.lt_succ_self _) hsplit) h' hclosed' rfl
      refine ⟨id :: order, fun count hle => ?_⟩
      obtain ⟨count, rfl⟩ := Nat.exists_eq_add_one_of_ne_zero (by omega : count ≠ 0)
      exact (drain_cons_eq_ok hready hn hsupply).mpr ⟨order, horder count (by omega), rfl⟩

end Drain

section Runs

variable {order other : List NodeId}

theorem topologicalOrder_ok_iff (hg : g.WellFormed) :
    (∃ order, g.topologicalOrder.run = .ok (.ok order)) ↔ ¬ g.HasCycle := by
  constructor
  · rintro ⟨order, hrun⟩
    exact (schedules_of_run hg hrun).acyclic.not_hasCycle
  · intro h
    obtain ⟨rank, hr⟩ := acyclic_of_not_hasCycle hg h
    obtain ⟨order, hrun, -⟩ := topologicalOrder_ok hg hr
    exact ⟨order, hrun⟩

theorem topologicalOrder_cycle_iff (hg : g.WellFormed) :
    g.topologicalOrder.run = .ok (.error .cycle) ↔ g.HasCycle := by
  rw [← not_iff_not, ← topologicalOrder_ok_iff hg]
  rcases topologicalOrder_answers hg with ⟨order, hrun⟩ | hrun
  · simp [hrun]
  · simp [hrun]

theorem topologicalOrder_lex (hg : g.WellFormed) (hrun : g.topologicalOrder.run = .ok (.ok order))
    (hother : g.Schedules other) : order = other ∨ List.Lex (· < ·) order other := by
  obtain ⟨drained, hdrain, hrest⟩ := attempt_bind_eq_ok.mp hrun
  split at hrest
  · cases attempt_pure_eq_ok.mp hrest
    exact drain_least hg (.start g) (by simp) (Frontier.pairwise_start g) hdrain hother.inOrder
      fun v hv _ => (hother.mem v).mpr hv
  · cases hrest

/-- The search for an order never fails, and its bound never ends it. It finds an order exactly when
no cycle is in the way, and then the least one. -/
theorem topologicalOrder_least (hg : g.WellFormed) :
    (∃ placed, ∀ count, g.size ≤ count → (g.drain count (.start g)).run = .ok (.ok placed)) ∧
    ((∃ order, g.topologicalOrder.run = .ok (.ok order)) ↔ ¬ g.HasCycle) ∧
    (g.topologicalOrder.run = .ok (.error .cycle) ↔ g.HasCycle) ∧
    ∀ order, g.topologicalOrder.run = .ok (.ok order) →
      g.Schedules order ∧
        ∀ other, g.Schedules other → order = other ∨ List.Lex (· < ·) order other := by
  refine ⟨?_, topologicalOrder_ok_iff hg, topologicalOrder_cycle_iff hg, fun order hrun =>
    ⟨schedules_of_run hg hrun, fun other => topologicalOrder_lex hg hrun⟩⟩
  obtain ⟨placed, hplaced⟩ := drain_ends hg (.start g) (by simp)
  exact ⟨placed, fun count hle => hplaced count (length_unplaced_nil hg ▸ hle)⟩

def crossed : Graph Rat :=
  let ports : List Port := [⟨.f32, some [1]⟩]
  let built : Graph Rat := assemble [("p", .parameter, [], ports), ("gone", .relu, [⟨0, 0⟩], ports),
    ("sum", .add, [⟨0, 0⟩, ⟨0, 0⟩], ports), ("act", .relu, [⟨0, 0⟩], ports)]
  (((built.removeNode 1).2.setInput 2 0 ⟨3, 0⟩).2.setInput 2 1 ⟨3, 0⟩).2

def knotted : Graph Rat := (crossed.setInput 3 0 ⟨2, 0⟩).2

theorem wellFormed_crossed : crossed.WellFormed :=
  have hbuilt := (assemble_ordered _).1
  have hremoved := (sound_removeNode hbuilt 1).wellFormed
  have hfirst := (sound_setInput hremoved 2 0 ⟨3, 0⟩).wellFormed
  (sound_setInput hfirst 2 1 ⟨3, 0⟩).wellFormed

theorem topologicalOrder_least_of_crossed : crossed.WellFormed ∧ knotted.WellFormed ∧
    crossed.Schedules [0, 3, 2] ∧
    (∀ other, crossed.Schedules other → [0, 3, 2] = other ∨ List.Lex (· < ·) [0, 3, 2] other) ∧
    knotted.HasCycle := by
  have hknotted := (sound_setInput wellFormed_crossed 3 0 ⟨2, 0⟩).wellFormed
  obtain ⟨hschedules, hleast⟩ :=
    (topologicalOrder_least wellFormed_crossed).2.2.2 [0, 3, 2] (by decide +kernel)
  exact ⟨wellFormed_crossed, hknotted, hschedules, hleast,
    (topologicalOrder_least hknotted).2.2.1.mp (by decide +kernel)⟩

end Runs

end Graph

end LowPrecision
