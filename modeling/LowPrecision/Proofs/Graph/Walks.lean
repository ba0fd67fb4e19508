import LowPrecision.Graph.Region
import LowPrecision.Proofs.Graph.LeastOrder

namespace LowPrecision.Graph

variable {α : Type} {g : Graph α} {u v : NodeId} {n : Node α}
  {next : NodeId → Node α → List NodeId} {start visited queue : List NodeId}

inductive Reached (g : Graph α) (next : NodeId → Node α → List NodeId) (start : List NodeId) :
    NodeId → Prop
  | start {v : NodeId} : v ∈ start → g.isLive v = true → g.Reached next start v
  | step {u v : NodeId} {n : Node α} : g.Reached next start u → g.node? u = some n →
      v ∈ next u n → g.isLive v = true → g.Reached next start v

theorem walk_reached (hvisited : ∀ v ∈ visited, g.Reached next start v)
    (hqueue : ∀ v ∈ queue, g.isLive v = true → g.Reached next start v) :
    ∀ v ∈ g.walk next visited queue, g.Reached next start v := by
  fun_induction walk g next visited queue with
  | case1 => exact hvisited
  | case2 visited id queue hn ih => exact ih hvisited (List.forall_mem_cons.mp hqueue).2
  | case3 visited id queue n hn hmem ih => exact ih hvisited (List.forall_mem_cons.mp hqueue).2
  | case4 visited id queue n hn hmem ih =>
    obtain ⟨hid, hrest⟩ := List.forall_mem_cons.mp hqueue
    have hreached := hid (isLive_of_node? hn)
    refine ih (List.forall_mem_cons.mpr ⟨hreached, hvisited⟩) fun v hv hlive => ?_
    rcases List.mem_append.mp hv with hv | hv
    · exact hrest v hv hlive
    · exact hreached.step hn hv hlive

def Leads (g : Graph α) (next : NodeId → Node α → List NodeId) (visited queue : List NodeId) : Prop :=
  ∀ u ∈ visited, ∀ n, g.node? u = some n → ∀ v ∈ next u n, g.isLive v = true →
    v ∈ visited ∨ v ∈ queue

theorem Leads.skip {id : NodeId} (h : g.Leads next visited (id :: queue))
    (hid : g.isLive id = true → id ∈ visited) : g.Leads next visited queue := by
  intro u hu n hn v hv hlive
  rcases h u hu n hn v hv hlive with hmem | hmem
  · exact .inl hmem
  rcases List.mem_cons.mp hmem with rfl | hmem
  · exact .inl (hid hlive)
  · exact .inr hmem

theorem Leads.visit {id : NodeId} (h : g.Leads next visited (id :: queue)) (hn : g.node? id = some n) :
    g.Leads next (id :: visited) (queue ++ next id n) := by
  refine List.forall_mem_cons.mpr ⟨fun m hm v hv _ => ?_, fun u hu m hm v hv hlive => ?_⟩
  · obtain rfl : n = m := Option.some.inj (hn.symm.trans hm)
    exact .inr (List.mem_append_right _ hv)
  · rcases h u hu m hm v hv hlive with hmem | hmem
    · exact .inl (List.mem_cons_of_mem _ hmem)
    rcases List.mem_cons.mp hmem with rfl | hmem
    · exact .inl List.mem_cons_self
    · exact .inr (List.mem_append_left _ hmem)

theorem walk_closed (h : g.Leads next visited queue) :
    (∀ v ∈ visited, v ∈ g.walk next visited queue) ∧
      (∀ v ∈ queue, g.isLive v = true → v ∈ g.walk next visited queue) ∧
      g.Leads next (g.walk next visited queue) [] := by
  fun_induction walk g next visited queue with
  | case1 => exact ⟨fun _ hv => hv, by simp, h⟩
  | case2 visited id queue hn ih =>
    have hdead := not_isLive_of_none hn
    obtain ⟨hvisited, hqueue, hclosed⟩ := ih (h.skip fun hlive => absurd hlive hdead)
    exact ⟨hvisited, List.forall_mem_cons.mpr ⟨fun hlive => absurd hlive hdead, hqueue⟩, hclosed⟩
  | case3 visited id queue n hn hmem ih =>
    obtain ⟨hvisited, hqueue, hclosed⟩ := ih (h.skip fun _ => hmem)
    exact ⟨hvisited, List.forall_mem_cons.mpr ⟨fun _ => hvisited id hmem, hqueue⟩, hclosed⟩
  | case4 visited id queue n hn hmem ih =>
    obtain ⟨hvisited, hqueue, hclosed⟩ := ih (h.visit hn)
    exact ⟨fun v hv => hvisited v (List.mem_cons_of_mem _ hv),
      List.forall_mem_cons.mpr ⟨fun _ => hvisited id List.mem_cons_self,
        fun v hv => hqueue v (List.mem_append_left _ hv)⟩, hclosed⟩

theorem mem_reach : v ∈ g.reach next start ↔ g.Reached next start v := by
  rw [reach, List.mem_reverse]
  constructor
  · exact walk_reached (by simp) (fun v hv hlive => .start hv hlive) v
  · intro h
    have hopen : g.Leads next [] start := by simp [Leads]
    obtain ⟨-, hstart, hclosed⟩ := walk_closed hopen
    induction h with
    | start hv hlive => exact hstart _ hv hlive
    | step _ hn hv hlive ih => exact (hclosed _ ih _ hn _ hv hlive).resolve_right (by simp)

section Neighbours

theorem mem_producers (hn : g.node? v = some n) : u ∈ n.producers ↔ g.Reads v u := by
  rw [Node.producers, List.mem_map]
  constructor
  · rintro ⟨s, hs, hu⟩
    obtain ⟨i, hi⟩ := List.getElem?_of_mem hs
    exact ⟨i, s, input?_eq_some.mpr ⟨n, hn, hi⟩, hu⟩
  · rintro ⟨i, s, hs, hu⟩
    obtain ⟨m, hm, hi⟩ := input?_eq_some.mp hs
    obtain rfl : n = m := Option.some.inj (hn.symm.trans hm)
    exact ⟨s, List.mem_of_getElem? hi, hu⟩

theorem WellFormed.live_of_reads (hg : g.WellFormed) (h : g.Reads v u) : g.isLive u = true := by
  obtain ⟨i, s, hs, rfl⟩ := h
  obtain ⟨n, hn⟩ := hg.live_of_input hs
  exact isLive_of_node? hn

theorem WellFormed.mem_readerNodes (hg : g.WellFormed) : v ∈ g.readerNodes u ↔ g.Reads v u := by
  have hfold : ∀ (slots : List Slot) (ids : List NodeId),
      v ∈ slots.foldl (fun ids slot => insertSorted slot.node ids) ids ↔
        (∃ slot ∈ slots, slot.node = v) ∨ v ∈ ids := by
    intro slots
    induction slots with
    | nil => simp
    | cons slot slots ih =>
      intro ids
      rw [List.foldl_cons, ih, Region.mem_insertSorted]
      simp only [List.mem_cons, exists_eq_or_imp, eq_comm (a := v), or_assoc, or_left_comm]
  rw [readerNodes]
  split
  · next n hn =>
    rw [hfold, or_iff_left (List.not_mem_nil)]
    constructor
    · rintro ⟨slot, hslot, rfl⟩
      obtain ⟨s, hs, hu⟩ := (hg.mem_allReaders hn).mp hslot
      exact ⟨slot.index, s, hs, hu⟩
    · rintro ⟨i, s, hs, hu⟩
      exact ⟨⟨v, i⟩, (hg.mem_allReaders hn).mpr ⟨s, hs, hu⟩, rfl⟩
  · next hdead =>
    refine ⟨fun h => absurd h List.not_mem_nil, fun h => ?_⟩
    exact absurd (hg.live_of_reads h) (not_isLive_of_none hdead)

end Neighbours

end LowPrecision.Graph
