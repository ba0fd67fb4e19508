import LowPrecision.Graph.Order
import LowPrecision.Graph.Region
import LowPrecision.Proofs.Graph.Operations
import LowPrecision.Proofs.Graph.Ranks

namespace LowPrecision

namespace Graph

variable {α : Type} {g : Graph α} {rank : NodeId → Nat} {id v : NodeId} {n : Node α}

theorem perm_insertSorted {ids : List NodeId} (h : id ∉ ids) :
    (insertSorted id ids).Perm (id :: ids) := by
  induction ids with
  | nil => exact .refl _
  | cons other ids ih =>
    have hne : id ≠ other := fun he => h (he ▸ List.mem_cons_self)
    have hrest : id ∉ ids := fun hm => h (List.mem_cons_of_mem _ hm)
    rw [insertSorted]
    split
    · exact .refl _
    · exact ((ih hrest).cons other).trans (.swap id other ids)

section Readers

theorem WellFormed.mem_allReaders (h : g.WellFormed) (hn : g.node? id = some n) {r : Slot} :
    r ∈ n.allReaders ↔ ∃ s, g.input? r.node r.index = some s ∧ s.node = id := by
  constructor
  · intro hr
    obtain ⟨w, hw, hr⟩ := List.mem_flatMap.mp hr
    obtain ⟨k, hk⟩ := List.getElem?_of_mem hw
    refine ⟨⟨id, k⟩, h.mem_readers.mp ?_, rfl⟩
    rwa [readers_eq, wire?_eq_some.mpr ⟨n, hn, hk⟩]
  · rintro ⟨s, hs, rfl⟩
    obtain ⟨w, hw⟩ := Option.isSome_iff_exists.mp (h.wire_of_input hs)
    obtain ⟨m, hm, hout⟩ := wire?_eq_some.mp hw
    obtain rfl : n = m := Option.some.inj (hn.symm.trans hm)
    refine List.mem_flatMap.mpr ⟨w, List.mem_of_getElem? hout, ?_⟩
    have hread := h.mem_readers.mpr hs
    rwa [readers_eq, hw] at hread

theorem WellFormed.nodup_allReaders (h : g.WellFormed) (hn : g.node? id = some n) :
    n.allReaders.Nodup := by
  have hwire : ∀ k w, n.outputs[k]? = some w → g.readers ⟨id, k⟩ = w.readers := by
    intro k w hk
    rw [readers_eq, wire?_eq_some.mpr ⟨n, hn, hk⟩]
    rfl
  refine List.nodup_flatMap.mpr ⟨fun w hw => ?_, List.pairwise_iff_getElem.mpr fun i j hi hj hij => ?_⟩
  · obtain ⟨k, hk⟩ := List.getElem?_of_mem hw
    rw [List.nodup_iff_count_le_one]
    intro r
    rw [← hwire k w hk, h.mirror]
    split <;> decide
  · intro r hri hrj
    rw [← hwire i _ (List.getElem?_eq_getElem hi), h.mem_readers] at hri
    rw [← hwire j _ (List.getElem?_eq_getElem hj), h.mem_readers] at hrj
    have hsame := congrArg Slot.index (Option.some.inj (hri.symm.trans hrj))
    exact Nat.ne_of_lt hij hsame

theorem WellFormed.count_readers_of_node (h : g.WellFormed) (hn : g.node? id = some n)
    {m : Node α} (hm : g.node? v = some m) :
    (n.allReaders.map Slot.node).count v = m.inputs.countP fun s => s.node = id := by
  have hinputs : m.inputs = (slotsOf v m.inputs).map Prod.fst := by
    rw [slotsOf, List.map_map]
    exact (List.zipIdx_map_fst 0 m.inputs).symm
  have hperm : (n.allReaders.filter fun r => r.node = v).Perm
      (((slotsOf v m.inputs).filter fun e => e.1.node = id).map Prod.snd) := by
    apply (List.perm_ext_iff_of_nodup ((h.nodup_allReaders hn).filter _)
      ((nodup_slotsOf v m.inputs).sublist (List.filter_sublist.map _))).mpr
    intro r
    simp only [List.mem_filter, h.mem_allReaders hn, decide_eq_true_eq, List.mem_map, Prod.exists,
      mem_slotsOf, exists_eq_right]
    constructor
    · rintro ⟨⟨s, hs, rfl⟩, rfl⟩
      obtain ⟨k, hk, hs⟩ := input?_eq_some.mp hs
      obtain rfl : m = k := Option.some.inj (hm.symm.trans hk)
      exact ⟨s, ⟨rfl, hs⟩, rfl⟩
    · rintro ⟨s, ⟨rfl, hs⟩, rfl⟩
      exact ⟨⟨s, input?_eq_some.mpr ⟨m, hm, hs⟩, rfl⟩, rfl⟩
  have hlength := hperm.length_eq
  rw [List.length_map, ← List.countP_eq_length_filter, ← List.countP_eq_length_filter] at hlength
  conv_rhs => rw [hinputs, List.countP_map]
  rw [List.count, List.countP_map]
  exact hlength

end Readers

def waiting (g : Graph α) (placed : List NodeId) (v : NodeId) : Nat :=
  ((g.node? v).map fun n => n.inputs.countP fun s => s.node ∉ placed).getD 0

section Waiting

variable {placed : List NodeId}

theorem waiting_of_node (hn : g.node? v = some n) :
    g.waiting placed v = n.inputs.countP fun s => s.node ∉ placed := by
  rw [waiting, hn]
  rfl

theorem waiting_eq_zero (hn : g.node? v = some n) :
    g.waiting placed v = 0 ↔ ∀ s ∈ n.inputs, s.node ∈ placed := by
  rw [waiting_of_node hn, List.countP_eq_zero]
  simp

theorem waiting_cons (hn : g.node? v = some n) (hid : id ∉ placed) :
    g.waiting placed v = g.waiting (id :: placed) v + n.inputs.countP fun s => s.node = id := by
  rw [waiting_of_node hn, waiting_of_node hn]
  induction n.inputs with
  | nil => rfl
  | cons s inputs ih =>
    simp only [List.countP_cons, ih, decide_eq_true_eq, List.mem_cons]
    by_cases hs : s.node = id
    · simp [hs, hid]
      omega
    · simp [hs]
      omega

theorem waiting_nil (hn : g.node? v = some n) : g.waiting [] v = n.inputs.length := by
  rw [waiting_of_node hn, List.countP_eq_length]
  simp

theorem waiting_le {more : List NodeId} (h : ∀ u ∈ placed, u ∈ more) :
    g.waiting more v ≤ g.waiting placed v := by
  cases hn : g.node? v with
  | none => simp [waiting, hn]
  | some n =>
    rw [waiting_of_node hn, waiting_of_node hn]
    refine List.countP_mono_left fun s _ hs => ?_
    rw [decide_eq_true_eq] at hs ⊢
    exact fun hplaced => hs (h s.node hplaced)

end Waiting

structure Draining (g : Graph α) (placed todo : List NodeId) (f : Frontier) : Prop where
  pending (v : NodeId) (h : g.isLive v = true) :
    f.pending[v]? = some (g.waiting placed v + todo.count v)
  ready (v : NodeId) : v ∈ f.ready ↔
    g.isLive v = true ∧ v ∉ placed ∧ g.waiting placed v + todo.count v = 0
  nodup : f.ready.Nodup

namespace Draining

variable {placed todo : List NodeId} {f : Frontier}

theorem start (g : Graph α) : Draining g [] [] (.start g) where
  pending v h := by
    obtain ⟨n, hn⟩ := Option.isSome_iff_exists.mp h
    have hplace : g.nodes[v]? = some (some n) := Option.join_eq_some_iff.mp hn
    rw [Frontier.start, Array.getElem?_map, hplace, waiting_nil hn]
    rfl
  ready v := by
    simp only [Frontier.start, List.mem_map, List.mem_filter, Prod.exists, exists_and_right,
      exists_eq_right, WellFormed.mem_liveNodes]
    constructor
    · rintro ⟨n, hn, hempty⟩
      refine ⟨Option.isSome_iff_exists.mpr ⟨n, hn⟩, List.not_mem_nil, ?_⟩
      rw [waiting_nil hn, List.isEmpty_iff.mp hempty]
      rfl
    · rintro ⟨hlive, -, hzero⟩
      obtain ⟨n, hn⟩ := Option.isSome_iff_exists.mp hlive
      rw [waiting_nil hn] at hzero
      exact ⟨n, hn, List.isEmpty_iff_length_eq_zero.mpr hzero⟩
  nodup := WellFormed.nodup_liveIds.sublist (List.filter_sublist.map _)

theorem supply (h : Draining g placed (v :: todo) f) (hlive : g.isLive v = true)
    (hplaced : v ∉ placed) : ∃ f', f.supply v = .ok f' ∧ Draining g placed todo f' := by
  have hcount : f.pending[v]? = some (g.waiting placed v + todo.count v + 1) := by
    rw [h.pending v hlive, List.count_cons_self, Nat.add_assoc]
  have hother : ∀ u, u ≠ v → (v :: todo).count u = todo.count u :=
    fun u hu => List.count_cons_of_ne (Ne.symm hu)
  have hnew : v ∉ f.ready := by
    intro hmem
    have := ((h.ready v).mp hmem).2.2
    rw [List.count_cons_self] at this
    omega
  have hlt : v < f.pending.size := (Array.getElem?_eq_some_iff.mp hcount).1
  have hperm := perm_insertSorted hnew
  refine ⟨⟨f.pending.setIfInBounds v (g.waiting placed v + todo.count v),
    if g.waiting placed v + todo.count v = 0 then insertSorted v f.ready else f.ready⟩, ?_, ?_, ?_, ?_⟩
  · rw [Frontier.supply, hcount]
    rfl
  · intro u hu
    rw [Array.getElem?_setIfInBounds]
    by_cases huv : u = v
    · rw [huv, if_pos rfl, if_pos hlt]
    · rw [if_neg (Ne.symm huv), h.pending u hu, hother u huv]
  · intro u
    by_cases huv : u = v
    · subst huv
      split
      · next hzero => simp [Region.mem_insertSorted, hlive, hplaced, hzero]
      · next hpos => exact ⟨fun hmem => absurd hmem hnew, fun hzero => absurd hzero.2.2 hpos⟩
    · have hsame : u ∈ (if g.waiting placed v + todo.count v = 0 then insertSorted v f.ready
          else f.ready) ↔ u ∈ f.ready := by
        split
        · simp [Region.mem_insertSorted, huv]
        · rfl
      rw [hsame, h.ready, hother u huv]
  · split
    · exact hperm.nodup_iff.mpr (List.nodup_cons.mpr ⟨hnew, h.nodup⟩)
    · exact h.nodup

theorem supplyAll (h : Draining g placed todo f)
    (htodo : ∀ v ∈ todo, g.isLive v = true ∧ v ∉ placed) :
    ∃ f', f.supplyAll todo = .ok f' ∧ Draining g placed [] f' := by
  induction todo generalizing f with
  | nil => exact ⟨f, rfl, h⟩
  | cons v todo ih =>
    obtain ⟨hlive, hplaced⟩ := htodo v List.mem_cons_self
    obtain ⟨f₁, hsupply, h₁⟩ := h.supply hlive hplaced
    obtain ⟨f', hrest, h'⟩ := ih h₁ fun u hu => htodo u (List.mem_cons_of_mem _ hu)
    refine ⟨f', ?_, h'⟩
    rw [Frontier.supplyAll, List.foldlM_cons, hsupply]
    exact hrest

theorem place (hg : g.WellFormed) {ready : List NodeId} (h : Draining g placed [] f)
    (hready : f.ready = id :: ready) (hn : g.node? id = some n) :
    Draining g (id :: placed) (n.allReaders.map Slot.node) ⟨f.pending, ready⟩ := by
  have hid : id ∉ placed := ((h.ready id).mp (by simp [hready])).2.1
  -- What a node has waited for is now either placed or still to be counted off for it.
  have hsplit : ∀ v, g.isLive v = true → g.waiting placed v =
      g.waiting (id :: placed) v + (n.allReaders.map Slot.node).count v := by
    intro v hv
    obtain ⟨m, hm⟩ := Option.isSome_iff_exists.mp hv
    rw [waiting_cons hm hid, hg.count_readers_of_node hn hm]
  have hnodup := List.nodup_cons.mp (hready ▸ h.nodup)
  refine ⟨fun v hv => ?_, fun v => ?_, hnodup.2⟩
  · rw [← hsplit v hv]
    exact h.pending v hv
  · have hmem : v ∈ ready ↔ v ∈ f.ready ∧ v ≠ id := by
      rw [hready, List.mem_cons]
      constructor
      · intro hv
        exact ⟨.inr hv, fun he => hnodup.1 (he ▸ hv)⟩
      · rintro ⟨hv | hv, hne⟩
        · exact absurd hv hne
        · exact hv
    rw [hmem, h.ready]
    constructor
    · rintro ⟨⟨hlive, hplaced, hzero⟩, hne⟩
      exact ⟨hlive, by simp [hne, hplaced], by rw [← hsplit v hlive]; exact hzero⟩
    · rintro ⟨hlive, hplaced, hzero⟩
      rw [List.mem_cons, not_or] at hplaced
      exact ⟨⟨hlive, hplaced.2, by rw [hsplit v hlive]; exact hzero⟩, hplaced.1⟩

theorem exists_ready (hg : g.WellFormed) (hr : g.Ranked rank) (h : Draining g placed [] f)
    (hlive : g.isLive v = true) (hv : v ∉ placed) : ∃ u, u ∈ f.ready := by
  induction hrank : rank v using Nat.strongRecOn generalizing v with
  | ind k ih =>
    obtain ⟨n, hn⟩ := Option.isSome_iff_exists.mp hlive
    by_cases hzero : g.waiting placed v = 0
    · exact ⟨v, (h.ready v).mpr ⟨hlive, hv, hzero⟩⟩
    · rw [waiting_eq_zero hn] at hzero
      push Not at hzero
      obtain ⟨s, hs, hout⟩ := hzero
      obtain ⟨i, hi⟩ := List.getElem?_of_mem hs
      have hread : g.input? v i = some s := input?_eq_some.mpr ⟨n, hn, hi⟩
      obtain ⟨m, hm⟩ := hg.live_of_input hread
      exact ih (rank s.node) (hrank ▸ hr v i s hread) (Option.isSome_iff_exists.mpr ⟨m, hm⟩) hout rfl

end Draining

def unplaced (g : Graph α) (placed : List NodeId) : List NodeId :=
  (g.liveNodes.map Prod.fst).filter (· ∉ placed)

theorem mem_unplaced {placed : List NodeId} :
    v ∈ g.unplaced placed ↔ g.isLive v = true ∧ v ∉ placed := by
  simp only [unplaced, List.mem_filter, List.mem_map, Prod.exists, exists_and_right, exists_eq_right,
    WellFormed.mem_liveNodes, decide_eq_true_eq, isLive, Option.isSome_iff_exists]

theorem nodup_unplaced (placed : List NodeId) : (g.unplaced placed).Nodup :=
  WellFormed.nodup_liveIds.filter _

theorem perm_unplaced {placed : List NodeId} (hlive : g.isLive id = true) (hid : id ∉ placed) :
    (id :: g.unplaced (id :: placed)).Perm (g.unplaced placed) := by
  rw [List.perm_ext_iff_of_nodup _ (nodup_unplaced placed)]
  · intro v
    by_cases hv : v = id
    · simp [mem_unplaced, hv, hlive, hid]
    · simp [mem_unplaced, hv]
  · exact List.nodup_cons.mpr ⟨by simp [mem_unplaced], nodup_unplaced _⟩

theorem Draining.advance (hg : g.WellFormed) {placed ready : List NodeId} {f : Frontier}
    (h : Draining g placed [] f) (hclosed : ∀ v ∈ placed, g.waiting placed v = 0)
    (hready : f.ready = id :: ready) :
    ∃ n f', g.node? id = some n ∧ id ∉ placed ∧ (∀ s ∈ n.inputs, s.node ∈ placed) ∧
      Frontier.supplyAll ⟨f.pending, ready⟩ (n.allReaders.map Slot.node) = .ok f' ∧
      Draining g (id :: placed) [] f' ∧
      ∀ v ∈ id :: placed, g.waiting (id :: placed) v = 0 := by
  obtain ⟨hlive, hid, hzero⟩ := (h.ready id).mp (by simp [hready])
  obtain ⟨n, hn⟩ := Option.isSome_iff_exists.mp hlive
  have htodo : ∀ v ∈ n.allReaders.map Slot.node, g.isLive v = true ∧ v ∉ id :: placed := by
    intro v hv
    obtain ⟨r, hr, rfl⟩ := List.mem_map.mp hv
    obtain ⟨s, hs, hsid⟩ := (hg.mem_allReaders hn).mp hr
    obtain ⟨m, hm, hi⟩ := input?_eq_some.mp hs
    refine ⟨Option.isSome_iff_exists.mpr ⟨m, hm⟩, fun hmem => hid ?_⟩
    have hdone : g.waiting placed r.node = 0 := by
      rcases List.mem_cons.mp hmem with he | hm
      · rw [he]
        exact hzero
      · exact hclosed _ hm
    exact hsid ▸ (waiting_eq_zero hm).mp hdone s (List.mem_of_getElem? hi)
  obtain ⟨f', hsupply, h'⟩ := (h.place hg hready hn).supplyAll htodo
  refine ⟨n, f', hn, hid, (waiting_eq_zero hn).mp hzero, hsupply, h', fun v hv => ?_⟩
  refine Nat.eq_zero_of_le_zero (Nat.le_trans (waiting_le fun u => List.mem_cons_of_mem id) ?_)
  rcases List.mem_cons.mp hv with rfl | hv
  · exact Nat.le_of_eq hzero
  · exact Nat.le_of_eq (hclosed v hv)

theorem drain_cons_eq_ok {count : Nat} {ready order : List NodeId} {f f' : Frontier}
    (hready : f.ready = id :: ready) (hn : g.node? id = some n)
    (hsupply : Frontier.supplyAll ⟨f.pending, ready⟩ (n.allReaders.map Slot.node) = .ok f') :
    (g.drain (count + 1) f).run = .ok (.ok order) ↔
      ∃ rest, (g.drain count f').run = .ok (.ok rest) ∧ id :: rest = order := by
  have hnode : g.node id = .ok n := node_eq_ok.mpr hn
  rw [drain, hready]
  constructor
  · intro hrun
    obtain ⟨m, hm, hrun⟩ := attempt_bind_eq_ok.mp hrun
    obtain ⟨f₁, hf₁, hrun⟩ := attempt_bind_eq_ok.mp hrun
    obtain ⟨rest, hrest, hpure⟩ := attempt_bind_eq_ok.mp hrun
    rw [hnode] at hm
    cases hm
    cases (attempt_lift_eq_ok.mp hf₁).symm.trans hsupply
    exact ⟨rest, hrest, attempt_pure_eq_ok.mp hpure⟩
  · rintro ⟨rest, hrest, rfl⟩
    exact attempt_bind_eq_ok.mpr ⟨n, by rw [hnode]; rfl, attempt_bind_eq_ok.mpr
      ⟨f', attempt_lift_eq_ok.mpr hsupply, attempt_bind_eq_ok.mpr ⟨rest, hrest, rfl⟩⟩⟩

theorem drain_ok (hg : g.WellFormed) (hr : g.Ranked rank) {placed : List NodeId} {f : Frontier}
    (h : Draining g placed [] f)
    (hclosed : ∀ v ∈ placed, g.waiting placed v = 0) :
    ∃ order, (g.drain (g.unplaced placed).length f).run = .ok (.ok order) ∧
      order.Perm (g.unplaced placed) := by
  induction hcount : (g.unplaced placed).length generalizing placed f with
  | zero => exact ⟨[], rfl, by rw [List.length_eq_zero_iff.mp hcount]⟩
  | succ count ih =>
    obtain ⟨v, hv⟩ := List.exists_mem_of_length_pos (Nat.lt_of_lt_of_eq count.succ_pos hcount.symm)
    obtain ⟨hvlive, hvplaced⟩ := mem_unplaced.mp hv
    obtain ⟨u, hu⟩ := h.exists_ready hg hr hvlive hvplaced
    obtain ⟨id, ready, hready⟩ := List.exists_cons_of_ne_nil (List.ne_nil_of_mem hu)
    obtain ⟨n, f', hn, hid, -, hsupply, h', hclosed'⟩ := h.advance hg hclosed hready
    have hperm := perm_unplaced (Option.isSome_iff_exists.mpr ⟨n, hn⟩) hid
    obtain ⟨order, hdrain, horder⟩ :=
      ih h' hclosed' (Nat.succ.inj (hperm.length_eq.trans hcount))
    exact ⟨id :: order, (drain_cons_eq_ok hready hn hsupply).mpr ⟨order, hdrain, rfl⟩,
      (horder.cons id).trans hperm⟩

theorem unplaced_nil : g.unplaced [] = g.liveNodes.map Prod.fst := by
  rw [unplaced, List.filter_eq_self]
  simp

theorem length_unplaced_nil (hg : g.WellFormed) : (g.unplaced []).length = g.size := by
  rw [unplaced_nil, hg.size_eq, List.length_map]

theorem topologicalOrder_ok (hg : g.WellFormed) (hr : g.Ranked rank) :
    ∃ order, g.topologicalOrder.run = .ok (.ok order) ∧
      order.Perm (g.liveNodes.map Prod.fst) := by
  obtain ⟨order, hdrain, hperm⟩ := drain_ok hg hr (.start g) (by simp)
  rw [length_unplaced_nil hg] at hdrain
  refine ⟨order, attempt_bind_eq_ok.mpr ⟨order, hdrain, ?_⟩, unplaced_nil ▸ hperm⟩
  rw [if_pos (hperm.length_eq.trans (length_unplaced_nil hg))]
  rfl

def InOrder (g : Graph α) : List NodeId → List NodeId → Prop
  | _, [] => True
  | placed, id :: rest =>
    (∃ n, g.node? id = some n ∧ id ∉ placed ∧ ∀ s ∈ n.inputs, s.node ∈ placed) ∧
      InOrder g (id :: placed) rest

namespace InOrder

variable {placed order : List NodeId}

theorem nodup (h : g.InOrder placed order) : order.Nodup ∧ ∀ v ∈ order, v ∉ placed := by
  induction order generalizing placed with
  | nil => exact ⟨List.nodup_nil, by simp⟩
  | cons id rest ih =>
    obtain ⟨⟨n, -, hid, -⟩, hrest⟩ := h
    obtain ⟨hnodup, hnew⟩ := ih hrest
    refine ⟨List.nodup_cons.mpr ⟨fun hmem => hnew id hmem List.mem_cons_self, hnodup⟩, ?_⟩
    intro v hv
    rcases List.mem_cons.mp hv with rfl | hv
    · exact hid
    · exact fun hmem => hnew v hv (List.mem_cons_of_mem id hmem)

theorem live (h : g.InOrder placed order) : ∀ v ∈ order, g.isLive v = true := by
  induction order generalizing placed with
  | nil => simp
  | cons id rest ih =>
    obtain ⟨⟨n, hn, -, -⟩, hrest⟩ := h
    intro v hv
    rcases List.mem_cons.mp hv with rfl | hv
    · exact Option.isSome_iff_exists.mpr ⟨n, hn⟩
    · exact ih hrest v hv

end InOrder

theorem drain_inOrder (hg : g.WellFormed) {count : Nat} {placed order : List NodeId} {f : Frontier}
    (h : Draining g placed [] f) (hclosed : ∀ v ∈ placed, g.waiting placed v = 0)
    (hrun : (g.drain count f).run = .ok (.ok order)) : g.InOrder placed order := by
  induction count generalizing placed f order with
  | zero =>
    cases hrun
    trivial
  | succ count ih =>
    cases hready : f.ready with
    | nil =>
      rw [drain, hready] at hrun
      cases hrun
      trivial
    | cons id ready =>
      obtain ⟨n, f', hn, hid, hinputs, hsupply, h', hclosed'⟩ := h.advance hg hclosed hready
      obtain ⟨rest, hrest, rfl⟩ := (drain_cons_eq_ok hready hn hsupply).mp hrun
      exact ⟨⟨n, hn, hid, hinputs⟩, ih h' hclosed' hrest⟩

theorem drain_answers (hg : g.WellFormed) (count : Nat) {placed : List NodeId} {f : Frontier}
    (h : Draining g placed [] f) (hclosed : ∀ v ∈ placed, g.waiting placed v = 0) :
    ∃ order, (g.drain count f).run = .ok (.ok order) := by
  induction count generalizing placed f with
  | zero => exact ⟨[], rfl⟩
  | succ count ih =>
    cases hready : f.ready with
    | nil =>
      rw [drain, hready]
      exact ⟨[], rfl⟩
    | cons id ready =>
      obtain ⟨n, f', hn, -, -, hsupply, h', hclosed'⟩ := h.advance hg hclosed hready
      obtain ⟨order, horder⟩ := ih h' hclosed'
      exact ⟨id :: order, (drain_cons_eq_ok hready hn hsupply).mpr ⟨order, horder, rfl⟩⟩

theorem topologicalOrder_answers (hg : g.WellFormed) :
    (∃ order, g.topologicalOrder.run = .ok (.ok order)) ∨
      g.topologicalOrder.run = .ok (.error .cycle) := by
  obtain ⟨order, hdrain⟩ := drain_answers hg g.size (.start g) (by simp)
  have hrun : g.topologicalOrder.run =
      (if order.length = g.size then pure order else throw .cycle : Attempt GraphError _).run := by
    rw [topologicalOrder, ExceptT.run_bind, hdrain]
    rfl
  rw [hrun]
  split
  · exact .inl ⟨order, rfl⟩
  · exact .inr rfl

theorem topologicalOrder_sorted (hg : g.WellFormed) {order : List NodeId}
    (hrun : g.topologicalOrder.run = .ok (.ok order)) :
    g.InOrder [] order ∧ order.Perm (g.liveNodes.map Prod.fst) := by
  obtain ⟨drained, hdrain, hrest⟩ := attempt_bind_eq_ok.mp hrun
  split at hrest
  rotate_left
  · cases hrest
  next hlength =>
  cases attempt_pure_eq_ok.mp hrest
  have hsorted := drain_inOrder hg (.start g) (by simp) hdrain
  refine ⟨hsorted, (List.subperm_of_subset hsorted.nodup.1 fun v hv => ?_).perm_of_length_le ?_⟩
  · obtain ⟨n, hn⟩ := Option.isSome_iff_exists.mp (hsorted.live v hv)
    exact List.mem_map.mpr ⟨_, WellFormed.mem_liveNodes.mpr hn, rfl⟩
  · exact Nat.le_of_eq (by rw [List.length_map, ← hg.size_eq, hlength])

end Graph

end LowPrecision
