import LowPrecision.Proofs.Graph.Order
import LowPrecision.Proofs.Graph.Rerouting

/-!
The removal of dead nodes takes out a least set of nodes, in whatever order the walk comes to them,
and leaves the rest of the graph as it was.
-/

namespace LowPrecision

variable {α : Type}

theorem Node.eq_of_views {n n' : Node α} (hname : n.name = n'.name) (hface : n.face = n'.face)
    (hreaders : ∀ k, n.readers k = n'.readers k) : n = n' := by
  obtain ⟨name, op, inputs, outputs, relaxed⟩ := n
  obtain ⟨name', op', inputs', outputs', relaxed'⟩ := n'
  simp only [Node.face, Face.mk.injEq] at hname hface
  obtain ⟨rfl, rfl, hports, rfl⟩ := hface
  have houtputs : outputs = outputs' := by
    refine List.ext_getElem? fun k => ?_
    have hport := congrArg (·[k]?) hports
    have hread := hreaders k
    simp only [List.getElem?_map, Node.readers] at hport hread
    cases hw : outputs[k]? with
    | none =>
      rw [hw, Option.map_none, eq_comm, Option.map_eq_none_iff] at hport
      exact hport.symm
    | some w =>
      rw [hw, Option.map_some, eq_comm, Option.map_eq_some_iff] at hport
      obtain ⟨w', hw', hsame⟩ := hport
      rw [hw, hw'] at hread
      rw [hw']
      obtain ⟨port, readers⟩ := w
      obtain ⟨port', readers'⟩ := w'
      cases hsame
      cases hread
      rfl
  rw [hname, houtputs]

open Classical in
noncomputable def Node.unread (gone : NodeId → Prop) (n : Node α) : Node α :=
  { n with outputs := n.outputs.map fun w =>
      { w with readers := w.readers.filter fun r => ¬ gone r.node } }

namespace Graph

variable {g g' : Graph α} {id u v : NodeId} {n : Node α} {p q : NodeId → Prop}

open Classical in
noncomputable def without (g : Graph α) (gone : NodeId → Prop) : Graph α where
  nodes := g.nodes.mapIdx fun v n => if gone v then none else n.map (Node.unread gone)
  names := g.names.filter fun e => ¬ gone e.2
  attributes := { g.attributes with
    entries := g.attributes.entries.filter fun e => ¬ gone e.1.target.owner }

section Without

open scoped Classical

theorem node?_without (g : Graph α) (p : NodeId → Prop) (v : NodeId) :
    (g.without p).node? v = if p v then none else (g.node? v).map (Node.unread p) := by
  simp only [node?, without, Array.getElem?_mapIdx]
  cases g.nodes[v]? with
  | none => simp
  | some n => split <;> simp [*]

theorem size_without (g : Graph α) (p : NodeId → Prop) :
    (g.without p).nodes.size = g.nodes.size := Array.size_mapIdx

theorem isLive_without (g : Graph α) (p : NodeId → Prop) (v : NodeId) :
    (g.without p).isLive v = true ↔ g.isLive v = true ∧ ¬ p v := by
  rw [isLive, node?_without]
  by_cases hv : p v <;> simp [hv, isLive]

theorem name?_without (g : Graph α) (p : NodeId → Prop) (v : NodeId) :
    (g.without p).name? v = if p v then none else g.name? v := by
  rw [name?, node?_without]
  split
  · rfl
  · rw [Option.map_map]
    rfl

theorem face?_without (g : Graph α) (p : NodeId → Prop) (v : NodeId) :
    (g.without p).face? v = if p v then none else g.face? v := by
  rw [face?, node?_without]
  split
  · rfl
  · rw [Option.map_map]
    refine Option.map_congr fun n _ => ?_
    simp [Node.unread, Node.face]

theorem readers_without (g : Graph α) (p : NodeId → Prop) (s : Slot) :
    (g.without p).readers s = if p s.node then [] else (g.readers s).filter fun r => ¬ p r.node := by
  rw [readers, node?_without]
  split
  · rfl
  · rw [readers, Option.map_map]
    cases g.node? s.node with
    | none => rfl
    | some n =>
      simp only [Option.map_some, Option.getD_some, Function.comp_apply, Node.readers, Node.unread,
        List.getElem?_map, Option.map_map]
      cases n.outputs[s.index]? <;> rfl

theorem eq_of_views (hsize : g.nodes.size = g'.nodes.size) (hname : ∀ v, g.name? v = g'.name? v)
    (hface : ∀ v, g.face? v = g'.face? v) (hreaders : ∀ s, g.readers s = g'.readers s)
    (hnames : g.names = g'.names) (hattributes : g.attributes = g'.attributes) : g = g' := by
  have hnode : ∀ v, g.node? v = g'.node? v := by
    intro v
    cases hn : g.node? v with
    | none =>
      have hnone := hface v
      rw [face?, hn, Option.map_none, eq_comm, face?, Option.map_eq_none_iff] at hnone
      exact hnone.symm
    | some n =>
      obtain ⟨n', hn', hsame⟩ := face?_eq_some.mp ((hface v).symm.trans (face?_eq_some.mpr ⟨n, hn, rfl⟩))
      have hsameName := hname v
      rw [name?, hn, name?, hn', Option.map_some, Option.map_some, Option.some.injEq] at hsameName
      rw [hn', Node.eq_of_views hsameName hsame.symm fun k => ?_]
      have hread := hreaders ⟨v, k⟩
      rwa [readers, hn, readers, hn'] at hread
  have hnodes : g.nodes = g'.nodes := by
    refine Array.ext hsize fun v hv hv' => ?_
    have hplace := hnode v
    rw [node?, node?, Array.getElem?_eq_getElem hv, Array.getElem?_eq_getElem hv'] at hplace
    exact hplace
  obtain ⟨nodes, names, attributes⟩ := g
  exact congr (congr (congrArg Graph.mk hnodes) hnames) hattributes

theorem without_eq_self (h : ∀ v, ¬ p v) : g.without p = g := by
  refine eq_of_views (size_without g p) (fun v => ?_) (fun v => ?_) (fun s => ?_)
    (List.filter_eq_self.mpr fun e _ => by simp [h]) ?_
  · rw [name?_without, if_neg (h v)]
  · rw [face?_without, if_neg (h v)]
  · rw [readers_without, if_neg (h s.node)]
    exact List.filter_eq_self.mpr fun r _ => by simp [h]
  · rw [without]
    exact congrArg ({ g.attributes with entries := · })
      (List.filter_eq_self.mpr fun e _ => decide_eq_true (h _))

theorem without_without (g : Graph α) (p q : NodeId → Prop) :
    (g.without p).without q = g.without fun v => p v ∨ q v := by
  refine eq_of_views ?_ (fun v => ?_) (fun v => ?_) (fun s => ?_) ?_ ?_
  · rw [size_without, size_without, size_without]
  · rw [name?_without, name?_without, name?_without]
    by_cases hp : p v <;> by_cases hq : q v <;> simp [hp, hq]
  · rw [face?_without, face?_without, face?_without]
    by_cases hp : p v <;> by_cases hq : q v <;> simp [hp, hq]
  · rw [readers_without, readers_without, readers_without]
    by_cases hp : p s.node <;> by_cases hq : q s.node <;> simp [hp, hq, Bool.and_comm]
  · simp [without, Bool.and_comm]
  · simp [without, Bool.and_comm]

theorem WellFormed.detach_eq_without (h : g.WellFormed) (hn : g.node? id = some n) :
    g.detach id n = g.without (· = id) := by
  have hname : g.name? id = some n.name := by rw [name?, hn, Option.map_some]
  refine eq_of_views ?_ (fun v => ?_) (fun v => ?_) (fun s => ?_) ?_ ?_
  · rw [size_detach, size_without]
  · rw [name?_detach, name?_without]
    by_cases hv : v = id <;> simp [hv]
  · rw [face?_detach, face?_without]
    by_cases hv : v = id <;> simp [hv]
  · rw [readers_detach, readers_without]
    by_cases hs : s.node = id
    · rw [if_pos hs, if_pos hs]
    · rw [if_neg hs, if_neg hs]
      refine List.filter_congr fun r hr => decide_eq_decide.mpr (not_congr ?_)
      obtain ⟨m, hm, hi⟩ := input?_eq_some.mp (h.mem_readers.mp hr)
      rw [mem_slotsOf]
      constructor
      · exact And.left
      · rintro rfl
        cases hn.symm.trans hm
        exact ⟨rfl, hi⟩
  · rw [names_detach]
    refine List.filter_congr fun e he => decide_eq_decide.mpr (not_congr ?_)
    have howner : g.name? e.2 = some e.1 := h.mem_names.mp he
    constructor
    · intro hsame
      exact h.eq_of_name howner (hsame ▸ hname)
    · intro hsame
      rw [hsame] at howner
      exact Option.some.inj (howner.symm.trans hname)
  · rw [attributes_detach]
    exact congrArg ({ g.attributes with entries := · })
      (List.filter_congr fun e _ => decide_eq_decide.mpr Iff.rfl)

end Without

section Walk

def Lost (g g' : Graph α) (v : NodeId) : Prop := g.isLive v = true ∧ ¬ g'.isLive v = true

theorem removeDead_eq_without (h : g.WellFormed) (stack : List NodeId) :
    g.removeDead stack = g.without (g.Lost (g.removeDead stack)) := by
  fun_induction removeDead g stack with
  | case1 g => exact (without_eq_self fun v hv => hv.2 hv.1).symm
  | case2 g id rest hn ih => exact ih h
  | case3 g id rest n hn hdead ih =>
    have hrest := ih (h.detach hn (isDead_eq_true.mp hdead).2)
    have hstay : ∀ v, ((g.detach id n).removeDead (n.producers.reverse ++ rest)).isLive v = true →
      (g.detach id n).isLive v = true := fun _ => isLive_of_removeDead
    generalize (g.detach id n).removeDead (n.producers.reverse ++ rest) = last at hrest hstay ⊢
    calc last = (g.detach id n).without ((g.detach id n).Lost last) := hrest
      _ = g.without fun v => v = id ∨ (g.detach id n).Lost last v := by
        conv_lhs => arg 1; rw [h.detach_eq_without hn]
        exact without_without ..
      _ = g.without (g.Lost last) := by
        refine congrArg g.without (funext fun v => propext ?_)
        have hv := hstay v
        rw [isLive_detach, Bool.and_eq_true, bne_iff_ne] at hv
        rw [Lost, Lost, isLive_detach, Bool.and_eq_true, bne_iff_ne]
        have hid := isLive_of_node? hn
        constructor
        · rintro (rfl | ⟨⟨hlive, -⟩, hgone⟩)
          · exact ⟨hid, fun hlast => (hv hlast).2 rfl⟩
          · exact ⟨hlive, hgone⟩
        · rintro ⟨hlive, hgone⟩
          by_cases hvid : v = id
          · exact .inl hvid
          · exact .inr ⟨⟨hlive, hvid⟩, hgone⟩
  | case4 g id rest n hn hdead ih => exact ih h

/-- The nodes that are dead once those before them are gone: the first one when nothing reads it,
and the producers of such nodes that nothing else reads. -/
inductive DeadCone (g : Graph α) (id : NodeId) : NodeId → Prop
  | start {n : Node α} (node : g.node? id = some n) (kind : ¬ n.kind.IsInterface)
      (readers : n.allReaders = []) : DeadCone g id id
  | producer {u v : NodeId} {m n : Node α} (reader : DeadCone g id u) (reads : g.node? u = some m)
      (mem : v ∈ m.producers) (node : g.node? v = some n) (kind : ¬ n.kind.IsInterface)
      (readers : ∀ r ∈ n.allReaders, DeadCone g id r.node) : DeadCone g id v

def Drains (g : Graph α) (p : NodeId → Prop) (v : NodeId) : Prop :=
  ∀ n, g.node? v = some n → ¬ n.kind.IsInterface → (∀ r ∈ n.allReaders, p r.node) → p v

theorem Drains.without (h : g.Drains p v) (hq : ∀ u, q u → p u) : (g.without q).Drains p v := by
  intro n' hn' hkind hreaders
  rw [node?_without] at hn'
  split at hn'
  · cases hn'
  obtain ⟨n, hn, rfl⟩ := Option.map_eq_some_iff.mp hn'
  refine h n hn hkind fun r hr => ?_
  by_cases hgone : q r.node
  · exact hq r.node hgone
  · refine hreaders r ?_
    obtain ⟨w, hw, hrw⟩ := List.mem_flatMap.mp hr
    exact List.mem_flatMap.mpr ⟨_, List.mem_map_of_mem hw,
      List.mem_filter.mpr ⟨hrw, by simpa using hgone⟩⟩

theorem lost_of_drains (g : Graph α) (stack : List NodeId) (h : g.WellFormed)
    (hup : ∀ u m, p u → g.node? u = some m → ∀ v ∈ m.producers, g.Drains p v)
    (hstack : ∀ v ∈ stack, g.Drains p v) : ∀ v, g.Lost (g.removeDead stack) v → p v := by
  fun_induction removeDead g stack with
  | case1 g => exact fun v hv => absurd hv.1 hv.2
  | case2 g id rest hn ih => exact ih h hup fun v hv => hstack v (List.mem_cons_of_mem id hv)
  | case3 g id rest n hn hdead ih =>
    obtain ⟨hkind, hcount⟩ := isDead_eq_true.mp hdead
    have hid : p id := hstack id List.mem_cons_self n hn hkind fun r hr =>
      absurd hr (List.length_eq_zero_iff.mp hcount ▸ List.not_mem_nil)
    have hdetach := h.detach_eq_without hn
    have hdrains : ∀ v, g.Drains p v → (g.detach id n).Drains p v := fun v hv =>
      hdetach ▸ hv.without fun u hu => hu ▸ hid
    have hlost := ih (h.detach hn hcount) (fun u m hu hm v hv => ?_) (fun v hv => ?_)
    · rintro v ⟨hlive, hgone⟩
      by_cases hv : v = id
      · exact hv ▸ hid
      · exact hlost v ⟨by rw [isLive_detach, hlive, bne_iff_ne.mpr hv]; rfl, hgone⟩
    · rw [hdetach, node?_without] at hm
      split at hm
      · cases hm
      · obtain ⟨m', hm', rfl⟩ := Option.map_eq_some_iff.mp hm
        exact hdrains v (hup u m' hu hm' v hv)
    · rcases List.mem_append.mp hv with hv | hv
      · exact hdrains v (hup id n hid hn v (List.mem_reverse.mp hv))
      · exact hdrains v (hstack v (List.mem_cons_of_mem id hv))
  | case4 g id rest n hn hdead ih => exact ih h hup fun v hv => hstack v (List.mem_cons_of_mem id hv)

theorem DeadCone.root (h : g.DeadCone id v) :
    ∃ n, g.node? id = some n ∧ ¬ n.kind.IsInterface ∧ n.allReaders = [] := by
  induction h with
  | start hn hkind hreaders => exact ⟨_, hn, hkind, hreaders⟩
  | producer _ _ _ _ _ _ ih _ => exact ih

theorem deadCone_of_lost (h : g.WellFormed) (hv : g.Lost (g.removeDead [id]) v) :
    g.DeadCone id v := by
  refine lost_of_drains g [id] h (fun u m hu hm v hv n hn hkind hreaders =>
    .producer hu hm hv hn hkind hreaders) (fun v hv n hn hkind hreaders => ?_) v hv
  obtain rfl := List.mem_singleton.mp hv
  cases hall : n.allReaders with
  | nil => exact .start hn hkind hall
  | cons r rest =>
    obtain ⟨n', hn', -, hnone⟩ := (hreaders r (by rw [hall]; exact List.mem_cons_self)).root
    cases hn.symm.trans hn'
    rw [hall] at hnone
    cases hnone

theorem lost_of_deadCone (h : g.WellFormed) (hv : g.DeadCone id v) :
    g.Lost (g.removeDead [id]) v := by
  induction hv with
  | start hn hkind hreaders =>
    have hgone := removeDead_gone h hn hkind fun _ _ _ =>
      h.not_read_of_readerCount hn (congrArg List.length hreaders)
    exact ⟨isLive_of_node? hn, by simp [isLive, hgone]⟩
  | @producer u v m n _ hm hmem hn hkind _ hu hreaders =>
    refine ⟨isLive_of_node? hn, fun hlive => ?_⟩
    have hwhole := removeDead_eq_without h [id]
    generalize hlast : g.removeDead [id] = last at hu hreaders hlive hwhole
    have hface : ∀ w, last.isLive w = true → last.face? w = g.face? w := by
      intro w hw
      rw [hwhole, face?_without, if_neg fun hlost => hlost.2 hw]
    obtain ⟨s, hs, rfl⟩ := List.mem_map.mp hmem
    have hnone : last.face? u = none := by
      rw [← Option.not_isSome_iff_eq_none, ← isLive_eq_face]
      exact hu.2
    -- All readers of the node are gone, and the walk leaves no producer of a removed node idle.
    have htidy := (removeDead_tidy g [id] h (fun _ => False) fun _ => False.elim).2
    rw [hlast] at htidy
    refine htidy u m.face (face?_eq_some.mpr ⟨m, hm, rfl⟩) hnone s hs
      ⟨n.face, (hface s.node hlive).trans (face?_eq_some.mpr ⟨n, hn, rfl⟩), hkind, ?_⟩
    intro w i t hi ht
    have hw : last.isLive w = true := by
      obtain ⟨k, hk, -⟩ := input?_eq_some.mp hi
      exact isLive_of_node? hk
    rw [input?_eq_face, hface w hw, ← input?_eq_face] at hi
    exact (hreaders ⟨w, i⟩ ((h.mem_allReaders hn).mpr ⟨t, hi, ht⟩)).2 hw

theorem removeDead_eq (h : g.WellFormed) (id : NodeId) :
    g.removeDead [id] = g.without (g.DeadCone id) := by
  have hcone : g.Lost (g.removeDead [id]) = g.DeadCone id :=
    funext fun v => propext ⟨deadCone_of_lost h, lost_of_deadCone h⟩
  rw [← hcone]
  exact removeDead_eq_without h [id]

end Walk

section Checked

theorem foldl_of_links {f : Graph α → Slot → Slot → Graph α} {links : List (Slot × Slot)}
    (h : Update.on g (links.forM fun (s, r) => Update.link f s r) = (.ok (), g')) :
    g' = links.foldl (fun g (s, r) => f g s r) g := by
  induction links generalizing g with
  | nil =>
    cases h
    rfl
  | cons l links ih =>
    rw [List.forM] at h
    cases hw : g.wire? l.1 with
    | none =>
      obtain ⟨e, he⟩ := Update.on_link_none hw f l.2
      rw [Update.on_bind_error he] at h
      cases h
    | some w =>
      rw [Update.on_bind_ok (Update.on_link (by simp [hw]) f l.2)] at h
      exact ih h

theorem detach_of_removeNode (h : g.removeNode id = (.ok (), g')) :
    ∃ n, g.node? id = some n ∧ g' = g.detach id n := by
  rw [removeNode] at h
  cases hn : g.node? id with
  | none =>
    rw [Update.on_bind_error (on_node_none hn)] at h
    cases h
  | some n =>
    refine ⟨n, rfl, ?_⟩
    rw [Update.on_bind_ok (on_node hn)] at h
    by_cases hc : 0 < n.readerCount
    · simp [hc] at h
    simp only [hc, ↓reduceIte] at h
    cases hlinks : Update.on g ((slotsOf id n.inputs).forM fun (s, r) => Update.link removeReader s r) with
    | mk answer linked =>
      cases answer with
      | error e =>
        rw [Update.on_bind_error hlinks] at h
        cases h
      | ok _ =>
        rw [Update.on_bind_ok hlinks] at h
        cases h
        rw [foldl_of_links hlinks]
        rfl

def removeDeadFrom (g : Graph α) : List NodeId → Outcome α Unit
  | [] => (.ok (), g)
  | id :: rest =>
    match _hn : g.node? id with
    | none => g.removeDeadFrom rest
    | some n =>
      if n.isDead then
        match _hr : g.removeNode id with
        | (.ok (), g') => g'.removeDeadFrom (n.producers.reverse ++ rest)
        | (.error e, g') => (.error e, g')
      else g.removeDeadFrom rest
  termination_by stack => g.liveWeight + stack.length
  decreasing_by
    · exact Nat.lt_succ_self _
    · obtain ⟨n', hn', rfl⟩ := detach_of_removeNode _hr
      cases hn'.symm.trans _hn
      have hweight := liveWeight_detach _hn
      simp only [Node.producers, List.length_append, List.length_reverse, List.length_map,
        List.length_cons]
      omega
    · exact Nat.lt_succ_self _

theorem removeDeadFrom_eq (h : g.WellFormed) (stack : List NodeId) :
    g.removeDeadFrom stack = (.ok (), g.removeDead stack) := by
  fun_induction removeDead g stack with
  | case1 g => rw [removeDeadFrom]
  | case2 g id rest hn ih =>
    rw [removeDeadFrom]
    split
    · exact ih h
    · next m hm => cases hn.symm.trans hm
  | case3 g id rest n hn hdead ih =>
    have hcount := (isDead_eq_true.mp hdead).2
    have hremove := removeNode_ok (fun i s hi => h.wire_of_input hi) hn hcount
    rw [removeDeadFrom]
    split
    · next hnone => cases hn.symm.trans hnone
    next m hm =>
    cases hn.symm.trans hm
    rw [if_pos hdead]
    split
    · next g' hg' =>
      cases hremove.symm.trans hg'
      exact ih (h.detach hn hcount)
    · next e g' hg' => cases hremove.symm.trans hg'
  | case4 g id rest n hn hdead ih =>
    rw [removeDeadFrom]
    split
    · next hnone => cases hn.symm.trans hnone
    next m hm =>
    cases hn.symm.trans hm
    rw [if_neg hdead]
    exact ih h

/-- The walk goes through, also round cycles, and takes out the dead cone of its first node and
nothing else. -/
theorem removeDeadFrom_cone (h : g.WellFormed) (id : NodeId) :
    g.removeDeadFrom [id] = (.ok (), g.removeDead [id]) ∧
      g.removeDead [id] = g.without (g.DeadCone id) :=
  ⟨removeDeadFrom_eq h [id], removeDead_eq h id⟩

def fanned : Graph Rat :=
  let ports : List Port := [⟨.f32, some [1]⟩]
  let built : Graph Rat := assemble [("p", .parameter, [], ports), ("act", .relu, [⟨0, 0⟩], ports),
    ("left", .relu, [⟨1, 0⟩], ports), ("right", .relu, [⟨1, 0⟩], ports),
    ("knot", .relu, [⟨0, 0⟩], ports), ("joined", .concat 0, [⟨2, 0⟩, ⟨3, 0⟩, ⟨4, 0⟩], ports)]
  (built.setInput 4 0 ⟨4, 0⟩).2

theorem wellFormed_fanned : fanned.WellFormed :=
  (sound_setInput (assemble_ordered _).1 4 0 ⟨4, 0⟩).wellFormed

theorem removeDeadFrom_cone_of_fanned : fanned.WellFormed ∧
    fanned.removeDeadFrom [5] = (.ok (), fanned.without (fanned.DeadCone 5)) ∧
    (fanned.without (fanned.DeadCone 5)).liveNodes.map Prod.fst = [0, 4] := by
  obtain ⟨hrun, hcone⟩ := removeDeadFrom_cone wellFormed_fanned 5
  refine ⟨wellFormed_fanned, hcone ▸ hrun, ?_⟩
  rw [← hcone]
  decide +kernel

end Checked

end Graph

end LowPrecision
