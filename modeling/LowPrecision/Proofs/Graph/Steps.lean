import LowPrecision.Proofs.Graph.WellFormed

namespace LowPrecision

namespace Graph

variable {α β : Type} {g g' : Graph α}

structure Later (g g' : Graph α) : Prop where
  size : g.nodes.size ≤ g'.nodes.size
  dead : ∀ id < g.nodes.size, g.isLive id = false → g'.isLive id = false

namespace Later

theorem refl (g : Graph α) : Later g g := ⟨Nat.le_refl _, fun _ _ h => h⟩

theorem trans {g₁ g₂ g₃ : Graph α} (h : Later g₁ g₂) (h' : Later g₂ g₃) : Later g₁ g₃ where
  size := Nat.le_trans h.size h'.size
  dead id hid hdead := h'.dead id (Nat.lt_of_lt_of_le hid h.size) (h.dead id hid hdead)

theorem of_isLive_eq (hsize : g'.nodes.size = g.nodes.size)
    (hlive : ∀ id, g'.isLive id = g.isLive id) : Later g g' where
  size := Nat.le_of_eq hsize.symm
  dead id _ hdead := (hlive id).trans hdead

theorem modifyNode (g : Graph α) (id : NodeId) (f : Node α → Node α) :
    Later g (g.modifyNode id f) :=
  of_isLive_eq (size_modifyNode ..) (isLive_modifyNode _ _ _)

theorem detach (g : Graph α) (id : NodeId) (n : Node α) : Later g (g.detach id n) where
  size := Nat.le_of_eq (size_detach ..).symm
  dead v _ hdead := by simp [isLive_detach, hdead]

theorem push (g : Graph α) (n : Node α) :
    Later g ((g.attach g.nodes.size n.inputs).push n) where
  size := by simp
  dead id hid hdead := by
    rw [isLive, node?_push, size_attach, if_neg (Nat.ne_of_lt hid)]
    exact (isLive_attach ..).trans hdead

end Later

section Reconnect

theorem input?_reconnect {id : NodeId} {index : Nat} {old source : Slot}
    (h : g.input? id index = some old) (v : NodeId) (i : Nat) :
    (g.reconnect id index old source).input? v i =
      if v = id ∧ i = index then some source else g.input? v i := by
  obtain ⟨n, hn, hi⟩ := input?_eq_some.mp h
  rw [reconnect, input?, node?_modifyNode]
  by_cases hv : v = id
  · subst hv
    have hinput : ∀ j, ((((g.removeReader old ⟨v, index⟩).addReader source ⟨v, index⟩).node? v).bind
        (·.input? j)) = g.input? v j := by
      intro j
      exact (input?_addReader ..).trans (input?_removeReader ..)
    have hlt : index < n.inputs.length := (List.getElem?_eq_some_iff.mp hi).1
    cases hm : ((g.removeReader old ⟨v, index⟩).addReader source ⟨v, index⟩).node? v with
    | none => simpa [hm, h] using hinput index
    | some m =>
      have hm' : ∀ j : Nat, m.inputs[j]? = n.inputs[j]? := by
        intro j
        simpa [hm, input?, hn, Node.input?] using hinput j
      have hlen : index < m.inputs.length := by
        have := hm' index
        rw [hi] at this
        exact (List.getElem?_eq_some_iff.mp this).1
      by_cases hj : i = index
      · subst hj
        simp [Node.input?, hlen]
      · simp [Node.input?, hj, Ne.symm hj, hm', input?, hn]
  · rw [if_neg hv, if_neg (fun h => hv h.1)]
    exact (input?_addReader ..).trans (input?_removeReader ..)

theorem readers_reconnect {id : NodeId} {index : Nat} {old source : Slot}
    (hs : (g.wire? source).isSome) (t : Slot) :
    (g.reconnect id index old source).readers t =
      (if t = old then (g.readers t).filter (· ≠ ⟨id, index⟩) else g.readers t) ++
        (if t = source then [⟨id, index⟩] else []) := by
  have hsame : ∀ h : Graph α, (h.modifyNode id fun n =>
      { n with inputs := n.inputs.set index source }).readers t = h.readers t := by
    intro h
    simp only [readers, node?_modifyNode]
    split
    · cases h.node? t.node <;> rfl
    · rfl
  rw [reconnect, hsame, readers_addReader (by simpa using hs), readers_removeReader]
  split <;> simp

theorem name?_reconnect (g : Graph α) (id : NodeId) (index : Nat) (old source : Slot) (v : NodeId) :
    (g.reconnect id index old source).name? v = g.name? v := by
  have hsame : ∀ h : Graph α, (h.modifyNode id fun n =>
      { n with inputs := n.inputs.set index source }).name? v = h.name? v := by
    intro h
    simp only [name?, node?_modifyNode]
    split
    · cases h.node? v <;> rfl
    · rfl
  rw [reconnect, hsame, name?_addReader, name?_removeReader]

theorem Later.reconnect (g : Graph α) (id : NodeId) (index : Nat) (old source : Slot) :
    Later g (g.reconnect id index old source) :=
  ((Later.modifyNode g _ _).trans (Later.modifyNode _ _ _)).trans (Later.modifyNode _ _ _)

theorem WellFormed.reconnect (h : g.WellFormed) {id : NodeId} {index : Nat} {old source : Slot}
    (hi : g.input? id index = some old) (hs : (g.wire? source).isSome) :
    (g.reconnect id index old source).WellFormed where
  index name v := by rw [name?_reconnect]; exact h.index name v
  keys := h.keys
  mirror s r := by
    rw [readers_reconnect hs, input?_reconnect hi, List.count_append]
    have hslot : (r.node = id ∧ r.index = index) ↔ r = ⟨id, index⟩ := by
      cases r; simp
    by_cases hr : r = ⟨id, index⟩
    · subst hr
      have hgone : (if s = old then (g.readers s).filter (· ≠ ⟨id, index⟩) else
          g.readers s).count ⟨id, index⟩ = 0 := by
        split
        · simp [List.count_eq_zero]
        · next hne =>
          rw [h.mirror, if_neg]
          intro hread
          exact hne (Option.some.inj (hread.symm.trans hi))
      rw [hgone]
      by_cases hsource : s = source
      · simp [hsource]
      · simp [hsource, Ne.symm hsource]
    · have hkept : (if s = old then (g.readers s).filter (· ≠ ⟨id, index⟩) else
          g.readers s).count r = (g.readers s).count r := by
        split
        · exact List.count_filter (by simpa using hr)
        · rfl
      have hnew : (if s = source then [(⟨id, index⟩ : Slot)] else []).count r = 0 := by
        split
        · simp [Ne.symm hr]
        · rfl
      rw [hkept, hnew, if_neg (fun hc => hr (hslot.mp hc)), Nat.add_zero, h.mirror]

end Reconnect

theorem WellFormed.of_views (h : g.WellFormed) (hnames : g'.names = g.names)
    (hname : ∀ id, g'.name? id = g.name? id)
    (hinput : ∀ id i, g'.input? id i = g.input? id i)
    (hreaders : ∀ s, g'.readers s = g.readers s) : g'.WellFormed where
  index name id := by
    rw [hname, ← h.index]
    simp [nodeByName?, hnames]
  keys := hnames ▸ h.keys
  mirror s r := by rw [hreaders, hinput, h.mirror]

theorem WellFormed.of_attributes (h : g.WellFormed) (s : AttributeStore α) :
    ({ g with attributes := s } : Graph α).WellFormed :=
  h.of_views rfl (fun _ => rfl) (fun _ _ => rfl) fun _ => rfl

theorem WellFormed.setType (h : g.WellFormed) (s : Slot) (type : ElementType) :
    (g.modifyWire s fun w => { w with port := w.port.withType type }).WellFormed := by
  refine h.of_views rfl (name?_modifyWire g s _) (input?_modifyWire g s _) fun t => ?_
  rw [readers_modifyWire]
  split
  · rw [readers_eq]
  · rfl

theorem WellFormed.relax (h : g.WellFormed) (id : NodeId) (types : RelaxedTypes) :
    (g.modifyNode id fun n => { n with relaxed := some types }).WellFormed := by
  refine h.of_views rfl (fun v => ?_) (fun v i => ?_) fun t => ?_
  · simp only [name?, node?_modifyNode]
    split
    · cases g.node? v <;> rfl
    · rfl
  · simp only [input?, node?_modifyNode]
    split
    · cases g.node? v <;> rfl
    · rfl
  · simp only [readers, node?_modifyNode]
    split
    · cases g.node? t.node <;> rfl
    · rfl

theorem name?_setName {id : NodeId} {n : Node α} (hn : g.node? id = some n) (old new : String)
    (v : NodeId) :
    (g.setName id old new).name? v = if v = id then some new else g.name? v := by
  change ((g.modifyNode id _).node? v).map Node.name = _
  rw [node?_modifyNode]
  split
  · next hv => subst hv; simp [hn]
  · rfl

theorem WellFormed.setName (h : g.WellFormed) {id : NodeId} {n : Node α} {name : String}
    (hn : g.node? id = some n) (hfree : g.nodeByName? name = none) :
    (g.setName id n.name name).WellFormed where
  index key v := by
    have hid : g.nodeByName? n.name = some id := (h.index _ _).mpr (by simp [name?, hn])
    have hne : n.name ≠ name := by
      rintro rfl
      simp [hfree] at hid
    change idOf ((name, id) :: g.names.filter (·.1 ≠ n.name)) key = some v ↔ _
    rw [idOf_cons, idOf_filter, name?_setName hn]
    by_cases hv : v = id
    · subst hv
      by_cases hkey : name = key
      · simp [hkey]
      · have hfresh : ¬ (if key = n.name then none else idOf g.names key) = some v := by
          split
          · simp
          · next hold =>
            rw [show idOf g.names key = g.nodeByName? key from rfl, h.index]
            simpa [name?, hn] using Ne.symm hold
        simp [hkey, hfresh]
    · rw [if_neg hv]
      by_cases hkey : name = key
      · subst hkey
        have := h.name?_ne_of_free hfree v
        simp [Ne.symm hv, this]
      · rw [if_neg hkey]
        by_cases hold : key = n.name
        · subst hold
          rw [if_pos rfl, ← h.index, hid]
          simp [Ne.symm hv]
        · rw [if_neg hold]
          exact h.index key v
  keys := by
    change (((name, id) :: g.names.filter (·.1 ≠ n.name)).map Prod.fst).Nodup
    rw [List.map_cons, List.nodup_cons]
    refine ⟨fun hmem => not_mem_keys hfree ?_, h.keys.sublist (List.filter_sublist.map _)⟩
    exact (List.filter_sublist.map Prod.fst).subset hmem
  mirror s r := by
    have hreaders : (g.setName id n.name name).readers s = g.readers s := by
      change ((((g.modifyNode id _).node? s.node).map (·.readers s.index)).getD []) = _
      rw [node?_modifyNode]
      split
      · next hs => subst hs; simp [readers, hn, Node.readers]
      · rfl
    have hinput : (g.setName id n.name name).input? r.node r.index = g.input? r.node r.index := by
      change ((g.modifyNode id _).node? r.node).bind (·.input? r.index) = _
      rw [node?_modifyNode]
      split
      · next hr => subst hr; simp [input?, hn, Node.input?]
      · rfl
    rw [hreaders, hinput, h.mirror]

structure Sound (g : Graph α) (outcome : Outcome α β) : Prop where
  wellFormed : outcome.2.WellFormed
  later : Later g outcome.2
  unchanged : ∀ e, outcome.1 = .error e → outcome.2 = g

theorem Sound.of_error (h : g.WellFormed) {e : GraphError} : Sound g ((.error e, g) : Outcome α β) :=
  ⟨h, .refl g, fun _ _ => rfl⟩

theorem Sound.of_ok (h : g'.WellFormed) (hlater : Later g g') {x : β} :
    Sound g ((.ok x, g') : Outcome α β) :=
  ⟨h, hlater, fun _ he => by cases he⟩

theorem sound_addNode (h : g.WellFormed) (name : String) (op : Op α) (inputs : List Slot)
    (outputs : List Port) : Sound g (g.addNode name op inputs outputs) := by
  rcases addNode_cases g name op inputs outputs with ⟨e, he⟩ | ⟨hfree, hin, hok⟩
  · exact he ▸ .of_error h
  · rw [hok]
    let n : Node α := ⟨name, op, inputs, outputs.map (⟨·, []⟩), none⟩
    refine .of_ok (WellFormed.push (n := n) h hfree hin ?_) (.push g n)
    intro w hw
    obtain ⟨p, -, rfl⟩ := List.mem_map.mp hw
    rfl

theorem sound_setInput (h : g.WellFormed) (id : NodeId) (index : Nat) (source : Slot) :
    Sound g (g.setInput id index source) := by
  rcases setInput_cases g id index source with ⟨e, he⟩ | ⟨old, hold, hs, hok⟩
  · exact he ▸ .of_error h
  · exact hok ▸ .of_ok (h.reconnect hold hs) (.reconnect ..)

theorem sound_setOutputType (h : g.WellFormed) (s : Slot) (type : ElementType) :
    Sound g (g.setOutputType s type) := by
  rcases setOutputType_cases g s type with ⟨e, he⟩ | ⟨-, hok⟩
  · exact he ▸ .of_error h
  · exact hok ▸ .of_ok (h.setType s type) (.modifyNode ..)

theorem sound_setRelaxed (h : g.WellFormed) (id : NodeId) (types : RelaxedTypes) :
    Sound g (g.setRelaxed id types) := by
  rcases setRelaxed_cases g id types with ⟨e, he⟩ | ⟨-, hok⟩
  · exact he ▸ .of_error h
  · exact hok ▸ .of_ok (h.relax id types) (.modifyNode ..)

theorem sound_rename (h : g.WellFormed) (id : NodeId) (name : String) :
    Sound g (g.rename id name) := by
  rcases rename_cases g id name with ⟨e, he⟩ | ⟨-, hok⟩ | ⟨n, hn, hfree, hok⟩
  · exact he ▸ .of_error h
  · exact hok ▸ .of_ok h (.refl g)
  · exact hok ▸ .of_ok (h.setName hn hfree) (.of_isLive_eq (size_modifyNode ..) (isLive_modifyNode _ _ _))

theorem sound_removeNode (h : g.WellFormed) (id : NodeId) : Sound g (g.removeNode id) := by
  rcases removeNode_cases (fun i s hi => h.wire_of_input hi) with ⟨e, he⟩ | ⟨n, hn, hc, hok⟩
  · exact he ▸ .of_error h
  · exact hok ▸ .of_ok (h.detach hn hc) (.detach ..)

end Graph

end LowPrecision
