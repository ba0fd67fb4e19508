import LowPrecision.Proofs.Graph.Views

namespace LowPrecision

namespace Graph

variable {α β γ : Type}

namespace Update

@[simp] theorem on_pure (g : Graph α) (x : β) : on g (pure x) = (.ok x, g) := rfl

@[simp] theorem on_throw (g : Graph α) (e : GraphError) :
    on g (throw e : Update α β) = (.error e, g) := rfl

@[simp] theorem on_change (g : Graph α) (f : Graph α → Graph α) :
    on g (change f) = (.ok (), f g) := rfl

theorem on_bind (g : Graph α) (u : Update α β) (k : β → Update α γ) :
    on g (u >>= k) =
      match on g u with
      | (.ok x, g') => on g' (k x)
      | (.error e, g') => (.error e, g') := by
  change Id.run (StateT.run (ExceptT.run (u >>= k)) g) = _
  simp only [ExceptT.run_bind, StateT.run_bind, on]
  cases h : StateT.run (ExceptT.run u) g with
  | mk r g' => cases r <;> simp [Id.run] <;> rfl

theorem on_bind_ok {g g' : Graph α} {u : Update α β} {x : β} (h : on g u = (.ok x, g'))
    (k : β → Update α γ) : on g (u >>= k) = on g' (k x) := by
  rw [on_bind, h]

theorem on_bind_error {g g' : Graph α} {u : Update α β} {e : GraphError}
    (h : on g u = (.error e, g')) (k : β → Update α γ) : on g (u >>= k) = (.error e, g') := by
  rw [on_bind, h]

theorem on_look (g : Graph α) (f : Graph α → Except GraphError β) : on g (look f) = (f g, g) := by
  rw [look, on_bind_ok (show on g get = (.ok g, g) from rfl)]
  cases f g <;> rfl

theorem on_discard (g : Graph α) (u : Update α β) :
    on g (discard u) = ((on g u).1.map fun _ => (), (on g u).2) := by
  change on g (u >>= fun _ => pure ()) = _
  rw [on_bind]
  rcases on g u with ⟨_ | _, g'⟩ <;> rfl

theorem on_port {g : Graph α} {s : Slot} (h : (g.wire? s).isSome) :
    on g (discard (look (·.port s))) = (.ok (), g) := by
  obtain ⟨w, hw⟩ := Option.isSome_iff_exists.mp h
  rw [on_discard, on_look, port_of_wire? hw]
  rfl

theorem on_port_none {g : Graph α} {s : Slot} (h : g.wire? s = none) :
    ∃ e, on g (discard (look (·.port s))) = (.error e, g) := by
  obtain ⟨e, he⟩ := port_of_wire?_none h
  exact ⟨e, by rw [on_discard, on_look, he]; rfl⟩

theorem on_link {g : Graph α} {s : Slot} (h : (g.wire? s).isSome)
    (f : Graph α → Slot → Slot → Graph α) (r : Slot) :
    on g (link f s r) = (.ok (), f g s r) := by
  rw [link, on_bind_ok (on_port h), on_change]

theorem on_link_none {g : Graph α} {s : Slot} (h : g.wire? s = none)
    (f : Graph α → Slot → Slot → Graph α) (r : Slot) :
    ∃ e, on g (link f s r) = (.error e, g) := by
  obtain ⟨e, he⟩ := on_port_none h
  exact ⟨e, by rw [link, on_bind_error he]⟩

theorem on_forM_link {f : Graph α → Slot → Slot → Graph α}
    (hf : ∀ g s r t, ((f g s r).wire? t).isSome = (g.wire? t).isSome) (g : Graph α)
    (links : List (Slot × Slot)) (h : ∀ l ∈ links, (g.wire? l.1).isSome) :
    on g (links.forM fun (s, r) => link f s r) =
      (.ok (), links.foldl (fun g (s, r) => f g s r) g) := by
  induction links generalizing g with
  | nil => rfl
  | cons l links ih =>
    rw [List.forM, on_bind_ok (on_link (h l (by simp)) f l.2), List.foldl_cons]
    exact ih _ fun m hm => by rw [hf]; exact h m (by simp [hm])

theorem on_forM_port (g : Graph α) (inputs : List Slot) :
    ((∀ s ∈ inputs, (g.wire? s).isSome) ∧
        on g (inputs.forM fun s => discard (look (·.port s))) = (.ok (), g)) ∨
      ∃ e, on g (inputs.forM fun s => discard (look (·.port s))) = (.error e, g) := by
  induction inputs with
  | nil => exact .inl ⟨by simp, rfl⟩
  | cons s inputs ih =>
    rw [List.forM]
    cases hw : g.wire? s with
    | none =>
      obtain ⟨e, he⟩ := on_port_none hw
      exact .inr ⟨e, on_bind_error he _⟩
    | some w =>
      have hs : (g.wire? s).isSome := by simp [hw]
      rw [on_bind_ok (on_port hs)]
      rcases ih with ⟨hall, hok⟩ | herr
      · exact .inl ⟨by simpa [hw] using hall, hok⟩
      · exact .inr herr

end Update

open Update

def attach (g : Graph α) (id : NodeId) (inputs : List Slot) : Graph α :=
  (slotsOf id inputs).foldl (fun g (source, reader) => g.addReader source reader) g

def reconnect (g : Graph α) (id : NodeId) (index : Nat) (old source : Slot) : Graph α :=
  ((g.removeReader old ⟨id, index⟩).addReader source ⟨id, index⟩).modifyNode id
    fun n => { n with inputs := n.inputs.set index source }

theorem fst_mem_of_mem_slotsOf {id : NodeId} {inputs : List Slot} {l : Slot × Slot}
    (h : l ∈ slotsOf id inputs) : l.1 ∈ inputs := by
  obtain ⟨⟨s, i⟩, hm, rfl⟩ := List.mem_map.mp h
  exact List.fst_mem_of_mem_zipIdx hm

theorem addNode_cases (g : Graph α) (name : String) (op : Op α) (inputs : List Slot)
    (outputs : List Port) :
    (∃ e, g.addNode name op inputs outputs = (.error e, g)) ∨
      (g.nodeByName? name = none ∧ (∀ s ∈ inputs, (g.wire? s).isSome) ∧
        g.addNode name op inputs outputs = (.ok g.nodes.size,
          (g.attach g.nodes.size inputs).push ⟨name, op, inputs, outputs.map (⟨·, []⟩), none⟩)) := by
  unfold addNode
  cases hn : g.nodeByName? name with
  | some id => exact .inl ⟨.duplicateName name, by simp [isFree, hn]⟩
  | none =>
    simp only [isFree, hn, Option.isNone_none, Bool.not_true, Bool.false_eq_true, ↓reduceIte]
    rcases on_forM_port g inputs with ⟨hall, hok⟩ | ⟨e, he⟩
    · refine .inr ⟨trivial, hall, ?_⟩
      rw [on_bind_ok hok, on_bind_ok (on_forM_link (by simp) g _
        fun l hl => hall l.1 (fst_mem_of_mem_slotsOf hl)), on_bind_ok (on_change ..)]
      rfl
    · exact .inl ⟨e, on_bind_error he _⟩

theorem setOutputType_cases (g : Graph α) (s : Slot) (type : ElementType) :
    (∃ e, g.setOutputType s type = (.error e, g)) ∨
      ((g.wire? s).isSome ∧ g.setOutputType s type =
        (.ok (), g.modifyWire s fun w => { w with port := w.port.withType type })) := by
  unfold setOutputType
  cases hw : g.wire? s with
  | none =>
    obtain ⟨e, he⟩ := on_port_none hw
    exact .inl ⟨e, on_bind_error he _⟩
  | some w => exact .inr ⟨rfl, by rw [on_bind_ok (on_port (by simp [hw])), on_change]⟩

theorem on_node {g : Graph α} {id : NodeId} {n : Node α} (h : g.node? id = some n) :
    on g (look (·.node id)) = (.ok n, g) := by
  rw [on_look, node, h]

theorem on_node_none {g : Graph α} {id : NodeId} (h : g.node? id = none) :
    on g (look (·.node id)) = (.error (.unknownNode id), g) := by
  rw [on_look, node, h]

theorem setRelaxed_cases (g : Graph α) (id : NodeId) (types : RelaxedTypes) :
    (∃ e, g.setRelaxed id types = (.error e, g)) ∨
      ((g.node? id).isSome ∧ g.setRelaxed id types =
        (.ok (), g.modifyNode id fun n => { n with relaxed := some types })) := by
  unfold setRelaxed
  cases hn : g.node? id with
  | none => exact .inl ⟨.unknownNode id, by rw [on_bind, on_discard, on_node_none hn]; rfl⟩
  | some n => exact .inr ⟨rfl, by rw [on_bind, on_discard, on_node hn]; rfl⟩

theorem setInput_cases (g : Graph α) (id : NodeId) (index : Nat) (source : Slot) :
    (∃ e, g.setInput id index source = (.error e, g)) ∨
      ∃ old, g.input? id index = some old ∧ (g.wire? source).isSome ∧
        g.setInput id index source = (.ok (), g.reconnect id index old source) := by
  unfold setInput
  cases hs : g.wire? source with
  | none =>
    obtain ⟨e, he⟩ := on_port_none hs
    exact .inl ⟨e, on_bind_error he _⟩
  | some w =>
    have hsource : (g.wire? source).isSome := by simp [hs]
    rw [on_bind_ok (on_port hsource)]
    cases hn : g.node? id with
    | none => exact .inl ⟨_, on_bind_error (on_node_none hn) _⟩
    | some n =>
      rw [on_bind_ok (on_node hn)]
      cases ho : n.input? index with
      | none => exact .inl ⟨.invalidPort id index, rfl⟩
      | some old =>
        simp only
        cases hw : g.wire? old with
        | none =>
          obtain ⟨e, he⟩ := on_link_none hw removeReader ⟨id, index⟩
          exact .inl ⟨e, on_bind_error he _⟩
        | some w =>
          refine .inr ⟨old, by simp [input?, hn, ho], rfl, ?_⟩
          rw [on_bind_ok (on_link (by simp [hw]) ..), on_bind_ok (on_link (by simp [hs]) ..)]
          rfl

theorem rename_cases (g : Graph α) (id : NodeId) (name : String) :
    (∃ e, g.rename id name = (.error e, g)) ∨
      (g.nodeByName? name = some id ∧ g.rename id name = (.ok (), g)) ∨
      ∃ n, g.node? id = some n ∧ g.nodeByName? name = none ∧
        g.rename id name = (.ok (), g.setName id n.name name) := by
  unfold rename
  cases hn : g.nodeByName? name with
  | some owner =>
    by_cases ho : owner = id
    · subst ho; exact .inr (.inl ⟨rfl, by simp⟩)
    · exact .inl ⟨.duplicateName name, by simp [ho]⟩
  | none =>
    cases hid : g.node? id with
    | none => exact .inl ⟨_, on_bind_error (on_node_none hid) _⟩
    | some n => exact .inr (.inr ⟨n, rfl, rfl, by dsimp only; rw [on_bind_ok (on_node hid)]; rfl⟩)

theorem removeNode_ok {g : Graph α} {id : NodeId} {n : Node α}
    (h : ∀ i s, g.input? id i = some s → (g.wire? s).isSome) (hn : g.node? id = some n)
    (hc : n.readerCount = 0) : g.removeNode id = (.ok (), g.detach id n) := by
  have hlinks : ∀ l ∈ slotsOf id n.inputs, (g.wire? l.1).isSome := by
    intro l hl
    obtain ⟨i, hi⟩ := List.getElem?_of_mem (fst_mem_of_mem_slotsOf hl)
    exact h i l.1 (input?_eq_some.mpr ⟨n, hn, hi⟩)
  rw [removeNode, on_bind_ok (on_node hn), hc]
  simp only [Nat.lt_irrefl, ↓reduceIte]
  rw [on_bind_ok (on_forM_link (by simp) g _ hlinks)]
  rfl

theorem removeNode_cases {g : Graph α} {id : NodeId}
    (h : ∀ i s, g.input? id i = some s → (g.wire? s).isSome) :
    (∃ e, g.removeNode id = (.error e, g)) ∨
      ∃ n, g.node? id = some n ∧ n.readerCount = 0 ∧ g.removeNode id = (.ok (), g.detach id n) := by
  cases hn : g.node? id with
  | none => exact .inl ⟨_, on_bind_error (on_node_none hn) _⟩
  | some n =>
    by_cases hc : 0 < n.readerCount
    · refine .inl ⟨.nodeInUse id, ?_⟩
      rw [removeNode, on_bind_ok (on_node hn)]
      simp [hc]
    · have hzero : n.readerCount = 0 := Nat.eq_zero_of_not_pos hc
      exact .inr ⟨n, rfl, hzero, removeNode_ok h hn hzero⟩

end Graph

end LowPrecision
