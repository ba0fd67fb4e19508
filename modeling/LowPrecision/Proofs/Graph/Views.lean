import LowPrecision.Graph.Removal

namespace LowPrecision

theorem exists_cons_of_first {slots : List Slot} {a : Slot} (ha : slots[0]? = some a) :
    ∃ rest, slots = a :: rest :=
  List.head?_eq_some_iff.mp (List.head?_eq_getElem?.trans ha)

theorem exists_cons_of_pair {slots : List Slot} {a b : Slot} (ha : slots[0]? = some a)
    (hb : slots[1]? = some b) : ∃ rest, slots = a :: b :: rest := by
  obtain ⟨rest, rfl⟩ := exists_cons_of_first ha
  have hb : rest[0]? = some b := hb
  obtain ⟨rest, rfl⟩ := exists_cons_of_first hb
  exact ⟨rest, rfl⟩

namespace Graph

variable {α : Type}

def wire? (g : Graph α) (s : Slot) : Option Wire := (g.node? s.node).bind (·.outputs[s.index]?)

def name? (g : Graph α) (id : NodeId) : Option String := (g.node? id).map Node.name

theorem node_eq_ok {g : Graph α} {id : NodeId} {n : Node α} :
    g.node id = .ok n ↔ g.node? id = some n := by
  rw [node]
  cases g.node? id <;> simp

theorem lt_size_of_node? {g : Graph α} {id : NodeId} {n : Node α} (h : g.node? id = some n) :
    id < g.nodes.size := by
  rcases Nat.lt_or_ge id g.nodes.size with hlt | hge
  · exact hlt
  · simp [node?, hge] at h

theorem node?_of_size_le {g : Graph α} {id : NodeId} (h : g.nodes.size ≤ id) :
    g.node? id = none := by
  simp [node?, h]

theorem kind?_ne_of_size_le {g : Graph α} {id : NodeId} {k : OpKind} (h : g.nodes.size ≤ id) :
    g.kind? id ≠ some k := by
  simp [kind?, node?_of_size_le h]

theorem isLive_of_node? {g : Graph α} {id : NodeId} {n : Node α} (h : g.node? id = some n) :
    g.isLive id = true :=
  Option.isSome_iff_exists.mpr ⟨n, h⟩

theorem not_isLive_of_none {g : Graph α} {id : NodeId} (h : g.node? id = none) :
    g.isLive id ≠ true := by
  rw [isLive, h]
  exact Bool.false_ne_true

theorem input?_eq_some {g : Graph α} {id : NodeId} {i : Nat} {s : Slot} :
    g.input? id i = some s ↔ ∃ n, g.node? id = some n ∧ n.inputs[i]? = some s := by
  rw [input?, Option.bind_eq_some_iff]
  rfl

theorem lt_size_of_input? {g : Graph α} {id : NodeId} {i : Nat} {s : Slot}
    (h : g.input? id i = some s) : id < g.nodes.size := by
  obtain ⟨n, hn, -⟩ := input?_eq_some.mp h
  exact lt_size_of_node? hn

theorem wire?_eq_some {g : Graph α} {s : Slot} {w : Wire} :
    g.wire? s = some w ↔ ∃ n, g.node? s.node = some n ∧ n.outputs[s.index]? = some w := by
  rw [wire?, Option.bind_eq_some_iff]

theorem readers_eq (g : Graph α) (s : Slot) :
    g.readers s = ((g.wire? s).map Wire.readers).getD [] := by
  cases h : g.node? s.node <;> simp [readers, wire?, Node.readers, h]

theorem port?_eq (g : Graph α) (s : Slot) : g.port? s = (g.wire? s).map Wire.port := by
  cases h : g.node? s.node with
  | none => simp [port?, port, node, wire?, h, bind, Except.bind, Except.toOption]
  | some n =>
    cases hw : n.outputs[s.index]? <;>
      simp [port?, port, node, wire?, h, hw, Node.output?, bind, Except.bind, Except.toOption]

theorem port_of_wire? {g : Graph α} {s : Slot} {w : Wire} (h : g.wire? s = some w) :
    g.port s = .ok w.port := by
  obtain ⟨n, hn, hw⟩ := wire?_eq_some.mp h
  simp [port, node, hn, hw, Node.output?, bind, Except.bind]

theorem port_of_wire?_none {g : Graph α} {s : Slot} (h : g.wire? s = none) :
    ∃ e, g.port s = .error e := by
  cases hn : g.node? s.node with
  | none => simp [port, node, hn, bind, Except.bind]
  | some n =>
    have hw : n.outputs[s.index]? = none := by simpa [wire?, hn] using h
    simp [port, node, hn, hw, Node.output?, bind, Except.bind]

theorem wire?_isSome_of_mem_readers {g : Graph α} {s r : Slot} (h : r ∈ g.readers s) :
    (g.wire? s).isSome := by
  rw [readers_eq] at h
  cases hw : g.wire? s with
  | none => simp [hw] at h
  | some w => rfl

section ModifyNode

theorem node?_modifyNode (g : Graph α) (id i : NodeId) (f : Node α → Node α) :
    (g.modifyNode id f).node? i = if i = id then (g.node? i).map f else g.node? i := by
  simp only [node?, modifyNode, Array.getElem?_modify]
  by_cases h : id = i
  · subst h
    cases g.nodes[id]? with
    | none => simp
    | some n => cases n <;> simp
  · simp [h, Ne.symm h]

theorem node?_modifyWire (g : Graph α) (s : Slot) (i : NodeId) (f : Wire → Wire) :
    (g.modifyWire s f).node? i =
      if i = s.node then
        (g.node? i).map fun n => { n with outputs := n.outputs.modify s.index f }
      else g.node? i :=
  node?_modifyNode g s.node i _

@[simp] theorem input?_modifyWire (g : Graph α) (s : Slot) (f : Wire → Wire) (id : NodeId)
    (i : Nat) : (g.modifyWire s f).input? id i = g.input? id i := by
  simp only [input?, node?_modifyWire]
  split
  · cases g.node? id <;> rfl
  · rfl

@[simp] theorem name?_modifyWire (g : Graph α) (s : Slot) (f : Wire → Wire) (id : NodeId) :
    (g.modifyWire s f).name? id = g.name? id := by
  simp only [name?, node?_modifyWire]
  split
  · cases g.node? id <;> rfl
  · rfl

theorem wire?_modifyWire (g : Graph α) (s t : Slot) (f : Wire → Wire) :
    (g.modifyWire s f).wire? t = if t = s then (g.wire? t).map f else g.wire? t := by
  obtain ⟨v, i⟩ := s
  obtain ⟨u, j⟩ := t
  simp only [wire?, node?_modifyWire, Slot.mk.injEq]
  by_cases hu : u = v
  · subst hu
    cases g.node? u with
    | none => simp
    | some n =>
      by_cases hj : j = i
      · subst hj
        cases h : n.outputs[j]? <;> simp [h]
      · have hij : i ≠ j := fun h => hj h.symm
        cases h : n.outputs[j]? <;> simp [h, hj, hij]
  · simp [hu]

theorem readers_modifyWire (g : Graph α) (s t : Slot) (f : Wire → Wire) :
    (g.modifyWire s f).readers t =
      if t = s then ((g.wire? t).map fun w => (f w).readers).getD [] else g.readers t := by
  simp only [readers_eq, wire?_modifyWire]
  split <;> simp [Option.map_map, Function.comp_def]

end ModifyNode

section Links

@[simp] theorem input?_addReader (g : Graph α) (s r : Slot) (id : NodeId) (i : Nat) :
    (g.addReader s r).input? id i = g.input? id i := input?_modifyWire ..

@[simp] theorem input?_removeReader (g : Graph α) (s r : Slot) (id : NodeId) (i : Nat) :
    (g.removeReader s r).input? id i = g.input? id i := input?_modifyWire ..

@[simp] theorem name?_addReader (g : Graph α) (s r : Slot) (id : NodeId) :
    (g.addReader s r).name? id = g.name? id := name?_modifyWire ..

@[simp] theorem name?_removeReader (g : Graph α) (s r : Slot) (id : NodeId) :
    (g.removeReader s r).name? id = g.name? id := name?_modifyWire ..

theorem readers_addReader {g : Graph α} {s r t : Slot} (h : (g.wire? s).isSome) :
    (g.addReader s r).readers t = if t = s then g.readers t ++ [r] else g.readers t := by
  obtain ⟨w, hw⟩ := Option.isSome_iff_exists.mp h
  rw [addReader, readers_modifyWire]
  split
  · next hts => subst hts; simp [readers_eq, hw]
  · rfl

theorem readers_removeReader (g : Graph α) (s r t : Slot) :
    (g.removeReader s r).readers t =
      if t = s then (g.readers t).filter (· ≠ r) else g.readers t := by
  rw [removeReader, readers_modifyWire]
  split
  · next hts => cases hw : g.wire? t <;> simp [readers_eq, hw]
  · rfl

@[simp] theorem wire?_isSome_addReader (g : Graph α) (s r t : Slot) :
    ((g.addReader s r).wire? t).isSome = (g.wire? t).isSome := by
  rw [addReader, wire?_modifyWire]
  split <;> simp

@[simp] theorem wire?_isSome_removeReader (g : Graph α) (s r t : Slot) :
    ((g.removeReader s r).wire? t).isSome = (g.wire? t).isSome := by
  rw [removeReader, wire?_modifyWire]
  split <;> simp

@[simp] theorem names_addReader (g : Graph α) (s r : Slot) :
    (g.addReader s r).names = g.names := rfl

@[simp] theorem names_removeReader (g : Graph α) (s r : Slot) :
    (g.removeReader s r).names = g.names := rfl

@[simp] theorem size_addReader (g : Graph α) (s r : Slot) :
    (g.addReader s r).nodes.size = g.nodes.size := size_modifyNode ..

@[simp] theorem size_removeReader (g : Graph α) (s r : Slot) :
    (g.removeReader s r).nodes.size = g.nodes.size := size_modifyNode ..

@[simp] theorem isLive_addReader (g : Graph α) (s r : Slot) (id : NodeId) :
    (g.addReader s r).isLive id = g.isLive id := isLive_modifyNode ..

end Links

section Push

theorem node?_push (g : Graph α) (n : Node α) (id : NodeId) :
    (g.push n).node? id = if id = g.nodes.size then some n else g.node? id := by
  simp only [node?, push, Array.getElem?_push]
  split <;> simp

@[simp] theorem size_push (g : Graph α) (n : Node α) :
    (g.push n).nodes.size = g.nodes.size + 1 := by
  simp [push]

theorem input?_push (g : Graph α) (n : Node α) (id : NodeId) (i : Nat) :
    (g.push n).input? id i = if id = g.nodes.size then n.inputs[i]? else g.input? id i := by
  simp only [input?, node?_push]
  split <;> rfl

theorem wire?_push (g : Graph α) (n : Node α) (s : Slot) :
    (g.push n).wire? s = if s.node = g.nodes.size then n.outputs[s.index]? else g.wire? s := by
  simp only [wire?, node?_push]
  split <;> rfl

end Push

section Drop

theorem node?_drop (g : Graph α) (id i : NodeId) (name : String) :
    (g.drop id name).node? i = if i = id then none else g.node? i := by
  simp only [node?, drop, Array.getElem?_setIfInBounds]
  by_cases h : id = i
  · subst h; simp; split <;> simp
  · simp [h, Ne.symm h]

theorem input?_drop (g : Graph α) (id i : NodeId) (name : String) (index : Nat) :
    (g.drop id name).input? i index = if i = id then none else g.input? i index := by
  simp only [input?, node?_drop]
  split <;> rfl

theorem wire?_drop (g : Graph α) (id : NodeId) (name : String) (s : Slot) :
    (g.drop id name).wire? s = if s.node = id then none else g.wire? s := by
  simp only [wire?, node?_drop]
  split <;> rfl

end Drop

section Names

def idOf (names : List (String × NodeId)) (name : String) : Option NodeId :=
  (names.find? (·.1 = name)).map Prod.snd

theorem idOf_cons (key name : String) (id : NodeId) (names : List (String × NodeId)) :
    idOf ((key, id) :: names) name = if key = name then some id else idOf names name := by
  by_cases h : key = name <;> simp [idOf, h]

theorem idOf_filter (names : List (String × NodeId)) (old name : String) :
    idOf (names.filter (·.1 ≠ old)) name = if name = old then none else idOf names name := by
  induction names with
  | nil => simp [idOf]
  | cons entry names ih =>
    obtain ⟨key, id⟩ := entry
    rw [List.filter_cons]
    by_cases hk : key = old
    · subst hk
      simp only [ne_eq, not_true_eq_false, decide_false, Bool.false_eq_true, ↓reduceIte, ih,
        idOf_cons]
      by_cases hn : name = key
      · simp [hn]
      · simp [hn, Ne.symm hn]
    · simp only [ne_eq, hk, not_false_eq_true, decide_true, ↓reduceIte, idOf_cons, ih]
      by_cases hn : key = name
      · subst hn; simp [hk]
      · simp [hn]

end Names

end Graph

end LowPrecision
