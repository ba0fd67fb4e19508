import LowPrecision.Proofs.Graph.Edits

namespace LowPrecision

variable {α : Type}

structure Face (α : Type) where
  op : Op α
  inputs : List Slot
  ports : List Port
  relaxed : Option RelaxedTypes

def Node.face (n : Node α) : Face α := ⟨n.op, n.inputs, n.outputs.map Wire.port, n.relaxed⟩

theorem Op.exists_levels {op : Op α} (h : op.kind = .fakeQuantize) : ∃ levels, op = .fakeQuantize levels := by
  cases op <;> cases h
  exact ⟨_, rfl⟩

theorem Op.exists_destination {op : Op α} (h : op.kind = .convert) : ∃ type, op = .convert type := by
  cases op <;> cases h
  exact ⟨_, rfl⟩

def OpKind.IsInterface (k : OpKind) : Prop := k = .parameter ∨ k = .result

instance (k : OpKind) : Decidable k.IsInterface := inferInstanceAs (Decidable (_ ∨ _))

namespace Face

def kind (f : Face α) : OpKind := f.op.kind

def redirect (f : Face α) (id : NodeId) (slots : List Slot) (source : Slot) : Face α :=
  { f with inputs := f.inputs.mapIdx fun i s => if ⟨id, i⟩ ∈ slots then source else s }

def mapInputs (f : Face α) (move : Slot → Slot) : Face α := { f with inputs := f.inputs.map move }

def substitute (f : Face α) (v old new : NodeId) (indices : List Nat) : Face α :=
  if v = new then f
  else f.mapInputs fun s => if s.node = old ∧ s.index ∈ indices then ⟨new, s.index⟩ else s

def replace (f : Face α) (v old new : NodeId) : Face α :=
  if v = new then f else f.mapInputs fun s => if s.node = old then ⟨new, s.index⟩ else s

def retype (f : Face α) (index : Nat) (type : ElementType) : Face α :=
  { f with ports := f.ports.modify index (·.withType type) }

def relax (f : Face α) (types : RelaxedTypes) : Face α := { f with relaxed := some types }

@[simp] theorem op_redirect (f : Face α) (id : NodeId) (slots : List Slot) (source : Slot) :
    (f.redirect id slots source).op = f.op := rfl

@[simp] theorem ports_redirect (f : Face α) (id : NodeId) (slots : List Slot) (source : Slot) :
    (f.redirect id slots source).ports = f.ports := rfl

theorem input_redirect (f : Face α) (id : NodeId) (slots : List Slot) (source : Slot) (i : Nat) :
    (f.redirect id slots source).inputs[i]? =
      (f.inputs[i]?).map fun s => if ⟨id, i⟩ ∈ slots then source else s := by
  rw [redirect, List.getElem?_mapIdx]

@[simp] theorem length_redirect (f : Face α) (id : NodeId) (slots : List Slot) (source : Slot) :
    (f.redirect id slots source).inputs.length = f.inputs.length := by
  simp [redirect]

theorem redirect_of_not_mem {f : Face α} {id : NodeId} {slots : List Slot} {source : Slot}
    (h : ∀ i, (⟨id, i⟩ : Slot) ∉ slots) : f.redirect id slots source = f := by
  have hinputs : (f.redirect id slots source).inputs = f.inputs := by
    refine List.ext_getElem? fun i => ?_
    rw [input_redirect]
    cases f.inputs[i]? <;> simp [h]
  cases f
  exact congrArg (Face.mk _ · _ _) hinputs

theorem redirect_head {f : Face α} {first : Slot} {rest : List Slot}
    (h : f.inputs = first :: rest) (id : NodeId) (source : Slot) :
    (f.redirect id [⟨id, 0⟩] source).inputs = source :: rest := by
  refine List.ext_getElem? fun i => ?_
  rw [input_redirect, h]
  cases i with
  | zero => simp
  | succ i => simp

@[simp] theorem op_replace (f : Face α) (v old new : NodeId) : (f.replace v old new).op = f.op := by
  rw [replace]
  split <;> rfl

@[simp] theorem ports_replace (f : Face α) (v old new : NodeId) :
    (f.replace v old new).ports = f.ports := by
  rw [replace]
  split <;> rfl

@[simp] theorem relaxed_replace (f : Face α) (v old new : NodeId) :
    (f.replace v old new).relaxed = f.relaxed := by
  rw [replace]
  split <;> rfl

theorem length_inputs_replace (f : Face α) (v old new : NodeId) :
    (f.replace v old new).inputs.length = f.inputs.length := by
  rw [replace]
  split
  · rfl
  · exact List.length_map _

theorem input_replace (f : Face α) (v old new : NodeId) (i : Nat) :
    (f.replace v old new).inputs[i]? = (f.inputs[i]?).map fun s =>
      if v ≠ new ∧ s.node = old then ⟨new, s.index⟩ else s := by
  rw [replace]
  by_cases hv : v = new
  · simp [hv]
  · rw [if_neg hv, mapInputs, List.getElem?_map]
    simp [hv]

theorem replace_of_not_mem {f : Face α} {old : NodeId} (h : ∀ s ∈ f.inputs, s.node ≠ old)
    (v new : NodeId) : f.replace v old new = f := by
  rw [replace]
  split
  · rfl
  · have hinputs : (f.inputs.map fun s => if s.node = old then ⟨new, s.index⟩ else s) = f.inputs := by
      rw [List.map_congr_left fun s hs => if_neg (h s hs), List.map_id']
    exact congrArg (Face.mk f.op · f.ports f.relaxed) hinputs

end Face

namespace Graph

variable {g : Graph α}

def face? (g : Graph α) (id : NodeId) : Option (Face α) := (g.node? id).map Node.face

theorem input?_eq_face (g : Graph α) (id : NodeId) (i : Nat) :
    g.input? id i = (g.face? id).bind (·.inputs[i]?) := by
  rw [input?, face?, Option.bind_map]
  rfl

theorem port?_eq_face (g : Graph α) (s : Slot) :
    g.port? s = (g.face? s.node).bind (·.ports[s.index]?) := by
  rw [port?_eq, wire?, face?, Option.bind_map, Option.map_bind]
  simp only [Function.comp_def, Node.face, List.getElem?_map]

theorem kind?_eq_face (g : Graph α) (id : NodeId) : g.kind? id = (g.face? id).map Face.kind := by
  rw [kind?, face?, Option.map_map]
  rfl

theorem isLive_eq_face (g : Graph α) (id : NodeId) : g.isLive id = (g.face? id).isSome := by
  rw [isLive, face?, Option.isSome_map]

theorem isLive_iff_face {id : NodeId} : g.isLive id = true ↔ ∃ f, g.face? id = some f := by
  rw [isLive_eq_face, Option.isSome_iff_exists]

theorem constant?_eq_face (g : Graph α) (s : Slot) :
    g.constant? s = (g.face? s.node).bind fun f =>
      match f.op with
      | .constant value => some value
      | _ => none := by
  rw [constant?, face?]
  cases g.node? s.node with
  | none => rfl
  | some n => obtain ⟨_, op, _, _, _⟩ := n; cases op <;> rfl

theorem constant?_eq_some {s : Slot} {t : Tensor α} :
    g.constant? s = some t ↔ ∃ f, g.face? s.node = some f ∧ f.op = .constant t := by
  rw [constant?_eq_face, Option.bind_eq_some_iff]
  refine exists_congr fun f => and_congr_right fun _ => ?_
  cases f.op <;> simp

theorem wire?_isSome_eq_port (g : Graph α) (s : Slot) :
    (g.wire? s).isSome = (g.port? s).isSome := by
  rw [port?_eq, Option.isSome_map]

theorem face?_eq_some {id : NodeId} {f : Face α} :
    g.face? id = some f ↔ ∃ n, g.node? id = some n ∧ n.face = f := by
  rw [face?, Option.map_eq_some_iff]

theorem lt_size_of_face? {id : NodeId} {f : Face α} (h : g.face? id = some f) :
    id < g.nodes.size := by
  obtain ⟨n, hn, -⟩ := face?_eq_some.mp h
  exact lt_size_of_node? hn

theorem WellFormed.exists_port (h : g.WellFormed) {v : NodeId} {i : Nat} {s : Slot}
    (hi : g.input? v i = some s) : ∃ p, g.port? s = some p := by
  have hs := h.wire_of_input hi
  rw [wire?_isSome_eq_port] at hs
  exact Option.isSome_iff_exists.mp hs

theorem lt_size_of_port {s : Slot} {p : Port} (h : g.port? s = some p) : s.node < g.nodes.size := by
  rw [port?_eq_face] at h
  obtain ⟨f, hf, -⟩ := Option.bind_eq_some_iff.mp h
  exact lt_size_of_face? hf

theorem WellFormed.lt_size_of_input (h : g.WellFormed) {v : NodeId} {f : Face α}
    (hf : g.face? v = some f) {s : Slot} (hs : s ∈ f.inputs) : s.node < g.nodes.size := by
  obtain ⟨i, hi⟩ := List.getElem?_of_mem hs
  obtain ⟨n, hn⟩ := h.live_of_input (by rw [input?_eq_face, hf]; exact hi : g.input? v i = some s)
  exact lt_size_of_node? hn

theorem mem_ports {s : Slot} {f : Face α} (hf : g.face? s.node = some f) {p : Port}
    (h : g.port? s = some p) : p ∈ f.ports := by
  rw [port?_eq_face, hf] at h
  exact List.mem_of_getElem? h

theorem face?_of_size_le {id : NodeId} (h : g.nodes.size ≤ id) : g.face? id = none := by
  rw [face?, node?_of_size_le h]
  rfl

theorem face?_modifyNode {id : NodeId} {f : Node α → Node α} {k : Face α → Face α}
    (h : ∀ n, (f n).face = k n.face) (g : Graph α) (v : NodeId) :
    (g.modifyNode id f).face? v = if v = id then (g.face? v).map k else g.face? v := by
  rw [face?, node?_modifyNode]
  split
  · rw [face?, Option.map_map, Option.map_map]
    exact congrArg (Option.map · _) (funext h)
  · rfl

theorem face?_modifyNode_eq {id : NodeId} {f : Node α → Node α} (h : ∀ n, (f n).face = n.face)
    (g : Graph α) (v : NodeId) : (g.modifyNode id f).face? v = g.face? v := by
  rw [face?_modifyNode (k := fun f => f) h]
  simp

theorem map_modify {β γ : Type} (k : β → γ) {f : β → β} (f' : γ → γ) (h : ∀ x, k (f x) = f' (k x))
    (xs : List β) (i : Nat) : (xs.modify i f).map k = (xs.map k).modify i f' := by
  refine List.ext_getElem? fun j => ?_
  simp only [List.getElem?_map, List.getElem?_modify]
  cases xs[j]? with
  | none => rfl
  | some x => by_cases hj : i = j <;> simp [hj, h]

theorem face?_modifyWire_eq {s : Slot} {f : Wire → Wire} (h : ∀ w, (f w).port = w.port)
    (g : Graph α) (v : NodeId) : (g.modifyWire s f).face? v = g.face? v := by
  refine face?_modifyNode_eq (fun n => ?_) g v
  rw [Node.face, Node.face]
  dsimp only
  rw [map_modify Wire.port id h, List.modify_id]

@[simp] theorem face?_addReader (g : Graph α) (s r : Slot) (v : NodeId) :
    (g.addReader s r).face? v = g.face? v :=
  face?_modifyWire_eq (f := fun w => { w with readers := w.readers ++ [r] }) (fun _ => rfl) g v

@[simp] theorem face?_removeReader (g : Graph α) (s r : Slot) (v : NodeId) :
    (g.removeReader s r).face? v = g.face? v :=
  face?_modifyWire_eq (f := fun w => { w with readers := w.readers.filter (· ≠ r) })
    (fun _ => rfl) g v

@[simp] theorem face?_attach (g : Graph α) (id v : NodeId) (inputs : List Slot) :
    (g.attach id inputs).face? v = g.face? v :=
  foldl_keeps (fun g => face? g v) (fun _ _ => face?_addReader ..) g _

theorem face?_push (g : Graph α) (n : Node α) (v : NodeId) :
    (g.push n).face? v = if v = g.nodes.size then some n.face else g.face? v := by
  rw [face?, node?_push]
  split <;> rfl

theorem face?_detach (g : Graph α) (id : NodeId) (n : Node α) (v : NodeId) :
    (g.detach id n).face? v = if v = id then none else g.face? v := by
  rw [detach, face?, node?_drop]
  split
  · rfl
  · exact foldl_keeps (fun g => face? g v) (fun _ _ => face?_removeReader ..) g _

theorem face?_setType (g : Graph α) (s : Slot) (type : ElementType) (v : NodeId) :
    (g.modifyWire s fun w => { w with port := w.port.withType type }).face? v =
      if v = s.node then (g.face? v).map (·.retype s.index type) else g.face? v := by
  refine face?_modifyNode (fun n => ?_) g v
  have hports := map_modify Wire.port (·.withType type)
    (f := fun w => { w with port := w.port.withType type }) (fun _ => rfl) n.outputs s.index
  exact congrArg (Face.mk n.op n.inputs · n.relaxed) hports

theorem face?_relax (g : Graph α) (id : NodeId) (types : RelaxedTypes) (v : NodeId) :
    (g.modifyNode id fun n => { n with relaxed := some types }).face? v =
      if v = id then (g.face? v).map (·.relax types) else g.face? v :=
  face?_modifyNode (fun _ => rfl) g v

theorem face?_setName (g : Graph α) (id : NodeId) (old new : String) (v : NodeId) :
    (g.setName id old new).face? v = g.face? v :=
  face?_modifyNode_eq (f := fun n => { n with name := new }) (fun _ => rfl) g v

theorem face?_reconnect (g : Graph α) (id : NodeId) (index : Nat) (old source : Slot) (v : NodeId) :
    (g.reconnect id index old source).face? v =
      (g.face? v).map (·.redirect v [⟨id, index⟩] source) := by
  have hset : ∀ n : Node α, Node.face { n with inputs := n.inputs.set index source } =
      n.face.redirect id [⟨id, index⟩] source := by
    intro n
    rw [Face.redirect, Node.face, Node.face, Face.mk.injEq]
    refine ⟨rfl, List.ext_getElem? fun i => ?_, rfl, rfl⟩
    rw [List.getElem?_set, List.getElem?_mapIdx]
    by_cases hi : i = index
    · subst hi
      rcases Nat.lt_or_ge i n.inputs.length with hlt | hge
      · simp [hlt]
      · simp [Nat.not_lt.mpr hge]
    · cases h : n.inputs[i]? <;> simp [Ne.symm hi, hi]
  rw [reconnect, face?_modifyNode (k := (·.redirect id [⟨id, index⟩] source)) hset,
    face?_addReader, face?_removeReader]
  split
  · next hv => rw [hv]
  · next hv =>
    cases g.face? v with
    | none => rfl
    | some f => rw [Option.map_some, Face.redirect_of_not_mem (by simp [hv])]

end Graph

end LowPrecision
