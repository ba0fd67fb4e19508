import Mathlib.Data.List.Perm.Subperm
import LowPrecision.Proofs.Graph.Faces

namespace LowPrecision

namespace Graph

variable {α ε : Type} {g g' : Graph α}

section Names

theorem candidate_injective (base : String) :
    Function.Injective fun i : Nat => s!"{base}_{i + 1}" := by
  intro i j h
  have hlist : ∀ k : Nat, (s!"{base}_{k + 1}").toList =
      base.toList ++ '_' :: Nat.toDigits 10 (k + 1) := by
    intro k
    simp [toString, Nat.toList_repr]
  have hdigits : Nat.toDigits 10 (i + 1) = Nat.toDigits 10 (j + 1) := by
    have := congrArg String.toList h
    rw [hlist, hlist] at this
    simpa using this
  have hsucc : i + 1 = j + 1 := calc
    i + 1 = Nat.ofDigitChars 10 (Nat.toDigits 10 (i + 1)) 0 := Nat.ofDigitChars_ten_toDigits.symm
    _ = Nat.ofDigitChars 10 (Nat.toDigits 10 (j + 1)) 0 := by rw [hdigits]
    _ = j + 1 := Nat.ofDigitChars_ten_toDigits
  omega

theorem mem_names_of_taken {name : String} (h : g.isFree name = false) : name ∈ g.names.map Prod.fst := by
  rw [isFree, Option.isNone_eq_false_iff, nodeByName?, Option.isSome_map] at h
  obtain ⟨entry, hentry⟩ := Option.isSome_iff_exists.mp h
  have hname : entry.1 = name := by simpa using List.find?_some hentry
  exact List.mem_map.mpr ⟨entry, List.mem_of_find?_eq_some hentry, hname⟩

theorem uniqueName_free (g : Graph α) (base : String) :
    g.nodeByName? (g.uniqueName base) = none := by
  rw [uniqueName]
  split
  · next hfree => simpa [isFree] using hfree
  · dsimp only
    cases hfind : ((List.range (g.size + 1)).map fun i => s!"{base}_{i + 1}").find? g.isFree with
    | some name => simpa [isFree] using List.find?_some hfind
    | none =>
      exfalso
      have htaken : (List.range (g.size + 1)).map (fun i => s!"{base}_{i + 1}") ⊆
          g.names.map Prod.fst := by
        intro name hname
        exact mem_names_of_taken (Bool.eq_false_iff.mpr (List.find?_eq_none.mp hfind name hname))
      have hnodup : ((List.range (g.size + 1)).map fun i => s!"{base}_{i + 1}").Nodup :=
        List.nodup_range.map (candidate_injective base)
      have hle := (hnodup.subperm htaken).length_le
      simp only [List.length_map, List.length_range, size] at hle
      omega

end Names

theorem Update.on_forM_port_ok {inputs : List Slot} (h : ∀ s ∈ inputs, (g.wire? s).isSome) :
    on g (inputs.forM fun s => discard (look (·.port s))) = (.ok (), g) := by
  induction inputs with
  | nil => rfl
  | cons s inputs ih =>
    rw [List.forM, on_bind_ok (on_port (h s (by simp)))]
    exact ih fun t ht => h t (by simp [ht])

@[simp] theorem attributes_addReader (g : Graph α) (s r : Slot) :
    (g.addReader s r).attributes = g.attributes := rfl

@[simp] theorem attributes_attach (g : Graph α) (id : NodeId) (inputs : List Slot) :
    (g.attach id inputs).attributes = g.attributes :=
  foldl_keeps Graph.attributes (fun _ _ => attributes_addReader ..) g _

structure Added (g g' : Graph α) (f : Face α) : Prop where
  wellFormed : g'.WellFormed
  size : g'.nodes.size = g.nodes.size + 1
  face (v : NodeId) : g'.face? v = if v = g.nodes.size then some f else g.face? v
  name (v : NodeId) : v < g.nodes.size → g'.name? v = g.name? v
  attributes : g'.attributes = g.attributes

namespace Added

variable {f : Face α}

theorem new (h : Added g g' f) : g'.face? g.nodes.size = some f := by rw [h.face, if_pos rfl]

theorem old (h : Added g g' f) {v : NodeId} {k : Face α} (hv : g.face? v = some k) :
    g'.face? v = some k := by
  rw [h.face, if_neg (Nat.ne_of_lt (lt_size_of_face? hv)), hv]

theorem eq_new (h : Added g g' f) {v : NodeId} {k : Face α} (hv : g.nodes.size ≤ v)
    (hk : g'.face? v = some k) : v = g.nodes.size ∧ k = f := by
  have hlt : v < g.nodes.size + 1 := h.size ▸ lt_size_of_face? hk
  obtain rfl : v = g.nodes.size := Nat.le_antisymm (Nat.lt_succ_iff.mp hlt) hv
  exact ⟨rfl, Option.some.inj (hk.symm.trans h.new)⟩

theorem port (h : Added g g' f) {s : Slot} {p : Port} (hs : g.port? s = some p) :
    g'.port? s = some p := by
  rw [port?_eq_face] at hs ⊢
  obtain ⟨k, hk, hp⟩ := Option.bind_eq_some_iff.mp hs
  rw [h.old hk]
  exact hp

end Added

structure Extends (g g' : Graph α) (p : Slot → Prop) : Prop where
  wellFormed : g'.WellFormed
  size : g.nodes.size ≤ g'.nodes.size
  old (v : NodeId) : v < g.nodes.size → g'.face? v = g.face? v
  inputs (v : NodeId) (f : Face α) : g.nodes.size ≤ v → g'.face? v = some f →
    ∀ s ∈ f.inputs, (s.node < g.nodes.size → p s) ∧ s.node < v
  name (v : NodeId) : v < g.nodes.size → g'.name? v = g.name? v
  attributes : g'.attributes = g.attributes

namespace Extends

variable {p q : Slot → Prop}

theorem refl (h : g.WellFormed) : Extends g g p where
  wellFormed := h
  size := Nat.le_refl _
  old _ _ := rfl
  inputs _ _ hv hf := absurd (lt_size_of_face? hf) (Nat.not_lt.mpr hv)
  name _ _ := rfl
  attributes := rfl

theorem trans {g₁ g₂ g₃ : Graph α} (h : Extends g₁ g₂ p) (h' : Extends g₂ g₃ q)
    (hq : ∀ s, s.node < g₁.nodes.size → q s → p s) : Extends g₁ g₃ p where
  wellFormed := h'.wellFormed
  size := Nat.le_trans h.size h'.size
  old v hv := (h'.old v (Nat.lt_of_lt_of_le hv h.size)).trans (h.old v hv)
  inputs v f hv hf s hs := by
    rcases Nat.lt_or_ge v g₂.nodes.size with hlt | hge
    · exact h.inputs v f hv ((h'.old v hlt).symm.trans hf) s hs
    · obtain ⟨hread, hbefore⟩ := h'.inputs v f hge hf s hs
      exact ⟨fun hold => hq s hold (hread (Nat.lt_of_lt_of_le hold h.size)), hbefore⟩
  name v hv := (h'.name v (Nat.lt_of_lt_of_le hv h.size)).trans (h.name v hv)
  attributes := h'.attributes.trans h.attributes

theorem face (h : Extends g g' p) {v : NodeId} {f : Face α} (hv : g.face? v = some f) :
    g'.face? v = some f := (h.old v (lt_size_of_face? hv)).trans hv

theorem port (h : Extends g g' p) {s : Slot} {k : Port} (hs : g.port? s = some k) :
    g'.port? s = some k := by
  rw [port?_eq_face] at hs ⊢
  obtain ⟨f, hf, hk⟩ := Option.bind_eq_some_iff.mp hs
  rw [h.face hf]
  exact hk

theorem input (h : Extends g g' p) {v : NodeId} {i : Nat} {s : Slot} (hi : g.input? v i = some s) :
    g'.input? v i = some s := by
  rw [input?_eq_face] at hi ⊢
  obtain ⟨f, hf, hi⟩ := Option.bind_eq_some_iff.mp hi
  rw [h.face hf]
  exact hi

theorem kind (h : Extends g g' p) {v : NodeId} {k : OpKind} (hk : g.kind? v = some k) :
    g'.kind? v = some k := by
  rw [kind?_eq_face] at hk ⊢
  obtain ⟨f, hf, hk⟩ := Option.map_eq_some_iff.mp hk
  rw [h.face hf, Option.map_some, hk]

end Extends

theorem Added.extends {f : Face α} {p : Slot → Prop} (h : Added g g' f)
    (hp : ∀ s ∈ f.inputs, p s) (hin : ∀ s ∈ f.inputs, (g.port? s).isSome) : Extends g g' p where
  wellFormed := h.wellFormed
  size := Nat.le_of_lt (h.size ▸ Nat.lt_succ_self _)
  old v hv := by rw [h.face, if_neg (Nat.ne_of_lt hv)]
  inputs v k hv hk s hs := by
    obtain ⟨rfl, rfl⟩ := h.eq_new hv hk
    refine ⟨fun _ => hp s hs, ?_⟩
    obtain ⟨q, hq⟩ := Option.isSome_iff_exists.mp (hin s hs)
    rw [port?_eq_face] at hq
    obtain ⟨k, hk, -⟩ := Option.bind_eq_some_iff.mp hq
    exact lt_size_of_face? hk
  name := h.name
  attributes := h.attributes

theorem addUniqueNode_ok (h : g.WellFormed) (base : String) (op : Op α) (inputs : List Slot)
    (outputs : List Port) (hin : ∀ s ∈ inputs, (g.port? s).isSome) :
    ∃ g', g.addUniqueNode base op inputs outputs = (.ok g.nodes.size, g') ∧
      Added g g' ⟨op, inputs, outputs, none⟩ := by
  have hwires : ∀ s ∈ inputs, (g.wire? s).isSome := fun s hs => wire?_isSome_eq_port g s ▸ hin s hs
  let n : Node α := ⟨g.uniqueName base, op, inputs, outputs.map (⟨·, []⟩), none⟩
  refine ⟨(g.attach g.nodes.size inputs).push n, ?_, ?_⟩
  · rw [addUniqueNode, addNode]
    simp only [isFree, uniqueName_free g base, Option.isNone_none, Bool.not_true,
      Bool.false_eq_true, ↓reduceIte]
    rw [Update.on_bind_ok (Update.on_forM_port_ok hwires),
      Update.on_bind_ok (Update.on_forM_link (by simp) g _
        fun l hl => hwires l.1 (fst_mem_of_mem_slotsOf hl)), Update.on_bind_ok (Update.on_change ..)]
    rfl
  · refine ⟨WellFormed.push (n := n) h (uniqueName_free g base) hwires ?_, ?_, fun v => ?_,
      fun v hv => ?_, ?_⟩
    · intro w hw
      obtain ⟨p, -, rfl⟩ := List.mem_map.mp hw
      rfl
    · simp
    · rw [face?_push, size_attach, face?_attach]
      have hface : n.face = ⟨op, inputs, outputs, none⟩ := by simp [n, Node.face, Function.comp_def]
      rw [hface]
    · rw [name?, node?_push, size_attach, if_neg (Nat.ne_of_lt hv)]
      exact name?_attach ..
    · exact attributes_attach ..

structure Recast (g g' : Graph α) (change : NodeId → Face α → Face α) : Prop where
  wellFormed : g'.WellFormed
  size : g'.nodes.size = g.nodes.size
  face (v : NodeId) : g'.face? v = (g.face? v).map (change v)
  attributes : g'.attributes = g.attributes
  names : g'.names = g.names

namespace Recast

variable {k : NodeId → Face α → Face α}

theorem refl (h : g.WellFormed) : Recast g g fun _ f => f :=
  ⟨h, rfl, fun _ => by simp, rfl, rfl⟩

theorem trans {g₁ g₂ g₃ : Graph α} {k' : NodeId → Face α → Face α} (h : Recast g₁ g₂ k)
    (h' : Recast g₂ g₃ k') : Recast g₁ g₃ fun v f => k' v (k v f) where
  wellFormed := h'.wellFormed
  size := h'.size.trans h.size
  face v := by rw [h'.face, h.face, Option.map_map]; rfl
  attributes := h'.attributes.trans h.attributes
  names := h'.names.trans h.names

theorem congr {k' : NodeId → Face α → Face α} (h : Recast g g' k)
    (hk : ∀ v f, g.face? v = some f → k v f = k' v f) : Recast g g' k' where
  wellFormed := h.wellFormed
  size := h.size
  face v := by
    rw [h.face]
    cases hf : g.face? v with
    | none => rfl
    | some f => rw [Option.map_some, Option.map_some, hk v f hf]
  attributes := h.attributes
  names := h.names

theorem name (h : Recast g g' k) (hg : g.WellFormed) (v : NodeId) : g'.name? v = g.name? v := by
  refine Option.ext fun name => ?_
  rw [← h.wellFormed.index, ← hg.index, nodeByName?, h.names]
  rfl

theorem port (h : Recast g g' k) (hk : ∀ v f, (k v f).ports = f.ports) (s : Slot) :
    g'.port? s = g.port? s := by
  rw [port?_eq_face, port?_eq_face, h.face]
  cases g.face? s.node with
  | none => rfl
  | some f => simp [hk]

theorem input (h : Recast g g' k) (hk : ∀ v f, (k v f).inputs = f.inputs) (v : NodeId) (i : Nat) :
    g'.input? v i = g.input? v i := by
  rw [input?_eq_face, input?_eq_face, h.face]
  cases g.face? v with
  | none => rfl
  | some f => simp [hk]

theorem kind (h : Recast g g' k) (hk : ∀ v f, (k v f).op = f.op) (v : NodeId) :
    g'.kind? v = g.kind? v := by
  rw [kind?_eq_face, kind?_eq_face, h.face]
  cases g.face? v with
  | none => rfl
  | some f => simp [Face.kind, hk]

theorem isLive (h : Recast g g' k) (v : NodeId) : g'.isLive v = g.isLive v := by
  rw [isLive_eq_face, isLive_eq_face, h.face, Option.isSome_map]

end Recast

theorem Added.relax {g₁ g₂ : Graph α} {f : Face α} {types : RelaxedTypes} (h : Added g g₁ f)
    (h' : Recast g₁ g₂ fun v k => if v = g.nodes.size then k.relax types else k) :
    Added g g₂ (f.relax types) where
  wellFormed := h'.wellFormed
  size := h'.size.trans h.size
  face v := by
    rw [h'.face, h.face]
    by_cases hv : v = g.nodes.size
    · simp [hv]
    · simp [hv]
  name v hv := (h'.name h.wellFormed v).trans (h.name v hv)
  attributes := h'.attributes.trans h.attributes

theorem setInput_ok (h : g.WellFormed) {id : NodeId} {index : Nat} {source : Slot}
    (hi : (g.input? id index).isSome) (hs : (g.port? source).isSome) :
    ∃ g', g.setInput id index source = (.ok (), g') ∧
      Recast g g' fun v f => f.redirect v [⟨id, index⟩] source := by
  obtain ⟨old, hold⟩ := Option.isSome_iff_exists.mp hi
  obtain ⟨n, hn, ho⟩ := input?_eq_some.mp hold
  have hsource : (g.wire? source).isSome := wire?_isSome_eq_port g source ▸ hs
  refine ⟨g.reconnect id index old source, ?_, h.reconnect hold hsource,
    (size_modifyNode ..).trans ((size_addReader ..).trans (size_removeReader ..)),
    face?_reconnect g id index old source, rfl, rfl⟩
  rw [setInput, Update.on_bind_ok (Update.on_port hsource), Update.on_bind_ok (on_node hn)]
  simp only [Node.input?, ho]
  rw [Update.on_bind_ok (Update.on_link (h.wire_of_input hold) ..),
    Update.on_bind_ok (Update.on_link (by simpa using hsource) ..)]
  rfl

theorem setOutputType_ok (h : g.WellFormed) {s : Slot} (hs : (g.port? s).isSome)
    (type : ElementType) :
    ∃ g', g.setOutputType s type = (.ok (), g') ∧
      Recast g g' fun v f => if v = s.node then f.retype s.index type else f := by
  refine ⟨_, ?_, h.setType s type, size_modifyNode .., fun v => ?_, rfl, rfl⟩
  · rw [setOutputType, Update.on_bind_ok (Update.on_port (wire?_isSome_eq_port g s ▸ hs))]
    rfl
  · rw [face?_setType]
    split <;> simp

theorem setRelaxed_ok (h : g.WellFormed) {id : NodeId} (hid : g.isLive id = true)
    (types : RelaxedTypes) :
    ∃ g', g.setRelaxed id types = (.ok (), g') ∧
      Recast g g' fun v f => if v = id then f.relax types else f := by
  obtain ⟨n, hn⟩ := Option.isSome_iff_exists.mp hid
  refine ⟨_, ?_, h.relax id types, size_modifyNode .., fun v => ?_, rfl, rfl⟩
  · rw [setRelaxed, Update.on_bind, Update.on_discard, on_node hn]
    rfl
  · rw [face?_relax]
    split <;> simp

end Graph

end LowPrecision
