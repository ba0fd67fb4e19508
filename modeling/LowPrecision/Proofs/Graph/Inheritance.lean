import LowPrecision.Proofs.Attributes.Filing
import LowPrecision.Proofs.Graph.Edits
import LowPrecision.Proofs.Graph.Rerouting

namespace LowPrecision.Graph

variable {α β ε : Type} {g₀ g g' : Graph α}

structure Spares (g g' : Graph α) : Prop where
  attributes : g'.attributes = g.attributes
  size : g.nodes.size ≤ g'.nodes.size
  live (v : NodeId) : v < g.nodes.size → g'.isLive v = g.isLive v

namespace Spares

theorem refl (g : Graph α) : Spares g g := ⟨rfl, Nat.le_refl _, fun _ _ => rfl⟩

theorem trans {g₁ g₂ g₃ : Graph α} (h : Spares g₁ g₂) (h' : Spares g₂ g₃) : Spares g₁ g₃ where
  attributes := h'.attributes.trans h.attributes
  size := Nat.le_trans h.size h'.size
  live v hv := (h'.live v (Nat.lt_of_lt_of_le hv h.size)).trans (h.live v hv)

theorem modifyNode (g : Graph α) (id : NodeId) (f : Node α → Node α) :
    Spares g (g.modifyNode id f) :=
  ⟨rfl, Nat.le_of_eq (size_modifyNode ..).symm, fun v _ => isLive_modifyNode g id f v⟩

theorem push (g : Graph α) (n : Node α) :
    Spares g ((g.attach g.nodes.size n.inputs).push n) where
  attributes := attributes_attach ..
  size := by simp
  live v hv := by
    rw [isLive, node?_push, size_attach, if_neg (Nat.ne_of_lt hv)]
    exact isLive_attach ..

theorem addNode (g : Graph α) (name : String) (op : Op α) (inputs : List Slot)
    (outputs : List Port) : Spares g (g.addNode name op inputs outputs).2 := by
  rcases addNode_cases g name op inputs outputs with ⟨e, he⟩ | ⟨-, -, hok⟩
  · rw [he]
    exact .refl g
  · rw [hok]
    exact .push g ⟨name, op, inputs, outputs.map (⟨·, []⟩), none⟩

theorem setInput (g : Graph α) (id : NodeId) (index : Nat) (source : Slot) :
    Spares g (g.setInput id index source).2 := by
  rcases setInput_cases g id index source with ⟨e, he⟩ | ⟨old, -, -, hok⟩
  · rw [he]
    exact .refl g
  · rw [hok]
    exact ((modifyNode g _ _).trans (modifyNode _ _ _)).trans (modifyNode _ _ _)

theorem setOutputType (g : Graph α) (s : Slot) (type : ElementType) :
    Spares g (g.setOutputType s type).2 := by
  rcases setOutputType_cases g s type with ⟨e, he⟩ | ⟨-, hok⟩
  · rw [he]
    exact .refl g
  · rw [hok]
    exact modifyNode g _ _

theorem setRelaxed (g : Graph α) (id : NodeId) (types : RelaxedTypes) :
    Spares g (g.setRelaxed id types).2 := by
  rcases setRelaxed_cases g id types with ⟨e, he⟩ | ⟨-, hok⟩
  · rw [he]
    exact .refl g
  · rw [hok]
    exact modifyNode g _ _

theorem rename (g : Graph α) (id : NodeId) (name : String) : Spares g (g.rename id name).2 := by
  rcases rename_cases g id name with ⟨e, he⟩ | ⟨-, hok⟩ | ⟨n, -, -, hok⟩
  · rw [he]
    exact .refl g
  · rw [hok]
    exact .refl g
  · rw [hok]
    have h := modifyNode g id fun n => { n with name := name }
    exact ⟨h.attributes, h.size, h.live⟩

end Spares

theorem stays_answer {f : Graph α → Except ε β × Graph α} (hf : ∀ g, Spares g (f g).2) :
    Stays (Spares g₀) (fun _ => True) (Edit.answer f) := by
  intro g r g' hg hrun
  have hspared := hf g
  rw [Edit.exec_answer, Except.ok.injEq] at hrun
  rw [hrun] at hspared
  exact ⟨hg.trans hspared, fun _ _ => trivial⟩

theorem stays_rewire (slots : List Slot) (source : Slot) :
    Stays (Spares g₀) (fun _ => True) (rewire slots source) :=
  Stays.forM fun slot _ => stays_answer fun g => .setInput g slot.node slot.index source

theorem stays_replaceOutput (old new : Slot) :
    Stays (Spares g₀) (fun _ => True) (replaceOutput old new) := by
  intro g r g' hg hrun
  rw [replaceOutput, exec_bind_ok (Edit.exec_read _ g)] at hrun
  exact stays_rewire _ _ g r g' hg hrun

theorem size_setInput (g : Graph α) (id : NodeId) (index : Nat) (source : Slot) :
    (g.setInput id index source).2.nodes.size = g.nodes.size := by
  rcases setInput_cases g id index source with ⟨e, he⟩ | ⟨old, -, -, hok⟩
  · rw [he]
  · simp only [hok, reconnect, size_modifyNode, size_addReader, size_removeReader]

theorem size_rename (g : Graph α) (id : NodeId) (name : String) :
    (g.rename id name).2.nodes.size = g.nodes.size := by
  rcases rename_cases g id name with ⟨e, he⟩ | ⟨-, hok⟩ | ⟨n, -, -, hok⟩
  · rw [he]
  · rw [hok]
  · rw [hok]
    exact size_modifyNode ..

theorem size_removeDead (g : Graph α) (stack : List NodeId) :
    (g.removeDead stack).nodes.size = g.nodes.size := by
  fun_induction Graph.removeDead g stack with
  | case1 => rfl
  | case2 g id rest hn ih => exact ih
  | case3 g id rest n hn hdead ih => rw [ih, size_detach]
  | case4 g id rest n hn hdead ih => exact ih

/-- What a change of the graph leaves of the results of the analyses: the values behind all groups and
the conflicts, the attributes of the nodes that stay, none of a node that is gone. A node that is new
has no attributes, or those of the node that it replaced. -/
structure KeepsMarkup (replaced : NodeId → NodeId → Prop) (g₀ g : Graph α) : Prop where
  size : g₀.nodes.size ≤ g.nodes.size
  live (v : NodeId) : v < g₀.nodes.size → g.isLive v = true → g₀.isLive v = true
  filed : g.attributes.Filed
  precisionCells : g.attributes.precisionCells = g₀.attributes.precisionCells
  intervalCells : g.attributes.intervalCells = g₀.attributes.intervalCells
  alignmentCells : g.attributes.alignmentCells = g₀.attributes.alignmentCells
  conflicts : g.attributes.conflicts = g₀.attributes.conflicts
  kept (target : Target) (kind : AttributeKind) : target.owner < g₀.nodes.size →
    g.isLive target.owner = true → g.attributes.get? target kind = g₀.attributes.get? target kind
  gained (v : NodeId) : g₀.nodes.size ≤ v → g.isLive v = true →
    (∀ target kind, target.owner = v → g.attributes.get? target kind = none) ∨
      ∃ old, replaced old v ∧ g₀.isLive old = true ∧ ∀ target kind, target.owner = v →
        g.attributes.get? target kind = g₀.attributes.get? (target.moveTo old) kind
  gone (target : Target) (kind : AttributeKind) : g.isLive target.owner = false →
    g.attributes.get? target kind = none

def Blank (g₀ : Graph α) (v : NodeId) (g : Graph α) : Prop :=
  g₀.nodes.size ≤ v ∧ ∀ target kind, target.owner = v → g.attributes.get? target kind = none

theorem Blank.spared {v : NodeId} (h : Blank g₀ v g) (hs : Spares g g') : Blank g₀ v g' :=
  ⟨h.1, fun target kind howner => by rw [hs.attributes]; exact h.2 target kind howner⟩

namespace KeepsMarkup

variable {replaced : NodeId → NodeId → Prop} {old new : NodeId}

theorem refl (hfiled : g.attributes.Filed) (hgone : ∀ target kind,
    g.isLive target.owner = false → g.attributes.get? target kind = none) :
    KeepsMarkup replaced g g where
  size := Nat.le_refl _
  live _ _ h := h
  filed := hfiled
  precisionCells := rfl
  intervalCells := rfl
  alignmentCells := rfl
  conflicts := rfl
  kept _ _ _ _ := rfl
  gained _ hv hlive := absurd (lt_size_of_isLive hlive) (Nat.not_lt.mpr hv)
  gone := hgone

theorem blank (h : KeepsMarkup replaced g₀ g) (hs : Spares g g') {v : NodeId}
    (hv : g.nodes.size ≤ v) : Blank g₀ v g' := by
  refine Blank.spared ⟨Nat.le_trans h.size hv, fun target kind howner => h.gone target kind ?_⟩ hs
  rw [howner, isLive, node?_of_size_le hv]
  rfl

theorem spared (h : KeepsMarkup replaced g₀ g) (hs : Spares g g') : KeepsMarkup replaced g₀ g' where
  size := Nat.le_trans h.size hs.size
  live v hv hlive := h.live v hv (hs.live v (Nat.lt_of_lt_of_le hv h.size) ▸ hlive)
  filed := hs.attributes ▸ h.filed
  precisionCells := hs.attributes ▸ h.precisionCells
  intervalCells := hs.attributes ▸ h.intervalCells
  alignmentCells := hs.attributes ▸ h.alignmentCells
  conflicts := hs.attributes ▸ h.conflicts
  kept target kind hold hlive := by
    rw [hs.attributes]
    exact h.kept target kind hold (hs.live _ (Nat.lt_of_lt_of_le hold h.size) ▸ hlive)
  gained v hv hlive := by
    rcases Nat.lt_or_ge v g.nodes.size with hlt | hge
    · rw [hs.attributes]
      exact h.gained v hv (hs.live v hlt ▸ hlive)
    · exact .inl (h.blank hs hge).2
  gone target kind hdead := by
    rcases Nat.lt_or_ge target.owner g.nodes.size with hlt | hge
    · rw [hs.attributes]
      exact h.gone target kind (hs.live _ hlt ▸ hdead)
    · exact (h.blank hs hge).2 target kind rfl

theorem detach (h : KeepsMarkup replaced g₀ g) (id : NodeId) (n : Node α) :
    KeepsMarkup replaced g₀ (g.detach id n) := by
  have hlive : ∀ {v}, (g.detach id n).isLive v = true → g.isLive v = true ∧ v ≠ id := by
    intro v hv
    rwa [isLive_detach, Bool.and_eq_true, bne_iff_ne] at hv
  have hother : ∀ {target : Target} {kind : AttributeKind}, target.owner ≠ id →
      (g.detach id n).attributes.get? target kind = g.attributes.get? target kind := by
    intro target kind hne
    rw [attributes_detach, AttributeStore.get?_forgetNode hne]
  refine {
    size := (size_detach g id n).symm ▸ h.size
    live := fun v hv hv' => h.live v hv (hlive hv').1
    filed := ?filed
    precisionCells := ?precisionCells
    intervalCells := ?intervalCells
    alignmentCells := ?alignmentCells
    conflicts := ?conflicts
    kept := fun target kind hold hv => ?kept
    gained := fun v hv hv' => ?gained
    gone := fun target kind hdead => ?gone }
  case filed =>
    rw [attributes_detach]
    exact h.filed.forgetNode id
  case precisionCells =>
    rw [attributes_detach]
    exact h.precisionCells
  case intervalCells =>
    rw [attributes_detach]
    exact h.intervalCells
  case alignmentCells =>
    rw [attributes_detach]
    exact h.alignmentCells
  case conflicts =>
    rw [attributes_detach]
    exact h.conflicts
  case kept =>
    rw [hother (hlive hv).2]
    exact h.kept target kind hold (hlive hv).1
  case gained =>
    obtain ⟨hv', hne⟩ := hlive hv'
    refine (h.gained v hv hv').imp (fun hblank target kind howner => ?_) ?_
    · rw [hother (howner ▸ hne)]
      exact hblank target kind howner
    · rintro ⟨old, hreplaced, hold, hsame⟩
      refine ⟨old, hreplaced, hold, fun target kind howner => ?_⟩
      rw [hother (howner ▸ hne)]
      exact hsame target kind howner
  case gone =>
    by_cases hid : target.owner = id
    · rw [attributes_detach]
      exact AttributeStore.lookup_filter_none (p := fun k => decide (k.target.owner ≠ id))
        (by simpa using hid)
    · rw [hother hid]
      refine h.gone target kind ?_
      rwa [isLive_detach, bne_iff_ne.mpr hid, Bool.and_true] at hdead

theorem removeDead (h : KeepsMarkup replaced g₀ g) (stack : List NodeId) :
    KeepsMarkup replaced g₀ (g.removeDead stack) := by
  fun_induction Graph.removeDead g stack with
  | case1 => exact h
  | case2 g id rest hn ih => exact ih h
  | case3 g id rest n hn hdead ih => exact ih (h.detach id n)
  | case4 g id rest n hn hdead ih => exact ih h

theorem copyNode (h : KeepsMarkup replaced g₀ g) (hreplaced : replaced old new)
    (hold : old < g₀.nodes.size) (holdLive : g.isLive old = true) (hblank : Blank g₀ new g)
    (hnewLive : g.isLive new = true) :
    KeepsMarkup replaced g₀ { g with attributes := g.attributes.copyNode old new } := by
  obtain ⟨entries, hentries⟩ := AttributeStore.copyNode_frame g.attributes old new
  have hother : ∀ {target : Target} {kind : AttributeKind}, target.owner ≠ new →
      (g.attributes.copyNode old new).get? target kind = g.attributes.get? target kind :=
    AttributeStore.get?_copyNode
  refine {
    size := h.size
    live := h.live
    filed := h.filed.copyNode old new
    precisionCells := ?precisionCells
    intervalCells := ?intervalCells
    alignmentCells := ?alignmentCells
    conflicts := ?conflicts
    kept := fun target kind howner hv => ?kept
    gained := fun v hv hv' => ?gained
    gone := fun target kind hdead => ?gone }
  case precisionCells =>
    rw [hentries]
    exact h.precisionCells
  case intervalCells =>
    rw [hentries]
    exact h.intervalCells
  case alignmentCells =>
    rw [hentries]
    exact h.alignmentCells
  case conflicts =>
    rw [hentries]
    exact h.conflicts
  case kept =>
    exact (hother fun he => absurd (he ▸ howner) (Nat.not_lt.mpr hblank.1)).trans
      (h.kept target kind howner hv)
  case gained =>
    by_cases hnew : v = new
    · subst hnew
      refine .inr ⟨old, hreplaced, h.live old hold holdLive, fun target kind howner => ?_⟩
      refine (AttributeStore.get?_copyNode_self h.filed (hblank.2 target kind howner) howner).trans ?_
      refine h.kept _ kind ?_ ?_
      · rwa [Target.owner_moveTo]
      · rwa [Target.owner_moveTo]
    · refine (h.gained v hv hv').imp (fun hnone target kind howner => ?_) ?_
      · exact (hother (howner ▸ hnew)).trans (hnone target kind howner)
      · rintro ⟨source, hsource, hlive, hsame⟩
        exact ⟨source, hsource, hlive, fun target kind howner =>
          (hother (howner ▸ hnew)).trans (hsame target kind howner)⟩
  case gone =>
    have hne : target.owner ≠ new := by
      intro he
      rw [he] at hdead
      exact absurd (hdead.symm.trans hnewLive) Bool.false_ne_true
    exact (hother hne).trans (h.gone target kind hdead)

theorem leaves_replaceNode (hreplaced : replaced old new) (hold : old < g₀.nodes.size) :
    Leaves (fun g => KeepsMarkup replaced g₀ g ∧ Blank g₀ new g)
      (fun _ => KeepsMarkup replaced g₀) (KeepsMarkup replaced g₀)
      (replaceNode old new : Edit α GraphError Unit) := by
  rintro g r g' ⟨h, hblank⟩ hrun
  suffices hkeeps : KeepsMarkup replaced g₀ g' from ⟨hkeeps, fun _ _ => hkeeps⟩
  rw [replaceNode, exec_bind, Edit.exec_ofExcept, Graph.node] at hrun
  cases holdNode : g.node? old with
  | none =>
    rw [holdNode] at hrun
    cases hrun
    exact h
  | some oldNode =>
  rw [holdNode] at hrun
  dsimp only at hrun
  rw [exec_bind, Edit.exec_ofExcept, Graph.node] at hrun
  cases hnewNode : g.node? new with
  | none =>
    rw [hnewNode] at hrun
    cases hrun
    exact h
  | some newNode =>
  rw [hnewNode] at hrun
  dsimp only at hrun
  split at hrun
  · cases hrun
    exact h
  have hrewired : Stays (Spares g) (fun _ => True) ((List.range oldNode.outputs.length).forM
      fun index => replaceOutput (α := α) ⟨old, index⟩ ⟨new, index⟩) :=
    Stays.forM fun index _ => stays_replaceOutput _ _
  rcases exec_bind_eq_ok.mp hrun with ⟨⟨⟩, g₁, hrewire, hrun⟩ | ⟨e, he, -⟩
  rotate_left
  · exact h.spared (hrewired _ _ _ (.refl _) he).1
  have hspares := (hrewired _ _ _ (.refl _) hrewire).1
  have hlive : ∀ {id : NodeId} {n : Node α}, g.node? id = some n → g₁.isLive id = true := by
    intro id n hn
    rw [hspares.live id (lt_size_of_node? hn), isLive, hn]
    rfl
  have hcopied := ((h.spared hspares).copyNode hreplaced hold (hlive holdNode)
    (hblank.spared hspares) (hlive hnewNode)).removeDead [old]
  rw [exec_bind_ok (Edit.exec_change _ _), exec_bind_ok (Edit.exec_change _ _),
    exec_bind_ok (Edit.exec_read _ _)] at hrun
  split at hrun
  · exact hcopied.spared (stays_answer (fun g => .rename g new oldNode.name) _ _ _ (.refl _) hrun).1
  · cases hrun
    exact hcopied

end KeepsMarkup

end LowPrecision.Graph
