import LowPrecision.Proofs.Attributes.Filing
import LowPrecision.Proofs.Graph.DeadCone
import LowPrecision.Proofs.Graph.Walks

/-!
The replacement of one node by another fails before it changes anything, or it goes through, unless
the new node is itself among those that die with the old one.
-/

namespace LowPrecision

namespace Graph

variable {α : Type} {g g' : Graph α} {old new v : NodeId} {m n : Node α}

def outputCount (g : Graph α) (id : NodeId) : Nat := ((g.node? id).map (·.outputs.length)).getD 0

def redirectAll (g : Graph α) (slots : List Slot) (source : Slot) : Graph α :=
  slots.foldl (fun g slot => (g.setInput slot.node slot.index source).2) g

def moveReaders (g : Graph α) (old new : Slot) : Graph α :=
  g.redirectAll ((g.readers old).filter (·.node ≠ new.node)) new

def handOver (g : Graph α) (old new : NodeId) : Graph α :=
  let g := (List.range (g.outputCount old)).foldl (fun g i => g.moveReaders ⟨old, i⟩ ⟨new, i⟩) g
  { g with attributes := g.attributes.copyNode old new }

section HandOver

theorem eq_redirectAll {slots : List Slot} {source : Slot}
    (h : exec (rewire slots source : Edit α GraphError Unit) g = .ok (.ok (), g')) :
    g' = g.redirectAll slots source := by
  induction slots generalizing g with
  | nil =>
    cases h
    rfl
  | cons slot slots ih =>
    rw [rewire, List.forM] at h
    obtain ⟨_, g₁, hstep, hrest⟩ := exec_bind_eq_answer.mp h
    rw [Edit.exec_step, Except.ok.injEq] at hstep
    rw [ih hrest, redirectAll, redirectAll, List.foldl_cons, hstep]

theorem eq_moveReaders {old new : Slot}
    (h : exec (replaceOutput old new : Edit α GraphError Unit) g = .ok (.ok (), g')) :
    g' = g.moveReaders old new := by
  rw [replaceOutput, exec_bind_ok (Edit.exec_read _ _)] at h
  exact eq_redirectAll h

theorem eq_foldl_moveReaders {indices : List Nat}
    (h : exec (indices.forM fun i => replaceOutput ⟨old, i⟩ ⟨new, i⟩ : Edit α GraphError Unit) g =
      .ok (.ok (), g')) :
    g' = indices.foldl (fun g i => g.moveReaders ⟨old, i⟩ ⟨new, i⟩) g := by
  induction indices generalizing g with
  | nil =>
    cases h
    rfl
  | cons index indices ih =>
    rw [List.forM] at h
    obtain ⟨_, g₁, hstep, hrest⟩ := exec_bind_eq_answer.mp h
    rw [ih hrest, List.foldl_cons, eq_moveReaders hstep]

theorem wellFormed_handOver (h : g.WellFormed) (old new : NodeId) : (g.handOver old new).WellFormed := by
  have hmoved : ∀ (g : Graph α) (a b : Slot), g.WellFormed → (g.moveReaders a b).WellFormed :=
    fun g a b hg => List.foldlRecOn (motive := Graph.WellFormed) _ _ hg fun g' hg' r _ =>
      (sound_setInput hg' r.node r.index b).wellFormed
  have hall := List.foldlRecOn (motive := Graph.WellFormed) (List.range (g.outputCount old))
    (fun g i => g.moveReaders ⟨old, i⟩ ⟨new, i⟩) h fun g' hg' i _ => hmoved g' ⟨old, i⟩ ⟨new, i⟩ hg'
  exact hall.of_attributes _

theorem outputCount_of_node (hn : g.node? v = some n) : g.outputCount v = n.outputs.length := by
  rw [outputCount, hn, Option.map_some, Option.getD_some]

structure HandedOver (g g' : Graph α) (old new : NodeId) : Prop where
  wellFormed : g'.WellFormed
  size : g'.nodes.size = g.nodes.size
  face (v : NodeId) : g'.face? v = (g.face? v).map (·.replace v old new)
  name (v : NodeId) : g'.name? v = g.name? v
  attributes : g'.attributes = g.attributes.copyNode old new

section Replacement

variable (h : g.WellFormed) (hm : g.node? old = some m) (hn : g.node? new = some n)
  (hlength : m.outputs.length = n.outputs.length)

include h hm hn hlength

theorem handOver_ok :
    (∃ g₁, exec ((List.range m.outputs.length).forM fun i => replaceOutput ⟨old, i⟩ ⟨new, i⟩ :
        Edit α GraphError Unit) g = .ok (.ok (), g₁) ∧
      g.handOver old new = { g₁ with attributes := g₁.attributes.copyNode old new }) ∧
    HandedOver g (g.handOver old new) old new := by
  obtain ⟨g₁, hexec, h₁⟩ := replaceOutputs_ok h old new (List.range m.outputs.length) fun i hi => by
    rw [List.mem_range, hlength] at hi
    simp [port?_eq_face, face?, hn, Node.face, hi]
  have hhand : g.handOver old new = { g₁ with attributes := g₁.attributes.copyNode old new } := by
    rw [handOver, outputCount_of_node hm, ← eq_foldl_moveReaders hexec]
  refine ⟨⟨g₁, hexec, hhand⟩, ?_⟩
  rw [hhand]
  exact ⟨h₁.wellFormed.of_attributes _, h₁.size,
    fun v => (h₁.face v).trans (Option.map_congr fun k hk => h.substitute_eq_replace hm hk new),
    h₁.name h, congrArg (·.copyNode old new) h₁.attributes⟩

theorem exec_replaceNode :
    exec (replaceNode old new : Edit α GraphError Unit) g =
      exec (do
        if (← Edit.read (·.node? old)).isNone then
          Edit.step (·.rename new m.name) : Edit α GraphError Unit)
        ((g.handOver old new).removeDead [old]) := by
  obtain ⟨⟨g₁, hexec, hhand⟩, -⟩ := handOver_ok h hm hn hlength
  rw [replaceNode, exec_bind_ok (exec_ofExcept_node hm), exec_bind_ok (exec_ofExcept_node hn)]
  simp only [← hlength, ne_eq, not_true_eq_false, ↓reduceIte]
  rw [exec_bind_ok hexec, exec_bind_ok (Edit.exec_change _ _), ← hhand,
    exec_bind_ok (Edit.exec_change _ _)]

end Replacement

end HandOver

/-- The new node has taken the place of the old one: the nodes of the dead cone are gone, and what is
left reads, carries and is called what the old node left to the new one. -/
structure Succeeds (g g' : Graph α) (old new : NodeId) : Prop where
  wellFormed : g'.WellFormed
  live (v : NodeId) :
    g'.isLive v = true ↔ g.isLive v = true ∧ ¬ (g.handOver old new).DeadCone old v
  stays : g'.isLive new = true
  face (v : NodeId) (f : Face α) :
    g.face? v = some f → g'.isLive v = true → g'.face? v = some (f.replace v old new)
  reads (v : NodeId) (i : Nat) (s : Slot) : g.input? v i = some s → g'.isLive v = true →
    g'.input? v i = some (if v ≠ new ∧ s.node = old then ⟨new, s.index⟩ else s)
  kept (target : Target) (kind : AttributeKind) : target.owner ≠ new →
    g'.isLive target.owner = true → g'.attributes.get? target kind = g.attributes.get? target kind
  gained (target : Target) (kind : AttributeKind) : target.owner = new →
    g'.attributes.get? target kind =
      (g.attributes.get? target kind).or (g.attributes.get? (target.moveTo old) kind)
  removed : g'.isLive old = false ↔ (∀ f, g.face? old = some f → ¬ f.kind.IsInterface) ∧
    ∀ v, ¬ (g.handOver old new).Reads v old
  inherited : g'.isLive old = false → g'.name? new = g.name? old
  name (v : NodeId) : g'.isLive v = true → (v = new → g'.isLive old = true) →
    g'.name? v = g.name? v

theorem HandedOver.isLive (h : HandedOver g g' old new) (v : NodeId) : g'.isLive v = g.isLive v := by
  rw [isLive_eq_face, isLive_eq_face, h.face, Option.isSome_map]

theorem deadCone_self_iff (h : g.WellFormed) (hn : g.node? v = some n) :
    g.DeadCone v v ↔ ¬ n.kind.IsInterface ∧ ∀ u, ¬ g.Reads u v := by
  have hreaders : n.allReaders = [] ↔ ∀ u, ¬ g.Reads u v := by
    rw [List.eq_nil_iff_forall_not_mem]
    constructor
    · rintro hnone u ⟨i, s, hs, hsv⟩
      exact hnone ⟨u, i⟩ ((h.mem_allReaders hn).mpr ⟨s, hs, hsv⟩)
    · intro hnone r hr
      obtain ⟨s, hs, hsv⟩ := (h.mem_allReaders hn).mp hr
      exact hnone r.node ⟨r.index, s, hs, hsv⟩
  rw [← hreaders]
  constructor
  · intro hcone
    obtain ⟨n', hn', hkind, hnone⟩ := hcone.root
    cases hn.symm.trans hn'
    exact ⟨hkind, hnone⟩
  · rintro ⟨hkind, hnone⟩
    exact .start hn hkind hnone

theorem HandedOver.deadCone_old_iff (h : HandedOver g g' old new) (hm : g.node? old = some m) :
    g'.DeadCone old old ↔
      (∀ f, g.face? old = some f → ¬ f.kind.IsInterface) ∧ ∀ v, ¬ g'.Reads v old := by
  have hface := h.face old
  have hm' := face?_eq_some.mpr ⟨m, hm, rfl⟩
  rw [hm', Option.map_some] at hface
  obtain ⟨n, hn, hsame⟩ := face?_eq_some.mp hface
  have hkind : n.kind = m.face.kind :=
    congrArg Op.kind ((congrArg Face.op hsame).trans (Face.op_replace ..))
  rw [deadCone_self_iff h.wellFormed hn, hm', hkind]
  simp

theorem get?_without (g : Graph α) {p : NodeId → Prop} {target : Target} (h : ¬ p target.owner)
    (kind : AttributeKind) :
    (g.without p).attributes.get? target kind = g.attributes.get? target kind := by
  classical
  exact AttributeStore.lookup_filter (p := fun k => decide (¬ p k.target.owner)) (decide_eq_true h)

section Outcome

variable (h : g.WellFormed) (hm : g.node? old = some m) (hn : g.node? new = some n)
  (hlength : m.outputs.length = n.outputs.length)

include h hm hn hlength

theorem removeDead_handOver : (g.handOver old new).removeDead [old] =
    (g.handOver old new).without ((g.handOver old new).DeadCone old) :=
  removeDead_eq (handOver_ok h hm hn hlength).2.wellFormed old

theorem pruned_handOver : Pruned (g.handOver old new)
    ((g.handOver old new).without ((g.handOver old new).DeadCone old)) fun _ => True := by
  rw [← removeDead_handOver h hm hn hlength]
  exact (handOver_ok h hm hn hlength).2.wellFormed.pruned [old]

theorem nodeByName?_without
    (hgone : ((g.handOver old new).without ((g.handOver old new).DeadCone old)).node? old = none) :
    ((g.handOver old new).without ((g.handOver old new).DeadCone old)).nodeByName? m.name = none := by
  obtain ⟨-, hhanded⟩ := handOver_ok h hm hn hlength
  have hname : (g.handOver old new).name? old = some m.name := by
    rw [hhanded.name, name?, hm, Option.map_some]
  exact (pruned_handOver h hm hn hlength).free hhanded.wellFormed hname hgone

theorem replaceNode_done (hstays : ¬ (g.handOver old new).DeadCone old new) :
    ∃ g', exec (replaceNode old new : Edit α GraphError Unit) g = .ok (.ok (), g') ∧ g'.WellFormed ∧
      (∀ v, g'.isLive v = true ↔ g.isLive v = true ∧ ¬ (g.handOver old new).DeadCone old v) ∧
      (∀ v, g'.face? v =
        ((g.handOver old new).without ((g.handOver old new).DeadCone old)).face? v) ∧
      (∀ v, g'.name? v = if v = new ∧ g'.isLive old = false then some m.name
        else ((g.handOver old new).without ((g.handOver old new).DeadCone old)).name? v) ∧
      g'.attributes =
        ((g.handOver old new).without ((g.handOver old new).DeadCone old)).attributes := by
  obtain ⟨-, hhanded⟩ := handOver_ok h hm hn hlength
  rw [exec_replaceNode h hm hn hlength, removeDead_handOver h hm hn hlength]
  have hlive : ∀ v, ((g.handOver old new).without ((g.handOver old new).DeadCone old)).isLive v = true ↔
      g.isLive v = true ∧ ¬ (g.handOver old new).DeadCone old v := fun v => by
    rw [isLive_without, hhanded.isLive]
  obtain ⟨g', hexec, hwf', -, hface, hnames, hattributes⟩ := takeName_ok
    (pruned_handOver h hm hn hlength).wellFormed ((hlive new).mpr ⟨isLive_of_node? hn, hstays⟩)
    (nodeByName?_without h hm hn hlength)
  refine ⟨g', hexec, hwf', fun v => ?_, hface, fun v => ?_, hattributes⟩
  · rw [isLive_eq_face, hface, ← isLive_eq_face, hlive]
  · rw [hnames]
    refine if_congr (and_congr_right fun _ => ?_) rfl rfl
    rw [isLive_eq_face, hface, ← isLive_eq_face, isLive, Option.isSome_eq_false_iff,
      Option.isNone_iff_eq_none]

theorem replaceNode_succeeds (hfiled : g.attributes.Filed)
    (hstays : ¬ (g.handOver old new).DeadCone old new) :
    ∃ g', exec (replaceNode old new : Edit α GraphError Unit) g = .ok (.ok (), g') ∧
      Succeeds g g' old new := by
  obtain ⟨-, hhanded⟩ := handOver_ok h hm hn hlength
  obtain ⟨g', hexec, hwf, hlive, hface, hnames, hattributes⟩ := replaceNode_done h hm hn hlength hstays
  have hfaces : ∀ v f, g.face? v = some f → g'.isLive v = true →
      g'.face? v = some (f.replace v old new) := fun v f hf hv => by
    rw [hface, face?_without, if_neg ((hlive v).mp hv).2, hhanded.face, hf, Option.map_some]
  refine ⟨g', hexec, hwf, hlive, (hlive new).mpr ⟨isLive_of_node? hn, hstays⟩,
    hfaces, fun v i s hs hv => ?_, fun target kind howner hv => ?_, fun target kind howner => ?_, ?_,
    fun hgone => ?_, fun v hv hold => ?_⟩
  · rw [input?_eq_face] at hs ⊢
    obtain ⟨f, hf, hi⟩ := Option.bind_eq_some_iff.mp hs
    rw [hfaces v f hf hv, Option.bind_some, Face.input_replace, hi, Option.map_some]
  · rw [hattributes, get?_without _ ((hlive _).mp hv).2, hhanded.attributes,
      AttributeStore.get?_copyNode howner]
  · rw [hattributes, get?_without _ (howner ▸ hstays), hhanded.attributes,
      AttributeStore.get?_copyNode_owner hfiled howner]
  · rw [← hhanded.deadCone_old_iff hm, ← Bool.not_eq_true, hlive]
    simp [isLive_of_node? hm]
  · rw [hnames, if_pos ⟨rfl, hgone⟩, name?, hm, Option.map_some]
  · rw [hnames, if_neg, name?_without, if_neg ((hlive v).mp hv).2, hhanded.name]
    rintro ⟨rfl, hgone⟩
    exact Bool.noConfusion (hgone.symm.trans (hold rfl))

theorem replaceNode_fails (hdies : (g.handOver old new).DeadCone old new) :
    exec (replaceNode old new : Edit α GraphError Unit) g =
      .ok (.error (.unknownNode new), (g.handOver old new).without ((g.handOver old new).DeadCone old)) := by
  obtain ⟨k, hk, hkind, hreaders⟩ := hdies.root
  have hgone : ∀ v, (g.handOver old new).DeadCone old v →
      ((g.handOver old new).without ((g.handOver old new).DeadCone old)).node? v = none := fun v hv => by
    rw [node?_without, if_pos hv]
  have hold := hgone old (.start hk hkind hreaders)
  rw [exec_replaceNode h hm hn hlength, removeDead_handOver h hm hn hlength,
    exec_bind_ok (Edit.exec_read _ _), hold]
  simp only [Option.isNone_none, ↓reduceIte]
  rw [Edit.exec_step, rename, nodeByName?_without h hm hn hlength hold]
  dsimp only
  rw [Update.on_bind_error (on_node_none (hgone new hdies))]

end Outcome

structure Displaced (g g' : Graph α) (old new : NodeId) : Prop where
  wellFormed : g'.WellFormed
  stays : g'.isLive new = true
  face (v : NodeId) (f' : Face α) : g'.face? v = some f' → ∃ f, g.face? v = some f ∧ f' = f.replace v old new
  gone : (∀ f, g.face? old = some f → ¬ f.kind.IsInterface) → old ≠ new → ¬ g.Reads new old →
    g'.isLive old = false
  behind (u v : NodeId) : g.Reads u v → v ≠ old → v ≠ new →
    (∀ f, g.face? v = some f → ¬ f.kind.IsInterface) → (∀ w, g.Reads w v → g'.isLive w = false) →
      g'.isLive v = false
  lost (P : NodeId → Prop) : P old → (∀ u v, P u → g.Reads u v → g'.isLive v = false → P v) →
    ∀ v, g.isLive v = true → g'.isLive v = false → P v

namespace Displaced

variable {s : Slot} {i : Nat}

theorem live (h : Displaced g g' old new) (hv : g'.isLive v = true) : g.isLive v = true := by
  obtain ⟨f', hf'⟩ := isLive_iff_face.mp hv
  obtain ⟨f, hf, -⟩ := h.face v f' hf'
  exact isLive_iff_face.mpr ⟨f, hf⟩

theorem kind (h : Displaced g g' old new) (hv : g'.isLive v = true) : g'.kind? v = g.kind? v := by
  obtain ⟨f', hf'⟩ := isLive_iff_face.mp hv
  obtain ⟨f, hf, rfl⟩ := h.face v f' hf'
  rw [kind?_eq_face, kind?_eq_face, hf', hf, Option.map_some, Option.map_some, Face.kind, Face.op_replace,
    Face.kind]

theorem input (h : Displaced g g' old new) (hv : g'.isLive v = true) :
    g'.input? v i = (g.input? v i).map fun s => if v ≠ new ∧ s.node = old then ⟨new, s.index⟩ else s := by
  obtain ⟨f', hf'⟩ := isLive_iff_face.mp hv
  obtain ⟨f, hf, rfl⟩ := h.face v f' hf'
  rw [input?_eq_face, input?_eq_face, hf', hf, Option.bind_some, Option.bind_some, Face.input_replace]

theorem input_kept (h : Displaced g g' old new) (hv : g'.isLive v = true) (hi : g.input? v i = some s)
    (hs : s.node ≠ old) : g'.input? v i = some s := by
  rw [h.input hv, hi, Option.map_some, if_neg fun hmoved => hs hmoved.2]

theorem input_moved (h : Displaced g g' old new) (hv : g'.isLive v = true) (hi : g.input? v i = some s)
    (hnew : v ≠ new) (hs : s.node = old) : g'.input? v i = some ⟨new, s.index⟩ := by
  rw [h.input hv, hi, Option.map_some, if_pos ⟨hnew, hs⟩]

end Displaced

theorem HandedOver.reads (h : HandedOver g g' old new) {u : NodeId} (hread : g'.Reads u v) :
    v = new ∧ u ≠ new ∧ g.Reads u old ∨ g.Reads u v ∧ (u ≠ new → v ≠ old) := by
  obtain ⟨i, s, hs, rfl⟩ := hread
  rw [input?_eq_face, h.face] at hs
  obtain ⟨_, hf', hs⟩ := Option.bind_eq_some_iff.mp hs
  obtain ⟨f, hf, rfl⟩ := Option.map_eq_some_iff.mp hf'
  rw [Face.input_replace] at hs
  obtain ⟨t, ht, rfl⟩ := Option.map_eq_some_iff.mp hs
  have hread : g.Reads u t.node := ⟨i, t, by rw [input?_eq_face, hf]; exact ht, rfl⟩
  by_cases hmoved : u ≠ new ∧ t.node = old
  · rw [if_pos hmoved]
    exact .inl ⟨rfl, hmoved.1, hmoved.2 ▸ hread⟩
  · rw [if_neg hmoved]
    exact .inr ⟨hread, fun hu ht => hmoved ⟨hu, ht⟩⟩

theorem HandedOver.reads_of_reads (h : HandedOver g g' old new) {u : NodeId} (hread : g.Reads u v)
    (hv : v ≠ old) : g'.Reads u v := by
  obtain ⟨i, s, hs, rfl⟩ := hread
  rw [input?_eq_face] at hs
  obtain ⟨f, hf, hs⟩ := Option.bind_eq_some_iff.mp hs
  refine ⟨i, s, ?_, rfl⟩
  rw [input?_eq_face, h.face, hf, Option.map_some, Option.bind_some, Face.input_replace, hs,
    Option.map_some, if_neg fun hmoved => hv hmoved.2]

theorem DeadCone.of_reads {id u : NodeId} (hg : g.WellFormed) (hu : g.DeadCone id u) (hread : g.Reads u v)
    (hkind : ∀ f, g.face? v = some f → ¬ f.kind.IsInterface)
    (hall : ∀ w, g.Reads w v → g.DeadCone id w) : g.DeadCone id v := by
  obtain ⟨i, s, hs, rfl⟩ := hread
  obtain ⟨k, hk, hi⟩ := input?_eq_some.mp hs
  obtain ⟨n, hn⟩ := hg.live_of_input hs
  refine .producer hu hk (List.mem_map.mpr ⟨s, List.mem_of_getElem? hi, rfl⟩) hn
    (hkind n.face (face?_eq_some.mpr ⟨n, hn, rfl⟩)) fun r hr => ?_
  obtain ⟨t, ht, hnode⟩ := (hg.mem_allReaders hn).mp hr
  exact hall r.node ⟨r.index, t, ht, hnode⟩

theorem DeadCone.induction {id : NodeId} {P : NodeId → Prop} (hv : g.DeadCone id v) (hid : P id)
    (hup : ∀ u v, P u → g.Reads u v → g.DeadCone id u → g.DeadCone id v → P v) : P v := by
  induction hv with
  | start => exact hid
  | @producer u v m n hu hm hmem hn hkind hall ih _ =>
    obtain ⟨s, hs, rfl⟩ := List.mem_map.mp hmem
    obtain ⟨i, hi⟩ := List.getElem?_of_mem hs
    exact hup u s.node ih ⟨i, s, input?_eq_some.mpr ⟨m, hm, hi⟩, rfl⟩ hu
      (.producer hu hm hmem hn hkind hall)

theorem replaced_of_run (h : g.WellFormed)
    (hrun : exec (replaceNode old new : Edit α GraphError Unit) g = .ok (.ok (), g')) :
    ∃ m n, g.node? old = some m ∧ g.node? new = some n ∧ m.outputs.length = n.outputs.length ∧
      ¬ (g.handOver old new).DeadCone old new := by
  obtain ⟨f, f', hf, hf', hports, -⟩ := replaceNode_substituted h hrun
  obtain ⟨m, hm, rfl⟩ := face?_eq_some.mp hf
  obtain ⟨n, hn, rfl⟩ := face?_eq_some.mp hf'
  have hlength : m.outputs.length = n.outputs.length := by simpa [Node.face] using hports
  refine ⟨m, n, hm, hn, hlength, fun hdies => ?_⟩
  rw [replaceNode_fails h hm hn hlength hdies] at hrun
  cases hrun

theorem names_of_replaceNode (h : g.WellFormed)
    (hrun : exec (replaceNode old new : Edit α GraphError Unit) g = .ok (.ok (), g')) :
    (g'.isLive old = false → g'.name? new = g.name? old) ∧
      ∀ w, w ≠ new → g'.isLive w = true → g'.name? w = g.name? w := by
  obtain ⟨m, n, hm, hn, hlength, hstays⟩ := replaced_of_run h hrun
  obtain ⟨-, hhanded⟩ := handOver_ok h hm hn hlength
  obtain ⟨g₁, hexec, -, hlive, -, hnames, -⟩ := replaceNode_done h hm hn hlength hstays
  cases hrun.symm.trans hexec
  refine ⟨fun hgone => ?_, fun w hw hwlive => ?_⟩
  · rw [hnames, if_pos ⟨rfl, hgone⟩, name?, hm, Option.map_some]
  · rw [hnames, if_neg fun h => hw h.1, name?_without, if_neg ((hlive w).mp hwlive).2, hhanded.name]

theorem displaced_of_replaceNode (h : g.WellFormed)
    (hrun : exec (replaceNode old new : Edit α GraphError Unit) g = .ok (.ok (), g')) :
    Displaced g g' old new := by
  obtain ⟨m, n, hm, hn, hlength, hstays⟩ := replaced_of_run h hrun
  obtain ⟨-, hhanded⟩ := handOver_ok h hm hn hlength
  obtain ⟨g₁, hexec, hwf, hlive, hface, -⟩ := replaceNode_done h hm hn hlength hstays
  cases hrun.symm.trans hexec
  have hgone : ∀ v, g.isLive v = true → (g'.isLive v = false ↔ (g.handOver old new).DeadCone old v) :=
    fun v hv => by rw [← Bool.not_eq_true, hlive, not_and_not_right, forall_prop_of_true hv]
  have hdead : ∀ w v, g.Reads w v → g'.isLive w = false → (g.handOver old new).DeadCone old w :=
    fun w v hread => (hgone w hread.live).mp
  have hkinds : ∀ v, (∀ f, g.face? v = some f → ¬ f.kind.IsInterface) →
      ∀ f, (g.handOver old new).face? v = some f → ¬ f.kind.IsInterface := fun v hkind k hk => by
    rw [hhanded.face] at hk
    obtain ⟨l, hl, rfl⟩ := Option.map_eq_some_iff.mp hk
    rw [Face.kind, Face.op_replace]
    exact hkind l hl
  refine ⟨hwf, (hlive new).mpr ⟨isLive_of_node? hn, hstays⟩, fun v k' hk' => ?_,
    fun hkind hne hnew => ?_, fun u v hread hold hnew hkind hall => ?_, fun P hold hup v hv hlost => ?_⟩
  · have hv := ((hlive v).mp (isLive_iff_face.mpr ⟨_, hk'⟩)).2
    rw [hface, face?_without, if_neg hv, hhanded.face] at hk'
    obtain ⟨k, hk, rfl⟩ := Option.map_eq_some_iff.mp hk'
    exact ⟨k, hk, rfl⟩
  · rw [hgone old (isLive_of_node? hm), hhanded.deadCone_old_iff hm]
    refine ⟨hkind, fun u hread => ?_⟩
    rcases hhanded.reads hread with ⟨heq, -⟩ | ⟨hread, hu⟩
    · exact hne heq
    · by_cases heq : u = new
      · exact hnew (heq ▸ hread)
      · exact hu heq rfl
  · refine (hgone v (h.live_of_reads hread)).mpr (.of_reads hhanded.wellFormed
      (hdead u v hread (hall u hread)) (hhanded.reads_of_reads hread hold) (hkinds v hkind) fun w hw => ?_)
    rcases hhanded.reads hw with ⟨heq, -⟩ | ⟨hw, -⟩
    · exact absurd heq hnew
    · exact hdead w v hw (hall w hw)
  · refine ((hgone v hv).mp hlost).induction hold fun u w hu hread hcone hw => ?_
    rcases hhanded.reads hread with ⟨rfl, -⟩ | ⟨hread, -⟩
    · exact absurd hw hstays
    · exact hup u w hu hread ((hgone w (h.live_of_reads hread)).mpr hw)

/-- Unless the new node dies with the old one, a replacement that fails leaves the graph and its
attributes as they were. -/
theorem replaceNode_all_or_nothing (h : g.WellFormed) (hfiled : g.attributes.Filed)
    (hstays : ¬ (g.handOver old new).DeadCone old new) :
    ((∃ e, exec (replaceNode old new : Edit α GraphError Unit) g = .ok (.error e, g)) ∧
      (g.isLive old = false ∨ g.isLive new = false ∨ g.outputCount old ≠ g.outputCount new)) ∨
    ∃ g', exec (replaceNode old new : Edit α GraphError Unit) g = .ok (.ok (), g') ∧
      Succeeds g g' old new := by
  cases hm : g.node? old with
  | none =>
    have hold : exec (Edit.ofExcept (·.node old) : Edit α GraphError (Node α)) g =
        .ok (.error (.unknownNode old), g) := by rw [Edit.exec_ofExcept, node, hm]
    refine .inl ⟨⟨.unknownNode old, ?_⟩, .inl (by simp [isLive, hm])⟩
    rw [replaceNode, exec_bind_error hold]
  | some m =>
    cases hn : g.node? new with
    | none =>
      have hnew : exec (Edit.ofExcept (·.node new) : Edit α GraphError (Node α)) g =
          .ok (.error (.unknownNode new), g) := by rw [Edit.exec_ofExcept, node, hn]
      refine .inl ⟨⟨.unknownNode new, ?_⟩, .inr (.inl (by simp [isLive, hn]))⟩
      rw [replaceNode, exec_bind_ok (exec_ofExcept_node hm), exec_bind_error hnew]
    | some n =>
      by_cases hlength : m.outputs.length = n.outputs.length
      · exact .inr (replaceNode_succeeds h hm hn hlength hfiled hstays)
      · refine .inl ⟨⟨.portCountMismatch m.outputs.length n.outputs.length, ?_⟩, .inr (.inr ?_)⟩
        · rw [replaceNode, exec_bind_ok (exec_ofExcept_node hm), exec_bind_ok (exec_ofExcept_node hn)]
          simp only [ne_eq, hlength, not_false_eq_true, ↓reduceIte]
          rw [exec_bind_error (exec_throw _ _)]
        · rwa [outputCount_of_node hm, outputCount_of_node hn]

section Fixed

def reluPorts : List Port := [⟨.f32, some [1]⟩]

def trailing : Graph Rat := assemble [("p", .parameter, [], reluPorts),
  ("first", .relu, [⟨0, 0⟩], reluPorts), ("second", .relu, [⟨1, 0⟩], reluPorts)]

theorem replaceNode_not_all_or_nothing : trailing.WellFormed ∧ trailing.attributes.Filed ∧
    ∃ g', exec (replaceNode 2 1 : Edit Rat GraphError Unit) trailing =
      .ok (.error (.unknownNode 1), g') ∧ g'.liveNodes.map Prod.fst = [0] ∧
      trailing.liveNodes.map Prod.fst = [0, 1, 2] := by
  have hrun : (exec (replaceNode 2 1 : Edit Rat GraphError Unit) trailing).map
      (fun r => (r.1, r.2.liveNodes.map Prod.fst)) = .ok (.error (.unknownNode 1), [0]) := by decide +kernel
  obtain ⟨⟨r, g'⟩, hexec, hviews⟩ := except_map_eq_ok.mp hrun
  obtain ⟨rfl, hids⟩ := Prod.mk.injEq .. ▸ hviews
  exact ⟨(assemble_ordered _).1, .empty, g', hexec, hids, by decide +kernel⟩

def twins : Graph Rat :=
  { assemble [("p", .parameter, [], reluPorts), ("first", .relu, [⟨0, 0⟩], reluPorts),
      ("second", .relu, [⟨0, 0⟩], reluPorts), ("r", .result, [⟨1, 0⟩], [])] with
    attributes := (AttributeStore.empty.set (.node 1) (.precisionPreserved true)).set (.node 2)
      (.precisionRestriction []) }

theorem replaceNode_all_or_nothing_of_twins : twins.WellFormed ∧ twins.attributes.Filed ∧
    ¬ (twins.handOver 1 2).DeadCone 1 2 ∧
    ∃ g', exec (replaceNode 1 2 : Edit Rat GraphError Unit) twins = .ok (.ok (), g') ∧
      Succeeds twins g' 1 2 := by
  have hwf : twins.WellFormed :=
    (assemble_ordered _).1.of_views rfl (fun _ => rfl) (fun _ _ => rfl) fun _ => rfl
  have hfiled : twins.attributes.Filed := (AttributeStore.Filed.empty.set _ _).set _ _
  have hstays : ¬ (twins.handOver 1 2).DeadCone 1 2 := fun hcone =>
    (lost_of_deadCone (wellFormed_handOver hwf 1 2) hcone).2 (by decide +kernel)
  refine ⟨hwf, hfiled, hstays, (replaceNode_all_or_nothing hwf hfiled hstays).resolve_left ?_⟩
  rintro ⟨-, h⟩
  revert h
  decide

end Fixed

end Graph

end LowPrecision
