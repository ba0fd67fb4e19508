import LowPrecision.Proofs.Graph.Inheritance
import LowPrecision.Proofs.Graph.Regions
import LowPrecision.Proofs.Rewrite.Rules

namespace LowPrecision

open LowPrecision.Graph

variable {α β γ ε : Type} {g₀ g : Graph α} {replaced : NodeId → NodeId → Prop}

section Steps

def Graph.Makes (g : Graph α) (id : NodeId) (g' : Graph α) : Prop :=
  Spares g g' ∧ g.nodes.size ≤ id

theorem Edit.leaves_addNode (base : String) (op : Op α) (inputs : List Slot) (outputs : List Port) :
    Leaves (Spares g₀) g₀.Makes (Spares g₀) (Edit.addNode base op inputs outputs) := by
  refine Leaves.adapt fun g r g' hg hrun => ?_
  have hspared := Spares.addNode g (g.uniqueName base) op inputs outputs
  rw [exec_answer, Except.ok.injEq, addUniqueNode] at hrun
  rw [hrun] at hspared
  refine ⟨hg.trans hspared, fun id hr => ⟨hg.trans hspared, ?_⟩⟩
  rcases addNode_cases g (g.uniqueName base) op inputs outputs with ⟨e, he⟩ | ⟨-, -, hok⟩
  · cases hr
    exact absurd (hrun.symm.trans he) (by simp)
  · cases hr
    cases hrun.symm.trans hok
    exact hg.size

theorem Edit.sized_addNode {c : Nat} (base : String) (op : Op α) (inputs : List Slot) (outputs : List Port) :
    Leaves (fun g => g.nodes.size = c) (fun id g => g.nodes.size = c + 1 ∧ id = c) (fun _ => True)
      (Edit.addNode base op inputs outputs) := by
  refine Leaves.adapt fun g r g' hg hrun => ⟨trivial, fun id hid => ?_⟩
  subst hid
  rw [exec_answer, Except.ok.injEq, addUniqueNode] at hrun
  rcases addNode_cases g (g.uniqueName base) op inputs outputs with ⟨e, he⟩ | ⟨-, -, hok⟩
  · cases hrun.symm.trans he
  · cases hrun.symm.trans hok
    exact ⟨by simp [hg], hg⟩

theorem Edit.sized_addConstant {c : Nat} (base : String) (value : Tensor α) (type : ElementType) :
    Leaves (fun g => g.nodes.size = c) (fun _ g => g.nodes.size = c + 1) (fun _ => True)
      (Edit.addConstant base value type) :=
  Leaves.map ((Edit.sized_addNode base (.constant value) [] [⟨type, some value.shape⟩]).weaken
    (fun _ _ h => h.1) fun _ h => h)

theorem Edit.leaves_addConstant (base : String) (value : Tensor α) (type : ElementType) :
    Leaves (Spares g₀) (fun slot => g₀.Makes slot.node) (Spares g₀)
      (Edit.addConstant base value type) :=
  Leaves.map (Edit.leaves_addNode base (.constant value) [] [⟨type, some value.shape⟩])

theorem Edit.silent_read (f : Graph α → β) : Silent (Edit.read f : Edit α ε β) := by
  intro g r g' h
  cases h
  rfl

section Sizes

variable {c : Nat}

theorem sized_answer {f : Graph α → Except ε β × Graph α}
    (hf : ∀ g, (f g).2.nodes.size = g.nodes.size) :
    Stays (fun g => g.nodes.size = c) (fun _ => True) (Edit.answer f) := by
  intro g r g' hg hrun
  have hsize := hf g
  rw [Edit.exec_answer, Except.ok.injEq] at hrun
  rw [hrun] at hsize
  exact ⟨hsize.trans hg, fun _ _ => trivial⟩

theorem sized_change {f : Graph α → Graph α} (hf : ∀ g, (f g).nodes.size = g.nodes.size) :
    Stays (fun g => g.nodes.size = c) (fun _ => True) (Edit.change f : Edit α ε Unit) := by
  intro g r g' hg hrun
  cases hrun
  exact ⟨(hf g).trans hg, fun _ _ => trivial⟩

theorem sized_replaceOutput (old new : Slot) : Stays (fun g => g.nodes.size = c) (fun _ => True)
    (replaceOutput old new : Edit α GraphError Unit) := by
  intro g r g' hg hrun
  rw [replaceOutput, exec_bind_ok (Edit.exec_read _ g)] at hrun
  have hrewire : ∀ slots, Stays (fun g : Graph α => g.nodes.size = c) (fun _ => True)
      (rewire slots new) :=
    fun slots => Stays.forM fun slot _ => sized_answer fun g => size_setInput g slot.node slot.index new
  exact hrewire _ g r g' hg hrun

theorem sized_replaceNode (old new : NodeId) : Stays (fun g => g.nodes.size = c) (fun _ => True)
    (replaceNode old new : Edit α GraphError Unit) := by
  apply (Edit.silent_ofExcept _).stays.bind
  intro oldNode
  apply (Edit.silent_ofExcept _).stays.bind
  intro newNode
  have hmove : Stays (fun g : Graph α => g.nodes.size = c) (fun _ => True) (do
      (List.range oldNode.outputs.length).forM fun index => replaceOutput ⟨old, index⟩ ⟨new, index⟩
      Edit.change fun g => { g with attributes := g.attributes.copyNode old new }
      Edit.change (·.removeDead [old])
      if (← Edit.read (·.node? old)).isNone then
        Edit.step (·.rename new oldNode.name) : Edit α GraphError Unit) := by
    apply (Stays.forM fun index _ => sized_replaceOutput _ _).bind
    intro _
    refine Stays.bind (sized_change fun g : Graph α => rfl) fun _ => ?_
    apply (sized_change fun g => size_removeDead g [old]).bind
    intro _
    apply (Edit.silent_read _).stays.bind
    intro found
    split
    · exact sized_answer fun g => size_rename g new oldNode.name
    · exact .pure _
  split
  · exact Silent.stays fun g r g' hrun => by cases hrun; rfl
  · exact hmove

end Sizes

theorem Graph.Makes.stays {x : Edit α TransformError β} {f : β → NodeId}
    (h : Leaves (Spares g₀) (fun b => g₀.Makes (f b)) (Spares g₀) x) :
    Stays (Spares g₀) (fun _ => True) x :=
  (h.weaken (fun _ _ hb => hb.1) fun _ hg => hg).stays

theorem stays_ofGraph {p : Graph α → Prop} {x : Edit α GraphError β}
    (h : Stays p (fun _ => True) x) : Stays p (fun _ => True) (Edit.ofGraph x) :=
  h.adapt fun _ _ => trivial

end Steps

namespace Dequantization

section Chains

variable [Arithmetic α]

theorem stays_addZeroPoint (base : String) (zeroPoint : Tensor α) (precision : ElementType) :
    Stays (Spares g₀) (fun _ => True) (addZeroPoint base zeroPoint precision) := by
  rw [addZeroPoint]
  split
  · apply (Makes.stays (Edit.leaves_addConstant _ _ _)).bind
    intro constant
    apply (Makes.stays (f := id) (Edit.leaves_addNode _ _ _ _)).bind
    intro convert
    exact .pure _
  · exact Makes.stays (Edit.leaves_addConstant _ _ _)

omit [Arithmetic α] in
theorem stays_addConvert (source : Slot) (port : Port) (base : String) :
    Stays (Spares g₀) (fun _ => True) (addConvert (α := α) source port base) := by
  rw [addConvert]
  split
  · exact .pure _
  · apply (Makes.stays (f := id) (Edit.leaves_addNode _ _ _ _)).bind
    intro convert
    exact .pure _

theorem stays_addSubtract (current : Slot) (port : Port) (zeroPoint : Option (Tensor α))
    (base : String) :
    Stays (Spares g₀) (fun _ => True) (addSubtract current port zeroPoint base) := by
  cases zeroPoint with
  | none => exact .pure _
  | some zeroPoint =>
    apply (stays_addZeroPoint _ _ _).bind
    intro constant
    apply (Makes.stays (f := id) (Edit.leaves_addNode _ _ _ _)).bind
    intro subtract
    exact .pure _

omit [Arithmetic α] in
theorem leaves_addMultiply (current : Slot) (port : Port) (scale : Tensor α) (base : String) :
    Leaves (Spares g₀) (fun multiply => g₀.Makes multiply.1) (Spares g₀)
      (addMultiply current port scale base) := by
  apply (Makes.stays (Edit.leaves_addConstant _ _ _)).leaves.bind
  intro constant
  apply (Edit.leaves_addNode _ _ _ _).bind
  intro multiply
  exact .pure (fun _ h => h.1) fun _ h => h

def EndsAnew (g : Graph α) (d : Dequantization α) : Prop :=
  ∃ multiply, d.multiply = some multiply ∧ g.nodes.size ≤ multiply.1

theorem leaves_insert (source : Slot) (slots : List Slot) (params : AffineParams α) (base : String) :
    Leaves (Spares g₀) (fun d g => Spares g₀ g ∧ EndsAnew g₀ d) (Spares g₀)
      (insert source slots params base) := by
  have hbuild : Leaves (Spares g₀) (fun d g => Spares g₀ g ∧ EndsAnew g₀ d) (Spares g₀)
      (build source params base) := by
    rw [build]
    apply ((Edit.silent_port source).leaves fun _ h => h).bind
    intro port
    apply (stays_addConvert _ _ _).leaves.bind
    intro convert
    apply (stays_addSubtract _ _ _ _).leaves.bind
    intro subtract
    apply (leaves_addMultiply _ _ _ _).bind
    intro multiply
    exact .pure (fun _ h => h.1) fun _ h => ⟨h.1, multiply, rfl, h.2⟩
  refine hbuild.bind fun chain => .of_fact fun hends => ?_
  apply (stays_ofGraph (stays_rewire _ _)).leaves.bind
  intro _
  exact .pure (fun _ h => h) fun _ h => ⟨h, hends⟩

theorem stays_insert (source : Slot) (slots : List Slot) (params : AffineParams α) (base : String) :
    Stays (Spares g₀) (fun _ => True) (insert source slots params base) :=
  ((leaves_insert source slots params base).weaken (fun _ _ h => h.1) fun _ h => h).stays

end Chains

end Dequantization

namespace Graph.KeepsMarkup

variable {old new : NodeId}

theorem stays_of_spares {x : Edit α ε β} (hx : ∀ g, Stays (Spares g) (fun _ => True) x) :
    Stays (KeepsMarkup replaced g₀) (fun _ => True) x :=
  fun g r g' h hrun => ⟨h.spared (hx g g r g' (.refl g) hrun).1, fun _ _ => trivial⟩

theorem bind_spares {fact : β → Prop} {x : Edit α ε β} {k : β → Edit α ε γ}
    (h : KeepsMarkup replaced g₀ g)
    (hx : Leaves (Spares g) (fun b g' => Spares g g' ∧ fact b) (Spares g) x)
    (hk : ∀ b, fact b → Leaves (Spares g) (fun _ => KeepsMarkup replaced g₀)
      (KeepsMarkup replaced g₀) (k b)) :
    Leaves (Spares g) (fun _ => KeepsMarkup replaced g₀) (KeepsMarkup replaced g₀) (x >>= k) := by
  apply (hx.weaken (fun _ _ hb => hb) fun _ hg => h.spared hg).bind
  intro b
  exact .of_fact (hk b)

theorem bind_stays {x : Edit α ε β} {k : β → Edit α ε γ} (h : KeepsMarkup replaced g₀ g)
    (hx : Stays (Spares g) (fun _ => True) x)
    (hk : ∀ b, Leaves (Spares g) (fun _ => KeepsMarkup replaced g₀)
      (KeepsMarkup replaced g₀) (k b)) :
    Leaves (Spares g) (fun _ => KeepsMarkup replaced g₀) (KeepsMarkup replaced g₀) (x >>= k) :=
  (hx.leaves.weaken (fun _ _ hb => hb) fun _ hg => h.spared hg).bind hk

theorem stays_of_leaves {x : Edit α ε β}
    (hx : ∀ g, KeepsMarkup replaced g₀ g → Leaves (Spares g) (fun _ => KeepsMarkup replaced g₀)
      (KeepsMarkup replaced g₀) x) :
    Stays (KeepsMarkup replaced g₀) (fun _ => True) x :=
  fun g r g' h hrun => ⟨(hx g h g r g' (.refl g) hrun).1, fun _ _ => trivial⟩

theorem leaves_throw (h : KeepsMarkup replaced g₀ g) (e : ε) :
    Leaves (Spares g) (fun _ => KeepsMarkup replaced g₀) (KeepsMarkup replaced g₀)
      (throw e : Edit α ε β) :=
  .throw fun _ hg => h.spared hg

theorem leaves_pure (h : KeepsMarkup replaced g₀ g) (b : β) :
    Leaves (Spares g) (fun _ => KeepsMarkup replaced g₀) (KeepsMarkup replaced g₀)
      (pure b : Edit α ε β) :=
  .pure (fun _ hg => h.spared hg) fun _ hg => h.spared hg

theorem leaves_replace (h : KeepsMarkup replaced g₀ g) (hreplaced : replaced old new)
    (hold : old < g₀.nodes.size) (hnew : g.nodes.size ≤ new) :
    Leaves (Spares g) (fun _ => KeepsMarkup replaced g₀) (KeepsMarkup replaced g₀)
      (Edit.ofGraph (replaceNode old new)) :=
  Leaves.adapt fun g' r g'' hg hrun =>
    leaves_replaceNode hreplaced hold g' r g'' ⟨h.spared hg, h.blank hg hnew⟩ hrun

end Graph.KeepsMarkup

namespace Rewrite

theorem stays_edit_graph {p : Graph α → Prop} {x : Edit α TransformError β}
    (h : Stays p (fun _ => True) x) :
    Stays (fun s : Session α => p s.graph) (fun _ => True) (edit x) :=
  fun s r s' hs hrun => ⟨(h s.graph r s'.graph hs (exec_edit_eq.mp hrun).1).1, fun _ _ => trivial⟩

theorem leaves_edit {p left : Graph α → Prop} {post : β → Graph α → Prop}
    {x : Edit α TransformError β} (h : Leaves p post left x) :
    Leaves (fun s : Session α => p s.graph) (fun b s => post b s.graph) (fun s => left s.graph)
      (edit x) :=
  fun s r s' hs hrun => h s.graph r s'.graph hs (exec_edit_eq.mp hrun).1

theorem stays_changeContext {p : Graph α → Prop} (f : Context → Context) :
    Stays (fun s : Session α => p s.graph) (fun _ => True) (changeContext f) := by
  intro s r s' hs hrun
  cases hrun
  exact ⟨hs, fun _ _ => trivial⟩

end Rewrite

section Rules

variable {id : NodeId}

theorem leaves_addFakeQuantize (low high : Tensor α) (type : ElementType) :
    Leaves (Spares g₀) g₀.Makes (Spares g₀) (addFakeQuantize id low high type) := by
  apply ((Edit.silent_node id).leaves fun _ h => h).bind
  intro n
  split
  · split
    · apply ((Edit.silent_port _).leaves fun _ h => h).bind
      intro port
      apply (Makes.stays (Edit.leaves_addConstant _ _ _)).leaves.bind
      intro low
      apply (Makes.stays (Edit.leaves_addConstant _ _ _)).leaves.bind
      intro high
      exact Edit.leaves_addNode _ _ _ _
    · exact fun g r g' _ hrun => by cases hrun
  · exact .throw fun _ h => h

theorem sized_addFakeQuantize {c : Nat} (low high : Tensor α) (type : ElementType) :
    Leaves (fun g => g.nodes.size = c) (fun v g => g.nodes.size = c + 3 ∧ v = c + 2) (fun _ => True)
      (addFakeQuantize id low high type) := by
  apply ((Edit.silent_node id).leaves fun _ _ => trivial).bind
  intro n
  split
  · split
    · apply ((Edit.silent_port _).leaves fun _ _ => trivial).bind
      intro port
      apply (Edit.sized_addConstant _ _ _).bind
      intro low
      apply (Edit.sized_addConstant _ _ _).bind
      intro high
      exact Edit.sized_addNode _ _ _ _
    · exact fun g r g' _ hrun => by cases hrun
  · exact .throw fun _ _ => trivial

variable (hreplaced : ∀ new, replaced id new) (hid : id < g₀.nodes.size)
include hreplaced hid

theorem stays_lowerKernel [Arithmetic α] (operands : List Slot) (scale : Tensor α) :
    Stays (KeepsMarkup replaced g₀) (fun _ => True) (lowerKernel id operands scale) := by
  apply KeepsMarkup.stays_of_leaves
  intro g h
  apply h.bind_stays (Edit.silent_node id).stays
  intro n
  apply h.bind_stays (Edit.silent_port _).stays
  intro port
  apply h.bind_spares (Edit.leaves_addNode _ _ _ _)
  intro lowered hnew
  apply h.bind_stays (stays_ofGraph (stays_answer fun g => .setRelaxed g _ _))
  intro _
  have hinsert : Stays (Spares g) (fun _ => True)
      (discard (Dequantization.insert ⟨lowered, 0⟩ (n.readers 0) ⟨scale, none⟩ n.name)) := by
    apply (Dequantization.stays_insert _ _ _ _).bind
    intro _
    exact .pure _
  apply h.bind_stays hinsert
  intro _
  exact h.leaves_replace (hreplaced _) hid hnew

namespace Decomposition

variable [Scalar α]

omit hreplaced hid in
theorem leaves_addSource (name : String) (p : Lowering α) (type : ElementType)
    (weights : Option (Tensor α)) :
    Leaves (Spares g₀) (fun source => g₀.Makes source.node) (Spares g₀)
      (addSource id name p type weights) := by
  cases weights with
  | some weights =>
    apply ((Edit.silent_attempt _).leaves fun _ h => h).bind
    intro folded
    exact Edit.leaves_addConstant _ _ _
  | none =>
    apply ((Edit.silent_attempt _).leaves fun _ h => h).bind
    intro low
    apply ((Edit.silent_attempt _).leaves fun _ h => h).bind
    intro high
    apply (leaves_addFakeQuantize low high type).bind
    intro lowered
    exact .pure (fun _ h => h.1) fun _ h => h

theorem stays_lower (p : Lowering α) (affine : AffineParams α) (type : ElementType) :
    Stays (KeepsMarkup replaced g₀) (fun _ => True) (lower id p affine type) := by
  apply KeepsMarkup.stays_of_leaves
  intro g h
  apply h.bind_stays (Edit.silent_node id).stays
  intro n
  split
  rotate_left
  · exact h.leaves_throw _
  apply h.bind_stays (Edit.silent_read _).stays
  intro weights
  apply h.bind_spares (leaves_addSource _ _ _ _)
  intro source hsource
  refine Leaves.bind (m := fun _ => KeepsMarkup replaced g₀) ?_ fun _ =>
    .pure (fun _ h => h) fun _ h => h
  apply h.bind_spares (Dequantization.leaves_insert _ _ _ _)
  intro chain hchain
  have hnew : g.nodes.size ≤ successor weights source chain := by
    obtain ⟨multiply, hmultiply, hlast⟩ := hchain
    cases weights with
    | none => exact hsource
    | some weights => simpa [successor, hmultiply] using hlast
  apply (h.leaves_replace (hreplaced _) hid hnew).bind
  intro _
  exact .pure (fun _ h => h) fun _ h => h

theorem stays_decompose : Stays (fun s : Session α => KeepsMarkup replaced g₀ s.graph)
    (fun _ => True) (decompose (α := α) id) := by
  apply (Rewrite.stays_edit_graph (Edit.silent_ofExcept _).stays).bind
  intro r
  apply (Stays.lift _).bind
  intro bounds
  apply (Rewrite.stays_edit_graph (silent_gridOf _ _ _).stays).bind
  intro grid
  apply (Stays.lift _).bind
  intro params
  apply (Rewrite.stays_changeContext _).bind
  intro _
  apply (Rewrite.stays_edit_graph (Edit.silent_attempt _).stays).bind
  intro affine
  apply Stays.bind (Silent.stays fun s r s' h => by cases h; rfl)
  intro context
  apply (Rewrite.stays_edit_graph (stays_lower hreplaced hid _ _ _)).bind
  intro lowered
  apply (Rewrite.stays_changeContext _).bind
  intro _
  exact .pure _

end Decomposition

theorem ConvertFusion.stays_apply (m : NodeMatch) (hm : m.node = id) :
    Stays (KeepsMarkup replaced g₀) (fun _ => True) (ConvertFusion.apply (α := α) m) := by
  apply KeepsMarkup.stays_of_leaves
  intro g h
  apply h.bind_stays (Edit.silent_read _).stays
  intro found
  split
  rotate_left
  · exact h.leaves_pure _
  apply h.bind_stays (Edit.silent_node _).stays
  intro n
  apply h.bind_spares (Edit.leaves_addNode _ _ _ _)
  intro fused hnew
  apply h.bind_stays (stays_ofGraph (stays_answer fun g => .setRelaxed g _ _))
  intro _
  rw [hm]
  apply (h.leaves_replace (hreplaced _) hid hnew).bind
  intro _
  exact .pure (fun _ h => h) fun _ h => h

theorem Sanitize.stays_apply [Scalar α] (m : NodeMatch) (hm : m.node = id) :
    Stays (KeepsMarkup replaced g₀) (fun _ => True) (Sanitize.apply (α := α) m) := by
  apply KeepsMarkup.stays_of_leaves
  intro g h
  apply h.bind_stays (Edit.silent_read _).stays
  intro found
  split
  rotate_left
  · exact h.leaves_pure _
  apply h.bind_stays (Edit.silent_node _).stays
  intro n
  apply h.bind_stays (Edit.silent_port _).stays
  intro port
  apply h.bind_spares (Edit.leaves_addConstant _ _ _)
  intro constant hnew
  rw [hm]
  apply (h.leaves_replace (hreplaced _) hid hnew).bind
  intro _
  exact .pure (fun _ h => h) fun _ h => h

theorem FoldConvert.stays_apply :
    Stays (KeepsMarkup replaced g₀) (fun _ => True) (FoldConvert.apply (α := α) id) := by
  apply KeepsMarkup.stays_of_leaves
  intro g h
  apply h.bind_stays (Edit.silent_node id).stays
  intro n
  split
  rotate_left
  · exact h.leaves_pure _
  apply h.bind_stays (Edit.silent_read _).stays
  intro value
  split
  rotate_left
  · exact h.leaves_pure _
  apply h.bind_spares (Edit.leaves_addConstant _ _ _)
  intro folded hnew
  apply (h.leaves_replace (hreplaced _) hid hnew).bind
  intro _
  exact .pure (fun _ h => h) fun _ h => h

theorem RangeFusion.stays_apply [Arithmetic α] (f : α → α → α) :
    Stays (KeepsMarkup replaced g₀) (fun _ => True) (RangeFusion.apply id f) := by
  apply KeepsMarkup.stays_of_leaves
  intro g h
  apply h.bind_stays (Edit.silent_read _).stays
  intro found
  split
  rotate_left
  · exact h.leaves_pure _
  next fakeQuantize value =>
  apply h.bind_stays (silent_bound _ 3 _ f).stays
  intro low
  apply h.bind_stays (silent_bound _ 4 _ f).stays
  intro high
  apply h.bind_stays (Edit.silent_port _).stays
  intro port
  apply h.bind_stays (Edit.silent_node _).stays
  intro n
  apply h.bind_spares (leaves_addFakeQuantize _ _ _)
  intro fused hnew
  apply (h.leaves_replace (hreplaced _) hid hnew).bind
  intro _
  have hrename : Stays (KeepsMarkup replaced g₀) (fun _ => True)
      (Edit.ofGraph (Edit.step (·.rename fused n.name))) :=
    KeepsMarkup.stays_of_spares fun _ => stays_ofGraph (stays_answer fun g => .rename g _ _)
  apply hrename.leaves.bind
  intro _
  exact .pure (fun _ h => h) fun _ h => h

omit hreplaced hid in
theorem stays_moveDequantization [Arithmetic α] (chain : Dequantization α) (params : AffineParams α)
    (updatePrecision : Bool) :
    Stays (KeepsMarkup replaced g₀) (fun _ => True)
      (moveDequantization id chain params updatePrecision) := by
  have hstep : ∀ {f : Graph α → Except GraphError Unit × Graph α}, (∀ g, Spares g (f g).2) →
      Stays (KeepsMarkup replaced g₀) (fun _ => True) (Edit.ofGraph (Edit.step f)) := by
    intro f hf
    exact KeepsMarkup.stays_of_spares fun _ => stays_ofGraph (stays_answer hf)
  have hinsert : ∀ source slots base, Stays (KeepsMarkup replaced g₀) (fun _ => True)
      (discard (Dequantization.insert source slots params base)) := by
    intro source slots base
    apply (KeepsMarkup.stays_of_spares fun _ => Dequantization.stays_insert _ _ _ _).bind
    intro _
    exact .pure _
  apply (Edit.silent_port _).stays.bind
  intro port
  apply (Edit.silent_node _).stays.bind
  intro n
  apply (hstep fun g => .setInput g _ _ _).bind
  intro _
  have hrest : ∀ type, Stays (KeepsMarkup replaced g₀) (fun _ => True) (do
      (List.range n.outputs.length).forM fun index => do
        let readers ← Edit.read (·.readers ⟨id, index⟩)
        Edit.ofGraph (Edit.step (·.setOutputType ⟨id, index⟩ type))
        if !readers.isEmpty then
          discard (Dequantization.insert ⟨id, index⟩ readers params n.name)
      Edit.change (·.removeDead [chain.output.node]) : Edit α TransformError Unit) := by
    intro type
    refine (Stays.forM fun index _ => ?_).bind fun _ => ?_
    · apply (Edit.silent_read _).stays.bind
      intro readers
      apply (hstep fun g => .setOutputType g _ _).bind
      intro _
      split
      · exact hinsert _ _ _
      · exact .pure _
    · intro g r g' h hrun
      cases hrun
      exact ⟨h.removeDead _, fun _ _ => trivial⟩
  generalize (if updatePrecision then port.elementType else .f32) = type
  dsimp only
  split
  · apply (hstep fun g => .setRelaxed g _ _).bind
    intro _
    exact hrest type
  · exact hrest type

end Rules

namespace ConcatPlan

theorem leaves_addLowered {c : Nat} (id : NodeId) (low high : Tensor α) (type : ElementType) :
    Leaves (fun g => KeepsMarkup replaced g₀ g ∧ g.nodes.size = c)
      (fun v g => (KeepsMarkup replaced g₀ g ∧ Blank g₀ v g ∧ g.nodes.size = c + 3) ∧ v = c + 2)
      (KeepsMarkup replaced g₀) (addFakeQuantize id low high type) := by
  rintro g r g' ⟨h, hsize⟩ hrun
  have hmade := leaves_addFakeQuantize low high type g r g' (.refl g) hrun
  refine ⟨h.spared hmade.1, fun v hv => ?_⟩
  obtain ⟨hspares, hnew⟩ := hmade.2 v hv
  obtain ⟨hgrown, hv⟩ := (sized_addFakeQuantize low high type g r g' hsize hrun).2 v hv
  exact ⟨⟨h.spared hspares, h.blank hspares hnew, hgrown⟩, hv⟩

theorem leaves_swap {c : Nat} {old new : NodeId} (hreplaced : replaced old new)
    (hold : old < g₀.nodes.size) :
    Leaves (fun g => KeepsMarkup replaced g₀ g ∧ Blank g₀ new g ∧ g.nodes.size = c)
      (fun _ g => KeepsMarkup replaced g₀ g ∧ g.nodes.size = c) (KeepsMarkup replaced g₀)
      (Edit.ofGraph (replaceNode old new)) := by
  refine Leaves.adapt ?_
  rintro g r g' ⟨h, hblank, hsize⟩ hrun
  have hkeeps := (KeepsMarkup.leaves_replaceNode hreplaced hold g r g' ⟨h, hblank⟩ hrun).1
  exact ⟨hkeeps, fun _ _ => ⟨hkeeps, (sized_replaceNode old new g r g' hsize hrun).1⟩⟩

theorem leaves_lowerBoundary (type : ElementType) (branches : List (NodeId × Branch α)) {k : Nat}
    (hbranches : ∀ j b, branches[j]? = some b →
      replaced b.1 (g₀.nodes.size + 3 * (k + j) + 2) ∧ b.1 < g₀.nodes.size) :
    Leaves (fun s : Session α => KeepsMarkup replaced g₀ s.graph ∧
        s.graph.nodes.size = g₀.nodes.size + 3 * k)
      (fun _ s => KeepsMarkup replaced g₀ s.graph) (fun s => KeepsMarkup replaced g₀ s.graph)
      (lowerBoundary type branches) := by
  induction branches generalizing k with
  | nil => exact .pure (fun _ h => h.1) fun _ h => h.1
  | cons b branches ih =>
    obtain ⟨id, branch⟩ := b
    obtain ⟨hreplaced, hid⟩ := hbranches 0 (id, branch) rfl
    have hrest : ∀ j b, branches[j]? = some b →
        replaced b.1 (g₀.nodes.size + 3 * (k + 1 + j) + 2) ∧ b.1 < g₀.nodes.size := by
      intro j b hb
      rw [Nat.add_assoc k, Nat.add_comm 1 j]
      exact hbranches (j + 1) b hb
    rw [lowerBoundary]
    let before (g : Graph α) : Prop :=
      KeepsMarkup replaced g₀ g ∧ g.nodes.size = g₀.nodes.size + 3 * k
    have hnode : Leaves before (fun _ => before) (KeepsMarkup replaced g₀) (Edit.node id) :=
      (Edit.silent_node id).leaves fun _ h => h.1
    apply (Rewrite.leaves_edit hnode).bind
    intro n
    refine (Rewrite.leaves_edit (leaves_addLowered _ _ _ _)).bind fun lowered => .of_fact fun hnew => ?_
    subst hnew
    apply (Rewrite.leaves_edit (leaves_swap hreplaced hid)).bind
    intro _
    refine Leaves.bind (m := fun _ s => KeepsMarkup replaced g₀ s.graph ∧
      s.graph.nodes.size = g₀.nodes.size + 3 * (k + 1)) ?_ fun _ => ?_
    · rintro s r s' h hrun
      cases hrun
      exact ⟨h.1, fun _ _ => h⟩
    · apply (ih hrest).bind
      intro lowered
      exact .pure (fun _ h => h) fun _ h => h

theorem stays_retypeLayers_markup (type : ElementType) (layers : List NodeId) :
    Stays (KeepsMarkup replaced g₀) (fun _ => True) (retypeLayers type layers) := by
  refine Stays.forM fun id _ => ?_
  apply (Edit.silent_node id).stays.bind
  intro n
  refine Stays.forM fun index _ => ?_
  exact KeepsMarkup.stays_of_spares fun _ => stays_ofGraph (stays_answer fun g => .setOutputType g _ _)

variable [Scalar α]

theorem stays_dequantizeBehind_markup (inside : Region) (id : NodeId) (p : ChannelParams α) :
    Stays (KeepsMarkup replaced g₀) (fun _ => True) (dequantizeBehind inside id p) := by
  apply (Edit.silent_node id).stays.bind
  intro n
  refine Stays.forM fun index _ => ?_
  apply (Edit.silent_read _).stays.bind
  intro readers
  split
  · apply (Edit.silent_port _).stays.bind
    intro port
    apply (Stays.lift _).bind
    intro params
    apply (KeepsMarkup.stays_of_spares fun _ => Dequantization.stays_insert _ _ _ _).bind
    intro _
    exact .pure _
  · exact .pure _

theorem leaves_apply (plan : ConcatPlan α) (hboundary : ∀ j old, plan.region.boundary[j]? = some old →
      replaced old (g₀.nodes.size + 3 * j + 2) ∧ old < g₀.nodes.size) :
    Leaves (fun s : Session α => KeepsMarkup replaced g₀ s.graph ∧
        s.graph.nodes.size = g₀.nodes.size)
      (fun _ s => KeepsMarkup replaced g₀ s.graph) (fun s => KeepsMarkup replaced g₀ s.graph)
      plan.apply := by
  have hcontext : Silent (Rewrite.context : Rewrite α Context) := by
    intro s r s' h
    cases h
    rfl
  have hbranches : ∀ j b, (plan.region.boundary.zip plan.branches)[j]? = some b →
      replaced b.1 (g₀.nodes.size + 3 * (0 + j) + 2) ∧ b.1 < g₀.nodes.size := by
    intro j b hb
    rw [Nat.zero_add]
    exact hboundary j b.1 (List.getElem?_zip_eq_some.mp hb).1
  apply (hcontext.leaves fun _ h => h.1).bind
  intro c
  refine (leaves_lowerBoundary _ _ hbranches).bind fun lowered => Stays.leaves (q := fun _ => True) ?_
  apply (Rewrite.stays_edit_graph (stays_ofGraph (Edit.silent_attempt _).stays)).bind
  intro order
  apply (Rewrite.stays_edit_graph (stays_retypeLayers_markup _ _)).bind
  intro _
  refine (Stays.forM fun id _ => ?_).bind fun _ => ?_
  · split
    · exact Rewrite.stays_edit_graph (stays_dequantizeBehind_markup _ _ _)
    · exact .pure _
  · exact Stays.forM fun entry _ => Rewrite.stays_changeContext _

end ConcatPlan

namespace Rule

/-- Which node a rule puts in the place of which. A concatenation replaces the fake-quantizes that bound
its region, in their order and with three new nodes for each, the last of which takes over. All other
rules replace the node itself. -/
def Replaces (rule : Rule) (g : Graph α) (id old new : NodeId) : Prop :=
  match rule with
  | concat => ∃ region k, Region.around g id = .ok region ∧ region.boundary[k]? = some old ∧
      new = g.nodes.size + 3 * k + 2
  | _ => old = id

theorem stays_withPlan {p : Session α → Prop} {plan? : Option β} {f : β → Rewrite α Unit}
    (h : ∀ plan, plan? = some plan → Stays p (fun _ => True) (f plan)) :
    Stays p (fun _ => True) (withPlan plan? f) := by
  cases plan? with
  | none => exact .pure _
  | some plan => exact (h plan rfl).bind fun _ => .pure _

variable [Scalar α] {m : NodeMatch} {id : NodeId} {rule : Rule} {s s' : Session α}
  {r : Except TransformError Bool}

theorem keepsMarkup_apply (hfiled : s.graph.attributes.Filed)
    (hgone : ∀ target kind, s.graph.isLive target.owner = false →
      s.graph.attributes.get? target kind = none)
    (hm : rule.pattern.matchAt s.graph id = some m) (hrun : exec (rule.apply m) s = .ok (r, s')) :
    KeepsMarkup (rule.Replaces s.graph id) s.graph s'.graph := by
  have hstart : KeepsMarkup (rule.Replaces s.graph id) s.graph s.graph := .refl hfiled hgone
  obtain ⟨n, hn, -, rfl⟩ := Pattern.matchAt_eq_some hm
  have hid : id < s.graph.nodes.size := lt_size_of_node? hn
  have hself : rule ≠ concat → ∀ new, rule.Replaces s.graph id id new := by
    cases rule <;> simp [Replaces]
  rw [apply, exec_bind_ok (Rewrite.exec_graph s), exec_bind_ok (Rewrite.exec_context s)] at hrun
  have of_stays : ∀ {x : Rewrite α Bool}, exec x s = .ok (r, s') →
      Stays (fun t : Session α => KeepsMarkup (rule.Replaces s.graph id) s.graph t.graph)
        (fun _ => True) x → KeepsMarkup (rule.Replaces s.graph id) s.graph s'.graph :=
    fun hx hstays => (hstays s r s' hstart hx).1
  cases rule with
  | decomposition =>
    refine of_stays hrun ?_
    refine Stays.bind ?_ fun _ => .pure _
    refine Stays.bind (Decomposition.stays_decompose (hself (by simp)) hid) fun _ => .pure _
  | convertFusion =>
    exact of_stays hrun (Rewrite.stays_edit_graph (ConvertFusion.stays_apply (hself (by simp)) hid _ rfl))
  | matMul | convolution =>
    rcases exec_bind_eq_ok.mp hrun with ⟨plan?, t, hplan, hrest⟩ | ⟨e, hplan, -⟩
    rotate_left
    · exact absurd hplan (exec_lift_ne_error _ _ _ _)
    obtain ⟨-, rfl⟩ := exec_lift_eq_ok.mp hplan
    refine of_stays hrest (stays_withPlan fun plan _ => ?_)
    exact Rewrite.stays_edit_graph (stays_lowerKernel (hself (by simp)) hid _ _)
  | concat =>
    rcases exec_bind_eq_ok.mp hrun with ⟨plan?, t, hplan, hrest⟩ | ⟨e, hplan, -⟩
    rotate_left
    · exact absurd hplan (exec_lift_ne_error _ _ _ _)
    obtain ⟨hplan, rfl⟩ := exec_lift_eq_ok.mp hplan
    cases plan? with
    | none =>
      cases hrest
      exact hstart
    | some plan =>
      have hregion := (ConcatPlan.accepted_of_ofConcat? hplan).region
      have hboundary : ∀ j old, plan.region.boundary[j]? = some old →
          concat.Replaces t.graph id old (t.graph.nodes.size + 3 * j + 2) ∧
            old < t.graph.nodes.size := by
        intro j old hold
        obtain ⟨k, hk, -⟩ := (Region.closed_of_around hregion).bound old (List.mem_of_getElem? hold)
        exact ⟨⟨_, j, hregion, hold, rfl⟩, lt_size_of_node? hk⟩
      have happly := ConcatPlan.leaves_apply plan hboundary
      rcases exec_bind_eq_ok.mp hrest with ⟨⟨⟩, s₁, hplanned, hanswer⟩ | ⟨e, hplanned, -⟩
      · cases hanswer
        exact (happly t _ _ ⟨hstart, rfl⟩ hplanned).1
      · exact (happly t _ _ ⟨hstart, rfl⟩ hplanned).1
  | sanitization =>
    exact of_stays hrun (Rewrite.stays_edit_graph (Sanitize.stays_apply (hself (by simp)) hid _ rfl))
  | depthToSpace | transparent =>
    refine of_stays hrun (stays_withPlan fun plan _ => ?_)
    exact Rewrite.stays_edit_graph (stays_moveDequantization _ _ _)
  | foldConvert =>
    exact of_stays hrun (Rewrite.stays_edit_graph (FoldConvert.stays_apply (hself (by simp)) hid))
  | fuseSubtract | fuseMultiply =>
    exact of_stays hrun (Rewrite.stays_edit_graph (RangeFusion.stays_apply (hself (by simp)) hid _))

end Rule

end LowPrecision
