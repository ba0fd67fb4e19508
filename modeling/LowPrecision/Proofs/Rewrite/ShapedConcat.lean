import LowPrecision.Proofs.Graph.Order
import LowPrecision.Proofs.Rewrite.ShapedRules
import LowPrecision.Proofs.Rewrite.TracedConcat

namespace LowPrecision

variable {α : Type} {g₀ g g' : Graph α} {id : NodeId} {type : ElementType}
  {pending : Slot → Prop}

open LowPrecision.Graph

namespace ConcatPlan

section Lower

variable {s s' : Session α}

end Lower

theorem ensures_order {p : Graph α → Prop} (hp : ∀ g, p g → g.WellFormed) :
    Ensures p (fun order g => p g ∧ ∀ v, g.isLive v = true → v ∈ order) Fatal
      (Edit.ofGraph (Edit.attempt topologicalOrder) : Edit α TransformError _) := by
  refine Edit.ensures_ofGraph fun g r g' h hrun => ⟨fun order horder => ?_, fun _ _ => trivial⟩
  subst horder
  obtain ⟨hsorted, rfl⟩ := Edit.exec_attempt_eq_ok.mp hrun
  refine ⟨h, fun v hv => (topologicalOrder_sorted (hp g' h) hsorted).2.mem_iff.mpr ?_⟩
  obtain ⟨n, hn⟩ := Option.isSome_iff_exists.mp hv
  exact List.mem_map.mpr ⟨(v, n), WellFormed.mem_liveNodes.mpr hn, rfl⟩

section Behind

variable [Scalar α] {inside : Region}

theorem delivers_behindOutput {output : Slot} {base : String} (p : ChannelParams α)
    (hinside : ∀ v i s, g₀.kind? v = some .result → g₀.input? v i = some s →
      inside.contains v = false) :
    Ensures (Delivers g₀ (fun t => pending t ∨ t = output)) (fun _ => Delivers g₀ pending) Fatal (do
      let readers ← Edit.read (Region.readersOutside · inside output)
      if !readers.isEmpty then
        let params ← (p.dequantization (← Edit.port output) : Checked (AffineParams α))
        discard (Dequantization.insert output readers params base)) := by
  have hreads : ∀ g : Graph α, Delivers g₀ (fun t => pending t ∨ t = output) g →
      ∀ v i, g.kind? v = some .result → g.input? v i = some output →
        (⟨v, i⟩ : Slot) ∈ Region.readersOutside g inside output := by
    intro g h v i hk hi
    obtain ⟨o, _, _, hk₀, hi₀, -⟩ := h.reads v i output hk hi
    exact List.mem_filter.mpr ⟨h.wellFormed.mem_readers.mpr hi, by simp [hinside v i o hk₀ hi₀]⟩
  apply (Edit.ensures_read (Region.readersOutside · inside output)).bind
  intro readers
  split
  · apply (Edit.ensures_port output).bind
    intro port
    apply ((Ensures.lift _).weaken (fun _ h => h) fun _ _ h => h.2).bind
    intro params
    have hinsert : Ensures (fun g => (Delivers g₀ (fun t => pending t ∨ t = output) g ∧
        readers = Region.readersOutside g inside output) ∧ g.port? output = some port)
        (fun _ g => Delivers g₀ pending g) Fatal
        (Dequantization.insert output readers params base) := by
      rintro g r g' ⟨⟨h, rfl⟩, -⟩ hrun
      refine ⟨fun d hd => ?_, (Edit.ensures_insert Face.stable_true (fun _ _ _ => trivial) _ _
        params base g r g' (.refl h.wellFormed) hrun).2⟩
      subst hd
      exact Dequantization.delivers_behind h
        (fun r hr => h.wellFormed.mem_readers.mp (List.mem_filter.mp hr).1) (hreads g h) hrun
    exact hinsert.discard fun _ _ h => h
  · next hempty =>
    refine .pure fun g ⟨h, hreaders⟩ => h.settled fun v i hk hi => ?_
    have hmem := hreads g h v i hk hi
    rw [← hreaders] at hmem
    simp_all

theorem delivers_behind (p : ChannelParams α)
    (hinside : ∀ v i s, g₀.kind? v = some .result → g₀.input? v i = some s →
      inside.contains v = false) :
    Ensures (Delivers g₀ (fun t => pending t ∨ t.node = id)) (fun _ => Delivers g₀ pending) Fatal
      (dequantizeBehind inside id p) := by
  have hnode : Ensures (Delivers g₀ (fun t => pending t ∨ t.node = id)) (fun n => Delivers g₀ fun t =>
      pending t ∨ t.node = id ∧ t.index ∈ List.range n.outputs.length) Fatal (Edit.node id) := by
    refine (Edit.ensures_node id).weaken (fun _ h => h) fun n g ⟨h, hn⟩ =>
      h.imp fun v i t _ hi => .imp_right ?_
    rintro rfl
    obtain ⟨q, hq⟩ := h.wellFormed.exists_port hi
    have hf : g.face? t.node = some n.face := face?_eq_some.mpr ⟨n, hn, rfl⟩
    rw [port?_eq_face, hf] at hq
    refine ⟨rfl, List.mem_range.mpr ?_⟩
    simpa [Node.face] using (List.getElem?_eq_some_iff.mp hq).1
  apply hnode.bind
  intro n
  refine (Ensures.forM_suffix (fun indices => Delivers g₀ fun t =>
    pending t ∨ t.node = id ∧ t.index ∈ indices) fun c rest _ => ?_).weaken (fun _ h => h)
      fun _ g h => h.imp fun _ _ t _ _ ht => ht.resolve_right (by simp)
  refine (delivers_behindOutput p hinside).weaken (fun g h => h.imp fun _ _ t _ _ ht => ?_) fun _ _ h => h
  rcases ht with ht | ⟨hnode, hindex⟩
  · exact .inl (.inl ht)
  · rcases List.mem_cons.mp hindex with rfl | hindex
    · exact .inr (by cases t; simp_all)
    · exact .inl (.inr ⟨hnode, hindex⟩)

end Behind

end ConcatPlan

end LowPrecision
