import LowPrecision.Proofs.Rewrite.GuardedRules
import LowPrecision.Proofs.Rewrite.ShapedConcat

namespace LowPrecision

variable {α : Type} {g g₁ g' : Graph α} {type : ElementType} {lax : Prop} {layers done : NodeId → Prop}

open LowPrecision.Graph

def Region.Apart (g : Graph α) (r : Region) : Prop :=
  ∀ b ∈ r.boundary, ∀ i s, g.input? b i = some s → s.node ∉ r.members

theorem Region.apart_iff {g : Graph α} {r : Region} :
    r.Apart g ↔ ∀ b ∈ r.boundary, ∀ n ∈ g.node? b, ∀ s ∈ n.inputs, s.node ∉ r.members := by
  refine forall₂_congr fun b _ => ⟨fun h n hn s hs => ?_, fun h i s hi => ?_⟩
  · obtain ⟨i, hi⟩ := List.mem_iff_getElem?.mp hs
    exact h i s (input?_eq_some.mpr ⟨n, hn, hi⟩)
  · obtain ⟨n, hn, hs⟩ := input?_eq_some.mp hi
    exact h n hn s (List.mem_of_getElem? hs)

instance Region.decidableApart (g : Graph α) (r : Region) : Decidable (r.Apart g) :=
  decidable_of_iff _ apart_iff.symm

theorem Graph.Guarded.passes_of_preserves {pending : Slot → Prop} {busy : NodeId → Prop} {id : NodeId}
    {f : Face α} (h : Guarded lax pending busy g) (hf : g.face? id = some f)
    (hpreserves : g.preservesPrecision id = true) : f.kind.Passes := by
  rcases passing_of_preserves hpreserves with ⟨e, he, hmark, rfl⟩ | ⟨k, hk, hpasses⟩
  · exact (h.marked e he hmark).2 f hf
  · rw [kind?_eq_face, hf] at hk
    exact (Option.some.inj hk).symm ▸ hpasses

structure Lowering (lax : Prop) (type : ElementType) (layers done : NodeId → Prop) (todo : List NodeId)
    (g : Graph α) : Prop where
  guarded : g.Guarded lax (fun t => layers t.node ∨ done t.node) layers
  old (v : NodeId) : layers v ∨ done v ∨ v ∈ todo → v < g.nodes.size
  layer (v : NodeId) (f : Face α) : layers v → g.face? v = some f →
    f.kind.Passes ∧ ∀ s ∈ f.inputs, layers s.node ∨ done s.node ∨ s.node ∈ todo
  lowered (v : NodeId) (f : Face α) : done v → g.face? v = some f →
    f.kind = .fakeQuantize ∧ ∀ p ∈ f.ports, p.elementType = type
  bound (v : NodeId) (f : Face α) : v ∈ todo → g.face? v = some f →
    f.kind = .fakeQuantize ∧ ∀ p ∈ f.ports, p.elementType.isLowPrecision = false
  apart (v : NodeId) (f : Face α) (s : Slot) : done v ∨ v ∈ todo → g.face? v = some f →
    s ∈ f.inputs → layers s.node ∨ done s.node ∨ s.node ∈ todo → lax

namespace Lowering

variable {id new : NodeId} {todo : List NodeId} {f : Face α}

theorem not_layer_of_quantizer (h : Lowering lax type layers done todo g) (hf : g.face? id = some f)
    (hkind : f.kind = .fakeQuantize) : ¬ layers id := by
  intro hid
  have hpasses := (h.layer id f hid hf).1
  rw [hkind] at hpasses
  exact absurd hpasses (by decide)

theorem doubled {levels : Nat} {data low high : Slot} {rest : List Slot} {p : Port}
    {outLow outHigh : Tensor α} (h : Lowering lax type layers done (id :: todo) g)
    (hd : Doubled g g' levels data low high (p.withType type) outLow outHigh)
    (hf : g.face? id = some f) (hin : f.inputs = data :: low :: high :: rest) :
    Lowering lax type layers (fun v => done v ∨ v = g.nodes.size + 2) (id :: todo) g' := by
  obtain ⟨hkind, -⟩ := h.bound id f List.mem_cons_self hf
  have hface : ∀ v k, v < g.nodes.size → g'.face? v = some k → g.face? v = some k :=
    fun v k hv hk => hd.old v hv ▸ hk
  have hread : ∀ v k s, g.face? v = some k → s ∈ k.inputs → s.node < g.nodes.size := by
    intro v k s hk hs
    obtain ⟨i, hi⟩ := List.mem_iff_getElem?.mp hs
    obtain ⟨q, hq⟩ := h.guarded.wellFormed.exists_port (v := v) (i := i) (by rw [input?_eq_face, hk]; exact hi)
    exact lt_size_of_port hq
  have hmember : ∀ s : Slot, s.node < g.nodes.size →
      layers s.node ∨ (done s.node ∨ s.node = g.nodes.size + 2) ∨ s.node ∈ id :: todo →
        layers s.node ∨ done s.node ∨ s.node ∈ id :: todo := fun s hs hm =>
    hm.imp_right (.imp_left (·.resolve_right (Nat.ne_of_lt (Nat.lt_add_right 2 hs))))
  refine {
    guarded := ?guarded
    old := fun v hv => ?old
    layer := fun v k hv hk => ?layer
    lowered := fun v k hv hk => ?lowered
    bound := fun v k hv hk => ?bound
    apart := fun v k s hv hk hs hm => ?apart }
  case guarded =>
    refine h.guarded.doubled hd hf hkind hin (h.not_layer_of_quantizer hf hkind) fun s hs => ?_
    exact or_congr_right (or_iff_left (Nat.ne_of_lt (Nat.lt_add_right 2 hs))).symm
  case old =>
    rcases hv with hv | (hv | rfl) | hv
    · exact Nat.lt_of_lt_of_le (h.old v (.inl hv)) hd.size
    · exact Nat.lt_of_lt_of_le (h.old v (.inr (.inl hv))) hd.size
    · exact lt_size_of_face? hd.fakeQuantize
    · exact Nat.lt_of_lt_of_le (h.old v (.inr (.inr hv))) hd.size
  case layer =>
    obtain ⟨hpasses, hinputs⟩ := h.layer v k hv (hface v k (h.old v (.inl hv)) hk)
    exact ⟨hpasses, fun s hs => (hinputs s hs).imp_right (.imp_left .inl)⟩
  case lowered =>
    rcases hv with hv | rfl
    · exact h.lowered v k hv (hface v k (h.old v (.inr (.inl hv))) hk)
    · cases hd.fakeQuantize.symm.trans hk
      exact ⟨rfl, fun q hq => by rw [List.mem_singleton.mp hq]; rfl⟩
  case bound =>
    exact h.bound v k hv (hface v k (h.old v (.inr (.inr hv))) hk)
  case apart =>
    rw [or_assoc, or_left_comm] at hv
    rcases hv with rfl | hv
    · cases hd.fakeQuantize.symm.trans hk
      have hold : ∀ t ∈ f.inputs, layers t.node ∨ (done t.node ∨ t.node = g.nodes.size + 2) ∨
          t.node ∈ id :: todo → lax := fun t ht hm =>
        h.apart id f t (.inr List.mem_cons_self) hf ht (hmember t (hread id f t hf ht) hm)
      have hfresh : ∀ v, g.nodes.size ≤ v → v ≠ g.nodes.size + 2 →
          ¬ (layers v ∨ (done v ∨ v = g.nodes.size + 2) ∨ v ∈ id :: todo) := fun v hge hne hm =>
        Nat.not_lt.mpr hge (h.old v (hm.imp_right (.imp_left (·.resolve_right hne))))
      simp only [List.mem_cons, List.not_mem_nil, or_false] at hs
      rcases hs with rfl | rfl | rfl | rfl | rfl
      · exact hold s (by simp [hin]) hm
      · exact hold s (by simp [hin]) hm
      · exact hold s (by simp [hin]) hm
      · exact absurd hm (hfresh _ (Nat.le_refl _) (by simp))
      · exact absurd hm (hfresh _ (Nat.le_add_right _ _) (by simp))
    · have hk' := hface v k (h.old v (.inr hv)) hk
      exact h.apart v k s hv hk' hs (hmember s (hread v k s hk' hs) hm)

theorem replaced (h : Lowering lax type layers done (id :: todo) g) (hnew : done new) (hne : new ≠ id)
    (hid : id ∉ todo) (hrun : exec (replaceNode id new : Edit α GraphError Unit) g = .ok (.ok (), g')) :
    Lowering lax type layers done todo g' := by
  obtain ⟨⟨f, f', hf, hf', -⟩, hrerouted, hsize, -⟩ := replaceNode_rerouted h.guarded.wellFormed hrun
  obtain ⟨hkind, hreal⟩ := h.bound id f List.mem_cons_self hf
  have hold : ∀ v, layers v ∨ done v ∨ v ∈ todo → v < g.nodes.size := fun v hv =>
    h.old v (hv.imp_right (.imp_right (List.mem_cons_of_mem id)))
  have hmove : ∀ v k', v < g.nodes.size → g'.face? v = some k' → ∃ k, g.face? v = some k ∧
      k'.kind = k.kind ∧ k'.ports = k.ports ∧ ∀ s' ∈ k'.inputs, ∃ s ∈ k.inputs,
        s' = s ∨ Swap id new s s' := by
    intro v k' hv hk'
    obtain ⟨k, hk, hsame⟩ := hrerouted.face v k' hv hk'
    refine ⟨k, hk, hsame.kind, hsame.ports, fun s' hs' => ?_⟩
    obtain ⟨i, hi⟩ := List.mem_iff_getElem?.mp hs'
    obtain ⟨s, hs, hmoved⟩ := hsame.input hi
    exact ⟨s, List.mem_of_getElem? hs, hmoved⟩
  refine {
    guarded := ?guarded
    old := fun v hv => hsize ▸ hold v hv
    layer := fun v k' hv hk' => ?layer
    lowered := fun v k' hv hk' => ?lowered
    bound := fun v k' hv hk' => ?bound
    apart := fun v k' s' hv hk' hs' hm => ?apart }
  case guarded =>
    refine h.guarded.replaced hrun (fun k hk => ?_) fun v i j type' _ hi => ?_
    · cases hf.symm.trans hk
      rw [hkind]
      decide
    · obtain ⟨p, hp⟩ := h.guarded.wellFormed.exists_port hi
      exact iff_of_false (not_raw_of_port hp (hreal p (mem_ports (s := ⟨id, j⟩) hf hp)))
        fun hraw => hraw.settled (.inr hnew)
  case layer =>
    obtain ⟨k, hk, hsame, -, hinputs⟩ := hmove v k' (hold v (.inl hv)) hk'
    obtain ⟨hpasses, hmembers⟩ := h.layer v k hv hk
    refine ⟨hsame ▸ hpasses, fun s' hs' => ?_⟩
    obtain ⟨s, hs, rfl | ⟨-, rfl⟩⟩ := hinputs s' hs'
    · refine (hmembers s' hs).imp_right (.imp_right fun hm => (List.mem_cons.mp hm).resolve_left ?_)
      obtain ⟨i, hi⟩ := List.mem_iff_getElem?.mp hs'
      refine unread_of_replaceNode h.guarded.wellFormed hne hrun (v := v) (i := i) ?_
        (by rw [input?_eq_face, hk']; exact hi)
      rintro rfl
      exact h.not_layer_of_quantizer hf' (h.lowered v f' hnew hf').1 hv
    · exact .inr (.inl hnew)
  case lowered =>
    obtain ⟨k, hk, hsame, hports, -⟩ := hmove v k' (hold v (.inr (.inl hv))) hk'
    rw [hsame, hports]
    exact h.lowered v k hv hk
  case bound =>
    obtain ⟨k, hk, hsame, hports, -⟩ := hmove v k' (hold v (.inr (.inr hv))) hk'
    rw [hsame, hports]
    exact h.bound v k (List.mem_cons_of_mem id hv) hk
  case apart =>
    obtain ⟨k, hk, -, -, hinputs⟩ := hmove v k' (hold v (.inr hv)) hk'
    obtain ⟨s, hs, hmoved⟩ := hinputs s' hs'
    refine h.apart v k s (hv.imp_right (List.mem_cons_of_mem id)) hk hs ?_
    rcases hmoved with rfl | ⟨rfl, -⟩
    · exact hm.imp_right (.imp_right (List.mem_cons_of_mem id))
    · exact .inr (.inr List.mem_cons_self)

theorem retyped {s : Slot} (h : Lowering lax type layers done [] g) (hs : layers s.node)
    (hr : Recast g g' fun v f => if v = s.node then f.retype s.index type else f) :
    Lowering lax type layers done [] g' := by
  have hface : ∀ v k', g'.face? v = some k' → ∃ k, g.face? v = some k ∧ k'.kind = k.kind ∧
      k'.inputs = k.inputs ∧ (v ≠ s.node → k' = k) := by
    intro v k' hk'
    rw [hr.face] at hk'
    obtain ⟨k, hk, rfl⟩ := Option.map_eq_some_iff.mp hk'
    refine ⟨k, hk, ?_, ?_, fun hne => if_neg hne⟩ <;> split <;> rfl
  refine ⟨h.guarded.retyped hr (fun f hf => (h.layer s.node f hs hf).1) hs (.inl hs),
    fun v hv => hr.size ▸ h.old v hv, fun v k' hv hk' => ?_, fun v k' hv hk' => ?_, by simp,
    fun v k' t hv hk' ht => ?_⟩
  · obtain ⟨k, hk, hkind, hinputs, -⟩ := hface v k' hk'
    rw [hkind, hinputs]
    exact h.layer v k hv hk
  · obtain ⟨k, hk, -, -, hsame⟩ := hface v k' hk'
    have hlowered := h.lowered v k hv hk
    rw [hsame fun he => h.not_layer_of_quantizer hk hlowered.1 (he ▸ hs)]
    exact hlowered
  · obtain ⟨k, hk, -, hinputs, -⟩ := hface v k' hk'
    exact h.apart v k t hv hk (hinputs ▸ ht)

end Lowering

structure Retyping (lax : Prop) (type : ElementType) (layers done : NodeId → Prop) (todo : Slot → Prop)
    (g : Graph α) : Prop extends Lowering lax type layers done [] g where
  ports (v : NodeId) (f : Face α) (j : Nat) (p : Port) : layers v → g.face? v = some f →
    f.ports[j]? = some p → todo ⟨v, j⟩ ∨ p.elementType = type

namespace Retyping

variable {todo todo' : Slot → Prop}

theorem narrowed (h : Retyping lax type layers done todo g)
    (htodo : ∀ s p, g.port? s = some p → todo s → todo' s) : Retyping lax type layers done todo' g where
  toLowering := h.toLowering
  ports v f j p hv hf hp :=
    (h.ports v f j p hv hf hp).imp_left (htodo ⟨v, j⟩ p (by rw [port?_eq_face, hf]; exact hp))

theorem retyped {s : Slot} (h : Retyping lax type layers done (fun t => todo t ∨ t = s) g)
    (hs : layers s.node)
    (hr : Recast g g' fun v f => if v = s.node then f.retype s.index type else f) :
    Retyping lax type layers done todo g' where
  toLowering := h.toLowering.retyped hs hr
  ports v f' j p hv hf' hp := by
    rw [hr.face] at hf'
    obtain ⟨f, hf, rfl⟩ := Option.map_eq_some_iff.mp hf'
    split at hp
    · next hnode =>
      rw [Face.retype, List.getElem?_modify] at hp
      obtain ⟨q, hq, rfl⟩ := Option.map_eq_some_iff.mp hp
      split
      · exact .inr rfl
      · next hindex =>
        refine (h.ports v f j q hv hf hq).imp_left fun ht => ht.resolve_right ?_
        rintro rfl
        exact hindex rfl
    · next hnode =>
      refine (h.ports v f j p hv hf hp).imp_left fun ht => ht.resolve_right ?_
      rintro rfl
      exact hnode rfl

theorem type_of_port (h : Retyping lax type layers done (fun _ => False) g) {s : Slot} {p : Port}
    (hs : layers s.node ∨ done s.node) (hp : g.port? s = some p) : p.elementType = type := by
  obtain ⟨f, hf, hport⟩ := Option.bind_eq_some_iff.mp (port?_eq_face g s ▸ hp)
  rcases hs with hs | hs
  · exact (h.ports s.node f s.index p hs hf hport).resolve_left id
  · exact (h.lowered s.node f hs hf).2 p (List.mem_of_getElem? hport)

theorem readsWell (h : Retyping lax type layers done (fun _ => False) g)
    (hwf : g'.WellFormed) (hsame : ∀ v, layers v ∨ done v → g'.face? v = g.face? v) {v : NodeId}
    {f : Face α} (hv : layers v) (hf : g'.face? v = some f) :
    g'.ReadsWell lax (fun _ => False) f := by
  rw [hsame v (.inl hv)] at hf
  obtain ⟨hpasses, hinputs⟩ := h.layer v f hv hf
  have hports : ∀ p ∈ f.ports, p.elementType = type := fun p hp => by
    obtain ⟨j, hj⟩ := List.mem_iff_getElem?.mp hp
    exact (h.ports v f j p hv hf hj).resolve_left id
  have hread : ∀ s ∈ f.inputs, ∀ p, g'.port? s = some p → p.elementType = type := by
    intro s hs p hp
    have hmember : layers s.node ∨ done s.node := (hinputs s hs).imp_right (·.resolve_right (by simp))
    rw [port?_eq_face, hsame s.node hmember, ← port?_eq_face] at hp
    exact h.type_of_port hmember hp
  refine ⟨fun s t hs hraw => ?_, fun s p _ hs hp hlow => ⟨id, hlow, ?_⟩⟩
  · obtain ⟨q, hq, rfl⟩ := Option.map_eq_some_iff.mp hraw.port
    rw [hread s hs q hq]
    exact Face.accepts_of_takes (.inr (.inr ⟨hpasses, hports⟩)) fun hk => absurd (hk ▸ hpasses) (by decide)
  · obtain ⟨q, hq⟩ := hwf.exists_port (v := v) (i := 0)
      (by rw [input?_eq_face, hsame v (.inl hv), hf]; exact hs)
    rw [hq, Option.map_some, hread s (List.mem_of_getElem? hs) q hq, hports p hp]

end Retyping

structure Detaching (lax : Prop) (layers done : NodeId → Prop) (g₁ : Graph α) (pending : Slot → Prop)
    (g : Graph α) : Prop where
  guarded : g.Guarded lax pending layers
  size : g₁.nodes.size ≤ g.nodes.size
  same (v : NodeId) : layers v ∨ done v → g.face? v = g₁.face? v

namespace Detaching

variable {pending pending' : Slot → Prop} {inside : Region} {output : Slot}

theorem narrowed (h : Detaching lax layers done g₁ pending g) (hsub : ∀ s, pending' s → pending s)
    (hpending : ∀ s p, g.port? s = some p → pending s → pending' s) :
    Detaching lax layers done g₁ pending' g :=
  ⟨h.guarded.narrowed hsub hpending, h.size, h.same⟩

theorem reads (h : Detaching lax layers done g₁ pending g) (h₁ : Lowering lax type layers done [] g₁)
    (hinside : ∀ v, inside.contains v = true ↔ layers v ∨ done v)
    (houtput : layers output.node ∨ done output.node) {v : NodeId} {i : Nat}
    (hi : g.input? v i = some output) (hv : ¬ layers v) :
    (⟨v, i⟩ : Slot) ∈ Region.readersOutside g inside output ∨
      g.kind? v = some .fakeQuantize ∧ lax := by
  by_cases hmember : inside.contains v = true
  · have hdone := ((hinside v).mp hmember).resolve_left hv
    obtain ⟨f, hf, hs⟩ := Option.bind_eq_some_iff.mp (input?_eq_face g v i ▸ hi)
    have hf₁ := h.same v (.inr hdone) ▸ hf
    refine .inr ⟨?_, h₁.apart v f output (.inl hdone) hf₁ (List.mem_of_getElem? hs)
      (houtput.imp_right .inl)⟩
    rw [kind?_eq_face, hf, Option.map_some, (h₁.lowered v f hdone hf₁).1]
  · exact .inl (List.mem_filter.mpr ⟨h.guarded.wellFormed.mem_readers.mpr hi, by simpa using hmember⟩)

section Dequantized

variable [Scalar α]

theorem ensures_behindOutput (output : Slot) (h₁ : Lowering lax type layers done [] g₁)
    (hinside : ∀ v, inside.contains v = true ↔ layers v ∨ done v)
    (houtput : layers output.node ∨ done output.node) {base : String} (p : ChannelParams α) :
    Ensures (Detaching lax layers done g₁ fun t => pending t ∨ t = output)
      (fun _ => Detaching lax layers done g₁ pending) Fatal (do
      let readers ← Edit.read (Region.readersOutside · inside output)
      if !readers.isEmpty then
        let params ← (p.dequantization (← Edit.port output) : Checked (AffineParams α))
        discard (Dequantization.insert output readers params base)) := by
  apply (Edit.ensures_read (Region.readersOutside · inside output)).bind
  intro readers
  split
  · apply (Edit.ensures_port output).bind
    intro port
    apply ((Ensures.lift _).weaken (fun _ h => h) fun _ _ h => h.2).bind
    intro params
    have hinsert : Ensures (fun g => (Detaching lax layers done g₁ (fun t => pending t ∨ t = output) g ∧
        readers = Region.readersOutside g inside output) ∧ g.port? output = some port)
        (fun _ => Detaching lax layers done g₁ pending) Fatal
        (Dequantization.insert output readers params base) := by
      rintro g r g' ⟨⟨h, rfl⟩, hport⟩ hrun
      have hwf := h.guarded.wellFormed
      refine ⟨fun d hd => ?_, (Edit.ensures_insert Face.stable_true (fun _ _ _ => trivial) _ _
        params base g r g' (.refl hwf) hrun).2⟩
      subst hd
      obtain ⟨_, mid, -, hins⟩ := Dequantization.insert_done hwf hrun
      refine ⟨h.guarded.behind hins (fun r hr => hwf.mem_readers.mp (List.mem_filter.mp hr).1) hport
        fun v i => h.reads h₁ hinside houtput, ?_, fun v hv => ?_⟩
      · exact Nat.le_trans h.size (Nat.le_trans hins.built.size (Nat.le_of_eq hins.recast.size.symm))
      · -- Members of the region are no readers outside of it, so that they go on to read the output
        have hold : v < g.nodes.size := Nat.lt_of_lt_of_le (h₁.old v (hv.imp_right .inl)) h.size
        rw [hins.face_old hold, ← h.same v hv]
        cases hf : g.face? v with
        | none => rfl
        | some f =>
          rw [Option.map_some, Face.redirect_of_not_mem]
          intro i hi
          have houtside := (List.mem_filter.mp hi).2
          rw [(hinside v).mpr hv] at houtside
          cases houtside
    exact hinsert.discard fun _ _ h => h
  · next hempty =>
    refine .pure fun g ⟨h, hreaders⟩ => ⟨h.guarded.settled (fun _ => .inl) ?_, h.size, h.same⟩
    intro v f hf hv s hs hpending t hraw
    obtain rfl := hpending.resolve_left hraw.settled
    obtain ⟨i, hi⟩ := List.mem_iff_getElem?.mp hs
    rcases h.reads h₁ hinside houtput (by rw [input?_eq_face, hf]; exact hi) hv with
      hmem | ⟨hkind, hlax⟩
    · rw [← hreaders] at hmem
      simp_all
    · rw [kind?_eq_face, hf, Option.map_some, Option.some.injEq] at hkind
      exact (Face.accepts_iff_of_quantizer hkind).mpr hlax

theorem ensures_behind {id : NodeId} (h₁ : Lowering lax type layers done [] g₁)
    (hinside : ∀ v, inside.contains v = true ↔ layers v ∨ done v) (hid : layers id ∨ done id)
    (p : ChannelParams α) :
    Ensures (Detaching lax layers done g₁ fun t => pending t ∨ t.node = id)
      (fun _ => Detaching lax layers done g₁ pending) Fatal
      (ConcatPlan.dequantizeBehind inside id p) := by
  have hnode : Ensures (Detaching lax layers done g₁ fun t => pending t ∨ t.node = id)
      (fun n => Detaching lax layers done g₁ fun t =>
        pending t ∨ t.node = id ∧ t.index ∈ List.range n.outputs.length) Fatal (Edit.node id) := by
    refine (Edit.ensures_node id).weaken (fun _ h => h) fun n g ⟨h, hn⟩ =>
      h.narrowed (fun s => .imp_right And.left) fun s q hq => .imp_right fun hs => ⟨hs, ?_⟩
    rw [port?_eq_face, hs, face?_eq_some.mpr ⟨n, hn, rfl⟩] at hq
    simpa [Node.face] using (List.getElem?_eq_some_iff.mp hq).1
  apply hnode.bind
  intro n
  refine (Ensures.forM_suffix (fun indices => Detaching lax layers done g₁ fun t =>
    pending t ∨ t.node = id ∧ t.index ∈ indices) fun c rest _ => ?_).weaken (fun _ h => h)
      fun _ g h => h.narrowed (fun _ => .inl) fun _ _ _ hs => hs.resolve_right (by simp)
  refine (ensures_behindOutput ⟨id, c⟩ h₁ hinside hid p).weaken (fun g h =>
    h.narrowed (fun s hs => ?_) fun s _ _ hs => ?_) fun _ _ h => h
  · rcases hs with (hs | ⟨hnode, hindex⟩) | rfl
    · exact .inl hs
    · exact .inr ⟨hnode, List.mem_cons_of_mem c hindex⟩
    · exact .inr ⟨rfl, List.mem_cons_self⟩
  · rcases hs with hs | ⟨hnode, hindex⟩
    · exact .inl (.inl hs)
    · rcases List.mem_cons.mp hindex with rfl | hindex
      · exact .inr (by cases s; simp_all)
      · exact .inl (.inr ⟨hnode, hindex⟩)

theorem ensures_dequantized {known : List (NodeId × ChannelParams α)} {ids : List NodeId}
    (h₁ : Lowering lax type layers done [] g₁)
    (hinside : ∀ v, inside.contains v = true ↔ layers v ∨ done v)
    (hknown : ∀ v, known.any (·.1 = v) = true ↔ layers v ∨ done v)
    (hids : ∀ id ∈ ids, known.any (·.1 = id) = true) :
    Ensures (fun t : Session α => Detaching lax layers done g₁ (fun s => s.node ∈ ids) t.graph)
      (fun _ t => Detaching lax layers done g₁ (fun _ => False) t.graph) Fatal (ids.forM fun id => do
        if let some (_, p) := known.find? (·.1 = id) then
          Rewrite.edit (ConcatPlan.dequantizeBehind inside id p)) := by
  refine (Ensures.forM_suffix (fun ids (t : Session α) =>
    Detaching lax layers done g₁ (fun s => s.node ∈ ids) t.graph) fun id rest hsuffix => ?_).weaken
      (fun _ h => h) fun _ _ h => h.narrowed (fun _ => False.elim) fun _ _ _ hs => absurd hs (by simp)
  have hany := hids id (hsuffix.subset List.mem_cons_self)
  split
  · next p hfind =>
    obtain rfl : _ = id := by simpa using List.find?_some hfind
    refine (Rewrite.ensures_edit (ensures_behind h₁ hinside ((hknown _).mp hany) p)).weaken
      (fun t h => h.narrowed (fun s hs => ?_) fun s _ _ hs => ?_) fun _ _ h => h
    · exact List.mem_cons.mpr hs.symm
    · exact (List.mem_cons.mp hs).symm
  · next hfind =>
    obtain ⟨⟨_, p⟩, hp⟩ := Option.isSome_iff_exists.mp (List.find?_isSome.mpr (List.any_eq_true.mp hany))
    exact absurd hp (hfind _ p)

end Dequantized

theorem finish (h₁ : Retyping lax type layers done (fun _ => False) g₁)
    (h : Detaching lax layers done g₁ (fun _ => False) g) : g.WellGuarded lax :=
  h.guarded.released fun _ _ hf hv _ => h₁.readsWell h.guarded.wellFormed h.same hv hf

end Detaching

namespace ConcatPlan

section Lower

variable {s s' : Session α}

theorem lowerBoundary_guarded {branches : List (NodeId × Branch α)}
    (hnodup : (branches.map Prod.fst).Nodup)
    (h : Lowering lax type layers done (branches.map Prod.fst) s.graph)
    {lowered : List (String × NodeId × ChannelParams α)}
    (hrun : exec (lowerBoundary type branches) s = .ok (.ok lowered, s')) :
    Lowering lax type layers (fun v => done v ∨ v ∈ lowered.map (·.2.1)) [] s'.graph := by
  induction branches generalizing s lowered done with
  | nil =>
    cases hrun
    simpa using h
  | cons b rest ih =>
    obtain ⟨id, branch⟩ := b
    obtain ⟨hid, hrest⟩ := List.nodup_cons.mp hnodup
    obtain ⟨n, v, g₁, s₁, below, -, hadd, hreplace, hbelow, rfl⟩ := lowerBoundary_cons hrun
    obtain ⟨m, _, _, _, _, _, p, hm, -, hin, -, rfl, hdoubled⟩ :=
      addFakeQuantize_done h.guarded.wellFormed hadd
    have h₂ := h.doubled hdoubled (face?_eq_some.mpr ⟨m, hm, rfl⟩) hin
    have hne : s.graph.nodes.size + 2 ≠ id :=
      Nat.ne_of_gt (Nat.lt_add_right 2 (h.old id (.inr (.inr List.mem_cons_self))))
    have h₃ := ih hrest (h₂.replaced (.inr rfl) hne hid hreplace) hbelow
    simpa only [List.map_cons, List.mem_cons, or_assoc] using h₃

end Lower

theorem ensures_retyped_layers {ids : List NodeId} (hids : ∀ id ∈ ids, layers id) :
    Ensures (Retyping lax type layers done fun t => t.node ∈ ids)
      (fun _ => Retyping lax type layers done fun _ => False) Fatal
      (retypeLayers (α := α) type ids) := by
  refine (Ensures.forM_suffix (fun ids => Retyping lax type layers done fun t => t.node ∈ ids)
    fun id rest hsuffix => ?_).weaken (fun _ h => h)
      fun _ _ h => h.narrowed fun _ _ _ ht => absurd ht (by simp)
  have hid := hids id (hsuffix.subset List.mem_cons_self)
  have hnode : Ensures (Retyping lax type layers done fun t => t.node ∈ id :: rest)
      (fun n => Retyping lax type layers done fun t =>
        t.node ∈ rest ∨ t.node = id ∧ t.index ∈ List.range n.outputs.length) Fatal
      (Edit.node (α := α) id) := by
    refine (Edit.ensures_node id).weaken (fun _ h => h) fun n g ⟨h, hn⟩ =>
      h.narrowed fun t q hq ht => (List.mem_cons.mp ht).symm.imp_right fun hnode => ⟨hnode, ?_⟩
    rw [port?_eq_face, hnode, face?_eq_some.mpr ⟨n, hn, rfl⟩] at hq
    simpa [Node.face] using (List.getElem?_eq_some_iff.mp hq).1
  apply hnode.bind
  intro n
  refine (Ensures.forM_suffix (fun indices => Retyping lax type layers done fun t =>
    t.node ∈ rest ∨ t.node = id ∧ t.index ∈ indices) fun index indices _ => ?_).weaken (fun _ h => h)
      fun _ _ h => h.narrowed fun _ _ _ ht => ht.resolve_right (by simp)
  refine Edit.ensures_step fun g g' h hrun => ?_
  obtain ⟨-, hrecast⟩ := setOutputType_done h.guarded.wellFormed hrun
  refine Retyping.retyped (s := ⟨id, index⟩) (h.narrowed fun t _ _ ht => ?_) hid hrecast
  rcases ht with ht | ⟨hnode, hindex⟩
  · exact .inl (.inl ht)
  · rcases List.mem_cons.mp hindex with rfl | hindex
    · exact .inr (by cases t; simp_all)
    · exact .inl (.inr ⟨hnode, hindex⟩)

theorem ensures_listed {ids : List NodeId} (order : List NodeId) :
    Ensures (fun g : Graph α => g.WellFormed ∧ ∀ v, g.isLive v = true → v ∈ order)
      (fun _ g => g.WellFormed ∧ ∀ v, g.isLive v = true → v ∈ order) Fatal
      (retypeLayers (α := α) type ids) := by
  refine .forM fun id _ => (Edit.ensures_node id).left.bind
    fun n => .forM fun index _ => Edit.ensures_step fun g g' ⟨hwf, hlive⟩ hrun => ?_
  obtain ⟨-, hrecast⟩ := setOutputType_done hwf hrun
  refine ⟨hrecast.wellFormed, fun v hv => hlive v ?_⟩
  rwa [isLive_eq_face, hrecast.face, Option.isSome_map, ← isLive_eq_face] at hv

section Start

variable [Scalar α] {concat : NodeId} {plan : ConcatPlan α} {c : Context}

theorem Accepted.real_of_layer (hplan : Accepted c g concat plan) (hg : g.Regular)
    (h : g.WellGuarded lax) {v : NodeId} (hv : v ∈ plan.region.members) {f : Face α}
    (hf : g.face? v = some f) : ∀ p ∈ f.ports, p.elementType.isLowPrecision = false := by
  have hclosed := Region.closed_of_around hplan.region
  obtain ⟨rank, hrank⟩ := hg.acyclic
  induction hr : rank v using Nat.strong_induction_on generalizing v f with
  | _ r ih =>
  subst hr
  intro p hp
  obtain ⟨n, hn, rfl⟩ := face?_eq_some.mp hf
  rcases List.mem_append.mp hv with hlayer | hbound
  · by_contra hlow
    have hpasses : n.face.kind.Passes := by
      obtain ⟨m, hm, -, hconcat | hpass, -⟩ := hclosed.layer v hlayer
      · cases hn.symm.trans hm
        rw [show n.face.kind = .concat from hconcat]
        decide
      · exact h.passes_of_preserves hf hpass
    obtain ⟨s, hs⟩ : ∃ s, n.inputs[0]? = some s :=
      ⟨_, List.getElem?_eq_getElem (List.length_pos_iff.mpr ((hplan.reads hlayer).2 n.face hf))⟩
    -- An integer among the outputs of a layer would stand at its first input as well.
    have hraw := (h.reads v n.face hf id).first s p hpasses hs hp (by simpa using hlow)
    obtain ⟨q, hq, htype⟩ := Option.map_eq_some_iff.mp hraw.port
    obtain ⟨k, hk, -⟩ := Option.bind_eq_some_iff.mp (port?_eq_face g s ▸ hq)
    have hmem := List.mem_of_getElem? hs
    have hmember := hclosed.mem_of_input hlayer hn hmem (by
      obtain ⟨m, hm, -⟩ := face?_eq_some.mp hk
      rw [hm]
      rfl)
    have hreal := ih (rank s.node) (below_of_input hrank hn hmem) hmember hk rfl q (mem_ports hk hq)
    rw [htype] at hreal
    exact hlow hreal
  · obtain ⟨q, hq, hreal⟩ := hplan.float hbound
    obtain ⟨m, hm, hkind⟩ := hclosed.bound v hbound
    cases hn.symm.trans hm
    obtain ⟨q', hq', hports⟩ := port_of_single hn (hg.length_outputs hn (by rw [hkind]; decide))
    cases hq.symm.trans hq'
    rw [Node.face, hports] at hp
    rwa [List.mem_singleton.mp hp]

theorem Accepted.lowering (hplan : Accepted c g concat plan) (hg : g.Regular) (h : g.WellGuarded lax)
    (hapart : lax ∨ plan.region.Apart g) (type : ElementType) :
    Lowering lax type (· ∈ plan.region.layers) (fun _ => False) plan.region.boundary g := by
  have hclosed := Region.closed_of_around hplan.region
  refine ⟨?_, fun v hv => ?_, fun v f hv hf => ⟨?_, fun s hs => ?_⟩, fun _ _ => False.elim,
    fun v f hv hf => ⟨?_, hplan.real_of_layer hg h (List.mem_append_right _ hv) hf⟩,
    fun v f s hv hf hs hm => hapart.resolve_right fun hno => ?_⟩
  · refine h.exempted (fun _ => False.elim) (fun s t hs hraw => ?_) fun _ => False.elim
    obtain ⟨p, hp, -⟩ := Option.map_eq_some_iff.mp hraw.port
    obtain ⟨f, hf, -⟩ := Option.bind_eq_some_iff.mp (port?_eq_face g s ▸ hp)
    exact not_raw_of_port hp (hplan.real_of_layer hg h (List.mem_append_left _ (hs.resolve_right id)) hf
      p (mem_ports hf hp)) hraw
  · rcases hv with hv | hv | hv
    · exact (hplan.reads hv).1
    · exact hv.elim
    · obtain ⟨f, _, hf, -⟩ := hplan.isBoundary hv
      exact lt_size_of_face? hf
  · obtain ⟨n, hn, -, hconcat | hpass, -⟩ := hclosed.layer v hv
    · rw [face?_eq_some.mpr ⟨n, hn, rfl⟩] at hf
      cases hf
      rw [show n.face.kind = .concat from hconcat]
      decide
    · exact h.passes_of_preserves hf hpass
  · obtain ⟨n, hn, rfl⟩ := face?_eq_some.mp hf
    obtain ⟨i, hi⟩ := List.mem_iff_getElem?.mp hs
    obtain ⟨m, hm⟩ := hg.wellFormed.live_of_input (input?_eq_some.mpr ⟨n, hn, hi⟩)
    exact (List.mem_append.mp (hclosed.mem_of_input hv hn hs (by rw [hm]; rfl))).imp_right .inr
  · obtain ⟨n, hn, hkind⟩ := hclosed.bound v hv
    rw [face?_eq_some.mpr ⟨n, hn, rfl⟩] at hf
    cases hf
    exact hkind
  · obtain ⟨i, hi⟩ := List.mem_iff_getElem?.mp hs
    exact hno v (hv.resolve_left id) i s (by rw [input?_eq_face, hf]; exact hi)
      (List.mem_append.mpr (hm.imp_right (·.resolve_left id)))

theorem apply_guarded {s s' : Session α} (hg : s.graph.Regular) (h : s.graph.WellGuarded lax)
    (hplan : Accepted s.context s.graph concat plan) (hapart : lax ∨ plan.region.Apart s.graph)
    (hrun : exec plan.apply s = .ok (.ok (), s')) : s'.graph.WellGuarded lax := by
  have hclosed := Region.closed_of_around hplan.region
  obtain ⟨lowered, s₁, s₂, hlower, hrework, hgraph⟩ := apply_run hrun
  rw [hgraph]
  generalize storageType s.context.params plan.grid.precision = type at hlower hrework
  let known := plan.layers ++ lowered.map Prod.snd
  let inside : Region := { Region.empty with layers := known.map Prod.fst }
  let layers : NodeId → Prop := (· ∈ plan.region.layers)
  let done : NodeId → Prop := (· ∈ lowered.map (·.2.1))
  have hknown : ∀ v, v ∈ known.map Prod.fst ↔ layers v ∨ done v := by
    intro v
    obtain ⟨hids, -⟩ := layerParams_eq_ok hplan.layers
    rw [List.map_append, List.mem_append, hids, List.map_map]
    rfl
  have hinside : ∀ v, inside.contains v = true ↔ layers v ∨ done v := by
    intro v
    rw [← hknown, Region.contains, decide_eq_true_iff]
    simp [inside, Region.members, Region.empty]
  have hany : ∀ v, known.any (·.1 = v) = true ↔ layers v ∨ done v := by
    intro v
    rw [← hknown]
    simp [List.any_eq_true]
  have h₁ : Lowering lax type layers done [] s₁.graph := by
    have hbranches : (plan.region.boundary.zip plan.branches).map Prod.fst = plan.region.boundary :=
      List.map_fst_zip (Nat.le_of_eq (hplan.ranges.length_eq.trans hplan.branches.length_eq))
    have hstart := lowerBoundary_guarded (hbranches.symm ▸ hclosed.nodup)
      (hbranches.symm ▸ hplan.lowering hg h hapart type) hlower
    simpa only [false_or] using hstart
  have horder : Ensures (fun t : Session α => Lowering lax type layers done [] t.graph)
      (fun order t => Lowering lax type layers done [] t.graph ∧
        ∀ v, t.graph.isLive v = true → v ∈ order) Fatal
      (Rewrite.editGraph (Edit.attempt Graph.topologicalOrder)) :=
    Rewrite.ensures_edit (ensures_order fun _ h => h.guarded.wellFormed)
  have hretype : ∀ order : List NodeId, Ensures
      (fun g : Graph α => Lowering lax type layers done [] g ∧ ∀ v, g.isLive v = true → v ∈ order)
      (fun _ g => ∃ g₁, Detaching lax layers done g₁
        (fun s => s.node ∈ order.filter fun id => known.any (·.1 = id)) g ∧
          Retyping lax type layers done (fun _ => False) g₁) Fatal
      (retypeLayers type
        ((order.filter fun id => known.any (·.1 = id)).filter (· ∈ plan.region.layers))) := by
    intro order
    have hlisted : ∀ v, v ∈ order → layers v ∨ done v → v ∈ order.filter fun id => known.any (·.1 = id) :=
      fun v hv hm => List.mem_filter.mpr ⟨hv, (hany v).mpr hm⟩
    have hlayers : ∀ id ∈ (order.filter fun id => known.any (·.1 = id)).filter (· ∈ plan.region.layers),
        layers id := fun id hid => of_decide_eq_true (List.mem_filter.mp hid).2
    refine ((ensures_retyped_layers hlayers).and (ensures_listed order)).weaken
      (fun g hg => ⟨⟨hg.1, fun v f j p hv hf _ => .inl ?_⟩, hg.1.guarded.wellFormed, hg.2⟩)
      fun _ g hg => ⟨g, ⟨?_, Nat.le_refl _, fun _ _ => rfl⟩, hg.1⟩
    · refine List.mem_filter.mpr ⟨hlisted v (hg.2 v ?_) (.inl hv), decide_eq_true hv⟩
      exact isLive_iff_face.mpr ⟨_, hf⟩
    · refine hg.1.guarded.narrowed (fun s hs => (hany _).mp (List.mem_filter.mp hs).2)
        fun s p hp hs => hlisted s.node (hg.2.2 s.node ?_) hs
      obtain ⟨f, hf, -⟩ := Option.bind_eq_some_iff.mp (port?_eq_face g s ▸ hp)
      exact isLive_iff_face.mpr ⟨_, hf⟩
  refine ((?_ : Ensures (fun t : Session α => Lowering lax type layers done [] t.graph)
    (fun _ t => t.graph.WellGuarded lax) Fatal _) s₁ _ s₂ h₁ hrework).1 () rfl
  apply horder.bind
  intro order
  refine (Rewrite.ensures_edit (hretype order)).bind fun _ => Ensures.of_exists fun g₁ => .of_fact
    fun hretyped => ?_
  exact (Detaching.ensures_dequantized hretyped.toLowering hinside hany fun id hid =>
    (List.mem_filter.mp hid).2).weaken (fun _ h => h) fun _ _ h => Detaching.finish hretyped h

end Start

end ConcatPlan

end LowPrecision
