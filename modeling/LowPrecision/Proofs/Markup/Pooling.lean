import LowPrecision.Proofs.Graph.Walks
import LowPrecision.Proofs.Markup.Reads

namespace LowPrecision

open AttributeStore

variable {α : Type} {g : Graph α} {p u v : NodeId} {n : Node α} {t : AttributeStore α}

namespace Markup

inductive Above (g : Graph α) (p : NodeId) : NodeId → Prop
  | producer {v : NodeId} : g.Reads p v → Above g p v
  | pass {u v : NodeId} : Above g p u → isTransparent g u = true →
      g.kind? u ≠ some .fakeQuantize → g.Reads u v → Above g p v

inductive Below (g : Graph α) (p : NodeId) : NodeId → Prop
  | reader {v : NodeId} : g.Reads v p → Below g p v
  | pass {u v : NodeId} : Below g p u → isTransparent g u = true →
      g.kind? u ≠ some .fakeQuantize → g.kind? u ≠ some .result → g.Reads v u → Below g p v

structure Between (g : Graph α) (p : NodeId) : Prop where
  reads : ∃ v, g.Reads p v
  above (v : NodeId) : Above g p v → g.kind? v = some .fakeQuantize ∨ isTransparent g v = true
  below : ∃ v, Below g p v ∧ isTransparent g v = false ∧ g.kind? v ≠ some .fakeQuantize ∧
    g.kind? v ≠ some .result

section Paths

def upward (g : Graph α) (id : NodeId) (n : Node α) : List NodeId :=
  if n.kind != .fakeQuantize && isTransparent g id then n.producers else []

def endsBelow (g : Graph α) (id : NodeId) : Bool :=
  g.kind? id == some .fakeQuantize || g.kind? id == some .result

def downward (g : Graph α) (id : NodeId) (_ : Node α) : List NodeId :=
  if !endsBelow g id && isTransparent g id then g.readerNodes id else []

theorem endsBelow_eq_false :
    endsBelow g v = false ↔ g.kind? v ≠ some .fakeQuantize ∧ g.kind? v ≠ some .result := by
  simp [endsBelow]

theorem mem_upward (hn : g.node? u = some n) : v ∈ upward g u n ↔
    isTransparent g u = true ∧ g.kind? u ≠ some .fakeQuantize ∧ g.Reads u v := by
  have hkind : g.kind? u = some n.kind := by rw [Graph.kind?, hn]; rfl
  rw [upward, hkind, ← Graph.mem_producers hn, List.mem_ite_nil_right, Bool.and_eq_true, bne_iff_ne,
    and_comm (a := n.kind ≠ _), and_assoc, Ne, Ne, Option.some_inj]

theorem mem_downward (hg : g.WellFormed) : v ∈ downward g u n ↔
    isTransparent g u = true ∧ g.kind? u ≠ some .fakeQuantize ∧ g.kind? u ≠ some .result ∧
      g.Reads v u := by
  rw [downward, ← hg.mem_readerNodes, ← and_assoc (a := g.kind? u ≠ _), ← endsBelow_eq_false,
    List.mem_ite_nil_right, Bool.and_eq_true, Bool.not_eq_true', and_comm (a := endsBelow g u = _),
    and_assoc]

theorem reached_upward (hg : g.WellFormed) (hp : g.node? p = some n) :
    g.Reached (upward g) n.producers v ↔ Above g p v := by
  constructor
  · intro h
    induction h with
    | start hmem _ => exact .producer ((Graph.mem_producers hp).mp hmem)
    | step _ hu hmem _ ih =>
      obtain ⟨hpass, hkind, hread⟩ := (mem_upward hu).mp hmem
      exact ih.pass hpass hkind hread
  · intro h
    induction h with
    | producer hread => exact .start ((Graph.mem_producers hp).mpr hread) (hg.live_of_reads hread)
    | pass _ hpass hkind hread ih =>
      obtain ⟨m, hm⟩ := Option.isSome_iff_exists.mp hread.live
      exact ih.step hm ((mem_upward hm).mpr ⟨hpass, hkind, hread⟩) (hg.live_of_reads hread)

theorem reached_downward (hg : g.WellFormed) :
    g.Reached (downward g) (g.readerNodes p) v ↔ Below g p v := by
  constructor
  · intro h
    induction h with
    | start hmem _ => exact .reader (hg.mem_readerNodes.mp hmem)
    | step _ _ hmem _ ih =>
      obtain ⟨hpass, hkind, hresult, hread⟩ := (mem_downward hg).mp hmem
      exact ih.pass hpass hkind hresult hread
  · intro h
    induction h with
    | reader hread => exact .start (hg.mem_readerNodes.mpr hread) hread.live
    | pass _ hpass hkind hresult hread ih =>
      obtain ⟨m, hm⟩ := Option.isSome_iff_exists.mp (hg.live_of_reads hread)
      exact ih.step hm ((mem_downward hg).mpr ⟨hpass, hkind, hresult, hread⟩) hread.live

theorem isQuantizedAbove_iff (hg : g.WellFormed) (hp : g.node? p = some n) :
    isQuantizedAbove g n = true ↔ (∃ v, g.Reads p v) ∧
      ∀ v, Above g p v → g.kind? v = some .fakeQuantize ∨ isTransparent g v = true := by
  have hwalk : isQuantizedAbove g n = (!n.inputs.isEmpty &&
      (g.reach (upward g) n.producers).all fun id =>
        g.kind? id == some .fakeQuantize || isTransparent g id) := rfl
  have hinputs : (!n.inputs.isEmpty) = true ↔ ∃ v, g.Reads p v := by
    simp only [← Graph.mem_producers hp, Node.producers, Bool.not_eq_true', List.isEmpty_eq_false_iff,
      ne_eq, ← List.map_eq_nil_iff (f := Slot.node), List.eq_nil_iff_forall_not_mem, not_forall,
      not_not]
  rw [hwalk, Bool.and_eq_true, hinputs, List.all_eq_true]
  simp only [Graph.mem_reach, reached_upward hg hp, Bool.or_eq_true, beq_iff_eq]

theorem isConsumedBelow_iff (hg : g.WellFormed) :
    isConsumedBelow g p = true ↔ ∃ v, Below g p v ∧ isTransparent g v = false ∧
      g.kind? v ≠ some .fakeQuantize ∧ g.kind? v ≠ some .result := by
  have hwalk : isConsumedBelow g p = (g.reach (downward g) (g.readerNodes p)).any fun id =>
      !endsBelow g id && !isTransparent g id := rfl
  rw [hwalk, List.any_eq_true]
  simp only [Graph.mem_reach, reached_downward hg, Bool.and_eq_true, Bool.not_eq_true',
    endsBelow_eq_false, and_comm, and_left_comm, and_assoc]

end Paths

def verdict (g : Graph α) (p : NodeId) : Bool :=
  match g.node? p with
  | some n => isQuantizedAbove g n && isConsumedBelow g p
  | none => false

theorem verdict_iff (hg : g.WellFormed) (hp : g.kind? p = some .avgPool) :
    verdict g p = true ↔ Between g p := by
  obtain ⟨n, hn, -⟩ := Option.map_eq_some_iff.mp hp
  rw [verdict, hn, Bool.and_eq_true, isQuantizedAbove_iff hg hn, isConsumedBelow_iff hg]
  exact ⟨fun h => ⟨h.1.1, h.1.2, h.2⟩, fun h => ⟨⟨h.reads, h.above⟩, h.below⟩⟩

theorem verdict_store (h : isTransparent { g with attributes := t } = isTransparent g) :
    verdict { g with attributes := t } = verdict g := by
  funext p
  rw [verdict, verdict, isQuantizedAbove_store h, isConsumedBelow_store h]
  rfl

section Orders

def markPool (g : Graph α) (p : NodeId) : Graph α :=
  withStore (·.set (.node p) (.precisionPreserved (verdict g p))) g

def pools (g : Graph α) : List NodeId := (g.liveNodes.filter (·.2.kind = .avgPool)).map Prod.fst

theorem mem_pools : p ∈ pools g ↔ g.kind? p = some .avgPool := by
  simp [pools, Graph.WellFormed.mem_liveNodes, Graph.kind?]

theorem poolMarks_eq (g : Graph α) : poolMarks g = (pools g).map fun p => (p, verdict g p) := by
  rw [poolMarks, pools, List.map_map]
  refine List.map_congr_left fun e he => ?_
  have hn := Graph.WellFormed.mem_liveNodes.mp (List.mem_filter.mp he).1
  rw [Function.comp_apply, verdict, hn]

theorem get?_setMarks_map (f : NodeId → Bool) (ids : List NodeId) (s : AttributeStore α) :
    (setMarks (ids.map fun v => (v, f v)) s).get? (.node p) .precisionPreserved =
      if p ∈ ids then some (.precisionPreserved (f p)) else s.get? (.node p) .precisionPreserved := by
  induction ids generalizing s with
  | nil => rfl
  | cons v ids ih =>
    refine (ih _).trans ?_
    rw [get?_set]
    by_cases hmem : p ∈ ids
    · simp [hmem]
    · by_cases hv : p = v <;> simp [hmem, hv, Attribute.kind]

theorem foldl_markPool {order : List NodeId} (h : ∀ v ∈ order, g.kind? v = some .avgPool) :
    order.foldl markPool g =
      { g with attributes := setMarks (order.map fun v => (v, verdict g v)) g.attributes } := by
  induction order generalizing g with
  | nil => rfl
  | cons v order ih =>
    obtain ⟨hv, hrest⟩ := List.forall_mem_cons.mp h
    have hsame : verdict (markPool g v) = verdict g :=
      verdict_store (isTransparent_store fun id hid => by
        rw [get?_set, if_neg]
        rintro ⟨hnode, -⟩
        cases hnode
        exact hid hv)
    have hfold := ih (g := markPool g v) hrest
    rw [hsame] at hfold
    exact hfold

theorem precisionPreserved?_marks {ids : List NodeId} {s : AttributeStore α} (f : NodeId → Bool)
    (hp : p ∈ ids) :
    (setMarks (ids.map fun v => (v, f v)) s).precisionPreserved? p = some (f p) := by
  rw [precisionPreserved?, get?_setMarks_map, if_pos hp]

end Orders

/-- A pooling is marked as passing precision through exactly when it stands between fake-quantizes and
an operation that computes on their values. The marks do not depend on those that poolings had before,
nor on the order in which poolings are marked, each by what the graph holds then. -/
theorem pool_marks_are_paths (hg : g.WellFormed) :
    (∀ p, g.kind? p = some .avgPool → ∃ mark,
      (averagePooling g).attributes.precisionPreserved? p = some mark ∧
        (mark = true ↔ Between g p)) ∧
    (∀ t : AttributeStore α, (∀ id, g.kind? id ≠ some .avgPool →
        t.get? (.node id) .precisionPreserved = g.attributes.get? (.node id) .precisionPreserved) →
      ∀ p, g.kind? p = some .avgPool →
        (averagePooling { g with attributes := t }).attributes.precisionPreserved? p =
          (averagePooling g).attributes.precisionPreserved? p) ∧
    ∀ order : List NodeId, (∀ id, id ∈ order ↔ g.kind? id = some .avgPool) →
      ∀ p, g.kind? p = some .avgPool →
        (order.foldl markPool g).attributes.precisionPreserved? p =
          (averagePooling g).attributes.precisionPreserved? p := by
  have hmark : ∀ p, g.kind? p = some .avgPool →
      (averagePooling g).attributes.precisionPreserved? p = some (verdict g p) := by
    intro p hp
    rw [averagePooling_eq, poolMarks_eq]
    exact precisionPreserved?_marks _ (mem_pools.mpr hp)
  refine ⟨fun p hp => ⟨_, hmark p hp, verdict_iff hg hp⟩, fun t ht p hp => ?_, fun order horder p hp => ?_⟩
  · have hsame := isTransparent_store ht
    rw [hmark p hp, averagePooling_eq, poolMarks_store hsame, poolMarks_eq]
    exact precisionPreserved?_marks _ (mem_pools.mpr hp)
  · rw [hmark p hp, foldl_markPool fun v hv => (horder v).mp hv]
    exact precisionPreserved?_marks _ ((horder p).mpr hp)

def ringedPools : Graph Binary32 :=
  let ports : List Port := [⟨.f32, some [1, 2]⟩]
  let built : Graph Binary32 := Graph.assemble [("x", .parameter, [], ports),
    ("fq", .fakeQuantize 256, [⟨0, 0⟩], ports), ("first", .avgPool, [⟨1, 0⟩, ⟨1, 0⟩], ports),
    ("second", .avgPool, [⟨2, 0⟩], ports), ("layer", .mvn, [⟨3, 0⟩], ports),
    ("aside", .avgPool, [⟨1, 0⟩], ports), ("y", .result, [⟨5, 0⟩], [])]
  (built.setInput 2 1 ⟨3, 0⟩).2

theorem pool_marks_are_paths_of_ringedPools : ringedPools.WellFormed ∧ Between ringedPools 2 ∧
    ¬ Between ringedPools 5 ∧
    (averagePooling ringedPools).attributes.precisionPreserved? 2 = some true ∧
    (averagePooling ringedPools).attributes.precisionPreserved? 5 = some false ∧
    ([5, 3, 2].foldl markPool ringedPools).attributes.precisionPreserved? 2 = some true := by
  have hg : ringedPools.WellFormed :=
    (Graph.sound_setInput (Graph.assemble_ordered _).1 2 1 ⟨3, 0⟩).wellFormed
  obtain ⟨hmarks, -, horder⟩ := pool_marks_are_paths hg
  have hreads {v u : NodeId} : ringedPools.Reads u v ↔ u ∈ ringedPools.readerNodes v :=
    hg.mem_readerNodes.symm
  have hbetween : Between ringedPools 2 := by
    have hproducers : ∀ u ∈ [2, 3], ∀ v, ringedPools.Reads u v → v ∈ [1, 2, 3] := by
      intro u hu v hread
      obtain ⟨n, hn⟩ := Option.isSome_iff_exists.mp hread.live
      have hback : ∀ u ∈ [2, 3], ∀ n ∈ ringedPools.node? u, n.producers ⊆ [1, 2, 3] := by
        decide +kernel
      exact hback u hu n hn ((Graph.mem_producers hn).mpr hread)
    have habove : ∀ v, Above ringedPools 2 v → v ∈ [1, 2, 3] := by
      intro v h
      induction h with
      | producer hread => exact hproducers 2 (by decide) _ hread
      | @pass u v _ _ hkind hread ih =>
        have hne : u ≠ 1 := by rintro rfl; exact hkind (by decide +kernel)
        exact hproducers u (by simp_all) v hread
    have hpasses : ∀ v ∈ [1, 2, 3], ringedPools.kind? v = some .fakeQuantize ∨
        isTransparent ringedPools v = true := by decide +kernel
    have hsecond : Below ringedPools 2 3 := .reader (hreads.mpr (by decide +kernel))
    exact ⟨⟨1, hreads.mpr (by decide +kernel)⟩, fun v h => hpasses v (habove v h),
      4, hsecond.pass (by decide +kernel) (by decide +kernel) (by decide +kernel)
        (hreads.mpr (by decide +kernel)), by decide +kernel⟩
  have haside : ¬ Between ringedPools 5 := by
    rintro ⟨-, -, v, hv, -, -, hne⟩
    have hresult : ringedPools.kind? v = some .result := by
      induction hv with
      | @reader v hread =>
        have hreaders : ringedPools.readerNodes 5 = [6] := by decide +kernel
        rw [hreads, hreaders, List.mem_singleton] at hread
        exact hread ▸ by decide +kernel
      | pass _ _ _ hkind _ ih => exact absurd (ih hkind) hkind
    exact hne hresult
  obtain ⟨mark, hmark, hiff⟩ := hmarks 2 (by decide +kernel)
  obtain ⟨other, hother, hnot⟩ := hmarks 5 (by decide +kernel)
  rw [hiff.mpr hbetween] at hmark
  rw [Bool.eq_false_iff.mpr (mt hnot.mp haside)] at hother
  have hpools : ∀ id, id ∈ [5, 3, 2] ↔ ringedPools.kind? id = some .avgPool := by
    intro id
    rcases Nat.lt_or_ge id 7 with hlt | hge
    · have hall : ∀ id < 7, id ∈ [5, 3, 2] ↔ ringedPools.kind? id = some .avgPool := by
        decide +kernel
      exact hall id hlt
    · have hdead := Graph.kind?_ne_of_size_le (g := ringedPools) (k := .avgPool) hge
      have hlt : ∀ id ∈ [5, 3, 2], id < 7 := by decide
      exact ⟨fun hid => absurd (hlt id hid) (Nat.not_lt.mpr hge), fun hid => absurd hid hdead⟩
  exact ⟨hg, hbetween, haside, hmark, hother, (horder _ hpools 2 (by decide +kernel)).trans hmark⟩

end Markup

end LowPrecision
