import LowPrecision.Proofs.Markup.Propagation
import LowPrecision.Proofs.Pipeline.Interface

namespace LowPrecision

variable {α : Type}

def OpKind.Passes (k : OpKind) : Prop :=
  ∃ rule ∈ [Rule.concat, .depthToSpace, .transparent], k ∈ rule.pattern.kinds

instance (k : OpKind) : Decidable k.Passes :=
  inferInstanceAs (Decidable (∃ rule ∈ [Rule.concat, .depthToSpace, .transparent],
    k ∈ rule.pattern.kinds))

theorem Op.passes_of_preservesPrecision {op : Op α} (h : op.preservesPrecision = true) :
    op.kind.Passes := by
  have hkinds : ∀ k : OpKind, k ∈ [.concat, .maxPool, .reshape, .transpose, .squeeze, .unsqueeze,
      .split, .variadicSplit, .stridedSlice, .depthToSpace, .relu, .interpolate] → k.Passes := by
    decide
  refine hkinds op.kind ?_
  cases op <;> first | simp [Op.preservesPrecision] at h; done | simp [Op.kind]

def Graph.IsPassing (g : Graph α) (v : NodeId) : Prop := ∃ k, g.kind? v = some k ∧ k.Passes

def Graph.Marked (g : Graph α) : Prop :=
  ∀ e ∈ g.attributes.entries, e.2 = .precisionPreserved true → g.IsPassing e.1.target.owner

theorem Graph.Marked.owner {g : Graph α} (h : g.Marked) {e : AttributeKey × Attribute}
    (he : e ∈ g.attributes.entries) (hmark : e.2 = .precisionPreserved true) :
    e.1.target.owner < g.nodes.size ∧ ∀ f, g.face? e.1.target.owner = some f → f.kind.Passes := by
  obtain ⟨k, hk, hpasses⟩ := h e he hmark
  obtain ⟨n, hn, rfl⟩ := Option.map_eq_some_iff.mp hk
  refine ⟨lt_size_of_node? hn, fun f hf => ?_⟩
  obtain ⟨m, hm, rfl⟩ := face?_eq_some.mp hf
  cases hn.symm.trans hm
  exact hpasses

theorem Graph.passing_of_preserves {g : Graph α} {v : NodeId} (h : g.preservesPrecision v = true) :
    (∃ e ∈ g.attributes.entries, e.2 = .precisionPreserved true ∧ e.1.target.owner = v) ∨
      g.IsPassing v := by
  rw [Graph.preservesPrecision, AttributeStore.precisionPreserved?] at h
  split at h
  · next flag hflag =>
    split at hflag
    · next hget =>
      cases hflag
      exact .inl ⟨_, AttributeStore.mem_entries_of_get? (h ▸ hget), rfl, rfl⟩
    · cases hflag
  · obtain ⟨n, hn, hop⟩ := Option.any_eq_true _ _ |>.mp h
    exact .inr ⟨n.kind, by rw [Graph.kind?, hn]; rfl, Op.passes_of_preservesPrecision hop⟩

theorem Graph.Marked.isPassing {g : Graph α} {v : NodeId} (h : g.Marked)
    (hv : g.preservesPrecision v = true) : g.IsPassing v := by
  rcases passing_of_preserves hv with ⟨e, he, hmark, rfl⟩ | hpassing
  · exact h e he hmark
  · exact hpassing

namespace AttributeStore

variable {β : Type} {s s' s'' : AttributeStore α}

structure SamePrecisions (s s' : AttributeStore α) : Prop where
  cells : s'.precisionCells = s.precisionCells
  get? (target : Target) (kind : AttributeKind) : kind ≠ .intervals → kind ≠ .alignment →
    s'.get? target kind = s.get? target kind
  marks : KeepsMarks s s'

namespace SamePrecisions

theorem refl (s : AttributeStore α) : SamePrecisions s s :=
  ⟨rfl, fun _ _ _ _ => rfl, fun _ he _ => he⟩

theorem trans (h : SamePrecisions s s') (h' : SamePrecisions s' s'') : SamePrecisions s s'' :=
  ⟨h'.cells.trans h.cells, fun target kind hi ha =>
    (h'.get? target kind hi ha).trans (h.get? target kind hi ha),
    fun e he hkind => h.marks e (h'.marks e he hkind) hkind⟩

theorem set (s : AttributeStore α) (target : Target) {value : Attribute}
    (hvalue : value.kind = .intervals ∨ value.kind = .alignment) :
    SamePrecisions s (s.set target value) := by
  refine ⟨rfl, fun t kind hi ha => ?_, .set s target fun hmark => ?_⟩
  · rw [get?_set, if_neg]
    rintro ⟨-, rfl⟩
    exact hvalue.elim hi ha
  · rw [hmark] at hvalue
    simp at hvalue

theorem clear (s : AttributeStore α) {kind : AttributeKind}
    (hkind : kind = .intervals ∨ kind = .alignment) : SamePrecisions s (s.clear kind) := by
  refine ⟨by rcases hkind with rfl | rfl <;> rfl, fun t other hi ha => ?_,
    fun e he _ => (mem_clear he).1⟩
  rw [get?_clear, if_neg]
  rintro rfl
  exact hkind.elim hi ha

theorem foldl {step : AttributeStore α → β → AttributeStore α} (bs : List β)
    (h : ∀ s b, SamePrecisions s (step s b)) (s : AttributeStore α) :
    SamePrecisions s (bs.foldl step s) := by
  induction bs generalizing s with
  | nil => exact .refl s
  | cons b bs ih => exact (h s b).trans (ih _)

theorem foldlM {γ : Type} (view : γ → AttributeStore α) {step : γ → β → Checked γ} {bs : List β}
    {c c' : γ} (h : ∀ c b c', step c b = .ok c' → SamePrecisions (view c) (view c'))
    (hrun : bs.foldlM step c = .ok c') : SamePrecisions (view c) (view c') :=
  except_foldlM_keeps (P := fun d => SamePrecisions (view c) (view d))
    (fun b _ d d' hd hstep => hd.trans (h d b d' hstep)) (.refl _) hrun

end SamePrecisions

end AttributeStore

namespace Markup

open AttributeStore

section Alignment

variable [Scalar α] {g g' : Graph α} {s s' : AttributeStore α}

theorem shareInterval_same {interval : SharedInterval α} {members : List NodeId}
    (hrun : shareInterval interval members s = .ok s') : SamePrecisions s s' := by
  obtain ⟨⟨group, t⟩, hmerge, hset⟩ := except_bind_eq_ok.mp hrun
  cases hset
  have hnew : SamePrecisions s (s.newInterval interval).2 :=
    ⟨rfl, fun _ _ _ _ => rfl, fun _ he _ => he⟩
  have hmerged : SamePrecisions (s.newInterval interval).2 t := by
    refine SamePrecisions.foldlM Prod.snd ?_ hmerge
    rintro ⟨group, u⟩ member c' h
    dsimp only at h
    split at h
    · obtain ⟨⟨root, cells⟩, -, h⟩ := except_bind_eq_ok.mp h
      cases h
      exact ⟨rfl, fun _ _ _ _ => rfl, fun _ he _ => he⟩
    · cases h
      exact .refl _
  refine (hnew.trans hmerged).trans (.foldl members (fun u member => ?_) t)
  split
  · exact .refl u
  · exact .set u _ (.inl rfl)

theorem alignIntervals_same (hrun : alignIntervals g = .ok g') :
    SamePrecisions (g.attributes.clear .intervals) g'.attributes := by
  obtain ⟨t, hfold, h⟩ := except_bind_eq_ok.mp hrun
  cases h
  refine SamePrecisions.foldlM id (fun c concat c' h => ?_) hfold
  split at h
  · exact shareInterval_same h
  · cases h
    exact .refl _

theorem alignParameters_same (hrun : alignParameters g = .ok g') :
    SamePrecisions (g.attributes.clear .alignment) g'.attributes := by
  obtain ⟨t, hfold, h⟩ := except_bind_eq_ok.mp hrun
  cases h
  refine SamePrecisions.foldlM id (fun c group c' h => ?_) hfold
  obtain ⟨conflict, -, h⟩ := except_bind_eq_ok.mp h
  have hset : ∀ value, SamePrecisions c ((group.fakeQuantizes ++ group.others).foldl
      (fun s member => s.set (.node member) (.alignment (c.newAlignment value).1))
      (c.newAlignment value).2) := by
    intro value
    have hnew : SamePrecisions c (c.newAlignment value).2 :=
      ⟨rfl, fun _ _ _ _ => rfl, fun _ he _ => he⟩
    exact hnew.trans (.foldl _ (fun u member => .set u _ (.inr rfl)) _)
  dsimp only at h
  split at h
  · cases h
    exact hset _
  · cases h
    exact (hset _).trans ⟨rfl, fun _ _ _ _ => rfl, fun _ he _ => he⟩

end Alignment

section Marks

variable {g g' : Graph α} {v : NodeId} {n : Node α} {restriction : OperationRestriction}
  {restrictions : List OperationRestriction} {s : AttributeStore α}

theorem preservesPrecision_congr (hnode : g'.node? v = g.node? v)
    (h : g'.attributes.get? (.node v) .precisionPreserved =
      g.attributes.get? (.node v) .precisionPreserved) :
    g'.preservesPrecision v = g.preservesPrecision v := by
  rw [Graph.preservesPrecision, Graph.preservesPrecision, precisionPreserved?, precisionPreserved?, h,
    hnode]

def mark (restrictions : List OperationRestriction) (s : AttributeStore α)
    (entry : NodeId × Node α) : AttributeStore α :=
  let s := match restrictions.find? (·.kind = entry.2.kind) with
    | some restriction => s.set (.node entry.1) (.precisionRestriction restriction.inputs)
    | none => s
  if entry.2.op.preservesPrecision then s.set (.node entry.1) (.precisionPreserved true) else s

theorem mark_cases (restrictions : List OperationRestriction) (s : AttributeStore α)
    (entry : NodeId × Node α) : ∃ u,
      (u = s ∨ ∃ inputs, u = s.set (.node entry.1) (.precisionRestriction inputs)) ∧
        (mark restrictions s entry = u ∨ entry.2.op.preservesPrecision = true ∧
          mark restrictions s entry = u.set (.node entry.1) (.precisionPreserved true)) := by
  cases hfind : restrictions.find? (·.kind = entry.2.kind) with
  | none =>
    refine ⟨s, .inl rfl, ?_⟩
    rw [mark, hfind]
    dsimp only
    split
    · next hop => exact .inr ⟨hop, rfl⟩
    · exact .inl rfl
  | some restriction =>
    refine ⟨_, .inr ⟨restriction.inputs, rfl⟩, ?_⟩
    rw [mark, hfind]
    dsimp only
    split
    · next hop => exact .inr ⟨hop, rfl⟩
    · exact .inl rfl

theorem restriction_mark_self (h : restrictions.find? (·.kind = n.kind) = some restriction) :
    (mark restrictions s (v, n)).get? (.node v) .precisionRestriction =
      some (.precisionRestriction restriction.inputs) := by
  rw [mark, h]
  dsimp only
  split
  · rw [get?_set, if_neg (by simp [Attribute.kind]), get?_set, if_pos ⟨rfl, rfl⟩]
  · rw [get?_set, if_pos ⟨rfl, rfl⟩]

theorem get?_mark_other {entry : NodeId × Node α} {kind : AttributeKind} (h : v ≠ entry.1) :
    (mark restrictions s entry).get? (.node v) kind = s.get? (.node v) kind := by
  have hset : ∀ (t : AttributeStore α) value,
      (t.set (.node entry.1) value).get? (.node v) kind = t.get? (.node v) kind := by
    intro t value
    rw [get?_set, if_neg (by simp [h])]
  rw [mark]
  split <;> split <;> simp only [hset]

theorem preserved_mark_self (h : n.op.preservesPrecision = false) :
    (mark restrictions s (v, n)).get? (.node v) .precisionPreserved =
      s.get? (.node v) .precisionPreserved := by
  rw [mark]
  dsimp only
  rw [if_neg (by simp [h])]
  split
  · rw [get?_set, if_neg (by simp [Attribute.kind])]
  · rfl

theorem marks (restrictions : List OperationRestriction) (restriction : OperationRestriction)
    (entries : List (NodeId × Node α)) (hlive : ∀ e ∈ entries, g.node? e.1 = some e.2)
    (hn : g.node? v = some n) (s : AttributeStore α) :
    (restrictions.find? (·.kind = n.kind) = some restriction →
      (v, n) ∈ entries ∨ s.get? (.node v) .precisionRestriction =
        some (.precisionRestriction restriction.inputs) →
      (entries.foldl (mark restrictions) s).get? (.node v) .precisionRestriction =
        some (.precisionRestriction restriction.inputs)) ∧
    (n.op.preservesPrecision = false →
      (entries.foldl (mark restrictions) s).get? (.node v) .precisionPreserved =
        s.get? (.node v) .precisionPreserved) := by
  induction entries generalizing s with
  | nil => exact ⟨fun _ h => h.resolve_left (by simp), fun _ => rfl⟩
  | cons entry entries ih =>
    obtain ⟨hentry, hlive⟩ := List.forall_mem_cons.mp hlive
    obtain ⟨hrestriction, hpreserved⟩ := ih hlive (mark restrictions s entry)
    by_cases hv : v = entry.1
    · obtain ⟨u, m⟩ := entry
      obtain rfl : v = u := hv
      cases hn.symm.trans hentry
      exact ⟨fun hfind _ => hrestriction hfind (.inr (restriction_mark_self hfind)),
        fun hop => (hpreserved hop).trans (preserved_mark_self hop)⟩
    · refine ⟨fun hfind h => hrestriction hfind ?_,
        fun hop => (hpreserved hop).trans (get?_mark_other hv)⟩
      rcases h with h | h
      · refine .inl ((List.mem_cons.mp h).resolve_left ?_)
        rintro rfl
        exact hv rfl
      · exact .inr ((get?_mark_other hv).trans h)

theorem precisions_marks (restrictions : List OperationRestriction)
    (restriction : OperationRestriction) (hn : g.node? v = some n) :
    (restrictions.find? (·.kind = n.kind) = some restriction →
      (precisions restrictions g).attributes.get? (.node v) .precisionRestriction =
        some (.precisionRestriction restriction.inputs)) ∧
    (n.op.preservesPrecision = false →
      (precisions restrictions g).attributes.get? (.node v) .precisionPreserved = none) := by
  have hmarks := marks restrictions restriction g.liveNodes (fun e he => Graph.WellFormed.mem_liveNodes.mp he) hn
    ((g.attributes.clear .precisionRestriction).clear .precisionPreserved)
  refine ⟨fun hfind => hmarks.1 hfind (.inl (Graph.WellFormed.mem_liveNodes.mpr hn)), fun hop => ?_⟩
  refine (hmarks.2 hop).trans ?_
  rw [get?_clear, if_pos rfl]

def poolMarks (g : Graph α) : List (NodeId × Bool) :=
  (g.liveNodes.filter (·.2.kind = .avgPool)).map fun (id, n) =>
    (id, isQuantizedAbove g n && isConsumedBelow g id)

def setMarks (marks : List (NodeId × Bool)) (s : AttributeStore α) : AttributeStore α :=
  marks.foldl (fun s (id, preserved) => s.set (.node id) (.precisionPreserved preserved)) s

theorem averagePooling_eq (g : Graph α) :
    averagePooling g = { g with attributes := setMarks (poolMarks g) g.attributes } := rfl

theorem kind_of_poolMarks : ∀ e ∈ poolMarks g, g.kind? e.1 = some .avgPool := by
  intro e he
  obtain ⟨⟨u, m⟩, hm, rfl⟩ := List.mem_map.mp he
  obtain ⟨hlive, hkind⟩ := List.mem_filter.mp hm
  rw [Graph.kind?, Graph.WellFormed.mem_liveNodes.mp hlive]
  exact congrArg some (of_decide_eq_true hkind)

theorem averagePooling_get? {target : Target} {kind : AttributeKind}
    (h : kind ≠ .precisionPreserved ∨ ∀ v, target = .node v → g.kind? v ≠ some .avgPool) :
    (averagePooling g).attributes.get? target kind = g.attributes.get? target kind := by
  rw [averagePooling_eq]
  have hpools := kind_of_poolMarks (g := g)
  generalize poolMarks g = pools at hpools
  generalize g.attributes = s
  induction pools generalizing s with
  | nil => rfl
  | cons e pools ih =>
    obtain ⟨he, hpools⟩ := List.forall_mem_cons.mp hpools
    refine (ih hpools _).trans ?_
    rw [get?_set, if_neg]
    rintro ⟨rfl, rfl⟩
    rcases h with h | h
    · exact h rfl
    · exact h e.1 rfl he

def MarksPassing (g : Graph α) (s : AttributeStore α) : Prop :=
  ∀ e ∈ s.entries, e.1.kind = .precisionRestriction ∨ e.1.kind = .precisionPreserved →
    e.2 = .precisionPreserved true → g.IsPassing e.1.target.owner

theorem MarksPassing.set (h : MarksPassing g s) {target : Target} {value : Attribute}
    (hvalue : value = .precisionPreserved true → g.IsPassing target.owner) :
    MarksPassing g (s.set target value) := by
  intro e he hkind hmark
  rcases mem_set he with rfl | he
  · exact hvalue hmark
  · exact h e he hkind hmark

theorem precisions_marksPassing (restrictions : List OperationRestriction) (g : Graph α) :
    MarksPassing g (precisions restrictions g).attributes := by
  have hlive : ∀ e ∈ g.liveNodes, g.node? e.1 = some e.2 :=
    fun e he => Graph.WellFormed.mem_liveNodes.mp he
  have hstart : MarksPassing g
      ((g.attributes.clear .precisionRestriction).clear .precisionPreserved) := by
    intro e he hkind _
    obtain ⟨he, hpreserved⟩ := mem_clear he
    exact absurd hkind (not_or.mpr ⟨(mem_clear he).2, hpreserved⟩)
  have hfold : ∀ entries : List (NodeId × Node α), (∀ e ∈ entries, g.node? e.1 = some e.2) →
      ∀ s, MarksPassing g s → MarksPassing g (entries.foldl (mark restrictions) s) := by
    intro entries
    induction entries with
    | nil => exact fun _ s hs => hs
    | cons entry entries ih =>
      intro hlive s hs
      obtain ⟨hentry, hlive⟩ := List.forall_mem_cons.mp hlive
      refine ih hlive _ ?_
      obtain ⟨u, hu, hmark⟩ := mark_cases restrictions s entry
      have hrestricted : MarksPassing g u := by
        rcases hu with rfl | ⟨inputs, rfl⟩
        · exact hs
        · exact hs.set (by simp)
      rcases hmark with hmark | ⟨hop, hmark⟩
      · exact hmark ▸ hrestricted
      · exact hmark ▸ hrestricted.set fun _ => ⟨entry.2.kind,
          by rw [Target.owner, Graph.kind?, hentry]; rfl, Op.passes_of_preservesPrecision hop⟩
  exact hfold g.liveNodes hlive _ hstart

theorem averagePooling_marksPassing (h : MarksPassing g g.attributes) :
    MarksPassing g (averagePooling g).attributes := by
  rw [averagePooling_eq]
  have hpools : ∀ e ∈ poolMarks g, g.IsPassing e.1 :=
    fun e he => ⟨.avgPool, kind_of_poolMarks e he, by decide⟩
  generalize poolMarks g = pools at hpools
  generalize g.attributes = s at h
  induction pools generalizing s with
  | nil => exact h
  | cons e pools ih =>
    obtain ⟨he, hpools⟩ := List.forall_mem_cons.mp hpools
    exact ih hpools _ (h.set fun _ => he)

theorem not_preserves_of_fakeQuantize {op : Op α} (h : op.kind = .fakeQuantize) :
    op.preservesPrecision = false := by
  cases op <;> first | rfl | cases h

def prepared (restrictions : List OperationRestriction) (g : Graph α) : Graph α :=
  averagePooling (precisions restrictions g)

theorem prepared_eq (restrictions : List OperationRestriction) (g : Graph α) :
    ∃ a, prepared restrictions g = { g with attributes := a } := ⟨_, rfl⟩

theorem preserves_prepared_of_fakeQuantize (hv : g.kind? v = some .fakeQuantize) :
    (prepared restrictions g).preservesPrecision v = false := by
  obtain ⟨n, hn, hkind⟩ := Option.map_eq_some_iff.mp hv
  have hop := not_preserves_of_fakeQuantize hkind
  have hnone : (prepared restrictions g).attributes.get? (.node v) .precisionPreserved = none := by
    rw [prepared, averagePooling_get?]
    · exact (precisions_marks _ ⟨.fakeQuantize, []⟩ hn).2 hop
    · refine .inr fun u hu hpool => ?_
      obtain rfl : v = u := Target.node.inj hu
      cases hv.symm.trans hpool
  rw [Graph.preservesPrecision, precisionPreserved?, hnone,
    show (prepared restrictions g).node? v = some n from hn]
  exact hop

theorem restriction?_prepared (hn : g.node? v = some n)
    (hfind : restrictions.find? (·.kind = n.kind) = some restriction) :
    (prepared restrictions g).attributes.restriction? v = some restriction.inputs := by
  rw [restriction?, prepared, averagePooling_get? (.inl (by simp)),
    (precisions_marks restrictions restriction hn).1 hfind]

theorem prepared_marksPassing (restrictions : List OperationRestriction) (g : Graph α) :
    MarksPassing g (prepared restrictions g).attributes :=
  averagePooling_marksPassing (g := precisions restrictions g)
    (precisions_marksPassing restrictions g)

end Marks

section Propagation

variable {g g' g'' : Graph α} {f v : NodeId} {slot : Slot}

structure MarkedAlike (g g' : Graph α) : Prop where
  node (v : NodeId) : g'.node? v = g.node? v
  get? (v : NodeId) (kind : AttributeKind) : kind = .precisionRestriction ∨ kind = .precisionPreserved →
    g'.attributes.get? (.node v) kind = g.attributes.get? (.node v) kind

namespace MarkedAlike

theorem symm (h : MarkedAlike g g') : MarkedAlike g' g :=
  ⟨fun v => (h.node v).symm, fun v kind hkind => (h.get? v kind hkind).symm⟩

theorem trans (h : MarkedAlike g g') (h' : MarkedAlike g' g'') : MarkedAlike g g'' :=
  ⟨fun v => (h'.node v).trans (h.node v),
    fun v kind hkind => (h'.get? v kind hkind).trans (h.get? v kind hkind)⟩

theorem preserves (h : MarkedAlike g g') (v : NodeId) :
    g'.preservesPrecision v = g.preservesPrecision v :=
  preservesPrecision_congr (h.node v) (h.get? v _ (.inr rfl))

theorem input? (h : MarkedAlike g g') (v : NodeId) (index : Nat) :
    g'.input? v index = g.input? v index := by
  rw [Graph.input?, Graph.input?, h.node]

theorem carries (h : MarkedAlike g g') (hcarries : g.Carries f slot) : g'.Carries f slot := by
  induction hcarries with
  | source => exact .source
  | pass hpass hinput _ ih => exact .pass ((h.preserves _).trans hpass) ((h.input? _ _).trans hinput) ih

theorem restricts {types : List ElementType} (h : MarkedAlike g g')
    (hrestricts : g.Restricts v slot types) : g'.Restricts v slot types := by
  obtain ⟨⟨n, hn, hkind⟩, hcomputes, inputs, index, hinputs, hentry, hslot⟩ := hrestricts
  refine ⟨⟨n, (h.node v).trans hn, hkind⟩, (h.preserves v).trans hcomputes, inputs, index, ?_, hentry,
    (h.input? v index).trans hslot⟩
  rw [restriction?, h.get? v _ (.inl rfl)]
  exact hinputs

theorem kind? (h : MarkedAlike g g') (v : NodeId) : g'.kind? v = g.kind? v := by
  rw [Graph.kind?, Graph.kind?, h.node]

theorem port? (h : MarkedAlike g g') (s : Slot) : g'.port? s = g.port? s := by
  rw [Graph.port?, Graph.port?, Graph.port, Graph.port, Graph.node, Graph.node, h.node]

theorem source (h : MarkedAlike g g') (hg : g'.WellFormed) (hf : Source g f) : Source g' f where
  wellFormed := hg
  ends v hv := (h.preserves v).trans (hf.ends v ((h.kind? v).symm.trans hv))
  kind := (h.kind? f).trans hf.kind
  port := by rw [h.port?]; exact hf.port

end MarkedAlike

theorem Propagated.start (hcells : g.attributes.precisionCells = .empty)
    (hnone : ∀ slot, g.attributes.get? (.output slot) .precisions = none) :
    Propagated g f [] g.attributes where
  grouped := by
    refine ⟨hcells ▸ SharedCells.linked_empty, fun slot group hgroup => ?_⟩
    rw [precisionGroup?_eq_some, hnone] at hgroup
    cases hgroup
  closed _ _ _ hv _ := by simp at hv
  other _ _ _ := rfl
  eightBit h := by simp at h
  together _ _ h _ := by simp at h
  bounded _ _ _ h _ _ := by simp at h

def Settled (g : Graph α) : Prop :=
  ∀ f, Source g f → Bounded g.attributes ⟨f, 0⟩ PrecisionSet.eightBit ∧
    ∀ v slot types, g.Restricts v slot types → g.Carries f slot → Bounded g.attributes ⟨f, 0⟩ types

theorem visits_kept {order : List NodeId} {s s' : AttributeStore α} (h : s.Grouped)
    (hrun : order.foldlM (fun s id =>
      match g.node? id with
      | some n => propagateNode g id n s
      | none => return s) s = (.ok s' : Checked (AttributeStore α))) :
    (∀ target kind, kind ≠ .precisions → s'.get? target kind = s.get? target kind) ∧
      KeepsMarks s s' := by
  induction order generalizing s with
  | nil =>
    cases hrun
    exact ⟨fun _ _ _ => rfl, fun _ he _ => he⟩
  | cons id order ih =>
    rw [List.foldlM_cons] at hrun
    obtain ⟨t, hstep, hrun⟩ := except_bind_eq_ok.mp hrun
    split at hstep
    · have hassigns := (propagateNode_visited h hstep).assigns
      obtain ⟨hget, hmarks⟩ := ih hassigns.grouped hrun
      exact ⟨fun target kind hkind => (hget target kind hkind).trans
        (hassigns.other target kind (.inl hkind)),
        fun e he hkind => hassigns.marks e (hmarks e he hkind) hkind⟩
    · cases hstep
      exact ih h hrun

theorem propagatePrecisions_settled (hg : g.WellFormed)
    (hrun : exec (propagatePrecisions : Edit α TransformError Unit) g = .ok (.ok (), g')) :
    MarkedAlike g g' ∧ Settled g' ∧ KeepsMarks (g.attributes.clear .precisions) g'.attributes := by
  rw [propagatePrecisions] at hrun
  obtain ⟨⟨⟩, g₁, hclear, hget⟩ := exec_bind_eq_answer.mp hrun
  cases hclear
  obtain ⟨k, hk⟩ : ∃ k, k = withStore (·.clear .precisions) g := ⟨_, rfl⟩
  rw [← hk, exec_bind_ok (exec_getThe k)] at hget
  obtain ⟨order, g₃, horder, hvisits⟩ := exec_bind_eq_answer.mp hget
  obtain ⟨store, g₂, hstore, hset⟩ := exec_bind_eq_answer.mp hvisits
  rw [Edit.ofGraph, exec_adapt_eq_ok, Edit.exec_attempt_eq_ok] at horder
  obtain ⟨horder, rfl⟩ := horder
  obtain ⟨hstore, rfl⟩ := exec_lift_eq_ok.mp hstore
  cases hset
  have hwf : g₂.WellFormed := hk ▸ hg.of_attributes _
  have hstart : ∀ f, Propagated g₂ f [] g₂.attributes := by
    intro f
    rw [hk]
    refine .start rfl fun slot => ?_
    exact (get?_clear _ _ _ _).trans (if_pos rfl)
  have hcleared : MarkedAlike g g₂ := by
    rw [hk]
    refine ⟨fun _ => rfl, fun v kind hkind => (get?_clear _ _ _ _).trans (if_neg ?_)⟩
    rcases hkind with rfl | rfl <;> simp
  obtain ⟨hinOrder, hperm⟩ := Graph.topologicalOrder_sorted hwf horder
  have hall : ∀ v kind, g₂.kind? v = some kind → v ∈ order := by
    intro v kind hkind
    obtain ⟨n, hn, -⟩ := Option.map_eq_some_iff.mp hkind
    exact hperm.mem_iff.mpr (List.mem_map.mpr ⟨_, Graph.WellFormed.mem_liveNodes.mpr hn, rfl⟩)
  obtain ⟨hget, hmarks⟩ := visits_kept (hstart 0).grouped hstore
  have hsame : MarkedAlike g₂ (withStore (fun _ => store) g₂) :=
    ⟨fun _ => rfl, fun v kind hkind => hget _ _ (by rcases hkind with rfl | rfl <;> simp)⟩
  refine ⟨hcleared.trans hsame, fun f hf => ?_, hk ▸ hmarks⟩
  have hf₂ := hsame.symm.source hwf hf
  obtain ⟨placed, hmem, h⟩ := (hstart f).visit hf₂ hinOrder hstore
  have hplaced : ∀ v kind, g₂.kind? v = some kind → v ∈ placed :=
    fun v kind hkind => (hmem v).mpr (.inr (hall v kind hkind))
  refine ⟨h.eightBit (hplaced f _ hf₂.kind), fun v slot types hrestricts hcarries => ?_⟩
  have hrestricts₂ := hsame.symm.restricts hrestricts
  obtain ⟨n, hn, -⟩ := hrestricts₂.kind
  exact h.bounded v slot types (hplaced v n.kind (by rw [Graph.kind?, hn]; rfl)) hrestricts₂
    (hsame.symm.carries hcarries)

end Propagation

section Passes

variable {g g' : Graph α} {s : AttributeStore α} {slot : Slot} {types : List ElementType}

theorem Bounded.same {s' : AttributeStore α} (h : Bounded s slot types) (hsame : SamePrecisions s s') :
    Bounded s' slot types := by
  obtain ⟨group, held, hgroup, hheld, hsub⟩ := h
  refine ⟨group, held, ?_, hsame.cells ▸ hheld, hsub⟩
  rw [precisionGroup?_congr (hsame.get? _ _ (by simp) (by simp)), hgroup]

theorem Settled.aligned (h : Settled g) (hg : g.WellFormed) (hgraph : ∃ a, g' = { g with attributes := a })
    (hsame : SamePrecisions g.attributes g'.attributes) : MarkedAlike g g' ∧ Settled g' := by
  have halike : MarkedAlike g g' := by
    obtain ⟨a, rfl⟩ := hgraph
    refine ⟨fun _ => rfl, fun v kind hkind => hsame.get? _ _ ?_ ?_⟩ <;>
      rcases hkind with rfl | rfl <;> simp
  refine ⟨halike, fun f hf => ?_⟩
  obtain ⟨heightBit, hbounded⟩ := h f (halike.symm.source hg hf)
  refine ⟨heightBit.same hsame, fun v slot types hrestricts hcarries => ?_⟩
  exact (hbounded v slot types (halike.symm.restricts hrestricts) (halike.symm.carries hcarries)).same
    hsame

theorem set_eq_ok {f : Graph α → Checked (Graph α)}
    (hrun : exec (do MonadStateOf.set (← (f (← getThe (Graph α)) : Checked (Graph α))) :
      Edit α TransformError Unit) g = .ok (.ok (), g')) : f g = .ok g' := by
  rw [exec_bind_ok (exec_getThe g)] at hrun
  obtain ⟨k, t, hk, hset⟩ := exec_bind_eq_answer.mp hrun
  obtain ⟨hk, rfl⟩ := exec_lift_eq_ok.mp hk
  cases hset
  exact hk

variable [Scalar α] {settings : Settings} {t t' : Session α}

/-- What the analyses leave for the rules. -/
structure Analysed (restrictions : List OperationRestriction) (g : Graph α) : Prop where
  wellFormed : g.WellFormed
  ends (v : NodeId) : g.kind? v = some .fakeQuantize → g.preservesPrecision v = false
  restricts (v : NodeId) (n : Node α) (restriction : OperationRestriction) : g.node? v = some n →
    restrictions.find? (·.kind = n.kind) = some restriction →
      g.attributes.restriction? v = some restriction.inputs
  settled : Settled g
  marked : g.Marked

theorem passes_of_analyses (hrun : exec (Pipeline.analyses settings) t = .ok (.ok (), t')) :
    ∃ g₃ g₄, exec propagatePrecisions (prepared settings.restrictions t.graph) = .ok (.ok (), g₃) ∧
      alignIntervals g₃ = .ok g₄ ∧ alignParameters g₄ = .ok t'.graph := by
  have hpass : ∀ (pass : MarkupPass) (u u' : Session α),
      exec (ExceptT.adapt (RunError.markup pass) (Rewrite.edit (pass.run settings.restrictions))) u =
        .ok (.ok (), u') → exec (pass.run settings.restrictions) u.graph = .ok (.ok (), u'.graph) :=
    fun pass u u' h => (Rewrite.exec_edit_eq.mp (exec_adapt_eq_ok.mp h)).1
  rw [Pipeline.analyses, MarkupPass.all, List.forM] at hrun
  obtain ⟨⟨⟩, t₁, h₁, hrest₁⟩ := exec_bind_eq_answer.mp hrun
  obtain ⟨⟨⟩, t₂, h₂, hrest₂⟩ := exec_bind_eq_answer.mp hrest₁
  obtain ⟨⟨⟩, t₃, h₃, hrest₃⟩ := exec_bind_eq_answer.mp hrest₂
  obtain ⟨⟨⟩, t₄, h₄, hrest₄⟩ := exec_bind_eq_answer.mp hrest₃
  obtain ⟨⟨⟩, t₅, h₅, hrest₅⟩ := exec_bind_eq_answer.mp hrest₄
  cases hrest₅
  have hprecisions : t₁.graph = precisions settings.restrictions t.graph :=
    (Prod.mk.inj (Except.ok.inj (hpass _ _ _ h₁))).2.symm
  have hprepared : t₂.graph = prepared settings.restrictions t.graph :=
    (Prod.mk.inj (Except.ok.inj (hpass _ _ _ h₂))).2.symm.trans (congrArg averagePooling hprecisions)
  exact ⟨t₃.graph, t₄.graph, hprepared ▸ hpass _ _ _ h₃, set_eq_ok (hpass _ _ _ h₄),
    set_eq_ok (hpass _ _ _ h₅)⟩

theorem analysed_of_analyses (hg : t.graph.WellFormed)
    (hrun : exec (Pipeline.analyses settings) t = .ok (.ok (), t')) :
    Analysed settings.restrictions t'.graph := by
  obtain ⟨g₃, g₄, hpropagate, hintervals, hparameters⟩ := passes_of_analyses hrun
  have hwf : ∀ {k k' : Graph α}, k.WellFormed → (∃ a, k' = { k with attributes := a }) →
      k'.WellFormed := by
    rintro k _ hk ⟨a, rfl⟩
    exact hk.of_attributes _
  have hg₂ := hwf hg (prepared_eq settings.restrictions t.graph)
  have hg₃ := hwf hg₂ (Pipeline.annotates_markup settings.restrictions .propagatePrecisions _ _ _
    hpropagate)
  have hgraph₄ := Pipeline.alignIntervals_eq_ok hintervals
  have hgraph₅ := Pipeline.alignParameters_eq_ok hparameters
  have hg₄ := hwf hg₃ hgraph₄
  have hsame₄ := alignIntervals_same hintervals
  have hsame₅ := alignParameters_same hparameters
  obtain ⟨halike₃, hsettled₃, hmarks₃⟩ := propagatePrecisions_settled hg₂ hpropagate
  obtain ⟨halike₄, hsettled₄⟩ := hsettled₃.aligned hg₃ hgraph₄
    ((SamePrecisions.clear _ (.inl rfl)).trans hsame₄)
  obtain ⟨halike₅, hsettled₅⟩ := hsettled₄.aligned hg₄ hgraph₅
    ((SamePrecisions.clear _ (.inr rfl)).trans hsame₅)
  have halike := (halike₃.trans halike₄).trans halike₅
  refine ⟨hwf hg₄ hgraph₅, fun v hv => ?_, fun v n restriction hn hfind => ?_, hsettled₅,
    fun e he hmark => ?_⟩
  · exact (halike.preserves v).trans
      (preserves_prepared_of_fakeQuantize ((halike.kind? v).symm.trans hv))
  · rw [restriction?, halike.get? v _ (.inl rfl)]
    exact restriction?_prepared ((halike.node v).symm.trans hn) hfind
  · -- Each later pass clears its own kind of entry first, so a mark among them is from the start.
    have hkind : e.2.kind = .precisionPreserved := by rw [hmark]; rfl
    obtain ⟨he₄, halignment⟩ := mem_clear (hsame₅.marks e he hkind)
    obtain ⟨he₃, hinterval⟩ := mem_clear (hsame₄.marks e he₄ hkind)
    obtain ⟨he₂, hprecision⟩ := mem_clear (hmarks₃ e he₃ hkind)
    obtain ⟨k, hk, hpasses⟩ := prepared_marksPassing settings.restrictions t.graph e he₂ (by
      cases hfiled : e.1.kind with
      | precisionRestriction => exact .inl rfl
      | precisionPreserved => exact .inr rfl
      | precisions => exact absurd hfiled hprecision
      | intervals => exact absurd hfiled hinterval
      | alignment => exact absurd hfiled halignment) hmark
    exact ⟨k, (halike.kind? _).trans hk, hpasses⟩

end Passes

end Markup

end LowPrecision
