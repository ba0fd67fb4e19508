import LowPrecision.Proofs.Attributes.Agreement
import LowPrecision.Proofs.Markup.Analyses

namespace LowPrecision

open AttributeStore

variable {α : Type} {g : Graph α} {p : AttributeKind → Prop} {s s' t t' : AttributeStore α}

section Stores

namespace Graph

theorem walk_store (next : NodeId → Node α → List NodeId) (visited queue : List NodeId) :
    ({ g with attributes := t } : Graph α).walk next visited queue = g.walk next visited queue := by
  have hnode : ∀ id, ({ g with attributes := t } : Graph α).node? id = g.node? id := fun _ => rfl
  fun_induction Graph.walk g next visited queue with
  | case1 => rw [walk]
  | _ =>
    rw [walk]
    split <;> simp_all

theorem reach_store (next : NodeId → Node α → List NodeId) (start : List NodeId) :
    ({ g with attributes := t } : Graph α).reach next start = g.reach next start := by
  rw [reach, reach, walk_store]

theorem drain_store (count : Nat) (f : Frontier) :
    ({ g with attributes := t } : Graph α).drain count f = g.drain count f := by
  induction count generalizing f with
  | zero => rfl
  | succ count ih =>
    rw [drain, drain]
    simp only [ih]
    rfl

theorem topologicalOrder_store :
    ({ g with attributes := t } : Graph α).topologicalOrder = g.topologicalOrder := by
  rw [topologicalOrder, topologicalOrder, drain_store]
  rfl

theorem preservesPrecision_agree (h : Agree p g.attributes t) (hp : p .precisionPreserved) :
    ({ g with attributes := t } : Graph α).preservesPrecision = g.preservesPrecision := by
  funext id
  rw [preservesPrecision, preservesPrecision, h.precisionPreserved? hp]
  rfl

end Graph

namespace Region

variable (h : ({ g with attributes := t } : Graph α).preservesPrecision = g.preservesPrecision)

include h

theorem concatsBelow_store (id : NodeId) :
    concatsBelow { g with attributes := t } id = concatsBelow g id := by
  rw [concatsBelow, concatsBelow, h, Graph.reach_store]
  rfl

theorem grow_store (fanOut : Bool) (r : Region) (pending queue : List NodeId) :
    grow { g with attributes := t } fanOut r pending queue = grow g fanOut r pending queue := by
  have hnode : ∀ id, ({ g with attributes := t } : Graph α).node? id = g.node? id := fun _ => rfl
  fun_induction grow g fanOut r pending queue with
  | case1 => rw [grow]
  | case7 r pending id queue n hn hmem hkind below ih =>
    rw [grow]
    split <;> simp_all [concatsBelow_store h, below]
  | _ =>
    rw [grow]
    split <;> simp_all

theorem behind_store (concat : NodeId) : behind { g with attributes := t } concat = behind g concat := by
  rw [behind, behind, collect, collect, grow_store h]
  rfl

end Region

end Stores

namespace Markup

section Marks

variable {restrictions : List OperationRestriction}

theorem mark_writes (s : AttributeStore α) (entry : NodeId × Node α) :
    Writes [.precisionRestriction, .precisionPreserved] s (mark restrictions s entry) := by
  obtain ⟨u, hu, hmark⟩ := mark_cases restrictions s entry
  have hrestricted : Writes [.precisionRestriction, .precisionPreserved] s u := by
    rcases hu with rfl | ⟨inputs, rfl⟩
    · exact .refl _ _
    · exact .set s _ (by simp [Attribute.kind])
  rcases hmark with hmark | ⟨-, hmark⟩
  · exact hmark ▸ hrestricted
  · exact hmark ▸ hrestricted.trans (.set _ _ (by simp [Attribute.kind]))

theorem mark_agree (restrictions : List OperationRestriction) (h : Agree p s t) (entry : NodeId × Node α) :
    Agree p (mark restrictions s entry) (mark restrictions t entry) := by
  rw [mark, mark]
  split <;> split
  · exact (h.set _ _).set _ _
  · exact h.set _ _
  · exact h.set _ _
  · exact h

theorem precisions_writes (restrictions : List OperationRestriction) (g : Graph α) :
    Writes [.precisionRestriction, .precisionPreserved] g.attributes
      (precisions restrictions g).attributes :=
  ((Writes.clear _ (by simp)).trans (.clear _ (by simp))).trans
    (.foldl g.liveNodes mark_writes _)

theorem precisions_agree (restrictions : List OperationRestriction) (h : Agree p g.attributes t) :
    Agree (fun kind => kind ∈ [.precisionRestriction, .precisionPreserved] ∨ p kind)
      (precisions restrictions g).attributes
      (precisions restrictions { g with attributes := t }).attributes := by
  have hcleared := (h.clear .precisionRestriction).clear .precisionPreserved
  have hmarked := hcleared.foldl g.liveNodes
    fun s t entry hst => mark_agree restrictions hst entry
  refine hmarked.mono fun kind hkind => ?_
  simp only [List.mem_cons, List.not_mem_nil, or_false] at hkind
  tauto

section Transparency

variable (h : isTransparent { g with attributes := t } = isTransparent g)

include h

theorem isQuantizedAbove_store :
    isQuantizedAbove { g with attributes := t } = isQuantizedAbove g := by
  funext n
  rw [isQuantizedAbove, isQuantizedAbove, h, Graph.reach_store]
  rfl

theorem isConsumedBelow_store :
    isConsumedBelow { g with attributes := t } = isConsumedBelow g := by
  funext id
  rw [isConsumedBelow, isConsumedBelow, h, Graph.reach_store]
  rfl

theorem poolMarks_store : poolMarks { g with attributes := t } = poolMarks g := by
  rw [poolMarks, poolMarks, isQuantizedAbove_store h, isConsumedBelow_store h]
  rfl

end Transparency

theorem isTransparent_store (h : ∀ id, g.kind? id ≠ some .avgPool →
      t.get? (.node id) .precisionPreserved = g.attributes.get? (.node id) .precisionPreserved) :
    isTransparent { g with attributes := t } = isTransparent g := by
  funext id
  rw [isTransparent, isTransparent]
  by_cases hkind : g.kind? id = some .avgPool
  · have hkind' : ({ g with attributes := t } : Graph α).kind? id = some .avgPool := hkind
    rw [hkind, hkind']
    rfl
  · have hpass : ({ g with attributes := t } : Graph α).preservesPrecision id =
        g.preservesPrecision id := preservesPrecision_congr rfl (h id hkind)
    rw [hpass]
    rfl

theorem averagePooling_writes (g : Graph α) :
    Writes [.precisionPreserved] g.attributes (averagePooling g).attributes :=
  .foldl _ (fun s mark => .set s _ (by simp [Attribute.kind])) _

theorem get?_setMarks {marks : List (NodeId × Bool)}
    (h : ∀ target kind, (∀ mark ∈ marks, kind = .precisionPreserved → target ≠ .node mark.1) →
      s.get? target kind = t.get? target kind) (target : Target) (kind : AttributeKind) :
    (setMarks marks s).get? target kind = (setMarks marks t).get? target kind := by
  induction marks generalizing s t with
  | nil => exact h target kind (by simp)
  | cons mark marks ih =>
    refine ih fun other kind hother => ?_
    rw [get?_set, get?_set]
    split
    · rfl
    · next hne =>
      refine h other kind (List.forall_mem_cons.mpr ⟨fun hkind hnode => ?_, hother⟩)
      exact hne ⟨hnode, hkind⟩

theorem get?_setMarks_other {marks : List (NodeId × Bool)} {target : Target} {kind : AttributeKind}
    (h : ∀ mark ∈ marks, kind = .precisionPreserved → target ≠ .node mark.1) :
    (setMarks marks s).get? target kind = s.get? target kind := by
  induction marks generalizing s with
  | nil => rfl
  | cons mark marks ih =>
    obtain ⟨hmark, hmarks⟩ := List.forall_mem_cons.mp h
    refine (ih hmarks).trans ((get?_set _ _ _ _ _).trans (if_neg ?_))
    exact fun hkey => hmark hkey.2 hkey.1

theorem averagePooling_idem (h : g.attributes.Filed) :
    averagePooling (averagePooling g) = averagePooling g := by
  have hwrites := averagePooling_writes g
  have hwrites' := averagePooling_writes (averagePooling g)
  have hmarks : poolMarks (averagePooling g) = poolMarks g :=
    poolMarks_store (isTransparent_store fun id hkind =>
      averagePooling_get? (.inr fun v hv => by cases hv; exact hkind))
  have hget : ∀ target kind, (averagePooling (averagePooling g)).attributes.get? target kind =
      (averagePooling g).attributes.get? target kind := by
    rw [averagePooling_eq (averagePooling g), hmarks]
    exact get?_setMarks fun target kind hother => get?_setMarks_other hother
  have hagree : Agree (fun _ => True) (averagePooling (averagePooling g)).attributes
      (averagePooling g).attributes :=
    ⟨fun target kind _ => hget target kind, fun _ => (hwrites'.agree.precisionCells (by simp)).symm,
      fun _ => (hwrites'.agree.intervalCells (by simp)).symm,
      fun _ => (hwrites'.agree.alignmentCells (by simp)).symm,
      fun _ => (hwrites'.agree.conflicts (by simp)).symm⟩
  have hfiled := hwrites.filed h
  exact congrArg (fun s => { g with attributes := s })
    (hagree.eq (fun _ => trivial) (hwrites'.filed hfiled) hfiled)

theorem averagePooling_agree (h : Agree p g.attributes t) (hp : p .precisionPreserved) :
    Agree p (averagePooling g).attributes (averagePooling { g with attributes := t }).attributes := by
  have hsame : poolMarks { g with attributes := t } = poolMarks g :=
    poolMarks_store (isTransparent_store fun id _ => (h.get? _ _ hp).symm)
  rw [averagePooling_eq, averagePooling_eq, hsame]
  exact h.foldl _ fun s t mark hst => hst.set _ _

end Marks

section Groups

variable {id : NodeId} {n : Node α}

theorem freshGroups_writes (id : NodeId) (outputs : Nat) (s : AttributeStore α) :
    Writes [.precisions] s (freshGroups id outputs s) :=
  .foldl _ (fun s index => (Writes.withPrecisionCells s _ (by simp)).trans
    (.set _ _ (by simp [Attribute.kind]))) s

theorem freshGroups_agree (h : Agree p s t) (hp : p .precisions) (id : NodeId) (outputs : Nat) :
    Agree p (freshGroups id outputs s) (freshGroups id outputs t) := by
  refine h.foldl _ fun s t index hst => ?_
  dsimp only [newPrecisions]
  rw [hst.precisionCells hp]
  exact (hst.withPrecisionCells _).set _ _

theorem shareGroup_writes (id : NodeId) (outputs : Nat) (group : GroupId) (s : AttributeStore α) :
    Writes [.precisions] s (shareGroup id outputs group s) :=
  .foldl _ (fun s index => .set s _ (by simp [Attribute.kind])) s

theorem mergePrecisions_writes {a b group : GroupId} (hrun : s.mergePrecisions a b = .ok (group, s')) :
    Writes [.precisions] s s' := by
  obtain ⟨⟨root, cells⟩, -, hpure⟩ := except_bind_eq_ok.mp hrun
  cases hpure
  exact .withPrecisionCells s cells (by simp)

theorem narrow_writes (n : Node α) (entries : List InputRestriction) (s : AttributeStore α) :
    Writes [.precisions] s (narrow n entries s) := by
  refine .foldl _ (fun s entry => ?_) s
  split
  · exact .withPrecisionCells s _ (by simp)
  · exact .refl _ s

theorem narrow_agree (h : Agree p s t) (hp : p .precisions) (entries : List InputRestriction) :
    Agree p (narrow n entries s) (narrow n entries t) := by
  refine h.foldl _ fun s t entry hst => ?_
  rw [hst.precisionGroup? hp]
  split
  · rw [restrictPrecisions, restrictPrecisions, hst.precisionCells hp]
    exact hst.withPrecisionCells _
  · exact hst

theorem propagateNode_writes (hrun : propagateNode g id n s = .ok s') :
    Writes [.precisions] s s' := by
  rw [propagateNode] at hrun
  split at hrun
  · cases hrun
    exact freshGroups_writes id _ s
  split at hrun
  · split at hrun
    · cases hrun
      exact .refl _ s
    · obtain ⟨⟨merged, u⟩, hmerge, hshare⟩ := except_bind_eq_ok.mp hrun
      cases hshare
      exact (Writes.foldlM Prod.snd (fun _ _ _ h => mergePrecisions_writes h) hmerge).trans
        (shareGroup_writes id _ merged u)
  · cases hrun
    exact narrow_writes n _ s

theorem propagateNode_follows {t₀ : AttributeStore α}
    (hpass : ({ g with attributes := t₀ } : Graph α).preservesPrecision = g.preservesPrecision)
    (hrestriction : p .precisionRestriction) (hp : p .precisions) (h : Agree p s t)
    (hrun : propagateNode g id n s = .ok s') :
    ∃ t', propagateNode { g with attributes := t₀ } id n t = .ok t' ∧ Agree p s' t' := by
  rw [propagateNode] at hrun
  rw [propagateNode, hpass, ← h.precisionGroup? hp, ← h.restriction? hrestriction]
  split at hrun
  · next hkind =>
    cases hrun
    rw [if_pos hkind]
    exact ⟨_, rfl, freshGroups_agree h hp id _⟩
  next hkind =>
  rw [if_neg hkind]
  split at hrun
  · next hpreserved =>
    rw [if_pos hpreserved]
    split at hrun
    · cases hrun
      exact ⟨t, rfl, h⟩
    · next first rest hgroups =>
      obtain ⟨⟨merged, u⟩, hmerge, hshare⟩ := except_bind_eq_ok.mp hrun
      cases hshare
      have hstart : (first, s).1 = (first, t).1 ∧ Agree p (first, s).2 (first, t).2 := ⟨rfl, h⟩
      obtain ⟨⟨_, u'⟩, hmerge', rfl, hu⟩ := foldlM_follows
        (r := fun c d : GroupId × AttributeStore α => c.1 = d.1 ∧ Agree p c.2 d.2)
        (k := fun c group => c.2.mergePrecisions c.1 group)
        (fun c d group c' hcd hstep => by
          obtain ⟨u, hu, hagree⟩ := hcd.2.mergePrecisions hp hstep
          exact ⟨(c'.1, u), hcd.1 ▸ hu, rfl, hagree⟩) hstart hmerge
      refine ⟨_, except_bind_eq_ok.mpr ⟨_, hmerge', rfl⟩, hu.foldl _ fun s t index hst => hst.set _ _⟩
  · next hpreserved =>
    cases hrun
    rw [if_neg hpreserved]
    exact ⟨_, rfl, narrow_agree h hp _⟩

def visit (g : Graph α) (s : AttributeStore α) (id : NodeId) : Checked (AttributeStore α) :=
  match g.node? id with
  | some n => propagateNode g id n s
  | none => return s

theorem visits_writes {order : List NodeId} (hrun : order.foldlM (visit g) s = .ok s') :
    Writes [.precisions] s s' := by
  refine Writes.foldlM id (fun s v s' hstep => ?_) hrun
  rw [visit] at hstep
  split at hstep
  · exact propagateNode_writes hstep
  · cases hstep
    exact .refl _ s

theorem visits_follow {t₀ : AttributeStore α} {order : List NodeId}
    (hpass : ({ g with attributes := t₀ } : Graph α).preservesPrecision = g.preservesPrecision)
    (hrestriction : p .precisionRestriction) (hp : p .precisions) (h : Agree p s t)
    (hrun : order.foldlM (visit g) s = .ok s') :
    ∃ t', order.foldlM (visit { g with attributes := t₀ }) t = .ok t' ∧ Agree p s' t' := by
  refine foldlM_follows (r := Agree p) (fun s t v s' hst hstep => ?_) h hrun
  rw [visit] at hstep ⊢
  split at hstep
  · next n hn =>
    rw [show ({ g with attributes := t₀ } : Graph α).node? v = some n from hn]
    exact propagateNode_follows hpass hrestriction hp hst hstep
  · next hnone =>
    cases hstep
    rw [show ({ g with attributes := t₀ } : Graph α).node? v = none from hnone]
    exact ⟨t, rfl, hst⟩

theorem exec_propagatePrecisions (g : Graph α) :
    exec (propagatePrecisions : Edit α TransformError Unit) g =
      match g.topologicalOrder.run with
      | .ok (.ok order) =>
        (order.foldlM (visit { g with attributes := g.attributes.clear .precisions })
          (g.attributes.clear .precisions)).map fun s => (.ok (), { g with attributes := s })
      | .ok (.error e) =>
        .ok (.error (.graph e), { g with attributes := g.attributes.clear .precisions })
      | .error fault => .error fault := by
  rw [propagatePrecisions, exec_bind_ok (Edit.exec_change _ g), exec_bind_ok (exec_getThe _)]
  change exec (Edit.ofGraph (Edit.attempt Graph.topologicalOrder) >>= fun order =>
    liftM (order.foldlM (visit { g with attributes := g.attributes.clear .precisions })
      (g.attributes.clear .precisions)) >>= fun store => Edit.change (withStore fun _ => store))
    { g with attributes := g.attributes.clear .precisions } = _
  rw [exec_bind, Edit.ofGraph, exec_adapt, Edit.exec_attempt, Graph.topologicalOrder_store]
  rcases g.topologicalOrder.run with fault | ⟨e | order⟩
  · rfl
  · rfl
  · dsimp only [Except.map, Except.mapError]
    rw [exec_bind, exec_lift]
    cases order.foldlM (visit { g with attributes := g.attributes.clear .precisions })
      (g.attributes.clear .precisions) <;> rfl

theorem propagatePrecisions_follows {r : Except TransformError Unit} (h : Agree p g.attributes t)
    (hrestriction : p .precisionRestriction) (hpreserved : p .precisionPreserved)
    (hrun : exec (propagatePrecisions : Edit α TransformError Unit) g =
      .ok (r, { g with attributes := s })) :
    ∃ u, exec (propagatePrecisions : Edit α TransformError Unit) { g with attributes := t } =
        .ok (r, { g with attributes := u }) ∧
      Agree (fun kind => kind = .precisions ∨ p kind) s u := by
  have hcleared := h.clear .precisions
  have hpass := Graph.preservesPrecision_agree
    (g := { g with attributes := g.attributes.clear .precisions }) hcleared (.inr hpreserved)
  rw [exec_propagatePrecisions] at hrun ⊢
  rw [Graph.topologicalOrder_store]
  generalize g.topologicalOrder.run = found at hrun ⊢
  match found, hrun with
  | .ok (.ok order), hrun =>
    obtain ⟨s', hs', hout⟩ := except_map_eq_ok.mp hrun
    obtain ⟨rfl, hgraph⟩ := Prod.mk.inj hout
    obtain rfl := (Graph.mk.inj hgraph).2.2
    obtain ⟨u, hu, hagree⟩ := visits_follow hpass (.inr hrestriction) (.inl rfl) hcleared hs'
    exact ⟨u, except_map_eq_ok.mpr ⟨u, hu, rfl⟩, hagree⟩
  | .ok (.error e), hrun =>
    obtain ⟨rfl, hgraph⟩ := Prod.mk.inj (Except.ok.inj hrun)
    obtain rfl := (Graph.mk.inj hgraph).2.2
    exact ⟨_, rfl, hcleared⟩

end Groups

section Intervals

variable [Scalar α]

theorem regionInterval?_store
    (h : ({ g with attributes := t } : Graph α).preservesPrecision = g.preservesPrecision) :
    regionInterval? { g with attributes := t } = regionInterval? g := by
  funext concat
  rw [regionInterval?, regionInterval?, Region.behind_store h]
  rfl

def joinMember (c : GroupId × AttributeStore α) (member : NodeId) :
    Checked (GroupId × AttributeStore α) :=
  match c.2.intervalGroup? member with
  | some existing => c.2.mergeIntervals existing c.1
  | none => return (c.1, c.2)

def addMember (group : GroupId) (s : AttributeStore α) (member : NodeId) : AttributeStore α :=
  if s.has (.node member) .intervals then s else s.set (.node member) (.intervals group)

theorem shareInterval_eq (interval : SharedInterval α) (members : List NodeId)
    (s : AttributeStore α) :
    shareInterval interval members s = do
      let c ← members.foldlM joinMember (s.newInterval interval)
      return members.foldl (addMember c.1) c.2 := rfl

theorem joinMember_writes {c c' : GroupId × AttributeStore α} {member : NodeId}
    (hrun : joinMember c member = .ok c') : Writes [.intervals] c.2 c'.2 := by
  rw [joinMember] at hrun
  split at hrun
  · obtain ⟨⟨root, cells⟩, -, hpure⟩ := except_bind_eq_ok.mp hrun
    cases hpure
    exact .withIntervalCells _ cells (by simp)
  · cases hrun
    exact .refl _ _

theorem joinMember_follows {c c' d : GroupId × AttributeStore α} {member : NodeId}
    (hp : p .intervals) (h : c.1 = d.1 ∧ Agree p c.2 d.2) (hrun : joinMember c member = .ok c') :
    ∃ d', joinMember d member = .ok d' ∧ c'.1 = d'.1 ∧ Agree p c'.2 d'.2 := by
  obtain ⟨hgroup, hagree⟩ := h
  rw [joinMember] at hrun ⊢
  rw [← hagree.intervalGroup? hp, ← hgroup]
  split at hrun
  · obtain ⟨u, hu, hagree'⟩ := hagree.mergeIntervals hp hrun
    exact ⟨(c'.1, u), hu, rfl, hagree'⟩
  · cases hrun
    exact ⟨(c.1, d.2), rfl, rfl, hagree⟩

theorem shareInterval_writes {interval : SharedInterval α} {members : List NodeId}
    (hrun : shareInterval interval members s = .ok s') : Writes [.intervals] s s' := by
  rw [shareInterval_eq] at hrun
  obtain ⟨c, hjoin, hset⟩ := except_bind_eq_ok.mp hrun
  cases hset
  have hnew : Writes [.intervals] s (s.newInterval interval).2 :=
    .withIntervalCells s _ (by simp)
  have hjoined := Writes.foldlM Prod.snd (fun _ _ _ h => joinMember_writes h) hjoin
  refine (hnew.trans hjoined).trans (.foldl members (fun u member => ?_) c.2)
  rw [addMember]
  split
  · exact .refl _ u
  · exact .set u _ (by simp [Attribute.kind])

theorem shareInterval_follows {interval : SharedInterval α} {members : List NodeId}
    (hp : p .intervals) (h : Agree p s t) (hrun : shareInterval interval members s = .ok s') :
    ∃ t', shareInterval interval members t = .ok t' ∧ Agree p s' t' := by
  rw [shareInterval_eq] at hrun
  obtain ⟨c, hjoin, hset⟩ := except_bind_eq_ok.mp hrun
  cases hset
  have hnew : (s.newInterval interval).1 = (t.newInterval interval).1 ∧
      Agree p (s.newInterval interval).2 (t.newInterval interval).2 := by
    rw [newInterval, newInterval, h.intervalCells hp]
    exact ⟨rfl, h.withIntervalCells _⟩
  obtain ⟨d, hjoin', hgroup, hagree⟩ := foldlM_follows
    (r := fun c d : GroupId × AttributeStore α => c.1 = d.1 ∧ Agree p c.2 d.2)
    (f := joinMember) (k := joinMember)
    (fun c d member c' hcd hstep => joinMember_follows hp hcd hstep) hnew hjoin
  rw [shareInterval_eq, hjoin']
  refine ⟨_, rfl, ?_⟩
  rw [hgroup]
  refine hagree.foldl members fun s t member hst => ?_
  rw [addMember, addMember, hst.has hp]
  split
  · exact hst
  · exact hst.set _ _

def alignRegion (g : Graph α) (s : AttributeStore α) (concat : NodeId) :
    Checked (AttributeStore α) :=
  match regionInterval? g concat with
  | some (interval, members) => shareInterval interval members s
  | none => return s

theorem alignIntervals_eq (g : Graph α) :
    alignIntervals g = ((g.ofKind .concat).foldlM (alignRegion g) (g.attributes.clear .intervals)).map
      fun s => { g with attributes := s } := by
  exact bind_pure_comp _ _

theorem alignRegion_writes {concat : NodeId} (hrun : alignRegion g s concat = .ok s') :
    Writes [.intervals] s s' := by
  rw [alignRegion] at hrun
  split at hrun
  · exact shareInterval_writes hrun
  · cases hrun
    exact .refl _ s

theorem alignRegion_follows {concat : NodeId} {t₀ : AttributeStore α}
    (hpass : ({ g with attributes := t₀ } : Graph α).preservesPrecision = g.preservesPrecision)
    (hp : p .intervals) (h : Agree p s t) (hrun : alignRegion g s concat = .ok s') :
    ∃ t', alignRegion { g with attributes := t₀ } t concat = .ok t' ∧ Agree p s' t' := by
  rw [alignRegion] at hrun ⊢
  rw [regionInterval?_store hpass]
  split at hrun
  · exact shareInterval_follows hp h hrun
  · cases hrun
    exact ⟨t, rfl, h⟩

theorem alignIntervals_follows (h : Agree p g.attributes t) (hp : p .precisionPreserved)
    (hrun : alignIntervals g = .ok { g with attributes := s }) :
    ∃ u, alignIntervals { g with attributes := t } = .ok { g with attributes := u } ∧
      Agree (fun kind => kind = .intervals ∨ p kind) s u := by
  have hpass := Graph.preservesPrecision_agree h hp
  rw [alignIntervals_eq] at hrun ⊢
  obtain ⟨s', hs', hgraph⟩ := except_map_eq_ok.mp hrun
  obtain rfl := (Graph.mk.inj hgraph).2.2
  obtain ⟨u, hu, hagree⟩ := foldlM_follows (r := Agree fun kind => kind = .intervals ∨ p kind)
    (f := alignRegion g) (k := alignRegion { g with attributes := t })
    (fun s t concat s' hst hstep => alignRegion_follows hpass (.inl rfl) hst hstep)
    (h.clear .intervals) hs'
  exact ⟨u, except_map_eq_ok.mpr ⟨u, hu, rfl⟩, hagree⟩

end Intervals

section Parameters

theorem alignedGroups_agree (h : Agree p g.attributes t) (hp : p .intervals) :
    alignedGroups { g with attributes := t } = alignedGroups g := by
  have hroot : t.intervalRoot? = g.attributes.intervalRoot? :=
    funext fun id => (h.intervalRoot? hp id).symm
  rw [alignedGroups, alignedGroups, hroot]
  rfl

variable [Scalar α]

theorem checkGroup_agree (h : Agree p g.attributes t) (hprecisions : p .precisions)
    (hintervals : p .intervals) : checkGroup { g with attributes := t } = checkGroup g := by
  have hallowed : allowedPrecisions { g with attributes := t } = allowedPrecisions g := by
    funext id
    rw [allowedPrecisions, allowedPrecisions, h.precisions? hprecisions]
  have hparams : memberParams { g with attributes := t } = memberParams g := by
    funext interval id
    rw [memberParams, memberParams, hallowed]
  funext group
  rw [checkGroup, checkGroup, hparams, h.interval? hintervals]
  rfl

def markGroup (g : Graph α) (s : AttributeStore α) (group : AlignedGroup) :
    Checked (AttributeStore α) := do
  let conflict ← (checkGroup g group).run
  let (cell, s) := s.newAlignment conflict.isOk
  let s := (group.fakeQuantizes ++ group.others).foldl (fun s member =>
    s.set (.node member) (.alignment cell)) s
  match conflict with
  | .ok () => return s
  | .error reason =>
    let members := group.fakeQuantizes.filterMap fun id => (g.node? id).map Node.name
    return s.addConflict ⟨members, reason⟩

theorem alignParameters_eq (g : Graph α) :
    alignParameters g =
      ((alignedGroups { g with attributes := g.attributes.clear .alignment }).foldlM
        (markGroup { g with attributes := g.attributes.clear .alignment })
        (g.attributes.clear .alignment)).map fun s => { g with attributes := s } := by
  exact bind_pure_comp _ _

theorem markGroup_writes {group : AlignedGroup} (hrun : markGroup g s group = .ok s') :
    Writes [.alignment] s s' := by
  obtain ⟨conflict, -, hrun⟩ := except_bind_eq_ok.mp hrun
  have hnew : Writes [.alignment] s (s.newAlignment conflict.isOk).2 :=
    .withAlignmentCells s _ (by simp)
  have hmember : ∀ (u : AttributeStore α) (member : NodeId), Writes [.alignment] u
      (u.set (.node member) (.alignment (s.newAlignment conflict.isOk).1)) :=
    fun u member => .set u _ (by simp [Attribute.kind])
  have hset := hnew.trans (.foldl (group.fakeQuantizes ++ group.others) hmember _)
  dsimp only at hrun
  split at hrun
  · cases hrun
    exact hset
  · cases hrun
    exact hset.trans (.addConflict _ _ (by simp))

theorem markGroup_follows {group : AlignedGroup} {t₀ : AttributeStore α}
    (hcheck : checkGroup { g with attributes := t₀ } = checkGroup g) (hp : p .alignment)
    (h : Agree p s t) (hrun : markGroup g s group = .ok s') :
    ∃ t', markGroup { g with attributes := t₀ } t group = .ok t' ∧ Agree p s' t' := by
  obtain ⟨conflict, hconflict, hrun⟩ := except_bind_eq_ok.mp hrun
  have hnew : Agree p (s.newAlignment conflict.isOk).2 (t.newAlignment conflict.isOk).2 := by
    rw [newAlignment, newAlignment, h.alignmentCells hp]
    exact h.withAlignmentCells _
  have hcell : (t.newAlignment conflict.isOk).1 = (s.newAlignment conflict.isOk).1 := by
    rw [newAlignment, newAlignment, h.alignmentCells hp]
  have hset := hnew.foldl (group.fakeQuantizes ++ group.others) fun u v member huv =>
    huv.set (.node member) (.alignment (s.newAlignment conflict.isOk).1)
  rw [markGroup, hcheck, hconflict]
  dsimp only [bind, Except.bind] at hrun ⊢
  rw [hcell]
  split at hrun
  · cases hrun
    exact ⟨_, rfl, hset⟩
  · cases hrun
    exact ⟨_, rfl, hset.addConflict _⟩

theorem alignParameters_follows (h : Agree p g.attributes t) (hprecisions : p .precisions)
    (hintervals : p .intervals) (hrun : alignParameters g = .ok { g with attributes := s }) :
    ∃ u, alignParameters { g with attributes := t } = .ok { g with attributes := u } ∧
      Agree (fun kind => kind = .alignment ∨ p kind) s u := by
  have hcleared := h.clear .alignment
  have hcheck := checkGroup_agree (g := { g with attributes := g.attributes.clear .alignment })
    hcleared (.inr hprecisions) (.inr hintervals)
  have hgroups := alignedGroups_agree
    (g := { g with attributes := g.attributes.clear .alignment }) hcleared (.inr hintervals)
  rw [alignParameters_eq] at hrun ⊢
  obtain ⟨s', hs', hgraph⟩ := except_map_eq_ok.mp hrun
  obtain rfl := (Graph.mk.inj hgraph).2.2
  rw [← hgroups] at hs'
  obtain ⟨u, hu, hagree⟩ := foldlM_follows (r := Agree fun kind => kind = .alignment ∨ p kind)
    (f := markGroup { g with attributes := g.attributes.clear .alignment })
    (k := markGroup { g with attributes := t.clear .alignment })
    (fun s t group s' hst hstep => markGroup_follows
      (g := { g with attributes := g.attributes.clear .alignment }) hcheck (.inl rfl) hst hstep)
    hcleared hs'
  exact ⟨u, except_map_eq_ok.mpr ⟨u, hu, rfl⟩, hagree⟩

end Parameters

end Markup

end LowPrecision
