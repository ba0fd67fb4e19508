import LowPrecision.Proofs.Graph.Operations
import LowPrecision.Proofs.Graph.Regions
import LowPrecision.Proofs.Markup.Independence

namespace LowPrecision

variable {α β : Type} {g g' : Graph α} {s s' s'' : AttributeStore α}

namespace AttributeStore

variable {p : NodeId → Prop}

def Places (p : NodeId → Prop) (s s' : AttributeStore α) : Prop :=
  ∀ e ∈ s'.entries, e ∈ s.entries ∨ p e.1.target.owner

namespace Places

theorem of_entries (s s' : AttributeStore α) (h : s'.entries = s.entries) : Places p s s' :=
  fun _ he => .inl (h ▸ he)

theorem refl (s : AttributeStore α) : Places p s s := of_entries s s rfl

theorem trans (h : Places p s s') (h' : Places p s' s'') : Places p s s'' :=
  fun e he => (h' e he).elim (h e) .inr

theorem set (s : AttributeStore α) (target : Target) (value : Attribute) (h : p target.owner) :
    Places p s (s.set target value) := by
  intro e he
  rcases mem_set he with rfl | he
  · exact .inr h
  · exact .inl he

theorem foldl {step : AttributeStore α → β → AttributeStore α} {bs : List β}
    (h : ∀ b ∈ bs, ∀ s, Places p s (step s b)) (s : AttributeStore α) :
    Places p s (bs.foldl step s) := by
  induction bs generalizing s with
  | nil => exact refl s
  | cons b bs ih =>
    exact (h b (by simp) s).trans (ih (fun c hc => h c (by simp [hc])) _)

theorem foldlM {γ : Type} (view : γ → AttributeStore α) {step : γ → β → Checked γ} {bs : List β}
    {c c' : γ} (h : ∀ b ∈ bs, ∀ c c', step c b = .ok c' → Places p (view c) (view c'))
    (hrun : bs.foldlM step c = .ok c') : Places p (view c) (view c') :=
  except_foldlM_keeps (P := fun d => Places p (view c) (view d))
    (fun b hb d d' hd hstep => hd.trans (h b hb d d' hstep)) (refl _) hrun

end Places

end AttributeStore

open AttributeStore

namespace Markup

abbrev PlacesLive (g : Graph α) (s s' : AttributeStore α) : Prop :=
  Places (fun id => g.isLive id = true) s s'

theorem isLive_of_mem_liveNodes {entry : NodeId × Node α} (h : entry ∈ g.liveNodes) :
    g.isLive entry.1 = true := by
  rw [Graph.isLive, Graph.WellFormed.mem_liveNodes.mp h]
  rfl

theorem precisions_places (restrictions : List OperationRestriction) (g : Graph α) :
    PlacesLive g ((g.attributes.clear .precisionRestriction).clear .precisionPreserved)
      (precisions restrictions g).attributes := by
  refine Places.foldl (fun entry hentry s => ?_) _
  have hlive := isLive_of_mem_liveNodes hentry
  obtain ⟨u, hu, hmark⟩ := mark_cases restrictions s entry
  have hrestricted : PlacesLive g s u := by
    rcases hu with rfl | ⟨inputs, rfl⟩
    · exact .refl _
    · exact .set s _ _ hlive
  change PlacesLive g s (mark restrictions s entry)
  rcases hmark with hmark | ⟨-, hmark⟩
  · exact hmark ▸ hrestricted
  · exact hmark ▸ hrestricted.trans (.set _ _ _ hlive)

theorem averagePooling_places (g : Graph α) :
    PlacesLive g g.attributes (averagePooling g).attributes := by
  rw [averagePooling_eq]
  refine Places.foldl (fun mark hmark s => .set s _ _ ?_) _
  obtain ⟨entry, hentry, rfl⟩ := List.mem_map.mp hmark
  exact isLive_of_mem_liveNodes (List.mem_filter.mp hentry).1

theorem propagateNode_places {id : NodeId} {n : Node α} (hn : g.node? id = some n)
    (hrun : propagateNode g id n s = .ok s') : PlacesLive g s s' := by
  have hlive : g.isLive id = true := by rw [Graph.isLive, hn]; rfl
  rw [propagateNode] at hrun
  split at hrun
  · cases hrun
    refine .foldl (fun index _ s => ?_) s
    exact (Places.of_entries s (s.newPrecisions PrecisionSet.eightBit).2 rfl).trans
      (.set _ (.output ⟨id, index⟩) _ hlive)
  split at hrun
  · split at hrun
    · cases hrun
      exact .refl s
    · obtain ⟨⟨merged, u⟩, hmerge, hshare⟩ := except_bind_eq_ok.mp hrun
      cases hshare
      refine (Places.foldlM Prod.snd (fun group _ c c' hstep => ?_) hmerge).trans
        (.foldl (fun index _ s => .set s (.output ⟨id, index⟩) _ hlive) u)
      obtain ⟨⟨root, cells⟩, -, hpure⟩ := except_bind_eq_ok.mp hstep
      cases hpure
      exact .of_entries _ _ rfl
  · cases hrun
    refine .foldl (fun entry _ s => ?_) s
    split
    · exact .of_entries _ _ rfl
    · exact .refl s

theorem visits_place {order : List NodeId} (hrun : order.foldlM (visit g) s = .ok s') :
    PlacesLive g s s' := by
  refine Places.foldlM id (fun v _ s s' hstep => ?_) hrun
  rw [visit] at hstep
  split at hstep
  · next n hn => exact propagateNode_places hn hstep
  · cases hstep
    exact .refl s

variable [Scalar α]

theorem isLive_of_regionInterval? {concat : NodeId} {interval : SharedInterval α}
    {members : List NodeId} (h : regionInterval? g concat = some (interval, members)) :
    ∀ member ∈ members, g.isLive member = true := by
  obtain ⟨region, hregion, h⟩ := Option.bind_eq_some_iff.mp h
  obtain ⟨ranges, -, h⟩ := Option.bind_eq_some_iff.mp h
  have hbehind : Region.behind g concat = .ok region := by
    cases hfound : Region.behind g concat with
    | error e => rw [hfound] at hregion; cases hregion
    | ok found => rw [hfound] at hregion; cases hregion; rfl
  have hclosed := Region.closed_of_behind hbehind
  split at h <;> cases h
  intro member hmember
  rcases List.mem_append.mp hmember with hmember | hmember
  · obtain ⟨n, hn, -⟩ := hclosed.bound member hmember
    rw [Graph.isLive, hn]
    rfl
  · obtain ⟨n, hn, -⟩ := hclosed.layer member hmember
    rw [Graph.isLive, hn]
    rfl

theorem alignRegion_places {concat : NodeId} (hrun : alignRegion g s concat = .ok s') :
    PlacesLive g s s' := by
  rw [alignRegion] at hrun
  split at hrun
  · next interval members hmembers =>
    rw [shareInterval_eq] at hrun
    obtain ⟨c, hjoin, hset⟩ := except_bind_eq_ok.mp hrun
    cases hset
    have hjoined : PlacesLive g (s.newInterval interval).2 c.2 := by
      refine Places.foldlM Prod.snd (fun member _ c c' hstep => ?_) hjoin
      rw [joinMember] at hstep
      split at hstep
      · obtain ⟨⟨root, cells⟩, -, hpure⟩ := except_bind_eq_ok.mp hstep
        cases hpure
        exact .of_entries _ _ rfl
      · cases hstep
        exact .refl _
    refine ((Places.of_entries _ _ rfl).trans hjoined).trans (.foldl (fun member hmember s => ?_) c.2)
    rw [addMember]
    split
    · exact .refl s
    · exact .set s _ _ (isLive_of_regionInterval? hmembers member hmember)
  · cases hrun
    exact .refl s

omit [Scalar α] in
theorem isLive_of_mem_alignedGroups {group : AlignedGroup} (h : group ∈ alignedGroups g) :
    ∀ member ∈ group.fakeQuantizes ++ group.others, g.isLive member = true := by
  obtain ⟨root, -, rfl⟩ := List.mem_map.mp h
  intro member hmember
  have hfound : ∃ entry ∈ g.liveNodes, entry.1 = member := by
    simp only [List.mem_append, List.mem_map, List.mem_filter, List.mem_filterMap,
      Option.map_eq_some_iff] at hmember
    rcases hmember with ⟨_, ⟨⟨⟨entry, hentry, root, -, rfl⟩, -⟩, -⟩, rfl⟩ |
      ⟨_, ⟨⟨⟨entry, hentry, root, -, rfl⟩, -⟩, -⟩, rfl⟩
    · exact ⟨entry, hentry, rfl⟩
    · exact ⟨entry, hentry, rfl⟩
  obtain ⟨entry, hentry, rfl⟩ := hfound
  exact isLive_of_mem_liveNodes hentry

theorem markGroup_places {group : AlignedGroup}
    (hgroup : ∀ member ∈ group.fakeQuantizes ++ group.others, g.isLive member = true)
    (hrun : markGroup g s group = .ok s') : PlacesLive g s s' := by
  obtain ⟨conflict, -, hrun⟩ := except_bind_eq_ok.mp hrun
  have hset : PlacesLive g s ((group.fakeQuantizes ++ group.others).foldl (fun u member =>
      u.set (.node member) (.alignment (s.newAlignment conflict.isOk).1))
        (s.newAlignment conflict.isOk).2) :=
    (Places.of_entries s (s.newAlignment conflict.isOk).2 rfl).trans
      (.foldl (fun member hmember u => .set u (.node member) _ (hgroup member hmember)) _)
  dsimp only at hrun
  split at hrun
  · cases hrun
    exact hset
  · cases hrun
    exact hset.trans (.of_entries _ _ rfl)

end Markup

namespace MarkupPass

def clears : MarkupPass → List AttributeKind
  | averagePooling => []
  | pass => pass.writes

variable [Scalar α] {pass : MarkupPass} {restrictions : List OperationRestriction}
  {r : Except TransformError Unit}

theorem run_places (hrun : exec (pass.run restrictions) g = .ok (r, g')) :
    ∀ e ∈ g'.attributes.entries, (e ∈ g.attributes.entries ∧ e.1.kind ∉ pass.clears) ∨
      g.isLive e.1.target.owner = true := by
  have hclear : ∀ {kind : AttributeKind} {s : AttributeStore α},
      Markup.PlacesLive g (g.attributes.clear kind) s → ∀ e ∈ s.entries,
        (e ∈ g.attributes.entries ∧ e.1.kind ∉ [kind]) ∨ g.isLive e.1.target.owner = true :=
    fun h e he => (h e he).imp_left fun hold => by simpa using mem_clear hold
  cases pass with
  | precisions =>
    cases hrun
    intro e he
    refine (Markup.precisions_places restrictions g e he).imp_left fun hold => ?_
    obtain ⟨hold, hpreserved⟩ := mem_clear hold
    obtain ⟨hold, hrestriction⟩ := mem_clear hold
    exact ⟨hold, by simp [clears, writes, hpreserved, hrestriction]⟩
  | averagePooling =>
    cases hrun
    exact fun e he => (Markup.averagePooling_places g e he).imp_left fun hold => ⟨hold, by simp [clears]⟩
  | propagatePrecisions =>
    rw [run, Markup.exec_propagatePrecisions] at hrun
    split at hrun
    · obtain ⟨s, hs, hout⟩ := except_map_eq_ok.mp hrun
      cases hout
      exact hclear (Markup.visits_place
        (g := { g with attributes := g.attributes.clear .precisions }) hs)
    · cases hrun
      exact hclear (.refl _)
    · cases hrun
  | alignIntervals =>
    rw [exec_alignIntervals, Markup.alignIntervals_eq] at hrun
    obtain ⟨k, hk, hout⟩ := except_map_eq_ok.mp hrun
    obtain ⟨s, hs, rfl⟩ := except_map_eq_ok.mp hk
    cases hout
    exact hclear (Places.foldlM id (fun _ _ _ _ h => Markup.alignRegion_places h) hs)
  | alignParameters =>
    rw [exec_alignParameters, Markup.alignParameters_eq] at hrun
    obtain ⟨k, hk, hout⟩ := except_map_eq_ok.mp hrun
    obtain ⟨s, hs, rfl⟩ := except_map_eq_ok.mp hk
    cases hout
    have hplaces : Markup.PlacesLive g (g.attributes.clear .alignment) s :=
      Places.foldlM id (fun group hgroup _ _ h => Markup.markGroup_places
        (g := { g with attributes := g.attributes.clear .alignment })
        (Markup.isLive_of_mem_alignedGroups hgroup) h) hs
    exact hclear hplaces

end MarkupPass

end LowPrecision
