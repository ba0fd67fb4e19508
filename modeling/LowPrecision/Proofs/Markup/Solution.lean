import LowPrecision.Proofs.Attributes.Grouping
import LowPrecision.Proofs.Graph.Backward
import LowPrecision.Proofs.Markup.Outcomes

/-!
What the analysis of precisions computes: which outputs get types, which of them share a group, and
which types are left, all told from the graph. The analysis is a list of actions on groups, and the
order in which they are done does not matter.
-/

namespace LowPrecision

open Grouping

variable {α : Type} {g : Graph α} {s s' : AttributeStore α} {id v : NodeId} {n : Node α}
  {slot first : Slot} {l : List (GroupAction Slot PrecisionSet)} {group : GroupId}
  {carried carried' : Slot → Bool}

namespace AttributeStore

def grouping (s : AttributeStore α) : Grouping Slot PrecisionSet :=
  ⟨s.precisionGroup?, s.precisionCells⟩

def carries (s : AttributeStore α) (slot : Slot) : Bool := (s.precisionGroup? slot).isSome

theorem carries_iff : s.carries slot = true ↔ s.grouping.Carries slot := Option.isSome_iff_exists

theorem precisionGroup?_set_eq (s : AttributeStore α) (slot : Slot) (group : GroupId) :
    (s.set (.output slot) (.precisions group)).precisionGroup? =
      Function.update s.precisionGroup? slot (some group) := by
  funext other
  by_cases h : other = slot
  · rw [h, Function.update_self, precisionGroup?_set]
  · rw [Function.update_of_ne h]
    refine precisionGroup?_congr ?_
    rw [get?_set, if_neg (by simp [h])]

theorem grouping_set (s : AttributeStore α) (slot : Slot) (group : GroupId) :
    (s.set (.output slot) (.precisions group)).grouping =
      ⟨Function.update s.precisionGroup? slot (some group), s.precisionCells⟩ := by
  rw [grouping, precisionGroup?_set_eq]
  rfl

end AttributeStore

namespace Markup

open AttributeStore

section Actions

def nodeActions (g : Graph α) (carried : Slot → Bool) (id : NodeId) (n : Node α) :
    List (GroupAction Slot PrecisionSet) :=
  if n.kind = .fakeQuantize then
    (List.range n.outputs.length).map fun index => .start ⟨id, index⟩ PrecisionSet.eightBit
  else if g.preservesPrecision id then
    match n.inputs.filter carried with
    | [] => []
    | first :: rest => rest.map (.join first) ++
        (List.range n.outputs.length).map fun index => .attach ⟨id, index⟩ first
  else
    ((g.attributes.restriction? id).getD []).filterMap fun entry =>
      ((n.input? entry.index).filter carried).map (.narrow · entry.precisions)

def visitActions (g : Graph α) (carried : Slot → Bool) (id : NodeId) :
    List (GroupAction Slot PrecisionSet) :=
  match g.node? id with
  | some n => nodeActions g carried id n
  | none => []

def propagation (g : Graph α) (carried : Slot → Bool) : List (GroupAction Slot PrecisionSet) :=
  (g.liveNodes.map Prod.fst).flatMap (visitActions g carried)

theorem nodeActions_congr (h : ∀ slot ∈ n.inputs, carried slot = carried' slot) :
    nodeActions g carried id n = nodeActions g carried' id n := by
  have hfilter : n.inputs.filter carried = n.inputs.filter carried' := List.filter_congr h
  have hinput : ∀ index, (n.input? index).filter carried = (n.input? index).filter carried' := by
    intro index
    cases hslot : n.input? index with
    | none => rfl
    | some slot => simp only [Option.filter_some, h slot (List.mem_of_getElem? hslot)]
  rw [nodeActions, nodeActions, hfilter]
  simp only [hinput]

end Actions

section Visits

theorem freshGroups_performs (outputs : Nat) (hl : Performs PrecisionSet.inter l s.grouping)
    (hnone : ∀ index, s.precisionGroup? ⟨id, index⟩ = none) :
    Performs PrecisionSet.inter
      (l ++ (List.range outputs).map fun index => .start ⟨id, index⟩ PrecisionSet.eightBit)
      (freshGroups id outputs s).grouping ∧
      ∀ index, outputs ≤ index → (freshGroups id outputs s).precisionGroup? ⟨id, index⟩ = none := by
  induction outputs with
  | zero => exact ⟨by simpa [freshGroups] using hl, fun index _ => hnone index⟩
  | succ outputs ih =>
    obtain ⟨hperforms, hfree⟩ := ih
    obtain ⟨t, ht⟩ : ∃ t, t = freshGroups id outputs s := ⟨_, rfl⟩
    have hstep : freshGroups id (outputs + 1) s =
        (t.newPrecisions PrecisionSet.eightBit).2.set (.output ⟨id, outputs⟩)
          (.precisions t.precisionCells.size) := by
      rw [ht, freshGroups, List.range_succ, List.foldl_append]
      rfl
    rw [← ht] at hperforms hfree
    rw [hstep, List.range_succ, List.map_append, ← List.append_assoc, grouping_set,
      precisionGroup?_set_eq]
    refine ⟨hperforms.snoc (.start (hfree outputs (Nat.le_refl _))), fun index hindex => ?_⟩
    rw [Function.update_of_ne]
    · exact hfree index (Nat.le_of_succ_le hindex)
    · rintro ⟨⟩
      exact Nat.lt_irrefl _ hindex

theorem shareGroup_performs (outputs : Nat) (hl : Performs PrecisionSet.inter l s.grouping)
    (hnone : ∀ index, s.precisionGroup? ⟨id, index⟩ = none)
    (hfirst : s.grouping.Names first group) :
    Performs PrecisionSet.inter
      (l ++ (List.range outputs).map fun index => .attach ⟨id, index⟩ first)
      (shareGroup id outputs group s).grouping ∧
      (shareGroup id outputs group s).precisionCells = s.precisionCells ∧
      ∀ slot, (∀ index < outputs, slot ≠ ⟨id, index⟩) →
        (shareGroup id outputs group s).precisionGroup? slot = s.precisionGroup? slot := by
  induction outputs with
  | zero => exact ⟨by simpa [shareGroup] using hl, rfl, fun _ _ => rfl⟩
  | succ outputs ih =>
    obtain ⟨hperforms, hcells, hkept⟩ := ih
    obtain ⟨hlt, x, hx, hfind⟩ := hfirst
    have hstep : shareGroup id (outputs + 1) group s =
        (shareGroup id outputs group s).set (.output ⟨id, outputs⟩) (.precisions group) := by
      rw [shareGroup, List.range_succ, List.foldl_append]
      rfl
    have hnew : (shareGroup id outputs group s).precisionGroup? ⟨id, outputs⟩ = none := by
      rw [hkept ⟨id, outputs⟩ fun index hindex he => ?_]
      · exact hnone outputs
      · cases he
        exact Nat.lt_irrefl _ hindex
    have hsource : (shareGroup id outputs group s).precisionGroup? first = some x := by
      rw [hkept first fun index _ he => ?_]
      · exact hx
      · have := (congrArg s.precisionGroup? he).symm.trans hx
        rw [hnone index] at this
        cases this
    rw [hstep, List.range_succ, List.map_append, ← List.append_assoc, grouping_set,
      precisionGroup?_set_eq]
    refine ⟨hperforms.snoc (.attach hnew ⟨?_, x, hsource, ?_⟩), hcells, fun slot hslot => ?_⟩
    · rw [grouping, hcells]
      exact hlt
    · rw [grouping, hcells]
      exact hfind
    · rw [Function.update_of_ne (hslot outputs (Nat.lt_succ_self _))]
      exact hkept slot fun index hindex => hslot index (Nat.lt_succ_of_lt hindex)

theorem mergeGroups_performs {slots : List Slot} {groups : List GroupId} {merged : GroupId}
    {filed : Slot → Option GroupId} (hs : s.Grouped) (hfiled : s.precisionGroup? = filed)
    (hl : Performs PrecisionSet.inter l s.grouping)
    (hgroups : List.Forall₂ (fun slot group => filed slot = some group) slots groups)
    (hfirst : s.grouping.Names first group)
    (hrun : groups.foldlM (fun (acc : GroupId × AttributeStore α) group =>
      acc.2.mergePrecisions acc.1 group) (group, s) = .ok (merged, s')) :
    Performs PrecisionSet.inter (l ++ slots.map (.join first)) s'.grouping ∧
      s'.grouping.Names first merged ∧ s'.precisionGroup? = filed := by
  induction hgroups generalizing s l group with
  | nil =>
    cases hrun
    exact ⟨by simpa using hl, hfirst, hfiled⟩
  | @cons slot other slots groups hslot hrest ih =>
    rw [List.foldlM_cons] at hrun
    obtain ⟨⟨root, t⟩, hmerge, hrun⟩ := except_bind_eq_ok.mp hrun
    obtain ⟨⟨root', cells⟩, hcells, hpure⟩ := except_bind_eq_ok.mp hmerge
    cases hpure
    rw [← hfiled] at hslot
    have hother : s.grouping.Names slot other := ⟨hs.bounded slot other hslot, other, hslot, rfl⟩
    have hstep : Step PrecisionSet.inter s.grouping (.join first slot)
        ⟨s.precisionGroup?, cells⟩ := .join hfirst hother hcells
    have hnames := (hfirst.merged hs.linked hother hcells).1
    have hnarrows := (SharedCells.Narrows.merge hs.linked hfirst.1 hother.1 hcells).1
    have hassigns : Assigns slot.node s { s with precisionCells := cells } := .of_cells hs hnarrows
    obtain ⟨hperforms, hmerged, hsame⟩ := ih hassigns.grouped hfiled (hl.snoc hstep) hnames hrun
    rw [List.append_assoc] at hperforms
    exact ⟨hperforms, hmerged, hsame⟩

theorem narrow_performs (entries : List InputRestriction) (hs : s.Grouped)
    (hl : Performs PrecisionSet.inter l s.grouping) :
    Performs PrecisionSet.inter (l ++ entries.filterMap fun entry =>
      ((n.input? entry.index).filter s.carries).map (.narrow · entry.precisions))
      (narrow n entries s).grouping := by
  induction entries generalizing s l with
  | nil => simpa [narrow] using hl
  | cons entry entries ih =>
    have hskip : ∀ slot, n.input? entry.index = some slot → s.precisionGroup? slot = none →
        (n.input? entry.index).filter s.carries = none := by
      intro slot hslot hgroup
      rw [hslot]
      simp [AttributeStore.carries, hgroup]
    rw [narrow, List.foldl_cons, List.filterMap_cons]
    cases hslot : n.input? entry.index with
    | none =>
      simp only [Option.bind_none, Option.filter_none, Option.map_none]
      exact ih hs hl
    | some slot =>
      cases hgroup : s.precisionGroup? slot with
      | none =>
        rw [← hslot, hskip slot hslot hgroup, hslot, Option.bind_some, hgroup]
        exact ih hs hl
      | some found =>
        have hcarries : s.carries slot = true := by simp [AttributeStore.carries, hgroup]
        rw [Option.bind_some, hgroup, Option.filter_some, if_pos hcarries]
        have hassigns : Assigns slot.node s (s.restrictPrecisions found entry.precisions) :=
          .of_cells hs (SharedCells.Narrows.modify hs.linked found entry.precisions).1
        have hstep : Step PrecisionSet.inter s.grouping (.narrow slot entry.precisions)
            (s.restrictPrecisions found entry.precisions).grouping :=
          .narrow ⟨hs.bounded slot found hgroup, found, hgroup, rfl⟩
        have hrest := ih hassigns.grouped (hl.snoc hstep)
        rwa [List.append_assoc] at hrest

theorem groups_of_inputs (s : AttributeStore α) (inputs : List Slot) :
    List.Forall₂ (fun slot group => s.precisionGroup? slot = some group)
      (inputs.filter s.carries) (inputs.filterMap s.precisionGroup?) := by
  induction inputs with
  | nil => exact .nil
  | cons slot inputs ih =>
    cases hgroup : s.precisionGroup? slot with
    | none =>
      rw [List.filterMap_cons, hgroup, List.filter_cons_of_neg (by simp [AttributeStore.carries, hgroup])]
      exact ih
    | some group =>
      rw [List.filterMap_cons, hgroup, List.filter_cons_of_pos (by simp [AttributeStore.carries, hgroup])]
      exact .cons hgroup ih

theorem propagateNode_performs (hs : s.Grouped) (hl : Performs PrecisionSet.inter l s.grouping)
    (hnone : ∀ index, s.precisionGroup? ⟨id, index⟩ = none)
    (hrestriction : s.restriction? id = g.attributes.restriction? id)
    (hrun : propagateNode g id n s = .ok s') :
    Performs PrecisionSet.inter (l ++ nodeActions g s.carries id n) s'.grouping := by
  rw [propagateNode] at hrun
  rw [nodeActions]
  split at hrun
  · next hkind =>
    cases hrun
    rw [if_pos hkind]
    exact (freshGroups_performs n.outputs.length hl hnone).1
  next hkind =>
  rw [if_neg hkind]
  split at hrun
  · next hpass =>
    rw [if_pos hpass]
    have hinputs := groups_of_inputs s n.inputs
    split at hrun
    · next hgroups =>
      cases hrun
      rw [hgroups, List.forall₂_nil_right_iff] at hinputs
      rw [hinputs]
      simpa using hl
    · next first rest hgroups =>
      rw [hgroups] at hinputs
      obtain ⟨slot, slots, hslot, hrest, hfilter⟩ := List.forall₂_cons_right_iff.mp hinputs
      obtain ⟨⟨merged, t⟩, hmerge, hshare⟩ := except_bind_eq_ok.mp hrun
      cases hshare
      obtain ⟨hmerged, hnames, hsame⟩ := mergeGroups_performs hs rfl hl hrest
        ⟨hs.bounded slot first hslot, first, hslot, rfl⟩ hmerge
      have hshared := (shareGroup_performs n.outputs.length hmerged
        (fun index => by rw [hsame]; exact hnone index) hnames).1
      rw [hfilter]
      rwa [List.append_assoc] at hshared
  · next hpass =>
    cases hrun
    rw [if_neg hpass, ← hrestriction]
    exact narrow_performs _ hs hl

theorem visits_perform {placed order : List NodeId} (horder : g.InOrder placed order)
    (hs : s.Grouped) (hl : Performs PrecisionSet.inter l s.grouping)
    (hnone : ∀ slot, slot.node ∉ placed → s.precisionGroup? slot = none)
    (hrestriction : s.restriction? = g.attributes.restriction?)
    (hrun : order.foldlM (visit g) s = .ok s') :
    Performs PrecisionSet.inter (l ++ order.flatMap (visitActions g s'.carries)) s'.grouping ∧
      ∀ slot, slot.node ∉ order → s'.precisionGroup? slot = s.precisionGroup? slot := by
  induction order generalizing placed s l with
  | nil =>
    cases hrun
    exact ⟨by simpa using hl, fun _ _ => rfl⟩
  | cons id order ih =>
    obtain ⟨⟨n, hn, hid, hinputs⟩, hrest⟩ := horder
    rw [List.foldlM_cons, visit, hn] at hrun
    obtain ⟨t, hstep, hrun⟩ := except_bind_eq_ok.mp hrun
    have hassigns := (propagateNode_visited hs hstep).assigns
    have hperforms := propagateNode_performs hs hl (fun index => hnone ⟨id, index⟩ hid)
      (congrFun hrestriction id) hstep
    have hkept : t.restriction? = g.attributes.restriction? := by
      rw [← hrestriction]
      funext v
      rw [restriction?, restriction?, hassigns.other (.node v) .precisionRestriction (.inl (by simp))]
    obtain ⟨hfinal, hsame⟩ := ih hrest hassigns.grouped hperforms (fun slot hslot => by
      rw [List.mem_cons, not_or] at hslot
      exact (hassigns.kept hslot.1).trans (hnone slot hslot.2)) hkept hrun
    -- A node reads only what is placed before it, so that what carries types at its visit is known
    -- at the end.
    have hread : ∀ slot ∈ n.inputs, s.carries slot = s'.carries slot := by
      intro slot hslot
      have hmem := hinputs slot hslot
      have hne : slot.node ≠ id := fun he => hid (he ▸ hmem)
      have hlater : slot.node ∉ order := fun hv => hrest.nodup.2 _ hv (List.mem_cons_of_mem _ hmem)
      rw [AttributeStore.carries, AttributeStore.carries, hsame slot hlater, hassigns.kept hne]
    refine ⟨?_, fun slot hslot => ?_⟩
    · rw [List.flatMap_cons, visitActions, hn, ← List.append_assoc]
      dsimp only
      rw [← nodeActions_congr hread]
      exact hfinal
    · rw [List.mem_cons, not_or] at hslot
      exact (hsame slot hslot.2).trans (hassigns.kept hslot.1)

end Visits

section Contents

variable {types : PrecisionSet} {a b : Slot}

theorem mem_propagation {action : GroupAction Slot PrecisionSet} :
    action ∈ propagation g carried ↔
      ∃ v n, g.node? v = some n ∧ action ∈ nodeActions g carried v n := by
  simp only [propagation, List.mem_flatMap, List.mem_map, Prod.exists, exists_and_right,
    exists_eq_right, Graph.WellFormed.mem_liveNodes, visitActions]
  constructor
  · rintro ⟨v, ⟨n, hn⟩, h⟩
    rw [hn] at h
    exact ⟨v, n, hn, h⟩
  · rintro ⟨v, n, hn, h⟩
    exact ⟨v, ⟨n, hn⟩, by rwa [hn]⟩

theorem port?_isSome_iff : (g.port? slot).isSome ↔
    ∃ n, g.node? slot.node = some n ∧ slot.index < n.outputs.length := by
  constructor
  · intro h
    obtain ⟨w, hw⟩ := Option.isSome_iff_exists.mp ((Graph.wire?_isSome_eq_port g slot).trans h)
    obtain ⟨n, hn, hwire⟩ := Graph.wire?_eq_some.mp hw
    exact ⟨n, hn, (List.getElem?_eq_some_iff.mp hwire).1⟩
  · rintro ⟨n, hn, hlt⟩
    rw [← Graph.wire?_isSome_eq_port]
    exact Option.isSome_iff_exists.mpr
      ⟨_, Graph.wire?_eq_some.mpr ⟨n, hn, List.getElem?_eq_getElem hlt⟩⟩

theorem preserved_iff (hn : g.node? v = some n) :
    g.Preserved v ↔ n.kind ≠ .fakeQuantize ∧ g.preservesPrecision v = true := by
  have hkind : g.kind? v = some n.kind := by rw [Graph.kind?, hn]; rfl
  constructor
  · rintro ⟨⟨k, hk, hne⟩, hpass⟩
    obtain rfl := Option.some.inj (hkind.symm.trans hk)
    exact ⟨hne, hpass⟩
  · exact fun h => ⟨⟨n.kind, hkind, h.1⟩, h.2⟩

theorem nodeActions_of_fakeQuantize (hkind : n.kind = .fakeQuantize) :
    nodeActions g carried v n =
      (List.range n.outputs.length).map fun index => .start ⟨v, index⟩ PrecisionSet.eightBit := by
  rw [nodeActions, if_pos hkind]

theorem nodeActions_of_preserved (hkind : n.kind ≠ .fakeQuantize)
    (hpass : g.preservesPrecision v = true) {rest : List Slot}
    (hinputs : n.inputs.filter carried = first :: rest) :
    nodeActions g carried v n = rest.map (.join first) ++
      (List.range n.outputs.length).map fun index => .attach ⟨v, index⟩ first := by
  rw [nodeActions, if_neg hkind, if_pos hpass, hinputs]

theorem nodeActions_of_computes (hkind : n.kind ≠ .fakeQuantize)
    (hpass : g.preservesPrecision v = false) :
    nodeActions g carried v n = ((g.attributes.restriction? v).getD []).filterMap fun entry =>
      ((n.input? entry.index).filter carried).map (.narrow · entry.precisions) := by
  rw [nodeActions, if_neg hkind, if_neg (by simp [hpass])]

theorem nodeActions_cases {action : GroupAction Slot PrecisionSet}
    (h : action ∈ nodeActions g carried v n) :
    (n.kind = .fakeQuantize ∧ ∃ index < n.outputs.length,
      action = .start ⟨v, index⟩ PrecisionSet.eightBit) ∨
    ((n.kind ≠ .fakeQuantize ∧ g.preservesPrecision v = true) ∧
      ∃ first rest, n.inputs.filter carried = first :: rest ∧
        ((∃ other ∈ rest, action = .join first other) ∨
          ∃ index < n.outputs.length, action = .attach ⟨v, index⟩ first)) ∨
    ((n.kind ≠ .fakeQuantize ∧ g.preservesPrecision v = false) ∧
      ∃ entries, g.attributes.restriction? v = some entries ∧ ∃ entry ∈ entries, ∃ slot,
        n.input? entry.index = some slot ∧ carried slot = true ∧
          action = .narrow slot entry.precisions) := by
  by_cases hkind : n.kind = .fakeQuantize
  · rw [nodeActions_of_fakeQuantize hkind] at h
    obtain ⟨index, hindex, rfl⟩ := List.mem_map.mp h
    exact .inl ⟨hkind, index, List.mem_range.mp hindex, rfl⟩
  cases hpass : g.preservesPrecision v with
  | true =>
    cases hinputs : n.inputs.filter carried with
    | nil =>
      rw [nodeActions, if_neg hkind, if_pos hpass, hinputs] at h
      cases h
    | cons first rest =>
      rw [nodeActions_of_preserved hkind hpass hinputs] at h
      refine .inr (.inl ⟨⟨hkind, rfl⟩, first, rest, rfl, ?_⟩)
      rcases List.mem_append.mp h with h | h
      · obtain ⟨other, hother, rfl⟩ := List.mem_map.mp h
        exact .inl ⟨other, hother, rfl⟩
      · obtain ⟨index, hindex, rfl⟩ := List.mem_map.mp h
        exact .inr ⟨index, List.mem_range.mp hindex, rfl⟩
  | false =>
    rw [nodeActions_of_computes hkind hpass] at h
    obtain ⟨entry, hentry, h⟩ := List.mem_filterMap.mp h
    obtain ⟨slot, hslot, rfl⟩ := Option.map_eq_some_iff.mp h
    obtain ⟨hslot, hcarried⟩ := Option.filter_eq_some_iff.mp hslot
    cases hentries : g.attributes.restriction? v with
    | none =>
      rw [hentries] at hentry
      cases hentry
    | some entries =>
      rw [hentries] at hentry
      exact .inr (.inr ⟨⟨hkind, rfl⟩, entries, rfl, entry, hentry, slot, hslot, hcarried, rfl⟩)

theorem start_mem : .start slot types ∈ propagation g carried ↔
    types = PrecisionSet.eightBit ∧ (g.port? slot).isSome ∧
      g.kind? slot.node = some .fakeQuantize := by
  rw [mem_propagation, port?_isSome_iff]
  constructor
  · rintro ⟨v, n, hn, h⟩
    rcases nodeActions_cases h with ⟨hkind, index, hindex, he⟩ |
      ⟨-, _, _, -, ⟨_, -, he⟩ | ⟨_, -, he⟩⟩ | ⟨-, _, -, _, -, _, -, -, he⟩ <;> cases he
    exact ⟨rfl, ⟨n, hn, hindex⟩, by rw [Graph.kind?, hn, ← hkind]; rfl⟩
  · rintro ⟨rfl, ⟨n, hn, hindex⟩, hkind⟩
    rw [Graph.kind?, hn] at hkind
    refine ⟨slot.node, n, hn, ?_⟩
    rw [nodeActions_of_fakeQuantize (Option.some.inj hkind)]
    exact List.mem_map.mpr ⟨slot.index, List.mem_range.mpr hindex, rfl⟩

theorem attach_mem : .attach slot first ∈ propagation g carried ↔
    (g.port? slot).isSome ∧ g.Preserved slot.node ∧ ∃ n rest, g.node? slot.node = some n ∧
      n.inputs.filter carried = first :: rest := by
  rw [mem_propagation, port?_isSome_iff]
  constructor
  · rintro ⟨v, n, hn, h⟩
    rcases nodeActions_cases h with ⟨-, _, -, he⟩ |
      ⟨hpreserved, first, rest, hinputs, ⟨_, -, he⟩ | ⟨index, hindex, he⟩⟩ |
      ⟨-, _, -, _, -, _, -, -, he⟩ <;> cases he
    exact ⟨⟨n, hn, hindex⟩, (preserved_iff hn).mpr hpreserved, n, rest, hn, hinputs⟩
  · rintro ⟨⟨n, hn, hindex⟩, hpreserved, m, rest, hm, hinputs⟩
    cases hn.symm.trans hm
    obtain ⟨hkind, hpass⟩ := (preserved_iff hn).mp hpreserved
    refine ⟨slot.node, n, hn, ?_⟩
    rw [nodeActions_of_preserved hkind hpass hinputs]
    exact List.mem_append_right _ (List.mem_map.mpr ⟨slot.index, List.mem_range.mpr hindex, rfl⟩)

theorem join_mem : .join a b ∈ propagation g carried ↔
    ∃ v n rest, g.node? v = some n ∧ g.Preserved v ∧ n.inputs.filter carried = a :: rest ∧
      b ∈ rest := by
  rw [mem_propagation]
  constructor
  · rintro ⟨v, n, hn, h⟩
    rcases nodeActions_cases h with ⟨-, _, -, he⟩ |
      ⟨hpreserved, first, rest, hinputs, ⟨other, hother, he⟩ | ⟨_, -, he⟩⟩ |
      ⟨-, _, -, _, -, _, -, -, he⟩ <;> cases he
    exact ⟨v, n, rest, hn, (preserved_iff hn).mpr hpreserved, hinputs, hother⟩
  · rintro ⟨v, n, rest, hn, hpreserved, hinputs, hb⟩
    obtain ⟨hkind, hpass⟩ := (preserved_iff hn).mp hpreserved
    refine ⟨v, n, hn, ?_⟩
    rw [nodeActions_of_preserved hkind hpass hinputs]
    exact List.mem_append_left _ (List.mem_map.mpr ⟨b, hb, rfl⟩)

theorem narrow_mem : .narrow slot types ∈ propagation g carried ↔
    carried slot = true ∧ ∃ v, g.Restricts v slot types := by
  rw [mem_propagation]
  constructor
  · rintro ⟨v, n, hn, h⟩
    rcases nodeActions_cases h with ⟨-, _, -, he⟩ | ⟨-, _, _, -, ⟨_, -, he⟩ | ⟨_, -, he⟩⟩ |
      ⟨⟨hkind, hpass⟩, entries, hentries, entry, hentry, slot, hslot, hcarried, he⟩ <;> cases he
    exact ⟨hcarried, v, ⟨n, hn, hkind⟩, hpass, entries, entry.index, hentries, hentry,
      Graph.input?_eq_some.mpr ⟨n, hn, hslot⟩⟩
  · rintro ⟨hcarried, v, ⟨n, hn, hkind⟩, hpass, entries, index, hentries, hentry, hslot⟩
    obtain ⟨m, hm, hslot⟩ := Graph.input?_eq_some.mp hslot
    cases hn.symm.trans hm
    refine ⟨v, n, hn, ?_⟩
    rw [nodeActions_of_computes hkind hpass, hentries]
    refine List.mem_filterMap.mpr ⟨_, hentry, Option.map_eq_some_iff.mpr ⟨slot, ?_, rfl⟩⟩
    exact Option.filter_eq_some_iff.mpr ⟨hslot, hcarried⟩

end Contents

section Values

variable {lists lists' : Set PrecisionSet} {types types' list : PrecisionSet}

def Narrowed (lists : Set PrecisionSet) (types : PrecisionSet) : Prop :=
  types.Sublist PrecisionSet.eightBit ∧
    ∀ t, t ∈ types ↔ t ∈ PrecisionSet.eightBit ∧ ∀ list ∈ lists, t ∈ list

theorem Narrowed.unique (h : Narrowed lists types) (h' : Narrowed lists types') : types = types' := by
  have hnodup : PrecisionSet.eightBit.Nodup := by decide
  refine (hnodup.perm_iff_eq_of_sublist h.1 h'.1).mp ?_
  refine (List.perm_ext_iff_of_nodup (hnodup.sublist h.1) (hnodup.sublist h'.1)).mpr fun t => ?_
  rw [h.2, h'.2]

theorem mem_inter {t : ElementType} : t ∈ types.inter types' ↔ t ∈ types ∧ t ∈ types' := by
  rw [PrecisionSet.inter, List.mem_filter, decide_eq_true_eq]

theorem narrowed_start : Narrowed {PrecisionSet.eightBit} PrecisionSet.eightBit :=
  ⟨List.Sublist.refl _, fun t => by simp⟩

theorem Narrowed.union (h : Narrowed lists types) (h' : Narrowed lists' types') :
    Narrowed (lists ∪ lists') (types.inter types') := by
  refine ⟨List.filter_sublist.trans h.1, fun t => ?_⟩
  rw [mem_inter, h.2, h'.2]
  constructor
  · rintro ⟨⟨ht, hlists⟩, -, hlists'⟩
    exact ⟨ht, fun list hlist => hlist.elim (hlists list) (hlists' list)⟩
  · rintro ⟨ht, hall⟩
    exact ⟨⟨ht, fun list hlist => hall list (.inl hlist)⟩,
      ht, fun list hlist => hall list (.inr hlist)⟩

theorem Narrowed.insert (h : Narrowed lists types) (list : PrecisionSet) :
    Narrowed (insert list lists) (types.inter list) := by
  refine ⟨List.filter_sublist.trans h.1, fun t => ?_⟩
  rw [mem_inter, h.2, Set.forall_mem_insert]
  constructor
  · rintro ⟨⟨ht, hlists⟩, hlist⟩
    exact ⟨ht, hlist, hlists⟩
  · rintro ⟨ht, hlist, hlists⟩
    exact ⟨⟨ht, hlists⟩, hlist⟩

theorem propagation_summarizes (carried : Slot → Bool) :
    Summarizes PrecisionSet.inter Narrowed (propagation g carried) where
  start slot types hmem := by
    obtain ⟨rfl, -⟩ := start_mem.mp hmem
    exact narrowed_start
  narrow _ list _ _ _ h := h.insert list
  union _ _ _ _ h h' := h.union h'

end Values

end Markup

namespace Graph

def Touches (g : Graph α) (v : NodeId) (slot : Slot) : Prop :=
  slot.node = v ∨ ∃ index, g.input? v index = some slot

def Tied (g : Graph α) (carries : Slot → Prop) (a b : Slot) : Prop :=
  carries a ∧ carries b ∧ ∃ v, g.Preserved v ∧ g.Touches v a ∧ g.Touches v b

end Graph

namespace Markup

open AttributeStore

/-- The types in a store are the solution for a graph: they spread from fake-quantizes through
preserved nodes, outputs around preserved nodes share them, and they are narrowed by the restrictions
of all inputs that read an output of the group. -/
structure Solution (g : Graph α) (s : AttributeStore α) : Prop where
  carries (slot : Slot) : s.grouping.Carries slot ↔ (g.port? slot).isSome ∧
    (g.kind? slot.node = some .fakeQuantize ∨ g.Preserved slot.node ∧
      ∃ index source, g.input? slot.node index = some source ∧ s.grouping.Carries source)
  together (a b : Slot) : s.grouping.Carries a → s.grouping.Carries b →
    (Together s a b ↔ Relation.EqvGen (g.Tied s.grouping.Carries) a b)
  types (slot : Slot) : s.grouping.Carries slot → ∃ types, s.precisions? slot = some types ∧
    Narrowed {list | ∃ v b, g.Restricts v b list ∧
      Relation.EqvGen (g.Tied s.grouping.Carries) slot b} types

section Solutions

variable {a b : Slot}

def Reflected (g : Graph α) (s : AttributeStore α) : Prop :=
  Reflects Narrowed (propagation g s.carries) s.grouping

theorem exists_first (hslot : ∃ slot ∈ n.inputs, carried slot = true) :
    ∃ first rest, n.inputs.filter carried = first :: rest := by
  obtain ⟨slot, hmem, hcarried⟩ := hslot
  cases hinputs : n.inputs.filter carried with
  | nil =>
    have hfilter := List.mem_filter.mpr ⟨hmem, hcarried⟩
    rw [hinputs] at hfilter
    cases hfilter
  | cons first rest => exact ⟨first, rest, rfl⟩

namespace Reflected

theorem carries (h : Reflected g s) (slot : Slot) :
    s.grouping.Carries slot ↔ (g.port? slot).isSome ∧
      (g.kind? slot.node = some .fakeQuantize ∨ g.Preserved slot.node ∧
        ∃ index source, g.input? slot.node index = some source ∧ s.grouping.Carries source) := by
  rw [Reflects.carries h, GroupAction.Carried]
  simp only [start_mem, attach_mem]
  constructor
  · rintro (⟨_, -, hport, hkind⟩ | ⟨first, hport, hpreserved, n, rest, hn, hinputs⟩)
    · exact ⟨hport, .inl hkind⟩
    · have hfirst : first ∈ n.inputs.filter s.carries := hinputs ▸ List.mem_cons_self
      obtain ⟨hmem, hcarries⟩ := List.mem_filter.mp hfirst
      obtain ⟨index, hindex⟩ := List.mem_iff_getElem?.mp hmem
      exact ⟨hport, .inr ⟨hpreserved, index, first, Graph.input?_eq_some.mpr ⟨n, hn, hindex⟩,
        carries_iff.mp hcarries⟩⟩
  · rintro ⟨hport, hkind | ⟨hpreserved, index, source, hsource, hcarries⟩⟩
    · exact .inl ⟨_, rfl, hport, hkind⟩
    · obtain ⟨n, hn, hindex⟩ := Graph.input?_eq_some.mp hsource
      have hread : ∃ slot ∈ n.inputs, s.carries slot = true :=
        ⟨source, List.mem_of_getElem? hindex, carries_iff.mpr hcarries⟩
      obtain ⟨first, rest, hinputs⟩ := exists_first hread
      exact .inr ⟨first, hport, hpreserved, n, rest, hn, hinputs⟩

theorem joined_first (h : Reflected g s) (hn : g.node? v = some n) (hpreserved : g.Preserved v)
    (htouches : g.Touches v slot) (hcarries : s.grouping.Carries slot) :
    ∃ first rest, n.inputs.filter s.carries = first :: rest ∧
      GroupAction.Joined (propagation g s.carries) slot first := by
  rcases htouches with rfl | ⟨index, hindex⟩
  · rcases (Reflects.carries h slot).mp hcarries with ⟨types, hstart⟩ | ⟨first, hattach⟩
    · exact absurd (start_mem.mp hstart).2.2 hpreserved.kind_ne
    · obtain ⟨-, -, m, rest, hm, hinputs⟩ := attach_mem.mp hattach
      cases hn.symm.trans hm
      exact ⟨first, rest, hinputs, .rel _ _ (.inr hattach)⟩
  · obtain ⟨m, hm, hslot⟩ := Graph.input?_eq_some.mp hindex
    cases hn.symm.trans hm
    have hmem := List.mem_of_getElem? hslot
    have hread : ∃ slot ∈ n.inputs, s.carries slot = true := ⟨slot, hmem, carries_iff.mpr hcarries⟩
    obtain ⟨first, rest, hinputs⟩ := exists_first hread
    have hfilter : slot ∈ n.inputs.filter s.carries :=
      List.mem_filter.mpr ⟨hmem, carries_iff.mpr hcarries⟩
    rw [hinputs, List.mem_cons] at hfilter
    refine ⟨first, rest, hinputs, ?_⟩
    rcases hfilter with rfl | hrest
    · exact .refl _
    · exact .symm _ _ (.rel _ _ (.inl (join_mem.mpr ⟨v, n, rest, hn, hpreserved, hinputs, hrest⟩)))

theorem tied_of_linked (h : Reflected g s)
    (hlinked : GroupAction.Linked (propagation g s.carries) a b) :
    g.Tied s.grouping.Carries a b := by
  obtain ⟨ha, hb⟩ := h.proper.linked a b hlinked
  have hread : ∀ {v n slot}, g.node? v = some n → slot ∈ n.inputs.filter s.carries →
      g.Touches v slot := by
    intro v n slot hn hslot
    obtain ⟨index, hindex⟩ := List.mem_iff_getElem?.mp (List.mem_filter.mp hslot).1
    exact .inr ⟨index, Graph.input?_eq_some.mpr ⟨n, hn, hindex⟩⟩
  refine ⟨(Reflects.carries h a).mpr ha, (Reflects.carries h b).mpr hb, ?_⟩
  rcases hlinked with hjoin | hattach
  · obtain ⟨v, n, rest, hn, hpreserved, hinputs, hmem⟩ := join_mem.mp hjoin
    exact ⟨v, hpreserved, hread hn (hinputs ▸ List.mem_cons_self),
      hread hn (hinputs ▸ List.mem_cons_of_mem _ hmem)⟩
  · obtain ⟨-, hpreserved, n, rest, hn, hinputs⟩ := attach_mem.mp hattach
    exact ⟨a.node, hpreserved, .inl rfl, hread hn (hinputs ▸ List.mem_cons_self)⟩

theorem joined_iff (h : Reflected g s) :
    GroupAction.Joined (propagation g s.carries) a b ↔
      Relation.EqvGen (g.Tied s.grouping.Carries) a b := by
  constructor
  · exact Relation.EqvGen.mono (fun _ _ => h.tied_of_linked) a b
  · intro hab
    induction hab with
    | rel a b hab =>
      obtain ⟨ha, hb, v, hpreserved, hta, htb⟩ := hab
      obtain ⟨k, hk, -⟩ := hpreserved.kind
      obtain ⟨n, hn, -⟩ := Option.map_eq_some_iff.mp hk
      obtain ⟨first, rest, hinputs, hfirst⟩ := h.joined_first hn hpreserved hta ha
      obtain ⟨first', rest', hinputs', hfirst'⟩ := h.joined_first hn hpreserved htb hb
      cases hinputs.symm.trans hinputs'
      exact hfirst.trans _ _ _ (hfirst'.symm _ _)
    | refl a => exact .refl a
    | symm a b _ ih => exact ih.symm _ _
    | trans a b c _ _ ihab ihbc => exact ihab.trans _ _ _ ihbc

theorem solution (h : Reflected g s) : Solution g s where
  carries := h.carries
  together a b ha hb := by
    rw [← h.joined_iff]
    refine (h.same_iff a b).trans ⟨fun hab => hab.2.2, fun hab => ?_⟩
    exact ⟨(Reflects.carries h a).mp ha, (Reflects.carries h b).mp hb, hab⟩
  types slot hslot := by
    obtain ⟨types, htypes, hnarrowed⟩ := h.exists_value? ((Reflects.carries h slot).mp hslot)
    refine ⟨types, htypes, hnarrowed.1, fun t => (hnarrowed.2 t).trans ?_⟩
    refine and_congr_right fun ht => ⟨fun hall list hlist => ?_, fun hall list hlist => ?_⟩
    · obtain ⟨v, b, hrestricts, hb⟩ := hlist
      have hjoined := h.joined_iff.mpr hb
      have hcarries : s.grouping.Carries b := by
        rw [Reflects.carries h, ← h.proper.carried_congr hjoined, ← Reflects.carries h]
        exact hslot
      exact hall list ⟨b, hjoined, .inr (narrow_mem.mpr ⟨carries_iff.mpr hcarries, v, hrestricts⟩)⟩
    · obtain ⟨b, hb, hstart | hnarrow⟩ := hlist
      · obtain ⟨rfl, -⟩ := start_mem.mp hstart
        exact ht
      · obtain ⟨-, v, hrestricts⟩ := narrow_mem.mp hnarrow
        exact hall list ⟨v, b, hrestricts, h.joined_iff.mp hb⟩

end Reflected

theorem visitActions_cleared (g : Graph α) :
    visitActions { g with attributes := g.attributes.clear .precisions } = visitActions g := by
  funext carried v
  have hpass : ({ g with attributes := g.attributes.clear .precisions } : Graph α).preservesPrecision
      v = g.preservesPrecision v :=
    preservesPrecision_congr rfl ((get?_clear _ _ _ _).trans (if_neg (by simp)))
  have hrestriction : (g.attributes.clear .precisions).restriction? v =
      g.attributes.restriction? v := by
    rw [restriction?, restriction?, get?_clear, if_neg (by simp)]
  have hnode : ({ g with attributes := g.attributes.clear .precisions } : Graph α).node? v =
      g.node? v := rfl
  rw [visitActions, visitActions, hnode]
  cases g.node? v with
  | none => rfl
  | some n => simp only [nodeActions, hpass, hrestriction]

theorem visits_propagation {order : List NodeId} (hg : g.WellFormed)
    (horder : g.topologicalOrder.run = .ok (.ok order))
    (hrun : order.foldlM (visit { g with attributes := g.attributes.clear .precisions })
      (g.attributes.clear .precisions) = .ok s) :
    ∃ l, l.Perm (propagation g s.carries) ∧ Performs PrecisionSet.inter l s.grouping := by
  have hcleared : ({ g with attributes := g.attributes.clear .precisions } : Graph α).WellFormed :=
    hg.of_attributes _
  rw [← Graph.topologicalOrder_store (t := g.attributes.clear .precisions)] at horder
  obtain ⟨hinOrder, hperm⟩ := Graph.topologicalOrder_sorted hcleared horder
  have hnone : ∀ slot, (g.attributes.clear .precisions).precisionGroup? slot = none := by
    intro slot
    rw [precisionGroup?, get?_clear, if_pos rfl]
  have hstart : (g.attributes.clear .precisions).grouping = .empty := by
    rw [grouping, funext hnone]
    rfl
  have hnil : Performs PrecisionSet.inter [] (g.attributes.clear .precisions).grouping :=
    hstart ▸ .nil
  obtain ⟨hperforms, -⟩ := visits_perform hinOrder (grouped_clear g.attributes) hnil
    (fun slot _ => hnone slot) rfl hrun
  rw [List.nil_append, visitActions_cleared] at hperforms
  exact ⟨_, hperm.flatMap_right _, hperforms⟩

/-- On an acyclic graph the analysis succeeds, and what it leaves is the solution. It does its merges
and restrictions in one order, and in any other order they lead to the same. -/
theorem propagatePrecisions_solves (hg : g.WellFormed) (hacyclic : g.Acyclic) :
    ∃ s, exec (propagatePrecisions : Edit α TransformError Unit) g =
        .ok (.ok (), { g with attributes := s }) ∧ Solution g s ∧
      (∃ l, l.Perm (propagation g s.carries) ∧ Performs PrecisionSet.inter l s.grouping) ∧
      ∀ l t, l.Perm (propagation g s.carries) → Performs PrecisionSet.inter l t →
        t.Alike s.grouping := by
  obtain ⟨rank, hrank⟩ := hacyclic
  obtain ⟨order, horder, -⟩ := Graph.topologicalOrder_ok hg hrank
  obtain ⟨s, hs, -⟩ := visits_ok
    (g := { g with attributes := g.attributes.clear .precisions }) (grouped_clear g.attributes) order
  obtain ⟨l, hl, hperforms⟩ := visits_propagation hg horder hs
  have hreflects : ∀ {l t}, l.Perm (propagation g s.carries) → Performs PrecisionSet.inter l t →
      Reflects Narrowed (propagation g s.carries) t := fun hl hperforms =>
    (hperforms.reflects ((propagation_summarizes s.carries).perm hl.symm)).perm hl
  have hreflected : Reflected g s := hreflects hl hperforms
  refine ⟨s, ?_, hreflected.solution, ⟨l, hl, hperforms⟩, fun l t hl hperforms => ?_⟩
  · rw [exec_propagatePrecisions, horder]
    exact except_map_eq_ok.mpr ⟨s, hs, rfl⟩
  · exact (hreflects hl hperforms).alike (fun _ _ _ h h' => h.unique h') hreflected

def branched : Graph Rat :=
  let ports : List Port := [⟨.f32, some [1, 2]⟩]
  { Graph.assemble [("x", .parameter, [], ports), ("fq0", .fakeQuantize 256, [⟨0, 0⟩], ports),
      ("fq1", .fakeQuantize 256, [⟨0, 0⟩], ports), ("pool", .maxPool, [⟨1, 0⟩], ports),
      ("joined", .concat 1, [⟨3, 0⟩, ⟨2, 0⟩], ports), ("side", .fakeQuantize 256, [⟨0, 0⟩], ports),
      ("conv", .convolution, [⟨4, 0⟩, ⟨5, 0⟩], ports)] with
    attributes := (AttributeStore.empty.set (.node 6) (.precisionRestriction [⟨0, [.u8]⟩])).set
      (.output ⟨0, 0⟩) (.precisions 3) }

theorem propagatePrecisions_solves_of_branched : branched.WellFormed ∧ branched.Acyclic ∧
    ∃ s, exec (propagatePrecisions : Edit Rat TransformError Unit) branched =
        .ok (.ok (), { branched with attributes := s }) ∧ Solution branched s ∧
      [0, 1, 2, 3, 4, 5, 6].map (fun v => s.precisions? ⟨v, 0⟩) =
        [none, some [.u8], some [.u8], some [.u8], some [.u8], some [.i8, .u8], none] := by
  have hg : branched.WellFormed :=
    (Graph.assemble_ordered _).1.of_views rfl (fun _ => rfl) (fun _ _ => rfl) (fun _ => rfl)
  have hacyclic : branched.Acyclic := ⟨fun v => v, (Graph.assemble_ordered _).2⟩
  obtain ⟨s, hrun, hsolution, -⟩ := propagatePrecisions_solves hg hacyclic
  refine ⟨hg, hacyclic, s, hrun, hsolution, ?_⟩
  have hvalues : (exec (propagatePrecisions : Edit Rat TransformError Unit) branched).map
      (fun out => [0, 1, 2, 3, 4, 5, 6].map fun v => out.2.attributes.precisions? ⟨v, 0⟩) =
        .ok [none, some [.u8], some [.u8], some [.u8], some [.u8], some [.i8, .u8], none] := by
    decide +kernel
  rw [hrun] at hvalues
  exact Except.ok.inj hvalues

end Solutions

end Markup

end LowPrecision
