import LowPrecision.Markup.Basic
import LowPrecision.Proofs.Attributes.Store
import LowPrecision.Proofs.Graph.Order

/-!
The analysis of precisions visits the nodes in topological order. What carries the values of a
fake-quantize shares its group, and every restricted input that reads such an output bounds the types
of the group.
-/

namespace LowPrecision

variable {α : Type} {g g' : Graph α} {f id v : NodeId} {n : Node α} {slot : Slot}
  {s s' : AttributeStore α}

inductive Graph.Carries (g : Graph α) (f : NodeId) : Slot → Prop
  | source : g.Carries f ⟨f, 0⟩
  | pass {v : NodeId} {index output : Nat} {slot : Slot} : g.preservesPrecision v = true →
      g.input? v index = some slot → g.Carries f slot → g.Carries f ⟨v, output⟩

structure Graph.Restricts (g : Graph α) (v : NodeId) (slot : Slot) (types : List ElementType) :
    Prop where
  kind : ∃ n, g.node? v = some n ∧ n.kind ≠ .fakeQuantize
  computes : g.preservesPrecision v = false
  entry : ∃ inputs index, g.attributes.restriction? v = some inputs ∧ ⟨index, types⟩ ∈ inputs ∧
    g.input? v index = some slot

namespace Markup

open AttributeStore

def Bounded (s : AttributeStore α) (slot : Slot) (types : List ElementType) : Prop :=
  ∃ group held, s.precisionGroup? slot = some group ∧ s.precisionCells.get? group = some held ∧
    held ⊆ types

theorem Bounded.assigns {types : List ElementType} (h : Bounded s slot types)
    (ha : Assigns id s s') (hslot : slot.node ≠ id) : Bounded s' slot types := by
  obtain ⟨group, held, hgroup, hheld, hsub⟩ := h
  obtain ⟨held', hheld', hsub'⟩ := ha.narrows.types group held hheld
  exact ⟨group, held', (ha.kept hslot).trans hgroup, hheld', fun _ ht => hsub (hsub' ht)⟩

def Together (s : AttributeStore α) (slot slot' : Slot) : Prop :=
  ∃ a b, s.precisionGroup? slot = some a ∧ s.precisionGroup? slot' = some b ∧
    s.precisionCells.find a = s.precisionCells.find b

theorem Together.assigns {slot' : Slot} (h : Together s slot slot') (hs : s.Grouped)
    (ha : Assigns id s s') (hslot : slot.node ≠ id) (hslot' : slot'.node ≠ id) :
    Together s' slot slot' := by
  obtain ⟨a, b, hga, hgb, hfind⟩ := h
  exact ⟨a, b, (ha.kept hslot).trans hga, (ha.kept hslot').trans hgb,
    ha.narrows.together a b (hs.bounded _ _ hga) (hs.bounded _ _ hgb) hfind⟩

theorem Bounded.of_together {slot' : Slot} {types : List ElementType} (h : Bounded s slot types)
    (ht : Together s slot slot') : Bounded s slot' types := by
  obtain ⟨group, held, hgroup, hheld, hsub⟩ := h
  obtain ⟨a, b, ha, hb, hfind⟩ := ht
  cases hgroup.symm.trans ha
  exact ⟨b, held, hb, (SharedCells.get?_congr hfind).symm.trans hheld, hsub⟩

section Nodes

theorem shareGroup_assigns (id : NodeId) {group : GroupId} (outputs : Nat) (h : s.Grouped)
    (hgroup : group < s.precisionCells.size) :
    Assigns id s (shareGroup id outputs group s) ∧
      (shareGroup id outputs group s).precisionCells = s.precisionCells ∧
        ∀ index < outputs, (shareGroup id outputs group s).precisionGroup? ⟨id, index⟩ = some group := by
  induction outputs with
  | zero => exact ⟨.refl h, rfl, fun index hindex => absurd hindex (Nat.not_lt_zero index)⟩
  | succ outputs ih =>
    obtain ⟨hassigns, hcells, hgroups⟩ := ih
    have hstep : shareGroup id (outputs + 1) group s =
        (shareGroup id outputs group s).set (.output ⟨id, outputs⟩) (.precisions group) := by
      rw [shareGroup, List.range_succ, List.foldl_append]
      rfl
    rw [hstep]
    refine ⟨hassigns.trans (.set outputs hassigns.grouped (hcells ▸ hgroup)), hcells, fun index hindex => ?_⟩
    rcases Nat.lt_succ_iff_lt_or_eq.mp hindex with hlt | rfl
    · rw [precisionGroup?_eq_some, get?_set, if_neg]
      · exact precisionGroup?_eq_some.mp (hgroups index hlt)
      · rintro ⟨htarget, -⟩
        cases htarget
        exact Nat.lt_irrefl _ hlt
    · exact precisionGroup?_set _ _ _

theorem freshGroups_assigns (id : NodeId) (outputs : Nat) (h : s.Grouped) :
    Assigns id s (freshGroups id outputs s) ∧ ∀ index < outputs,
      Bounded (freshGroups id outputs s) ⟨id, index⟩ PrecisionSet.eightBit := by
  induction outputs with
  | zero => exact ⟨.refl h, fun index hindex => absurd hindex (Nat.not_lt_zero index)⟩
  | succ outputs ih =>
    obtain ⟨hassigns, hgroups⟩ := ih
    obtain ⟨t, ht⟩ : ∃ t, t = freshGroups id outputs s := ⟨_, rfl⟩
    have hstep : freshGroups id (outputs + 1) s =
        (t.newPrecisions PrecisionSet.eightBit).2.set (.output ⟨id, outputs⟩)
          (.precisions t.precisionCells.size) := by
      rw [ht, freshGroups, List.range_succ, List.foldl_append]
      rfl
    rw [← ht] at hassigns hgroups
    have hnew : Assigns id t (t.newPrecisions PrecisionSet.eightBit).2 :=
      .of_cells hassigns.grouped (.insert hassigns.grouped.linked _)
    have hlt : t.precisionCells.size <
        (t.newPrecisions PrecisionSet.eightBit).2.precisionCells.size := by
      simp [newPrecisions]
    have hset : Assigns id (t.newPrecisions PrecisionSet.eightBit).2 _ :=
      .set outputs hnew.grouped hlt
    rw [hstep]
    refine ⟨hassigns.trans (hnew.trans hset), fun index hindex => ?_⟩
    rcases Nat.lt_succ_iff_lt_or_eq.mp hindex with hltIndex | rfl
    · obtain ⟨group, held, hgroup, hheld, hsub⟩ := hgroups index hltIndex
      obtain ⟨held', hheld', hsub'⟩ := hnew.narrows.types group held hheld
      refine ⟨group, held', ?_, hheld', fun _ ht => hsub (hsub' ht)⟩
      rw [precisionGroup?_eq_some, get?_set, if_neg]
      · exact precisionGroup?_eq_some.mp hgroup
      · rintro ⟨htarget, -⟩
        cases htarget
        exact Nat.lt_irrefl _ hltIndex
    · exact ⟨_, PrecisionSet.eightBit, precisionGroup?_set _ _ _,
        SharedCells.get?_insert_new hassigns.grouped.linked _, fun _ ht => ht⟩

theorem mergeGroups_assigns (id : NodeId) {first merged : GroupId} {rest : List GroupId} (h : s.Grouped)
    (hgroups : ∀ group ∈ first :: rest, group < s.precisionCells.size)
    (hrun : rest.foldlM (fun (acc : GroupId × AttributeStore α) group =>
      acc.2.mergePrecisions acc.1 group) (first, s) = .ok (merged, s')) :
    Assigns id s s' ∧ merged < s'.precisionCells.size ∧ ∀ group ∈ first :: rest,
      s'.precisionCells.find group = s'.precisionCells.find merged := by
  induction rest generalizing first s with
  | nil =>
    cases hrun
    refine ⟨.refl h, hgroups merged (by simp), fun group hgroup => ?_⟩
    rw [List.mem_singleton.mp hgroup]
  | cons group rest ih =>
    rw [List.foldlM_cons] at hrun
    obtain ⟨⟨joined, t⟩, hmerge, hrest⟩ := except_bind_eq_ok.mp hrun
    have hfirst := hgroups first (by simp)
    have hgroup := hgroups group (by simp)
    obtain ⟨hassigns, hlt, hfind, hfind'⟩ := Assigns.merge id h hfirst hgroup hmerge
    obtain ⟨hassigns', hlt', hfound⟩ := ih hassigns.grouped (fun other hother => by
      rcases List.mem_cons.mp hother with rfl | hother
      · exact hlt
      · exact Nat.lt_of_lt_of_le (hgroups other (by simp [hother])) hassigns.narrows.size) hrest
    have hjoined := hfound joined List.mem_cons_self
    have hold : ∀ old < s.precisionCells.size,
        t.precisionCells.find old = t.precisionCells.find joined →
          s'.precisionCells.find old = s'.precisionCells.find merged := by
      intro old hold hsame
      rw [← hjoined]
      exact hassigns'.narrows.together old joined
        (Nat.lt_of_lt_of_le hold hassigns.narrows.size) hlt hsame
    refine ⟨hassigns.trans hassigns', hlt', fun other hother => ?_⟩
    rcases List.mem_cons.mp hother with rfl | hother
    · exact hold _ hfirst hfind
    · rcases List.mem_cons.mp hother with rfl | hother
      · exact hold _ hgroup hfind'
      · exact hfound other (List.mem_cons_of_mem _ hother)

def narrow (n : Node α) (entries : List InputRestriction) (s : AttributeStore α) :
    AttributeStore α :=
  entries.foldl (fun s entry =>
    match (n.input? entry.index).bind s.precisionGroup? with
    | some group => s.restrictPrecisions group entry.precisions
    | none => s) s

theorem narrow_single (id : NodeId) (n : Node α) (entry : InputRestriction) (h : s.Grouped) :
    Assigns id s (narrow n [entry] s) ∧
      (∀ slot, (narrow n [entry] s).precisionGroup? slot = s.precisionGroup? slot) ∧
      ∀ slot group, n.input? entry.index = some slot → s.precisionGroup? slot = some group →
        Bounded (narrow n [entry] s) slot entry.precisions := by
  rw [narrow, List.foldl_cons, List.foldl_nil]
  cases hread : (n.input? entry.index).bind s.precisionGroup? with
  | none =>
    refine ⟨.refl h, fun _ => rfl, fun slot group hslot hgroup => ?_⟩
    rw [hslot, Option.bind_some, hgroup] at hread
    cases hread
  | some found =>
    obtain ⟨hnarrows, htypes⟩ := SharedCells.Narrows.modify h.linked found entry.precisions
    refine ⟨.of_cells h hnarrows, fun _ => rfl, fun slot group hslot hgroup => ?_⟩
    rw [hslot, Option.bind_some, hgroup] at hread
    cases hread
    obtain ⟨types, hget, hsub⟩ := htypes (h.bounded slot _ hgroup)
    exact ⟨_, types, hgroup, hget, hsub⟩

theorem narrow_assigns (id : NodeId) (n : Node α) (entries : List InputRestriction) (h : s.Grouped) :
    Assigns id s (narrow n entries s) ∧
      (∀ slot, (narrow n entries s).precisionGroup? slot = s.precisionGroup? slot) ∧
      ∀ entry ∈ entries, ∀ slot group, n.input? entry.index = some slot →
        s.precisionGroup? slot = some group → Bounded (narrow n entries s) slot entry.precisions := by
  induction entries generalizing s with
  | nil => exact ⟨.refl h, fun _ => rfl, fun _ hentry => by simp at hentry⟩
  | cons entry entries ih =>
    have hsplit : narrow n (entry :: entries) s = narrow n entries (narrow n [entry] s) := rfl
    rw [hsplit]
    obtain ⟨hassigns, hgroups, hbounded⟩ := narrow_single id n entry h
    obtain ⟨hassigns', hgroups', hbounded'⟩ := ih hassigns.grouped
    refine ⟨hassigns.trans hassigns', fun slot => (hgroups' slot).trans (hgroups slot), ?_⟩
    intro other hother slot group hslot hgroup
    rcases List.mem_cons.mp hother with rfl | hother
    · -- What the first restriction leaves is narrowed further by the others.
      obtain ⟨group', held, hgroup', hheld, hsub⟩ := hbounded slot group hslot hgroup
      obtain ⟨held', hheld', hsub'⟩ := hassigns'.narrows.types group' held hheld
      exact ⟨group', held', (hgroups' slot).trans hgroup', hheld', fun _ h => hsub (hsub' h)⟩
    · exact hbounded' other hother slot group hslot ((hgroups slot).trans hgroup)

structure Visited (g : Graph α) (id : NodeId) (n : Node α) (s s' : AttributeStore α) : Prop where
  assigns : Assigns id s s'
  quantizer : n.kind = .fakeQuantize → ∀ index < n.outputs.length,
    Bounded s' ⟨id, index⟩ PrecisionSet.eightBit
  passes : n.kind ≠ .fakeQuantize → g.preservesPrecision id = true → ∀ slot ∈ n.inputs,
    ∀ group, s.precisionGroup? slot = some group → ∀ index < n.outputs.length,
      ∃ shared, s'.precisionGroup? ⟨id, index⟩ = some shared ∧
        s'.precisionCells.find shared = s'.precisionCells.find group
  restricts : n.kind ≠ .fakeQuantize → g.preservesPrecision id = false →
    (∀ slot, s'.precisionGroup? slot = s.precisionGroup? slot) ∧
      ∀ entries, s.restriction? id = some entries → ∀ entry ∈ entries, ∀ slot group,
        n.input? entry.index = some slot → s.precisionGroup? slot = some group →
          Bounded s' slot entry.precisions

theorem propagateNode_visited (h : s.Grouped) (hrun : propagateNode g id n s = .ok s') :
    Visited g id n s s' := by
  rw [propagateNode] at hrun
  split at hrun
  · next hkind =>
    cases hrun
    obtain ⟨hassigns, hgroups⟩ := freshGroups_assigns id n.outputs.length h
    exact ⟨hassigns, fun _ => hgroups, fun hne => absurd hkind hne, fun hne => absurd hkind hne⟩
  next hkind =>
  split at hrun
  · next hpass =>
    have hcalm : g.preservesPrecision id ≠ false := by simp [hpass]
    split at hrun
    · next hgroups =>
      cases hrun
      refine ⟨.refl h, fun hq => absurd hq hkind, fun _ _ slot hslot group hgroup => ?_,
        fun _ hfalse => absurd hfalse hcalm⟩
      have hmem : group ∈ n.inputs.filterMap s.precisionGroup? :=
        List.mem_filterMap.mpr ⟨slot, hslot, hgroup⟩
      rw [hgroups] at hmem
      cases hmem
    · next first rest hgroups =>
      obtain ⟨⟨merged, t⟩, hmerge, hshare⟩ := except_bind_eq_ok.mp hrun
      cases hshare
      have hmem : ∀ group, group ∈ first :: rest ↔ ∃ slot ∈ n.inputs,
          s.precisionGroup? slot = some group := by
        intro group
        rw [← hgroups]
        exact List.mem_filterMap
      obtain ⟨hassigns, hlt, hfind⟩ := mergeGroups_assigns id h (fun group hgroup => by
        obtain ⟨slot, -, hslot⟩ := (hmem group).mp hgroup
        exact h.bounded slot group hslot) hmerge
      obtain ⟨hassigns', hcells, hshared⟩ :=
        shareGroup_assigns id n.outputs.length hassigns.grouped hlt
      refine ⟨hassigns.trans hassigns', fun hq => absurd hq hkind,
        fun _ _ slot hslot group hgroup index hindex => ⟨merged, hshared index hindex, ?_⟩,
        fun _ hfalse => absurd hfalse hcalm⟩
      rw [hcells]
      exact (hfind group ((hmem group).mpr ⟨slot, hslot, hgroup⟩)).symm
  · next hpass =>
    cases hrun
    obtain ⟨hassigns, hgroups, hbounded⟩ :=
      narrow_assigns id n ((s.restriction? id).getD []) h
    refine ⟨hassigns, fun hq => absurd hq hkind, fun _ htrue => absurd htrue hpass,
      fun _ _ => ⟨hgroups, fun entries hentries => ?_⟩⟩
    intro entry hentry
    exact hbounded entry (by rw [hentries]; exact hentry)

end Nodes

structure Propagated (g : Graph α) (f : NodeId) (placed : List NodeId) (s : AttributeStore α) :
    Prop where
  grouped : s.Grouped
  closed (v : NodeId) (index : Nat) (slot : Slot) : v ∈ placed → g.input? v index = some slot →
    slot.node ∈ placed
  other (target : Target) (kind : AttributeKind) : kind ≠ .precisions ∨ target.owner ∉ placed →
    s.get? target kind = g.attributes.get? target kind
  eightBit : f ∈ placed → Bounded s ⟨f, 0⟩ PrecisionSet.eightBit
  together (slot : Slot) : g.Carries f slot → slot.node ∈ placed → (g.port? slot).isSome →
    Together s slot ⟨f, 0⟩
  bounded (v : NodeId) (slot : Slot) (types : List ElementType) : v ∈ placed →
    g.Restricts v slot types → g.Carries f slot → Bounded s ⟨f, 0⟩ types

theorem carries_placed {placed : List NodeId}
    (hclosed : ∀ v index slot, v ∈ placed → g.input? v index = some slot → slot.node ∈ placed)
    (h : g.Carries f slot) (hslot : slot.node ∈ placed) : f ∈ placed := by
  induction h with
  | source => exact hslot
  | pass _ hinput _ ih => exact ih (hclosed _ _ _ hslot hinput)

structure Source (g : Graph α) (f : NodeId) : Prop where
  wellFormed : g.WellFormed
  ends (v : NodeId) : g.kind? v = some .fakeQuantize → g.preservesPrecision v = false
  kind : g.kind? f = some .fakeQuantize
  port : (g.port? ⟨f, 0⟩).isSome

theorem lt_outputs_of_port {index : Nat} (hn : g.node? id = some n)
    (hport : (g.port? ⟨id, index⟩).isSome) : index < n.outputs.length := by
  rw [← Graph.wire?_isSome_eq_port] at hport
  obtain ⟨w, hw⟩ := Option.isSome_iff_exists.mp hport
  obtain ⟨m, hm, hwire⟩ := Graph.wire?_eq_some.mp hw
  cases hn.symm.trans hm
  exact (List.getElem?_eq_some_iff.mp hwire).1

namespace Propagated

section Step

variable {placed : List NodeId} (hf : Source g f) (h : Propagated g f placed s)
  (hn : g.node? id = some n) (hid : id ∉ placed) (hinputs : ∀ slot ∈ n.inputs, slot.node ∈ placed)

include h hid in
theorem not_visited (hcarries : g.Carries f slot) (hslot : slot.node ∈ placed) :
    f ≠ id ∧ slot.node ≠ id :=
  ⟨fun he => hid (he ▸ carries_placed h.closed hcarries hslot), fun he => hid (he ▸ hslot)⟩

include hn hinputs in
theorem placed_of_input {index : Nat} (hslot : g.input? id index = some slot) :
    n.input? index = some slot ∧ slot.node ∈ placed := by
  rw [Graph.input?, hn] at hslot
  exact ⟨hslot, hinputs slot (List.mem_of_getElem? hslot)⟩

include hf h hn hinputs in
theorem together_of_input {index : Nat} (hslot : g.input? id index = some slot)
    (hcarries : g.Carries f slot) : Together s slot ⟨f, 0⟩ :=
  h.together slot hcarries (placed_of_input hn hinputs hslot).2
    (Graph.wire?_isSome_eq_port g slot ▸ hf.wellFormed.wire_of_input hslot)

variable (hvisited : Visited g id n s s')

include hf hn hvisited in
theorem eightBit_of_visited (he : f = id) : Bounded s' ⟨f, 0⟩ PrecisionSet.eightBit := by
  subst he
  have hkind : g.kind? f = some n.kind := by rw [Graph.kind?, hn]; rfl
  exact hvisited.quantizer (Option.some.inj (hkind.symm.trans hf.kind)) 0
    (lt_outputs_of_port hn hf.port)

include hf h hn hid hinputs hvisited

theorem together_of_visited (hcarries : g.Carries f slot) (hnew : slot.node = id)
    (hport : (g.port? slot).isSome) : Together s' slot ⟨f, 0⟩ := by
  cases hcarries with
  | source =>
    obtain ⟨group, _, hgroup, -⟩ := eightBit_of_visited hf hn hvisited hnew
    exact ⟨group, group, hgroup, hgroup, rfl⟩
  | @pass v index output slot hpass hreads hcarries =>
    obtain rfl : v = id := hnew
    have hne : n.kind ≠ .fakeQuantize := by
      intro he
      have hends := hf.ends v (by rw [Graph.kind?, hn, Option.map_some, he])
      rw [hpass] at hends
      cases hends
    obtain ⟨hinput, hplaced⟩ := placed_of_input hn hinputs hreads
    obtain ⟨hfid, -⟩ := h.not_visited hid hcarries hplaced
    obtain ⟨a, b, ha, hb, hfind⟩ := h.together_of_input hf hn hinputs hreads hcarries
    obtain ⟨shared, hshared, hsame⟩ := hvisited.passes hne hpass slot
      (List.mem_of_getElem? hinput) a ha output (lt_outputs_of_port hn hport)
    refine ⟨shared, b, hshared, (hvisited.assigns.kept hfid).trans hb, hsame.trans ?_⟩
    exact hvisited.assigns.narrows.together a b (h.grouped.bounded _ _ ha) (h.grouped.bounded _ _ hb)
      hfind

theorem bounded_of_visited {types : List ElementType} (hrestricts : g.Restricts id slot types)
    (hcarries : g.Carries f slot) : Bounded s' ⟨f, 0⟩ types := by
  obtain ⟨⟨m, hm, hmkind⟩, hcomputes, entries, index, hentries, hentry, hslot⟩ := hrestricts
  cases hn.symm.trans hm
  obtain ⟨hinput, hplaced⟩ := placed_of_input hn hinputs hslot
  obtain ⟨hfid, hnode⟩ := h.not_visited hid hcarries hplaced
  have htogether := h.together_of_input hf hn hinputs hslot hcarries
  have hsame : s.restriction? id = g.attributes.restriction? id := by
    rw [restriction?, restriction?, h.other (.node id) .precisionRestriction (.inl (by simp))]
  have ⟨a, _, ha, _⟩ := htogether
  obtain ⟨-, hbounded⟩ := hvisited.restricts hmkind hcomputes
  have hslotBounded := hbounded entries (hsame.trans hentries) _ hentry slot a hinput ha
  exact hslotBounded.of_together (htogether.assigns h.grouped hvisited.assigns hnode hfid)

end Step

theorem step {placed : List NodeId} (hf : Source g f) (h : Propagated g f placed s)
    (hn : g.node? id = some n) (hid : id ∉ placed) (hinputs : ∀ slot ∈ n.inputs, slot.node ∈ placed)
    (hrun : propagateNode g id n s = .ok s') : Propagated g f (id :: placed) s' := by
  have hvisited := propagateNode_visited h.grouped hrun
  have hassigns := hvisited.assigns
  refine {
    grouped := hassigns.grouped
    closed := fun v index slot hv hslot => ?closed
    other := fun target kind hother => ?other
    eightBit := fun hfp => ?eightBit
    together := fun slot hcarries hslot hport => ?together
    bounded := fun v slot types hv hrestricts hcarries => ?bounded }
  case closed =>
    rcases List.mem_cons.mp hv with rfl | hv
    · exact List.mem_cons_of_mem _ (placed_of_input hn hinputs hslot).2
    · exact List.mem_cons_of_mem _ (h.closed v index slot hv hslot)
  case other =>
    have hside : kind ≠ .precisions ∨ target.owner ≠ id ∧ target.owner ∉ placed := by
      simpa [not_or] using hother
    exact (hassigns.other target kind (hside.imp_right And.left)).trans
      (h.other target kind (hside.imp_right And.right))
  case eightBit =>
    rcases List.mem_cons.mp hfp with he | hfp
    · exact eightBit_of_visited hf hn hvisited he
    · exact (h.eightBit hfp).assigns hassigns fun he => hid (he ▸ hfp)
  case together =>
    rcases List.mem_cons.mp hslot with hnew | hslot
    · exact h.together_of_visited hf hn hid hinputs hvisited hcarries hnew hport
    · obtain ⟨hfid, hnode⟩ := h.not_visited hid hcarries hslot
      exact (h.together slot hcarries hslot hport).assigns h.grouped hassigns hnode hfid
  case bounded =>
    rcases List.mem_cons.mp hv with rfl | hv
    · exact h.bounded_of_visited hf hn hid hinputs hvisited hrestricts hcarries
    · have hslot : slot.node ∈ placed := by
        obtain ⟨-, -, -, index, -, -, hslot⟩ := hrestricts
        exact h.closed v index slot hv hslot
      exact (h.bounded v slot types hv hrestricts hcarries).assigns hassigns
        (h.not_visited hid hcarries hslot).1

end Propagated

theorem Propagated.visit {placed order : List NodeId} (hf : Source g f)
    (horder : g.InOrder placed order) (h : Propagated g f placed s)
    (hrun : order.foldlM (fun s id =>
      match g.node? id with
      | some n => propagateNode g id n s
      | none => return s) s = (.ok s' : Checked (AttributeStore α))) :
    ∃ placed', (∀ v, v ∈ placed' ↔ v ∈ placed ∨ v ∈ order) ∧ Propagated g f placed' s' := by
  induction order generalizing placed s with
  | nil =>
    cases hrun
    exact ⟨placed, by simp, h⟩
  | cons id order ih =>
    obtain ⟨⟨n, hn, hid, hinputs⟩, hrest⟩ := horder
    rw [List.foldlM_cons, hn] at hrun
    obtain ⟨t, hstep, hrun⟩ := except_bind_eq_ok.mp hrun
    obtain ⟨placed', hmem, h'⟩ := ih hrest (h.step hf hn hid hinputs hstep) hrun
    refine ⟨placed', fun v => ?_, h'⟩
    rw [hmem, List.mem_cons, List.mem_cons]
    tauto

end Markup

end LowPrecision
