import LowPrecision.Proofs.Attributes.Grouping
import LowPrecision.Proofs.Graph.Backward
import LowPrecision.Proofs.Markup.Independence
import LowPrecision.Proofs.Quantization.Hulls

/-!
What the alignment of intervals computes: the connected components of the regions behind
concatenations, and for each component the hull of its fake-quantizes.
-/

namespace LowPrecision

open Grouping

namespace Markup

open AttributeStore

section Groups

variable {α : Type} {g : Graph α} {s s' : AttributeStore α} {c : NodeId}
  {group : GroupId} {members : List NodeId} {interval : SharedInterval α}
  {l l' : List (GroupAction (NodeId ⊕ NodeId) (SharedInterval α))}
  {t t' : Grouping (NodeId ⊕ NodeId) (SharedInterval α)}

structure Mirrors (s : AttributeStore α) (t : Grouping (NodeId ⊕ NodeId) (SharedInterval α)) :
    Prop where
  group (v : NodeId) : t.group? (.inl v) = s.intervalGroup? v
  filed (v : NodeId) : s.has (.node v) .intervals = (s.intervalGroup? v).isSome
  cells : t.cells = s.intervalCells

theorem intervalGroup?_set (s : AttributeStore α) (v : NodeId) (group : GroupId) (u : NodeId) :
    (s.set (.node v) (.intervals group)).intervalGroup? u =
      if u = v then some group else s.intervalGroup? u := by
  by_cases h : u = v
  · rw [if_pos h, intervalGroup?_eq_some, get?_set, if_pos ⟨by rw [h], rfl⟩]
  · rw [if_neg h, intervalGroup?, intervalGroup?, get?_set, if_neg (by simp [h])]

theorem Mirrors.cleared (s : AttributeStore α) :
    Mirrors (s.clear .intervals) (.empty : Grouping (NodeId ⊕ NodeId) (SharedInterval α)) := by
  have hnone : ∀ v, (s.clear .intervals).get? (.node v) .intervals = none := fun v => by
    rw [get?_clear, if_pos rfl]
  refine ⟨fun v => ?_, fun v => ?_, rfl⟩
  · rw [intervalGroup?, hnone]
    rfl
  · rw [has, intervalGroup?, hnone]
    rfl

theorem Mirrors.set (hm : Mirrors s t) (v : NodeId) (group : GroupId) :
    Mirrors (s.set (.node v) (.intervals group))
      ⟨Function.update t.group? (.inl v) (some group), t.cells⟩ := by
  refine ⟨fun u => ?_, fun u => ?_, hm.cells⟩
  · dsimp only
    rw [intervalGroup?_set, Function.update_apply]
    simp only [Sum.inl.injEq, hm.group]
  · rw [intervalGroup?_set, has, get?_set]
    by_cases hu : u = v
    · simp [hu, Attribute.kind]
    · rw [if_neg (by simp [hu]), if_neg hu, ← hm.filed]
      rfl

variable [Scalar α]

theorem joinMembers_performs {start joined : GroupId × AttributeStore α}
    (hl : Performs SharedInterval.widen l t) (hm : Mirrors start.2 t)
    (hc : t.Names (.inr c) start.1) (hrun : members.foldlM joinMember start = .ok joined) :
    ∃ cells, Performs SharedInterval.widen
        (l ++ (members.filter fun v => (start.2.intervalGroup? v).isSome).map
          fun v => .join (.inl v) (.inr c)) ⟨t.group?, cells⟩ ∧
      Mirrors joined.2 ⟨t.group?, cells⟩ ∧
      (⟨t.group?, cells⟩ : Grouping (NodeId ⊕ NodeId) (SharedInterval α)).Names (.inr c) joined.1 ∧
      joined.2.intervalGroup? = start.2.intervalGroup? := by
  induction members generalizing start l t with
  | nil =>
    cases hrun
    exact ⟨t.cells, by simpa using hl, hm, hc, rfl⟩
  | cons member members ih =>
    rw [List.foldlM_cons] at hrun
    obtain ⟨next, hstep, hrun⟩ := except_bind_eq_ok.mp hrun
    rw [joinMember] at hstep
    cases hgroup : start.2.intervalGroup? member with
    | none =>
      rw [hgroup] at hstep
      cases hstep
      rw [List.filter_cons_of_neg (by simp [hgroup])]
      exact ih hl hm hc hrun
    | some existing =>
      rw [hgroup] at hstep
      obtain ⟨⟨root, cells⟩, hmerge, hpure⟩ := except_bind_eq_ok.mp hstep
      cases hpure
      rw [← hm.cells] at hmerge
      have hfiled : t.group? (.inl member) = some existing := (hm.group member).trans hgroup
      have hreflects := hl.reflects_groups
      have hmember : t.Names (.inl member) existing :=
        ⟨hreflects.lt_size hfiled, existing, hfiled, rfl⟩
      have hperforms := hl.snoc (.join hmember hc hmerge)
      obtain ⟨cells', hperforms', hm', hc', hsame⟩ := ih hperforms
        (⟨hm.group, hm.filed, rfl⟩ : Mirrors { start.2 with intervalCells := cells } ⟨t.group?, cells⟩)
        (hmember.merged hreflects.linked hc hmerge).2 hrun
      refine ⟨cells', ?_, hm', hc', hsame⟩
      rw [List.filter_cons_of_pos (by simp [hgroup]), List.map_cons]
      rwa [List.append_assoc] at hperforms'

theorem addMembers_performs (members : List NodeId) (hl : Performs SharedInterval.widen l t)
    (hm : Mirrors s t) (hc : t.Names (.inr c) group) :
    ∃ l' t', Performs SharedInterval.widen (l ++ l') t' ∧
      Mirrors (members.foldl (addMember group) s) t' ∧
      (∀ d, t'.group? (.inr d) = t.group? (.inr d)) ∧
      (∀ action ∈ l', ∃ v ∈ members, action = .attach (.inl v) (.inr c)) ∧
      ∀ v ∈ members, (s.intervalGroup? v).isSome ∨ .attach (.inl v) (.inr c) ∈ l' := by
  induction members generalizing s l t with
  | nil => exact ⟨[], t, by simpa using hl, hm, fun _ => rfl, by simp, by simp⟩
  | cons member members ih =>
    rw [List.foldl_cons, addMember]
    cases hgroup : s.intervalGroup? member with
    | some existing =>
      rw [if_pos (by rw [hm.filed, hgroup]; rfl)]
      obtain ⟨l', t', hperforms, hm', hkept, hattach, hall⟩ := ih hl hm hc
      refine ⟨l', t', hperforms, hm', hkept, fun action haction => ?_, ?_⟩
      · obtain ⟨v, hv, he⟩ := hattach action haction
        exact ⟨v, List.mem_cons_of_mem _ hv, he⟩
      · exact List.forall_mem_cons.mpr ⟨.inl (by rw [hgroup]; rfl), hall⟩
    | none =>
      rw [if_neg (by rw [hm.filed, hgroup]; simp)]
      have hnone : t.group? (.inl member) = none := (hm.group member).trans hgroup
      have hother : ∀ d : NodeId, Function.update t.group? (.inl member) (some group) (.inr d) =
          t.group? (.inr d) := fun d => Function.update_of_ne (by simp) _ _
      obtain ⟨hlt, x, hx, hfind⟩ := hc
      obtain ⟨l', t', hperforms, hm', hkept, hattach, hall⟩ :=
        ih (hl.snoc (.attach hnone ⟨hlt, x, hx, hfind⟩)) (hm.set member group)
          ⟨hlt, x, (hother c).trans hx, hfind⟩
      rw [List.append_assoc] at hperforms
      refine ⟨_, t', hperforms, hm', fun d => (hkept d).trans (hother d), fun action haction => ?_, ?_⟩
      · rcases List.mem_cons.mp haction with rfl | haction
        · exact ⟨member, List.mem_cons_self, rfl⟩
        · obtain ⟨v, hv, he⟩ := hattach action haction
          exact ⟨v, List.mem_cons_of_mem _ hv, he⟩
      · refine List.forall_mem_cons.mpr ⟨.inr List.mem_cons_self, fun v hv => ?_⟩
        rcases hall v hv with hsome | hmem
        · rw [intervalGroup?_set] at hsome
          split at hsome
          · next he => exact .inr (he ▸ List.mem_cons_self)
          · exact .inl hsome
        · exact .inr (List.mem_cons_of_mem _ hmem)

structure Records (g : Graph α) (concats : List NodeId)
    (l : List (GroupAction (NodeId ⊕ NodeId) (SharedInterval α))) : Prop where
  start (k : NodeId ⊕ NodeId) (interval : SharedInterval α) : .start k interval ∈ l ↔
    ∃ c ∈ concats, ∃ members, regionInterval? g c = some (interval, members) ∧ k = .inr c
  linked (a b : NodeId ⊕ NodeId) : GroupAction.Linked l a b ↔ ∃ c ∈ concats, ∃ interval members v,
    regionInterval? g c = some (interval, members) ∧ v ∈ members ∧ a = .inl v ∧ b = .inr c
  narrow (k : NodeId ⊕ NodeId) (interval : SharedInterval α) : .narrow k interval ∉ l

theorem Records.nil : Records g [] [] := ⟨by simp, by simp [GroupAction.Linked], by simp⟩

theorem Records.append {concats concats' : List NodeId} (h : Records g concats l)
    (h' : Records g concats' l') : Records g (concats ++ concats') (l ++ l') where
  start k interval := by
    rw [List.mem_append, h.start, h'.start]
    simp only [List.mem_append, or_and_right, exists_or]
  linked a b := by
    have hsplit : GroupAction.Linked (l ++ l') a b ↔
        GroupAction.Linked l a b ∨ GroupAction.Linked l' a b := by
      simp only [GroupAction.Linked, List.mem_append]
      exact or_or_or_comm
    rw [hsplit, h.linked, h'.linked]
    simp only [List.mem_append, or_and_right, exists_or]
  narrow k interval := by
    rw [List.mem_append, not_or]
    exact ⟨h.narrow k interval, h'.narrow k interval⟩

theorem records_region {attached : List (GroupAction (NodeId ⊕ NodeId) (SharedInterval α))}
    {p : NodeId → Bool} (hregion : regionInterval? g c = some (interval, members))
    (hattached : ∀ action ∈ attached, ∃ v ∈ members, action = .attach (.inl v) (.inr c))
    (hall : ∀ v ∈ members, p v = true ∨ .attach (.inl v) (.inr c) ∈ attached) :
    Records g [c] (.start (.inr c) interval ::
      ((members.filter p).map (fun v => .join (.inl v) (.inr c)) ++ attached)) := by
  have hjoined : ∀ {action : GroupAction (NodeId ⊕ NodeId) (SharedInterval α)},
      action ∈ (members.filter p).map (fun v => .join (.inl v) (.inr c)) ↔
        ∃ v ∈ members, p v = true ∧ .join (.inl v) (.inr c) = action := by
    intro action
    simp only [List.mem_map, List.mem_filter, and_assoc]
  have hcases : ∀ action ∈ (members.filter p).map (fun v => .join (.inl v) (.inr c)) ++ attached,
      ∃ v ∈ members, action = .join (.inl v) (.inr c) ∨ action = .attach (.inl v) (.inr c) := by
    intro action haction
    rcases List.mem_append.mp haction with h | h
    · obtain ⟨v, hv, -, rfl⟩ := hjoined.mp h
      exact ⟨v, hv, .inl rfl⟩
    · obtain ⟨v, hv, rfl⟩ := hattached action h
      exact ⟨v, hv, .inr rfl⟩
  refine ⟨fun k i => ⟨fun h => ?_, ?_⟩, fun a b => ⟨fun h => ?_, ?_⟩, fun k i h => ?_⟩
  · rcases List.mem_cons.mp h with h | h
    · cases h
      exact ⟨c, List.mem_singleton.mpr rfl, members, hregion, rfl⟩
    · obtain ⟨v, -, he | he⟩ := hcases _ h <;> cases he
  · rintro ⟨d, hd, _, hfound, rfl⟩
    obtain rfl := List.mem_singleton.mp hd
    cases hregion.symm.trans hfound
    exact List.mem_cons_self
  · have hmem : ∀ action, action = .join a b ∨ action = .attach a b → action ∈
        .start (.inr c) interval ::
          ((members.filter p).map (fun v => .join (.inl v) (.inr c)) ++ attached) →
        ∃ v ∈ members, a = .inl v ∧ b = .inr c := by
      intro action haction hmem
      rcases List.mem_cons.mp hmem with rfl | hmem
      · rcases haction with haction | haction <;> cases haction
      · obtain ⟨v, hv, rfl | rfl⟩ := hcases _ hmem <;> rcases haction with haction | haction <;>
          cases haction
        · exact ⟨v, hv, rfl, rfl⟩
        · exact ⟨v, hv, rfl, rfl⟩
    have hfound := h.elim (hmem _ (.inl rfl)) (hmem _ (.inr rfl))
    obtain ⟨v, hv, ha, hb⟩ := hfound
    exact ⟨c, List.mem_singleton.mpr rfl, interval, members, v, hregion, hv, ha, hb⟩
  · rintro ⟨d, hd, _, _, v, hfound, hv, rfl, rfl⟩
    obtain rfl := List.mem_singleton.mp hd
    cases hregion.symm.trans hfound
    rcases hall v hv with hp | hattach
    · exact .inl (List.mem_cons_of_mem _ (List.mem_append_left _ (hjoined.mpr ⟨v, hv, hp, rfl⟩)))
    · exact .inr (List.mem_cons_of_mem _ (List.mem_append_right _ hattach))
  · rcases List.mem_cons.mp h with h | h
    · cases h
    · obtain ⟨v, -, he | he⟩ := hcases _ h <;> cases he

theorem alignRegion_performs (hl : Performs SharedInterval.widen l t) (hm : Mirrors s t)
    (hnew : t.group? (.inr c) = none) (hrun : alignRegion g s c = .ok s') :
    ∃ l' t', Performs SharedInterval.widen (l ++ l') t' ∧ Mirrors s' t' ∧ Records g [c] l' ∧
      ∀ d ≠ c, t'.group? (.inr d) = t.group? (.inr d) := by
  rw [alignRegion] at hrun
  cases hregion : regionInterval? g c with
  | none =>
    rw [hregion] at hrun
    cases hrun
    refine ⟨[], t, by simpa using hl, hm, ?_, fun _ _ => rfl⟩
    exact ⟨by simp [hregion], by simp [GroupAction.Linked, hregion], by simp⟩
  | some found =>
    obtain ⟨interval, members⟩ := found
    rw [hregion] at hrun
    dsimp only at hrun
    rw [shareInterval_eq] at hrun
    obtain ⟨⟨group, u⟩, hjoin, hset⟩ := except_bind_eq_ok.mp hrun
    cases hset
    have hother : ∀ k, k ≠ .inr c →
        Function.update t.group? (.inr c) (some t.cells.size) k = t.group? k :=
      fun k hk => Function.update_of_ne hk _ _
    have hstarted : Mirrors (s.newInterval interval).2
        ⟨Function.update t.group? (.inr c) (some t.cells.size), (t.cells.insert interval).2⟩ := by
      refine ⟨fun v => (hother _ (by simp)).trans (hm.group v), hm.filed, ?_⟩
      dsimp only
      rw [hm.cells]
      rfl
    have hnames : (⟨Function.update t.group? (.inr c) (some t.cells.size),
        (t.cells.insert interval).2⟩ : Grouping _ _).Names (.inr c) (s.newInterval interval).1 := by
      have hgroup : (s.newInterval interval).1 = t.cells.size := by
        rw [hm.cells]
        rfl
      rw [hgroup]
      refine ⟨?_, _, Function.update_self _ _ _, rfl⟩
      exact Nat.lt_of_lt_of_eq (Nat.lt_succ_self _) (SharedCells.size_insert t.cells interval).symm
    obtain ⟨cells, hperforms, hjoined, hc, hsame⟩ :=
      joinMembers_performs (hl.snoc (.start hnew)) hstarted hnames hjoin
    obtain ⟨attached, t', hperforms', hm', hkept, hattach, hall⟩ :=
      addMembers_performs members hperforms hjoined hc
    rw [List.append_assoc, List.append_assoc] at hperforms'
    refine ⟨_, t', hperforms', hm', records_region hregion hattach fun v hv => ?_,
      fun d hd => (hkept d).trans (hother _ (by simpa using hd))⟩
    rw [hsame] at hall
    exact hall v hv

theorem alignRegions_perform {concats : List NodeId} (hl : Performs SharedInterval.widen l t)
    (hm : Mirrors s t) (hnodup : concats.Nodup) (hnew : ∀ c ∈ concats, t.group? (.inr c) = none)
    (hrun : concats.foldlM (alignRegion g) s = .ok s') :
    ∃ l' t', Performs SharedInterval.widen (l ++ l') t' ∧ Mirrors s' t' ∧ Records g concats l' := by
  induction concats generalizing s l t with
  | nil =>
    cases hrun
    exact ⟨[], t, by simpa using hl, hm, .nil⟩
  | cons c concats ih =>
    rw [List.foldlM_cons] at hrun
    obtain ⟨u, hstep, hrun⟩ := except_bind_eq_ok.mp hrun
    obtain ⟨hc, hnodup⟩ := List.nodup_cons.mp hnodup
    obtain ⟨hnewc, hnew⟩ := List.forall_mem_cons.mp hnew
    obtain ⟨l₁, t₁, hperforms, hm₁, hrecords, hkept⟩ := alignRegion_performs hl hm hnewc hstep
    obtain ⟨l₂, t₂, hperforms', hm₂, hrecords'⟩ := ih hperforms hm₁ hnodup
      (fun d hd => (hkept d fun he => hc (he ▸ hd)).trans (hnew d hd)) hrun
    rw [List.append_assoc] at hperforms'
    exact ⟨_, t₂, hperforms', hm₂, hrecords.append hrecords'⟩

end Groups

section Regions

variable {α : Type} {g : Graph α} {c d a b : NodeId} {r : Region}

structure Aligns (g : Graph α) (c : NodeId) (r : Region) : Prop where
  behind : Region.behind g c = .ok r
  boundary : r.boundary ≠ []
  ranges : ∀ v ∈ r.boundary, ∃ ranges, Ranges.ofNode g v = .ok ranges

def InRegion (g : Graph α) (c v : NodeId) : Prop := ∃ r, Aligns g c r ∧ v ∈ r.members

def Overlaps (g : Graph α) (c d : NodeId) : Prop := ∃ v, InRegion g c v ∧ InRegion g d v

def Chained (g : Graph α) (a b : NodeId) : Prop :=
  ∃ c d, InRegion g c a ∧ InRegion g d b ∧ Relation.ReflTransGen (Overlaps g) c d

instance : Std.Symm (Overlaps g) where
  symm _ _ h := by
    obtain ⟨v, hc, hd⟩ := h
    exact ⟨v, hd, hc⟩

theorem chain_symm (h : Relation.ReflTransGen (Overlaps g) c d) :
    Relation.ReflTransGen (Overlaps g) d c :=
  Relation.ReflTransGen.stdSymm.symm c d h

theorem readRanges_eq_some {ids : List NodeId} {ranges : List (Ranges α)} :
    readRanges g ids = some ranges ↔
      List.Forall₂ (fun v r => Ranges.ofNode g v = .ok r) ids ranges := by
  induction ids generalizing ranges with
  | nil =>
    rw [readRanges, List.mapM_nil, List.forall₂_nil_left_iff]
    exact Option.some_inj.trans eq_comm
  | cons v ids ih =>
    rw [readRanges] at ih
    rw [readRanges, List.mapM_cons, List.forall₂_cons_left_iff]
    simp only [bind, Option.bind_eq_some_iff, except_toOption_eq_some, ih]
    constructor
    · rintro ⟨r, hr, rest, hrest, he⟩
      exact ⟨r, rest, hr, hrest, (Option.some.inj he).symm⟩
    · rintro ⟨r, rest, hr, hrest, rfl⟩
      exact ⟨r, hr, rest, hrest, rfl⟩

theorem mem_ranges_iff {ids : List NodeId} {ranges : List (Ranges α)} {r : Ranges α}
    (h : List.Forall₂ (fun v r => Ranges.ofNode g v = .ok r) ids ranges) :
    r ∈ ranges ↔ ∃ v ∈ ids, Ranges.ofNode g v = .ok r := by
  induction h with
  | nil => simp
  | cons hv _ ih =>
    rw [List.mem_cons, ih, List.exists_mem_cons_iff, hv, Except.ok.injEq, eq_comm]

variable [Scalar α] {interval : SharedInterval α} {members : List NodeId} {v : NodeId}

theorem regionInterval?_eq_some :
    regionInterval? g c = some (interval, members) ↔ ∃ r first rest, Region.behind g c = .ok r ∧
      readRanges g r.boundary = some (first :: rest) ∧
      interval = rest.foldl (fun hull r => hull.widen (intervalOf r)) (intervalOf first) ∧
      members = r.boundary ++ r.layers := by
  rw [regionInterval?]
  simp only [bind, Option.bind_eq_some_iff, except_toOption_eq_some]
  constructor
  · rintro ⟨r, hr, ranges, hranges, h⟩
    split at h
    · cases h
    · next first rest =>
      cases h
      exact ⟨r, first, rest, hr, hranges, rfl, rfl⟩
  · rintro ⟨r, first, rest, hr, hranges, rfl, rfl⟩
    exact ⟨r, hr, first :: rest, hranges, rfl⟩

theorem Aligns.regionInterval? (h : Aligns g c r) :
    ∃ interval, regionInterval? g c = some (interval, r.boundary ++ r.layers) := by
  have hread : ∀ ids : List NodeId, (∀ v ∈ ids, ∃ ranges, Ranges.ofNode g v = .ok ranges) →
      ∃ ranges, readRanges g ids = some ranges ∧ ranges.length = ids.length := by
    intro ids hids
    induction ids with
    | nil => exact ⟨[], rfl, rfl⟩
    | cons v ids ih =>
      obtain ⟨⟨r, hr⟩, hids⟩ := List.forall_mem_cons.mp hids
      obtain ⟨ranges, hranges, hlength⟩ := ih hids
      exact ⟨r :: ranges, readRanges_eq_some.mpr (.cons hr (readRanges_eq_some.mp hranges)),
        congrArg (· + 1) hlength⟩
  obtain ⟨ranges, hranges, hlength⟩ := hread r.boundary h.ranges
  cases ranges with
  | nil => exact absurd (List.length_eq_zero_iff.mp hlength.symm) h.boundary
  | cons first rest =>
    exact ⟨_, regionInterval?_eq_some.mpr ⟨r, first, rest, h.behind, hranges, rfl, rfl⟩⟩

theorem aligns_of_regionInterval? (h : Markup.regionInterval? g c = some (interval, members)) :
    ∃ r first rest, Aligns g c r ∧
      List.Forall₂ (fun v r => Ranges.ofNode g v = .ok r) r.boundary (first :: rest) ∧
      interval = rest.foldl (fun hull r => hull.widen (intervalOf r)) (intervalOf first) ∧
      ∀ v, v ∈ members ↔ v ∈ r.members := by
  obtain ⟨r, first, rest, hbehind, hranges, hinterval, rfl⟩ := regionInterval?_eq_some.mp h
  have hall := readRanges_eq_some.mp hranges
  refine ⟨r, first, rest, ⟨hbehind, fun hnil => ?_, fun v hv => ?_⟩, hall, hinterval, fun v => ?_⟩
  · rw [hnil] at hall
    cases hall
  · obtain ⟨k, hk⟩ := List.mem_iff_getElem?.mp hv
    obtain ⟨ranges, -, hv⟩ := forall₂_getElem? hall hk
    exact ⟨ranges, hv⟩
  · rw [Region.members, List.mem_append, List.mem_append, or_comm]

theorem inRegion_iff : InRegion g c v ↔
    ∃ interval members, Markup.regionInterval? g c = some (interval, members) ∧ v ∈ members := by
  constructor
  · rintro ⟨r, haligns, hv⟩
    obtain ⟨interval, hregion⟩ := haligns.regionInterval?
    refine ⟨interval, _, hregion, ?_⟩
    rw [Region.members, List.mem_append] at hv
    exact List.mem_append.mpr hv.symm
  · rintro ⟨interval, members, hregion, hv⟩
    obtain ⟨r, _, _, haligns, -, -, hmem⟩ := aligns_of_regionInterval? hregion
    exact ⟨r, haligns, (hmem v).mp hv⟩

theorem mem_concats (h : Markup.regionInterval? g c = some (interval, members)) :
    c ∈ g.ofKind .concat := by
  obtain ⟨r, _, _, haligns, -⟩ := aligns_of_regionInterval? h
  have hkind : g.kind? c = some .concat := by
    by_contra hne
    have hbehind := haligns.behind
    rw [Region.behind_of_not_concat hne] at hbehind
    cases hbehind
  obtain ⟨n, hn, hk⟩ := Option.map_eq_some_iff.mp hkind
  exact List.mem_map.mpr ⟨(c, n), List.mem_filter.mpr
    ⟨Graph.WellFormed.mem_liveNodes.mpr hn, decide_eq_true hk⟩, rfl⟩

end Regions

section Classes

variable {α : Type} [Scalar α] {g : Graph α} {c d v : NodeId} {a b : NodeId}
  {k x y : NodeId ⊕ NodeId} {interval : SharedInterval α}
  {l : List (GroupAction (NodeId ⊕ NodeId) (SharedInterval α))}

def Near (g : Graph α) : NodeId ⊕ NodeId → NodeId → Prop
  | .inl v, c => InRegion g c v
  | .inr d, c => d = c

namespace Records

variable (h : Records g (g.ofKind .concat) l)

include h

theorem linked_iff : GroupAction.Linked l x y ↔
    ∃ c v, InRegion g c v ∧ x = .inl v ∧ y = .inr c := by
  rw [h.linked]
  constructor
  · rintro ⟨c, -, interval, members, v, hregion, hv, rfl, rfl⟩
    exact ⟨c, v, inRegion_iff.mpr ⟨interval, members, hregion, hv⟩, rfl, rfl⟩
  · rintro ⟨c, v, hmem, rfl, rfl⟩
    obtain ⟨interval, members, hregion, hv⟩ := inRegion_iff.mp hmem
    exact ⟨c, mem_concats hregion, interval, members, v, hregion, hv, rfl, rfl⟩

theorem adds_iff : GroupAction.Adds l k interval ↔
    ∃ c members, regionInterval? g c = some (interval, members) ∧ k = .inr c := by
  rw [GroupAction.Adds, h.start, or_iff_left (h.narrow k interval)]
  constructor
  · rintro ⟨c, -, members, hregion, rfl⟩
    exact ⟨c, members, hregion, rfl⟩
  · rintro ⟨c, members, hregion, rfl⟩
    exact ⟨c, mem_concats hregion, members, hregion, rfl⟩

theorem carried_iff (hproper : GroupAction.Proper l) :
    GroupAction.Carried l (.inl v) ↔ ∃ c, InRegion g c v := by
  constructor
  · rintro (⟨interval, hstart⟩ | ⟨source, hattach⟩)
    · obtain ⟨_, -, _, -, he⟩ := (h.start _ _).mp hstart
      cases he
    · obtain ⟨c, u, hmem, he, -⟩ := h.linked_iff.mp (.inr hattach)
      cases he
      exact ⟨c, hmem⟩
  · rintro ⟨c, hmem⟩
    exact (hproper.linked _ _ (h.linked_iff.mpr ⟨c, v, hmem, rfl, rfl⟩)).1

theorem near_of_joined (hjoined : GroupAction.Joined l x y) :
    (∀ c, Near g x c → ∃ d, Near g y d ∧ Relation.ReflTransGen (Overlaps g) c d) ∧
      ∀ d, Near g y d → ∃ c, Near g x c ∧ Relation.ReflTransGen (Overlaps g) c d := by
  -- A link leads from a member to the concatenation of its region, so that overlaps are met at
  -- members only.
  induction hjoined with
  | rel x y hxy =>
    obtain ⟨c, v, hmem, rfl, rfl⟩ := h.linked_iff.mp hxy
    refine ⟨fun d hd => ⟨c, rfl, .single ⟨v, hd, hmem⟩⟩, fun d hd => ⟨c, hmem, ?_⟩⟩
    obtain rfl : c = d := hd
    exact .refl
  | refl x => exact ⟨fun c hc => ⟨c, hc, .refl⟩, fun c hc => ⟨c, hc, .refl⟩⟩
  | symm x y _ ih =>
    refine ⟨fun c hc => ?_, fun d hd => ?_⟩
    · obtain ⟨d, hd, hchain⟩ := ih.2 c hc
      exact ⟨d, hd, chain_symm hchain⟩
    · obtain ⟨c, hc, hchain⟩ := ih.1 d hd
      exact ⟨c, hc, chain_symm hchain⟩
  | trans x y z _ _ ihxy ihyz =>
    refine ⟨fun c hc => ?_, fun e he => ?_⟩
    · obtain ⟨d, hd, hcd⟩ := ihxy.1 c hc
      obtain ⟨e, he, hde⟩ := ihyz.1 d hd
      exact ⟨e, he, hcd.trans hde⟩
    · obtain ⟨d, hd, hde⟩ := ihyz.2 e he
      obtain ⟨c, hc, hcd⟩ := ihxy.2 d hd
      exact ⟨c, hc, hcd.trans hde⟩

theorem joined_region (hv : InRegion g c v) : GroupAction.Joined l (.inl v) (.inr c) :=
  .rel _ _ (h.linked_iff.mpr ⟨c, v, hv, rfl, rfl⟩)

theorem joined_concat_iff (hv : InRegion g c v) :
    GroupAction.Joined l (.inl v) (.inr d) ↔ Relation.ReflTransGen (Overlaps g) c d := by
  constructor
  · intro hjoined
    obtain ⟨e, rfl, hchain⟩ := (h.near_of_joined hjoined).1 c hv
    exact hchain
  · intro hchain
    induction hchain with
    | refl => exact h.joined_region hv
    | tail _ hlast ih =>
      obtain ⟨u, hu, hu'⟩ := hlast
      exact ih.trans _ _ _ (((h.joined_region hu).symm _ _).trans _ _ _ (h.joined_region hu'))

theorem joined_iff (ha : ∃ c, InRegion g c a) :
    GroupAction.Joined l (.inl a) (.inl b) ↔ Chained g a b := by
  constructor
  · intro hjoined
    obtain ⟨c, hc⟩ := ha
    obtain ⟨d, hd, hchain⟩ := (h.near_of_joined hjoined).1 c hc
    exact ⟨c, d, hc, hd, hchain⟩
  · rintro ⟨c, d, hc, hd, hchain⟩
    exact ((h.joined_concat_iff hc).mpr hchain).trans _ _ _ ((h.joined_region hd).symm _ _)

theorem mem_shares_iff (hv : InRegion g c v) : interval ∈ GroupAction.shares l (.inl v) ↔
    ∃ d members, Relation.ReflTransGen (Overlaps g) c d ∧
      regionInterval? g d = some (interval, members) := by
  constructor
  · rintro ⟨k, hjoined, hadds⟩
    obtain ⟨d, members, hregion, rfl⟩ := h.adds_iff.mp hadds
    exact ⟨d, members, (h.joined_concat_iff hv).mp hjoined, hregion⟩
  · rintro ⟨d, members, hchain, hregion⟩
    exact ⟨.inr d, (h.joined_concat_iff hv).mpr hchain, h.adds_iff.mpr ⟨d, members, hregion, rfl⟩⟩

end Records

end Classes

section Components

variable {g : Graph Binary32} {c d v : NodeId} {r : Region} {s : AttributeStore Binary32}
  {interval : SharedInterval Binary32} {members : List NodeId}
  {l : List (GroupAction (NodeId ⊕ NodeId) (SharedInterval Binary32))}

def Bounds (g : Graph Binary32) (d : NodeId) (interval : SharedInterval Binary32) : Prop :=
  ∃ r v ranges, Aligns g d r ∧ v ∈ r.boundary ∧ Ranges.ofNode g v = .ok ranges ∧
    interval = intervalOf ranges

/-- The interval groups in a store are the components of a graph: its members are those of regions
that count, chains of overlapping regions connect them, and the interval of a group is the hull of
those of all fake-quantizes that bound a region of the component. -/
structure Components (g : Graph Binary32) (s : AttributeStore Binary32) : Prop where
  carries (v : NodeId) : (∃ group, s.intervalGroup? v = some group) ↔ ∃ c, InRegion g c v
  together (a b : NodeId) (x y : GroupId) : s.intervalRoot? a = some x → s.intervalRoot? b = some y →
    (x = y ↔ Chained g a b)
  hull (c v : NodeId) : InRegion g c v → ∃ interval, s.interval? v = some interval ∧
    IsHull {i | ∃ d, Relation.ReflTransGen (Overlaps g) c d ∧ Bounds g d i} interval

theorem isHull_of_regionInterval? (hnumeric : ∀ v r, Ranges.ofNode g v = .ok r → r.Numeric)
    (h : regionInterval? g d = some (interval, members)) : IsHull {i | Bounds g d i} interval := by
  obtain ⟨r, first, rest, haligns, hranges, rfl, -⟩ := aligns_of_regionInterval? h
  have hset : {i | Bounds g d i} = {i | ∃ r ∈ first :: rest, i = intervalOf r} := by
    ext i
    constructor
    · rintro ⟨r', v, ranges, haligns', hv, hranges', rfl⟩
      cases haligns.behind.symm.trans haligns'.behind
      exact ⟨ranges, (mem_ranges_iff hranges).mpr ⟨v, hv, hranges'⟩, rfl⟩
    · rintro ⟨ranges, hmem, rfl⟩
      obtain ⟨v, hv, hranges'⟩ := (mem_ranges_iff hranges).mp hmem
      exact ⟨r, v, ranges, haligns, hv, hranges', rfl⟩
  rw [hset]
  refine isHull_foldl fun ranges hmem => ?_
  obtain ⟨v, -, hv⟩ := (mem_ranges_iff hranges).mp hmem
  exact hnumeric v ranges hv

def Covers (intervals : Set (SharedInterval Binary32)) (hull : SharedInterval Binary32) : Prop :=
  (∀ i ∈ intervals, i.Numeric) → IsHull intervals hull

theorem Records.summarizes (h : Records g (g.ofKind .concat) l) :
    Summarizes SharedInterval.widen Covers l where
  start _ i _ hnumeric := .single (hnumeric i rfl)
  narrow k i hmem := absurd hmem (h.narrow k i)
  union _ _ _ _ hx hy hnumeric := by
    have hleft := fun i hi => hnumeric i (.inl hi)
    have hright := fun i hi => hnumeric i (.inr hi)
    exact (hx hleft).widen (hy hright) ((hx hleft).numeric hleft) ((hy hright).numeric hright)

theorem numeric_of_bounds (hnumeric : ∀ v r, Ranges.ofNode g v = .ok r → r.Numeric)
    (h : Bounds g d interval) : interval.Numeric := by
  obtain ⟨r, v, ranges, -, -, hv, rfl⟩ := h
  exact (hnumeric v ranges hv).intervalOf

theorem Records.isHull_of_covers (h : Records g (g.ofKind .concat) l)
    (hnumeric : ∀ v r, Ranges.ofNode g v = .ok r → r.Numeric) (hv : InRegion g c v)
    (hcovers : Covers (GroupAction.shares l (.inl v)) interval) :
    IsHull {i | ∃ d, Relation.ReflTransGen (Overlaps g) c d ∧ Bounds g d i} interval := by
  have hparts : ∀ i ∈ GroupAction.shares l (.inl v), ∃ d,
      Relation.ReflTransGen (Overlaps g) c d ∧ IsHull {j | Bounds g d j} i := by
    intro i hi
    obtain ⟨d, members, hchain, hregion⟩ := (h.mem_shares_iff hv).mp hi
    exact ⟨d, hchain, isHull_of_regionInterval? hnumeric hregion⟩
  have hhull := hcovers fun i hi => by
    obtain ⟨d, -, hpart⟩ := hparts i hi
    exact hpart.numeric fun j hj => numeric_of_bounds hnumeric hj
  refine hhull.flatten (fun i hi => ?_) fun j hj => ?_
  · obtain ⟨d, hchain, hpart⟩ := hparts i hi
    exact ⟨_, fun j hj => ⟨d, hchain, hj⟩, hpart⟩
  · obtain ⟨d, hchain, r, u, ranges, haligns, hbound⟩ := hj
    obtain ⟨i, hregion⟩ := haligns.regionInterval?
    exact ⟨i, (h.mem_shares_iff hv).mpr ⟨d, _, hchain, hregion⟩, {j | Bounds g d j},
      ⟨r, u, ranges, haligns, hbound⟩, isHull_of_regionInterval? hnumeric hregion⟩

/-- The alignment of intervals succeeds, and the groups that it leaves are the components. -/
theorem alignIntervals_components (restrictions : List OperationRestriction)
    (hnumeric : ∀ v r, Ranges.ofNode g v = .ok r → r.Numeric) :
    ∃ s, exec (MarkupPass.alignIntervals.run restrictions) g =
        .ok (.ok (), { g with attributes := s }) ∧ Components g s := by
  obtain ⟨g', hg'⟩ := alignIntervals_ok g
  have hrun := hg'
  rw [alignIntervals_eq] at hrun
  obtain ⟨s, hs, rfl⟩ := except_map_eq_ok.mp hrun
  have hnodup : (g.ofKind .concat).Nodup :=
    Graph.WellFormed.nodup_liveIds.sublist (List.Sublist.map _ List.filter_sublist)
  obtain ⟨l, t, hperforms, hmirrors, hrecords⟩ :=
    alignRegions_perform .nil (Mirrors.cleared g.attributes) hnodup (fun _ _ => rfl) hs
  have hreflects := hperforms.reflects hrecords.summarizes
  have hcarries : ∀ v, (∃ group, s.intervalGroup? v = some group) ↔ ∃ c, InRegion g c v := by
    intro v
    rw [← hmirrors.group, ← hrecords.carried_iff hreflects.proper, ← hreflects.carries]
    rfl
  refine ⟨s, ?_, hcarries, fun a b x y ha hb => ?_, fun c v hv => ?_⟩
  · rw [MarkupPass.exec_alignIntervals, hg']
    rfl
  · obtain ⟨i, hi, rfl⟩ := Option.map_eq_some_iff.mp ha
    obtain ⟨j, hj, rfl⟩ := Option.map_eq_some_iff.mp hb
    rw [← hmirrors.cells, ← hrecords.joined_iff ((hcarries a).mp ⟨i, hi⟩)]
    rw [← hmirrors.group] at hi hj
    exact hreflects.same _ _ i j hi hj
  · obtain ⟨interval, hvalue, hcovers⟩ :=
      hreflects.exists_value? ((hrecords.carried_iff hreflects.proper).mpr ⟨c, hv⟩)
    refine ⟨interval, ?_, hrecords.isHull_of_covers hnumeric hv hcovers⟩
    rw [AttributeStore.interval?, ← hmirrors.group, ← hmirrors.cells]
    exact hvalue

def braced : Graph Binary32 :=
  let ports : List Port := [⟨.f32, some [1, 2]⟩]
  let bound (q : Rat) : Op Binary32 × List Slot × List Port :=
    (.constant (Tensor.scalar (Arithmetic.ofRat q)), [], [⟨.f32, some []⟩])
  Graph.assemble [("x", .parameter, [], ports), ("zero", bound 0), ("low", bound (-1)),
    ("high", bound 1), ("top", bound 3),
    ("fq_a", .fakeQuantize 256, [⟨0, 0⟩, ⟨1, 0⟩, ⟨3, 0⟩, ⟨1, 0⟩, ⟨3, 0⟩], ports),
    ("fq_b", .fakeQuantize 256, [⟨0, 0⟩, ⟨2, 0⟩, ⟨3, 0⟩, ⟨2, 0⟩, ⟨3, 0⟩], ports),
    ("fq_c", .fakeQuantize 255, [⟨0, 0⟩, ⟨1, 0⟩, ⟨4, 0⟩, ⟨1, 0⟩, ⟨4, 0⟩], ports),
    ("fq_d", .fakeQuantize 256, [⟨0, 0⟩, ⟨1, 0⟩, ⟨3, 0⟩, ⟨1, 0⟩, ⟨3, 0⟩], ports),
    ("pair", .concat 1, [⟨5, 0⟩, ⟨6, 0⟩], ports), ("chain", .concat 1, [⟨6, 0⟩, ⟨7, 0⟩], ports),
    ("alone", .concat 1, [⟨8, 0⟩, ⟨8, 0⟩], ports)]

theorem alignIntervals_components_of_braced :
    (∀ v r, Ranges.ofNode braced v = .ok r → r.Numeric) ∧
      ∃ s, exec (MarkupPass.alignIntervals.run defaultRestrictions) braced =
          .ok (.ok (), { braced with attributes := s }) ∧ Components braced s ∧
        [5, 6, 7, 8, 9, 10, 11].map s.intervalRoot? =
          [some 0, some 0, some 0, some 2, some 0, some 0, some 2] ∧
        s.interval? 5 = some ⟨Arithmetic.ofRat (-1), Arithmetic.ofRat 3, 255⟩ ∧
        s.interval? 8 = some ⟨Arithmetic.ofRat 0, Arithmetic.ofRat 1, 256⟩ := by
  have hall : ((List.range braced.nodes.size).all fun v => match Ranges.ofNode braced v with
      | .ok r => (r.outputLow.data ++ r.outputHigh.data).all fun x => !x.isNaN
      | .error _ => true) = true := by decide +kernel
  have hnumeric : ∀ v r, Ranges.ofNode braced v = .ok r → r.Numeric := by
    intro v r hr x hx
    have hlt : v < braced.nodes.size := by
      by_contra hle
      rw [Ranges.ofNode, Graph.node?_of_size_le (Nat.le_of_not_lt hle)] at hr
      cases hr
    have hread := List.all_eq_true.mp hall v (List.mem_range.mpr hlt)
    rw [hr] at hread
    simpa using List.all_eq_true.mp hread x hx
  obtain ⟨s, hrun, hcomponents⟩ := alignIntervals_components defaultRestrictions hnumeric
  have hvalues : (exec (MarkupPass.alignIntervals.run defaultRestrictions) braced).map (fun out =>
      decide ([5, 6, 7, 8, 9, 10, 11].map out.2.attributes.intervalRoot? =
          [some 0, some 0, some 0, some 2, some 0, some 0, some 2] ∧
        out.2.attributes.interval? 5 = some ⟨Arithmetic.ofRat (-1), Arithmetic.ofRat 3, 255⟩ ∧
        out.2.attributes.interval? 8 = some ⟨Arithmetic.ofRat 0, Arithmetic.ofRat 1, 256⟩)) =
      .ok true := by
    decide +kernel
  rw [hrun] at hvalues
  exact ⟨hnumeric, s, hrun, hcomponents, of_decide_eq_true (Except.ok.inj hvalues)⟩

end Components

end Markup

end LowPrecision
