import Mathlib.Data.List.Sort
import LowPrecision.Proofs.Attributes.Store

namespace LowPrecision

namespace AttributeKey

variable {a b : AttributeKey}

theorem code_injective : Function.Injective code := by
  rintro ⟨s, k⟩ ⟨t, l⟩ h
  have hposition : k.position = l.position → k = l := by
    cases k <;> cases l <;> simp [AttributeKind.position]
  cases s <;> cases t <;> simp only [code, List.cons.injEq] at h
  · rw [h.2.1, hposition h.2.2.1]
  · exact absurd h.1 Nat.zero_ne_one
  · exact absurd h.1.symm Nat.zero_ne_one
  · next s t =>
    obtain ⟨-, hnode, hindex, hkind, -⟩ := h
    obtain ⟨node, index⟩ := s
    obtain ⟨other, place⟩ := t
    obtain rfl : node = other := hnode
    obtain rfl : index = place := hindex
    rw [hposition hkind]

theorem code_moveTo_lt (howner : a.target.owner = b.target.owner) (h : a.code < b.code) (id : NodeId) :
    (AttributeKey.mk (a.target.moveTo id) a.kind).code <
      (AttributeKey.mk (b.target.moveTo id) b.kind).code := by
  obtain ⟨s, k⟩ := a
  obtain ⟨t, l⟩ := b
  cases s <;> cases t <;>
    simp_all [code, Target.moveTo, Target.owner, List.cons_lt_cons_iff]

theorem code_lt_of_not_lt (hne : a ≠ b) (h : ¬a.code < b.code) : b.code < a.code := by
  by_contra hnot
  exact hne (code_injective (List.le_antisymm (List.not_lt.mp hnot) (List.not_lt.mp h)))

end AttributeKey

namespace AttributeStore

variable {α : Type} {entries entries' : List (AttributeKey × Attribute)} {key : AttributeKey}
  {value : Attribute}

def Ordered (entries : List (AttributeKey × Attribute)) : Prop :=
  entries.Pairwise fun a b => a.1.code < b.1.code

theorem ordered_insertEntry (key : AttributeKey) (value : Attribute) (h : Ordered entries) :
    Ordered (insertEntry key value entries) := by
  induction entries with
  | nil => exact List.pairwise_singleton _ _
  | cons entry rest ih =>
    obtain ⟨hfirst, hrest⟩ := List.pairwise_cons.mp h
    rw [insertEntry]
    split
    · next hkey =>
      refine List.pairwise_cons.mpr ⟨fun e he => ?_, hrest⟩
      rw [← hkey]
      exact hfirst e he
    next hkey =>
    split
    · next hlt =>
      refine List.pairwise_cons.mpr ⟨fun e he => ?_, h⟩
      rcases List.mem_cons.mp he with rfl | he
      · exact hlt
      · exact List.lt_trans hlt (hfirst e he)
    · next hlt =>
      refine List.pairwise_cons.mpr ⟨fun e he => ?_, ih hrest⟩
      rcases mem_insertEntry he with rfl | he
      · exact AttributeKey.code_lt_of_not_lt (Ne.symm hkey) hlt
      · exact hfirst e he

theorem lookup_eq_some_iff (h : Ordered entries) :
    lookup entries key = some value ↔ (key, value) ∈ entries := by
  induction entries with
  | nil => simp [lookup]
  | cons entry rest ih =>
    obtain ⟨hfirst, hrest⟩ := List.pairwise_cons.mp h
    rw [List.mem_cons]
    by_cases hkey : entry.1 = key
    · have hnone : (key, value) ∉ rest := fun hmem =>
        List.lt_irrefl _ (hkey ▸ hfirst _ hmem)
      simp [lookup, hkey, hnone, Prod.ext_iff, eq_comm]
    · have hother : (key, value) ≠ entry := fun he => hkey (congrArg Prod.fst he).symm
      rw [← ih hrest]
      simp [lookup, hkey, hother]

theorem ordered_ext (h : Ordered entries) (h' : Ordered entries')
    (hsame : ∀ key, lookup entries key = lookup entries' key) : entries = entries' := by
  have hnodup : ∀ {es : List (AttributeKey × Attribute)}, Ordered es → es.Nodup := by
    refine fun hes => List.Pairwise.imp (fun hlt he => ?_) hes
    exact List.lt_irrefl _ (he ▸ hlt)
  have hperm : entries.Perm entries' := by
    refine (List.perm_ext_iff_of_nodup (hnodup h) (hnodup h')).mpr fun e => ?_
    rw [← lookup_eq_some_iff h, ← lookup_eq_some_iff h', hsame]
  exact hperm.eq_of_pairwise (fun _ _ _ _ hlt hgt => absurd hgt (List.lt_asymm hlt)) h h'

structure Filed (s : AttributeStore α) : Prop where
  ordered : Ordered s.entries
  kinds : ∀ e ∈ s.entries, e.2.kind = e.1.kind

namespace Filed

variable {s t : AttributeStore α}

theorem empty : (AttributeStore.empty : AttributeStore α).Filed :=
  ⟨List.Pairwise.nil, fun _ he => by cases he⟩

theorem of_entries (h : s.Filed) (hentries : t.entries = s.entries) : t.Filed :=
  ⟨hentries ▸ h.ordered, hentries ▸ h.kinds⟩

theorem set (h : s.Filed) (target : Target) (value : Attribute) : (s.set target value).Filed where
  ordered := ordered_insertEntry _ _ h.ordered
  kinds e he := by
    rcases mem_set he with rfl | he
    · rfl
    · exact h.kinds e he

theorem of_sublist (h : s.Filed) (hsub : t.entries.Sublist s.entries) : t.Filed :=
  ⟨h.ordered.sublist hsub, fun e he => h.kinds e (hsub.subset he)⟩

theorem clear (h : s.Filed) (kind : AttributeKind) : (s.clear kind).Filed :=
  h.of_sublist (by cases kind <;> exact List.filter_sublist)

theorem forgetNode (h : s.Filed) (id : NodeId) : (s.forgetNode id).Filed :=
  h.of_sublist List.filter_sublist

theorem copyNode (h : s.Filed) (source target : NodeId) : (s.copyNode source target).Filed :=
  copyNode_induction h fun _ _ _ _ ht => ht.set _ _

end Filed

section Copies

variable {s : AttributeStore α} {target : Target} {kind : AttributeKind} {source copy : NodeId}

theorem get?_foldl_copy {copied : List (AttributeKey × Attribute)} (htarget : target.owner = copy)
    (hcopied : ∀ e ∈ copied, e.2.kind = e.1.kind ∧ e.1.target.owner = source) :
    (copied.foldl (fun s entry =>
      let moved := entry.1.target.moveTo copy
      if s.has moved entry.1.kind then s else s.set moved entry.2) s).get? target kind =
      (s.get? target kind).or (lookup copied ⟨target.moveTo source, kind⟩) := by
  induction copied generalizing s with
  | nil => exact (Option.or_none ..).symm
  | cons entry copied ih =>
    obtain ⟨⟨hkind, howner⟩, hrest⟩ := List.forall_mem_cons.mp hcopied
    have hkey : entry.1 = ⟨target.moveTo source, kind⟩ ↔
        target = entry.1.target.moveTo copy ∧ kind = entry.1.kind := by
      constructor
      · intro he
        rw [he, Target.moveTo_moveTo, ← htarget, Target.moveTo_owner]
        exact ⟨rfl, rfl⟩
      · rintro ⟨ht, rfl⟩
        rw [ht, Target.moveTo_moveTo, ← howner, Target.moveTo_owner]
    rw [List.foldl_cons, ih hrest, lookup_cons]
    simp only [hkey]
    by_cases hhas : s.has (entry.1.target.moveTo copy) entry.1.kind = true
    · rw [if_pos hhas]
      split
      · next hsame =>
        obtain ⟨value, hvalue⟩ := Option.isSome_iff_exists.mp hhas
        rw [hsame.1, hsame.2, hvalue, Option.some_or, Option.some_or]
      · rfl
    · rw [if_neg hhas, get?_set, hkind]
      split
      · next hsame =>
        have hnone : s.get? target kind = none := by
          simpa [has, hsame.1, hsame.2] using hhas
        rw [hnone, Option.some_or, Option.none_or]
      · rfl

theorem get?_copyNode_owner (hs : s.Filed) (htarget : target.owner = copy) :
    (s.copyNode source copy).get? target kind =
      (s.get? target kind).or (s.get? (target.moveTo source) kind) := by
  rw [copyNode, get?_foldl_copy htarget]
  · exact congrArg _ (lookup_filter (p := fun k => decide (k.target.owner = source))
      (decide_eq_true (Target.owner_moveTo _ _)))
  · intro e he
    obtain ⟨hmem, howner⟩ := List.mem_filter.mp he
    exact ⟨hs.kinds e hmem, of_decide_eq_true howner⟩

theorem get?_copyNode_self (hs : s.Filed) (hblank : s.get? target kind = none)
    (htarget : target.owner = copy) :
    (s.copyNode source copy).get? target kind = s.get? (target.moveTo source) kind := by
  rw [get?_copyNode_owner hs htarget, hblank, Option.none_or]

end Copies

section Snapshots

variable {s t : AttributeStore α} {v old : NodeId}

def entriesOf (s : AttributeStore α) (v : NodeId) : List (AttributeKey × Option (AttributeValue α)) :=
  s.snapshot.filter fun e => e.1.target.owner = v

theorem entriesOf_eq (s : AttributeStore α) (v : NodeId) :
    s.entriesOf v = (s.entries.filter fun e => e.1.target.owner = v).map fun e =>
      (e.1, s.value? e.2) := by
  rw [entriesOf, snapshot, List.filter_map]
  rfl

theorem entriesOf_blank (hs : s.Filed)
    (h : ∀ target kind, target.owner = v → s.get? target kind = none) : s.entriesOf v = [] := by
  rw [entriesOf_eq, List.map_eq_nil_iff, List.filter_eq_nil_iff]
  intro e he howner
  have hfound : s.get? e.1.target e.1.kind = some e.2 := (lookup_eq_some_iff hs.ordered).mpr he
  exact absurd (hfound.symm.trans (h _ _ (of_decide_eq_true howner))) (by simp)

theorem value?_congr (hprecision : t.precisionCells = s.precisionCells)
    (hinterval : t.intervalCells = s.intervalCells)
    (halignment : t.alignmentCells = s.alignmentCells) : t.value? = s.value? := by
  funext value
  cases value <;> simp only [value?, hprecision, hinterval, halignment]

theorem entriesOf_moved (hs : s.Filed) (ht : t.Filed)
    (hget : ∀ target kind, target.owner = v → t.get? target kind = s.get? (target.moveTo old) kind)
    (hvalue : t.value? = s.value?) :
    t.entriesOf v = (s.entriesOf old).map fun e => (⟨e.1.target.moveTo v, e.1.kind⟩, e.2) := by
  have hentries : (t.entries.filter fun e => e.1.target.owner = v) =
      (s.entries.filter fun e => e.1.target.owner = old).map fun e =>
        (⟨e.1.target.moveTo v, e.1.kind⟩, e.2) := by
    have hordered : Ordered ((s.entries.filter fun e => e.1.target.owner = old).map fun e =>
        ((⟨e.1.target.moveTo v, e.1.kind⟩ : AttributeKey), e.2)) := by
      refine List.pairwise_map.mpr ((hs.ordered.sublist List.filter_sublist).imp_of_mem ?_)
      intro a b ha hb hlt
      have howner := of_decide_eq_true (List.mem_filter.mp ha).2
      exact AttributeKey.code_moveTo_lt
        (howner.trans (of_decide_eq_true (List.mem_filter.mp hb).2).symm) hlt v
    -- A sorted list is told by its lookups, so that the order need not be compared.
    refine ordered_ext (ht.ordered.sublist List.filter_sublist) hordered fun key => ?_
    refine Option.ext fun value => ?_
    rw [lookup_eq_some_iff (ht.ordered.sublist List.filter_sublist), lookup_eq_some_iff hordered,
      List.mem_filter, ← lookup_eq_some_iff ht.ordered, List.mem_map]
    constructor
    · rintro ⟨hfound, howner⟩
      have howner := of_decide_eq_true howner
      have hsource := (hget key.target key.kind howner).symm.trans hfound
      refine ⟨_, List.mem_filter.mpr ⟨mem_entries_of_get? hsource,
        decide_eq_true (Target.owner_moveTo _ _)⟩, ?_⟩
      rw [Target.moveTo_moveTo, ← howner, Target.moveTo_owner]
    · rintro ⟨e, he, hmoved⟩
      obtain ⟨hmem, howner⟩ := List.mem_filter.mp he
      cases hmoved
      refine ⟨(hget _ _ (Target.owner_moveTo _ _)).trans ?_, decide_eq_true (Target.owner_moveTo _ _)⟩
      rw [Target.moveTo_moveTo, ← of_decide_eq_true howner, Target.moveTo_owner]
      exact (lookup_eq_some_iff hs.ordered).mpr hmem
  rw [entriesOf_eq, entriesOf_eq, hentries, hvalue, List.map_map, List.map_map]
  rfl

end Snapshots

end AttributeStore

end LowPrecision
