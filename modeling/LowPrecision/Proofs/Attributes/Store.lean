import LowPrecision.Proofs.Attributes.SharedCells
import LowPrecision.Attributes.Store

namespace LowPrecision

namespace Target

theorem moveTo_moveTo (target : Target) (a b : NodeId) :
    (target.moveTo a).moveTo b = target.moveTo b := by
  cases target <;> rfl

theorem moveTo_owner (target : Target) : target.moveTo target.owner = target := by
  cases target <;> rfl

theorem owner_moveTo (target : Target) (id : NodeId) : (target.moveTo id).owner = id := by
  cases target <;> rfl

end Target

namespace AttributeStore

variable {α : Type} {s : AttributeStore α} {target : Target} {kind : AttributeKind}

theorem lookup_cons (entry : AttributeKey × Attribute) (entries : List (AttributeKey × Attribute))
    (key : AttributeKey) :
    lookup (entry :: entries) key = if entry.1 = key then some entry.2 else lookup entries key := by
  by_cases h : entry.1 = key <;> simp [lookup, h]

theorem lookup_insertEntry (entries : List (AttributeKey × Attribute)) (key k : AttributeKey)
    (value : Attribute) :
    lookup (insertEntry key value entries) k = if k = key then some value else lookup entries k := by
  induction entries with
  | nil => by_cases h : key = k <;> simp [insertEntry, lookup, h, eq_comm]
  | cons entry rest ih =>
    simp only [insertEntry]
    split
    · next hentry => by_cases h : key = k <;> simp [lookup, hentry, h, eq_comm]
    · next hentry =>
      split
      · by_cases h : key = k <;> simp [lookup, h, eq_comm]
      · by_cases h : entry.1 = k
        · have hk : k ≠ key := fun he => hentry (h.trans he)
          simp [lookup, h, hk]
        · simp only [lookup, List.find?_cons, h, decide_false] at ih ⊢
          exact ih

theorem lookup_filter {entries : List (AttributeKey × Attribute)} {p : AttributeKey → Bool}
    {k : AttributeKey} (hk : p k = true) :
    lookup (entries.filter fun e => p e.1) k = lookup entries k := by
  induction entries with
  | nil => rfl
  | cons entry rest ih =>
    rw [lookup_cons, List.filter_cons]
    split
    · rw [lookup_cons, ih]
    · next hp =>
      rw [ih, if_neg]
      rintro rfl
      exact hp hk

theorem lookup_filter_none {entries : List (AttributeKey × Attribute)} {p : AttributeKey → Bool}
    {k : AttributeKey} (hk : p k = false) : lookup (entries.filter fun e => p e.1) k = none := by
  rw [lookup, Option.map_eq_none_iff, List.find?_eq_none]
  intro e he heq
  rw [decide_eq_true_eq] at heq
  have hp := (List.mem_filter.mp he).2
  rw [heq, hk] at hp
  cases hp

theorem get?_set (s : AttributeStore α) (target t : Target) (value : Attribute)
    (kind : AttributeKind) :
    (s.set target value).get? t kind =
      if t = target ∧ kind = value.kind then some value else s.get? t kind := by
  rw [get?, set, lookup_insertEntry]
  simp only [AttributeKey.mk.injEq]
  rfl

theorem get?_forgetNode {id : NodeId} (h : target.owner ≠ id) :
    (s.forgetNode id).get? target kind = s.get? target kind :=
  lookup_filter (p := fun k => decide (k.target.owner ≠ id)) (by simpa using h)

theorem mem_entries_of_get? {value : Attribute} (h : s.get? target kind = some value) :
    (⟨target, kind⟩, value) ∈ s.entries := by
  obtain ⟨e, he, rfl⟩ := Option.map_eq_some_iff.mp h
  have hkey : e.1 = ⟨target, kind⟩ := by simpa using List.find?_some he
  rw [← hkey]
  exact List.mem_of_find?_eq_some he

theorem get?_clear (s : AttributeStore α) (cleared kind : AttributeKind) (target : Target) :
    (s.clear cleared).get? target kind = if kind = cleared then none else s.get? target kind := by
  have hentries : (s.clear cleared).entries = s.entries.filter fun e => e.1.kind ≠ cleared := by
    cases cleared <;> rfl
  rw [get?, get?, hentries]
  split
  · next h => exact lookup_filter_none (p := fun k => decide (k.kind ≠ cleared)) (by simp [h])
  · next h => exact lookup_filter (p := fun k => decide (k.kind ≠ cleared)) (by simp [h])

section Entries

variable {e : AttributeKey × Attribute}

theorem mem_insertEntry {key : AttributeKey} {value : Attribute}
    {entries : List (AttributeKey × Attribute)} (h : e ∈ insertEntry key value entries) :
    e = (key, value) ∨ e ∈ entries := by
  induction entries with
  | nil => exact .inl (by simpa [insertEntry] using h)
  | cons entry rest ih =>
    simp only [insertEntry] at h
    split at h
    · rcases List.mem_cons.mp h with rfl | h
      · exact .inl rfl
      · exact .inr (List.mem_cons_of_mem _ h)
    · split at h
      · rcases List.mem_cons.mp h with rfl | h
        · exact .inl rfl
        · exact .inr h
      · rcases List.mem_cons.mp h with rfl | h
        · exact .inr List.mem_cons_self
        · exact (ih h).imp_right (List.mem_cons_of_mem _)

theorem mem_set {value : Attribute} (h : e ∈ (s.set target value).entries) :
    e = (⟨target, value.kind⟩, value) ∨ e ∈ s.entries := mem_insertEntry h

theorem mem_clear (h : e ∈ (s.clear kind).entries) : e ∈ s.entries ∧ e.1.kind ≠ kind := by
  have hentries : (s.clear kind).entries = s.entries.filter fun e => e.1.kind ≠ kind := by
    cases kind <;> rfl
  rw [hentries, List.mem_filter] at h
  exact ⟨h.1, by simpa using h.2⟩

def KeepsMarks (s s' : AttributeStore α) : Prop :=
  ∀ e ∈ s'.entries, e.2.kind = .precisionPreserved → e ∈ s.entries

theorem KeepsMarks.set (s : AttributeStore α) (target : Target) {value : Attribute}
    (hvalue : value.kind ≠ .precisionPreserved) : KeepsMarks s (s.set target value) := by
  intro e he hkind
  rcases mem_set he with rfl | he
  · exact absurd hkind hvalue
  · exact he

end Entries

section Copies

variable {source copy : NodeId}

theorem copyNode_induction {p : AttributeStore α → Prop} (h : p s)
    (hset : ∀ t, ∀ e ∈ s.entries, e.1.target.owner = source → p t →
      p (t.set (e.1.target.moveTo copy) e.2)) : p (s.copyNode source copy) := by
  have hcopied : ∀ e ∈ s.entries.filter (·.1.target.owner = source), ∀ t, p t →
      p (t.set (e.1.target.moveTo copy) e.2) := by
    intro e he t ht
    obtain ⟨hmem, howner⟩ := List.mem_filter.mp he
    exact hset t e hmem (of_decide_eq_true howner) ht
  clear hset
  rw [copyNode]
  generalize s.entries.filter _ = copied at hcopied
  induction copied generalizing s with
  | nil => exact h
  | cons entry copied ih =>
    obtain ⟨hentry, hrest⟩ := List.forall_mem_cons.mp hcopied
    rw [List.foldl_cons]
    dsimp only
    split
    · exact ih h hrest
    · exact ih (hentry s h) hrest

theorem copyNode_frame (s : AttributeStore α) (source copy : NodeId) :
    ∃ entries, s.copyNode source copy = { s with entries := entries } := by
  refine copyNode_induction (p := fun t => ∃ entries, t = { s with entries := entries })
    ⟨s.entries, rfl⟩ fun t e _ _ ht => ?_
  obtain ⟨entries, rfl⟩ := ht
  exact ⟨_, rfl⟩

theorem cells_copyNode (s : AttributeStore α) (source copy : NodeId) :
    (s.copyNode source copy).precisionCells = s.precisionCells ∧
      (s.copyNode source copy).intervalCells = s.intervalCells := by
  obtain ⟨entries, hentries⟩ := copyNode_frame s source copy
  rw [hentries]
  exact ⟨rfl, rfl⟩

theorem get?_copyNode (h : target.owner ≠ copy) :
    (s.copyNode source copy).get? target kind = s.get? target kind := by
  refine copyNode_induction (p := fun t => t.get? target kind = s.get? target kind) rfl
    fun t e _ _ ht => ?_
  rw [get?_set, if_neg, ht]
  rintro ⟨rfl, -⟩
  exact h (Target.owner_moveTo _ _)

theorem mem_copyNode {e : AttributeKey × Attribute} (h : e ∈ (s.copyNode source copy).entries) :
    e ∈ s.entries ∨ e.1.target.owner = copy ∧
      ∃ e' ∈ s.entries, e'.1.target.owner = source ∧ e'.2 = e.2 := by
  refine copyNode_induction (p := fun t => ∀ e ∈ t.entries, e ∈ s.entries ∨
    e.1.target.owner = copy ∧ ∃ e' ∈ s.entries, e'.1.target.owner = source ∧ e'.2 = e.2)
    (fun e he => .inl he) (fun t e' he' howner ht e he => ?_) e h
  rcases mem_set he with rfl | he
  · exact .inr ⟨Target.owner_moveTo _ _, e', he', howner, rfl⟩
  · exact ht e he

end Copies

section Groups

variable {s' s'' : AttributeStore α} {id : NodeId} {slot : Slot} {group a b : GroupId} {index : Nat}

theorem precisionGroup?_eq_some :
    s.precisionGroup? slot = some group ↔
      s.get? (.output slot) .precisions = some (.precisions group) := by
  rw [precisionGroup?]
  split
  · next found h =>
    rw [h]
    simp
  · next h =>
    constructor
    · intro h'
      cases h'
    · intro h'
      exact absurd h' (h group)

theorem precisionGroup?_congr (h : s'.get? (.output slot) .precisions = s.get? (.output slot) .precisions) :
    s'.precisionGroup? slot = s.precisionGroup? slot := by
  rw [precisionGroup?, precisionGroup?, h]

structure Grouped (s : AttributeStore α) : Prop where
  linked : s.precisionCells.Linked
  bounded (slot : Slot) (group : GroupId) : s.precisionGroup? slot = some group →
    group < s.precisionCells.size

structure Assigns (id : NodeId) (s s' : AttributeStore α) : Prop where
  grouped : s'.Grouped
  narrows : s.precisionCells.Narrows s'.precisionCells
  other (target : Target) (kind : AttributeKind) : kind ≠ .precisions ∨ target.owner ≠ id →
    s'.get? target kind = s.get? target kind
  marks : KeepsMarks s s'

namespace Assigns

theorem refl (h : s.Grouped) : Assigns id s s :=
  ⟨h, .refl h.linked, fun _ _ _ => rfl, fun _ he _ => he⟩

theorem trans (h : Assigns id s s') (h' : Assigns id s' s'') : Assigns id s s'' where
  grouped := h'.grouped
  narrows := h.narrows.trans h'.narrows
  other target kind hother := (h'.other target kind hother).trans (h.other target kind hother)
  marks e he hkind := h.marks e (h'.marks e he hkind) hkind

theorem kept (h : Assigns id s s') (hslot : slot.node ≠ id) :
    s'.precisionGroup? slot = s.precisionGroup? slot :=
  precisionGroup?_congr (h.other (.output slot) .precisions (.inr hslot))

theorem of_cells {cells : SharedCells PrecisionSet} (h : s.Grouped)
    (hnarrows : s.precisionCells.Narrows cells) : Assigns id s { s with precisionCells := cells } where
  grouped := ⟨hnarrows.linked, fun slot group hgroup =>
    Nat.lt_of_lt_of_le (h.bounded slot group hgroup) hnarrows.size⟩
  narrows := hnarrows
  other _ _ _ := rfl
  marks _ he _ := he

theorem set (index : Nat) (h : s.Grouped) (hgroup : group < s.precisionCells.size) :
    Assigns id s (s.set (.output ⟨id, index⟩) (.precisions group)) where
  grouped := by
    refine ⟨h.linked, fun slot found hfound => ?_⟩
    rw [precisionGroup?_eq_some, get?_set] at hfound
    split at hfound
    · cases hfound
      exact hgroup
    · exact h.bounded slot found (precisionGroup?_eq_some.mpr hfound)
  narrows := .refl h.linked
  other target kind hother := by
    rw [get?_set, if_neg]
    rintro ⟨rfl, rfl⟩
    rcases hother with h | h
    · exact h rfl
    · exact h rfl
  marks := .set s _ (by simp [Attribute.kind])

theorem merge (id : NodeId) (h : s.Grouped) (ha : a < s.precisionCells.size)
    (hb : b < s.precisionCells.size) (hrun : s.mergePrecisions a b = .ok (group, s')) :
    Assigns id s s' ∧ group < s'.precisionCells.size ∧
      s'.precisionCells.find a = s'.precisionCells.find group ∧
      s'.precisionCells.find b = s'.precisionCells.find group := by
  rw [mergePrecisions] at hrun
  cases hmerge : s.precisionCells.merge a b PrecisionSet.inter with
  | error e =>
    rw [hmerge] at hrun
    cases hrun
  | ok out =>
    obtain ⟨root, cells⟩ := out
    rw [hmerge] at hrun
    cases hrun
    obtain ⟨hnarrows, hrest⟩ := SharedCells.Narrows.merge h.linked ha hb hmerge
    exact ⟨of_cells h hnarrows, hrest⟩

end Assigns

theorem precisionGroup?_set (s : AttributeStore α) (slot : Slot) (group : GroupId) :
    (s.set (.output slot) (.precisions group)).precisionGroup? slot = some group := by
  rw [precisionGroup?_eq_some, get?_set, if_pos ⟨rfl, rfl⟩]

end Groups

end AttributeStore

end LowPrecision
