import LowPrecision.Proofs.Attributes.Filing
import LowPrecision.Proofs.Runs

namespace LowPrecision.AttributeStore

variable {α β : Type} {p q : AttributeKind → Prop} {s s' s'' t t' : AttributeStore α}
  {kind cleared : AttributeKind} {kinds : List AttributeKind}

structure Agree (p : AttributeKind → Prop) (s t : AttributeStore α) : Prop where
  get? (target : Target) (kind : AttributeKind) : p kind → s.get? target kind = t.get? target kind
  precisionCells : p .precisions → s.precisionCells = t.precisionCells
  intervalCells : p .intervals → s.intervalCells = t.intervalCells
  alignmentCells : p .alignment → s.alignmentCells = t.alignmentCells
  conflicts : p .alignment → s.conflicts = t.conflicts

namespace Agree

theorem refl (p : AttributeKind → Prop) (s : AttributeStore α) : Agree p s s :=
  ⟨fun _ _ _ => rfl, fun _ => rfl, fun _ => rfl, fun _ => rfl, fun _ => rfl⟩

theorem trans (h : Agree p s s') (h' : Agree p s' s'') : Agree p s s'' where
  get? target kind hkind := (h.get? target kind hkind).trans (h'.get? target kind hkind)
  precisionCells hp := (h.precisionCells hp).trans (h'.precisionCells hp)
  intervalCells hp := (h.intervalCells hp).trans (h'.intervalCells hp)
  alignmentCells hp := (h.alignmentCells hp).trans (h'.alignmentCells hp)
  conflicts hp := (h.conflicts hp).trans (h'.conflicts hp)

theorem mono (h : Agree p s t) (hsub : ∀ kind, q kind → p kind) : Agree q s t where
  get? target kind hkind := h.get? target kind (hsub kind hkind)
  precisionCells hq := h.precisionCells (hsub _ hq)
  intervalCells hq := h.intervalCells (hsub _ hq)
  alignmentCells hq := h.alignmentCells (hsub _ hq)
  conflicts hq := h.conflicts (hsub _ hq)

theorem none (s t : AttributeStore α) : Agree (fun _ => False) s t :=
  ⟨fun _ _ h => h.elim, fun h => h.elim, fun h => h.elim, fun h => h.elim, fun h => h.elim⟩

theorem eq (h : Agree p s t) (hall : ∀ kind, p kind) (hs : s.Filed) (ht : t.Filed) : s = t := by
  have hentries : s.entries = t.entries :=
    ordered_ext hs.ordered ht.ordered fun key => h.get? key.target key.kind (hall _)
  have hprecisions := h.precisionCells (hall _)
  have hintervals := h.intervalCells (hall _)
  have halignment := h.alignmentCells (hall _)
  have hconflicts := h.conflicts (hall _)
  cases s
  cases t
  simp_all

theorem set (h : Agree p s t) (target : Target) (value : Attribute) :
    Agree p (s.set target value) (t.set target value) where
  get? other kind hkind := by rw [get?_set, get?_set, h.get? other kind hkind]
  precisionCells := h.precisionCells
  intervalCells := h.intervalCells
  alignmentCells := h.alignmentCells
  conflicts := h.conflicts

theorem clear (h : Agree p s t) (cleared : AttributeKind) :
    Agree (fun kind => kind = cleared ∨ p kind) (s.clear cleared) (t.clear cleared) where
  get? target kind hkind := by
    rw [get?_clear, get?_clear]
    split
    · rfl
    · next hne => exact h.get? target kind (hkind.resolve_left hne)
  precisionCells hkind := by
    cases cleared <;> first | rfl | exact h.precisionCells (hkind.resolve_left (by simp))
  intervalCells hkind := by
    cases cleared <;> first | rfl | exact h.intervalCells (hkind.resolve_left (by simp))
  alignmentCells hkind := by
    cases cleared <;> first | rfl | exact h.alignmentCells (hkind.resolve_left (by simp))
  conflicts hkind := by
    cases cleared <;> first | rfl | exact h.conflicts (hkind.resolve_left (by simp))

theorem foldl {step : AttributeStore α → β → AttributeStore α} (bs : List β)
    (hstep : ∀ s t b, Agree p s t → Agree p (step s b) (step t b)) (h : Agree p s t) :
    Agree p (bs.foldl step s) (bs.foldl step t) := by
  induction bs generalizing s t with
  | nil => exact h
  | cons b bs ih => exact ih (hstep s t b h)

section Reads

variable {id : NodeId} {slot : Slot}

theorem has (h : Agree p s t) (hp : p kind) (target : Target) :
    s.has target kind = t.has target kind := by
  rw [AttributeStore.has, AttributeStore.has, h.get? target kind hp]

theorem restriction? (h : Agree p s t) (hp : p .precisionRestriction) (id : NodeId) :
    s.restriction? id = t.restriction? id := by
  rw [AttributeStore.restriction?, AttributeStore.restriction?, h.get? _ _ hp]

theorem precisionPreserved? (h : Agree p s t) (hp : p .precisionPreserved) (id : NodeId) :
    s.precisionPreserved? id = t.precisionPreserved? id := by
  rw [AttributeStore.precisionPreserved?, AttributeStore.precisionPreserved?, h.get? _ _ hp]

theorem precisionGroup? (h : Agree p s t) (hp : p .precisions) :
    s.precisionGroup? = t.precisionGroup? := by
  funext slot
  rw [AttributeStore.precisionGroup?, AttributeStore.precisionGroup?, h.get? _ _ hp]

theorem precisions? (h : Agree p s t) (hp : p .precisions) (slot : Slot) :
    s.precisions? slot = t.precisions? slot := by
  rw [AttributeStore.precisions?, AttributeStore.precisions?, h.precisionGroup? hp,
    h.precisionCells hp]

theorem intervalGroup? (h : Agree p s t) (hp : p .intervals) (id : NodeId) :
    s.intervalGroup? id = t.intervalGroup? id := by
  rw [AttributeStore.intervalGroup?, AttributeStore.intervalGroup?, h.get? _ _ hp]

theorem intervalRoot? (h : Agree p s t) (hp : p .intervals) (id : NodeId) :
    s.intervalRoot? id = t.intervalRoot? id := by
  rw [AttributeStore.intervalRoot?, AttributeStore.intervalRoot?, h.intervalGroup? hp,
    h.intervalCells hp]

theorem interval? (h : Agree p s t) (hp : p .intervals) : s.interval? = t.interval? := by
  funext id
  rw [AttributeStore.interval?, AttributeStore.interval?, h.intervalGroup? hp, h.intervalCells hp]

theorem value? (h : Agree p s t) {value : Attribute} (hp : p value.kind) :
    s.value? value = t.value? value := by
  cases value with
  | precisionRestriction | precisionPreserved => rfl
  | precisions => rw [AttributeStore.value?, AttributeStore.value?, h.precisionCells hp]
  | intervals => rw [AttributeStore.value?, AttributeStore.value?, h.intervalCells hp]
  | alignment => rw [AttributeStore.value?, AttributeStore.value?, h.alignmentCells hp]

end Reads

section Groups

variable {a b group : GroupId}

theorem withPrecisionCells (h : Agree p s t) (cells : SharedCells PrecisionSet) :
    Agree p { s with precisionCells := cells } { t with precisionCells := cells } :=
  ⟨h.get?, fun _ => rfl, h.intervalCells, h.alignmentCells, h.conflicts⟩

theorem withIntervalCells (h : Agree p s t) (cells : SharedCells (SharedInterval α)) :
    Agree p { s with intervalCells := cells } { t with intervalCells := cells } :=
  ⟨h.get?, h.precisionCells, fun _ => rfl, h.alignmentCells, h.conflicts⟩

theorem withAlignmentCells (h : Agree p s t) (cells : SharedCells Bool) :
    Agree p { s with alignmentCells := cells } { t with alignmentCells := cells } :=
  ⟨h.get?, h.precisionCells, h.intervalCells, fun _ => rfl, h.conflicts⟩

theorem addConflict (h : Agree p s t) (conflict : AlignmentConflict) :
    Agree p (s.addConflict conflict) (t.addConflict conflict) where
  get? := h.get?
  precisionCells := h.precisionCells
  intervalCells := h.intervalCells
  alignmentCells := h.alignmentCells
  conflicts hp := congrArg (· ++ [conflict]) (h.conflicts hp)

theorem mergePrecisions (h : Agree p s t) (hp : p .precisions)
    (hrun : s.mergePrecisions a b = .ok (group, s')) :
    ∃ t', t.mergePrecisions a b = .ok (group, t') ∧ Agree p s' t' := by
  obtain ⟨⟨root, cells⟩, hmerge, hpure⟩ := except_bind_eq_ok.mp hrun
  cases hpure
  refine ⟨{ t with precisionCells := cells }, ?_, h.withPrecisionCells cells⟩
  rw [AttributeStore.mergePrecisions, ← h.precisionCells hp, hmerge]
  rfl

theorem mergeIntervals [Arithmetic α] (h : Agree p s t) (hp : p .intervals)
    (hrun : s.mergeIntervals a b = .ok (group, s')) :
    ∃ t', t.mergeIntervals a b = .ok (group, t') ∧ Agree p s' t' := by
  obtain ⟨⟨root, cells⟩, hmerge, hpure⟩ := except_bind_eq_ok.mp hrun
  cases hpure
  refine ⟨{ t with intervalCells := cells }, ?_, h.withIntervalCells cells⟩
  rw [AttributeStore.mergeIntervals, ← h.intervalCells hp, hmerge]
  rfl

end Groups

end Agree

theorem foldlM_follows {γ δ : Type} {r : γ → δ → Prop} {f : γ → β → Checked γ}
    {k : δ → β → Checked δ} {bs : List β}
    (hstep : ∀ c d b c', r c d → f c b = .ok c' → ∃ d', k d b = .ok d' ∧ r c' d')
    {c c' : γ} {d : δ} (h : r c d) (hrun : bs.foldlM f c = .ok c') :
    ∃ d', bs.foldlM k d = .ok d' ∧ r c' d' := by
  induction bs generalizing c d with
  | nil =>
    cases hrun
    exact ⟨d, rfl, h⟩
  | cons b bs ih =>
    rw [List.foldlM_cons] at hrun
    obtain ⟨c₁, hfirst, hrest⟩ := except_bind_eq_ok.mp hrun
    obtain ⟨d₁, hfirst', h₁⟩ := hstep c d b c₁ h hfirst
    obtain ⟨d', hrest', h'⟩ := ih h₁ hrest
    exact ⟨d', by rw [List.foldlM_cons, hfirst']; exact hrest', h'⟩

structure Writes (kinds : List AttributeKind) (s t : AttributeStore α) : Prop where
  filed : s.Filed → t.Filed
  agree : Agree (· ∉ kinds) s t

namespace Writes

theorem refl (kinds : List AttributeKind) (s : AttributeStore α) : Writes kinds s s :=
  ⟨id, .refl _ s⟩

theorem trans (h : Writes kinds s s') (h' : Writes kinds s' s'') : Writes kinds s s'' :=
  ⟨h'.filed ∘ h.filed, h.agree.trans h'.agree⟩

theorem set (s : AttributeStore α) (target : Target) {value : Attribute}
    (h : value.kind ∈ kinds) : Writes kinds s (s.set target value) where
  filed hs := hs.set target value
  agree := by
    refine ⟨fun other kind hkind => ?_, fun _ => rfl, fun _ => rfl, fun _ => rfl, fun _ => rfl⟩
    rw [get?_set, if_neg]
    rintro ⟨-, rfl⟩
    exact hkind h

theorem clear (s : AttributeStore α) (h : cleared ∈ kinds) : Writes kinds s (s.clear cleared) where
  filed hs := hs.clear cleared
  agree := by
    have hne : ∀ {kind}, kind ∉ kinds → kind ≠ cleared := fun hkind he => hkind (he ▸ h)
    refine ⟨fun target kind hkind => ?_, fun hkind => ?_, fun hkind => ?_, fun hkind => ?_,
      fun hkind => ?_⟩
    · rw [get?_clear, if_neg (hne hkind)]
    all_goals cases cleared <;> first | rfl | exact absurd rfl (hne hkind)

theorem withPrecisionCells (s : AttributeStore α) (cells : SharedCells PrecisionSet)
    (h : .precisions ∈ kinds) : Writes kinds s { s with precisionCells := cells } where
  filed hs := hs.of_entries rfl
  agree := ⟨fun _ _ _ => rfl, fun hne => absurd h hne, fun _ => rfl, fun _ => rfl, fun _ => rfl⟩

theorem withIntervalCells (s : AttributeStore α) (cells : SharedCells (SharedInterval α))
    (h : .intervals ∈ kinds) : Writes kinds s { s with intervalCells := cells } where
  filed hs := hs.of_entries rfl
  agree := ⟨fun _ _ _ => rfl, fun _ => rfl, fun hne => absurd h hne, fun _ => rfl, fun _ => rfl⟩

theorem withAlignmentCells (s : AttributeStore α) (cells : SharedCells Bool)
    (h : .alignment ∈ kinds) : Writes kinds s { s with alignmentCells := cells } where
  filed hs := hs.of_entries rfl
  agree := ⟨fun _ _ _ => rfl, fun _ => rfl, fun _ => rfl, fun hne => absurd h hne, fun _ => rfl⟩

theorem addConflict (s : AttributeStore α) (conflict : AlignmentConflict)
    (h : .alignment ∈ kinds) : Writes kinds s (s.addConflict conflict) where
  filed hs := hs.of_entries rfl
  agree := ⟨fun _ _ _ => rfl, fun _ => rfl, fun _ => rfl, fun _ => rfl, fun hne => absurd h hne⟩

theorem foldl {step : AttributeStore α → β → AttributeStore α} (bs : List β)
    (h : ∀ s b, Writes kinds s (step s b)) (s : AttributeStore α) :
    Writes kinds s (bs.foldl step s) := by
  induction bs generalizing s with
  | nil => exact .refl kinds s
  | cons b bs ih => exact (h s b).trans (ih _)

theorem foldlM {γ : Type} (view : γ → AttributeStore α) {step : γ → β → Checked γ} {bs : List β}
    {c c' : γ} (h : ∀ c b c', step c b = .ok c' → Writes kinds (view c) (view c'))
    (hrun : bs.foldlM step c = .ok c') : Writes kinds (view c) (view c') :=
  except_foldlM_keeps (P := fun d => Writes kinds (view c) (view d))
    (fun b _ d d' hd hstep => hd.trans (h d b d' hstep)) (.refl _ _) hrun

end Writes

theorem filter_snapshot (keys : AttributeKey → Bool) (hs : s.Filed) (ht : t.Filed)
    (hget : ∀ key, keys key = true → lookup s.entries key = lookup t.entries key)
    (hvalue : ∀ key value, keys key = true → value.kind = key.kind → s.value? value = t.value? value) :
    s.snapshot.filter (keys ·.1) = t.snapshot.filter (keys ·.1) := by
  have hordered : ∀ {u : AttributeStore α}, u.Filed → Ordered (u.entries.filter (keys ·.1)) :=
    fun hu => hu.ordered.sublist List.filter_sublist
  have hentries : s.entries.filter (keys ·.1) = t.entries.filter (keys ·.1) := by
    refine ordered_ext (hordered hs) (hordered ht) fun key => ?_
    cases hkey : keys key with
    | true => rw [lookup_filter hkey, lookup_filter hkey, hget key hkey]
    | false => rw [lookup_filter_none hkey, lookup_filter_none hkey]
  have hfilter : ∀ u : AttributeStore α, u.snapshot.filter (keys ·.1) =
      (u.entries.filter (keys ·.1)).map fun e => (e.1, u.value? e.2) := by
    intro u
    rw [snapshot, List.filter_map]
    rfl
  rw [hfilter, hfilter, hentries]
  refine List.map_congr_left fun e he => ?_
  obtain ⟨hmem, hkey⟩ := List.mem_filter.mp he
  exact congrArg (e.1, ·) (hvalue e.1 e.2 hkey (ht.kinds e hmem))

end LowPrecision.AttributeStore
