import Mathlib.Order.MinMax
import LowPrecision.Attributes.SharedCells
import LowPrecision.Graph.ElementType

namespace LowPrecision.SharedCells

variable {β : Type} {s : SharedCells β} {a b i r parent group : GroupId} {value : β}

structure RootAt (s : SharedCells β) (i : GroupId) (value : β) : Prop where
  parent : s.parents[i]? = some i
  value : s.values[i]? = some (some value)

structure Linked (s : SharedCells β) : Prop where
  sizes : s.values.size = s.size
  older {i parent : GroupId} : s.parents[i]? = some parent → parent ≤ i
  root {i : GroupId} : s.parents[i]? = some i → ∃ value, s.values[i]? = some (some value)
  holder {i : GroupId} {value : β} : s.values[i]? = some (some value) → s.parents[i]? = some i

theorem linked_empty : (empty : SharedCells β).Linked :=
  ⟨rfl, by simp [empty], by simp [empty], by simp [empty]⟩

inductive Climbs (s : SharedCells β) : GroupId → GroupId → Prop
  | root {i : GroupId} : s.parents[i]? = some i → Climbs s i i
  | up {i parent r : GroupId} : s.parents[i]? = some parent → parent ≠ i → Climbs s parent r →
    Climbs s i r

theorem Climbs.unique (h : s.Climbs i a) (h' : s.Climbs i b) : a = b := by
  induction h with
  | root hi =>
    cases h' with
    | root _ => rfl
    | up hi' hne _ =>
      rw [hi] at hi'
      cases hi'
      exact absurd rfl hne
  | up hi hne _ ih =>
    cases h' with
    | root hi' =>
      rw [hi'] at hi
      cases hi
      exact absurd rfl hne
    | up hi' _ hclimbs =>
      rw [hi] at hi'
      cases hi'
      exact ih hclimbs

theorem Climbs.end_root (h : s.Climbs i r) : s.parents[r]? = some r := by
  induction h with
  | root hi => exact hi
  | up _ _ _ ih => exact ih

theorem lt_size_of_parent (h : s.parents[i]? = some parent) : i < s.size :=
  (Array.getElem?_eq_some_iff.mp h).1

theorem exists_parent (hi : i < s.size) : ∃ parent, s.parents[i]? = some parent :=
  ⟨_, Array.getElem?_eq_getElem hi⟩

theorem climbs_climb (hs : s.Linked) {steps : Nat} (hi : i < s.size) (hsteps : i < steps) :
    s.Climbs i (climb s.parents steps i) := by
  induction steps generalizing i with
  | zero => exact absurd hsteps (Nat.not_lt_zero i)
  | succ steps ih =>
    obtain ⟨parent, hparent⟩ := exists_parent hi
    have hle := hs.older hparent
    rw [climb, hparent]
    dsimp only
    split
    · next hsame =>
      subst hsame
      exact .root hparent
    · next hne =>
      have hlt : parent < i := Nat.lt_of_le_of_ne hle hne
      apply Climbs.up hparent hne
      exact ih (Nat.lt_trans hlt hi) (Nat.lt_of_lt_of_le hlt (Nat.le_of_lt_succ hsteps))

theorem climbs_find (hs : s.Linked) (hi : i < s.size) : s.Climbs i (s.find i) :=
  climbs_climb hs hi hi

theorem find_of_root (h : s.parents[i]? = some i) : s.find i = i := by
  have hi := lt_size_of_parent h
  rw [find]
  cases hsize : s.size with
  | zero => rfl
  | succ steps => simp [climb, h]

theorem find_of_none (h : s.size ≤ i) : s.find i = i := by
  have hnone : s.parents[i]? = none := Array.getElem?_eq_none_iff.mpr h
  rw [find]
  cases s.size with
  | zero => rfl
  | succ steps => rw [climb, hnone]

theorem find_of_parent (hs : s.Linked) (h : s.parents[i]? = some parent) :
    s.find i = s.find parent := by
  by_cases hne : parent = i
  · rw [hne]
  · have hi := lt_size_of_parent h
    have hparent := climbs_find hs (Nat.lt_of_le_of_lt (hs.older h) hi)
    exact (climbs_find hs hi).unique (.up h hne hparent)

theorem parent_find (hs : s.Linked) (hi : i < s.size) : s.parents[s.find i]? = some (s.find i) :=
  (climbs_find hs hi).end_root

theorem root_of_find (hs : s.Linked) (hi : i < s.size) : ∃ value, s.RootAt (s.find i) value := by
  have hparent := parent_find hs hi
  obtain ⟨value, hvalue⟩ := hs.root hparent
  exact ⟨value, hparent, hvalue⟩

theorem find_lt (hs : s.Linked) (hi : i < s.size) : s.find i < s.size :=
  lt_size_of_parent (parent_find hs hi)

theorem find_idem (hs : s.Linked) (hi : i < s.size) : s.find (s.find i) = s.find i :=
  find_of_root (parent_find hs hi)

theorem get?_eq_some : s.get? i = some value ↔ s.values[s.find i]? = some (some value) := by
  rw [get?, Option.join_eq_some_iff]

theorem exists_get? (hs : s.Linked) (hi : i < s.size) : ∃ value, s.get? i = some value := by
  obtain ⟨value, hroot⟩ := root_of_find hs hi
  exact ⟨value, get?_eq_some.mpr hroot.value⟩

theorem rootAt_of_get? (hs : s.Linked) (h : s.get? i = some value) : s.RootAt (s.find i) value :=
  have hvalue := get?_eq_some.mp h
  ⟨hs.holder hvalue, hvalue⟩

theorem lt_size_of_get? (hs : s.Linked) (h : s.get? i = some value) : i < s.size := by
  by_contra hi
  have hroot := lt_size_of_parent (rootAt_of_get? hs h).parent
  rw [find_of_none (Nat.le_of_not_lt hi)] at hroot
  exact hi hroot

theorem get?_congr (h : s.find a = s.find b) : s.get? a = s.get? b := by
  rw [get?, get?, h]

section Insert

@[simp] theorem size_insert (s : SharedCells β) (value : β) :
    (s.insert value).2.size = s.size + 1 := by
  simp [insert, size]

theorem parents_insert (s : SharedCells β) (value : β) (i : GroupId) :
    (s.insert value).2.parents[i]? = if i = s.size then some i else s.parents[i]? := by
  rw [insert, size, Array.getElem?_push]
  split
  · next hi => rw [hi]
  · rfl

theorem values_insert (hs : s.Linked) (value : β) (i : GroupId) :
    (s.insert value).2.values[i]? = if i = s.size then some (some value) else s.values[i]? := by
  rw [insert, Array.getElem?_push, hs.sizes]

theorem linked_insert (hs : s.Linked) (value : β) : (s.insert value).2.Linked where
  sizes := by
    rw [size_insert, ← hs.sizes]
    exact Array.size_push _
  older {i parent} h := by
    rw [parents_insert] at h
    split at h
    · cases h
      exact Nat.le_refl _
    · exact hs.older h
  root {i} h := by
    rw [parents_insert] at h
    rw [values_insert hs]
    split at h
    · next hi => exact ⟨value, if_pos hi⟩
    · next hi =>
      rw [if_neg hi]
      exact hs.root h
  holder {i held} h := by
    rw [values_insert hs] at h
    rw [parents_insert]
    split at h
    · next hi => exact if_pos hi
    · next hi =>
      rw [if_neg hi]
      exact hs.holder h

theorem find_insert (hs : s.Linked) (value : β) (hi : i < s.size) :
    (s.insert value).2.find i = s.find i := by
  have hlinked := linked_insert hs value
  have hclimbs := climbs_find hs hi
  generalize s.find i = r at hclimbs
  clear hi
  induction hclimbs with
  | root hroot =>
    apply find_of_root
    rw [parents_insert, hroot, ite_self]
  | up hparent _ _ ih =>
    rw [← ih]
    apply find_of_parent hlinked
    rw [parents_insert, if_neg (Nat.ne_of_lt (lt_size_of_parent hparent)), hparent]

theorem get?_insert (hs : s.Linked) (new : β) (h : s.get? i = some value) :
    (s.insert new).2.get? i = some value := by
  have hi := lt_size_of_get? hs h
  rw [get?_eq_some, find_insert hs new hi, values_insert hs, if_neg (Nat.ne_of_lt (find_lt hs hi))]
  exact get?_eq_some.mp h

theorem find_insert_new (s : SharedCells β) (value : β) :
    (s.insert value).2.find s.size = s.size := by
  apply find_of_root
  rw [parents_insert, if_pos rfl]

theorem get?_insert_new (hs : s.Linked) (value : β) :
    (s.insert value).2.get? s.size = some value := by
  rw [get?_eq_some, find_insert_new, values_insert hs, if_pos rfl]

end Insert

section Store

variable {root : GroupId} {old : β}

def store (s : SharedCells β) (root : GroupId) (value : β) : SharedCells β :=
  { s with values := s.values.setIfInBounds root (some value) }

theorem find_store (s : SharedCells β) (root : GroupId) (value : β) (i : GroupId) :
    (s.store root value).find i = s.find i := rfl

theorem values_store (hroot : s.RootAt root old) (value : β) (i : GroupId) :
    (s.store root value).values[i]? = if root = i then some (some value) else s.values[i]? := by
  have hlt : root < s.values.size := (Array.getElem?_eq_some_iff.mp hroot.value).1
  rw [store, Array.getElem?_setIfInBounds, if_pos hlt]

theorem linked_store (hs : s.Linked) (hroot : s.RootAt root old) (value : β) :
    (s.store root value).Linked where
  sizes := Array.size_setIfInBounds.trans hs.sizes
  older := hs.older
  root {i} h := by
    rw [values_store hroot]
    split
    · exact ⟨value, rfl⟩
    · exact hs.root h
  holder {i held} h := by
    rw [values_store hroot] at h
    split at h
    · next hi => exact hi ▸ hroot.parent
    · exact hs.holder h

theorem rootAt_store (hroot : s.RootAt root old) (value : β) : (s.store root value).RootAt root value :=
  ⟨hroot.parent, by rw [values_store hroot, if_pos rfl]⟩

end Store

section Modify

variable {f : β → β}

theorem modify_of_get? (h : s.get? group = some value) :
    s.modify group f = s.store (s.find group) (f value) := by
  rw [modify, h]
  rfl

theorem modify_of_none (h : s.get? group = none) : s.modify group f = s := by
  rw [modify, h]

theorem linked_modify (hs : s.Linked) (group : GroupId) (f : β → β) : (s.modify group f).Linked := by
  cases h : s.get? group with
  | none => rwa [modify_of_none h]
  | some value =>
    rw [modify_of_get? h]
    exact linked_store hs (rootAt_of_get? hs h) _

theorem size_modify (s : SharedCells β) (group : GroupId) (f : β → β) :
    (s.modify group f).size = s.size := by
  cases h : s.get? group with
  | none => rw [modify_of_none h]
  | some value =>
    rw [modify_of_get? h]
    rfl

theorem find_modify (s : SharedCells β) (group : GroupId) (f : β → β) (i : GroupId) :
    (s.modify group f).find i = s.find i := by
  cases h : s.get? group with
  | none => rw [modify_of_none h]
  | some value => rw [modify_of_get? h, find_store]

theorem get?_modify (hs : s.Linked) (group : GroupId) (f : β → β) (i : GroupId) :
    (s.modify group f).get? i = if s.find i = s.find group then (s.get? i).map f else s.get? i := by
  cases h : s.get? group with
  | none =>
    rw [modify_of_none h]
    split
    · next hsame =>
      rw [get?_congr hsame, h]
      rfl
    · rfl
  | some value =>
    have hvalues := values_store (rootAt_of_get? hs h) (f value) (s.find i)
    rw [modify_of_get? h, get?, find_store, hvalues]
    split
    · next hsame =>
      rw [if_pos hsame.symm, get?_congr hsame.symm, h]
      rfl
    · next hother =>
      rw [if_neg (Ne.symm hother)]
      rfl

end Modify

section Merge

variable {s' : SharedCells β} {combine : β → β → β} {older younger : GroupId} {x y : β}

def yield (s : SharedCells β) (younger older : GroupId) : SharedCells β :=
  ⟨s.parents.setIfInBounds younger older, s.values.setIfInBounds younger none⟩

theorem size_yield (s : SharedCells β) (younger older : GroupId) :
    (s.yield younger older).size = s.size := by
  simp [yield, size]

theorem parents_yield (hyounger : s.RootAt younger y) (older i : GroupId) :
    (s.yield younger older).parents[i]? = if younger = i then some older else s.parents[i]? := by
  rw [yield, Array.getElem?_setIfInBounds]
  split
  · exact if_pos (lt_size_of_parent hyounger.parent)
  · rfl

theorem values_yield (hyounger : s.RootAt younger y) (older i : GroupId) :
    (s.yield younger older).values[i]? = if younger = i then some none else s.values[i]? := by
  have hlt : younger < s.values.size := (Array.getElem?_eq_some_iff.mp hyounger.value).1
  rw [yield, Array.getElem?_setIfInBounds, if_pos hlt]

theorem linked_yield (hs : s.Linked) (hyounger : s.RootAt younger y) (hlt : older < younger) :
    (s.yield younger older).Linked where
  sizes := by
    rw [size_yield]
    exact Array.size_setIfInBounds.trans hs.sizes
  older {i parent} h := by
    rw [parents_yield hyounger] at h
    split at h
    · next hi =>
      cases h
      exact hi ▸ Nat.le_of_lt hlt
    · exact hs.older h
  root {i} h := by
    rw [parents_yield hyounger] at h
    rw [values_yield hyounger]
    split at h
    · next hi =>
      subst hi
      cases h
      exact absurd hlt (Nat.lt_irrefl _)
    · next hi =>
      rw [if_neg hi]
      exact hs.root h
  holder {i held} h := by
    rw [values_yield hyounger] at h
    rw [parents_yield hyounger]
    split at h
    · cases h
    · next hi =>
      rw [if_neg hi]
      exact hs.holder h

theorem find_yield (hs : s.Linked) (hyounger : s.RootAt younger y)
    (holder : s.parents[older]? = some older) (hlt : older < younger) (i : GroupId) :
    (s.yield younger older).find i = if s.find i = younger then older else s.find i := by
  have hlinked := linked_yield hs hyounger hlt
  have hparents := parents_yield hyounger older
  have hroot : (s.yield younger older).find older = older := by
    apply find_of_root
    rw [hparents, if_neg (Nat.ne_of_gt hlt), holder]
  have hend : (s.yield younger older).find younger = older := by
    rw [find_of_parent hlinked (by rw [hparents, if_pos rfl]), hroot]
  rcases Nat.lt_or_ge i s.size with hi | hi
  · have hclimbs := climbs_find hs hi
    generalize s.find i = r at hclimbs
    clear hi
    induction hclimbs with
    | @root i hi =>
      split
      · next hsame => rw [hsame, hend]
      · next hne =>
        apply find_of_root
        rw [hparents, if_neg (Ne.symm hne), hi]
    | @up i parent r hi hne _ ih =>
      have hother : younger ≠ i := by
        rintro rfl
        rw [hyounger.parent] at hi
        cases hi
        exact hne rfl
      rw [← ih]
      apply find_of_parent hlinked
      rw [hparents, if_neg hother, hi]
  · have hne : i ≠ younger := by
      rintro rfl
      exact Nat.not_lt.mpr hi (lt_size_of_parent hyounger.parent)
    rw [find_of_none hi, if_neg hne]
    exact find_of_none (by rwa [size_yield])

def join (s : SharedCells β) (older younger : GroupId) (value : β) : SharedCells β :=
  (s.store older value).yield younger older

theorem join_frame (hs : s.Linked) (holder : s.RootAt older x) (hyounger : s.RootAt younger y)
    (hlt : older < younger) (value : β) :
    (s.store older value).Linked ∧ (s.store older value).RootAt older value ∧
      (s.store older value).RootAt younger y := by
  refine ⟨linked_store hs holder value, rootAt_store holder value, hyounger.parent, ?_⟩
  rw [values_store holder, if_neg (Nat.ne_of_lt hlt), hyounger.value]

theorem linked_join (hs : s.Linked) (holder : s.RootAt older x) (hyounger : s.RootAt younger y)
    (hlt : older < younger) (value : β) : (s.join older younger value).Linked := by
  obtain ⟨hlinked, -, hyounger'⟩ := join_frame hs holder hyounger hlt value
  exact linked_yield hlinked hyounger' hlt

theorem find_join (hs : s.Linked) (holder : s.RootAt older x) (hyounger : s.RootAt younger y)
    (hlt : older < younger) (value : β) (i : GroupId) :
    (s.join older younger value).find i = if s.find i = younger then older else s.find i := by
  obtain ⟨hlinked, holder', hyounger'⟩ := join_frame hs holder hyounger hlt value
  rw [join, find_yield hlinked hyounger' holder'.parent hlt, find_store]

theorem get?_join (hs : s.Linked) (holder : s.RootAt older x) (hyounger : s.RootAt younger y)
    (hlt : older < younger) (value : β) (i : GroupId) :
    (s.join older younger value).get? i =
      if s.find i = older ∨ s.find i = younger then some value else s.get? i := by
  obtain ⟨-, holder', hyounger'⟩ := join_frame hs holder hyounger hlt value
  have hvalues := values_yield hyounger' older
  have hfind := find_join hs holder hyounger hlt value i
  split
  · next hi =>
    have hfind' : (s.join older younger value).find i = older := by
      rw [hfind]
      rcases hi with hi | hi
      · rw [if_neg (hi ▸ Nat.ne_of_lt hlt), hi]
      · rw [if_pos hi]
    rw [get?_eq_some, hfind', join, hvalues, if_neg (Nat.ne_of_gt hlt), holder'.value]
  · next hi =>
    obtain ⟨hne, hne'⟩ := not_or.mp hi
    rw [get?, get?, hfind, if_neg hne', join, hvalues, if_neg (Ne.symm hne'), values_store holder,
      if_neg (Ne.symm hne)]

theorem merge_of_same (h : s.find a = s.find b) : s.merge a b combine = .ok (s.find a, s) := by
  rw [merge]
  exact if_pos h

theorem merge_of_ne (hroot : s.RootAt (min (s.find a) (s.find b)) x)
    (hchild : s.RootAt (max (s.find a) (s.find b)) y) (hne : s.find a ≠ s.find b) :
    s.merge a b combine = .ok (min (s.find a) (s.find b),
      s.join (min (s.find a) (s.find b)) (max (s.find a) (s.find b)) (combine x y)) := by
  generalize hr : min (s.find a) (s.find b) = root at hroot
  generalize hc : max (s.find a) (s.find b) = child at hchild
  have hrc : root ≠ child := by
    rw [← hr, ← hc]
    exact Nat.ne_of_lt (min_lt_max.mpr hne)
  have hsecond : (s.values.setIfInBounds root none)[child]? = some (some y) := by
    rw [Array.getElem?_setIfInBounds_ne hrc, hchild.value]
  have hvalues : ((s.values.setIfInBounds root none).setIfInBounds child none).setIfInBounds root
      (some (combine x y)) = (s.values.setIfInBounds root (some (combine x y))).setIfInBounds child none := by
    rw [Array.setIfInBounds_comm _ _ hrc.symm, Array.setIfInBounds_setIfInBounds]
  rw [merge]
  dsimp only
  rw [if_neg hne, hr, hc]
  simp only [take, hroot.value, hsecond, bind, Except.bind, pure, Except.pure]
  rw [hvalues]
  rfl

theorem merge_cases (hs : s.Linked) (ha : a < s.size) (hb : b < s.size)
    (h : s.merge a b combine = .ok (group, s')) :
    (s.find a = s.find b ∧ group = s.find a ∧ s' = s) ∨
      ∃ younger x y, s.RootAt group x ∧ s.RootAt younger y ∧
        group < younger ∧ s' = s.join group younger (combine x y) ∧
        (s.find a = group ∧ s.find b = younger ∨ s.find a = younger ∧ s.find b = group) := by
  by_cases hsame : s.find a = s.find b
  · rw [merge_of_same hsame] at h
    cases h
    exact .inl ⟨hsame, rfl, rfl⟩
  · obtain ⟨x, hx⟩ := root_of_find hs ha
    obtain ⟨y, hy⟩ := root_of_find hs hb
    right
    rcases Nat.lt_or_gt_of_ne hsame with hlt | hlt
    · have hmin := Nat.min_eq_left (Nat.le_of_lt hlt)
      have hmax := Nat.max_eq_right (Nat.le_of_lt hlt)
      rw [merge_of_ne (by rwa [hmin]) (by rwa [hmax]) hsame, hmin, hmax] at h
      cases h
      exact ⟨_, x, y, hx, hy, hlt, rfl, .inl ⟨rfl, rfl⟩⟩
    · have hmin := Nat.min_eq_right (Nat.le_of_lt hlt)
      have hmax := Nat.max_eq_left (Nat.le_of_lt hlt)
      rw [merge_of_ne (by rwa [hmin]) (by rwa [hmax]) hsame, hmin, hmax] at h
      cases h
      exact ⟨_, y, x, hy, hx, hlt, rfl, .inr ⟨rfl, rfl⟩⟩

theorem merge_ok (hs : s.Linked) (ha : a < s.size) (hb : b < s.size)
    (combine : β → β → β) : ∃ out, s.merge a b combine = .ok out := by
  by_cases hsame : s.find a = s.find b
  · exact ⟨_, merge_of_same hsame⟩
  · have hroot : ∀ i, i = s.find a ∨ i = s.find b → ∃ value, s.RootAt i value := by
      rintro i (rfl | rfl)
      · exact root_of_find hs ha
      · exact root_of_find hs hb
    obtain ⟨x, hx⟩ := hroot _ (min_choice (s.find a) (s.find b))
    obtain ⟨y, hy⟩ := hroot _ (max_choice (s.find a) (s.find b))
    exact ⟨_, merge_of_ne hx hy hsame⟩

structure Merges (combine : β → β → β) (s : SharedCells β) (a b group : GroupId)
    (s' : SharedCells β) : Prop where
  linked : s'.Linked
  size : s'.size = s.size
  bounded : group < s'.size
  find (i : GroupId) : s'.find i =
    if s.find i = s.find a ∨ s.find i = s.find b then group else s.find i
  root : group = s.find a ∨ group = s.find b
  same : s.find a = s.find b → s' = s
  value : s.find a ≠ s.find b → ∃ x y, (s.get? a = some x ∧ s.get? b = some y ∨
    s.get? b = some x ∧ s.get? a = some y) ∧
      ∀ i, s.find i = s.find a ∨ s.find i = s.find b → s'.get? i = some (combine x y)
  other (i : GroupId) : s.find i ≠ s.find a → s.find i ≠ s.find b → s'.get? i = s.get? i

theorem merges (hs : s.Linked) (ha : a < s.size) (hb : b < s.size)
    (h : s.merge a b combine = .ok (group, s')) : Merges combine s a b group s' := by
  rcases merge_cases hs ha hb h with
    ⟨hsame, rfl, rfl⟩ | ⟨younger, x, y, holder, hyounger, hlt, rfl, hfinds⟩
  · refine ⟨hs, rfl, find_lt hs ha, fun i => ?_, .inl rfl, fun _ => rfl,
      fun hne => absurd hsame hne, fun _ _ _ => rfl⟩
    by_cases hi : s'.find i = s'.find a
    · rw [if_pos (.inl hi), hi]
    · rw [if_neg (by simp [← hsame, hi])]
  · have hmem : ∀ i, s.find i = s.find a ∨ s.find i = s.find b ↔
        s.find i = group ∨ s.find i = younger := by
      intro i
      rcases hfinds with ⟨hfa, hfb⟩ | ⟨hfa, hfb⟩ <;> rw [hfa, hfb]
      exact or_comm
    have hvalue : ∀ {i root held}, s.find i = root → s.RootAt root held →
        s.get? i = some held := fun hi hroot => get?_eq_some.mpr (hi ▸ hroot.value)
    have hne : s.find a ≠ s.find b := by
      rcases hfinds with ⟨hfa, hfb⟩ | ⟨hfa, hfb⟩ <;> rw [hfa, hfb]
      · exact Nat.ne_of_lt hlt
      · exact Nat.ne_of_gt hlt
    refine {
      linked := linked_join hs holder hyounger hlt _
      size := ?size
      bounded := ?bounded
      find := fun i => ?find
      root := ?root
      same := fun hsame => absurd hsame hne
      value := fun _ => ⟨x, y, ?values, fun i hi => ?combined⟩
      other := fun i hia hib => ?other }
    case size =>
      rw [join, size_yield]
      rfl
    case bounded =>
      rw [join, size_yield]
      exact lt_size_of_parent holder.parent
    case find =>
      rw [find_join hs holder hyounger hlt]
      simp only [hmem]
      by_cases hi : s.find i = younger
      · simp [hi]
      · by_cases hi' : s.find i = group <;> simp [hi, hi']
    case root =>
      exact hfinds.imp (·.1.symm) (·.2.symm)
    case values =>
      exact hfinds.imp (fun h => ⟨hvalue h.1 holder, hvalue h.2 hyounger⟩)
        fun h => ⟨hvalue h.2 holder, hvalue h.1 hyounger⟩
    case combined =>
      rw [get?_join hs holder hyounger hlt, if_pos ((hmem i).mp hi)]
    case other =>
      rw [get?_join hs holder hyounger hlt, if_neg fun hi => ?_]
      rcases (hmem i).mpr hi with hi | hi
      · exact hia hi
      · exact hib hi

theorem Merges.find_merged (h : Merges combine s a b group s') (hs : s.Linked)
    (ha : a < s.size) (hb : b < s.size) :
    s'.find a = group ∧ s'.find b = group ∧ s'.find group = group := by
  refine ⟨by rw [h.find, if_pos (.inl rfl)], by rw [h.find, if_pos (.inr rfl)], ?_⟩
  rw [h.find, if_pos]
  rcases h.root with rfl | rfl
  · exact .inl (find_idem hs ha)
  · exact .inr (find_idem hs hb)

theorem Merges.find_eq_iff (h : Merges combine s a b group s') (i j : GroupId) :
    s'.find i = s'.find j ↔ s.find i = s.find j ∨
      (s.find i = s.find a ∨ s.find i = s.find b) ∧ (s.find j = s.find a ∨ s.find j = s.find b) := by
  rw [h.find i, h.find j]
  by_cases hi : s.find i = s.find a ∨ s.find i = s.find b <;>
    by_cases hj : s.find j = s.find a ∨ s.find j = s.find b
  · simp [hi, hj]
  · rw [if_pos hi, if_neg hj]
    refine ⟨fun hgroup => absurd (h.root.imp (hgroup.symm.trans ·) (hgroup.symm.trans ·)) hj, ?_⟩
    rintro (hsame | ⟨-, hj'⟩)
    · exact absurd (hsame ▸ hi) hj
    · exact absurd hj' hj
  · rw [if_neg hi, if_pos hj]
    refine ⟨fun hgroup => absurd (h.root.imp (hgroup.trans ·) (hgroup.trans ·)) hi, ?_⟩
    rintro (hsame | ⟨hi', -⟩)
    · exact absurd (hsame ▸ hj) hi
    · exact absurd hi' hi
  · rw [if_neg hi, if_neg hj]
    exact ⟨.inl, fun h => h.resolve_right fun hij => hi hij.1⟩

end Merge

theorem inter_subset_left (x y : PrecisionSet) : x.inter y ⊆ x := fun _ ht => (List.mem_filter.mp ht).1

theorem inter_subset_right (x y : PrecisionSet) : x.inter y ⊆ y :=
  fun _ ht => of_decide_eq_true (List.mem_filter.mp ht).2

structure Narrows (s s' : SharedCells PrecisionSet) : Prop where
  linked : s'.Linked
  size : s.size ≤ s'.size
  together (a b : GroupId) : a < s.size → b < s.size → s.find a = s.find b →
    s'.find a = s'.find b
  types (i : GroupId) (types : PrecisionSet) : s.get? i = some types →
    ∃ types', s'.get? i = some types' ∧ types' ⊆ types

namespace Narrows

variable {s s' s'' : SharedCells PrecisionSet}

theorem refl (hs : s.Linked) : Narrows s s :=
  ⟨hs, Nat.le_refl _, fun _ _ _ _ h => h, fun _ types h => ⟨types, h, fun _ h => h⟩⟩

theorem trans (h : Narrows s s') (h' : Narrows s' s'') : Narrows s s'' where
  linked := h'.linked
  size := Nat.le_trans h.size h'.size
  together a b ha hb hab :=
    h'.together a b (Nat.lt_of_lt_of_le ha h.size) (Nat.lt_of_lt_of_le hb h.size)
      (h.together a b ha hb hab)
  types i types hi := by
    obtain ⟨types₁, h₁, hsub⟩ := h.types i types hi
    obtain ⟨types₂, h₂, hsub'⟩ := h'.types i types₁ h₁
    exact ⟨types₂, h₂, fun _ ht => hsub (hsub' ht)⟩

theorem insert (hs : s.Linked) (types : PrecisionSet) : Narrows s (s.insert types).2 where
  linked := linked_insert hs types
  size := by simp
  together a b ha hb h := by rw [find_insert hs types ha, find_insert hs types hb, h]
  types i old h := ⟨old, get?_insert hs types h, fun _ h => h⟩

theorem modify (hs : s.Linked) (group : GroupId) (allowed : PrecisionSet) :
    Narrows s (s.modify group (PrecisionSet.inter · allowed)) ∧ (group < s.size →
      ∃ types, (s.modify group (PrecisionSet.inter · allowed)).get? group = some types ∧
        types ⊆ allowed) := by
  refine ⟨⟨linked_modify hs group _, Nat.le_of_eq (size_modify s group _).symm,
    fun a b _ _ h => by rwa [find_modify, find_modify], fun i types htypes => ?_⟩,
    fun hlt => ?_⟩
  · rw [get?_modify hs, htypes]
    split
    · exact ⟨_, rfl, inter_subset_left types allowed⟩
    · exact ⟨types, rfl, fun _ h => h⟩
  · obtain ⟨old, hold⟩ := exists_get? hs hlt
    exact ⟨old.inter allowed, by rw [get?_modify hs, if_pos rfl, hold]; rfl,
      inter_subset_right old allowed⟩

theorem merge (hs : s.Linked) (ha : a < s.size) (hb : b < s.size)
    (h : s.merge a b PrecisionSet.inter = .ok (group, s')) :
    Narrows s s' ∧ group < s'.size ∧ s'.find a = s'.find group ∧ s'.find b = s'.find group := by
  have hmerges := merges hs ha hb h
  obtain ⟨hfinda, hfindb, hroot⟩ := hmerges.find_merged hs ha hb
  refine ⟨⟨hmerges.linked, Nat.le_of_eq hmerges.size.symm, fun i j _ _ hij =>
    (hmerges.find_eq_iff i j).mpr (.inl hij), fun i types htypes => ?_⟩, hmerges.bounded,
    hfinda.trans hroot.symm, hfindb.trans hroot.symm⟩
  · by_cases hsame : s.find a = s.find b
    · rw [hmerges.same hsame]
      exact ⟨types, htypes, fun _ h => h⟩
    obtain ⟨x, y, hxy, hvalue⟩ := hmerges.value hsame
    by_cases hi : s.find i = s.find a ∨ s.find i = s.find b
    · refine ⟨_, hvalue i hi, ?_⟩
      have hheld : types = x ∨ types = y := by
        have hget : ∀ {j}, s.find i = s.find j → s.get? j = some types := fun hj =>
          get?_congr hj ▸ htypes
        rcases hxy with ⟨hx, hy⟩ | ⟨hx, hy⟩ <;> rcases hi with hi | hi
        · exact .inl (Option.some.inj ((hget hi).symm.trans hx))
        · exact .inr (Option.some.inj ((hget hi).symm.trans hy))
        · exact .inr (Option.some.inj ((hget hi).symm.trans hy))
        · exact .inl (Option.some.inj ((hget hi).symm.trans hx))
      rcases hheld with rfl | rfl
      · exact inter_subset_left _ _
      · exact inter_subset_right _ _
    · obtain ⟨hia, hib⟩ := not_or.mp hi
      exact ⟨types, (hmerges.other i hia hib).trans htypes, fun _ h => h⟩

end Narrows

end LowPrecision.SharedCells
