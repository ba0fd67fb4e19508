import Mathlib.Order.Bounds.Basic
import LowPrecision.Proofs.Attributes.Grouping

/-!
Shared cells as a partition. The ids that were handed out fall into the blocks that the merges
generate. The oldest member of a block is its root and holds the one value that all members read. When
blocks are merged, the value of the oldest member comes first.
-/

namespace LowPrecision

/-- A change of a table. An update goes through the reference that a member has to the value of its
group. -/
inductive CellAction (β : Type) where
  | insert (value : β)
  | merge (a b : GroupId) (combine : β → β → β)
  | update (group : GroupId) (f : β → β)
  | clear

namespace CellAction

variable {β : Type}

def Names (n : Nat) : CellAction β → Prop
  | insert _ | clear => True
  | merge a b _ => a < n ∧ b < n
  | update group _ => group < n

def issue (n : Nat) : CellAction β → Nat
  | insert _ => n + 1
  | merge _ _ _ | update _ _ => n
  | clear => 0

def Legal : Nat → List (CellAction β) → Prop
  | _, [] => True
  | n, action :: rest => action.Names n ∧ Legal (action.issue n) rest

def perform (s : SharedCells β) : CellAction β → Checked (SharedCells β)
  | insert value => .ok (s.insert value).2
  | merge a b combine => Prod.snd <$> s.merge a b combine
  | update group f => .ok (s.modify group f)
  | clear => .ok .empty

end CellAction

/-- The ids below `count` in blocks with a value each. The blocks are generated by the pairs that
were merged. -/
structure Blocks (β : Type) where
  count : Nat
  merged : List (GroupId × GroupId)
  value : GroupId → Option β

namespace Blocks

variable {β : Type}

def empty : Blocks β := ⟨0, [], fun _ => none⟩

def Same (p : Blocks β) : GroupId → GroupId → Prop :=
  Relation.EqvGen fun a b => (a, b) ∈ p.merged

def block (p : Blocks β) (i : GroupId) : Set GroupId := {j | j < p.count ∧ p.Same i j}

inductive Step (p : Blocks β) : CellAction β → Blocks β → Prop
  | insert (value : β) :
    Step p (.insert value) ⟨p.count + 1, p.merged, Function.update p.value p.count (some value)⟩
  | within {a b : GroupId} (combine : β → β → β) : p.Same a b →
    Step p (.merge a b combine) { p with merged := (a, b) :: p.merged }
  | across {a b : GroupId} (combine : β → β → β) (x y : β) (value : GroupId → Option β) :
    ¬ p.Same a b →
    (p.value a = some x ∧ p.value b = some y ∨ p.value b = some x ∧ p.value a = some y) →
    (∀ i, p.Same i a ∨ p.Same i b → value i = some (combine x y)) →
    (∀ i, ¬ p.Same i a → ¬ p.Same i b → value i = p.value i) →
    Step p (.merge a b combine) ⟨p.count, (a, b) :: p.merged, value⟩
  | update (group : GroupId) (f : β → β) (value : GroupId → Option β) :
    (∀ i, p.Same i group → value i = (p.value i).map f) →
    (∀ i, ¬ p.Same i group → value i = p.value i) →
    Step p (.update group f) { p with value }
  | clear : Step p .clear empty

inductive Run : Blocks β → List (CellAction β) → Blocks β → Prop
  | nil (p : Blocks β) : Run p [] p
  | cons {p q r : Blocks β} {action : CellAction β} {rest : List (CellAction β)} :
    p.Step action q → Run q rest r → Run p (action :: rest) r

theorem Step.count {p q : Blocks β} {action : CellAction β} (h : p.Step action q) :
    q.count = action.issue p.count := by
  cases h <;> rfl

theorem same_merge {p : Blocks β} {a b i j : GroupId} (value : GroupId → Option β) :
    Same ⟨p.count, (a, b) :: p.merged, value⟩ i j ↔
      p.Same i j ∨ (p.Same i a ∨ p.Same i b) ∧ (p.Same j a ∨ p.Same j b) := by
  apply eqvGen_link
  intro x y
  rw [List.mem_cons, Prod.mk.injEq, or_comm]

end Blocks

namespace SharedCells

variable {β : Type} {s s' : SharedCells β} {p : Blocks β} {a b i j r group : GroupId} {value : β}
  {action : CellAction β}

theorem find_le (hs : s.Linked) (i : GroupId) : s.find i ≤ i := by
  rcases Nat.lt_or_ge i s.size with hi | hi
  · have hclimbs := climbs_find hs hi
    generalize s.find i = r at hclimbs
    clear hi
    induction hclimbs with
    | root _ => exact Nat.le_refl _
    | up hparent _ _ ih => exact Nat.le_trans ih (hs.older hparent)
  · exact Nat.le_of_eq (find_of_none hi)

theorem find_insert_all (hs : s.Linked) (value : β) (i : GroupId) :
    (s.insert value).2.find i = s.find i := by
  rcases Nat.lt_trichotomy i s.size with hi | rfl | hi
  · exact find_insert hs value hi
  · rw [find_insert_new, find_of_none (Nat.le_refl _)]
  · rw [find_of_none (Nat.le_of_lt hi), find_of_none]
    rw [size_insert]
    exact hi

theorem get?_insert_all (hs : s.Linked) (value : β) :
    (s.insert value).2.get? = Function.update s.get? s.size (some value) := by
  funext i
  by_cases hi : i = s.size
  · rw [hi, get?_insert_new hs, Function.update_self]
  · rw [Function.update_of_ne hi, get?, get?, find_insert_all hs, values_insert hs]
    rw [if_neg]
    intro he
    rcases Nat.lt_or_ge i s.size with hlt | hge
    · exact Nat.ne_of_lt (find_lt hs hlt) he
    · rw [find_of_none hge] at he
      exact hi he

structure Represents (s : SharedCells β) (p : Blocks β) : Prop where
  linked : s.Linked
  size : s.size = p.count
  same (i j : GroupId) : s.find i = s.find j ↔ p.Same i j
  value : p.value = s.get?

namespace Represents

theorem empty : (empty : SharedCells β).Represents .empty where
  linked := linked_empty
  size := rfl
  same i j := by
    rw [find_of_none (Nat.zero_le i), find_of_none (Nat.zero_le j)]
    constructor
    · rintro rfl
      exact .refl i
    · intro h
      induction h with
      | rel a b hab => cases hab
      | refl => rfl
      | symm _ _ _ ih => exact ih.symm
      | trans _ _ _ _ _ ih ih' => exact ih.trans ih'
  value := by
    funext i
    rw [get?, find_of_none (Nat.zero_le i)]
    rfl

theorem insert (h : s.Represents p) (value : β) : (s.insert value).2.Represents
    ⟨p.count + 1, p.merged, Function.update p.value p.count (some value)⟩ where
  linked := linked_insert h.linked value
  size := by rw [size_insert, h.size]
  same i j := by
    rw [find_insert_all h.linked, find_insert_all h.linked]
    exact h.same i j
  value := by rw [get?_insert_all h.linked, h.value, h.size]

theorem update (h : s.Represents p) (group : GroupId) (f : β → β) : ∃ q,
    p.Step (.update group f) q ∧ (s.modify group f).Represents q := by
  refine ⟨_, .update group f (s.modify group f).get? (fun i hi => ?_) (fun i hi => ?_),
    linked_modify h.linked group f, by rw [size_modify, h.size], fun i j => ?_, rfl⟩
  · rw [get?_modify h.linked, if_pos ((h.same i group).mpr hi), h.value]
  · rw [get?_modify h.linked, if_neg (mt (h.same i group).mp hi), h.value]
  · rw [find_modify, find_modify]
    exact h.same i j

theorem merge (h : s.Represents p) (ha : a < p.count) (hb : b < p.count) (combine : β → β → β) :
    ∃ r s' q, s.merge a b combine = .ok (r, s') ∧ p.Step (.merge a b combine) q ∧ s'.Represents q := by
  rw [← h.size] at ha hb
  obtain ⟨⟨r, s'⟩, hmerge⟩ := merge_ok h.linked ha hb combine
  have hmerges := merges h.linked ha hb hmerge
  have hsame : ∀ i j, s'.find i = s'.find j ↔
      Blocks.Same ⟨p.count, (a, b) :: p.merged, s'.get?⟩ i j := by
    intro i j
    rw [hmerges.find_eq_iff, Blocks.same_merge, h.same, h.same, h.same, h.same, h.same]
  have hsize : s'.size = p.count := hmerges.size.trans h.size
  by_cases hab : p.Same a b
  · obtain rfl := hmerges.same ((h.same a b).mpr hab)
    refine ⟨r, s', _, hmerge, .within combine hab, h.linked, h.size, fun i j => ?_, h.value⟩
    exact hsame i j
  · obtain ⟨x, y, hxy, hvalue⟩ := hmerges.value (mt (h.same a b).mp hab)
    refine ⟨r, s', _, hmerge, .across combine x y s'.get? hab (by rwa [h.value]) (fun i hi => ?_)
      (fun i hia hib => ?_), hmerges.linked, hsize, hsame, rfl⟩
    · exact hvalue i (hi.imp (h.same i a).mpr (h.same i b).mpr)
    · rw [hmerges.other i (mt (h.same i a).mp hia) (mt (h.same i b).mp hib), h.value]

theorem step (h : s.Represents p) (haction : action.Names p.count) :
    ∃ s' q, action.perform s = .ok s' ∧ p.Step action q ∧ s'.Represents q := by
  cases action with
  | insert value => exact ⟨_, _, rfl, .insert value, h.insert value⟩
  | merge a b combine =>
    obtain ⟨r, s', q, hmerge, hstep, hq⟩ := h.merge haction.1 haction.2 combine
    refine ⟨s', q, ?_, hstep, hq⟩
    rw [CellAction.perform, hmerge]
    rfl
  | update group f =>
    obtain ⟨q, hstep, hq⟩ := h.update group f
    exact ⟨_, q, rfl, hstep, hq⟩
  | clear => exact ⟨_, _, rfl, .clear, .empty⟩

theorem run {history : List (CellAction β)} (h : s.Represents p)
    (hlegal : CellAction.Legal p.count history) :
    ∃ s' q, history.foldlM CellAction.perform s = .ok s' ∧ p.Run history q ∧ s'.Represents q := by
  induction history generalizing s p with
  | nil => exact ⟨s, p, rfl, .nil p, h⟩
  | cons action rest ih =>
    obtain ⟨hnames, hrest⟩ := hlegal
    obtain ⟨s₁, p₁, hperform, hstep, h₁⟩ := h.step hnames
    obtain ⟨s', q, hrun, hsteps, hq⟩ := ih h₁ (hstep.count ▸ hrest)
    refine ⟨s', q, ?_, .cons hstep hsteps, hq⟩
    rw [List.foldlM_cons, hperform]
    exact hrun

theorem isLeast_find (h : s.Represents p) (hi : i < p.count) : IsLeast (p.block i) (s.find i) := by
  rw [← h.size] at hi
  refine ⟨⟨h.size ▸ find_lt h.linked hi, ?_⟩, fun j hj => ?_⟩
  · rw [← h.same, find_idem h.linked hi]
  · rw [(h.same i j).mpr hj.2]
    exact find_le h.linked j

theorem mem_roots_iff : r ∈ s.roots ↔ s.parents[r]? = some r := by
  rw [roots, List.mem_filter, List.mem_range, beq_iff_eq]
  exact and_iff_right_of_imp lt_size_of_parent

theorem mem_roots (h : s.Represents p) :
    r ∈ s.roots ↔ ∃ i < p.count, IsLeast (p.block i) r := by
  rw [mem_roots_iff]
  constructor
  · intro hroot
    have hr : r < p.count := h.size ▸ lt_size_of_parent hroot
    have hleast := h.isLeast_find hr
    rw [find_of_root hroot] at hleast
    exact ⟨r, hr, hleast⟩
  · rintro ⟨i, hi, hleast⟩
    obtain rfl := (h.isLeast_find hi).unique hleast
    exact parent_find h.linked (h.size ▸ hi)

theorem holds_iff (h : s.Represents p) :
    (∃ value, s.values[i]? = some (some value)) ↔ i ∈ s.roots := by
  rw [mem_roots_iff]
  constructor
  · rintro ⟨value, hvalue⟩
    exact h.linked.holder hvalue
  · exact h.linked.root

end Represents

structure Answers (s : SharedCells β) (p : Blocks β) : Prop where
  issue (value : β) : (s.insert value).1 = p.count
  climbs (i r : GroupId) : i < p.count → (s.Climbs i r ↔ r = s.find i)
  find (i : GroupId) : i < p.count → IsLeast (p.block i) (s.find i)
  sameGroup (i j : GroupId) : s.sameGroup i j = true ↔ p.Same i j
  roots : s.roots.Pairwise (· < ·) ∧ ∀ r, r ∈ s.roots ↔ ∃ i < p.count, IsLeast (p.block i) r
  holders (i : GroupId) : (∃ value, s.values[i]? = some (some value)) ↔ i ∈ s.roots
  get (i : GroupId) : i < p.count → ∃ value, s.values[s.find i]? = some (some value) ∧
    s.get? i = some value ∧ ∀ j, p.Same i j → p.value j = some value
  within (a b : GroupId) (combine : β → β → β) : a < p.count → b < p.count → p.Same a b →
    s.merge a b combine = .ok (s.find a, s)

theorem Represents.answers (h : s.Represents p) : s.Answers p where
  issue _ := h.size
  climbs i r hi := by
    constructor
    · intro hclimbs
      exact hclimbs.unique (climbs_find h.linked (h.size ▸ hi))
    · rintro rfl
      exact climbs_find h.linked (h.size ▸ hi)
  find i hi := h.isLeast_find hi
  sameGroup i j := by
    rw [SharedCells.sameGroup, beq_iff_eq]
    exact h.same i j
  roots := ⟨List.Pairwise.filter _ List.pairwise_lt_range, fun _ => h.mem_roots⟩
  holders i := h.holds_iff
  get i hi := by
    obtain ⟨value, hvalue⟩ := exists_get? h.linked (h.size ▸ hi)
    refine ⟨value, get?_eq_some.mp hvalue, hvalue, fun j hj => ?_⟩
    rw [h.value, get?_congr ((h.same i j).mpr hj).symm, hvalue]
  within a b combine ha hb hab := merge_of_same ((h.same a b).mpr hab)

/-- Shared cells refine a partition with one value for each block: whatever is done with ids that
were handed out since the last clearing succeeds, changes the blocks as it says, and leaves a table
that answers for them. A question changes nothing, so that it always meets the end of a history. -/
theorem refines_partition {history : List (CellAction β)} (h : CellAction.Legal 0 history) :
    ∃ s p, history.foldlM CellAction.perform (SharedCells.empty : SharedCells β) = .ok s ∧
      Blocks.empty.Run history p ∧ s.Answers p := by
  obtain ⟨s, p, hrun, hsteps, hp⟩ := Represents.run Represents.empty h
  exact ⟨s, p, hrun, hsteps, hp.answers⟩

theorem refines_partition_of_chained :
    ∃ history : List (CellAction Nat), history = [.insert 7, .clear, .insert 1, .insert 2, .insert 3,
      .insert 4, .merge 1 0 (· + ·), .merge 2 3 (· * ·), .update 3 (· + 1), .merge 1 3 (· - ·)] ∧
      CellAction.Legal 0 history ∧ ∃ s p,
        history.foldlM CellAction.perform (SharedCells.empty : SharedCells Nat) = .ok s ∧
          Blocks.empty.Run history p ∧ s.Answers p := by
  have hlegal : CellAction.Legal 0 [.insert 7, .clear, .insert 1, .insert 2, .insert 3, .insert 4,
      .merge 1 0 (· + ·), .merge 2 3 (· * ·), .update 3 (· + 1), .merge 1 3 (· - ·)] := by
    simp [CellAction.Legal, CellAction.Names, CellAction.issue]
  exact ⟨_, rfl, hlegal, refines_partition hlegal⟩

deriving instance DecidableEq for SharedCells

section Order

theorem merge_across (hs : s.Linked) (ha : a < s.size) (hb : b < s.size)
    (hab : s.find a ≠ s.find b) (combine : β → β → β) :
    ∃ x y s', s.get? a = some x ∧ s.get? b = some y ∧
      s.merge a b combine = .ok (min (s.find a) (s.find b), s') ∧
      ∀ i, s'.sameGroup i a = true →
        s'.get? i = some (if s.find a < s.find b then combine x y else combine y x) := by
  obtain ⟨⟨group, s'⟩, hmerge⟩ := merge_ok hs ha hb combine
  have hmerges := merges hs ha hb hmerge
  have hmember : ∀ i, s'.sameGroup i a = true → s.find i = s.find a ∨ s.find i = s.find b := by
    intro i hi
    rw [sameGroup, beq_iff_eq, hmerges.find_eq_iff] at hi
    exact hi.elim .inl And.left
  rcases merge_cases hs ha hb hmerge with
    ⟨hsame, -, -⟩ | ⟨younger, x, y, hx, hy, hlt, rfl, ⟨hfa, hfb⟩ | ⟨hfa, hfb⟩⟩
  · exact absurd hsame hab
  · rw [hfa, hfb] at hmember
    refine ⟨x, y, s.join group younger (combine x y), get?_eq_some.mpr (hfa ▸ hx.value),
      get?_eq_some.mpr (hfb ▸ hy.value), ?_, fun i hi => ?_⟩
    · rw [hmerge, hfa, hfb, min_eq_left (Nat.le_of_lt hlt)]
    · rw [get?_join hs hx hy hlt, if_pos (hmember i hi), hfa, hfb, if_pos hlt]
  · rw [hfa, hfb] at hmember
    refine ⟨y, x, s.join group younger (combine x y), get?_eq_some.mpr (hfa ▸ hy.value),
      get?_eq_some.mpr (hfb ▸ hx.value), ?_, fun i hi => ?_⟩
    · rw [hmerge, hfa, hfb, min_eq_right (Nat.le_of_lt hlt)]
    · rw [get?_join hs hx hy hlt, if_pos (hmember i hi).symm, hfa, hfb, if_neg (Nat.lt_asymm hlt)]

/-- Two blocks that are merged read their values combined in the order of the arguments exactly when
the first argument has the older root, or when the order makes no difference for these values. The
value of the block with the older root always comes first. -/
theorem merge_order_iff {history : List (CellAction β)} (h : CellAction.Legal 0 history)
    (hrun : history.foldlM CellAction.perform (SharedCells.empty : SharedCells β) = .ok s)
    (ha : a < s.size) (hb : b < s.size) (hab : s.sameGroup a b = false)
    (combine : β → β → β) :
    ∃ x y s', s.get? a = some x ∧ s.get? b = some y ∧
      s.merge a b combine = .ok (min (s.find a) (s.find b), s') ∧
      (∀ i, s'.sameGroup i a = true →
        s'.get? i = some (if s.find a < s.find b then combine x y else combine y x)) ∧
      ((∀ i, s'.sameGroup i a = true → s'.get? i = some (combine x y)) ↔
        s.find a < s.find b ∨ combine y x = combine x y) := by
  obtain ⟨_, p, hrun', -, hp⟩ := Represents.run Represents.empty h
  obtain rfl := Except.ok.inj (hrun.symm.trans hrun')
  have hne : s.find a ≠ s.find b := by simpa [sameGroup] using hab
  obtain ⟨x, y, s', hx, hy, hmerge, hvalue⟩ := merge_across hp.linked ha hb hne combine
  refine ⟨x, y, s', hx, hy, hmerge, hvalue, ?_⟩
  by_cases hlt : s.find a < s.find b
  · simp only [hlt, if_true, true_or, iff_true] at hvalue ⊢
    exact hvalue
  · simp only [hlt, if_false, false_or] at hvalue ⊢
    constructor
    · intro hordered
      have hself : s'.sameGroup a a = true := beq_self_eq_true _
      exact Option.some.inj ((hvalue a hself).symm.trans (hordered a hself))
    · intro hsame i hi
      rw [hvalue i hi, hsame]

theorem merge_order_of_chained :
    ∃ history : List (CellAction (List Nat)), ∃ s, history = [.insert [1], .insert [2], .insert [3],
        .merge 1 2 (· ++ ·)] ∧ CellAction.Legal 0 history ∧
      history.foldlM CellAction.perform (SharedCells.empty : SharedCells (List Nat)) = .ok s ∧
      0 < s.size ∧ 2 < s.size ∧ s.sameGroup 0 2 = false ∧ s.find 0 < s.find 2 ∧
      ∃ x y s', s.get? 0 = some x ∧ s.get? 2 = some y ∧
        s.merge 0 2 (· ++ ·) = .ok (min (s.find 0) (s.find 2), s') ∧
        ∀ i, s'.sameGroup i 0 = true → s'.get? i = some (x ++ y) := by
  have hlegal : CellAction.Legal 0 [.insert [1], .insert [2], .insert [3],
      .merge 1 2 (fun x y : List Nat => x ++ y)] := by
    simp [CellAction.Legal, CellAction.Names, CellAction.issue]
  let s : SharedCells (List Nat) := ⟨#[0, 1, 1], #[some [1], some [2, 3], none]⟩
  have hrun : [.insert [1], .insert [2], .insert [3], .merge 1 2 (fun x y : List Nat => x ++ y)].foldlM
      CellAction.perform (SharedCells.empty : SharedCells (List Nat)) = .ok s := by
    decide +kernel
  have hab : s.sameGroup 0 2 = false := by decide +kernel
  have hlt : s.find 0 < s.find 2 := by decide +kernel
  obtain ⟨x, y, s', hx, hy, hmerge, -, hiff⟩ :=
    merge_order_iff hlegal hrun (by decide) (by decide) hab (· ++ ·)
  exact ⟨_, s, rfl, hlegal, hrun, by decide, by decide, hab, hlt, x, y, s', hx, hy, hmerge,
    hiff.mpr (.inl hlt)⟩

theorem second_value_first : ∃ s s' : SharedCells (List Nat),
    [.insert [1], .insert [2]].foldlM CellAction.perform (SharedCells.empty : SharedCells (List Nat)) =
        .ok s ∧ s.sameGroup 1 0 = false ∧ s.get? 1 = some [2] ∧ s.get? 0 = some [1] ∧
      s.merge 1 0 (· ++ ·) = .ok (0, s') ∧ s'.sameGroup 1 0 = true ∧
      s'.get? 1 = some ([1] ++ [2]) ∧ s'.get? 1 ≠ some ([2] ++ [1]) := by
  refine ⟨⟨#[0, 1], #[some [1], some [2]]⟩, ⟨#[0, 0], #[some [1, 2], none]⟩, rfl, ?_, ?_, ?_, ?_, ?_, ?_, ?_⟩
  all_goals decide +kernel

end Order

end SharedCells

end LowPrecision
