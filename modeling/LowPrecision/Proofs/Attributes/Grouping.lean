import Mathlib.Data.Set.Insert
import Mathlib.Logic.Function.Basic
import Mathlib.Logic.Relation
import LowPrecision.Proofs.Attributes.SharedCells

namespace LowPrecision

section Equivalence

variable {K : Type} {r r' : K → K → Prop} {a b x y : K}

theorem eqvGen_link (h : ∀ x y, r' x y ↔ r x y ∨ x = a ∧ y = b) :
    Relation.EqvGen r' x y ↔ Relation.EqvGen r x y ∨
      (Relation.EqvGen r x a ∨ Relation.EqvGen r x b) ∧
        (Relation.EqvGen r y a ∨ Relation.EqvGen r y b) := by
  have hmono : ∀ {x y}, Relation.EqvGen r x y → Relation.EqvGen r' x y :=
    fun hxy => Relation.EqvGen.mono (fun x y hxy => (h x y).mpr (.inl hxy)) _ _ hxy
  have hlink : Relation.EqvGen r' a b := .rel _ _ ((h a b).mpr (.inr ⟨rfl, rfl⟩))
  have hin : ∀ {x}, Relation.EqvGen r x a ∨ Relation.EqvGen r x b → Relation.EqvGen r' x a := by
    rintro x (hx | hx)
    · exact hmono hx
    · exact (hmono hx).trans _ _ _ (hlink.symm _ _)
  constructor
  · intro hxy
    induction hxy with
    | rel x y hxy =>
      rcases (h x y).mp hxy with hxy | ⟨rfl, rfl⟩
      · exact .inl (.rel _ _ hxy)
      · exact .inr ⟨.inl (.refl _), .inr (.refl _)⟩
    | refl x => exact .inl (.refl x)
    | symm x y _ ih => exact ih.imp (·.symm _ _) And.symm
    | trans x y z _ _ ihxy ihyz =>
      rcases ihxy with hxy | ⟨hx, hy⟩ <;> rcases ihyz with hyz | ⟨hy', hz⟩
      · exact .inl (hxy.trans _ _ _ hyz)
      · exact .inr ⟨hy'.imp (hxy.trans _ _ _) (hxy.trans _ _ _), hz⟩
      · exact .inr ⟨hx, hy.imp ((hyz.symm _ _).trans _ _ _) ((hyz.symm _ _).trans _ _ _)⟩
      · exact .inr ⟨hx, hz⟩
  · rintro (hxy | ⟨hx, hy⟩)
    · exact hmono hxy
    · exact (hin hx).trans _ _ _ ((hin hy).symm _ _)

theorem eqvGen_iff {p : K → Prop} (h : ∀ x y, r x y → (p x ↔ p y)) (hxy : Relation.EqvGen r x y) :
    p x ↔ p y := by
  induction hxy with
  | rel x y hxy => exact h x y hxy
  | refl x => exact Iff.rfl
  | symm x y _ ih => exact ih.symm
  | trans x y z _ _ ihxy ihyz => exact ihxy.trans ihyz

end Equivalence

structure Grouping (K β : Type) where
  group? : K → Option GroupId
  cells : SharedCells β

namespace Grouping

variable {K β : Type}

def empty : Grouping K β := ⟨fun _ => none, .empty⟩

def Carries (t : Grouping K β) (k : K) : Prop := ∃ group, t.group? k = some group

def Same (t : Grouping K β) (a b : K) : Prop :=
  ∃ x y, t.group? a = some x ∧ t.group? b = some y ∧ t.cells.find x = t.cells.find y

def value? (t : Grouping K β) (k : K) : Option β := t.group? k >>= t.cells.get?

end Grouping

/-- A key starts a group with a value or becomes a member of the group of another key; the groups of
two keys are joined; the value of the group of a key is combined with another value. -/
inductive GroupAction (K β : Type) where
  | start (k : K) (value : β)
  | attach (k source : K)
  | join (a b : K)
  | narrow (k : K) (value : β)

namespace GroupAction

variable {K β : Type} {l l' : List (GroupAction K β)} {k a b : K} {value : β}

def Carried (l : List (GroupAction K β)) (k : K) : Prop :=
  (∃ value, start k value ∈ l) ∨ ∃ source, attach k source ∈ l

def Linked (l : List (GroupAction K β)) (a b : K) : Prop := join a b ∈ l ∨ attach a b ∈ l

def Adds (l : List (GroupAction K β)) (k : K) (value : β) : Prop :=
  start k value ∈ l ∨ narrow k value ∈ l

def Joined (l : List (GroupAction K β)) : K → K → Prop := Relation.EqvGen (Linked l)

def shares (l : List (GroupAction K β)) (k : K) : Set β :=
  {value | ∃ k', Joined l k k' ∧ Adds l k' value}

structure Proper (l : List (GroupAction K β)) : Prop where
  linked (a b : K) : Linked l a b → Carried l a ∧ Carried l b
  adds (k : K) (value : β) : Adds l k value → Carried l k

theorem joined_symm (h : Joined l a b) : Joined l b a := h.symm _ _

theorem joined_trans {c : K} (h : Joined l a b) (h' : Joined l b c) : Joined l a c := h.trans _ _ _ h'

theorem shares_congr (h : Joined l a b) : shares l a = shares l b :=
  Set.ext fun _ => ⟨fun ⟨k, hk, hadds⟩ => ⟨k, joined_trans (joined_symm h) hk, hadds⟩,
    fun ⟨k, hk, hadds⟩ => ⟨k, joined_trans h hk, hadds⟩⟩

theorem joined_perm (h : l.Perm l') : Joined l = Joined l' := by
  have hlinked : Linked l = Linked l' := by
    funext a b
    simp only [Linked, h.mem_iff]
  rw [Joined, Joined, hlinked]

theorem shares_perm (h : l.Perm l') (k : K) : shares l k = shares l' k := by
  simp only [shares, joined_perm h, Adds, h.mem_iff]

theorem Proper.eq_of_joined (h : Proper l) (hk : ¬Carried l k) (hjoined : Joined l a k) : a = k := by
  refine (eqvGen_iff (p := fun x => x = k) (fun x y hxy => ?_) hjoined).mpr rfl
  obtain ⟨hx, hy⟩ := h.linked x y hxy
  exact iff_of_false (fun he => hk (he ▸ hx)) fun he => hk (he ▸ hy)

theorem Proper.carried_congr (h : Proper l) (hjoined : Joined l a b) : Carried l a ↔ Carried l b :=
  eqvGen_iff (fun a b hab => iff_of_true (h.linked a b hab).1 (h.linked a b hab).2) hjoined

theorem Proper.shares_eq_empty (h : Proper l) (hk : ¬Carried l k) : shares l k = ∅ := by
  refine Set.eq_empty_of_forall_notMem fun value ⟨k', hjoined, hadds⟩ => hk ?_
  rw [← h.eq_of_joined hk (joined_symm hjoined)]
  exact h.adds _ _ hadds

theorem shares_link (l l' : List (GroupAction K β))
    (hlinked : ∀ x y, Linked l' x y ↔ Linked l x y ∨ x = a ∧ y = b)
    (hadds : ∀ x value, Adds l' x value ↔ Adds l x value) (k : K) :
    ((Joined l k a ∨ Joined l k b) → shares l' k = shares l a ∪ shares l b) ∧
      (¬(Joined l k a ∨ Joined l k b) → shares l' k = shares l k) := by
  have hjoined : ∀ x y, Joined l' x y ↔
      Joined l x y ∨ (Joined l x a ∨ Joined l x b) ∧ (Joined l y a ∨ Joined l y b) :=
    fun x y => eqvGen_link hlinked
  refine ⟨fun hk => Set.ext fun value => ?_, fun hk => Set.ext fun value => ?_⟩
  · constructor
    · rintro ⟨k', hk', hvalue⟩
      have hvalue := (hadds k' value).mp hvalue
      have hmem : Joined l k' a ∨ Joined l k' b := by
        rcases (hjoined k k').mp hk' with hk' | ⟨-, hk'⟩
        · exact hk.imp (joined_trans (joined_symm hk')) (joined_trans (joined_symm hk'))
        · exact hk'
      exact hmem.imp (fun h => ⟨k', joined_symm h, hvalue⟩) fun h => ⟨k', joined_symm h, hvalue⟩
    · rintro (⟨k', hk', hvalue⟩ | ⟨k', hk', hvalue⟩)
      · exact ⟨k', (hjoined k k').mpr (.inr ⟨hk, .inl (joined_symm hk')⟩), (hadds k' value).mpr hvalue⟩
      · exact ⟨k', (hjoined k k').mpr (.inr ⟨hk, .inr (joined_symm hk')⟩), (hadds k' value).mpr hvalue⟩
  · simp only [shares, Set.mem_ofPred_eq, hjoined, hadds, hk, false_and, or_false]

section Start

theorem carried_start (x : K) :
    Carried (l ++ [.start k value]) x ↔ Carried l x ∨ x = k := by
  simp only [Carried, List.mem_append, List.mem_singleton, start.injEq, reduceCtorEq, or_false,
    exists_or, exists_and_left, exists_eq, and_true]
  exact or_right_comm

theorem linked_start : Linked (l ++ [.start k value]) = Linked l := by
  funext x y
  simp [Linked]

theorem joined_start : Joined (l ++ [.start k value]) = Joined l := by
  rw [Joined, linked_start, Joined]

theorem adds_start (x : K) (held : β) :
    Adds (l ++ [.start k value]) x held ↔ Adds l x held ∨ x = k ∧ held = value := by
  simp only [Adds, List.mem_append, List.mem_singleton, start.injEq, reduceCtorEq, or_false]
  exact or_right_comm

theorem Proper.start (h : Proper l) (k : K) (value : β) : Proper (l ++ [.start k value]) where
  linked a b hab := by
    rw [linked_start] at hab
    rw [carried_start, carried_start]
    exact (h.linked a b hab).imp .inl .inl
  adds x held hx := by
    rw [carried_start]
    exact ((adds_start x held).mp hx).imp (h.adds x held) And.left

theorem Proper.shares_start_self (h : Proper l) (hk : ¬Carried l k) :
    shares (l ++ [.start k value]) k = {value} := by
  ext held
  simp only [shares, joined_start, adds_start, Set.mem_ofPred_eq, Set.mem_singleton_iff]
  constructor
  · rintro ⟨k', hk', hheld | ⟨-, rfl⟩⟩
    · obtain rfl := h.eq_of_joined hk (joined_symm hk')
      exact absurd (h.adds _ _ hheld) hk
    · rfl
  · rintro rfl
    exact ⟨k, .refl k, .inr ⟨rfl, rfl⟩⟩

theorem Proper.shares_start_of_ne (h : Proper l) (hk : ¬Carried l k) (ha : a ≠ k) :
    shares (l ++ [.start k value]) a = shares l a := by
  ext held
  simp only [shares, joined_start, adds_start, Set.mem_ofPred_eq]
  refine exists_congr fun k' => and_congr_right fun hk' => or_iff_left ?_
  rintro ⟨rfl, -⟩
  exact ha (h.eq_of_joined hk hk')

end Start

section Attach

theorem carried_attach (x : K) :
    Carried (l ++ [.attach k a]) x ↔ Carried l x ∨ x = k := by
  simp only [Carried, List.mem_append, List.mem_singleton, attach.injEq, reduceCtorEq, or_false,
    exists_or, exists_and_left, exists_eq, and_true]
  exact (or_assoc).symm

theorem linked_attach (x y : K) :
    Linked (l ++ [.attach k a]) x y ↔ Linked l x y ∨ x = k ∧ y = a := by
  simp only [Linked, List.mem_append, List.mem_singleton, attach.injEq, reduceCtorEq, or_false]
  exact (or_assoc).symm

theorem adds_attach (x : K) (held : β) : Adds (l ++ [.attach k a]) x held ↔ Adds l x held := by
  simp [Adds]

theorem Proper.attach (h : Proper l) (k : K) (ha : Carried l a) : Proper (l ++ [.attach k a]) where
  linked x y hxy := by
    rw [carried_attach, carried_attach]
    rcases (linked_attach x y).mp hxy with hxy | ⟨rfl, rfl⟩
    · exact (h.linked x y hxy).imp .inl .inl
    · exact ⟨.inr rfl, .inl ha⟩
  adds x held hx := by
    rw [carried_attach]
    exact .inl (h.adds x held ((adds_attach x held).mp hx))

end Attach

section Join

theorem carried_join (x : K) : Carried (l ++ [.join a b]) x ↔ Carried l x := by
  simp [Carried]

theorem linked_join (x y : K) :
    Linked (l ++ [.join a b]) x y ↔ Linked l x y ∨ x = a ∧ y = b := by
  simp only [Linked, List.mem_append, List.mem_singleton, join.injEq, reduceCtorEq, or_false]
  exact or_right_comm

theorem adds_join (x : K) (held : β) : Adds (l ++ [.join a b]) x held ↔ Adds l x held := by
  simp [Adds]

theorem Proper.join (h : Proper l) (ha : Carried l a) (hb : Carried l b) :
    Proper (l ++ [.join a b]) where
  linked x y hxy := by
    rw [carried_join, carried_join]
    rcases (linked_join x y).mp hxy with hxy | ⟨rfl, rfl⟩
    · exact h.linked x y hxy
    · exact ⟨ha, hb⟩
  adds x held hx := by
    rw [carried_join]
    exact h.adds x held ((adds_join x held).mp hx)

end Join

section Narrow

theorem carried_narrow (x : K) : Carried (l ++ [.narrow k value]) x ↔ Carried l x := by
  simp [Carried]

theorem linked_narrow : Linked (l ++ [.narrow k value]) = Linked l := by
  funext x y
  simp [Linked]

theorem joined_narrow : Joined (l ++ [.narrow k value]) = Joined l := by
  rw [Joined, linked_narrow, Joined]

theorem adds_narrow (x : K) (held : β) :
    Adds (l ++ [.narrow k value]) x held ↔ Adds l x held ∨ x = k ∧ held = value := by
  simp only [Adds, List.mem_append, List.mem_singleton, narrow.injEq, reduceCtorEq, or_false]
  exact (or_assoc).symm

theorem Proper.narrow (h : Proper l) (hk : Carried l k) (value : β) :
    Proper (l ++ [.narrow k value]) where
  linked x y hxy := by
    rw [linked_narrow] at hxy
    rw [carried_narrow, carried_narrow]
    exact h.linked x y hxy
  adds x held hx := by
    rw [carried_narrow]
    rcases (adds_narrow x held).mp hx with hx | ⟨rfl, -⟩
    · exact h.adds x held hx
    · exact hk

theorem shares_narrow (ha : Joined l a k) :
    shares (l ++ [.narrow k value]) a = insert value (shares l a) := by
  ext held
  simp only [shares, joined_narrow, adds_narrow, Set.mem_ofPred_eq, Set.mem_insert_iff]
  constructor
  · rintro ⟨k', hk', hheld | ⟨-, rfl⟩⟩
    · exact .inr ⟨k', hk', hheld⟩
    · exact .inl rfl
  · rintro (rfl | ⟨k', hk', hheld⟩)
    · exact ⟨k, ha, .inr ⟨rfl, rfl⟩⟩
    · exact ⟨k', hk', .inl hheld⟩

theorem shares_narrow_of_not_joined (ha : ¬Joined l a k) :
    shares (l ++ [.narrow k value]) a = shares l a := by
  ext held
  simp only [shares, joined_narrow, adds_narrow, Set.mem_ofPred_eq]
  refine exists_congr fun k' => and_congr_right fun hk' => or_iff_left ?_
  rintro ⟨rfl, -⟩
  exact ha hk'

end Narrow

end GroupAction

namespace Grouping

open GroupAction

variable {K β : Type} {combine : β → β → β} {meets : Set β → β → Prop}
  {l l' : List (GroupAction K β)} {t t' : Grouping K β} {a b k source : K} {x y group : GroupId}
  {value : β}

def Names (t : Grouping K β) (k : K) (group : GroupId) : Prop :=
  group < t.cells.size ∧ ∃ x, t.group? k = some x ∧ t.cells.find group = t.cells.find x

theorem Names.merged {root : GroupId} {cells : SharedCells β} (hs : t.cells.Linked)
    (ha : t.Names a x) (hb : t.Names b y) (hmerge : t.cells.merge x y combine = .ok (root, cells)) :
    (⟨t.group?, cells⟩ : Grouping K β).Names a root ∧
      (⟨t.group?, cells⟩ : Grouping K β).Names b root := by
  obtain ⟨hx, x', hgroupa, hfinda⟩ := ha
  obtain ⟨hy, y', hgroupb, hfindb⟩ := hb
  have hmerges := SharedCells.merges hs hx hy hmerge
  obtain ⟨-, -, hroot⟩ := hmerges.find_merged hs hx hy
  refine ⟨⟨hmerges.bounded, x', hgroupa, ?_⟩, ⟨hmerges.bounded, y', hgroupb, ?_⟩⟩
  · rw [hroot, hmerges.find, if_pos (.inl hfinda.symm)]
  · rw [hroot, hmerges.find, if_pos (.inr hfindb.symm)]

structure Alike (t t' : Grouping K β) : Prop where
  carries (k : K) : t.Carries k ↔ t'.Carries k
  same (a b : K) : t.Same a b ↔ t'.Same a b
  value? (k : K) : t.value? k = t'.value? k

structure Reflects (meets : Set β → β → Prop) (l : List (GroupAction K β)) (t : Grouping K β) :
    Prop where
  linked : t.cells.Linked
  proper : Proper l
  carries (k : K) : t.Carries k ↔ Carried l k
  same (a b : K) (x y : GroupId) : t.group? a = some x → t.group? b = some y →
    (t.cells.find x = t.cells.find y ↔ Joined l a b)
  value (k : K) (x : GroupId) : t.group? k = some x →
    ∃ value, t.cells.get? x = some value ∧ meets (shares l k) value

namespace Reflects

theorem empty : Reflects meets ([] : List (GroupAction K β)) .empty where
  linked := SharedCells.linked_empty
  proper := ⟨by simp [Linked], by simp [Adds]⟩
  carries k := by simp [Carries, Carried, Grouping.empty]
  same a b x y h := by simp [Grouping.empty] at h
  value k x h := by simp [Grouping.empty] at h

theorem lt_size (h : Reflects meets l t) (hk : t.group? k = some x) : x < t.cells.size := by
  obtain ⟨value, hvalue, -⟩ := h.value k x hk
  exact SharedCells.lt_size_of_get? h.linked hvalue

theorem not_carried (h : Reflects meets l t) (hk : t.group? k = none) : ¬Carried l k := by
  rw [← h.carries]
  rintro ⟨group, hgroup⟩
  rw [hk] at hgroup
  cases hgroup

theorem joined_of_names (h : Reflects meets l t) (hk : t.Names k group) (ha : t.group? a = some x) :
    t.cells.find x = t.cells.find group ↔ Joined l a k := by
  obtain ⟨-, y, hy, hfind⟩ := hk
  rw [hfind]
  exact h.same a k x y ha hy

theorem value_of_names (h : Reflects meets l t) (hk : t.Names k group) :
    ∃ value, t.cells.get? group = some value ∧ meets (shares l k) value := by
  obtain ⟨-, y, hy, hfind⟩ := hk
  rw [SharedCells.get?_congr hfind]
  exact h.value k y hy

theorem carried_of_names (h : Reflects meets l t) (hk : t.Names k group) : Carried l k := by
  obtain ⟨-, y, hy, -⟩ := hk
  exact (h.carries k).mp ⟨y, hy⟩

theorem value_of_merges {root : GroupId} {cells : SharedCells β} {u : GroupId}
    (hunion : ∀ S T x y, meets S x → meets T y → meets (S ∪ T) (combine x y))
    (h : Reflects meets l t) (ha : t.Names a x) (hb : t.Names b y)
    (hmerges : SharedCells.Merges combine t.cells x y root cells)
    (hu : t.cells.find u = t.cells.find x ∨ t.cells.find u = t.cells.find y) :
    ∃ value, cells.get? u = some value ∧ meets (shares l a ∪ shares l b) value := by
  obtain ⟨xa, hxa, hmeetsa⟩ := h.value_of_names ha
  obtain ⟨yb, hyb, hmeetsb⟩ := h.value_of_names hb
  by_cases hsame : t.cells.find x = t.cells.find y
  · -- The keys were in one group before, to which the merge adds nothing.
    obtain ⟨-, z, hz, hzy⟩ := hb
    have hab : Joined l b a := (h.joined_of_names ha hz).mp (hzy.symm.trans hsame.symm)
    have hux : t.cells.find u = t.cells.find x := hu.elim id fun huy => huy.trans hsame.symm
    rw [hmerges.same hsame, shares_congr hab, Set.union_self, SharedCells.get?_congr hux]
    exact ⟨xa, hxa, hmeetsa⟩
  · obtain ⟨v, w, hvw, hvalue⟩ := hmerges.value hsame
    refine ⟨_, hvalue u hu, ?_⟩
    rcases hvw with ⟨hv, hw⟩ | ⟨hv, hw⟩
    · obtain rfl := Option.some.inj (hxa.symm.trans hv)
      obtain rfl := Option.some.inj (hyb.symm.trans hw)
      exact hunion _ _ _ _ hmeetsa hmeetsb
    · obtain rfl := Option.some.inj (hyb.symm.trans hv)
      obtain rfl := Option.some.inj (hxa.symm.trans hw)
      rw [Set.union_comm]
      exact hunion _ _ _ _ hmeetsb hmeetsa

theorem join {root : GroupId} {cells : SharedCells β}
    (hunion : ∀ S T x y, meets S x → meets T y → meets (S ∪ T) (combine x y))
    (h : Reflects meets l t) (ha : t.Names a x) (hb : t.Names b y)
    (hmerge : t.cells.merge x y combine = .ok (root, cells)) :
    Reflects meets (l ++ [.join a b]) ⟨t.group?, cells⟩ := by
  have hmerges := SharedCells.merges h.linked ha.1 hb.1 hmerge
  have hjoined : ∀ x y, Joined (l ++ [.join a b]) x y ↔ Joined l x y ∨
      (Joined l x a ∨ Joined l x b) ∧ (Joined l y a ∨ Joined l y b) :=
    fun x y => eqvGen_link linked_join
  have hshares := shares_link l (l ++ [.join a b]) linked_join adds_join
  refine ⟨hmerges.linked, h.proper.join (h.carried_of_names ha) (h.carried_of_names hb),
    fun k => ?_, fun i j u v hi hj => ?_, fun k u hk => ?_⟩
  · rw [carried_join]
    exact h.carries k
  · dsimp only at hi hj ⊢
    rw [hjoined, hmerges.find_eq_iff, h.same i j u v hi hj, h.joined_of_names ha hi,
      h.joined_of_names hb hi, h.joined_of_names ha hj, h.joined_of_names hb hj]
  · dsimp only at hk ⊢
    have hfind : (t.cells.find u = t.cells.find x ∨ t.cells.find u = t.cells.find y) ↔
        (Joined l k a ∨ Joined l k b) := by
      rw [h.joined_of_names ha hk, h.joined_of_names hb hk]
    by_cases hk' : Joined l k a ∨ Joined l k b
    · rw [(hshares k).1 hk']
      exact h.value_of_merges hunion ha hb hmerges (hfind.mpr hk')
    · obtain ⟨hux, huy⟩ := not_or.mp (mt hfind.mp hk')
      rw [(hshares k).2 hk', hmerges.other u hux huy]
      exact h.value k u hk

theorem narrow (hnarrow : ∀ S held, meets S held → meets (insert value S) (combine held value))
    (h : Reflects meets l t) (hk : t.Names k group) :
    Reflects meets (l ++ [.narrow k value])
      ⟨t.group?, t.cells.modify group (combine · value)⟩ := by
  refine ⟨SharedCells.linked_modify h.linked _ _, h.proper.narrow (h.carried_of_names hk) value,
    fun a => ?_, fun a b x y ha hb => ?_, fun a x ha => ?_⟩
  · rw [carried_narrow]
    exact h.carries a
  · rw [joined_narrow]
    dsimp only
    rw [SharedCells.find_modify, SharedCells.find_modify]
    exact h.same a b x y ha hb
  · dsimp only at ha ⊢
    obtain ⟨held, hheld, hmeets⟩ := h.value a x ha
    rw [SharedCells.get?_modify h.linked, hheld]
    by_cases hfind : t.cells.find x = t.cells.find group
    · rw [if_pos hfind, shares_narrow ((h.joined_of_names hk ha).mp hfind)]
      exact ⟨_, rfl, hnarrow _ _ hmeets⟩
    · rw [if_neg hfind, shares_narrow_of_not_joined (mt (h.joined_of_names hk ha).mpr hfind)]
      exact ⟨held, rfl, hmeets⟩

theorem same_iff (h : Reflects meets l t) (a b : K) :
    t.Same a b ↔ Carried l a ∧ Carried l b ∧ Joined l a b := by
  constructor
  · rintro ⟨x, y, ha, hb, hfind⟩
    exact ⟨(h.carries a).mp ⟨x, ha⟩, (h.carries b).mp ⟨y, hb⟩, (h.same a b x y ha hb).mp hfind⟩
  · rintro ⟨ha, hb, hab⟩
    obtain ⟨x, hx⟩ := (h.carries a).mpr ha
    obtain ⟨y, hy⟩ := (h.carries b).mpr hb
    exact ⟨x, y, hx, hy, (h.same a b x y hx hy).mpr hab⟩

theorem exists_value? (h : Reflects meets l t) (hk : Carried l k) :
    ∃ value, t.value? k = some value ∧ meets (shares l k) value := by
  obtain ⟨x, hx⟩ := (h.carries k).mpr hk
  obtain ⟨value, hvalue, hmeets⟩ := h.value k x hx
  exact ⟨value, by rw [Grouping.value?, hx]; exact hvalue, hmeets⟩

theorem value?_of_not_carried (h : Reflects meets l t) (hk : ¬Carried l k) : t.value? k = none := by
  cases hgroup : t.group? k with
  | none => rw [Grouping.value?, hgroup]; rfl
  | some x => exact absurd ((h.carries k).mp ⟨x, hgroup⟩) hk

theorem perm (h : Reflects meets l t) (hperm : l.Perm l') : Reflects meets l' t := by
  have hlinked : ∀ a b, Linked l' a b → Linked l a b := fun a b => by
    simp only [Linked, hperm.mem_iff, imp_self]
  have hadds : ∀ k value, Adds l' k value → Adds l k value := fun k value => by
    simp only [Adds, hperm.mem_iff, imp_self]
  have hcarried : ∀ k, Carried l k ↔ Carried l' k := fun k => by
    simp only [Carried, hperm.mem_iff]
  refine ⟨h.linked, ⟨fun a b hab => ?_, fun k value hk => ?_⟩, fun k => (h.carries k).trans (hcarried k),
    fun a b x y ha hb => ?_, fun k x hk => ?_⟩
  · rw [← hcarried, ← hcarried]
    exact h.proper.linked a b (hlinked a b hab)
  · rw [← hcarried]
    exact h.proper.adds k value (hadds k value hk)
  · rw [← joined_perm hperm]
    exact h.same a b x y ha hb
  · rw [← shares_perm hperm]
    exact h.value k x hk

theorem alike (hunique : ∀ S x y, meets S x → meets S y → x = y) (h : Reflects meets l t)
    (h' : Reflects meets l t') : t.Alike t' := by
  refine ⟨fun k => ?_, fun a b => ?_, fun k => ?_⟩
  · rw [h.carries, h'.carries]
  · rw [h.same_iff, h'.same_iff]
  · by_cases hk : Carried l k
    · obtain ⟨x, hx, hmeets⟩ := h.exists_value? hk
      obtain ⟨y, hy, hmeets'⟩ := h'.exists_value? hk
      rw [hx, hy, hunique _ _ _ hmeets hmeets']
    · rw [h.value?_of_not_carried hk, h'.value?_of_not_carried hk]

variable [DecidableEq K]

theorem extend {cells : SharedCells β} (h : Reflects meets l t) (hlinked : cells.Linked)
    (hproper : Proper l') (hcarried : ∀ x, Carried l' x ↔ Carried l x ∨ x = k)
    (hold : ∀ a b x y, a ≠ k → b ≠ k → t.group? a = some x → t.group? b = some y →
      (cells.find x = cells.find y ↔ Joined l' a b))
    (hcross : ∀ b y, b ≠ k → t.group? b = some y → (cells.find y = cells.find group ↔ Joined l' b k))
    (hvalues : ∀ a x, a ≠ k → t.group? a = some x →
      ∃ value, cells.get? x = some value ∧ meets (shares l' a) value)
    (hvalue : ∃ value, cells.get? group = some value ∧ meets (shares l' k) value) :
    Reflects meets l' ⟨Function.update t.group? k (some group), cells⟩ := by
  refine ⟨hlinked, hproper, fun x => ?_, fun a b x y ha hb => ?_, fun a x ha => ?_⟩
  · rw [hcarried, ← h.carries]
    by_cases hx : x = k <;> simp [Carries, hx]
  · dsimp only at ha hb ⊢
    rw [Function.update_apply] at ha hb
    split at ha <;> split at hb
    · next hak hbk =>
      cases ha
      cases hb
      exact iff_of_true rfl (hak ▸ hbk ▸ .refl _)
    · next hak hbk =>
      cases ha
      rw [hak, eq_comm, hcross b y hbk hb]
      exact ⟨joined_symm, joined_symm⟩
    · next hak hbk =>
      cases hb
      rw [hbk]
      exact hcross a x hak ha
    · next hak hbk => exact hold a b x y hak hbk ha hb
  · dsimp only at ha ⊢
    rw [Function.update_apply] at ha
    split at ha
    · next hak =>
      cases ha
      rw [hak]
      exact hvalue
    · next hak => exact hvalues a x hak ha

theorem start (h : Reflects meets l t) (hk : t.group? k = none) (hvalue : meets {value} value) :
    Reflects meets (l ++ [.start k value])
      ⟨Function.update t.group? k (some t.cells.size), (t.cells.insert value).2⟩ := by
  have hnew := h.not_carried hk
  refine h.extend (SharedCells.linked_insert h.linked value) (h.proper.start k value) carried_start
    (fun a b x y _ _ ha hb => ?_) (fun b y hbk hb => ?_) (fun a x hak ha => ?_) ?_
  · rw [joined_start, SharedCells.find_insert h.linked value (h.lt_size ha),
      SharedCells.find_insert h.linked value (h.lt_size hb)]
    exact h.same a b x y ha hb
  · -- The number of the new cell is that of no group.
    have hlt := h.lt_size hb
    rw [joined_start, SharedCells.find_insert h.linked value hlt, SharedCells.find_insert_new]
    exact iff_of_false (Nat.ne_of_lt (SharedCells.find_lt h.linked hlt)) fun hjoined =>
      hbk (h.proper.eq_of_joined hnew hjoined)
  · obtain ⟨held, hheld, hmeets⟩ := h.value a x ha
    rw [h.proper.shares_start_of_ne hnew hak]
    exact ⟨held, SharedCells.get?_insert h.linked value hheld, hmeets⟩
  · rw [h.proper.shares_start_self hnew]
    exact ⟨value, SharedCells.get?_insert_new h.linked _, hvalue⟩

theorem attach (h : Reflects meets l t) (hk : t.group? k = none) (hsource : t.Names source group) :
    Reflects meets (l ++ [.attach k source]) ⟨Function.update t.group? k (some group), t.cells⟩ := by
  have hnew := h.not_carried hk
  have hjoined : ∀ x y, Joined (l ++ [.attach k source]) x y ↔ Joined l x y ∨
      (Joined l x k ∨ Joined l x source) ∧ (Joined l y k ∨ Joined l y source) :=
    fun x y => eqvGen_link linked_attach
  have hshares := shares_link l (l ++ [.attach k source]) linked_attach adds_attach
  have hapart : ∀ b, b ≠ k → ¬Joined l b k := fun b hbk hjoined =>
    hbk (h.proper.eq_of_joined hnew hjoined)
  refine h.extend h.linked (h.proper.attach k (h.carried_of_names hsource)) carried_attach
    (fun a b x y hak hbk ha hb => ?_) (fun b y hbk hb => ?_) (fun a x hak ha => ?_) ?_
  · rw [hjoined, h.same a b x y ha hb]
    simp only [hapart a hak, hapart b hbk, false_or]
    exact ⟨.inl, fun hab => hab.elim id fun hab => joined_trans hab.1 (joined_symm hab.2)⟩
  · rw [hjoined, h.joined_of_names hsource hb]
    simp only [hapart b hbk, false_or]
    exact ⟨fun hjoined => ⟨hjoined, .inl (.refl k)⟩, And.left⟩
  · obtain ⟨held, hheld, hmeets⟩ := h.value a x ha
    refine ⟨held, hheld, ?_⟩
    by_cases hasource : Joined l a source
    · rw [(hshares a).1 (.inr hasource), h.proper.shares_eq_empty hnew, Set.empty_union,
        ← shares_congr hasource]
      exact hmeets
    · rw [(hshares a).2 (by simp [hapart a hak, hasource])]
      exact hmeets
  · rw [(hshares k).1 (.inl (.refl k)), h.proper.shares_eq_empty hnew, Set.empty_union]
    exact h.value_of_names hsource

end Reflects

structure Summarizes (combine : β → β → β) (meets : Set β → β → Prop) (l : List (GroupAction K β)) :
    Prop where
  start (k : K) (value : β) : .start k value ∈ l → meets {value} value
  narrow (k : K) (value : β) : .narrow k value ∈ l → ∀ S held, meets S held →
    meets (insert value S) (combine held value)
  union (S T : Set β) (x y : β) : meets S x → meets T y → meets (S ∪ T) (combine x y)

theorem Summarizes.perm (h : Summarizes combine meets l) (hperm : l.Perm l') :
    Summarizes combine meets l' where
  start k value hmem := h.start k value (hperm.mem_iff.mpr hmem)
  narrow k value hmem := h.narrow k value (hperm.mem_iff.mpr hmem)
  union := h.union

variable [DecidableEq K]

inductive Step (combine : β → β → β) : Grouping K β → GroupAction K β → Grouping K β → Prop
  | start {t : Grouping K β} {k : K} {value : β} : t.group? k = none →
      Step combine t (.start k value)
        ⟨Function.update t.group? k (some t.cells.size), (t.cells.insert value).2⟩
  | attach {t : Grouping K β} {k source : K} {group : GroupId} : t.group? k = none →
      t.Names source group → Step combine t (.attach k source)
        ⟨Function.update t.group? k (some group), t.cells⟩
  | join {t : Grouping K β} {a b : K} {x y root : GroupId} {cells : SharedCells β} : t.Names a x →
      t.Names b y → t.cells.merge x y combine = .ok (root, cells) →
      Step combine t (.join a b) ⟨t.group?, cells⟩
  | narrow {t : Grouping K β} {k : K} {value : β} {group : GroupId} : t.Names k group →
      Step combine t (.narrow k value) ⟨t.group?, t.cells.modify group (combine · value)⟩

inductive Performs (combine : β → β → β) : List (GroupAction K β) → Grouping K β → Prop
  | nil : Performs combine [] empty
  | snoc {l : List (GroupAction K β)} {action : GroupAction K β} {t t' : Grouping K β} :
      Performs combine l t → Step combine t action t' → Performs combine (l ++ [action]) t'

theorem Reflects.step {action : GroupAction K β} (hs : Summarizes combine meets (l ++ [action]))
    (h : Reflects meets l t) (hstep : Step combine t action t') :
    Reflects meets (l ++ [action]) t' := by
  cases hstep with
  | start hk =>
    exact h.start hk (hs.start _ _ (List.mem_append_right _ (List.mem_singleton.mpr rfl)))
  | attach hk hsource => exact h.attach hk hsource
  | join ha hb hmerge => exact .join hs.union h ha hb hmerge
  | narrow hk =>
    exact .narrow (hs.narrow _ _ (List.mem_append_right _ (List.mem_singleton.mpr rfl))) h hk

theorem Performs.reflects (hs : Summarizes combine meets l) (h : Performs combine l t) :
    Reflects meets l t := by
  induction h with
  | nil => exact .empty
  | snoc _ hstep ih =>
    exact (ih ⟨fun k value hmem => hs.start k value (List.mem_append_left _ hmem),
      fun k value hmem => hs.narrow k value (List.mem_append_left _ hmem), hs.union⟩).step hs hstep

theorem Performs.reflects_groups (h : Performs combine l t) : Reflects (fun _ _ => True) l t :=
  h.reflects ⟨fun _ _ _ => trivial, fun _ _ _ _ _ _ => trivial, fun _ _ _ _ _ _ => trivial⟩

end Grouping

end LowPrecision
