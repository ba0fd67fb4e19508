import Mathlib.Algebra.Order.BigOperators.Group.Finset
import Mathlib.Data.DFinsupp.WellFounded
import Mathlib.Data.Prod.Lex
import LowPrecision.Proofs.Rewrite.Rules

namespace LowPrecision

open Finset

variable {α : Type}

def OpKind.IsCarrier (k : OpKind) : Prop :=
  ∃ rule ∈ [Rule.matMul, .convolution, .depthToSpace, .transparent], k ∈ rule.pattern.kinds

def OpKind.IsArithmetic (k : OpKind) : Prop := k ∈ Rule.convertFusion.pattern.kinds

instance (k : OpKind) : Decidable k.IsCarrier :=
  inferInstanceAs (Decidable (∃ rule ∈ [Rule.matMul, .convolution, .depthToSpace, .transparent],
    k ∈ rule.pattern.kinds))

instance (k : OpKind) : Decidable k.IsArithmetic :=
  inferInstanceAs (Decidable (k ∈ Rule.convertFusion.pattern.kinds))

theorem Graph.IsStep.not_carrier {k : OpKind} (h : Graph.IsStep k) : ¬ k.IsCarrier := by
  rcases h with rfl | rfl | rfl | rfl <;> decide

theorem OpKind.IsArithmetic.not_carrier {k : OpKind} (h : k.IsArithmetic) : ¬ k.IsCarrier := by
  simp only [IsArithmetic, Rule.pattern, List.mem_cons, List.not_mem_nil, or_false] at h
  rcases h with rfl | rfl | rfl <;> decide

namespace Face

variable {rank rank' : NodeId → Nat} {f : Face α}

def height (rank : NodeId → Nat) (f : Face α) : Nat := (f.inputs.map fun s => rank s.node).sum

theorem height_congr {f' : Face α} (hin : f'.inputs = f.inputs)
    (h : ∀ s ∈ f.inputs, rank' s.node = rank s.node) : f'.height rank' = f.height rank := by
  rw [height, height, hin, List.map_congr_left h]

end Face

theorem exists_bound (f : Nat → Nat) (n : Nat) : ∃ b, ∀ v < n, f v ≤ b :=
  ⟨∑ v ∈ range n, f v, fun _ hv =>
    single_le_sum (f := f) (fun _ _ => Nat.zero_le _) (mem_range.mpr hv)⟩

namespace Graph

variable {g g' : Graph α} {rank rank' : NodeId → Nat} {K : Nat} {level : NodeId → Fin K}
  {bound : Fin K → Nat}

def IsCarrier (g : Graph α) (v : NodeId) : Prop := ∃ f, g.face? v = some f ∧ f.kind.IsCarrier

structure Layered (g : Graph α) (rank : NodeId → Nat) (level : NodeId → Fin K)
    (bound : Fin K → Nat) : Prop where
  ranked : g.Ranked rank
  height (v : NodeId) (f : Face α) : g.face? v = some f → f.kind.IsCarrier →
    f.height rank ≤ bound (level v)
  apart (u v : NodeId) : g.IsCarrier u → g.IsCarrier v → u ≠ v →
    level u < level v ∧ rank u < rank v ∨ level v < level u ∧ rank v < rank u

theorem exists_height_bound (g : Graph α) (rank : NodeId → Nat) :
    ∃ b, ∀ v f, g.face? v = some f → f.height rank ≤ b := by
  obtain ⟨b, hb⟩ := exists_bound (fun v => (g.face? v).elim 0 (Face.height rank)) g.nodes.size
  refine ⟨b, fun v f hf => ?_⟩
  have hle := hb v (lt_size_of_face? hf)
  rwa [hf] at hle

theorem Regular.layered (h : g.Regular) :
    ∃ K rank, ∃ level : NodeId → Fin K, ∃ bound, g.Layered rank level bound := by
  obtain ⟨rank, hr⟩ := h.acyclic
  obtain ⟨n, hn⟩ : ∃ n, n = g.nodes.size := ⟨_, rfl⟩
  -- A rank can be shared by nodes that do not depend on each other, so it is refined by the ids.
  let fine (v : NodeId) : Nat := rank v * (n + 1) + v
  have hfine : g.Ranked fine := by
    intro v i s hi
    obtain ⟨m, hm⟩ := h.wellFormed.live_of_input hi
    have hs : s.node < n := hn ▸ lt_size_of_node? hm
    have hlt := Nat.mul_le_mul_right (n + 1) (Nat.succ_le_of_lt (hr v i s hi))
    rw [Nat.succ_mul] at hlt
    apply Nat.lt_of_lt_of_le _ (Nat.le_add_right _ v)
    apply Nat.lt_of_lt_of_le _ hlt
    exact Nat.add_lt_add_left (Nat.lt_succ_of_lt hs) _
  have hinj : ∀ u < n, ∀ v < n, fine u = fine v → u = v := by
    intro u hu v hv he
    have hmod := congrArg (· % (n + 1)) he
    simpa only [fine, Nat.mul_add_mod_of_lt (Nat.lt_succ_of_lt hu),
      Nat.mul_add_mod_of_lt (Nat.lt_succ_of_lt hv)] using hmod
  obtain ⟨top, htop⟩ := exists_bound fine n
  obtain ⟨b, hb⟩ := g.exists_height_bound fine
  refine ⟨top + 1, fine, fun v => ⟨min (fine v) top, Nat.lt_succ_of_le (Nat.min_le_right _ _)⟩,
    fun _ => b, hfine, fun v f hf _ => hb v f hf, ?_⟩
  rintro u v ⟨f, hf, -⟩ ⟨k, hk, -⟩ hne
  have hu : u < n := hn ▸ lt_size_of_face? hf
  have hv : v < n := hn ▸ lt_size_of_face? hk
  have hdiff : fine u ≠ fine v := fun he => hne (hinj u hu v hv he)
  simp only [Fin.mk_lt_mk, Nat.min_eq_left (htop u hu), Nat.min_eq_left (htop v hv), and_self]
  exact Nat.lt_or_gt_of_ne hdiff

theorem Layered.descend (h : g.Layered rank level bound) (hr : g'.Ranked rank') {id : NodeId}
    (hid : g.IsCarrier id) (hpos : 0 < bound (level id)) {pull : NodeId → NodeId}
    (hcarrier : ∀ v, g'.IsCarrier v → g.IsCarrier (pull v))
    (hinj : ∀ u v, g'.IsCarrier u → g'.IsCarrier v → pull u = pull v → u = v)
    (hmono : ∀ u v, g'.IsCarrier u → g'.IsCarrier v → rank (pull u) < rank (pull v) →
      rank' u < rank' v)
    (hlow : ∀ v f, g'.face? v = some f → f.kind.IsCarrier → rank (pull v) < rank id →
      f.height rank' ≤ bound (level (pull v)))
    (hat : ∀ v f, g'.face? v = some f → f.kind.IsCarrier → pull v = id →
      f.height rank' < bound (level id)) :
    ∃ bound', g'.Layered rank' (fun v => level (pull v)) bound' ∧ toLex bound' < toLex bound := by
  obtain ⟨b, hb⟩ := g'.exists_height_bound rank'
  -- The bound of the level goes down by one. Above it any bound will do, and below nothing grows.
  let bound' (i : Fin K) : Nat :=
    if i < level id then bound i else if i = level id then bound i - 1 else b
  refine ⟨bound', ⟨hr, fun v f hf hkind => ?_, fun u v hu hv hne => ?_⟩, level id, ?_, ?_⟩
  · by_cases hv : pull v = id
    · have hlt := hat v f hf hkind hv
      simp only [bound', hv, lt_irrefl, ↓reduceIte]
      omega
    · rcases h.apart (pull v) id (hcarrier v ⟨f, hf, hkind⟩) hid hv with ⟨hl, hlt⟩ | ⟨hl, -⟩
      · simp only [bound', if_pos hl]
        exact hlow v f hf hkind hlt
      · simp only [bound', if_neg (lt_asymm hl), if_neg (ne_of_gt hl)]
        exact hb v f hf
  · rcases h.apart (pull u) (pull v) (hcarrier u hu) (hcarrier v hv)
      (fun he => hne (hinj u v hu hv he)) with ⟨hl, hlt⟩ | ⟨hl, hlt⟩
    · exact .inl ⟨hl, hmono u v hu hv hlt⟩
    · exact .inr ⟨hl, hmono v u hv hu hlt⟩
  · intro i hi
    exact if_pos hi
  · simp only [Pi.toLex_apply, bound', lt_irrefl, ↓reduceIte]
    omega

section Room

variable {g₁ : Graph α} {id : NodeId} {start count : Nat} {fresh : NodeId → OpKind → Prop}

theorem Reworked.height_low (h : Reworked (makeRoom g₁.nodes.size count (rank id) rank) start
      (rank id + count) fresh g₁ g') (hg : g₁.WellFormed) {v : NodeId} {f' : Face α}
    (hf' : g'.face? v = some f') (hv : v < g₁.nodes.size) (hle : rank v ≤ rank id) :
    ∃ f, g₁.face? v = some f ∧ f.Resembles f' ∧ ((∀ s ∈ f.inputs, rank s.node < rank v) →
      f'.height (makeRoom g₁.nodes.size count (rank id) rank) = f.height rank) := by
  obtain ⟨f, hf, halike, hinputs⟩ := h.old v f' hv hf'
  refine ⟨f, hf, halike, fun hbelow => ?_⟩
  have hsame : f'.inputs = f.inputs := by
    apply hinputs
    rw [makeRoom_low hv hle]
    exact Nat.le_trans hle (Nat.le_add_right _ _)
  apply Face.height_congr hsame
  intro s hs
  exact makeRoom_low (hg.lt_size_of_input hf hs)
    (Nat.le_trans (Nat.le_of_lt (hbelow s hs)) hle)

theorem Layered.moved {f : Face α} {data first : Slot} {rest : List Slot}
    (h : g.Layered rank level bound) (hf : g.face? id = some f)
    (hkind : f.kind.IsCarrier) (hin : f.inputs = first :: rest)
    (hdata : rank data.node < rank first.node)
    (hread : Recast g g₁ fun v f => f.redirect v [⟨id, 0⟩] data)
    (hmoved : Reworked (makeRoom g.nodes.size count (rank id) rank) start (rank id + count)
      (fun _ => IsStep) g₁ g') :
    ∃ bound', g'.Layered (makeRoom g.nodes.size count (rank id) rank) level bound' ∧
      toLex bound' < toLex bound := by
  have hbelow := ranked_iff_face.mp h.ranked
  have hsum : f.height rank = rank first.node + (rest.map fun s => rank s.node).sum := by
    rw [Face.height, hin, List.map_cons, List.sum_cons]
  have hbound := h.height id f hf hkind
  rw [← hread.size] at hmoved ⊢
  have hwf := hread.wellFormed
  have hold : ∀ v f', g'.face? v = some f' → f'.kind.IsCarrier → v < g₁.nodes.size ∧
      ∃ k, g.face? v = some k ∧ k.kind.IsCarrier := by
    intro v f' hf' hcarrier
    rcases Nat.lt_or_ge v g₁.nodes.size with hlt | hge
    · obtain ⟨k₁, hk₁, halike, -⟩ := hmoved.old v f' hlt hf'
      rw [hread.face] at hk₁
      obtain ⟨k, hk, rfl⟩ := Option.map_eq_some_iff.mp hk₁
      exact ⟨hlt, k, hk, by rwa [halike.kind] at hcarrier⟩
    · exact absurd hcarrier (hmoved.new v f' hge hf').1.not_carrier
  refine h.descend hmoved.ranked ⟨f, hf, hkind⟩ (by omega) (?_ : ∀ v, _ → g.IsCarrier v) ?_ ?_ ?_ ?_
  · rintro v ⟨f', hf', hcarrier⟩
    exact (hold v f' hf' hcarrier).2
  · exact fun _ _ _ _ he => he
  · rintro u v ⟨fu, hfu, hku⟩ ⟨fv, hfv, hkv⟩ hlt
    exact makeRoom_lt (hold u fu hfu hku).1 (hold v fv hfv hkv).1 hlt
  · intro v f' hf' hcarrier hlt
    obtain ⟨hv, k, hk, hkcarrier⟩ := hold v f' hf' hcarrier
    have hne : v ≠ id := fun he => Nat.lt_irrefl _ (he ▸ hlt)
    have hk₁ : g₁.face? v = some k := by
      rw [hread.face, hk, Option.map_some, Face.redirect_of_not_mem (by simp [hne])]
    obtain ⟨k', hk', -, hheight⟩ := hmoved.height_low hwf hf' hv (Nat.le_of_lt hlt)
    obtain rfl : k = k' := Option.some.inj (hk₁.symm.trans hk')
    rw [hheight (hbelow v k hk)]
    exact h.height v k hk hkcarrier
  · rintro v f' hf' - rfl
    have hv : v < g₁.nodes.size := hread.size ▸ lt_size_of_face? hf
    obtain ⟨k', hk', -, hheight⟩ := hmoved.height_low hwf hf' hv (Nat.le_refl _)
    rw [hread.face, hf, Option.map_some, Option.some.injEq] at hk'
    have hinputs : k'.inputs = data :: rest := by
      rw [← hk', Face.redirect_head hin]
    have hrest : ∀ s ∈ rest, rank s.node < rank v :=
      fun s hs => hbelow v f hf s (hin ▸ List.mem_cons_of_mem _ hs)
    have hfirst := hbelow v f hf first (hin ▸ List.mem_cons_self)
    rw [hheight, Face.height, hinputs, List.map_cons, List.sum_cons]
    · omega
    · rw [hinputs]
      intro s hs
      rcases List.mem_cons.mp hs with rfl | hs
      · omega
      · exact hrest s hs

end Room

def predecessor (size id v : NodeId) : NodeId := if v = size then id else v

theorem predecessor_new (size id : NodeId) : predecessor size id size = id := if_pos rfl

theorem predecessor_of_lt {size id v : NodeId} (h : v < size) : predecessor size id v = v :=
  if_neg (Nat.ne_of_lt h)

end Graph

open LowPrecision.Graph

variable {g g' : Graph α} {rank : NodeId → Nat} {K : Nat} {level : NodeId → Fin K}
  {bound : Fin K → Nat} {id : NodeId}

theorem Supplanted.carrier_cases {kind : OpKind}
    (h : Supplanted g g' rank id g.nodes.size g.nodes.size kind) {v : NodeId}
    (hv : g'.IsCarrier v) :
    v = g.nodes.size ∨ v < g.nodes.size ∧ v ≠ id ∧ g.IsCarrier v := by
  obtain ⟨f', hf', hcarrier⟩ := hv
  rcases Nat.lt_or_ge v g.nodes.size with hlt | hge
  · obtain ⟨f, hf, halike, -⟩ := h.reworked.old v f' hlt hf'
    refine .inr ⟨hlt, ?_, f, hf, by rwa [halike.kind] at hcarrier⟩
    rintro rfl
    rw [h.gone] at hf'
    cases hf'
  · rcases (h.reworked.new v f' hge hf').1 with hstep | ⟨rfl, -⟩
    · exact absurd hcarrier hstep.not_carrier
    · exact .inl rfl

theorem Graph.Ranked.room_of_read {size count base : Nat} {f : Face α}
    (h : g'.Ranked (makeRoom size count base rank)) (hf : g'.face? size = some f) {s : Slot}
    (hs : s ∈ f.inputs) (hle : rank s.node ≤ base) :
    makeRoom size count base rank s.node = rank s.node := by
  have hread := ranked_iff_face.mp h size f hf s hs
  rw [makeRoom_new (Nat.le_refl size)] at hread
  apply makeRoom_low _ hle
  by_contra hge
  rw [makeRoom_new (Nat.not_lt.mp hge)] at hread
  omega

theorem Graph.Layered.lowered {f f' : Face α} {a b first second : Slot} {rest : List Slot}
    (h : g.Layered rank level bound) (hg : g.WellFormed) (hf : g.face? id = some f)
    (hkind : f.kind.IsCarrier) (hin : f.inputs = first :: second :: rest)
    (ha : rank a.node < rank first.node) (hb : rank b.node < rank second.node)
    (hs : Supplanted g g' rank id g.nodes.size g.nodes.size f.kind)
    (hnew : g'.face? g.nodes.size = some f') (hinputs : f'.inputs = [a, b]) :
    ∃ bound', g'.Layered (makeRoom g.nodes.size 9 (rank id) rank)
      (fun v => level (predecessor g.nodes.size id v)) bound' ∧ toLex bound' < toLex bound := by
  have hbelow := ranked_iff_face.mp h.ranked
  have hbound := h.height id f hf hkind
  rw [Face.height, hin, List.map_cons, List.sum_cons, List.map_cons, List.sum_cons] at hbound
  apply h.descend hs.reworked.ranked ⟨f, hf, hkind⟩ (by omega)
  · intro v hv
    rcases hs.carrier_cases hv with rfl | ⟨hlt, -, hcarrier⟩
    · rw [predecessor_new]
      exact ⟨f, hf, hkind⟩
    · rwa [predecessor_of_lt hlt]
  · intro u v hu hv he
    rcases hs.carrier_cases hu with rfl | ⟨hu, hune, -⟩ <;>
      rcases hs.carrier_cases hv with rfl | ⟨hv, hvne, -⟩
    · rfl
    · rw [predecessor_new, predecessor_of_lt hv] at he
      exact absurd he.symm hvne
    · rw [predecessor_new, predecessor_of_lt hu] at he
      exact absurd he hune
    · rwa [predecessor_of_lt hu, predecessor_of_lt hv] at he
  · intro u v hu hv hlt
    rcases hs.carrier_cases hu with rfl | ⟨hu, -⟩ <;>
      rcases hs.carrier_cases hv with rfl | ⟨hv, -⟩
    · exact absurd hlt (Nat.lt_irrefl _)
    · rw [predecessor_new, predecessor_of_lt hv] at hlt
      exact makeRoom_new_lt (Nat.le_refl _) (Nat.lt_add_of_pos_right (by decide)) hv hlt
    · rw [predecessor_new, predecessor_of_lt hu] at hlt
      rw [makeRoom_low hu (Nat.le_of_lt hlt), makeRoom_new (Nat.le_refl _)]
      omega
    · rw [predecessor_of_lt hu, predecessor_of_lt hv] at hlt
      exact makeRoom_lt hu hv hlt
  · intro v k' hk' hcarrier hlt
    rcases hs.carrier_cases ⟨k', hk', hcarrier⟩ with rfl | ⟨hv, -⟩
    · rw [predecessor_new] at hlt
      exact absurd hlt (Nat.lt_irrefl _)
    · rw [predecessor_of_lt hv] at hlt ⊢
      obtain ⟨k, hk, halike, hheight⟩ := hs.reworked.height_low hg hk' hv (Nat.le_of_lt hlt)
      rw [hheight (hbelow v k hk)]
      exact h.height v k hk (by rwa [halike.kind] at hcarrier)
  · intro v k' hk' hcarrier he
    rcases hs.carrier_cases ⟨k', hk', hcarrier⟩ with rfl | ⟨hv, hne, -⟩
    · obtain rfl := Option.some.inj (hnew.symm.trans hk')
      have hfirst := hbelow id f hf first (hin ▸ List.mem_cons_self)
      have hsecond := hbelow id f hf second (hin ▸ List.mem_cons_of_mem _ List.mem_cons_self)
      rw [Face.height, hinputs, List.map_cons, List.map_cons, List.map_nil, List.sum_cons,
        List.sum_cons, List.sum_nil,
        hs.reworked.ranked.room_of_read hnew (by simp [hinputs]) (by omega),
        hs.reworked.ranked.room_of_read hnew (by simp [hinputs]) (by omega)]
      omega
    · rw [predecessor_of_lt hv] at he
      exact absurd he hne

section Exchanged

def Graph.total (g : Graph α) (weight : Face α → Nat) : Nat :=
  ∑ v ∈ range g.nodes.size, (g.face? v).elim 0 weight

variable {f f' : Face α}

theorem Face.height_replace {size : NodeId} (h : ∀ s ∈ f.inputs, s.node < size) {v : NodeId}
    (hv : v < size) :
    (f.replace v id size).height (fun v => rank (predecessor size id v)) = f.height rank := by
  rw [Face.replace, if_neg (Nat.ne_of_lt hv), Face.mapInputs, Face.height, Face.height, List.map_map]
  refine congrArg List.sum (List.map_congr_left fun s hs => ?_)
  rw [Function.comp_apply]
  split
  · next he => rw [predecessor_new, he]
  · rw [predecessor_of_lt (h s hs)]

namespace Exchanged

theorem face_cases (h : Exchanged g g' id f') {v : NodeId} {k' : Face α}
    (hk' : g'.face? v = some k') :
    v = g.nodes.size ∧ k' = f' ∨
      v < g.nodes.size ∧ ∃ k, g.face? v = some k ∧ k' = k.replace v id g.nodes.size := by
  have hlt := lt_size_of_face? hk'
  rw [h.size] at hlt
  rcases Nat.lt_succ_iff_lt_or_eq.mp hlt with hlt | rfl
  · refine .inr ⟨hlt, ?_⟩
    rcases h.old v hlt with hkept | hgone
    · rw [hkept] at hk'
      obtain ⟨k, hk, rfl⟩ := Option.map_eq_some_iff.mp hk'
      exact ⟨k, hk, rfl⟩
    · rw [hgone] at hk'
      cases hk'
  · exact .inl ⟨rfl, Option.some.inj (hk'.symm.trans h.new)⟩

theorem layered (he : Exchanged g g' id f') (h : g.Layered rank level bound) (hg : g.WellFormed)
    (hkind : ¬ f'.kind.IsCarrier)
    (hread : ∀ s ∈ f'.inputs, s.node < g.nodes.size ∧ rank s.node < rank id) :
    g'.Layered (fun v => rank (predecessor g.nodes.size id v)) level bound := by
  have hbelow := ranked_iff_face.mp h.ranked
  have hcarrier : ∀ v, g'.IsCarrier v → v < g.nodes.size ∧ g.IsCarrier v := by
    rintro v ⟨k', hk', hcarrier⟩
    rcases he.face_cases hk' with ⟨-, rfl⟩ | ⟨hlt, k, hk, rfl⟩
    · exact absurd hcarrier hkind
    · refine ⟨hlt, k, hk, ?_⟩
      rwa [Face.kind, Face.op_replace] at hcarrier
  refine ⟨ranked_iff_face.mpr fun v k' hk' s hs => ?_, fun v k' hk' hc => ?_,
    fun u v hu hv hne => ?_⟩
  · rcases he.face_cases hk' with ⟨rfl, rfl⟩ | ⟨hlt, k, hk, rfl⟩
    · obtain ⟨hold, hlow⟩ := hread s hs
      rwa [predecessor_new, predecessor_of_lt hold]
    · rw [Face.replace, if_neg (Nat.ne_of_lt hlt)] at hs
      obtain ⟨t, ht, rfl⟩ := List.mem_map.mp hs
      rw [predecessor_of_lt hlt]
      split
      · next hid =>
        rw [predecessor_new, ← hid]
        exact hbelow v k hk t ht
      · rw [predecessor_of_lt (hg.lt_size_of_input hk ht)]
        exact hbelow v k hk t ht
  · rcases he.face_cases hk' with ⟨-, rfl⟩ | ⟨hlt, k, hk, rfl⟩
    · exact absurd hc hkind
    · rw [Face.height_replace (fun s hs => hg.lt_size_of_input hk hs) hlt]
      rw [Face.kind, Face.op_replace] at hc
      exact h.height v k hk hc
  · obtain ⟨hult, hu⟩ := hcarrier u hu
    obtain ⟨hvlt, hv⟩ := hcarrier v hv
    rw [predecessor_of_lt hult, predecessor_of_lt hvlt]
    exact h.apart u v hu hv hne

theorem total_add_le (he : Exchanged g g' id f') (hf : g.face? id = some f)
    (hgone : g'.face? id = none) {w w' : Face α → Nat}
    (hw : ∀ v k, g.face? v = some k → v < g.nodes.size → w' (k.replace v id g.nodes.size) ≤ w k) :
    g'.total w' + w f ≤ g.total w + w' f' := by
  have hid : id ∈ range g.nodes.size := mem_range.mpr (lt_size_of_face? hf)
  have hrest : ∑ v ∈ (range g.nodes.size).erase id, (g'.face? v).elim 0 w' ≤
      ∑ v ∈ (range g.nodes.size).erase id, (g.face? v).elim 0 w := by
    apply sum_le_sum
    intro v hv
    have hlt := mem_range.mp (mem_of_mem_erase hv)
    rcases he.old v hlt with hkept | hnone
    · rw [hkept]
      cases hk : g.face? v with
      | none => exact Nat.le_refl _
      | some k => exact hw v k hk hlt
    · rw [hnone]
      exact Nat.zero_le _
  have hsum := add_sum_erase (range g.nodes.size) (fun v => (g.face? v).elim 0 w) hid
  have hsum' := add_sum_erase (range g.nodes.size) (fun v => (g'.face? v).elim 0 w') hid
  rw [hf, Option.elim_some] at hsum
  rw [hgone, Option.elim_none] at hsum'
  rw [total, total, he.size, sum_range_succ, he.new, Option.elim_some, ← hsum, ← hsum']
  omega

end Exchanged

end Exchanged

def SanitizesOnce (α : Type) [Scalar α] : Prop :=
  ∀ values data : List α, sanitize values = some data → sanitize data = none

namespace Face

theorem height_set_lt {slot : Nat} {input source : Slot} {f : Face α}
    (h : f.inputs[slot]? = some input) (hlt : rank source.node < rank input.node) :
    height rank { f with inputs := f.inputs.set slot source } < f.height rank := by
  rw [height, height]
  generalize f.inputs = inputs at h
  dsimp only
  induction inputs generalizing slot with
  | nil => cases h
  | cons first rest ih =>
    cases slot with
    | zero =>
      cases h
      exact Nat.add_lt_add_right hlt _
    | succ slot => exact Nat.add_lt_add_left (ih h) _

def arithmeticHeight (rank : NodeId → Nat) (f : Face α) : Nat :=
  if f.kind.IsArithmetic then f.height rank else 0

def noise [Scalar α] (f : Face α) : Nat :=
  match f.op with
  | .constant value => if (sanitize value.data).isSome then 1 else 0
  | _ => 0

theorem noise_congr [Scalar α] {f f' : Face α} (h : f'.op = f.op) : f'.noise = f.noise := by
  rw [noise, noise, h]

end Face

namespace Graph

variable [Scalar α]

def measure (g : Graph α) (rank : NodeId → Nat) (bound : Fin K → Nat) :
    Lex (Fin K → Nat) ×ₗ (Nat ×ₗ Nat) :=
  toLex (toLex bound, toLex (g.total (Face.arithmeticHeight rank), g.total Face.noise))

theorem measure_lt_of_bound {rank' : NodeId → Nat} {bound' : Fin K → Nat}
    (h : toLex bound' < toLex bound) : g'.measure rank' bound' < g.measure rank bound :=
  Prod.Lex.toLex_lt_toLex.mpr (.inl h)

theorem measure_lt_of_arithmetic {rank' : NodeId → Nat}
    (h : g'.total (Face.arithmeticHeight rank') < g.total (Face.arithmeticHeight rank)) :
    g'.measure rank' bound < g.measure rank bound :=
  Prod.Lex.toLex_lt_toLex.mpr (.inr ⟨rfl, Prod.Lex.toLex_lt_toLex.mpr (.inl h)⟩)

theorem measure_lt_of_noise {rank' : NodeId → Nat}
    (h : g'.total (Face.arithmeticHeight rank') ≤ g.total (Face.arithmeticHeight rank))
    (hnoise : g'.total Face.noise < g.total Face.noise) :
    g'.measure rank' bound < g.measure rank bound := by
  refine Prod.Lex.toLex_lt_toLex.mpr (.inr ⟨rfl, Prod.Lex.toLex_lt_toLex.mpr ?_⟩)
  rcases Nat.lt_or_eq_of_le h with hlt | heq
  · exact .inl hlt
  · exact .inr ⟨heq, hnoise⟩

end Graph

namespace Exchanged

variable {f f' : Face α}

theorem reads_old {rank' : NodeId → Nat} (he : Exchanged g g' id f') (hg' : g'.WellFormed)
    (hr : g'.Ranked rank') {s : Slot} (hs : s ∈ f'.inputs) : s.node < g.nodes.size := by
  have hlt := hg'.lt_size_of_input he.new hs
  rw [he.size] at hlt
  apply Nat.lt_of_le_of_ne (Nat.le_of_lt_succ hlt)
  intro hsame
  have hself := ranked_iff_face.mp hr _ f' he.new s hs
  rw [hsame] at hself
  exact Nat.lt_irrefl _ hself

theorem arithmetic_add_le (he : Exchanged g g' id f') (rank : NodeId → Nat) (hg : g.WellFormed)
    (hf : g.face? id = some f) (hgone : g'.face? id = none) :
    g'.total (Face.arithmeticHeight fun v => rank (predecessor g.nodes.size id v)) +
        f.arithmeticHeight rank ≤
      g.total (Face.arithmeticHeight rank) +
        f'.arithmeticHeight fun v => rank (predecessor g.nodes.size id v) := by
  apply he.total_add_le hf hgone
  intro v k hk hv
  rw [Face.arithmeticHeight, Face.arithmeticHeight, Face.kind, Face.op_replace,
    Face.height_replace (fun s hs => hg.lt_size_of_input hk hs) hv]
  exact Nat.le_refl _

end Exchanged

section Replacements

variable {n : Node α}

theorem Graph.Layered.fused {slot : Nat} {input source : Slot} (h : g.Layered rank level bound)
    (hg : g.WellFormed) (hn : g.node? id = some n) (hkind : n.kind.IsArithmetic)
    (hinput : n.inputs[slot]? = some input) (hsource : rank source.node < rank input.node)
    (he : Exchanged g g' id (ConvertFusion.fused n slot source))
    (hs : Supplanted g g' rank id g.nodes.size g.nodes.size n.kind) :
    g'.Layered (fun v => rank (predecessor g.nodes.size id v)) level bound ∧
      g'.total (Face.arithmeticHeight fun v => rank (predecessor g.nodes.size id v)) <
        g.total (Face.arithmeticHeight rank) := by
  have hf := face?_eq_some.mpr ⟨n, hn, rfl⟩
  have hbelow := ranked_iff_face.mp h.ranked id n.face hf
  have hold : ∀ t ∈ n.inputs.set slot source, t.node < g.nodes.size :=
    fun t ht => he.reads_old hs.reworked.wellFormed hs.reworked.ranked ht
  refine ⟨he.layered h hg hkind.not_carrier fun t ht => ⟨hold t ht, ?_⟩, ?_⟩
  · rcases List.mem_or_eq_of_mem_set ht with ht | rfl
    · exact hbelow t ht
    · exact Nat.lt_trans hsource (hbelow _ (List.mem_of_getElem? hinput))
  · -- The node that goes and the one that comes differ in one input, which now lies below the
    have hsum := he.arithmetic_add_le rank hg hf hs.gone
    have hheight := Face.height_set_lt (f := n.face) hinput hsource
    have hsame : (ConvertFusion.fused n slot source).height
        (fun v => rank (predecessor g.nodes.size id v)) =
          Face.height rank { n.face with inputs := n.inputs.set slot source } :=
      Face.height_congr rfl fun t ht => by rw [predecessor_of_lt (hold t ht)]
    have hface : n.face.kind.IsArithmetic := hkind
    have hkind' : (ConvertFusion.fused n slot source).kind.IsArithmetic := hkind
    rw [Face.arithmeticHeight, if_pos hface, Face.arithmeticHeight, if_pos hkind', hsame] at hsum
    exact Nat.lt_of_add_lt_add_right (Nat.lt_of_le_of_lt hsum (Nat.add_lt_add_left hheight _))

theorem Graph.Layered.sanitized [Scalar α] {value : Tensor α} {data : List α} {port : Port}
    (h : g.Layered rank level bound) (hg : g.WellFormed) (hclean : SanitizesOnce α)
    (hvalue : g.constant? ⟨id, 0⟩ = some value) (hdata : sanitize value.data = some data)
    (he : Exchanged g g' id ⟨.constant ⟨value.shape, data⟩, [], [port], none⟩)
    (hgone : g'.face? id = none) :
    g'.Layered (fun v => rank (predecessor g.nodes.size id v)) level bound ∧
      g'.total (Face.arithmeticHeight fun v => rank (predecessor g.nodes.size id v)) ≤
        g.total (Face.arithmeticHeight rank) ∧
      g'.total Face.noise < g.total Face.noise := by
  rw [constant?_eq_face] at hvalue
  obtain ⟨f, hf, hop⟩ := Option.bind_eq_some_iff.mp hvalue
  have hconstant : f.op = .constant value := by
    split at hop <;> simp_all
  have hkind : ¬ OpKind.constant.IsCarrier ∧ ¬ OpKind.constant.IsArithmetic := by decide
  refine ⟨he.layered h hg hkind.1 fun s hs => absurd hs (by simp), ?_, ?_⟩
  · have hsum := he.arithmetic_add_le rank hg hf hgone
    have hnew : Face.arithmeticHeight (fun v => rank (predecessor g.nodes.size id v))
        (⟨.constant ⟨value.shape, data⟩, [], [port], none⟩ : Face α) = 0 := if_neg hkind.2
    omega
  · have hsum : g'.total Face.noise + f.noise ≤ g.total Face.noise + _ :=
      he.total_add_le hf hgone fun v k _ _ => Nat.le_of_eq (Face.noise_congr (Face.op_replace ..))
    have hnew : (⟨.constant ⟨value.shape, data⟩, [], [port], none⟩ : Face α).noise = 0 := by
      rw [Face.noise]
      simp [hclean value.data data hdata]
    have hold : f.noise = 1 := by
      rw [Face.noise, hconstant]
      simp [hdata]
    omega

end Replacements

namespace Rule

variable [Scalar α] {rule : Rule} {s s' : Session α} {m : NodeMatch}

theorem Effect.descends (h : Effect rule rank id s s') (hclean : SanitizesOnce α)
    (hrule : rule ∉ cleanup) (hg : s.graph.Regular) (hl : s.graph.Layered rank level bound)
    (hm : rule.pattern.matchAt s.graph id = some m)
    (hcan : rule.canApply s.context s.graph m = .ok true) :
    (∃ name, s.graph.HasQuantizer name ∧ name ∉ s.context.handled ∧ name ∈ s'.context.handled) ∨
      s'.context.handled = s.context.handled ∧
        ∃ rank', ∃ level' : NodeId → Fin K, ∃ bound', s'.graph.Layered rank' level' bound' ∧
          s'.graph.measure rank' bound' < s.graph.measure rank bound := by
  obtain ⟨n, hn, -, rfl⟩ := Pattern.matchAt_eq_some hm
  have hf := Graph.face?_eq_some.mpr ⟨n, hn, rfl⟩
  cases h with
  | decomposed hrule' hn' hkind hsupplanted hhandled =>
    obtain rfl := Option.some.inj (hn.symm.trans hn')
    subst hrule'
    obtain ⟨k, hk, hopen⟩ := Decomposition.open_of_canApply hcan
    obtain rfl := Option.some.inj (hn.symm.trans hk)
    refine .inl ⟨n.name, ⟨id, n.face, hf, hkind, by rw [Graph.name?, hn]; rfl⟩, hopen, ?_⟩
    rw [hhandled, Context.handled_markHandled, if_neg hopen]
    exact List.mem_cons_self
  | joined hrule' hplan hmaintains hhandled =>
    obtain ⟨b, hb⟩ := List.exists_mem_of_ne_nil _ hplan.boundary
    obtain ⟨k, -, hk, hopen, -⟩ := hplan.open hb
    obtain ⟨f, levels, hfb, hop, -⟩ := hplan.isBoundary hb
    have hname : s.graph.name? b = some k.name := by
      rw [Graph.name?, hk]
      rfl
    refine .inl ⟨k.name, ⟨b, f, hfb, by rw [Face.kind, hop]; rfl, hname⟩, hopen, ?_⟩
    exact (hhandled k.name).mpr (.inr ⟨b, hb, hname⟩)
  | lowered hrule' hn' hkind hin ha hb hsupplanted hnew hcontext =>
    obtain rfl := Option.some.inj (hn.symm.trans hn')
    have hcarrier : n.face.kind.IsCarrier := by
      refine ⟨rule, ?_, hkind⟩
      rcases hrule' with rfl | rfl <;> simp
    obtain ⟨bound', hlayered, hlt⟩ :=
      hl.lowered hg.wellFormed hf hcarrier hin ha hb hsupplanted hnew rfl
    exact .inr ⟨by rw [hcontext], _, _, bound', hlayered, measure_lt_of_bound hlt⟩
  | moved hrule' hn' hkind hin hdata hread hreworked hcontext =>
    obtain rfl := Option.some.inj (hn.symm.trans hn')
    have hcarrier : n.face.kind.IsCarrier := by
      refine ⟨rule, ?_, hkind⟩
      rcases hrule' with rfl | rfl <;> simp
    obtain ⟨bound', hlayered, hlt⟩ := hl.moved hf hcarrier hin hdata hread hreworked
    exact .inr ⟨by rw [hcontext], _, _, bound', hlayered, measure_lt_of_bound hlt⟩
  | fused hrule' hn' hkind hinput hsource hnew hsupplanted hcontext =>
    obtain rfl := Option.some.inj (hn.symm.trans hn')
    subst hrule'
    obtain ⟨hlayered, hlt⟩ := hl.fused hg.wellFormed hn hkind hinput hsource hnew hsupplanted
    exact .inr ⟨by rw [hcontext], _, level, bound, hlayered, measure_lt_of_arithmetic hlt⟩
  | sanitized hrule' hn' hvalue hdata hnew hsupplanted hcontext =>
    obtain ⟨hlayered, hle, hlt⟩ :=
      hl.sanitized hg.wellFormed hclean hvalue hdata hnew hsupplanted.gone
    exact .inr ⟨by rw [hcontext], _, level, bound, hlayered, measure_lt_of_noise hle hlt⟩
  | tidied hrule' _ _ => exact absurd hrule' hrule

end Rule

end LowPrecision
