import LowPrecision.Proofs.Rewrite.Applications
import LowPrecision.Proofs.Rewrite.Exchanges
import LowPrecision.Proofs.Rewrite.Trades

namespace LowPrecision

variable {α : Type} {g g₁ g₂ g' : Graph α} {id new fakeQuantize u v w x : NodeId} {i j : Nat} {k : OpKind}
  {n : Node α}

namespace Graph

def IsValue (g : Graph α) (v : NodeId) : Prop :=
  g.kind? v = some .constant ∨ g.kind? v = some .convert ∧ g.inputKind? v 0 = some .constant

theorem isSome_constant? {s : Slot} : (g.constant? s).isSome ↔ g.kind? s.node = some .constant := by
  refine ⟨kind_of_constant, fun hk => ?_⟩
  obtain ⟨f, hf, hop⟩ := face_of_kind hk
  rw [constant?_eq_face, hf, Option.bind_some]
  cases f with
  | mk op => cases op <;> first | rfl | cases hop

theorem isSome_constantValue? {s : Slot} : (g.constantValue? s).isSome ↔ g.IsValue s.node := by
  constructor
  · intro h
    obtain ⟨value, hvalue⟩ := Option.isSome_iff_exists.mp h
    rcases constantValue?_eq_some.mp hvalue with hconstant | ⟨f, type, source, hf, hop, hsource, hconstant⟩
    · exact .inl (kind_of_constant (by rw [hconstant]; rfl))
    · refine .inr ⟨by rw [kind?_eq_face, hf, Option.map_some, Face.kind, hop]; rfl, ?_⟩
      rw [inputKind?, producer?, input?_eq_face, hf, Option.bind_some, hsource]
      exact kind_of_constant (by rw [hconstant]; rfl)
  · rintro (hconstant | ⟨hconvert, hsource⟩)
    · obtain ⟨value, hvalue⟩ := Option.isSome_iff_exists.mp (isSome_constant?.mpr hconstant)
      rw [constantValue?_eq_some.mpr (.inl hvalue)]
      rfl
    · obtain ⟨u, hu, hk⟩ := Option.bind_eq_some_iff.mp hsource
      obtain ⟨source, hsource, rfl⟩ := producer?_eq_some.mp hu
      obtain ⟨f, hf, hkind⟩ := face_of_kind hconvert
      obtain ⟨type, hop⟩ := Op.exists_destination hkind
      obtain ⟨value, hvalue⟩ := Option.isSome_iff_exists.mp (isSome_constant?.mpr hk)
      rw [input?_eq_face, hf] at hsource
      rw [constantValue?_eq_some.mpr (.inr ⟨f, type, source, hf, hop, hsource, hvalue⟩)]
      rfl

theorem isSome_bind_iff {f : Slot → Option (Tensor α)} {P : NodeId → Prop}
    (hf : ∀ s, (f s).isSome ↔ P s.node) :
    ((g.input? v i).bind f).isSome ↔ ∃ u, g.producer? v i = some u ∧ P u := by
  rw [producer?]
  cases g.input? v i with
  | none => simp
  | some s => simp [hf]

end Graph

open LowPrecision.Graph

structure Valued (g g' : Graph α) (id : NodeId) (value : Tensor α) (type : ElementType) : Prop extends
    g.Traded g' id g.nodes.size where
  maintains : g.Maintains g'
  added (v : NodeId) (f : Face α) : g.nodes.size ≤ v → g'.face? v = some f →
    v = g.nodes.size ∧ f = ⟨.constant value, [], [⟨type, some value.shape⟩], none⟩
  name : g'.name? g.nodes.size = g.name? id

theorem Superseded.valued {value : Tensor α} {type : ElementType} (hg : g.Regular)
    (hn : g.node? id = some n) (hkind : ¬ n.kind.IsInterface) (hone : n.kind.HasOneOutput)
    (h : Superseded g g₁ g' id ⟨.constant value, [], [⟨type, some value.shape⟩], none⟩) :
    Valued g g' id value type := by
  obtain ⟨rank, hr⟩ := hg.acyclic
  have hid := lt_size_of_node? hn
  have hextends : g.Extends g₁ fun _ => False := h.added.extends (by simp) (by simp)
  have hdisplaced := displaced_of_replaceNode hextends.wellFormed h.replaced
  have hnot : ∀ s : Slot, False → s.node ≠ id := fun _ => False.elim
  obtain ⟨g'', hexec, -, hsupplanted⟩ := exchange_ok hg.wellFormed hr hn (hg.length_outputs hn hone) hkind
    h.added (by simp) rfl
  cases hexec.symm.trans h.replaced
  exact
    { hdisplaced.traded hextends hnot hid hg.wellFormed (Nat.le_refl _) hn hkind fun _ => rfl with
      maintains := hsupplanted.maintains hg hn fun he => by cases he
      added := fun v f hv hf => h.added.eq_new hv (hdisplaced.face_fresh hextends hnot hid hv hf)
      name := hsupplanted.name }

theorem Sanitize.valued_of_apply [Scalar α] {m : NodeMatch} (hg : g.Regular) (hn : g.node? m.node = some n)
    (hkind : n.kind = .constant) (hrun : exec (Sanitize.apply m) g = .ok (.ok true, g')) :
    ∃ value p, g.port? ⟨m.node, 0⟩ = some p ∧ Valued g g' m.node value p.elementType := by
  obtain ⟨value, p, g₁, -, hp, hsuperseded⟩ := apply_done hg.wellFormed hrun
  exact ⟨value, p, hp, hsuperseded.valued hg hn (by rw [hkind]; decide) (by rw [hkind]; decide)⟩

namespace FoldConvert

theorem valued_of_apply (hg : g.Regular) (hrun : exec (apply id) g = .ok (.ok true, g')) :
    ∃ value type, Valued g g' id value type := by
  obtain ⟨n, type, source, value, g₁, hn, hop, -, -, hsuperseded⟩ := apply_done hg.wellFormed hrun
  have hkind : n.kind = .convert := by rw [Node.kind, hop]; rfl
  exact ⟨value, type, hsuperseded.valued hg hn (by rw [hkind]; decide) (by rw [hkind]; decide)⟩

structure Folds (g : Graph α) (id : NodeId) : Prop where
  kind : g.kind? id = some .convert
  source : g.inputKind? id 0 = some .constant
  read : ∃ v i, g.input? v i = some ⟨id, 0⟩
  subtracted (v : NodeId) (i : Nat) : g.input? v i = some ⟨id, 0⟩ → i = 1 ∧ g.kind? v = some .subtract

theorem canApply_iff (hg : g.WellFormed) : canApply g id = true ↔
    (∃ v i, g.input? v i = some ⟨id, 0⟩) ∧
      ∀ v i, g.input? v i = some ⟨id, 0⟩ → i = 1 ∧ g.kind? v = some .subtract := by
  have hmem : ∀ r : Slot, r ∈ g.readers ⟨id, 0⟩ ↔ g.input? r.node r.index = some ⟨id, 0⟩ :=
    fun r => hg.mem_readers
  simp only [canApply, Bool.and_eq_true, Bool.not_eq_true', List.isEmpty_eq_false_iff_exists_mem,
    List.all_eq_true, beq_iff_eq, hmem]
  refine and_congr ⟨fun ⟨r, hr⟩ => ⟨r.node, r.index, hr⟩, fun ⟨v, i, h⟩ => ⟨⟨v, i⟩, h⟩⟩ ?_
  exact ⟨fun h v i hi => h ⟨v, i⟩ hi, fun h r hr => h r.node r.index hr⟩

structure Folded (g g' : Graph α) (id : NodeId) : Prop extends g.Traded g' id g.nodes.size where
  added (v : NodeId) (f : Face α) : g.nodes.size ≤ v → g'.face? v = some f → f.kind = .constant ∧ f.inputs = []

theorem folded_of_apply (hg : g.Regular) (hrun : exec (apply id) g = .ok (.ok true, g')) :
    Folded g g' id := by
  obtain ⟨value, type, hvalued⟩ := valued_of_apply hg hrun
  refine ⟨hvalued.toTraded, fun v f hv hf => ?_⟩
  obtain ⟨-, rfl⟩ := hvalued.added v f hv hf
  exact ⟨rfl, rfl⟩

theorem Folds.source_of_reads (h : Folds g id) (hg : g.RegularArity) (hread : g.Reads id u) :
    g.kind? u = some .constant := by
  obtain ⟨i, hi⟩ := reads_iff.mp hread
  obtain rfl := Nat.lt_one_iff.mp (hg.index_lt h.kind rfl hi)
  exact kind_of_inputKind h.source hi

namespace Folded

variable (h : Folded g g' id) (hg : g.RegularArity) (hfolds : Folds g id)

include h hg hfolds

theorem folds (hu : u < g.nodes.size) (hbefore : ¬ g.Reads u id) (hu' : Folds g' u) : Folds g u := by
  have hne : u ≠ id := h.ne_of_live (isLive_of_kind hu'.kind)
  refine ⟨h.kind hu hu'.kind, ?_, ?_, fun v i hi => ?_⟩
  · obtain ⟨w, hw, hk⟩ := Option.bind_eq_some_iff.mp hu'.source
    rcases h.producer_cases hu hw with ⟨hw, -⟩ | ⟨-, hw⟩
    · exact Option.bind_eq_some_iff.mpr ⟨w, hw, h.kind (hg.wellFormed.lt_size_of_producer hw) hk⟩
    · exact absurd (reads_iff.mpr ⟨0, hw⟩) hbefore
  · obtain ⟨v, i, hi⟩ := hu'.read
    have hv : v < g.nodes.size := by
      refine Nat.lt_of_not_le fun hv => ?_
      obtain ⟨f, t, hf, ht, -⟩ := reads_iff_face.mp ⟨i, _, hi, rfl⟩
      rw [(h.added v f hv hf).2] at ht
      cases ht
    rcases h.input_cases hv hi with ⟨hi, -⟩ | ⟨heq, -⟩
    · exact ⟨v, i, hi⟩
    · exact absurd heq (Nat.ne_of_lt hu)
  · have hlive : g'.isLive v = true := by
      refine Bool.eq_true_of_not_eq_false fun hlost => ?_
      have hread : g.producer? v i = some u := producer?_eq_some.mpr ⟨_, hi, rfl⟩
      have hreads : g.Reads v u := reads_iff.mpr ⟨i, hread⟩
      rcases h.constant_of_lost hg (fun _ => hfolds.source_of_reads hg) hreads.live hlost with rfl | hk
      · cases (hfolds.source_of_reads hg hreads).symm.trans (h.kind hu hu'.kind)
      · exact hg.not_reads hk hreads
    obtain ⟨hindex, hk⟩ := hu'.subtracted v i (h.input_kept hlive hi hne)
    obtain ⟨n, hn, -⟩ := input?_eq_some.mp hi
    exact ⟨hindex, h.kind (lt_size_of_node? hn) hk⟩

end Folded

end FoldConvert

theorem Doubled.face_cases {levels : Nat} {data low high : Slot} {p : Port} {outLow outHigh : Tensor α}
    (h : Doubled g g' levels data low high p outLow outHigh) {f : Face α} (hv : g.nodes.size ≤ v)
    (hf : g'.face? v = some f) : f.kind = .constant ∧ f.inputs = [] ∨
      f.kind = .fakeQuantize ∧ f.inputs = [data, low, high, ⟨g.nodes.size, 0⟩, ⟨g.nodes.size + 1, 0⟩] := by
  obtain ⟨i, rfl⟩ := Nat.exists_eq_add_of_le hv
  have hi : i < 3 := Nat.add_lt_add_iff_left.mp (h.count ▸ lt_size_of_face? hf)
  obtain rfl | rfl | rfl : i = 0 ∨ i = 1 ∨ i = 2 := by omega
  · cases h.lowBound.symm.trans hf
    exact .inl ⟨rfl, rfl⟩
  · cases h.highBound.symm.trans hf
    exact .inl ⟨rfl, rfl⟩
  · cases h.fakeQuantize.symm.trans hf
    exact .inr ⟨rfl, rfl⟩

namespace RangeFusion

inductive Behind (g : Graph α) (fakeQuantize id : NodeId) : Prop
  | direct (first : g.producer? id 0 = some fakeQuantize)
  | converted {c : NodeId} (first : g.producer? id 0 = some c) (kind : g.kind? c = some .convert)
      (once : g.ReadOnce c) (source : g.producer? c 0 = some fakeQuantize)

structure Fusable (g : Graph α) (fakeQuantize : NodeId) : Prop where
  kind : g.kind? fakeQuantize = some .fakeQuantize
  once : g.ReadOnce fakeQuantize
  bounds (i : Nat) : i = 3 ∨ i = 4 → g.inputKind? fakeQuantize i = some .constant

theorem fusable_iff_checks : Fusable g v ↔ ∃ n, g.node? v = some n ∧
    (n.kind = .fakeQuantize && n.readerCount == 1 && ((n.input? 3).bind g.constant?).isSome &&
      ((n.input? 4).bind g.constant?).isSome) = true := by
  have hbound : ∀ {n : Node α} i, g.node? v = some n →
      (((n.input? i).bind g.constant?).isSome ↔ g.inputKind? v i = some .constant) := by
    intro n i hn
    have hinput : n.input? i = g.input? v i := by rw [input?, hn, Option.bind_some]
    rw [hinput, isSome_bind_iff (P := fun u => g.kind? u = some .constant) fun s => isSome_constant?,
      inputKind?, Option.bind_eq_some_iff]
  simp only [Bool.and_eq_true, decide_eq_true_eq, beq_iff_eq]
  constructor
  · rintro ⟨hkind, ⟨n, hn, hcount⟩, hbounds⟩
    obtain ⟨m, hm, hkind⟩ := Option.map_eq_some_iff.mp hkind
    cases hn.symm.trans hm
    exact ⟨n, hn, ⟨⟨hkind, hcount⟩, (hbound 3 hn).mpr (hbounds 3 (.inl rfl))⟩,
      (hbound 4 hn).mpr (hbounds 4 (.inr rfl))⟩
  · rintro ⟨n, hn, ⟨⟨hkind, hcount⟩, hlow⟩, hhigh⟩
    refine ⟨by rw [kind?, hn, Option.map_some, hkind], ⟨n, hn, hcount⟩, ?_⟩
    rintro i (rfl | rfl)
    · exact (hbound 3 hn).mp hlow
    · exact (hbound 4 hn).mp hhigh

theorem behind_of_source? {value : Tensor α} (h : source? g id = some (fakeQuantize, value)) :
    Behind g fakeQuantize id ∧ Fusable g fakeQuantize := by
  obtain ⟨n, first, hn, hkind, hcount, ⟨low, hlow⟩, ⟨high, hhigh⟩, hfirst, hpath⟩ := source?_eq_some h
  refine ⟨?_, fusable_iff_checks.mpr ⟨n, hn, by simp [hkind, hcount, hlow, hhigh]⟩⟩
  rcases hpath with rfl | ⟨c, s, hc, hckind, hccount, hs, rfl⟩
  · exact .direct (producer?_eq_some.mpr ⟨first, hfirst, rfl⟩)
  · exact .converted (producer?_eq_some.mpr ⟨first, hfirst, rfl⟩) (by rw [kind?, hc, Option.map_some, hckind])
      ⟨c, hc, hccount⟩ (producer?_eq_some.mpr ⟨s, hs, rfl⟩)

structure Fuses (g : Graph α) (fakeQuantize id : NodeId) : Prop where
  behind : Behind g fakeQuantize id
  fusable : Fusable g fakeQuantize
  value : ∃ v, g.producer? id 1 = some v ∧ g.IsValue v
  unweighted (v : NodeId) : g.Reads v id → g.kind? v ≠ some .convolution ∧ g.kind? v ≠ some .groupConvolution

theorem unweighted_iff (hg : g.WellFormed) : ((g.readerNodes id).any fun reader =>
    match g.kind? reader with
    | some .convolution | some .groupConvolution => true
    | _ => false) = false ↔
      ∀ v, g.Reads v id → g.kind? v ≠ some .convolution ∧ g.kind? v ≠ some .groupConvolution := by
  simp only [List.any_eq_false, hg.mem_readerNodes]
  refine forall₂_congr fun v _ => ?_
  split
  · next hk => simp [hk]
  · next hk => simp [hk]
  · next hconvolution hgroup => exact iff_of_true Bool.false_ne_true ⟨hconvolution, hgroup⟩
theorem fuses_of_source? {value : Tensor α} (hg : g.WellFormed)
    (h : source? g id = some (fakeQuantize, value)) : Fuses g fakeQuantize id := by
  have hvalue := value_of_source? h
  obtain ⟨hbehind, hfusable⟩ := behind_of_source? h
  refine ⟨hbehind, hfusable, (isSome_bind_iff fun s => isSome_constantValue?).mp (by rw [hvalue]; rfl), ?_⟩
  obtain ⟨constant, -, h⟩ := Option.bind_eq_some_iff.mp h
  dsimp only at h
  split at h
  · cases h
  · next hopen => exact (unweighted_iff hg).mp (Bool.eq_false_of_not_eq_true hopen)

theorem isSome_source? (hg : g.WellFormed) :
    (source? g id).isSome ↔ ∃ fakeQuantize, Fuses g fakeQuantize id := by
  constructor
  · intro h
    obtain ⟨⟨fakeQuantize, value⟩, hsource⟩ := Option.isSome_iff_exists.mp h
    exact ⟨fakeQuantize, fuses_of_source? hg hsource⟩
  · rintro ⟨fakeQuantize, hbehind, hfusable, hvalue, hopen⟩
    obtain ⟨value, hvalue⟩ := Option.isSome_iff_exists.mp
      ((isSome_bind_iff fun s => isSome_constantValue?).mpr hvalue)
    obtain ⟨n, hn, hchecks⟩ := fusable_iff_checks.mp hfusable
    have hkind := hfusable.kind
    rw [source?, hvalue]
    dsimp only [Option.bind_eq_bind, Option.bind_some]
    split
    · next hfeed => exact absurd hfeed (Bool.eq_false_iff.mp ((unweighted_iff hg).mpr hopen))
    cases hbehind with
    | direct hfirst =>
      rw [hfirst, Option.bind_some, hkind, if_neg (by simp), hn, Option.bind_some, if_pos hchecks]
      rfl
    | converted hfirst hconvert honce hsource =>
      obtain ⟨c, hc, hcount⟩ := honce
      rw [hfirst, Option.bind_some, if_pos hconvert, hc, Option.map_some, hcount, if_pos rfl, hsource,
        Option.bind_some, hn, Option.bind_some, if_pos hchecks]
      rfl

theorem Behind.reads (h : Behind g fakeQuantize id) : Relation.TransGen g.Reads id fakeQuantize := by
  cases h with
  | direct hfirst => exact .single (reads_iff.mpr ⟨0, hfirst⟩)
  | converted hfirst _ _ hsource =>
    exact .tail (.single (reads_iff.mpr ⟨0, hfirst⟩)) (reads_iff.mpr ⟨0, hsource⟩)

theorem Behind.gone {rank : NodeId → Nat} {p : Slot → Prop} (h : Behind g fakeQuantize id)
    (hfusable : Fusable g fakeQuantize) (hg : g.WellFormed) (hr : g.Ranked rank) (he : g.Extends g₁ p)
    (hd : Displaced g₁ g₂ id new) (hnew : g.nodes.size ≤ new) (hbelow : rank fakeQuantize < rank id)
    (hp : ∀ v, rank fakeQuantize ≤ rank v → ∀ s, p s → s.node ≠ v) (hgone : g₂.isLive id = false) :
    g₂.isLive fakeQuantize = false := by
  have hne : ∀ {v}, rank v < rank id → v ≠ id := fun hlt he => Nat.ne_of_lt hlt (by rw [he])
  obtain ⟨k, hk, hkcount⟩ := hfusable.once
  obtain ⟨_, hk', hkkind⟩ := Option.map_eq_some_iff.mp hfusable.kind
  cases hk.symm.trans hk'
  have hkind := not_interface_of_kind hkkind (by decide) (by decide)
  cases h with
  | direct hfirst =>
    exact hd.gone_behind he hg hnew hgone hfirst hk hkcount hkind (hne hbelow) (hp _ (Nat.le_refl _))
  | @converted c hfirst hconvert honce hsource =>
    obtain ⟨l, hl, hlcount⟩ := honce
    obtain ⟨_, hl', hlkind⟩ := Option.map_eq_some_iff.mp hconvert
    cases hl.symm.trans hl'
    obtain ⟨s, hs, rfl⟩ := producer?_eq_some.mp hfirst
    obtain ⟨t, ht, rfl⟩ := producer?_eq_some.mp hsource
    have hconvert := hd.gone_behind he hg hnew hgone hfirst hl hlcount
      (not_interface_of_kind hlkind (by decide) (by decide)) (hne (hr _ _ _ hs))
      (hp _ (Nat.le_of_lt (hr _ _ _ ht)))
    exact hd.gone_behind he hg hnew hconvert hsource hk hkcount hkind (hne hbelow) (hp _ (Nat.le_refl _))

structure Merged (g g' : Graph α) (id fakeQuantize : NodeId) : Prop extends
    g.Traded g' id (g.nodes.size + 2) where
  absorbed : g'.isLive fakeQuantize = false
  isFakeQuantize : g'.kind? (g.nodes.size + 2) = some .fakeQuantize
  takes (i : Nat) (v : NodeId) : i < 3 → g.producer? fakeQuantize i = some v →
    g'.producer? (g.nodes.size + 2) i = some v
  added (v : NodeId) (f : Face α) : g.nodes.size ≤ v → g'.face? v = some f →
    f.kind = .constant ∧ f.inputs = [] ∨
      f.kind = .fakeQuantize ∧ f.inputs.length = 5 ∧
        ∀ s ∈ f.inputs, s.node < g.nodes.size → g.Reads fakeQuantize s.node

theorem merged_of_apply {n : Node α} {f : α → α → α} (hg : g.Regular) (hn : g.node? id = some n)
    (hkind : ¬ n.kind.IsInterface) (hrun : exec (apply id f) g = .ok (.ok true, g')) :
    ∃ fakeQuantize value, source? g id = some (fakeQuantize, value) ∧ Merged g g' id fakeQuantize := by
  obtain ⟨rank, hr⟩ := hg.acyclic
  obtain ⟨fakeQuantize, value, k, levels, data, inLow, inHigh, rest, p, q, outLow, outHigh, g₁, g₂, hsource,
    -, hk, hop, hin, -, hdoubled, hreplace, hrename, -, -⟩ := apply_done hg.wellFormed hrun
  refine ⟨fakeQuantize, value, hsource, ?_⟩
  have hid := lt_size_of_node? hn
  have hbelow := source?_below hr hsource
  have hdisplaced := displaced_of_replaceNode hdoubled.wellFormed hreplace
  have hfaces := (rename_done hdisplaced.wellFormed hrename).2.2.1
  have hother : ∀ v, rank fakeQuantize ≤ rank v → ∀ s, s = data ∨ s = inLow ∨ s = inHigh → s.node ≠ v := by
    rintro v hv s hs rfl
    exact Nat.not_lt.mpr hv (ranges_below hr hk hin hs)
  have hnot := hother id (Nat.le_of_lt hbelow)
  have htraded := hdisplaced.traded hdoubled.toExtends hnot hid hg.wellFormed (Nat.le_add_right _ _) hn hkind
    hfaces
  have hfresh : ∀ v l, g.nodes.size ≤ v → g'.face? v = some l → g₁.face? v = some l := fun v l hv hl =>
    hdisplaced.face_fresh hdoubled.toExtends hnot hid hv ((hfaces v).symm.trans hl)
  have hlive : ∀ v, g'.isLive v = g₂.isLive v := fun v => by rw [isLive_eq_face, hfaces, ← isLive_eq_face]
  have hnewFace : g'.face? (g.nodes.size + 2) = g₁.face? (g.nodes.size + 2) := by
    obtain ⟨l, hl⟩ := isLive_iff_face.mp htraded.stays
    rw [hl, hfresh _ l (Nat.le_add_right _ _) hl]
  rw [hdoubled.fakeQuantize] at hnewFace
  obtain ⟨hpath, hfusable⟩ := behind_of_source? hsource
  refine ⟨htraded, ?_, by rw [kind?_eq_face, hnewFace]; rfl, fun i v hi hv => ?_, fun v l hv hl => ?_⟩
  · rw [hlive]
    exact hpath.gone hfusable hg.wellFormed hr hdoubled.toExtends hdisplaced (Nat.le_add_right _ _) hbelow hother
      ((hlive id).symm.trans htraded.gone)
  · rw [producer?, input?_eq_face, face?_eq_some.mpr ⟨k, hk, rfl⟩, Option.bind_some, Node.face, hin] at hv
    rw [producer?, input?_eq_face, hnewFace, Option.bind_some, ← hv]
    obtain rfl | rfl | rfl : i = 0 ∨ i = 1 ∨ i = 2 := by omega
    · rfl
    · rfl
    · rfl
  · rcases hdoubled.face_cases hv (hfresh v l hv hl) with hconstant | ⟨hkind, hinputs⟩
    · exact .inl hconstant
    · refine .inr ⟨hkind, by rw [hinputs]; rfl, fun s hs hold => ?_⟩
      have hmem : s ∈ k.inputs := by
        rw [hin]
        rcases (hdoubled.inputs v l hv (hfresh v l hv hl) s hs).1 hold with rfl | rfl | rfl <;> simp
      exact reads_iff_face.mpr ⟨k.face, s, face?_eq_some.mpr ⟨k, hk, rfl⟩, hmem, rfl⟩

inductive Spent (g : Graph α) (fakeQuantize id : NodeId) : NodeId → Prop
  | arithmetic : Spent g fakeQuantize id id
  | conversion {c : NodeId} (first : g.producer? id 0 = some c) (kind : g.kind? c = some .convert)
      (once : g.ReadOnce c) (source : g.producer? c 0 = some fakeQuantize) : Spent g fakeQuantize id c
  | fakeQuantize : Spent g fakeQuantize id fakeQuantize
  | value {v : NodeId} (h : g.IsValue v) : Spent g fakeQuantize id v

section Spent

variable (hg : g.RegularArity) (hfuses : Fuses g fakeQuantize id)
  (hpair : ∀ i u, g.producer? id i = some u → i < 2)

include hg hfuses hpair

theorem Spent.producer (h : Spent g fakeQuantize id u) (hi : g.producer? u i = some v) :
    Spent g fakeQuantize id v ∨ u = fakeQuantize ∧ i < 3 := by
  cases h with
  | arithmetic =>
    obtain rfl | rfl : i = 0 ∨ i = 1 := by have := hpair i v hi; omega
    · cases hfuses.behind with
      | direct hfirst =>
        cases hfirst.symm.trans hi
        exact .inl .fakeQuantize
      | converted hfirst hkind honce hsource =>
        cases hfirst.symm.trans hi
        exact .inl (.conversion hi hkind honce hsource)
    · obtain ⟨w, hw, hvalue⟩ := hfuses.value
      cases hw.symm.trans hi
      exact .inl (.value hvalue)
  | conversion hfirst hkind honce hsource =>
    obtain rfl := Nat.lt_one_iff.mp (hg.index_lt hkind rfl hi)
    cases hsource.symm.trans hi
    exact .inl .fakeQuantize
  | fakeQuantize =>
    by_cases hlt : i < 3
    · exact .inr ⟨rfl, hlt⟩
    · have := hg.index_lt hfuses.fusable.kind rfl hi
      exact .inl (.value (.inl (kind_of_inputKind (hfuses.fusable.bounds i (by omega)) hi)))
  | value hvalue =>
    rcases hvalue with hkind | ⟨hkind, hsource⟩
    · exact absurd (reads_iff.mpr ⟨i, hi⟩) (hg.not_reads hkind)
    · obtain rfl := Nat.lt_one_iff.mp (hg.index_lt hkind rfl hi)
      exact .inl (.value (.inl (kind_of_inputKind hsource hi)))

namespace Merged

variable (h : Merged g g' id fakeQuantize) (hg' : g'.WellFormed)

include h hg'

theorem spent_of_lost (hlive : g.isLive v = true) (hlost : g'.isLive v = false) : Spent g fakeQuantize id v := by
  refine h.lost (Spent g fakeQuantize id) .arithmetic (fun u v hu hread hlost => ?_) v hlive hlost
  obtain ⟨i, hi⟩ := reads_iff.mp hread
  refine (hu.producer hg hfuses hpair hi).resolve_right ?_
  rintro ⟨rfl, hlt⟩
  rw [hg'.live_of_reads (reads_iff.mpr ⟨i, h.takes i v hlt hi⟩)] at hlost
  cases hlost

theorem reads_kept (hu : g'.isLive u = true) (hvalue : ¬ g.IsValue u) (hx : g.producer? x j = some u)
    (hne : x ≠ id) (hw : g.producer? w i = some u) :
    g'.producer? w i = some u ∨ g'.producer? (g.nodes.size + 2) i = some u := by
  have hgone : ∀ {v}, g'.isLive v = false → u ≠ v := by
    rintro v hv rfl
    rw [hu] at hv
    cases hv
  cases hlive : g'.isLive w with
  | true => exact .inl (h.producer_kept hlive hw (hgone h.gone))
  | false =>
    have hspent := h.spent_of_lost hg hfuses hpair hg' (reads_iff.mpr ⟨i, hw⟩).live hlive
    rcases hspent.producer hg hfuses hpair hw with hspent | ⟨rfl, hlt⟩
    · cases hspent with
      | arithmetic => exact absurd rfl (hgone h.gone)
      | fakeQuantize => exact absurd rfl (hgone h.absorbed)
      | value hu => exact absurd hu hvalue
      | conversion hfirst _ honce _ =>
        obtain ⟨r, hr⟩ := hg.wellFormed.readOnce_iff.mp honce
        exact absurd (congrArg Slot.node (((hr x j).mp hx).trans ((hr id 0).mp hfirst).symm)) hne
    · exact .inr (h.takes i u hlt hw)

theorem readOnce (honce : g'.ReadOnce u) (hvalue : ¬ g.IsValue u) (hu : u < g.nodes.size)
    (hx : x < g.nodes.size) (hread : g'.producer? x j = some u) : g.ReadOnce u := by
  obtain ⟨r, hr⟩ := hg'.readOnce_iff.mp honce
  have hreads : g'.Reads x u := reads_iff.mpr ⟨j, hread⟩
  have hold := h.producer_old hx hu hread
  refine hg.wellFormed.readOnce_iff.mpr ⟨r, fun w i => ⟨fun hw => ?_, fun hw => ?_⟩⟩
  · rcases h.reads_kept hg hfuses hpair hg' (hg'.live_of_reads hreads) hvalue hold
      (h.ne_of_live hreads.live) hw with hkept | hnew
    · exact (hr w i).mp hkept
    · have hsame : g.nodes.size + 2 = x :=
        congrArg Slot.node (((hr _ i).mp hnew).trans ((hr x j).mp hread).symm)
      exact absurd hx (Nat.not_lt.mpr (Nat.le_of_add_right_le (Nat.le_of_eq hsame)))
  · cases hw.trans ((hr x j).mp hread).symm
    exact hold

omit hg hfuses hpair hg' in
theorem producer_of_kind (hg : g.WellFormed) (hu : u < g.nodes.size) (hk : g'.kind? v = some k)
    (hne : k ≠ .fakeQuantize) (hi : g'.producer? u i = some v) :
    g.producer? u i = some v ∧ g.kind? v = some k := by
  rcases h.producer_cases hu hi with ⟨hi, -⟩ | ⟨rfl, -⟩
  · exact ⟨hi, h.kind (hg.lt_size_of_producer hi) hk⟩
  · exact absurd (Option.some.inj (hk.symm.trans h.isFakeQuantize)) hne

omit hg hfuses hpair hg' in
theorem inputKind (hg : g.WellFormed) (hu : u < g.nodes.size) (hne : k ≠ .fakeQuantize)
    (hi : g'.inputKind? u i = some k) : g.inputKind? u i = some k := by
  obtain ⟨v, hv, hk⟩ := Option.bind_eq_some_iff.mp hi
  obtain ⟨hv, hk⟩ := h.producer_of_kind hg hu hk hne hv
  exact Option.bind_eq_some_iff.mpr ⟨v, hv, hk⟩

omit hg hfuses hpair hg' in
theorem isValue (hg : g.WellFormed) (hu : u < g.nodes.size) (hvalue : g'.IsValue u) : g.IsValue u :=
  hvalue.imp (h.kind hu) fun hconvert => ⟨h.kind hu hconvert.1, h.inputKind hg hu (by decide) hconvert.2⟩

theorem fusable (hu : u < g.nodes.size) (hx : x < g.nodes.size) (hread : g'.producer? x j = some u)
    (hfusable : Fusable g' u) : Fusable g u where
  kind := h.kind hu hfusable.kind
  once := by
    refine h.readOnce hg hfuses hpair hg' hfusable.once ?_ hu hx hread
    rintro (hk | ⟨hk, -⟩) <;> cases hk.symm.trans (h.kind hu hfusable.kind)
  bounds i hi := h.inputKind hg.wellFormed hu (by decide) (hfusable.bounds i hi)

variable (hbefore : ¬ Relation.TransGen g.Reads u id)

include hbefore

omit hfuses hpair hg' in
theorem producer_before (hx : x < g.nodes.size) (hxu : Relation.ReflTransGen g.Reads u x)
    (hi : g'.producer? x i = some v) : g.producer? x i = some v ∧ v < g.nodes.size := by
  rcases h.producer_cases hx hi with ⟨hi, -⟩ | ⟨-, hi⟩
  · exact ⟨hi, hg.wellFormed.lt_size_of_producer hi⟩
  · exact absurd (Relation.TransGen.tail' hxu (reads_iff.mpr ⟨i, hi⟩)) hbefore

theorem fuses {other : NodeId} (hkind : g.kind? id ≠ some .convolution ∧ g.kind? id ≠ some .groupConvolution)
    (hu : u < g.nodes.size) (hu' : Fuses g' other u) : Fuses g other u := by
  have hbehind : Behind g other u ∧ Fusable g other := by
    cases hu'.behind with
    | direct hfirst =>
      obtain ⟨hold, hlt⟩ := h.producer_before hg hbefore hu .refl hfirst
      exact ⟨.direct hold, h.fusable hg hfuses hpair hg' hlt hu hfirst hu'.fusable⟩
    | converted hfirst hconvert honce hsource =>
      obtain ⟨hold, hlt⟩ := h.producer_before hg hbefore hu .refl hfirst
      obtain ⟨holdSource, hltSource⟩ :=
        h.producer_before hg hbefore hlt (.single (reads_iff.mpr ⟨0, hold⟩)) hsource
      have hfusable := h.fusable hg hfuses hpair hg' hltSource hlt hsource hu'.fusable
      refine ⟨.converted hold (h.kind hlt hconvert) ?_ holdSource, hfusable⟩
      refine h.readOnce hg hfuses hpair hg' honce ?_ hlt hu hfirst
      rintro (hk | ⟨-, hk⟩)
      · cases hk.symm.trans (h.kind hlt hconvert)
      · cases (kind_of_inputKind hk holdSource).symm.trans hfusable.kind
  refine ⟨hbehind.1, hbehind.2, ?_, fun v hv => ?_⟩
  · obtain ⟨v, hv, hvalue⟩ := hu'.value
    obtain ⟨hold, hlt⟩ := h.producer_before hg hbefore hu .refl hv
    exact ⟨v, hold, h.isValue hg.wellFormed hlt hvalue⟩
  · obtain ⟨i, hi⟩ := reads_iff.mp hv
    obtain ⟨w, hw, -⟩ := hu'.value
    have hread : g'.Reads u w := reads_iff.mpr ⟨1, hw⟩
    have hne : u ≠ id := h.ne_of_live hread.live
    cases hlive : g'.isLive v with
    | true =>
      have hkept := hu'.unweighted v (reads_iff.mpr ⟨i, h.producer_kept hlive hi hne⟩)
      exact ⟨fun hk => hkept.1 (h.kind_kept hlive hk), fun hk => hkept.2 (h.kind_kept hlive hk)⟩
    | false =>
      cases h.spent_of_lost hg hfuses hpair hg' hv.live hlive with
      | arithmetic => exact hkind
      | conversion _ hk => simp [hk]
      | fakeQuantize => simp [hfuses.fusable.kind]
      | value hvalue => rcases hvalue with hk | ⟨hk, -⟩ <;> simp [hk]

end Merged

end Spent

end RangeFusion

end LowPrecision
