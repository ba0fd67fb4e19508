import LowPrecision.Proofs.Graph.Regular
import LowPrecision.Proofs.Graph.Succession
import LowPrecision.Proofs.Quantization.Chains

namespace LowPrecision

variable {α : Type} {g g₁ g₂ g' : Graph α} {old new u v : NodeId} {i : Nat} {k : OpKind}

def OpKind.inputCount? : OpKind → Option Nat
  | .constant => some 0
  | .convert => some 1
  | .fakeQuantize => some 5
  | _ => none

namespace Graph

structure RegularArity (g : Graph α) : Prop extends Regular g where
  inputs (v : NodeId) (f : Face α) (count : Nat) : g.face? v = some f → f.kind.inputCount? = some count →
    f.inputs.length = count

theorem assemble_regularArity {nodes : List (String × Op α × List Slot × List Port)}
    (houtputs : ∀ n ∈ nodes, n.2.1.kind.HasOneOutput → n.2.2.2.length = 1)
    (hinputs : ∀ n ∈ nodes, ∀ count ∈ n.2.1.kind.inputCount?, n.2.2.1.length = count) :
    (assemble nodes).RegularArity where
  toRegular := assemble_regular houtputs
  inputs v f count hf hcount := by
    obtain ⟨n, hn, rfl⟩ := assemble_face hf
    exact hinputs n hn count hcount

section Producers

theorem producer?_eq_some : g.producer? v i = some u ↔ ∃ s, g.input? v i = some s ∧ s.node = u :=
  Option.map_eq_some_iff

theorem reads_iff : g.Reads v u ↔ ∃ i, g.producer? v i = some u :=
  exists_congr fun _ => producer?_eq_some.symm

theorem reads_iff_face : g.Reads v u ↔ ∃ f s, g.face? v = some f ∧ s ∈ f.inputs ∧ s.node = u := by
  constructor
  · rintro ⟨i, s, hs, hu⟩
    rw [input?_eq_face] at hs
    obtain ⟨f, hf, hs⟩ := Option.bind_eq_some_iff.mp hs
    exact ⟨f, s, hf, List.mem_of_getElem? hs, hu⟩
  · rintro ⟨f, s, hf, hs, hu⟩
    obtain ⟨i, hi⟩ := List.getElem?_of_mem hs
    exact ⟨i, s, by rw [input?_eq_face, hf]; exact hi, hu⟩

theorem lt_size_of_kind (h : g.kind? v = some k) : v < g.nodes.size := by
  obtain ⟨n, hn, -⟩ := Option.map_eq_some_iff.mp h
  exact lt_size_of_node? hn

theorem isLive_of_kind (h : g.kind? v = some k) : g.isLive v = true := by
  obtain ⟨n, hn, -⟩ := Option.map_eq_some_iff.mp h
  exact isLive_of_node? hn

theorem WellFormed.lt_size_of_producer (h : g.WellFormed) (hi : g.producer? v i = some u) :
    u < g.nodes.size := by
  obtain ⟨n, hn⟩ := Option.isSome_iff_exists.mp (h.live_of_reads (reads_iff.mpr ⟨i, hi⟩))
  exact lt_size_of_node? hn

theorem kind_of_inputKind (h : g.inputKind? v i = some k) (hi : g.producer? v i = some u) :
    g.kind? u = some k := by
  rwa [inputKind?, hi, Option.bind_some] at h

theorem RegularArity.index_lt (h : g.RegularArity) (hk : g.kind? v = some k) {count : Nat}
    (hcount : k.inputCount? = some count) (hi : g.producer? v i = some u) : i < count := by
  obtain ⟨f, hf, rfl⟩ := face_of_kind hk
  obtain ⟨s, hs, -⟩ := producer?_eq_some.mp hi
  rw [input?_eq_face, hf] at hs
  exact h.inputs v f count hf hcount ▸ (List.getElem?_eq_some_iff.mp hs).1

theorem RegularArity.not_reads (h : g.RegularArity) (hk : g.kind? v = some .constant) : ¬ g.Reads v u :=
  fun hread => by
    obtain ⟨i, hi⟩ := reads_iff.mp hread
    exact Nat.not_lt_zero i (h.index_lt hk rfl hi)

def ReadOnce (g : Graph α) (v : NodeId) : Prop := ∃ n, g.node? v = some n ∧ n.readerCount = 1

theorem WellFormed.readOnce_iff (h : g.WellFormed) :
    g.ReadOnce v ↔ ∃ r : Slot, ∀ w i, g.producer? w i = some v ↔ (⟨w, i⟩ : Slot) = r := by
  constructor
  · rintro ⟨n, hn, hcount⟩
    obtain ⟨r, hr⟩ := List.length_eq_one_iff.mp hcount
    refine ⟨r, fun w i => ?_⟩
    rw [producer?_eq_some, ← List.mem_singleton, ← hr, h.mem_allReaders hn]
  · rintro ⟨r, hr⟩
    obtain ⟨s, hs, rfl⟩ := producer?_eq_some.mp ((hr r.node r.index).mpr rfl)
    obtain ⟨n, hn⟩ := h.live_of_input hs
    refine ⟨n, hn, ?_⟩
    have hperm : n.allReaders.Perm [r] :=
      (List.perm_ext_iff_of_nodup (h.nodup_allReaders hn) (List.nodup_singleton r)).mpr fun q => by
        rw [h.mem_allReaders hn, List.mem_singleton]
        exact producer?_eq_some.symm.trans (hr q.node q.index)
    exact hperm.length_eq

end Producers

section Trades

structure Traded (g g' : Graph α) (old new : NodeId) : Prop where
  fresh : g.nodes.size ≤ new
  stays : g'.isLive new = true
  face (v : NodeId) (f' : Face α) : v < g.nodes.size → g'.face? v = some f' →
    ∃ f, g.face? v = some f ∧ f' = f.replace v old new
  gone : g'.isLive old = false
  lost (P : NodeId → Prop) : P old → (∀ u v, P u → g.Reads u v → g'.isLive v = false → P v) →
    ∀ v, g.isLive v = true → g'.isLive v = false → P v

section Extension

variable {p : Slot → Prop} (he : g.Extends g₁ p) (hp : ∀ s, p s → s.node ≠ old)
  (hold : old < g.nodes.size) (hd : Displaced g₁ g₂ old new)

include he hp hold

theorem Extends.not_reads {f : Face α} (hv : g.nodes.size ≤ v) (hf : g₁.face? v = some f) :
    ∀ s ∈ f.inputs, s.node ≠ old := by
  rintro s hs rfl
  exact hp s ((he.inputs v f hv hf s hs).1 hold) rfl

include hd

theorem Displaced.face_fresh {f : Face α} (hv : g.nodes.size ≤ v) (hf : g₂.face? v = some f) :
    g₁.face? v = some f := by
  obtain ⟨k, hk, rfl⟩ := hd.face v f hf
  rw [Face.replace_of_not_mem (he.not_reads hp hold hv hk), hk]

theorem Displaced.traded {n : Node α} (hg : g.WellFormed) (hnew : g.nodes.size ≤ new)
    (hn : g.node? old = some n) (hkind : ¬ n.kind.IsInterface) (hfaces : ∀ v, g'.face? v = g₂.face? v) :
    g.Traded g' old new := by
  have hlive : ∀ v, g'.isLive v = g₂.isLive v := fun v => by rw [isLive_eq_face, hfaces, ← isLive_eq_face]
  refine ⟨hnew, (hlive new).trans hd.stays, fun v f' hv hf' => ?_, ?_, fun P hP hup v hv hlost => ?_⟩
  · obtain ⟨f, hf, hreplaced⟩ := hd.face v f' ((hfaces v).symm.trans hf')
    exact ⟨f, (he.old v hv).symm.trans hf, hreplaced⟩
  · rw [hlive]
    refine hd.gone (fun f hf => ?_) (Nat.ne_of_lt (Nat.lt_of_lt_of_le hold hnew)) fun hread => ?_
    · cases hf.symm.trans (he.face (face?_eq_some.mpr ⟨n, hn, rfl⟩))
      exact hkind
    · obtain ⟨f, s, hf, hs, hnode⟩ := reads_iff_face.mp hread
      exact he.not_reads hp hold hnew hf s hs hnode
  · obtain ⟨m, hm⟩ := Option.isSome_iff_exists.mp hv
    have hv₁ : g₁.isLive v = true := by
      rw [isLive_eq_face, he.old v (lt_size_of_node? hm), ← isLive_eq_face, hv]
    refine (hd.lost (fun v => v < g.nodes.size ∧ P v) ⟨hold, hP⟩ (fun u w hu hread hw => ?_) v hv₁
      ((hlive v).symm.trans hlost)).2
    obtain ⟨f, s, hf, hs, hnode⟩ := reads_iff_face.mp hread
    have hread : g.Reads u w := reads_iff_face.mpr ⟨f, s, (he.old u hu.1).symm.trans hf, hs, hnode⟩
    obtain ⟨i, hi⟩ := reads_iff.mp hread
    exact ⟨hg.lt_size_of_producer hi, hup u w hu.2 hread ((hlive w).trans hw)⟩

omit hp hold

theorem Displaced.gone_behind {n : Node α} (hg : g.WellFormed) (hnew : g.nodes.size ≤ new)
    (hu : g₂.isLive u = false) (hi : g.producer? u i = some v) (hn : g.node? v = some n)
    (hcount : n.readerCount = 1) (hkind : ¬ n.kind.IsInterface) (hv : v ≠ old)
    (hpv : ∀ s, p s → s.node ≠ v) : g₂.isLive v = false := by
  have hsize := lt_size_of_node? hn
  obtain ⟨s, hs, hnode⟩ := producer?_eq_some.mp hi
  have honly := (onlyReadBy_of_count hg hn hcount hs hnode).extends he hsize hpv
  obtain ⟨f, t, hf, ht, htv⟩ := reads_iff_face.mp (reads_iff.mpr ⟨i, hi⟩)
  refine hd.behind u v (reads_iff_face.mpr ⟨f, t, he.face hf, ht, htv⟩) hv
    (Nat.ne_of_lt (Nat.lt_of_lt_of_le hsize hnew)) (fun k hk => ?_) fun w hw => ?_
  · cases hk.symm.trans (he.face (face?_eq_some.mpr ⟨n, hn, rfl⟩))
    exact hkind
  · obtain ⟨j, r, hr, hread⟩ := hw
    exact honly w j r hr hread ▸ hu

end Extension

namespace Traded

variable (h : g.Traded g' old new)

include h

theorem ne_of_live (hlive : g'.isLive v = true) : v ≠ old := by
  rintro rfl
  rw [h.gone] at hlive
  cases hlive

theorem kind (hv : v < g.nodes.size) (hk : g'.kind? v = some k) : g.kind? v = some k := by
  obtain ⟨f', hf', rfl⟩ := face_of_kind hk
  obtain ⟨f, hf, rfl⟩ := h.face v f' hv hf'
  rw [kind?_eq_face, hf, Option.map_some, Face.kind, Face.kind, Face.op_replace]

theorem kind_kept (hlive : g'.isLive v = true) (hk : g.kind? v = some k) : g'.kind? v = some k := by
  obtain ⟨f', hf'⟩ := isLive_iff_face.mp hlive
  have hk' : g'.kind? v = some f'.kind := by rw [kind?_eq_face, hf', Option.map_some]
  rw [hk', ← hk, h.kind (lt_size_of_kind hk) hk']

theorem input_cases {s : Slot} (hv : v < g.nodes.size) (hs : g'.input? v i = some s) :
    g.input? v i = some s ∧ s.node ≠ old ∨ s.node = new ∧ g.producer? v i = some old := by
  rw [input?_eq_face] at hs
  obtain ⟨f', hf', hs⟩ := Option.bind_eq_some_iff.mp hs
  obtain ⟨f, hf, rfl⟩ := h.face v f' hv hf'
  rw [Face.input_replace] at hs
  obtain ⟨t, ht, rfl⟩ := Option.map_eq_some_iff.mp hs
  have hread : g.input? v i = some t := by rw [input?_eq_face, hf]; exact ht
  by_cases hmoved : t.node = old
  · rw [if_pos ⟨Nat.ne_of_lt (Nat.lt_of_lt_of_le hv h.fresh), hmoved⟩]
    exact .inr ⟨rfl, producer?_eq_some.mpr ⟨t, hread, hmoved⟩⟩
  · rw [if_neg fun hboth => hmoved hboth.2]
    exact .inl ⟨hread, hmoved⟩

theorem input_kept {s : Slot} (hlive : g'.isLive v = true) (hs : g.input? v i = some s)
    (hold : s.node ≠ old) : g'.input? v i = some s := by
  obtain ⟨n, hn, -⟩ := input?_eq_some.mp hs
  obtain ⟨f', hf'⟩ := isLive_iff_face.mp hlive
  obtain ⟨f, hf, rfl⟩ := h.face v f' (lt_size_of_node? hn) hf'
  rw [input?_eq_face, hf] at hs
  rw [input?_eq_face, hf', Option.bind_some, Face.input_replace, show f.inputs[i]? = some s from hs,
    Option.map_some, if_neg fun hboth => hold hboth.2]

theorem producer_cases (hv : v < g.nodes.size) (hi : g'.producer? v i = some u) :
    g.producer? v i = some u ∧ u ≠ old ∨ u = new ∧ g.producer? v i = some old := by
  obtain ⟨s, hs, rfl⟩ := producer?_eq_some.mp hi
  exact (h.input_cases hv hs).imp_left fun hkept => ⟨producer?_eq_some.mpr ⟨s, hkept.1, rfl⟩, hkept.2⟩

theorem producer_kept (hlive : g'.isLive v = true) (hi : g.producer? v i = some u) (hu : u ≠ old) :
    g'.producer? v i = some u := by
  obtain ⟨s, hs, rfl⟩ := producer?_eq_some.mp hi
  exact producer?_eq_some.mpr ⟨s, h.input_kept hlive hs hu, rfl⟩

theorem producer_old (hv : v < g.nodes.size) (hu : u < g.nodes.size) (hi : g'.producer? v i = some u) :
    g.producer? v i = some u := by
  rcases h.producer_cases hv hi with ⟨hi, -⟩ | ⟨rfl, -⟩
  · exact hi
  · exact absurd hu (Nat.not_lt.mpr h.fresh)

theorem size_le : g.nodes.size ≤ g'.nodes.size := by
  obtain ⟨n, hn⟩ := Option.isSome_iff_exists.mp h.stays
  exact Nat.le_trans h.fresh (Nat.le_of_lt (lt_size_of_node? hn))

theorem constant_of_lost (hg : g.RegularArity) (hsource : ∀ u, g.Reads old u → g.kind? u = some .constant)
    (hlive : g.isLive v = true) (hlost : g'.isLive v = false) : v = old ∨ g.kind? v = some .constant := by
  refine h.lost (fun v => v = old ∨ g.kind? v = some .constant) (.inl rfl) (fun u v hu hread _ => ?_) v hlive hlost
  rcases hu with rfl | hk
  · exact .inr (hsource v hread)
  · exact absurd hread (hg.not_reads hk)

theorem regularArity (hg : g.RegularArity) (hregular : g'.Regular)
    (hnew : ∀ v f, g.nodes.size ≤ v → g'.face? v = some f → f.kind.inputCount? = some f.inputs.length) :
    g'.RegularArity where
  toRegular := hregular
  inputs v f' count hf' hcount := by
    rcases Nat.lt_or_ge v g.nodes.size with hlt | hge
    · obtain ⟨f, hf, rfl⟩ := h.face v f' hlt hf'
      rw [Face.kind, Face.op_replace] at hcount
      rw [Face.length_inputs_replace, hg.inputs v f count hf hcount]
    · exact Option.some.inj ((hnew v f' hge hf').symm.trans hcount)

end Traded

end Trades

end Graph

end LowPrecision
