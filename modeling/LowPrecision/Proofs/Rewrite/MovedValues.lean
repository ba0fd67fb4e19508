import LowPrecision.Proofs.Graph.Evaluation
import LowPrecision.Proofs.Rewrite.Relocation
import LowPrecision.Proofs.Rewrite.Rules

namespace LowPrecision

open LowPrecision.Graph

variable {I : Interpretation} {g g' : Graph Rat} {v v' : Slot → Option Values} {rank : NodeId → Nat}
  {id : NodeId} {params : AffineParams Rat} {source : Slot} {d chain : Dequantization Rat}

namespace Interpretation

theorem port_of_mem_inputs (hg : g.Regular) {c : NodeId} {f : Face Rat}
    (hf : g.face? c = some f) {s : Slot} (hs : s ∈ f.inputs) : (g.port? s).isSome := by
  obtain ⟨i, hi⟩ := List.getElem?_of_mem hs
  obtain ⟨p, hp⟩ := hg.wellFormed.exists_port (by rw [input?_eq_face, hf]; exact hi : g.input? c i = some s)
  exact Option.isSome_iff_exists.mpr ⟨p, hp⟩

theorem Evaluates.follows (h : I.Evaluates g v) (hg : g.Regular) (hd : d.Follows g source params) :
    v d.output = (v source).bind params.dequantize := by
  have hparams : d.params = params := by
    rw [Dequantization.params, hd.scale, hd.zeroPoint, Option.getD_some]
  have hconverted : v d.converted = v source := by
    rw [Dequantization.converted, hd.data]
    cases hc : d.convert with
    | none => rfl
    | some c =>
      obtain ⟨f, hf, hop, hin⟩ := hd.stands.convert c hc
      rw [Option.map_some, Option.getD_some, h.eq_run (s := ⟨c, 0⟩) hf, hop, hin, List.map_cons,
        I.convert, hd.data]
  have hshifted : v d.shifted = (v source).bind (applyStep (· - ·) d.subtract) := by
    rw [Dequantization.shifted]
    cases hc : d.subtract with
    | none => exact hconverted.trans (Option.bind_fun_some _).symm
    | some step =>
      obtain ⟨f, b, hf, hop, hin, hb⟩ := hd.stands.subtract step.1 step.2 hc
      rw [Option.map_some, Option.getD_some, h.eq_run (s := ⟨step.1, 0⟩) hf, hop, hin, List.map_cons,
        List.map_cons, I.subtract, hconverted,
        h.constantValue hg (port_of_mem_inputs hg hf (by simp [hin])) hb]
      rfl
  have houtput : v d.output = (v d.shifted).bind (applyStep (· * ·) d.multiply) := by
    rw [Dequantization.output_eq]
    cases hc : d.multiply with
    | none => exact (Option.bind_fun_some _).symm
    | some step =>
      obtain ⟨f, b, hf, hop, hin, hb⟩ := hd.stands.multiply step.1 step.2 hc
      rw [Option.map_some, Option.getD_some, h.eq_run (s := ⟨step.1, 0⟩) hf, hop, hin, List.map_cons,
        List.map_cons, I.multiply, h.constant hg (port_of_mem_inputs hg hf (by simp [hin])) hb]
      rfl
  rw [houtput, hshifted, Option.bind_assoc, ← hparams]
  refine Option.bind_congr fun x _ => ?_
  rw [AffineParams.dequantize, applyStep_subtract]
  exact Option.bind_congr fun y _ => applyStep_multiply d y

end Interpretation

theorem live_of_mem_inputs (hg' : g'.WellFormed) {c : NodeId} {f' : Face Rat}
    (hf' : g'.face? c = some f') {s : Slot} (hs : s ∈ f'.inputs) : g'.isLive s.node = true := by
  obtain ⟨i, hi⟩ := List.getElem?_of_mem hs
  obtain ⟨n, hn⟩ := hg'.live_of_input (by rw [input?_eq_face, hf']; exact hi : g'.input? c i = some s)
  exact isLive_of_node? hn

structure Reread (g g' : Graph Rat) (rank : NodeId → Nat) (id : NodeId) (ends : Nat → Slot)
    (count : Nat) : Prop where
  before : g.Regular
  after : g'.Regular
  ranked : g.Ranked rank
  ports (f : Face Rat) : g.face? id = some f → f.ports.length = count
  wired (u : NodeId) (f' : Face Rat) : u < g.nodes.size → u ≠ id → g'.face? u = some f' →
    ∃ f, g.face? u = some f ∧ f.Rewired (behind id ends count) f'

namespace Reread

variable {run : Run} {ends : Nat → Slot} {count : Nat} (h : Reread g g' rank id ends count)

include h

theorem index_lt {s : Slot} (hnode : s.node = id) (hread : g.IsRead s) : s.index < count := by
  obtain ⟨u, i, hi⟩ := hread
  obtain ⟨p, hp⟩ := h.before.wellFormed.exists_port hi
  rw [port?_eq_face, hnode] at hp
  obtain ⟨f, hf, hp⟩ := Option.bind_eq_some_iff.mp hp
  exact h.ports f hf ▸ (List.getElem?_eq_some_iff.mp hp).1

theorem value_below (hv : g.Evaluates run v) (hv' : g'.Evaluates run v') (s : Slot)
    (hs : s.node < g.nodes.size) (hlt : rank s.node < rank id) (hlive : g'.isLive s.node = true) :
    v' s = v s := by
  induction hn : rank s.node using Nat.strongRecOn generalizing s with
  | _ n ih =>
    subst hn
    have hne : s.node ≠ id := fun he => Nat.ne_of_lt hlt (congrArg rank he)
    obtain ⟨f', hf'⟩ := isLive_iff_face.mp hlive
    obtain ⟨k, hk, hrewired⟩ := h.wired s.node f' hs hne hf'
    have hbelow : ∀ t ∈ k.inputs, rank t.node < rank s.node := ranked_iff_face.mp h.ranked _ k hk
    have hinputs : f'.inputs = k.inputs := by
      rw [hrewired.inputs, List.map_congr_left, List.map_id']
      exact fun t ht => behind_of_ne fun he =>
        Nat.lt_irrefl _ (Nat.lt_trans (he ▸ hbelow t ht) hlt)
    rw [hv'.eq_run hf', hv.eq_run hk, hrewired.op, hinputs]
    refine congrArg (run s.node k.op · s.index) (List.map_congr_left fun t ht => ?_)
    exact ih _ (hbelow t ht) t (h.before.wellFormed.lt_size_of_input hk ht)
      (Nat.lt_trans (hbelow t ht) hlt) (live_of_mem_inputs h.after.wellFormed hf' (hinputs ▸ ht)) rfl

theorem value_kept (hv : g.Evaluates run v) (hv' : g'.Evaluates run v')
    (hends : ∀ k < count, g.IsRead ⟨id, k⟩ → v' (ends k) = v ⟨id, k⟩) (s : Slot)
    (hs : s.node < g.nodes.size) (hlive : s.node ≠ id → g'.isLive s.node = true)
    (hread : s.node = id → g.IsRead s) : v' (behind id ends count s) = v s := by
  -- by the rank in the old graph, in which the outputs of the node are read directly
  induction hn : rank s.node using Nat.strongRecOn generalizing s with
  | _ n ih =>
    subst hn
    by_cases hnode : s.node = id
    · have hindex := h.index_lt hnode (hread hnode)
      have hslot : (⟨id, s.index⟩ : Slot) = s := by rw [← hnode]
      rw [behind, if_pos ⟨hnode, hindex⟩, hends _ hindex (hslot ▸ hread hnode), hslot]
    · obtain ⟨f', hf'⟩ := isLive_iff_face.mp (hlive hnode)
      obtain ⟨k, hk, hrewired⟩ := h.wired s.node f' hs hnode hf'
      rw [behind_of_ne hnode, hv'.eq_run hf', hv.eq_run hk, hrewired.op, hrewired.inputs, List.map_map]
      refine congrArg (run s.node k.op · s.index) (List.map_congr_left fun t ht => ?_)
      refine ih _ (ranked_iff_face.mp h.ranked _ k hk t ht) t
        (h.before.wellFormed.lt_size_of_input hk ht) (fun hne => ?_) (fun _ => ?_) rfl
      · refine live_of_mem_inputs h.after.wellFormed hf' ?_
        rw [hrewired.inputs]
        exact List.mem_map.mpr ⟨t, ht, behind_of_ne hne⟩
      · obtain ⟨i, hi⟩ := List.getElem?_of_mem ht
        exact ⟨s.node, i, by rw [input?_eq_face, hk]; exact hi⟩

theorem value_read (hv : g.Evaluates run v) (hv' : g'.Evaluates run v')
    (hends : ∀ k < count, g.IsRead ⟨id, k⟩ → v' (ends k) = v ⟨id, k⟩) {r s : Slot}
    (hs : g.input? r.node r.index = some s)
    (hs' : g'.input? r.node r.index = some (behind id ends count s)) :
    v' (behind id ends count s) = v s := by
  obtain ⟨p, hp⟩ := h.before.wellFormed.exists_port hs
  refine h.value_kept hv hv' hends s (lt_size_of_port hp) (fun hne => ?_) fun _ => ⟨_, _, hs⟩
  rw [behind_of_ne hne] at hs'
  obtain ⟨n, hn⟩ := h.after.wellFormed.live_of_input hs'
  exact isLive_of_node? hn

end Reread

def movedValue (I : Interpretation) (v : Slot → Option Values) (id : NodeId) (f : Face Rat)
    (chain : Dequantization Rat) (params : AffineParams Rat) (k : Nat) : Option Values :=
  (I.run id f.op (v chain.data :: f.inputs.tail.map v) k).bind params.dequantize

structure Relocation (g g' : Graph Rat) (rank : NodeId → Nat) (id : NodeId) (f : Face Rat)
    (chain : Dequantization Rat) (params : AffineParams Rat) (ends : Nat → Slot) : Prop extends
    Moved g g' rank id chain params ends f.ports.length where
  before : g.Regular
  after : g'.Regular
  ranked : g.Ranked rank
  face : g.face? id = some f
  input : ∃ first rest, f.inputs = first :: rest
  last : rank chain.output.node < rank id
  data : rank chain.data.node < rank id
  port : (g.port? chain.data).isSome

namespace Relocation

variable {f : Face Rat} {ends : Nat → Slot} (h : Relocation g g' rank id f chain params ends)

include h

theorem live : g'.isLive id = true := by
  refine h.kept id h.last ?_
  rw [isLive_eq_face, h.face]
  rfl

theorem face_moved : ∃ f', g'.face? id = some f' ∧ f'.op = f.op ∧
    f'.inputs = chain.data :: f.inputs.tail := by
  obtain ⟨f', hf'⟩ := isLive_iff_face.mp h.live
  obtain ⟨f₀, hf₀, hrewired⟩ := h.old id f' (lt_size_of_face? h.face) hf'
  cases h.face.symm.trans hf₀
  obtain ⟨first, rest, hin⟩ := h.input
  refine ⟨f', hf', hrewired.op, ?_⟩
  rw [hrewired.inputs, Face.redirect_head hin, hin, List.tail_cons, List.map_congr_left, List.map_id']
  refine fun t ht => behind_of_ne fun he => ?_
  have hlt : rank t.node < rank id := by
    rcases List.mem_cons.mp ht with rfl | ht
    · exact h.data
    · exact ranked_iff_face.mp h.ranked id f h.face t (hin ▸ List.mem_cons_of_mem _ ht)
  rw [he] at hlt
  exact Nat.lt_irrefl _ hlt

theorem reread : Reread g g' rank id ends f.ports.length where
  before := h.before
  after := h.after
  ranked := h.ranked
  ports k hk := by rw [Option.some.inj (hk.symm.trans h.face)]
  wired u f' hu hne hf' := by
    obtain ⟨k, hk, hrewired⟩ := h.old u f' hu hf'
    rw [Face.redirect_of_not_mem (by simp [hne])] at hrewired
    exact ⟨k, hk, hrewired⟩

theorem value_ends (hv : I.Evaluates g v) (hv' : I.Evaluates g' v') {k : Nat} (hk : k < f.ports.length)
    (hread : g.IsRead ⟨id, k⟩) : v' (ends k) = movedValue I v id f chain params k := by
  obtain ⟨f', hf', hop, hin⟩ := h.face_moved
  obtain ⟨d, hd, hfollows⟩ := h.follows k hk hread
  have hvalues : f'.inputs.map v' = v chain.data :: f.inputs.tail.map v := by
    rw [hin, ← List.map_cons]
    refine List.map_congr_left fun t ht => ?_
    have hlive := live_of_mem_inputs h.wellFormed hf' (hin ▸ ht)
    rcases List.mem_cons.mp ht with rfl | ht
    · obtain ⟨p, hp⟩ := Option.isSome_iff_exists.mp h.port
      exact h.reread.value_below hv hv' _ (lt_size_of_port hp) h.data hlive
    · have hmem := List.mem_of_mem_tail ht
      exact h.reread.value_below hv hv' t (h.before.wellFormed.lt_size_of_input h.face hmem)
        (ranked_iff_face.mp h.ranked id f h.face t hmem) hlive
  rw [← hd, hv'.follows h.after hfollows, hv'.eq_run (s := ⟨id, k⟩) hf', hvalues, hop]
  rfl

theorem input_kept {r s : Slot} (hs : g.input? r.node r.index = some s) (hr : r ≠ ⟨id, 0⟩)
    (hlive : g'.isLive r.node = true) :
    g'.input? r.node r.index = some (behind id ends f.ports.length s) := by
  obtain ⟨f', hf'⟩ := isLive_iff_face.mp hlive
  rw [input?_eq_face] at hs
  obtain ⟨k₀, hk₀, hi₀⟩ := Option.bind_eq_some_iff.mp hs
  obtain ⟨k, hk, hrewired⟩ := h.old r.node f' (lt_size_of_face? hk₀) hf'
  cases hk₀.symm.trans hk
  have hnot : (⟨r.node, r.index⟩ : Slot) ∉ [(⟨id, 0⟩ : Slot)] :=
    fun hmem => hr (List.mem_singleton.mp hmem)
  rw [input?_eq_face, hf', Option.bind_some, hrewired.inputs, List.getElem?_map, Face.input_redirect,
    hi₀, Option.map_some, if_neg hnot]
  rfl

theorem live_reader {r s : Slot} (hs : g.input? r.node r.index = some s)
    (hnode : s.node = id ∨ s.node = chain.output.node) : g'.isLive r.node = true := by
  obtain ⟨n, hn, -⟩ := input?_eq_some.mp hs
  refine h.kept _ (Nat.lt_of_le_of_lt ?_ (h.ranked _ _ _ hs)) (isLive_of_node? hn)
  rcases hnode with hnode | hnode
  · exact hnode ▸ Nat.le_of_lt h.last
  · exact hnode ▸ Nat.le_refl _

theorem ne_first {r s : Slot} (hs : g.input? r.node r.index = some s) (hnode : s.node = id) :
    r ≠ ⟨id, 0⟩ := by
  rintro rfl
  have hself := h.ranked _ _ _ hs
  rw [hnode] at hself
  exact Nat.lt_irrefl _ hself

theorem links {c : NodeId} (hc : c ∈ chain.nodes) : g'.isLive c = false ↔ ∀ r s : Slot,
    g.input? r.node r.index = some s → s.node = c → r = ⟨id, 0⟩ ∨ g'.isLive r.node = false := by
  rw [h.removed c hc]
  constructor
  · intro hall r s hs hnode
    refine (hall r.node r.index s hs hnode).imp_left fun hslot => ?_
    rw [← hslot.1, ← hslot.2]
  · intro hall u i s hs hnode
    exact (hall ⟨u, i⟩ s hs hnode).imp_left Slot.mk.inj

end Relocation

/-- The slots that read outputs of an operation, or the chain in front of it, read what they read
before, and so does all else that is left. The chain is gone where nothing else reads it. -/
structure PreservesReads (g g' : Graph Rat) (v v' : Slot → Option Values) (id : NodeId)
    (chain : Dequantization Rat) : Prop where
  consumers (r s : Slot) : g.input? r.node r.index = some s → s.node = id →
    ∃ s', g'.input? r.node r.index = some s' ∧ v' s' = v s
  sharers (r s : Slot) : g.input? r.node r.index = some s → s.node = chain.output.node → r ≠ ⟨id, 0⟩ →
    ∃ s', g'.input? r.node r.index = some s' ∧ v' s' = v s
  rest (r s : Slot) : g.input? r.node r.index = some s → r ≠ ⟨id, 0⟩ → g'.isLive r.node = true →
    ∃ s', g'.input? r.node r.index = some s' ∧ v' s' = v s
  removed : g'.isLive chain.output.node = false ↔
    ∀ r s : Slot, g.input? r.node r.index = some s → s.node = chain.output.node → r = ⟨id, 0⟩
  links (c : NodeId) : c ∈ chain.nodes → (g'.isLive c = false ↔ ∀ r s : Slot,
    g.input? r.node r.index = some s → s.node = c → r = ⟨id, 0⟩ ∨ g'.isLive r.node = false)

theorem mem_nodes_output {d : Dequantization Rat} {output : Slot}
    (h : Dequantization.ofOutput g output = some d) : d.output.node ∈ d.nodes := by
  obtain ⟨scaled, shifted, p, -, -, -, -, hquantized⟩ := Dequantization.ofOutput_eq_some h
  obtain ⟨data, convert, subtract, multiply⟩ := d
  cases multiply <;> cases subtract <;> cases convert <;>
    simp_all [Dequantization.output, Dequantization.nodes]

theorem exists_relocation {f : Face Rat} (hg : g.Regular) (hf : g.face? id = some f)
    (hchain : Dequantization.ofInput g id 0 = some chain) {updatePrecision : Bool}
    (hrun : exec (moveDequantization id chain params updatePrecision) g = .ok (.ok (), g')) :
    ∃ rank ends, Relocation g g' rank id f chain params ends := by
  obtain ⟨rank, hr⟩ := hg.acyclic
  obtain ⟨ends, hmoved⟩ := moved_of_moveDequantization hg.wellFormed hr hf hchain hrun
  obtain ⟨output, hi, hlt, hid, p, hp⟩ := Dequantization.ofInput_below hr hchain
  have houtput : Dequantization.ofOutput g output = some chain := by
    rw [Dequantization.ofInput, hi] at hchain
    exact hchain
  obtain ⟨rest, hin⟩ : ∃ rest, f.inputs = output :: rest := by
    obtain ⟨n, hn, rfl⟩ := face?_eq_some.mp hf
    rw [Graph.input?, hn] at hi
    exact exists_cons_of_first hi
  have hdata := Nat.lt_trans hlt hid
  obtain ⟨g₁, g'', hexec, hread, h⟩ :=
    moveDequantization_ok hg.wellFormed hr hf hin hdata hp params updatePrecision
  cases hexec.symm.trans hrun
  refine ⟨rank, ends, hmoved, hg, (Rule.moved_maintains hg hr hdata hread h).regular, hr, hf,
    ⟨_, _, hin⟩, ?_, hdata, Option.isSome_iff_exists.mpr ⟨p, hp⟩⟩
  rwa [Dequantization.output_node houtput]

theorem preservesReads_iff {f : Face Rat} (hg : g.Regular) (hf : g.face? id = some f)
    (hchain : Dequantization.ofInput g id 0 = some chain) {updatePrecision : Bool}
    (hrun : exec (moveDequantization id chain params updatePrecision) g = .ok (.ok (), g'))
    (hv : I.Evaluates g v) (hv' : I.Evaluates g' v') : PreservesReads g g' v v' id chain ↔
      ∀ k, g.IsRead ⟨id, k⟩ → v ⟨id, k⟩ = movedValue I v id f chain params k := by
  obtain ⟨rank, ends, h⟩ := exists_relocation hg hf hchain hrun
  constructor
  · rintro hreads k ⟨u, i, hi⟩
    obtain ⟨s', hs', hsame⟩ := hreads.consumers ⟨u, i⟩ ⟨id, k⟩ hi rfl
    have hindex := h.reread.index_lt (s := ⟨id, k⟩) rfl ⟨u, i, hi⟩
    have hmoved := h.input_kept (r := ⟨u, i⟩) hi (h.ne_first (r := ⟨u, i⟩) hi rfl)
      (h.live_reader (r := ⟨u, i⟩) hi (.inl rfl))
    cases hs'.symm.trans hmoved
    rw [← hsame, behind, if_pos ⟨rfl, hindex⟩, h.value_ends hv hv' hindex ⟨u, i, hi⟩]
  · -- The ends of the chains are the only outputs that old nodes newly read.
    intro hcommutes
    have hrest : ∀ r s : Slot, g.input? r.node r.index = some s → r ≠ ⟨id, 0⟩ →
        g'.isLive r.node = true → ∃ s', g'.input? r.node r.index = some s' ∧ v' s' = v s := by
      intro r s hs hr hlive
      have hinput := h.input_kept hs hr hlive
      refine ⟨_, hinput, h.reread.value_read hv hv' (fun k hk hread => ?_) hs hinput⟩
      rw [h.value_ends hv hv' hk hread, hcommutes k hread]
    refine ⟨fun r s hs hnode => ?_, fun r s hs hnode hr => ?_, hrest, ?_, fun c hc => h.links hc⟩
    · exact hrest r s hs (h.ne_first hs hnode) (h.live_reader hs (.inl hnode))
    · exact hrest r s hs hr (h.live_reader hs (.inr hnode))
    · obtain ⟨output, -, hd⟩ := Option.bind_eq_some_iff.mp hchain
      rw [h.links (mem_nodes_output hd)]
      refine forall_congr' fun r => forall₃_congr fun s hs hnode => or_iff_left ?_
      rw [h.live_reader hs (.inr hnode)]
      exact Bool.noConfusion

end LowPrecision
