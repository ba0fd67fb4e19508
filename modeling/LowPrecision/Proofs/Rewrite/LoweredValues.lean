import LowPrecision.Proofs.Rewrite.Answers
import LowPrecision.Proofs.Rewrite.Kernels
import LowPrecision.Proofs.Rewrite.MovedValues

namespace LowPrecision

open LowPrecision.Graph

structure Lowered {α : Type} (g g' : Graph α) (rank : NodeId → Nat) (id : NodeId) (op : Op α)
    (operands : List Slot) (scale : Tensor α) (d : Dequantization α) : Prop where
  regular : g'.Regular
  kernel : ∃ f, g'.face? g.nodes.size = some f ∧ f.op = op ∧ f.inputs = operands
  follows : d.Follows g' ⟨g.nodes.size, 0⟩ ⟨scale, none⟩
  old (u : NodeId) (f' : Face α) : u < g.nodes.size → g'.face? u = some f' →
    ∃ f, g.face? u = some f ∧ f.Rewired (behind id (fun _ => d.output) 1) f'
  kept (u : NodeId) : rank id < rank u → g.isLive u = true → g'.isLive u = true
  gone : g'.isLive id = false

section Wires

variable {α : Type} {g g' : Graph α} {rank : NodeId → Nat} {id : NodeId} {n : Node α}
  {operands : List Slot} {scale : Tensor α}

theorem slot_of_single (hg : g.WellFormed) (hn : g.node? id = some n) (hone : n.outputs.length = 1)
    {u : NodeId} {f : Face α} (hf : g.face? u = some f) {i : Nat} {s : Slot} (hs : f.inputs[i]? = some s)
    (hnode : s.node = id) : s = ⟨id, 0⟩ := by
  have hinput : g.input? u i = some s := by rw [input?_eq_face, hf]; exact hs
  obtain ⟨p, hp⟩ := hg.exists_port hinput
  rw [port?_eq, wire?, hnode, hn, Option.bind_some, Option.map_eq_some_iff] at hp
  obtain ⟨w, hw, -⟩ := hp
  have hindex := (List.getElem?_eq_some_iff.mp hw).1
  rw [hone] at hindex
  rw [← hnode, ← Nat.lt_one_iff.mp hindex]

theorem rewired_of_exchange (hg : g.WellFormed) (hn : g.node? id = some n) (hone : n.outputs.length = 1)
    {u new : NodeId} {f : Face α} (hf : g.face? u = some f) (hne : u ≠ new) :
    f.Rewired (behind id (fun _ => ⟨new, 0⟩) 1) (f.replace u id new) := by
  rw [Face.replace, if_neg hne]
  refine ⟨rfl, List.map_congr_left fun s hs => ?_, rfl⟩
  obtain ⟨i, hi⟩ := List.getElem?_of_mem hs
  by_cases hnode : s.node = id
  · rw [slot_of_single hg hn hone hf hi hnode, if_pos rfl]
    exact (if_pos ⟨rfl, Nat.one_pos⟩).symm
  · rw [if_neg hnode, behind_of_ne hnode]

theorem rewired_of_replace (hg : g.WellFormed) (hn : g.node? id = some n) (hone : n.outputs.length = 1)
    {u new : NodeId} {f : Face α} (hf : g.face? u = some f) (hne : u ≠ new) {source : Slot}
    (hsource : source.node ≠ id) :
    f.Rewired (behind id (fun _ => source) 1) ((f.redirect u (n.readers 0) source).replace u id new) := by
  refine ⟨by rw [Face.op_replace, Face.op_redirect], List.ext_getElem? fun i => ?_, ?_⟩
  · rw [Face.replace, if_neg hne, Face.mapInputs, List.getElem?_map, Face.input_redirect, List.getElem?_map,
      Option.map_map]
    refine Option.map_congr fun s hs => ?_
    have hinput : g.input? u i = some s := by rw [input?_eq_face, hf]; exact hs
    have hreaders : g.readers ⟨id, 0⟩ = n.readers 0 := by
      rw [readers, hn]
      rfl
    have hmem : (⟨u, i⟩ : Slot) ∈ n.readers 0 ↔ s = ⟨id, 0⟩ := by
      rw [← hreaders, hg.mem_readers, hinput, Option.some.injEq]
    rw [Function.comp_apply]
    by_cases hsame : s = ⟨id, 0⟩
    · rw [if_pos (hmem.mpr hsame), if_neg hsource, hsame]
      exact (if_pos ⟨rfl, Nat.one_pos⟩).symm
    · have hother : s.node ≠ id := fun he => hsame (slot_of_single hg hn hone hf hs he)
      rw [if_neg fun hs => hsame (hmem.mp hs), if_neg hother, behind_of_ne hother]
  · rw [Face.replace, if_neg hne]
    rfl

section Replaced

variable {g₁ : Graph α} {new : NodeId} {change : NodeId → Face α → Face α}
  (h : Replaced g₁ g' id new (g₁.Exposed (makeRoom g.nodes.size 9 (rank id) rank) id))
  (hface : ∀ u, u < g.nodes.size → g₁.face? u = (g.face? u).map (change u))

include h hface

theorem Graph.Replaced.face_old {u : NodeId} {f' : Face α} (hu : u < g.nodes.size)
    (hf' : g'.face? u = some f') :
    ∃ f, g.face? u = some f ∧ f' = (change u f).replace u id new := by
  rcases h.node u with hkept | ⟨-, hnone⟩
  · rw [hkept, hface u hu, Option.map_map, Option.map_eq_some_iff] at hf'
    obtain ⟨f, hf, rfl⟩ := hf'
    exact ⟨f, hf, rfl⟩
  · rw [hnone] at hf'
    cases hf'

theorem Graph.Replaced.live_above (hid : id < g.nodes.size) {u : NodeId} (hu : rank id < rank u)
    (hlive : g.isLive u = true) : g'.isLive u = true := by
  have hsize : u < g.nodes.size := lt_size_of_isLive hlive
  rcases h.node u with hkept | ⟨hexposed, -⟩
  · rw [isLive_eq_face] at hlive ⊢
    rw [hkept, hface u hsize, Option.isSome_map, Option.isSome_map, hlive]
  · exact absurd hexposed.1 (Nat.not_le.mpr (makeRoom_lt hid hsize hu))

end Replaced

theorem lowered_of_lowerKernel [Arithmetic α] (hg : g.Regular) (hr : g.Ranked rank)
    (hn : g.node? id = some n) (hone : n.outputs.length = 1) (hkind : ¬ n.kind.IsInterface)
    (hcomputes : n.kind ≠ .fakeQuantize)
    (hbelow : ∀ s ∈ operands, rank s.node < rank id ∧ (g.port? s).isSome)
    (hrun : exec (lowerKernel id operands scale) g = .ok (.ok (), g')) :
    ∃ d, Lowered g g' rank id n.op operands scale d := by
  obtain ⟨p, d, g₁, g₂, -, hadded, -, hinsert, hreplace⟩ := lowerKernel_done hg.wellFormed hn hrun
  have hid := lt_size_of_node? hn
  have hsourced := sourced_of_face hadded hbelow rfl
  obtain ⟨_, mid, _, hinsert₁, hins, -, -, -, hreworked⟩ :=
    insert_above hg.wellFormed hr hn hsourced ⟨scale, none⟩ n.name
  cases hinsert.symm.trans hinsert₁
  obtain ⟨_, _, hinsert₂, hinstall⟩ :=
    install_ok hg.wellFormed hr hn hkind hsourced ⟨scale, none⟩ n.name
  cases hinsert.symm.trans hinsert₂
  obtain ⟨_, hreplace₁, hinstalled, hsupplanted⟩ := (hinstall g.nodes.size (.inl rfl)).1 hone
  cases hreplace.symm.trans hreplace₁
  have hface : ∀ u, u < g.nodes.size →
      g₂.face? u = (g.face? u).map (·.redirect u (n.readers 0) d.output) := by
    intro u hu
    rw [hins.face_old (Nat.lt_of_lt_of_le hu hsourced.extended.size), hadded.face, if_neg (Nat.ne_of_lt hu)]
  have hnew := hins.face_old (lt_size_of_face? hadded.new)
  rw [hadded.new, Option.map_some] at hnew
  obtain ⟨_, hreplace₂, hreplaced⟩ := replaceNode_ranked hreworked.wellFormed hreworked.ranked
    (by rw [hface id hid, face?_eq_some.mpr ⟨n, hn, rfl⟩, Option.map_some]) hnew
    (by rw [Face.ports_redirect, Face.ports_redirect, Node.face, List.length_map, hone]; rfl)
    (makeRoom_base_lt hid (Nat.le_refl _))
  cases hreplace.symm.trans hreplace₂
  have hend : g.nodes.size ≤ d.output.node := Nat.le_trans hsourced.extended.size hins.built.new
  refine ⟨d, (hsupplanted.maintains hg hn fun h => absurd h hcomputes).regular,
    ⟨_, hinstalled.new _ _ (Nat.le_refl _) hadded.new, rfl, rfl⟩,
    ⟨hinstalled.data, hinstalled.scale, hinstalled.zeroPoint, hinstalled.stands⟩, fun u f' hu hf' => ?_,
    fun u hu hlive => hreplaced.live_above hface hid hu hlive, by rw [isLive_eq_face, hsupplanted.gone]; rfl⟩
  obtain ⟨f, hf, rfl⟩ := hreplaced.face_old hface hu hf'
  exact ⟨f, hf, rewired_of_replace hg.wellFormed hn hone hf (Nat.ne_of_lt hu)
    fun he => Nat.not_lt.mpr hend (he ▸ hid)⟩

end Wires

structure KeepsReads (g g' : Graph Rat) (v v' : Slot → Option Values) (id : NodeId) : Prop where
  consumers (r s : Slot) : g.input? r.node r.index = some s → s.node = id →
    ∃ s', g'.input? r.node r.index = some s' ∧ v' s' = v s
  rest (r s : Slot) : g.input? r.node r.index = some s → g'.isLive r.node = true →
    ∃ s', g'.input? r.node r.index = some s' ∧ v' s' = v s

theorem Reread.keepsReads {run : Run} {g g' : Graph Rat} {v v' : Slot → Option Values}
    {rank : NodeId → Nat} {id : NodeId} {source : Slot} (h : Reread g g' rank id (fun _ => source) 1)
    (hgone : g'.isLive id = false)
    (hkept : ∀ u, rank id < rank u → g.isLive u = true → g'.isLive u = true)
    (hv : g.Evaluates run v) (hv' : g'.Evaluates run v') (hend : v' source = v ⟨id, 0⟩) :
    KeepsReads g g' v v' id := by
  have hrest : ∀ r s : Slot, g.input? r.node r.index = some s → g'.isLive r.node = true →
      ∃ s', g'.input? r.node r.index = some s' ∧ v' s' = v s := by
    intro r s hs hlive
    have hne : r.node ≠ id := fun he => by rw [he, hgone] at hlive; cases hlive
    obtain ⟨f', hf'⟩ := isLive_iff_face.mp hlive
    obtain ⟨f, hf, hrewired⟩ := h.wired r.node f' (lt_size_of_input? hs) hne hf'
    have hs' : g'.input? r.node r.index = some (behind id (fun _ => source) 1 s) := by
      rw [input?_eq_face, hf, Option.bind_some] at hs
      rw [input?_eq_face, hf', Option.bind_some, hrewired.inputs, List.getElem?_map, hs, Option.map_some]
    refine ⟨_, hs', h.value_read hv hv' (fun k hk _ => ?_) hs hs'⟩
    rw [hend, Nat.lt_one_iff.mp hk]
  refine ⟨fun r s hs hnode => hrest r s hs (hkept _ ?_ ?_), hrest⟩
  · exact hnode ▸ h.ranked _ _ _ hs
  · obtain ⟨m, hm, -⟩ := input?_eq_some.mp hs
    exact isLive_of_node? hm

namespace Lowered

variable {I : Interpretation} {g g' : Graph Rat} {v v' : Slot → Option Values} {rank : NodeId → Nat}
  {id : NodeId} {n : Node Rat} {op : Op Rat} {operands : List Slot} {scale : Tensor Rat}
  {d : Dequantization Rat}

theorem reread (h : Lowered g g' rank id op operands scale d) (hg : g.Regular) (hr : g.Ranked rank)
    (hn : g.node? id = some n) (hone : n.outputs.length = 1) :
    Reread g g' rank id (fun _ => d.output) 1 where
  before := hg
  after := h.regular
  ranked := hr
  ports f hf := by
    obtain ⟨m, hm, rfl⟩ := face?_eq_some.mp hf
    cases hn.symm.trans hm
    rw [Node.face, List.length_map, hone]
  wired u f' hu _ hf' := h.old u f' hu hf'

theorem value_end (h : Lowered g g' rank id op operands scale d)
    (hreread : Reread g g' rank id (fun _ => d.output) 1)
    (hbelow : ∀ s ∈ operands, rank s.node < rank id ∧ (g.port? s).isSome) (hv : I.Evaluates g v)
    (hv' : I.Evaluates g' v') : v' d.output =
      (I.run g.nodes.size op (operands.map v) 0).bind (⟨scale, none⟩ : AffineParams Rat).dequantize := by
  obtain ⟨f, hf, rfl, rfl⟩ := h.kernel
  rw [hv'.follows h.regular h.follows, hv'.eq_run (s := ⟨g.nodes.size, 0⟩) hf]
  refine congrArg (Option.bind · _) (congrArg (I.run _ f.op · 0) (List.map_congr_left fun s hs => ?_))
  obtain ⟨hlt, hport⟩ := hbelow s hs
  obtain ⟨p, hp⟩ := Option.isSome_iff_exists.mp hport
  exact hreread.value_below hv hv' s (lt_size_of_port hp) hlt
    (live_of_mem_inputs h.regular.wellFormed hf hs)

theorem keepsReads (h : Lowered g g' rank id op operands scale d)
    (hreread : Reread g g' rank id (fun _ => d.output) 1) (hv : I.Evaluates g v)
    (hv' : I.Evaluates g' v') (hend : v' d.output = v ⟨id, 0⟩) : KeepsReads g g' v v' id :=
  hreread.keepsReads h.gone h.kept hv hv' hend

end Lowered

end LowPrecision
