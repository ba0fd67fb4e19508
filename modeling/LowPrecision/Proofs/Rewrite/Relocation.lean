import LowPrecision.Proofs.Graph.DeadCone
import LowPrecision.Proofs.Rewrite.Moves

/-!
The wires around a dequantization that has moved behind an operation. Each output that was read has
its own chain, and what read the output reads the end of the chain.
-/

namespace LowPrecision

variable {α : Type} {g₀ g g₁ g' : Graph α} {id : NodeId} {params : AffineParams α} {source : Slot}
  {ends : Nat → Slot} {index : Nat} {d : Dequantization α}

structure Face.Rewired (move : Slot → Slot) (f f' : Face α) : Prop where
  op : f'.op = f.op
  inputs : f'.inputs = f.inputs.map move
  ports : f'.ports.length = f.ports.length

namespace Face.Rewired

variable {move move' : Slot → Slot} {f f' f'' : Face α}

theorem refl (f : Face α) : f.Rewired (fun s => s) f := ⟨rfl, (List.map_id' _).symm, rfl⟩

theorem trans (h : f.Rewired move f') (h' : f'.Rewired move' f'') :
    f.Rewired (fun s => move' (move s)) f'' where
  op := h'.op.trans h.op
  inputs := by rw [h'.inputs, h.inputs, List.map_map]; rfl
  ports := h'.ports.trans h.ports

theorem congr (h : f.Rewired move f') (hmove : ∀ s ∈ f.inputs, move s = move' s) :
    f.Rewired move' f' := ⟨h.op, h.inputs.trans (List.map_congr_left hmove), h.ports⟩

end Face.Rewired

structure Dequantization.Follows (d : Dequantization α) (g : Graph α) (source : Slot)
    (params : AffineParams α) : Prop where
  data : d.data = source
  scale : d.scale? = some params.scale
  zeroPoint : d.zeroPoint? = params.zeroPoint
  stands : d.Stands g

def behind (id : NodeId) (ends : Nat → Slot) (done : Nat) (s : Slot) : Slot :=
  if s.node = id ∧ s.index < done then ends s.index else s

theorem behind_of_ne {done : Nat} {s : Slot} (h : s.node ≠ id) : behind id ends done s = s :=
  if_neg fun hs => h hs.1

theorem behind_succ {ends' : Nat → Slot} {s : Slot} (hs : s ≠ ⟨id, index⟩)
    (hends : ∀ k < index, ends' k = ends k) :
    behind id ends' (index + 1) s = behind id ends index s := by
  by_cases hnode : s.node = id
  · have hne : s.index ≠ index := fun he => hs (by rw [← hnode, ← he])
    rcases Nat.lt_or_gt_of_ne hne with hlt | hgt
    · rw [behind, behind, if_pos ⟨hnode, by omega⟩, if_pos ⟨hnode, hlt⟩, hends _ hlt]
    · rw [behind, behind, if_neg (by omega), if_neg (by omega)]
  · rw [behind_of_ne hnode, behind_of_ne hnode]

def Graph.IsRead (g : Graph α) (s : Slot) : Prop := ∃ v i, g.input? v i = some s

structure Relocated (g₀ g : Graph α) (id : NodeId) (params : AffineParams α) (ends : Nat → Slot)
    (done : Nat) : Prop where
  wellFormed : g.WellFormed
  size : g₀.nodes.size ≤ g.nodes.size
  old (v : NodeId) (f : Face α) : g₀.face? v = some f →
    ∃ f', g.face? v = some f' ∧ f.Rewired (behind id ends done) f'
  gone (v : NodeId) : v < g₀.nodes.size → g₀.face? v = none → g.face? v = none
  new (v : NodeId) (f : Face α) : g₀.nodes.size ≤ v → g.face? v = some f →
    ∀ s ∈ f.inputs, s.node < g₀.nodes.size → s.node = id ∧ s.index < done
  chain (k : Nat) : k < done → g₀.IsRead ⟨id, k⟩ →
    ∃ d : Dequantization α, d.output = ends k ∧ g₀.nodes.size ≤ (ends k).node ∧
      (g.port? (ends k)).isSome ∧ ∀ h : Graph α,
        (∀ v, g₀.nodes.size ≤ v → v < g.nodes.size → h.face? v = g.face? v) →
          d.Follows h ⟨id, k⟩ params

namespace Relocated

theorem start (h : g.WellFormed) : Relocated g g id params ends 0 where
  wellFormed := h
  size := Nat.le_refl _
  old v f hf := ⟨f, hf, (Face.Rewired.refl f).congr fun s _ => (if_neg (by simp)).symm⟩
  gone _ _ hf := hf
  new v f hv hf := absurd (Graph.lt_size_of_face? hf) (Nat.not_lt.mpr hv)
  chain k hk := absurd hk (Nat.not_lt_zero k)

theorem recast {change : NodeId → Face α → Face α} (h : Relocated g₀ g id params ends index)
    (hid : id < g₀.nodes.size) (hrecast : Graph.Recast g g' change)
    (hchange : ∀ f : Face α, f.Rewired (fun s => s) (change id f)) (hother : ∀ v f, v ≠ id → change v f = f) :
    Relocated g₀ g' id params ends index where
  wellFormed := hrecast.wellFormed
  size := hrecast.size ▸ h.size
  old v f hf := by
    obtain ⟨f', hf', hrewired⟩ := h.old v f hf
    refine ⟨change v f', by rw [hrecast.face, hf', Option.map_some], ?_⟩
    by_cases hv : v = id
    · exact hrewired.trans (hv ▸ hchange f')
    · rwa [hother v f' hv]
  gone v hv hf := by rw [hrecast.face, h.gone v hv hf, Option.map_none]
  new v f' hv hf' := by
    rw [hrecast.face] at hf'
    obtain ⟨f, hf, rfl⟩ := Option.map_eq_some_iff.mp hf'
    rw [hother v f fun he => Nat.not_lt.mpr hv (he ▸ hid)]
    exact h.new v f hv hf
  chain k hk hread := by
    obtain ⟨d, hd, hnew, hport, hfollows⟩ := h.chain k hk hread
    have hface : ∀ v, g₀.nodes.size ≤ v → g'.face? v = g.face? v := by
      intro v hv
      rw [hrecast.face]
      cases g.face? v with
      | none => rfl
      | some f => rw [Option.map_some, hother v f fun he => Nat.not_lt.mpr hv (he ▸ hid)]
    refine ⟨d, hd, hnew, ?_, fun k hk => hfollows k fun v hv hlt => ?_⟩
    · rwa [Graph.port?_eq_face, hface _ hnew, ← Graph.port?_eq_face]
    · rw [hk v hv (hrecast.size ▸ hlt), hface v hv]

theorem input (h : Relocated g₀ g id params ends index) {v : NodeId} {i : Nat}
    (hv : v < g₀.nodes.size) : g.input? v i = (g₀.input? v i).map (behind id ends index) := by
  rw [Graph.input?_eq_face, Graph.input?_eq_face]
  cases hf : g₀.face? v with
  | none => rw [h.gone v hv hf]; rfl
  | some f =>
    obtain ⟨f', hf', hrewired⟩ := h.old v f hf
    rw [hf', Option.bind_some, Option.bind_some, hrewired.inputs, List.getElem?_map]

theorem mem_readers (h : Relocated g₀ g id params ends index) (hid : id < g₀.nodes.size) {r : Slot} :
    r ∈ g.readers ⟨id, index⟩ ↔ g₀.input? r.node r.index = some ⟨id, index⟩ := by
  rw [h.wellFormed.mem_readers]
  constructor
  · intro hi
    have hold : r.node < g₀.nodes.size := by
      by_contra hge
      rw [Graph.input?_eq_face] at hi
      obtain ⟨f, hf, hs⟩ := Option.bind_eq_some_iff.mp hi
      exact Nat.lt_irrefl _ (h.new _ f (Nat.not_lt.mp hge) hf _ (List.mem_of_getElem? hs) hid).2
    rw [h.input hold] at hi
    obtain ⟨s, hs, hbehind⟩ := Option.map_eq_some_iff.mp hi
    rw [behind] at hbehind
    split at hbehind
    · next hdone =>
      have hread : g₀.IsRead ⟨id, s.index⟩ := ⟨_, _, by rw [hs, ← hdone.1]⟩
      obtain ⟨d, -, hnew, -⟩ := h.chain s.index hdone.2 hread
      rw [hbehind] at hnew
      exact absurd hid (Nat.not_lt.mpr hnew)
    · rw [hs, hbehind]
  · intro hi
    rw [h.input (Graph.lt_size_of_input? hi), hi, Option.map_some, behind,
      if_neg fun hs => Nat.lt_irrefl _ hs.2]

theorem skip (h : Relocated g₀ g id params ends index) (hread : ¬ g₀.IsRead ⟨id, index⟩) :
    Relocated g₀ g id params ends (index + 1) where
  wellFormed := h.wellFormed
  size := h.size
  old v f hf := by
    obtain ⟨f', hf', hrewired⟩ := h.old v f hf
    refine ⟨f', hf', hrewired.congr fun s hs => ?_⟩
    rw [behind_succ _ fun _ _ => rfl]
    rintro rfl
    obtain ⟨i, hi⟩ := List.getElem?_of_mem hs
    exact hread ⟨v, i, by rw [Graph.input?_eq_face, hf]; exact hi⟩
  gone := h.gone
  new v f hv hf s hs hlt := (h.new v f hv hf s hs hlt).imp_right Nat.lt_succ_of_lt
  chain k hk hk' := by
    refine h.chain k (Nat.lt_of_le_of_ne (Nat.le_of_lt_succ hk) ?_) hk'
    rintro rfl
    exact hread hk'

section Insert

variable {slots : List Slot} {mid : Graph α}

theorem face_of_inserted (hslots : ∀ r ∈ slots, r.node < g₀.nodes.size)
    (hins : Dequantization.Inserted g g' source slots params d mid) {v : NodeId}
    (hv : g₀.nodes.size ≤ v) (hlt : v < g.nodes.size) : g'.face? v = g.face? v := by
  rw [hins.face_old hlt]
  cases g.face? v with
  | none => rfl
  | some f =>
    rw [Option.map_some, Face.redirect_of_not_mem]
    intro i hi
    exact absurd (hslots _ hi) (Nat.not_lt.mpr hv)

theorem insert (h : Relocated g₀ g id params ends index)
    (hslots : ∀ r : Slot, r ∈ slots ↔ g₀.input? r.node r.index = some ⟨id, index⟩)
    (hins : Dequantization.Inserted g g' ⟨id, index⟩ slots params d mid) :
    Relocated g₀ g' id params (Function.update ends index d.output) (index + 1) := by
  have hold : ∀ r ∈ slots, r.node < g₀.nodes.size :=
    fun r hr => Graph.lt_size_of_input? ((hslots r).mp hr)
  have hkept := fun v => face_of_inserted (v := v) hold hins
  have hadded : ∀ v, g.nodes.size ≤ v → g'.face? v = mid.face? v := fun v hv =>
    hins.face_new (fun r hr => Nat.lt_of_lt_of_le (hold r hr) h.size) hv
  have hsize : g.nodes.size ≤ g'.nodes.size := hins.recast.size ▸ hins.built.size
  refine ⟨hins.recast.wellFormed, Nat.le_trans h.size hsize, ?_, ?_, ?_, ?_⟩
  · intro v f hf
    obtain ⟨f', hf', hrewired⟩ := h.old v f hf
    have hv := Graph.lt_size_of_face? hf
    refine ⟨f'.redirect v slots d.output, ?_, hrewired.op, ?_, hrewired.ports⟩
    · rw [hins.face_old (Nat.lt_of_lt_of_le hv h.size), hf', Option.map_some]
    · refine List.ext_getElem? fun i => ?_
      rw [Face.input_redirect, hrewired.inputs, List.getElem?_map, List.getElem?_map, Option.map_map]
      refine Option.map_congr fun s hs => ?_
      have hmem : (⟨v, i⟩ : Slot) ∈ slots ↔ s = ⟨id, index⟩ := by
        rw [hslots, Graph.input?_eq_face, hf, Option.bind_some, hs, Option.some.injEq]
      rw [Function.comp_apply]
      by_cases hsame : s = ⟨id, index⟩
      · rw [if_pos (hmem.mpr hsame), hsame, behind, if_pos ⟨rfl, Nat.lt_succ_self _⟩,
          Function.update_self]
      · rw [if_neg fun hs => hsame (hmem.mp hs), behind_succ hsame fun k hk =>
          Function.update_of_ne (Nat.ne_of_lt hk) _ _]
  · intro v hv hf
    rw [hins.face_old (Nat.lt_of_lt_of_le hv h.size), h.gone v hv hf, Option.map_none]
  · intro v f hv hf s hs hlt
    rcases Nat.lt_or_ge v g.nodes.size with hbefore | hafter
    · rw [hkept v hv hbefore] at hf
      exact (h.new v f hv hf s hs hlt).imp_right Nat.lt_succ_of_lt
    · rw [hadded v hafter] at hf
      rw [(hins.built.inputs v f hafter hf s hs).1 (Nat.lt_of_lt_of_le hlt h.size)]
      exact ⟨rfl, Nat.lt_succ_self _⟩
  · intro k hk hread
    by_cases hsame : k = index
    · subst hsame
      rw [Function.update_self]
      have hnew := hins.built.new
      refine ⟨d, rfl, Nat.le_trans h.size hnew, ?_, fun last hlast => ?_⟩
      · obtain ⟨p, hp, -⟩ := hins.built.port
        rw [Graph.port?_eq_face, hadded _ hnew, ← Graph.port?_eq_face, hp]
        rfl
      · refine ⟨hins.built.data, hins.built.scale, hins.built.zeroPoint, hins.built.stands last ?_⟩
        intro v hv hlt
        rw [hlast v (Nat.le_trans h.size hv) (hins.recast.size ▸ hlt), hadded v hv]
    · rw [Function.update_of_ne hsame]
      obtain ⟨d', hd, hnew, hport, hfollows⟩ := h.chain k (by omega) hread
      refine ⟨d', hd, hnew, ?_, fun last hlast => hfollows last fun v hv hlt => ?_⟩
      · obtain ⟨p, hp⟩ := Option.isSome_iff_exists.mp hport
        rw [Graph.port?_eq_face, hkept _ hnew (Graph.lt_size_of_port hp), ← Graph.port?_eq_face, hp]
        rfl
      · rw [hlast v hv (Nat.lt_of_lt_of_le hlt hsize), hkept v hv hlt]

end Insert

section Loop

variable [Arithmetic α] {f : Face α}

theorem step (h : Relocated g₀ g id params ends index) (hf : g₀.face? id = some f)
    (hindex : index < f.ports.length) (type : ElementType) (base : String) :
    ∃ g' ends', exec (do
        let readers ← Edit.read (·.readers ⟨id, index⟩)
        Edit.ofGraph (Edit.step (·.setOutputType ⟨id, index⟩ type))
        if !readers.isEmpty then
          discard (Dequantization.insert ⟨id, index⟩ readers params base) :
            Edit α TransformError Unit) g = .ok (.ok (), g') ∧
      Relocated g₀ g' id params ends' (index + 1) := by
  have hid := Graph.lt_size_of_face? hf
  have hport : ∀ {k : Graph α}, Relocated g₀ k id params ends index →
      ∃ p, k.port? ⟨id, index⟩ = some p := by
    intro k hk
    obtain ⟨f', hf', hrewired⟩ := hk.old id f hf
    rw [Graph.port?_eq_face, hf', Option.bind_some,
      List.getElem?_eq_getElem (hrewired.ports ▸ hindex)]
    exact ⟨_, rfl⟩
  obtain ⟨g₁, hset, hrecast⟩ :=
    Graph.setOutputType_ok h.wellFormed (Option.isSome_iff_exists.mpr (hport h)) type
  have h₁ : Relocated g₀ g₁ id params ends index := by
    refine h.recast hid hrecast (fun f => ?_) fun v f hv => if_neg hv
    rw [if_pos rfl]
    exact ⟨rfl, (List.map_id' _).symm, List.length_modify ..⟩
  have hreaders : ∀ r : Slot, r ∈ g.readers ⟨id, index⟩ ↔ g₀.input? r.node r.index = some ⟨id, index⟩ :=
    fun r => h.mem_readers hid
  rw [exec_bind_ok (Edit.exec_read _ _),
    exec_bind_ok (Edit.exec_ofGraph_ok (by rw [Edit.exec_step, hset]))]
  split
  · obtain ⟨p, hp⟩ := hport h₁
    have hslots : ∀ r ∈ g.readers ⟨id, index⟩, (g₁.input? r.node r.index).isSome := by
      intro r hr
      rw [h₁.wellFormed.mem_readers.mp ((h₁.mem_readers hid).mpr ((hreaders r).mp hr))]
      rfl
    obtain ⟨d, mid, g', hexec, hins⟩ := Dequantization.insert_ok h₁.wellFormed hp hslots params base
    exact ⟨g', _, exec_discard_ok hexec, h₁.insert hreaders hins⟩
  · next hempty =>
    refine ⟨g₁, ends, rfl, h₁.skip ?_⟩
    rintro ⟨v, i, hi⟩
    have hmem := (hreaders ⟨v, i⟩).mpr hi
    rw [Bool.not_eq_true, Bool.not_eq_false', List.isEmpty_iff] at hempty
    rw [hempty] at hmem
    cases hmem

end Loop

end Relocated

section Move

variable [Arithmetic α] {f : Face α}

theorem relocated_of_moveDequantization (hg : g.WellFormed) (hf : g.face? id = some f)
    {first : Slot} {rest : List Slot} (hin : f.inputs = first :: rest) {chain : Dequantization α}
    {p : Port} (hp : g.port? chain.data = some p) {updatePrecision : Bool}
    (hrun : exec (moveDequantization id chain params updatePrecision) g = .ok (.ok (), g')) :
    ∃ g₁ last ends, Graph.Recast g g₁ (fun v f => f.redirect v [⟨id, 0⟩] chain.data) ∧
      Relocated g₁ last id params ends f.ports.length ∧
      g' = last.removeDead [chain.output.node] := by
  obtain ⟨n, hn, rfl⟩ := Graph.face?_eq_some.mp hf
  have hlength : n.face.ports.length = n.outputs.length := List.length_map _
  have hinput : (g.input? id 0).isSome := by
    rw [Graph.input?_eq_face, hf, Option.bind_some, hin]
    rfl
  obtain ⟨g₁, hset, h₁⟩ := Graph.setInput_ok hg hinput (Option.isSome_iff_exists.mpr ⟨p, hp⟩)
  have hid : id < g₁.nodes.size := h₁.size ▸ Graph.lt_size_of_node? hn
  have hf₁ : g₁.face? id = some (n.face.redirect id [⟨id, 0⟩] chain.data) := by
    rw [h₁.face, hf, Option.map_some]
  rw [moveDequantization, exec_bind_ok (Edit.exec_port hp)] at hrun
  dsimp only at hrun
  generalize (if updatePrecision then p.elementType else .f32) = type at hrun
  rw [exec_bind_ok (Edit.exec_node hn),
    exec_bind_ok (Edit.exec_ofGraph_ok (by rw [Edit.exec_step, hset]))] at hrun
  have hfinish : ∀ {k : Graph α}, Relocated g₁ k id params (fun _ => chain.data) 0 →
      exec (do
        (List.range n.outputs.length).forM fun index => do
          let readers ← Edit.read (·.readers ⟨id, index⟩)
          Edit.ofGraph (Edit.step (·.setOutputType ⟨id, index⟩ type))
          if !readers.isEmpty then
            discard (Dequantization.insert ⟨id, index⟩ readers params n.name)
        Edit.change (·.removeDead [chain.output.node]) : Edit α TransformError Unit) k =
          .ok (.ok (), g') →
      ∃ last ends, Relocated g₁ last id params ends n.face.ports.length ∧
        g' = last.removeDead [chain.output.node] := by
    intro k hk hrun
    obtain ⟨last, hloop, ends, hlast⟩ := exec_forM_range
      (P := fun done g => ∃ ends, Relocated g₁ g id params ends done)
      (fun index hindex g hdone => by
        obtain ⟨ends, h⟩ := hdone
        obtain ⟨g', ends', hexec, h'⟩ := h.step hf₁ (hlength ▸ hindex) type n.name
        exact ⟨g', hexec, ends', h'⟩) ⟨_, hk⟩
    rw [exec_bind_ok hloop] at hrun
    cases hrun
    exact ⟨last, ends, hlength ▸ hlast, rfl⟩
  split at hrun
  · have hlive : g₁.isLive id = true := Graph.isLive_iff_face.mpr ⟨_, hf₁⟩
    obtain ⟨g₂, hrelax, h₂⟩ :=
      Graph.setRelaxed_ok h₁.wellFormed hlive (.float n.inputs.length n.outputs.length)
    rw [exec_bind_ok (Edit.exec_ofGraph_ok (by rw [Edit.exec_step, hrelax]))] at hrun
    have hstart : Relocated g₁ g₂ id params (fun _ => chain.data) 0 := by
      refine (Relocated.start h₁.wellFormed).recast hid h₂ (fun f => ?_) fun v f hv => if_neg hv
      rw [if_pos rfl]
      exact ⟨rfl, (List.map_id' _).symm, rfl⟩
    obtain ⟨last, ends, hlast, hg'⟩ := hfinish hstart hrun
    exact ⟨g₁, last, ends, h₁, hlast, hg'⟩
  · obtain ⟨last, ends, hlast, hg'⟩ := hfinish (.start h₁.wellFormed) hrun
    exact ⟨g₁, last, ends, h₁, hlast, hg'⟩

end Move

section Chain

namespace Dequantization

inductive Reading (g : Graph α) (output current : Slot) : Option NodeId → Prop
  | stay (same : current = output) : Reading g output current none
  | step {k : OpKind} {i : Nat} (kind : g.kind? output.node = some k) (inner : ¬ k.IsInterface)
      (reads : g.input? output.node i = some current) : Reading g output current (some output.node)

variable {output current scaled shifted data : Slot} {step : Option (NodeId × Tensor α)}
  {taken : Option NodeId}

theorem reading_of_input {n : Node α} {i : Nat} {k : OpKind} (hn : g.node? output.node = some n)
    (hkind : n.kind = k) (hk : ¬ k.IsInterface) (hi : n.input? i = some current) :
    Reading g output current (some output.node) :=
  .step (by rw [Graph.kind?, hn, Option.map_some, hkind]) hk (Graph.input?_eq_some.mpr ⟨n, hn, hi⟩)

theorem reading_of_readMultiply (h : readMultiply g output = some (step, current)) :
    Reading g output current (step.map Prod.fst) := by
  obtain ⟨rfl, rfl⟩ | ⟨n, a, b, scale, hn, hkind, ha, hb, rfl, ⟨-, rfl⟩ | ⟨-, -, rfl⟩⟩ :=
    readMultiply_cases h
  · exact .stay rfl
  · exact reading_of_input hn hkind (by decide) ha
  · exact reading_of_input hn hkind (by decide) hb

theorem reading_of_readSubtract (h : readSubtract g output = some (step, current)) :
    Reading g output current (step.map Prod.fst) := by
  obtain ⟨rfl, rfl⟩ | ⟨n, b, zeroPoint, hn, hkind, ha, -, rfl, -⟩ := readSubtract_cases h
  · exact .stay rfl
  · exact reading_of_input hn hkind (by decide) ha

theorem reading_of_readConvert (h : readConvert g output = some (taken, current)) :
    Reading g output current taken := by
  obtain ⟨rfl, rfl⟩ | ⟨n, type, hn, hop, ha, rfl⟩ := readConvert_cases h
  · exact .stay rfl
  · exact reading_of_input (k := .convert) hn (congrArg Op.kind hop) (by decide) ha

variable {rank : NodeId → Nat}

namespace Reading

theorem le (h : Reading g output current taken) (hr : g.Ranked rank) :
    rank current.node ≤ rank output.node := by
  cases h with
  | stay hsame => exact hsame ▸ Nat.le_refl _
  | step _ _ hi => exact Nat.le_of_lt (hr _ _ _ hi)

theorem of_mem (h : Reading g output current taken) {c : NodeId} (hc : c ∈ taken.toList) :
    c = output.node ∧ (∃ k, g.kind? c = some k ∧ ¬ k.IsInterface) ∧
      ∃ i, g.input? c i = some current := by
  cases h with
  | stay => cases hc
  | step hkind hk hi =>
    obtain rfl := List.mem_singleton.mp hc
    exact ⟨rfl, ⟨_, hkind, hk⟩, _, hi⟩

theorem node (h : Reading g output current taken) {s : Slot} (hs : s.node = current.node) :
    ((taken.map (fun c => (⟨c, 0⟩ : Slot))).getD s).node = output.node := by
  cases h with
  | stay hsame => exact hs.trans (congrArg Slot.node hsame)
  | step => rfl

theorem next (h : Reading g output current taken) :
    current = output ∨ ∃ c ∈ taken.toList, ∃ i, g.input? c i = some current := by
  cases h with
  | stay hsame => exact .inl hsame
  | step _ _ hi => exact .inr ⟨_, List.mem_singleton_self _, _, hi⟩

end Reading

theorem output_node {d : Dequantization α} (h : ofOutput g output = some d) :
    d.output.node = output.node := by
  rw [output_eq, Dequantization.shifted, converted]
  obtain ⟨scaled, shifted, p, hm, hs, hc, -⟩ := ofOutput_eq_some h
  have hnode := (reading_of_readMultiply hm).node
    ((reading_of_readSubtract hs).node ((reading_of_readConvert hc).node rfl))
  rwa [Option.map_map, Option.map_map] at hnode

structure IsLink (g : Graph α) (rank : NodeId → Nat) (d : Dequantization α) (output : Slot)
    (c : NodeId) : Prop where
  above : rank d.data.node < rank c
  below : rank c ≤ rank output.node
  inner : ∃ k, g.kind? c = some k ∧ ¬ k.IsInterface
  next : c = output.node ∨ ∃ c' ∈ d.nodes, ∃ i s, g.input? c' i = some s ∧ s.node = c

theorem isLink_of_mem (hr : g.Ranked rank) {d : Dequantization α} (h : ofOutput g output = some d)
    {c : NodeId} (hc : c ∈ d.nodes) : IsLink g rank d output c := by
  obtain ⟨scaled, shifted, p, hm, hs, hconvert, -⟩ := ofOutput_eq_some h
  have hm := reading_of_readMultiply hm
  have hs := reading_of_readSubtract hs
  have hconvert := reading_of_readConvert hconvert
  have hnodes : d.nodes = d.convert.toList ++ (d.subtract.map Prod.fst).toList ++
      (d.multiply.map Prod.fst).toList := by
    rw [nodes, Option.toList_map, Option.toList_map]
  have hscaled : scaled.node = output.node ∨
      ∃ c' ∈ d.nodes, ∃ i s, g.input? c' i = some s ∧ s.node = scaled.node := by
    rcases hm.next with rfl | ⟨c', hc', i, hi⟩
    · exact .inl rfl
    · exact .inr ⟨c', by rw [hnodes]; exact List.mem_append_right _ hc', i, _, hi, rfl⟩
  have hshifted : shifted.node = output.node ∨
      ∃ c' ∈ d.nodes, ∃ i s, g.input? c' i = some s ∧ s.node = shifted.node := by
    rcases hs.next with rfl | ⟨c', hc', i, hi⟩
    · exact hscaled
    · refine .inr ⟨c', ?_, i, _, hi, rfl⟩
      rw [hnodes]
      exact List.mem_append_left _ (List.mem_append_right _ hc')
  rw [hnodes, List.mem_append, List.mem_append] at hc
  rcases hc with (hc | hc) | hc
  · obtain ⟨rfl, hkind, i, hi⟩ := hconvert.of_mem hc
    exact ⟨hr _ _ _ hi, Nat.le_trans (hs.le hr) (hm.le hr), hkind, hshifted⟩
  · obtain ⟨rfl, hkind, i, hi⟩ := hs.of_mem hc
    exact ⟨Nat.lt_of_le_of_lt (hconvert.le hr) (hr _ _ _ hi), hm.le hr, hkind, hscaled⟩
  · obtain ⟨rfl, hkind, i, hi⟩ := hm.of_mem hc
    have hle := Nat.le_trans (hconvert.le hr) (hs.le hr)
    exact ⟨Nat.lt_of_le_of_lt hle (hr _ _ _ hi), Nat.le_refl _, hkind, .inl rfl⟩

end Dequantization

end Chain

section Removal

variable {rank : NodeId → Nat} {f : Face α} {chain : Dequantization α} {count : Nat} {last : Graph α}

section Wires

variable {data s : Slot} {v : NodeId} {i : Nat}

theorem input_of_recast (hread : Graph.Recast g g₁ fun v f => f.redirect v [⟨id, 0⟩] data)
    (hslot : ¬ (v = id ∧ i = 0)) : g₁.input? v i = g.input? v i := by
  rw [Graph.input?_eq_face, Graph.input?_eq_face, hread.face]
  cases g.face? v with
  | none => rfl
  | some f =>
    have hmem : (⟨v, i⟩ : Slot) ∉ [(⟨id, 0⟩ : Slot)] := by simpa using hslot
    rw [Option.map_some, Option.bind_some, Option.bind_some, Face.input_redirect]
    simp only [hmem, ↓reduceIte, Option.map_id']

theorem first_of_recast (hread : Graph.Recast g g₁ fun v f => f.redirect v [⟨id, 0⟩] data)
    (hi : g₁.input? id 0 = some s) : s = data := by
  rw [Graph.input?_eq_face, hread.face] at hi
  obtain ⟨f', hf', hs⟩ := Option.bind_eq_some_iff.mp hi
  obtain ⟨f, -, rfl⟩ := Option.map_eq_some_iff.mp hf'
  rw [Face.input_redirect] at hs
  obtain ⟨_, -, rfl⟩ := Option.map_eq_some_iff.mp hs
  exact if_pos List.mem_cons_self

theorem isRead_of_recast (hr : g.Ranked rank)
    (hread : Graph.Recast g g₁ fun v f => f.redirect v [⟨id, 0⟩] data)
    (hs : g.IsRead s) (hnode : s.node = id) : g₁.IsRead s := by
  obtain ⟨v, i, hi⟩ := hs
  refine ⟨v, i, (input_of_recast hread ?_).trans hi⟩
  rintro ⟨rfl, -⟩
  have hlt := hr _ _ _ hi
  rw [hnode] at hlt
  exact Nat.lt_irrefl _ hlt

theorem input_of_relocated (hread : Graph.Recast g g₁ fun v f => f.redirect v [⟨id, 0⟩] data)
    (h : Relocated g₁ last id params ends count) (hs : s.node < g.nodes.size) (hid : s.node ≠ id)
    (hdata : s.node ≠ data.node) :
    last.input? v i = some s ↔ g.input? v i = some s ∧ ¬ (v = id ∧ i = 0) := by
  rw [← hread.size] at hs
  constructor
  · -- What a chain has taken over is read from a new node, and so not from the one in question.
    intro hi
    have hold : v < g₁.nodes.size := by
      by_contra hge
      rw [Graph.input?_eq_face] at hi
      obtain ⟨f, hf, hmem⟩ := Option.bind_eq_some_iff.mp hi
      exact hid (h.new v f (Nat.not_lt.mp hge) hf s (List.mem_of_getElem? hmem) hs).1
    rw [h.input hold] at hi
    obtain ⟨t, ht, hbehind⟩ := Option.map_eq_some_iff.mp hi
    rw [behind] at hbehind
    split at hbehind
    · next hdone =>
      obtain ⟨d, -, hnew, -⟩ := h.chain t.index hdone.2 ⟨v, i, by rw [ht, ← hdone.1]⟩
      rw [hbehind] at hnew
      exact absurd hs (Nat.not_lt.mpr hnew)
    · subst hbehind
      have hslot : ¬ (v = id ∧ i = 0) := by
        rintro ⟨rfl, rfl⟩
        exact hdata (congrArg Slot.node (first_of_recast hread ht))
      exact ⟨(input_of_recast hread hslot).symm.trans ht, hslot⟩
  · rintro ⟨hi, hslot⟩
    have hold : v < g₁.nodes.size := hread.size ▸ Graph.lt_size_of_input? hi
    rw [h.input hold, input_of_recast hread hslot, hi, Option.map_some, behind_of_ne hid]

end Wires

theorem cone_below (hg : g.WellFormed) (hr : g.Ranked rank)
    (hread : Graph.Recast g g₁ fun v f => f.redirect v [⟨id, 0⟩] chain.data)
    (h : Relocated g₁ last id params ends count) {top : NodeId} (htop : top < g.nodes.size)
    (hid : rank top < rank id) {u : NodeId} (hu : last.DeadCone top u) :
    u < g.nodes.size ∧ rank u ≤ rank top := by
  induction hu with
  | start => exact ⟨htop, Nat.le_refl _⟩
  | @producer u v m n _ hm hmem _ _ _ ih _ =>
    obtain ⟨hlt, hle⟩ := ih
    obtain ⟨s, hs, rfl⟩ := List.mem_map.mp hmem
    obtain ⟨i, hi⟩ := List.getElem?_of_mem hs
    have hne : u ≠ id := by
      rintro rfl
      omega
    have hinput : last.input? u i = some s := Graph.input?_eq_some.mpr ⟨m, hm, hi⟩
    rw [h.input (hread.size ▸ hlt), input_of_recast hread fun hslot => hne hslot.1] at hinput
    obtain ⟨t, ht, rfl⟩ := Option.map_eq_some_iff.mp hinput
    have hrank := hr _ _ _ ht
    have hother : t.node ≠ id := by
      intro he
      rw [he] at hrank
      omega
    obtain ⟨p, hp⟩ := hg.exists_port ht
    rw [behind_of_ne hother]
    exact ⟨Graph.lt_size_of_port hp, by omega⟩

theorem cone_of_links (hg : g.WellFormed) (hr : g.Ranked rank)
    (hread : Graph.Recast g g₁ fun v f => f.redirect v [⟨id, 0⟩] chain.data)
    (h : Relocated g₁ last id params ends count) (hchain : Dequantization.ofOutput g output = some chain)
    (htop : output.node < g.nodes.size) (hid : rank output.node < rank id) {c : NodeId}
    (hc : c ∈ chain.nodes) : last.DeadCone output.node c ↔
      ∀ v i s, g.input? v i = some s → s.node = c → (v = id ∧ i = 0) ∨ last.DeadCone output.node v := by
  obtain ⟨habove, hbelow, ⟨k, hk, hinner⟩, hnext⟩ := Dequantization.isLink_of_mem hr hchain hc
  obtain ⟨f, hf, rfl⟩ := Option.map_eq_some_iff.mp (Graph.kind?_eq_face g c ▸ hk)
  have hsize : c < g.nodes.size := Graph.lt_size_of_face? hf
  have hne : c ≠ id := by
    rintro rfl
    omega
  have hdata : c ≠ chain.data.node := by
    rintro rfl
    exact Nat.lt_irrefl _ habove
  have hwire : ∀ {v i s}, s.node = c →
      (last.input? v i = some s ↔ g.input? v i = some s ∧ ¬ (v = id ∧ i = 0)) := by
    rintro v i s rfl
    exact input_of_relocated hread h hsize hne hdata
  obtain ⟨f', hf', hrewired⟩ := h.old c _ (by rw [hread.face, hf, Option.map_some])
  obtain ⟨n, hn, rfl⟩ := Graph.face?_eq_some.mp hf'
  have hkind : ¬ n.kind.IsInterface := by
    have hop : n.op = f.op := hrewired.op
    rwa [Node.kind, hop]
  have hreaders : ∀ r ∈ n.allReaders, ∃ s, g.input? r.node r.index = some s ∧ s.node = c ∧
      ¬ (r.node = id ∧ r.index = 0) := by
    intro r hmem
    obtain ⟨s, hi, hs⟩ := (h.wellFormed.mem_allReaders hn).mp hmem
    obtain ⟨hi, hslot⟩ := (hwire hs).mp hi
    exact ⟨s, hi, hs, hslot⟩
  constructor
  · intro hcone v i s hi hs
    by_cases hslot : v = id ∧ i = 0
    · exact .inl hslot
    have hmem : ⟨v, i⟩ ∈ n.allReaders :=
      (h.wellFormed.mem_allReaders hn).mpr ⟨s, (hwire hs).mpr ⟨hi, hslot⟩, hs⟩
    cases hcone with
    | start hn' _ hnone =>
      cases hn.symm.trans hn'
      rw [hnone] at hmem
      cases hmem
    | producer _ _ _ hn' _ hall =>
      cases hn.symm.trans hn'
      exact .inr (hall _ hmem)
  · intro hall
    have hgone : ∀ r ∈ n.allReaders, last.DeadCone output.node r.node := by
      intro r hmem
      obtain ⟨s, hi, hs, hslot⟩ := hreaders r hmem
      exact (hall r.node r.index s hi hs).resolve_left hslot
    -- the end of the chain goes for want of readers, any other node of it after the one that reads it
    rcases hnext with rfl | ⟨c', hc', i, s, hi, hs⟩
    · refine .start hn hkind (List.eq_nil_iff_forall_not_mem.mpr fun r hmem => ?_)
      obtain ⟨s, hi, hs, -⟩ := hreaders r hmem
      have hle := (cone_below hg hr hread h htop hid (hgone r hmem)).2
      have hlt := hr _ _ _ hi
      rw [hs] at hlt
      omega
    · have hbelow' := (Dequantization.isLink_of_mem hr hchain hc').below
      have hslot : ¬ (c' = id ∧ i = 0) := by
        rintro ⟨rfl, -⟩
        omega
      obtain ⟨m, hm, hinput⟩ := Graph.input?_eq_some.mp ((hwire hs).mpr ⟨hi, hslot⟩)
      exact .producer ((hall c' i s hi hs).resolve_left hslot) hm
        (List.mem_map.mpr ⟨s, List.mem_of_getElem? hinput, hs⟩) hn hkind hgone

/-- An operation reads what enters a chain in place of its end, its outputs have chains with the given
parameters behind them where they are read, and the old chain is gone where nothing reads it. -/
structure Moved (g g' : Graph α) (rank : NodeId → Nat) (id : NodeId) (chain : Dequantization α)
    (params : AffineParams α) (ends : Nat → Slot) (count : Nat) : Prop where
  wellFormed : g'.WellFormed
  old (v : NodeId) (f' : Face α) : v < g.nodes.size → g'.face? v = some f' →
    ∃ f, g.face? v = some f ∧
      (f.redirect v [⟨id, 0⟩] chain.data).Rewired (behind id ends count) f'
  kept (v : NodeId) : rank chain.output.node < rank v → g.isLive v = true → g'.isLive v = true
  follows (k : Nat) : k < count → g.IsRead ⟨id, k⟩ →
    ∃ d : Dequantization α, d.output = ends k ∧ d.Follows g' ⟨id, k⟩ params
  removed (c : NodeId) : c ∈ chain.nodes → (g'.isLive c = false ↔
    ∀ v i s, g.input? v i = some s → s.node = c → (v = id ∧ i = 0) ∨ g'.isLive v = false)

theorem moved_of_moveDequantization [Arithmetic α] (hg : g.WellFormed) (hr : g.Ranked rank)
    (hf : g.face? id = some f) (hchain : Dequantization.ofInput g id 0 = some chain)
    {updatePrecision : Bool}
    (hrun : exec (moveDequantization id chain params updatePrecision) g = .ok (.ok (), g')) :
    ∃ ends, Moved g g' rank id chain params ends f.ports.length := by
  obtain ⟨output, hi, hlt, hid, p, hp⟩ := Dequantization.ofInput_below hr hchain
  have houtput : Dequantization.ofOutput g output = some chain := by
    rw [Dequantization.ofInput, hi] at hchain
    exact hchain
  obtain ⟨first, rest, hin⟩ : ∃ first rest, f.inputs = first :: rest := by
    rw [Graph.input?_eq_face, hf, Option.bind_some] at hi
    cases hin : f.inputs with
    | nil => rw [hin] at hi; cases hi
    | cons first rest => exact ⟨first, rest, rfl⟩
  obtain ⟨g₁, last, ends, hread, h, rfl⟩ := relocated_of_moveDequantization hg hf hin hp hrun
  obtain ⟨_, hport⟩ := hg.exists_port hi
  have htop := Graph.lt_size_of_port hport
  rw [Dequantization.output_node houtput, Graph.removeDead_eq h.wellFormed]
  have hbelow : ∀ u, last.DeadCone output.node u → u < g.nodes.size ∧ rank u ≤ rank output.node :=
    fun u hu => cone_below hg hr hread h htop hid hu
  have hold : ∀ v, g.isLive v = true → last.isLive v = true := by
    intro v hv
    rw [Graph.isLive_eq_face] at hv ⊢
    obtain ⟨k, hk⟩ := Option.isSome_iff_exists.mp hv
    obtain ⟨k', hk', -⟩ := h.old v _ (by rw [hread.face, hk, Option.map_some])
    rw [hk']
    rfl
  have hnew : ∀ v, g₁.nodes.size ≤ v →
      (last.without (last.DeadCone output.node)).face? v = last.face? v := by
    intro v hv
    rw [Graph.face?_without, if_neg fun hcone => Nat.not_lt.mpr hv (hread.size ▸ (hbelow v hcone).1)]
  have hlive : ∀ v, g.isLive v = true →
      ((last.without (last.DeadCone output.node)).isLive v = false ↔ last.DeadCone output.node v) := by
    intro v hv
    rw [← Bool.not_eq_true, Graph.isLive_without, not_and_not_right]
    exact ⟨fun himp => himp (hold v hv), fun hcone _ => hcone⟩
  refine ⟨ends, {
    wellFormed := ?wellFormed
    old := ?old
    kept := ?kept
    follows := ?follows
    removed := ?removed }⟩
  case wellFormed =>
    rw [← Graph.removeDead_eq h.wellFormed]
    exact (h.wellFormed.pruned [output.node]).wellFormed
  case old =>
    intro v f' hv hf'
    rw [Graph.face?_without] at hf'
    split at hf'
    · cases hf'
    cases hk : g.face? v with
    | none =>
      rw [h.gone v (hread.size ▸ hv) (by rw [hread.face, hk, Option.map_none])] at hf'
      cases hf'
    | some k =>
      obtain ⟨k', hk', hrewired⟩ := h.old v _ (by rw [hread.face, hk, Option.map_some])
      cases hk'.symm.trans hf'
      exact ⟨k, rfl, hrewired⟩
  case kept =>
    intro v hv hlive'
    rw [Dequantization.output_node houtput] at hv
    rw [Graph.isLive_without]
    exact ⟨hold v hlive', fun hcone => Nat.not_lt.mpr (hbelow v hcone).2 hv⟩
  case follows =>
    intro k hk hk'
    obtain ⟨d, hd, -, -, hfollows⟩ := h.chain k hk (isRead_of_recast hr hread hk' rfl)
    exact ⟨d, hd, hfollows _ fun v hv _ => hnew v hv⟩
  case removed =>
    intro c hc
    obtain ⟨k, hk, -⟩ := (Dequantization.isLink_of_mem hr houtput hc).inner
    have hlive' : ∀ {v k}, g.kind? v = some k → g.isLive v = true := by
      intro v k hk
      obtain ⟨k', hk', -⟩ := Option.map_eq_some_iff.mp (Graph.kind?_eq_face g v ▸ hk)
      exact Graph.isLive_iff_face.mpr ⟨_, hk'⟩
    rw [hlive c (hlive' hk), cone_of_links hg hr hread h houtput htop hid hc]
    refine forall_congr' fun v => forall₄_congr fun i s hi _ => or_congr_right (hlive v ?_).symm
    obtain ⟨n, hn, -⟩ := Graph.input?_eq_some.mp hi
    exact Graph.isLive_of_node? hn

end Removal

end LowPrecision
