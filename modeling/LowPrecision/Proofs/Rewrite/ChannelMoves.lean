import LowPrecision.Proofs.Quantization.Elements
import LowPrecision.Proofs.Rewrite.LayoutMoves
import LowPrecision.Proofs.Rewrite.Layers

namespace LowPrecision

open LowPrecision.Graph

namespace Tensor

def AlongChannels (t : Tensor Rat) (shape : List Nat) : Prop :=
  ∃ n, t.shape.length ≤ shape.length ∧
    padShape shape.length t.shape = channelShape shape.length n ∧ (n = 1 ∨ shape[1]? = some n)

theorem place_of_channel {rank n : Nat} {i j : Index} (hi : i.length = rank) (hj : j.length = rank)
    (h : i.channel = j.channel) : place (channelShape rank n) i = place (channelShape rank n) j := by
  by_cases hrank : 2 ≤ rank
  · have hplace := place_channelShape (hi ▸ hrank : 2 ≤ i.length) n
    have hplace' := place_channelShape (hj ▸ hrank : 2 ≤ j.length) n
    rw [hi] at hplace
    rw [hj] at hplace'
    rw [hplace, hplace', h]
  · have hones : channelShape rank n = List.replicate rank 1 := by
      rw [channelShape, List.set_eq_of_length_le]
      rw [List.length_replicate]
      omega
    rw [hones, place_ones, place_ones]

namespace AlongChannels

variable {t : Tensor Rat} {shape out : List Nat} {i j : Index}

theorem spreadsOver (h : t.AlongChannels shape) (hrank : out.length = shape.length)
    (hchannels : out[1]? = shape[1]?) : t.SpreadsOver out := by
  obtain ⟨n, hle, hpad, hn⟩ := h
  refine Widens.broadcastShape (hrank ▸ hle) ?_
  rw [hrank, hpad, ← hrank]
  exact widens_channelShape (hchannels ▸ hn)

theorem valueAt_eq (h : t.AlongChannels shape) (hi : i.length = shape.length)
    (hj : j.length = shape.length) (hchannel : i.channel = j.channel) : t.valueAt i = t.valueAt j := by
  obtain ⟨n, -, hpad, -⟩ := h
  have hplace : ∀ l : Index, l.length = shape.length →
      place t.shape (l.drop (l.length - t.rank)) = place (channelShape shape.length n) l := by
    intro l hl
    rw [← place_append, rank, hl, ← hpad, padShape]
  rw [valueAt, valueAt, spread?, spread?, hplace i hi, hplace j hj, place_of_channel hi hj hchannel]

end AlongChannels

end Tensor

namespace AffineParams

variable {p : AffineParams Rat} {shape out : List Nat} {i j : Index}

theorem spreadsOver_of_alongChannels (h : p.Forall (·.AlongChannels shape))
    (hrank : out.length = shape.length) (hchannels : out[1]? = shape[1]?) : p.SpreadsOver out :=
  ⟨h.1.spreadsOver hrank hchannels, fun z hz => (h.2 z hz).spreadsOver hrank hchannels⟩

theorem valueAt_of_channel (h : p.Forall (·.AlongChannels shape)) (hi : i.length = shape.length)
    (hj : j.length = shape.length) (hchannel : i.channel = j.channel) (x : Rat) :
    p.valueAt i x = p.valueAt j x := by
  have hzero : p.zeroAt i = p.zeroAt j := by
    rw [zeroAt, zeroAt]
    cases hz : p.zeroPoint with
    | none => rfl
    | some z => exact (h.2 z hz).valueAt_eq hi hj hchannel
  rw [valueAt, valueAt, hzero, h.1.valueAt_eq hi hj hchannel]

end AffineParams

namespace Interpretation

/-- Each element of an output is combined from a window of the first input that lies in its channel.
The window of anything but a pool is the one element that is read. -/
structure Combines (I : Interpretation) (id : NodeId) (op : Op Rat) (shape : List Nat)
    (others : List (Option Values)) (k : Nat) (out : List Nat) (window : Index → List Index) : Prop where
  rank : out.length = shape.length
  channels : out[1]? = shape[1]?
  nonempty (i : Index) : i.Inside out → window i ≠ []
  inside (i : Index) : i.Inside out → ∀ j ∈ window i, j.Inside shape ∧ j.channel = i.channel
  value (x : Values) : x.shape = shape → I.run id op (some x :: others) k =
    some (.of out fun i => (Geometry.combine op ((window i).map x.get)).getD 0)

def Commutes (I : Interpretation) (id : NodeId) (op : Op Rat) (shape : List Nat)
    (others : List (Option Values)) (k : Nat) (params : AffineParams Rat) : Prop :=
  ∀ x : Values, x.shape = shape → I.run id op (params.dequantize x :: others) k =
    (I.run id op (some x :: others) k).bind params.dequantize

def KeepsMaxima (op : Op Rat) (scale : Tensor Rat) (out : List Nat) (window : Index → List Index) :
    Prop :=
  op = .maxPool → ∀ i : Index, i.Inside out →
    0 ≤ scale.valueAt i ∨ ∀ j ∈ window i, ∀ j' ∈ window i, j = j'

variable {I : Interpretation} {id : NodeId} {op : Op Rat} {shape out : List Nat}
  {others : List (Option Values)} {k : Nat} {params : AffineParams Rat} {window : Index → List Index}

theorem commutes_iff_combine (hparams : params.Forall (·.AlongChannels shape))
    (h : I.Combines id op shape others k out window) :
    I.Commutes id op shape others k params ↔ ∀ x : Values, x.shape = shape → ∀ i : Index, i.Inside out →
      Geometry.combine op (((window i).map x.get).map (params.valueAt i)) =
        (Geometry.combine op ((window i).map x.get)).map (params.valueAt i) := by
  refine forall₂_congr fun x hx => ?_
  subst hx
  have hspread := AffineParams.spreadsOver_of_alongChannels hparams rfl rfl
  have hspread' := AffineParams.spreadsOver_of_alongChannels hparams h.rank h.channels
  rw [AffineParams.dequantize_of_spreadsOver hspread, h.value x rfl, h.value (.of x.shape _) rfl,
    Option.bind_some, AffineParams.dequantize_of_spreadsOver (q := .of out _) hspread', Option.some.injEq]
  refine Values.of_inj.trans (forall₂_congr fun i hi => ?_)
  have hread : (window i).map (Values.of x.shape fun j => params.valueAt j (x.get j)).get =
      ((window i).map x.get).map (params.valueAt i) := by
    rw [List.map_map]
    refine List.map_congr_left fun j hj => ?_
    obtain ⟨hin, hchannel⟩ := h.inside i hi j hj
    have hlength : i.length = x.shape.length := hi.length_eq.trans h.rank
    rw [Values.get_of hin]
    exact AffineParams.valueAt_of_channel hparams hin.length_eq hlength hchannel _
  rw [Values.get_of hi, hread]
  have hne : (window i).map x.get ≠ [] := by simpa using h.nonempty i hi
  have hne' : ((window i).map x.get).map (params.valueAt i) ≠ [] := by simpa using hne
  obtain ⟨a, ha⟩ : ∃ a, Geometry.combine op ((window i).map x.get) = some a :=
    Option.isSome_iff_exists.mp (Geometry.combine_isSome hne)
  obtain ⟨b, hb⟩ : ∃ b, Geometry.combine op (((window i).map x.get).map (params.valueAt i)) = some b :=
    Option.isSome_iff_exists.mp (Geometry.combine_isSome hne')
  rw [ha, hb, Option.map_some, Option.getD_some, Option.getD_some, Option.some.injEq]

theorem commutes_iff (hop : op = .maxPool ∨ op = .relu ∨ ∃ mode, op = .interpolate mode)
    (hrelu : op = .relu → ∀ i : Index, i.Inside out → 0 ≤ params.scale.valueAt i ∧ params.zeroAt i = 0)
    (hparams : params.Forall (·.AlongChannels shape))
    (h : I.Combines id op shape others k out window) :
    I.Commutes id op shape others k params ↔ KeepsMaxima op params.scale out window := by
  rw [commutes_iff_combine hparams h]
  constructor
  · rintro hall rfl i hi
    refine or_iff_not_imp_left.mpr fun hneg j hj j' hj' => ?_
    let x := Values.of shape fun l => if l = j then 1 else 0
    have hne : (window i).map x.get ≠ [] := by simpa using h.nonempty i hi
    obtain ⟨m, hm⟩ : ∃ m, Geometry.combine .maxPool ((window i).map x.get) = some m :=
      Option.isSome_iff_exists.mp (Geometry.combine_isSome hne)
    have hmap := hall x rfl i hi
    rw [hm, Option.map_some] at hmap
    have hsame := Geometry.eq_of_max?_map (not_le.mp hneg) hm hmap _ (List.mem_map_of_mem hj) _
      (List.mem_map_of_mem hj')
    rw [Values.get_of (h.inside i hi j hj).1, Values.get_of (h.inside i hi j' hj').1, if_pos rfl] at hsame
    by_contra hne
    rw [if_neg (Ne.symm hne)] at hsame
    exact one_ne_zero hsame
  · intro hmax x _ i hi
    refine Geometry.combine_map (fun hop' => ?_) fun hop' => ?_
    · obtain ⟨hscale, hzero⟩ := hrelu hop' i hi
      exact ⟨hscale, .inr hzero⟩
    · refine (hmax hop' i hi).imp_right fun hone a ha b hb => ?_
      obtain ⟨j, hj, rfl⟩ := List.mem_map.mp ha
      obtain ⟨j', hj', rfl⟩ := List.mem_map.mp hb
      rw [hone j hj j' hj']

end Interpretation

theorem Layout.scale_pos {p : AffineParams Rat} {shape : List Nat} {i : Index} (hfilled : p.scale.Filled)
    (hspread : p.scale.SpreadsOver shape) (hi : i.Inside shape) (h : hasPositiveScale p = true) :
    0 < p.scale.valueAt i := by
  obtain ⟨a, ha, hmem⟩ := Tensor.exists_spread? hfilled hspread hi
  rw [Tensor.valueAt, ha, Option.getD_some]
  exact of_decide_eq_true (List.all_eq_true.mp h a hmem)

namespace Rule

/-- A dequantization with one scale and zero point, or with those of each channel, moves behind a
pool, a `Relu` or a selection inside the channels. Everything reads what it read before as long as
maxima are not taken under a negative scale, which is also all that keeps the operation from commuting
with the dequantization of any data. -/
theorem channel_move_preserves_reads {I : Interpretation} {s : Session Rat} {id : NodeId} {m : NodeMatch}
    {n : Node Rat} {chain : Dequantization Rat} {v : Slot → Option Values} {q : Values}
    {out : Nat → List Nat} {window : Nat → Index → List Index}
    (hg : s.graph.Regular) (hfilled : s.graph.Filled)
    (hm : transparent.pattern.matchAt s.graph id = some m)
    (hkind : m.kind = .maxPool ∨ m.kind = .relu ∨ m.kind = .interpolate)
    (hcan : transparent.canApply s.context s.graph m = .ok true) (hn : s.graph.node? id = some n)
    (hchain : Dequantization.ofInput s.graph id 0 = some chain) (hv : I.Evaluates s.graph v)
    (hq : v chain.data = some q) (hparams : chain.params.Forall (·.AlongChannels q.shape))
    (hop : ∀ k, s.graph.IsRead ⟨id, k⟩ →
      I.Combines id n.op q.shape (n.inputs.tail.map v) k (out k) (window k)) :
    ∃ s', exec (transparent.apply m) s = .ok (.ok true, s') ∧ (∃ v', I.Evaluates s'.graph v') ∧
      ((∀ k, s.graph.IsRead ⟨id, k⟩ →
          Interpretation.KeepsMaxima n.op chain.params.scale (out k) (window k)) →
        ∀ v', I.Evaluates s'.graph v' → PreservesReads s.graph s'.graph v v' id chain) ∧
      ∀ k, s.graph.IsRead ⟨id, k⟩ →
        (I.Commutes id n.op q.shape (n.inputs.tail.map v) k chain.params ↔
          Interpretation.KeepsMaxima n.op chain.params.scale (out k) (window k)) := by
  obtain ⟨n', plan, s', keep, hn', -, hplan, hrun, hmove⟩ := moves_of_canApply (.inl rfl) hg hm hcan
  cases hn.symm.trans hn'
  cases hchain.symm.trans (chain_of_movePlan hplan)
  obtain ⟨node, hnode, -, -, hguard, hkeeps⟩ := Layout.transparent_eq_some hplan
  cases hn.symm.trans hnode
  obtain ⟨node, hnode, -, rfl⟩ := Pattern.matchAt_eq_some hm
  cases hn.symm.trans hnode
  dsimp only at hkind
  have hsame : plan.params = plan.chain.params := by
    rcases hkeeps with ⟨-, hp⟩ | ⟨hmoved, -⟩
    · exact hp
    · rcases hkind with hkind | hkind | hkind <;> rw [hkind] at hmoved <;> cases hmoved
  have hkind' : n.op = .maxPool ∨ n.op = .relu ∨ ∃ mode, n.op = .interpolate mode := by
    change n.op.kind = _ ∨ n.op.kind = _ ∨ n.op.kind = _ at hkind
    cases hop' : n.op <;> simp_all [Op.kind]
  have hcommutes : ∀ k, s.graph.IsRead ⟨id, k⟩ →
      (I.Commutes id n.op q.shape (n.inputs.tail.map v) k plan.chain.params ↔
        Interpretation.KeepsMaxima n.op plan.chain.params.scale (out k) (window k)) := by
    intro k hk
    refine Interpretation.commutes_iff hkind' (fun hrelu i hi => ?_) hparams (hop k hk)
    obtain ⟨hpositive, hzero⟩ := hguard (congrArg Op.kind hrelu)
    obtain ⟨output, -, hd⟩ := Option.bind_eq_some_iff.mp hchain
    refine ⟨le_of_lt (Layout.scale_pos (Dequantization.filled_params hfilled hd).1 ?_ hi hpositive),
      Dequantization.zeroAt_eq_zero hzero i⟩
    exact hparams.1.spreadsOver (hop k hk).rank (hop k hk).channels
  have hf : s.graph.face? id = some n.face := face?_eq_some.mpr ⟨n, hn, rfl⟩
  obtain ⟨rank, ends, h⟩ := exists_relocation hg hf hchain hmove
  obtain ⟨rank', hr'⟩ := h.after.acyclic
  refine ⟨s', hrun, Interpretation.exists_evaluates hr', fun hmaxima v' hv' => ?_, hcommutes⟩
  rw [preservesReads_iff hg hf hchain hmove hv hv']
  intro k hk
  rw [hv.behind_chain hg hf hchain, movedValue, hq, Option.bind_some, hsame]
  exact (hcommutes k hk).mpr (hmaxima k hk) q rfl

section Sample

def channelPair (i : Index) : List Index := [[0, i.channel, 0], [0, i.channel, 1]]

def channelMaxima (x : Values) : Option Values :=
  some (.of [1, 2, 1] fun i => (Geometry.combine .maxPool ((channelPair i).map x.get)).getD 0)

theorem combines_channelMaxima (input : Values) (id : NodeId) (others : List (Option Values)) (k : Nat) :
    (Interpretation.ofLayer input channelMaxima).Combines id .maxPool [1, 2, 2] others k [1, 2, 1]
      channelPair := by
  refine ⟨rfl, rfl, fun i _ => by simp [channelPair], fun i hi j hj => ?_, fun x _ => rfl⟩
  have hchannel : i.channel < 2 := hi.channel_lt rfl
  simp only [channelPair, List.mem_cons, List.not_mem_nil, or_false] at hj
  rcases hj with rfl | rfl
  · exact ⟨.cons (by decide) (.cons hchannel (.cons (by decide) .nil)), rfl⟩
  · exact ⟨.cons (by decide) (.cons hchannel (.cons (by decide) .nil)), rfl⟩

structure IsChannelPool (g : Graph Rat) (scale : Rat) : Prop extends
    IsScaledBytes g transparent ⟨[2, 1], [1 / 2, scale]⟩ .maxPool [1, 2, 1] where
  params : (transparent.movePlan? g 4).map Layout.Plan.params = some ⟨⟨[2, 1], [1 / 2, scale]⟩, none⟩
  read : g.IsRead ⟨4, 0⟩

theorem isChannelPool {scale : Rat} (h : scale ∈ [1 / 4, -1 / 2]) :
    IsChannelPool (scaledBytes [1, 2, 2] ⟨[2, 1], [1 / 2, scale]⟩ .maxPool [1, 2, 1]) scale where
  regular := scaledBytes_regular
  filled := scaledBytes_filled (by simp) rfl
  input := by revert scale; decide +kernel
  layer := by revert scale; decide +kernel
  chain := by revert scale; decide +kernel
  found := by revert scale; decide +kernel
  accepted := by revert scale; decide +kernel
  params := by revert scale; decide +kernel
  read := ⟨5, 0, by revert scale; decide +kernel⟩

theorem alongChannels_pair (a b : Rat) :
    (⟨⟨[2, 1], [a, b]⟩, none⟩ : AffineParams Rat).Forall (·.AlongChannels [1, 2, 2]) :=
  ⟨⟨2, Nat.le_succ 2, rfl, .inr rfl⟩, by simp⟩

theorem channel_move_preserves_reads_of_maxPool :
    ∃ I : Interpretation, ∃ v m n chain q, ∃ s : Session Rat, ∃ (out : Nat → List Nat)
      (window : Nat → Index → List Index), s.graph.Regular ∧ s.graph.Filled ∧
      transparent.pattern.matchAt s.graph 4 = some m ∧ m.kind = .maxPool ∧
      transparent.canApply s.context s.graph m = .ok true ∧ s.graph.node? 4 = some n ∧
      Dequantization.ofInput s.graph 4 0 = some chain ∧ I.Evaluates s.graph v ∧ v chain.data = some q ∧
      chain.params.Forall (·.AlongChannels q.shape) ∧
      (∀ k, s.graph.IsRead ⟨4, k⟩ →
        I.Combines 4 n.op q.shape (n.inputs.tail.map v) k (out k) (window k)) ∧
      (∀ k, Interpretation.KeepsMaxima n.op chain.params.scale (out k) (window k)) ∧
      ∃ s', exec (transparent.apply m) s = .ok (.ok true, s') ∧ ∃ v', I.Evaluates s'.graph v' ∧
        PreservesReads s.graph s'.graph v v' 4 chain := by
  generalize hdef : scaledBytes [1, 2, 2] ⟨[2, 1], [1 / 2, 1 / 4]⟩ .maxPool [1, 2, 1] = g
  have h : IsChannelPool g (1 / 4) := hdef ▸ isChannelPool (by simp)
  let I := Interpretation.ofLayer (.of [1, 2, 2] fun _ => 1) channelMaxima
  obtain ⟨rank, hr⟩ := h.regular.acyclic
  obtain ⟨v, hv⟩ := I.exists_evaluates hr
  have hparams := alongChannels_pair (1 / 2) (1 / 4)
  have hcombines : ∀ k, g.IsRead ⟨4, k⟩ → I.Combines 4 .maxPool [1, 2, 2] [] k [1, 2, 1] channelPair :=
    fun k _ => combines_channelMaxima _ _ _ k
  have hspread : Tensor.SpreadsOver ⟨[2, 1], [1 / 2, 1 / 4]⟩ [1, 2, 1] := hparams.1.spreadsOver rfl rfl
  have hmaxima : Interpretation.KeepsMaxima .maxPool ⟨[2, 1], [1 / 2, 1 / 4]⟩ [1, 2, 1] channelPair :=
    fun _ i hi => .inl (le_of_lt (Layout.scale_pos (p := ⟨⟨[2, 1], [1 / 2, 1 / 4]⟩, none⟩) rfl hspread hi
      (by decide +kernel)))
  obtain ⟨s', hrun, ⟨v', hv'⟩, hreads, -⟩ := channel_move_preserves_reads (s := ⟨g, .start .default⟩)
    h.regular h.filled h.found (.inl rfl) h.accepted h.layer h.chain hv (h.value hv) hparams hcombines
  exact ⟨I, v, _, _, _, _, ⟨g, .start .default⟩, fun _ => [1, 2, 1], fun _ => channelPair, h.regular,
    h.filled, h.found, rfl, h.accepted, h.layer, h.chain, hv, h.value hv, hparams, hcombines,
    fun _ => hmaxima, s', hrun, v', hv', hreads (fun _ _ => hmaxima) v' hv'⟩

theorem negative_scale_turns_maxima :
    ∃ I : Interpretation, ∃ v m n chain q, ∃ s : Session Rat, ∃ (out : Nat → List Nat)
      (window : Nat → Index → List Index), s.graph.Regular ∧ s.graph.Filled ∧
      transparent.pattern.matchAt s.graph 4 = some m ∧ m.kind = .maxPool ∧
      transparent.canApply s.context s.graph m = .ok true ∧ s.graph.node? 4 = some n ∧
      Dequantization.ofInput s.graph 4 0 = some chain ∧ I.Evaluates s.graph v ∧ v chain.data = some q ∧
      chain.params.Forall (·.AlongChannels q.shape) ∧
      (∀ k, s.graph.IsRead ⟨4, k⟩ →
        I.Combines 4 n.op q.shape (n.inputs.tail.map v) k (out k) (window k)) ∧
      ∃ s', exec (transparent.apply m) s = .ok (.ok true, s') ∧ ∃ v', I.Evaluates s'.graph v' ∧
        ¬ PreservesReads s.graph s'.graph v v' 4 chain := by
  generalize hdef : scaledBytes [1, 2, 2] ⟨[2, 1], [1 / 2, -1 / 2]⟩ .maxPool [1, 2, 1] = g
  have h : IsChannelPool g (-1 / 2) := hdef ▸ isChannelPool (by simp)
  let q := Values.of [1, 2, 2] fun i => (i.getD 2 0 : Nat)
  let I := Interpretation.ofLayer q channelMaxima
  obtain ⟨rank, hr⟩ := h.regular.acyclic
  obtain ⟨v, hv⟩ := I.exists_evaluates hr
  have hq : v ⟨0, 0⟩ = some q := h.value hv
  have hparams := alongChannels_pair (1 / 2) (-1 / 2)
  have hcombines : ∀ k, g.IsRead ⟨4, k⟩ → I.Combines 4 .maxPool [1, 2, 2] [] k [1, 2, 1] channelPair :=
    fun k _ => combines_channelMaxima _ _ _ k
  obtain ⟨n, ⟨chain, params⟩, s', keep, hn, -, hplan, hrun, hmove⟩ :=
    moves_of_canApply (s := ⟨g, .start .default⟩) (.inl rfl) h.regular h.found h.accepted
  cases h.layer.symm.trans hn
  have hf := face?_eq_some.mpr ⟨_, h.layer, rfl⟩
  have hchain := h.chain
  cases hchain.symm.trans (chain_of_movePlan hplan : Dequantization.ofInput g 4 0 = some chain)
  obtain ⟨_, _, hmoved⟩ := exists_relocation h.regular hf hchain hmove
  obtain ⟨rank', hr'⟩ := hmoved.after.acyclic
  obtain ⟨v', hv'⟩ := I.exists_evaluates hr'
  refine ⟨I, v, _, _, _, _, ⟨g, .start .default⟩, fun _ => [1, 2, 1], fun _ => channelPair, h.regular,
    h.filled, h.found, rfl, h.accepted, h.layer, hchain, hv, hq, hparams, hcombines, s', hrun, v', hv',
    fun hreads => ?_⟩
  have hvalue := (preservesReads_iff h.regular hf hchain hmove hv hv').mp hreads 0 h.read
  have hplanned := h.params
  rw [hplan, Option.map_some, Option.some.injEq] at hplanned
  have hspread : AffineParams.SpreadsOver ⟨⟨[2, 1], [1 / 2, -1 / 2]⟩, none⟩ [1, 2, 2] :=
    AffineParams.spreadsOver_of_alongChannels hparams rfl rfl
  have hspread' : AffineParams.SpreadsOver ⟨⟨[2, 1], [1 / 2, -1 / 2]⟩, none⟩ [1, 2, 1] :=
    AffineParams.spreadsOver_of_alongChannels hparams rfl rfl
  rw [hv.behind_chain h.regular hf hchain, movedValue, hq, Option.bind_some, hplanned,
    AffineParams.dequantize_of_spreadsOver hspread] at hvalue
  change _ = (channelMaxima q).bind _ at hvalue
  rw [channelMaxima, Option.bind_some, AffineParams.dequantize_of_spreadsOver hspread'] at hvalue
  have hat := congrArg (fun x : Values => x.get [0, 1, 0]) (Option.some.inj hvalue)
  revert hat
  decide +kernel

end Sample

end Rule

end LowPrecision
