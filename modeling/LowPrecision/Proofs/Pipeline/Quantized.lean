import LowPrecision.Pipeline
import LowPrecision.Proofs.Graph.Faces
import LowPrecision.Proofs.Graph.Walks
import LowPrecision.Proofs.Quantization.Channels

namespace LowPrecision.Graph

variable {α : Type} {g g' : Graph α} {u v y : NodeId} {r : Ranges α}

/-- A fake-quantize whose bounds are constants that go together, with a level count that the integer
types have and one value for each range or one for each channel. -/
structure Decomposes (g : Graph α) (v : NodeId) (r : Ranges α) : Prop where
  op : ∃ n, g.node? v = some n ∧ n.op = .fakeQuantize r.levels
  inputLow : (g.input? v 1).bind g.constant? = some r.inputLow
  inputHigh : (g.input? v 2).bind g.constant? = some r.inputHigh
  outputLow : (g.input? v 3).bind g.constant? = some r.outputLow
  outputHigh : (g.input? v 4).bind g.constant? = some r.outputHigh
  inputs : r.inputLow.size = r.inputHigh.size
  outputs : r.outputLow.size = r.outputHigh.size
  levels : r.levels = 255 ∨ r.levels = 256
  layout : ∃ port, g.port? ⟨v, 0⟩ = some port ∧
    ∀ t ∈ [r.inputLow, r.inputHigh, r.outputLow, r.outputHigh], t.size = 1 ∨ ∃ shape,
      port.shape = some shape ∧
        t.size = shape[if g.inputKind? v 0 = some .constant then 0 else 1]?.getD 1

def Decomposable (g : Graph α) (v : NodeId) : Prop := ∃ r, g.Decomposes v r

def FeedsResult (g : Graph α) (v : NodeId) : Prop :=
  ∃ y, g.kind? y = some .result ∧ Relation.ReflTransGen g.Reads y v

section Ranges

theorem hasSupportedLayout_iff : r.hasSupportedLayout g v = true ↔ ∃ port, g.port? ⟨v, 0⟩ = some port ∧
    ∀ t ∈ [r.inputLow, r.inputHigh, r.outputLow, r.outputHigh], t.size = 1 ∨ ∃ shape,
      port.shape = some shape ∧
        t.size = shape[if g.inputKind? v 0 = some .constant then 0 else 1]?.getD 1 := by
  rw [Ranges.hasSupportedLayout]
  split
  · next hport => simp [hport]
  · next type hport => simp [hport, Ranges.tensors]
  · next type shape hport => simp [hport, Ranges.tensors]

def supports (g : Graph α) (v : NodeId) : Bool :=
  match Ranges.ofNode g v with
  | .ok r => r.hasSupportedLayout g v
  | .error _ => false

theorem decomposes_iff :
    g.Decomposes v r ↔ Ranges.ofNode g v = .ok r ∧ r.hasSupportedLayout g v = true := by
  have hlevels : isSupportedLevels r.levels = true ↔ r.levels = 255 ∨ r.levels = 256 := by
    simp [isSupportedLevels]
  rw [hasSupportedLayout_iff]
  constructor
  · rintro ⟨⟨n, hn, hop⟩, hlow, hhigh, houtLow, houtHigh, hin, hout, hsupported, hlayout⟩
    refine ⟨?_, hlayout⟩
    simp only [input?, hn, Option.bind_some] at hlow hhigh houtLow houtHigh
    rw [Ranges.ofNode, hn]
    simp only [hop, hlow, hhigh, houtLow, houtHigh]
    exact Ranges.make_eq_ok.mpr ⟨hin, hout, hlevels.mpr hsupported, rfl⟩
  · rintro ⟨h, hlayout⟩
    obtain ⟨n, _, _, _, _, _, _, hn, hop, hinputs, hlow, hhigh, houtLow, houtHigh, hin, hout, hsupported⟩ :=
      Ranges.ofNode_eq_ok.mp h
    have hinput : ∀ i, g.input? v i = n.inputs[i]? := fun i => by rw [input?, hn]; rfl
    refine ⟨⟨n, hn, hop⟩, ?_, ?_, ?_, ?_, hin, hout, hlevels.mp hsupported, hlayout⟩ <;>
      rw [hinput, hinputs] <;> assumption

theorem supports_iff : g.supports v = true ↔ g.Decomposable v := by
  simp only [Decomposable, decomposes_iff]
  rw [supports]
  split
  · next r h => simp [h]
  · next e h => simp [h]

end Ranges

section Search

/-- A search for a fake-quantize that can be decomposed. It visits any node that it has found and goes on
to what that node reads, until it meets one or has seen all. -/
inductive Search (g : Graph α) : Set NodeId → Set NodeId → Bool → Prop
  | exhausted {seen : Set NodeId} : Search g seen ∅ false
  | found {seen pending : Set NodeId} {v : NodeId} : v ∈ pending → g.Decomposable v →
      Search g seen pending true
  | visit {seen pending rest : Set NodeId} {v : NodeId} {answer : Bool} : v ∈ pending →
      ¬ g.Decomposable v → (∀ u ∈ rest, u ∈ pending ∨ g.Reads v u) →
      (∀ u ∈ pending, u ≠ v → u ∈ rest) →
      (∀ u, g.Reads v u → u ∈ insert v seen ∨ u ∈ rest) → Search g (insert v seen) rest answer →
      Search g seen pending answer

structure Explored (g : Graph α) (seen pending : Set NodeId) : Prop where
  sound (v : NodeId) : v ∈ pending → g.FeedsResult v
  results (y : NodeId) : g.kind? y = some .result → y ∈ seen ∨ y ∈ pending
  closed (v u : NodeId) : v ∈ seen → g.Reads v u → u ∈ seen ∨ u ∈ pending
  plain (v : NodeId) : v ∈ seen → ¬ g.Decomposable v

theorem Explored.seen_of_feeds {seen : Set NodeId} (h : g.Explored seen ∅) (hv : g.FeedsResult v) :
    v ∈ seen := by
  obtain ⟨y, hy, hpath⟩ := hv
  induction hpath with
  | refl => exact (h.results y hy).resolve_right (Set.notMem_empty y)
  | tail _ hread ih => exact (h.closed _ _ ih hread).resolve_right (Set.notMem_empty _)

theorem FeedsResult.tail (h : g.FeedsResult v) (hread : g.Reads v u) : g.FeedsResult u :=
  h.imp fun _ ⟨hy, hpath⟩ => ⟨hy, hpath.tail hread⟩

theorem Search.answer_iff {seen pending : Set NodeId} {answer : Bool} (h : g.Search seen pending answer)
    (hexplored : g.Explored seen pending) :
    answer = true ↔ ∃ q, g.FeedsResult q ∧ g.Decomposable q := by
  induction h with
  | exhausted =>
    refine ⟨fun h => absurd h Bool.false_ne_true, fun ⟨q, hfeeds, hq⟩ => ?_⟩
    exact absurd hq (hexplored.plain q (hexplored.seen_of_feeds hfeeds))
  | found hv hq => exact ⟨fun _ => ⟨_, hexplored.sound _ hv, hq⟩, fun _ => rfl⟩
  | @visit seen pending rest v answer hv hplain hsound hkeeps hreads _ ih =>
    refine ih ⟨fun u hu => ?_, fun y hy => ?_, fun w u hw hread => ?_, fun w hw => ?_⟩
    · exact (hsound u hu).elim (hexplored.sound u) (hexplored.sound v hv).tail
    · by_cases hyv : y = v
      · exact .inl (.inl hyv)
      · exact (hexplored.results y hy).imp .inr fun hpending => hkeeps y hpending hyv
    · rcases hw with rfl | hw
      · exact hreads u hread
      · by_cases huv : u = v
        · exact .inl (.inl huv)
        · exact (hexplored.closed w u hw hread).imp .inr fun hpending => hkeeps u hpending huv
    · rcases hw with rfl | hw
      · exact hplain
      · exact hexplored.plain w hw

theorem mem_results : y ∈ g.results ↔ g.kind? y = some .result := by
  simp [results, ofKind, WellFormed.mem_liveNodes, kind?]

theorem explored_results : g.Explored ∅ {y | g.kind? y = some .result} where
  sound y hy := ⟨y, hy, .refl⟩
  results _ hy := .inr hy
  closed _ _ hv := absurd hv (Set.notMem_empty _)
  plain _ hv := absurd hv (Set.notMem_empty _)

theorem search_walk (hg : g.WellFormed) {visited queue : List NodeId}
    (hqueue : ∀ v ∈ queue, g.isLive v = true) (hplain : ∀ v ∈ visited, ¬ g.Decomposable v)
    (hleads : g.Leads (fun _ n => n.producers) visited queue) :
    g.Search {v | v ∈ visited} {v | v ∈ queue}
      ((g.walk (fun _ n => n.producers) visited queue).any g.supports) := by
  -- The walk looks at nodes that it has seen as at new ones, without asking whether they can be
  -- decomposed: they cannot.
  fun_induction walk g (fun _ n => n.producers) visited queue with
  | case1 visited =>
    have hnone : visited.any g.supports = false := by
      simpa [List.any_eq_false, supports_iff] using hplain
    have hempty : {v : NodeId | v ∈ []} = ∅ := Set.eq_empty_of_forall_notMem fun _ => List.not_mem_nil
    rw [hnone, hempty]
    exact .exhausted
  | case2 visited id queue hn =>
    exact absurd (hqueue id List.mem_cons_self) (not_isLive_of_none hn)
  | case3 visited id queue n hn hmem ih =>
    have hskip := hleads.skip fun _ => hmem
    have hrest := ih (List.forall_mem_cons.mp hqueue).2 hplain hskip
    rw [← Set.insert_eq_of_mem (show id ∈ {v | v ∈ visited} from hmem)] at hrest
    refine .visit List.mem_cons_self (hplain id hmem) (fun u hu => .inl (List.mem_cons_of_mem id hu))
      (fun u hu hne => (List.mem_cons.mp hu).resolve_left hne) (fun u hread => ?_) hrest
    exact (hskip id hmem n hn u ((mem_producers hn).mpr hread) (hg.live_of_reads hread)).imp_left .inr
  | case4 visited id queue n hn hmem ih =>
    by_cases hid : g.Decomposable id
    · have hfound := (walk_closed (hleads.visit hn)).1 id List.mem_cons_self
      rw [List.any_eq_true.mpr ⟨id, hfound, supports_iff.mpr hid⟩]
      exact .found List.mem_cons_self hid
    · have hproducers : ∀ u, u ∈ queue ++ n.producers ↔ u ∈ queue ∨ g.Reads id u := fun u => by
        rw [List.mem_append, mem_producers hn]
      have hseen : {v | v ∈ id :: visited} = insert id {v | v ∈ visited} :=
        Set.ext fun _ => List.mem_cons
      have hlive : ∀ u ∈ queue ++ n.producers, g.isLive u = true := fun u hu =>
        ((hproducers u).mp hu).elim ((List.forall_mem_cons.mp hqueue).2 u) hg.live_of_reads
      have hrest := ih hlive (List.forall_mem_cons.mpr ⟨hid, hplain⟩) (hleads.visit hn)
      rw [hseen] at hrest
      refine .visit List.mem_cons_self hid (fun u hu => ?_) (fun u hu hne => ?_)
        (fun u hread => .inr ((hproducers u).mpr (.inr hread))) hrest
      · exact ((hproducers u).mp hu).imp_left (List.mem_cons_of_mem id)
      · exact (hproducers u).mpr (.inl ((List.mem_cons.mp hu).resolve_left hne))

theorem search_isQuantized (hg : g.WellFormed) :
    g.Search ∅ {y | g.kind? y = some .result} g.isQuantized := by
  have hlive : ∀ y ∈ g.results, g.isLive y = true := fun y hy => by
    obtain ⟨n, hn, -⟩ := Option.map_eq_some_iff.mp (mem_results.mp hy)
    exact isLive_of_node? hn
  have hwalk := search_walk hg hlive (fun _ hv => absurd hv List.not_mem_nil)
    (fun _ hv => absurd hv List.not_mem_nil)
  have hresults : {y | y ∈ g.results} = {y | g.kind? y = some .result} := Set.ext fun _ => mem_results
  have hnone : {v : NodeId | v ∈ []} = ∅ := Set.eq_empty_of_forall_notMem fun _ => List.not_mem_nil
  rw [hresults, hnone, ← List.any_reverse] at hwalk
  exact hwalk

end Search

section Irrelevance

theorem Decomposes.congr (h : g.Decomposes v r) (hface : g'.face? v = g.face? v)
    (hreads : ∀ u, g.Reads v u → g'.face? u = g.face? u) : g'.Decomposes v r := by
  have hinput : ∀ i, g'.input? v i = g.input? v i := fun i => by
    rw [input?_eq_face, hface, ← input?_eq_face]
  have hconstant : ∀ i, (g'.input? v i).bind g'.constant? = (g.input? v i).bind g.constant? := fun i => by
    rw [hinput]
    refine Option.bind_congr fun s hs => ?_
    rw [constant?_eq_face, hreads s.node ⟨i, s, hs, rfl⟩, ← constant?_eq_face]
  have hkind : g'.inputKind? v 0 = g.inputKind? v 0 := by
    rw [inputKind?, producer?, hinput, inputKind?, producer?, Option.bind_map, Option.bind_map]
    refine Option.bind_congr fun s hs => ?_
    rw [Function.comp_apply, kind?_eq_face, hreads s.node ⟨0, s, hs, rfl⟩, ← kind?_eq_face]
    rfl
  obtain ⟨n, hn, hop⟩ := h.op
  obtain ⟨n', hn', hsame⟩ := face?_eq_some.mp (hface.trans (face?_eq_some.mpr ⟨n, hn, rfl⟩))
  refine {
    op := ⟨n', hn', (congrArg Face.op hsame).trans hop⟩
    inputLow := ?inputLow
    inputHigh := ?inputHigh
    outputLow := ?outputLow
    outputHigh := ?outputHigh
    inputs := h.inputs
    outputs := h.outputs
    levels := h.levels
    layout := ?layout }
  case inputLow =>
    exact (hconstant 1).trans h.inputLow
  case inputHigh =>
    exact (hconstant 2).trans h.inputHigh
  case outputLow =>
    exact (hconstant 3).trans h.outputLow
  case outputHigh =>
    exact (hconstant 4).trans h.outputHigh
  case layout =>
    rw [port?_eq_face, hface, hkind]
    simpa only [port?_eq_face] using h.layout

theorem reads_congr (hface : g'.face? v = g.face? v) : g'.Reads v u ↔ g.Reads v u := by
  simp only [Reads, input?_eq_face, hface]

theorem feedsResult_congr
    (h : ∀ v, g.FeedsResult v ∨ g'.kind? v = some .result → g'.face? v = g.face? v) :
    g'.FeedsResult v ↔ g.FeedsResult v := by
  have hkind : ∀ {y : NodeId}, g.FeedsResult y ∨ g'.kind? y = some .result → g'.kind? y = g.kind? y :=
    fun hy => by rw [kind?_eq_face, h _ hy, ← kind?_eq_face]
  constructor
  · rintro ⟨y, hy, hpath⟩
    induction hpath with
    | refl => exact ⟨y, hkind (.inr hy) ▸ hy, .refl⟩
    | tail _ hread ih => exact ih.tail ((reads_congr (h _ (.inl ih))).mp hread)
  · rintro ⟨y, hy, hpath⟩
    refine ⟨y, (hkind (.inl ⟨y, hy, .refl⟩)).trans hy, ?_⟩
    induction hpath with
    | refl => exact .refl
    | tail hpath hread ih => exact ih.tail ((reads_congr (h _ (.inl ⟨y, hy, hpath⟩))).mpr hread)

theorem decomposable_congr
    (h : ∀ v, g.FeedsResult v ∨ g'.kind? v = some .result → g'.face? v = g.face? v)
    (hv : g.FeedsResult v) : g'.Decomposable v ↔ g.Decomposable v := by
  have hface := h v (.inl hv)
  have hreads : ∀ u, g.Reads v u → g'.face? u = g.face? u := fun u hread => h u (.inl (hv.tail hread))
  exact ⟨fun ⟨r, hr⟩ => ⟨r, hr.congr hface.symm fun u hread =>
    (hreads u ((reads_congr hface).mp hread)).symm⟩, fun ⟨r, hr⟩ => ⟨r, hr.congr hface hreads⟩⟩

end Irrelevance

/-- A graph is quantized just when a fake-quantize that can be decomposed lies behind a result. Every search
from the results says so, the one that is made among them, and nothing else in the graph has a say. -/
theorem isQuantized_exact (hg : g.WellFormed) :
    (g.isQuantized = true ↔ ∃ q, g.FeedsResult q ∧ ∃ r, g.Decomposes q r) ∧
    (g.Search ∅ {y | g.kind? y = some .result} g.isQuantized ∧
      ∀ answer, g.Search ∅ {y | g.kind? y = some .result} answer → answer = g.isQuantized) ∧
    ∀ g' : Graph α, g'.WellFormed →
      (∀ v, g.FeedsResult v ∨ g'.kind? v = some .result → g'.face? v = g.face? v) →
        g'.isQuantized = g.isQuantized := by
  have hiff : ∀ {g : Graph α}, g.WellFormed →
      (g.isQuantized = true ↔ ∃ q, g.FeedsResult q ∧ g.Decomposable q) := fun hg =>
    (search_isQuantized hg).answer_iff explored_results
  refine ⟨hiff hg, ⟨search_isQuantized hg, fun answer hsearch => ?_⟩, fun g' hg' hsame => ?_⟩
  · rw [Bool.eq_iff_iff, hiff hg, hsearch.answer_iff explored_results]
  · rw [Bool.eq_iff_iff, hiff hg, hiff hg']
    refine exists_congr fun q => ?_
    rw [feedsResult_congr hsame]
    exact and_congr_right (decomposable_congr hsame)

def quantizedLoop : Graph Rat :=
  let ports : List Port := [⟨.f32, some [1, 2]⟩]
  let bounds : List Slot := [⟨1, 0⟩, ⟨2, 0⟩, ⟨1, 0⟩, ⟨2, 0⟩]
  let built : Graph Rat := Graph.assemble [("x", .parameter, [], ports),
    ("low", .constant (.scalar 0), [], [⟨.f32, some []⟩]),
    ("high", .constant (.scalar (255 / 4)), [], [⟨.f32, some []⟩]),
    ("fine", .fakeQuantize 256, ⟨0, 0⟩ :: bounds, ports),
    ("coarse", .fakeQuantize 16, ⟨3, 0⟩ :: bounds, ports), ("sum", .add, [⟨4, 0⟩, ⟨4, 0⟩], ports),
    ("back", .relu, [⟨5, 0⟩], ports), ("y", .result, [⟨6, 0⟩], []),
    ("aside", .fakeQuantize 256, ⟨0, 0⟩ :: bounds, ports)]
  (built.setInput 5 1 ⟨6, 0⟩).2

theorem isQuantized_exact_of_quantizedLoop : quantizedLoop.WellFormed ∧ quantizedLoop.HasCycle ∧
    (quantizedLoop.FeedsResult 3 ∧ ∃ r, quantizedLoop.Decomposes 3 r) ∧ ¬ quantizedLoop.Decomposable 4 ∧
    quantizedLoop.isQuantized = true ∧
    ∀ answer, quantizedLoop.Search ∅ {y | quantizedLoop.kind? y = some .result} answer → answer = true := by
  have hg : quantizedLoop.WellFormed :=
    (sound_setInput (assemble_ordered _).1 5 1 ⟨6, 0⟩).wellFormed
  have hread {v u : NodeId} (h : v ∈ quantizedLoop.readerNodes u) : quantizedLoop.Reads v u :=
    hg.mem_readerNodes.mp h
  have hcycle : quantizedLoop.HasCycle :=
    ⟨5, .tail (.single (hread (by decide +kernel : 5 ∈ quantizedLoop.readerNodes 6)))
      (hread (by decide +kernel))⟩
  have hfeeds : quantizedLoop.FeedsResult 3 := by
    have hresult : quantizedLoop.FeedsResult 7 := ⟨7, by decide +kernel, .refl⟩
    have hback : quantizedLoop.FeedsResult 6 := hresult.tail (hread (by decide +kernel))
    have hsum : quantizedLoop.FeedsResult 5 := hback.tail (hread (by decide +kernel))
    have hcoarse : quantizedLoop.FeedsResult 4 := hsum.tail (hread (by decide +kernel))
    exact hcoarse.tail (hread (by decide +kernel))
  have hfine : quantizedLoop.Decomposable 3 := supports_iff.mp (by decide +kernel)
  have hcoarse : ¬ quantizedLoop.Decomposable 4 := fun h => by
    have hno : quantizedLoop.supports 4 = false := by decide +kernel
    rw [supports_iff.mpr h] at hno
    cases hno
  obtain ⟨hiff, ⟨-, hsearch⟩, -⟩ := isQuantized_exact hg
  have htrue := hiff.mpr ⟨3, hfeeds, hfine⟩
  exact ⟨hg, hcycle, ⟨hfeeds, hfine⟩, hcoarse, htrue, fun answer h => (hsearch answer h).trans htrue⟩

end LowPrecision.Graph
