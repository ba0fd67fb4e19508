import LowPrecision.Proofs.Graph.Backward

namespace LowPrecision.Region

variable {α : Type} {g : Graph α} {c d u v : NodeId} {r r' : Region} {pending queue : List NodeId}

def onward (g : Graph α) (reader : NodeId) (n : Node α) : List NodeId :=
  if n.kind != .concat && g.preservesPrecision reader then g.readerNodes reader else []

theorem mem_concatsBelow : d ∈ concatsBelow g v ↔
    g.Reached (onward g) (g.readerNodes v) d ∧ g.kind? d = some .concat := by
  have hreach : concatsBelow g v =
      (g.reach (onward g) (g.readerNodes v)).filter fun reader => g.kind? reader == some .concat := rfl
  rw [hreach, List.mem_filter, Graph.mem_reach, beq_iff_eq]

theorem concatsBelow_of_reads (hg : g.WellFormed) (hd : g.kind? d = some .concat)
    (hread : g.Reads d v) : d ∈ concatsBelow g v := by
  obtain ⟨n, hn, -⟩ := Option.map_eq_some_iff.mp hd
  exact mem_concatsBelow.mpr
    ⟨.start (hg.mem_readerNodes.mpr hread) (Graph.isLive_of_node? hn), hd⟩

theorem concatsBelow_of_pass (hg : g.WellFormed) (hu : g.Preserved u)
    (hkind : g.kind? u ≠ some .concat) (hread : g.Reads u v) (hd : d ∈ concatsBelow g u) :
    d ∈ concatsBelow g v := by
  obtain ⟨hreached, hconcat⟩ := mem_concatsBelow.mp hd
  refine mem_concatsBelow.mpr ⟨?_, hconcat⟩
  obtain ⟨k, hk, -⟩ := hu.kind
  obtain ⟨n, hn, rfl⟩ := Option.map_eq_some_iff.mp hk
  have hfirst : g.Reached (onward g) (g.readerNodes v) u :=
    .start (hg.mem_readerNodes.mpr hread) (Graph.isLive_of_node? hn)
  have honward : onward g u n = g.readerNodes u := by
    have hne : n.kind ≠ .concat := fun he => hkind (hk.trans (congrArg some he))
    simp [onward, hne, hu.passes]
  clear hd hconcat
  induction hreached with
  | start hmem hlive => exact hfirst.step hn (honward ▸ hmem) hlive
  | step _ hm hmem hlive ih => exact ih.step hm hmem hlive

def Followed (g : Graph α) (r : Region) (pending : List NodeId) : Prop :=
  ∀ fq ∈ r.boundary, ∀ d ∈ concatsBelow g fq, d ∈ r.concats ∨ d ∈ pending

theorem Followed.pop (h : Followed g r (c :: pending)) (hc : c ∈ r.concats) :
    Followed g r pending := by
  intro fq hfq d hd
  rcases h fq hfq d hd with hmem | hmem
  · exact .inl hmem
  rcases List.mem_cons.mp hmem with rfl | hmem
  · exact .inl hc
  · exact .inr hmem

theorem Followed.mono (h : Followed g r pending) (hboundary : r'.boundary = r.boundary)
    (hconcats : ∀ d ∈ r.concats, d ∈ r'.concats) : Followed g r' pending :=
  fun fq hfq d hd => (h fq (hboundary ▸ hfq) d hd).imp_left (hconcats d)

theorem concats_addLayer (r : Region) (id : NodeId) (kind : OpKind) :
    ∀ d ∈ r.concats, d ∈ (r.addLayer id kind).concats := by
  intro d hd
  rw [addLayer]
  split
  · exact List.mem_append_left _ hd
  · exact hd

theorem followed_of_grow (h : Followed g r pending)
    (hpending : ∀ d ∈ pending, g.kind? d = some .concat)
    (hgrow : grow g true r pending queue = .ok r') : Followed g r' [] := by
  fun_induction grow g true r pending queue with
  | case1 => cases hgrow; exact h
  | case2 r c pending hdead ih =>
    have hkind := hpending c List.mem_cons_self
    rw [Graph.kind?, hdead] at hkind
    cases hkind
  | case3 r c pending n hn hmem ih =>
    exact ih (h.pop hmem) (List.forall_mem_cons.mp hpending).2 hgrow
  | case4 r c pending n hn hmem ih =>
    have hadded : Followed g (r.addConcat c) (c :: pending) :=
      h.mono rfl fun d hd => List.mem_append_left _ hd
    have hc : c ∈ (r.addConcat c).concats := List.mem_append_right _ (List.mem_singleton_self c)
    exact ih (hadded.pop hc) (List.forall_mem_cons.mp hpending).2 hgrow
  | case5 r pending id queue hdead ih => exact ih h hpending hgrow
  | case6 r pending id queue n hn hmem ih => exact ih h hpending hgrow
  | case7 r pending id queue n hn hmem hkind below ih =>
    refine ih (fun fq hfq d hd => ?_) (List.forall_mem_append.mpr ⟨hpending, fun d hd =>
      concat_of_mem_concatsBelow hd⟩) hgrow
    rcases List.mem_append.mp hfq with hfq | hfq
    · exact (h fq hfq d hd).imp_right (List.mem_append_left _)
    · rw [List.mem_singleton.mp hfq] at hd
      exact .inr (List.mem_append_right _ hd)
  | case8 r pending id queue n hn hmem hkind hpass ih =>
    exact ih (h.mono (Growing.boundary_addLayer r id n.kind) (concats_addLayer r id n.kind)) hpending
      hgrow
  | case9 => cases hgrow

theorem concatsBelow_of_around (h : around g c = .ok r) {fq : NodeId} (hfq : fq ∈ r.boundary)
    (hd : d ∈ concatsBelow g fq) : d ∈ r.concats := by
  have hfollowed : Followed g r [] := by
    rw [around, collect] at h
    split at h
    · next hkind => exact followed_of_grow (by simp [Followed, empty]) (by simpa using hkind) h
    · cases h
  exact (hfollowed fq hfq d hd).resolve_right List.not_mem_nil

/-- From each concatenation over the boundary that is passed through, the search stays in the region. -/
def Continued (g : Graph α) (r : Region) : Prop :=
  ∀ e ∈ r.concats, g.Preserved e → (∃ fq ∈ r.boundary, g.Behind e fq) →
    ∀ d ∈ concatsBelow g e, g.Behind d e → d ∈ r.concats

theorem Continued.mem_concats (hg : g.WellFormed) (h : Continued g r) {fq : NodeId}
    (hfq : fq ∈ r.boundary) (hd : g.kind? d = some .concat) (hv : g.Behind d v)
    (hover : ∀ e, g.Behind e v → g.Behind e fq)
    (hbelow : ∀ e ∈ concatsBelow g v, g.Behind e v → e ∈ r.concats) : d ∈ r.concats := by
  induction hv with
  | producer hread => exact hbelow d (concatsBelow_of_reads hg hd hread) (.producer hread)
  | @pass u v hu hpreserved hread ih =>
    have hup : ∀ e, g.Behind e u → g.Behind e v := fun e he => he.pass hpreserved hread
    refine ih (fun e he => hover e (hup e he)) fun e he hbehind => ?_
    by_cases hkind : g.kind? u = some .concat
    · have hmem := hbelow u (concatsBelow_of_reads hg hkind hread) (.producer hread)
      exact h u hmem hpreserved ⟨fq, hfq, hover u (.producer hread)⟩ e he hbehind
    · exact hbelow e (concatsBelow_of_pass hg hpreserved hkind hread he) (hup e hbehind)

/-- The search forward stays in the region as far as it goes. All concatenations over a
fake-quantize of the region belong to it exactly when the search could also go on from those that it
stops at. -/
theorem neighbours_taken_iff (hg : g.WellFormed) (h : around g c = .ok r) :
    (∀ fq ∈ r.boundary, ∀ d ∈ concatsBelow g fq, d ∈ r.concats) ∧
    ((∀ d fq, g.kind? d = some .concat → fq ∈ r.boundary → g.Behind d fq → d ∈ r.concats) ↔
      Continued g r) := by
  have hbelow : ∀ fq ∈ r.boundary, ∀ d ∈ concatsBelow g fq, d ∈ r.concats :=
    fun fq hfq d hd => concatsBelow_of_around h hfq hd
  refine ⟨hbelow, fun hall e _ hpreserved ⟨fq, hfq, hefq⟩ d hd hde => ?_, fun hnext d fq hd hfq hdfq => ?_⟩
  · exact hall d fq (mem_concatsBelow.mp hd).2 hfq (hde.trans hpreserved hefq)
  · exact hnext.mem_concats hg hfq hd hdfq (fun _ he => he) fun e he _ => hbelow fq hfq e he

def overlapping : Graph Rat :=
  let ports : List Port := [⟨.f32, some [1, 2]⟩]
  Graph.assemble [("x", .parameter, [], ports), ("fq0", .fakeQuantize 256, [⟨0, 0⟩], ports),
    ("fq1", .fakeQuantize 256, [⟨0, 0⟩], ports), ("fq2", .fakeQuantize 256, [⟨0, 0⟩], ports),
    ("pool", .maxPool, [⟨2, 0⟩], ports), ("left", .concat 1, [⟨1, 0⟩, ⟨4, 0⟩], ports),
    ("right", .concat 1, [⟨2, 0⟩, ⟨3, 0⟩], ports)]

theorem neighbours_taken_of_overlapping : overlapping.WellFormed ∧
    around overlapping 5 = .ok ⟨[5, 6], [4, 5, 6], [1, 2, 3]⟩ ∧
    Continued overlapping ⟨[5, 6], [4, 5, 6], [1, 2, 3]⟩ ∧
    ∀ d fq, overlapping.kind? d = some .concat → fq ∈ [1, 2, 3] → overlapping.Behind d fq →
      d ∈ [5, 6] := by
  have hg : overlapping.WellFormed := (Graph.assemble_ordered _).1
  have hgrow : growWithin overlapping true 20 .empty [5] [] =
      some ⟨[5, 6], [4, 5, 6], [1, 2, 3]⟩ := by decide +kernel
  have hrun : around overlapping 5 = .ok ⟨[5, 6], [4, 5, 6], [1, 2, 3]⟩ :=
    collect_of_growWithin (by decide +kernel) hgrow
  have hcontinued : Continued overlapping ⟨[5, 6], [4, 5, 6], [1, 2, 3]⟩ := by
    have hnone : ∀ e ∈ [5, 6], concatsBelowWithin overlapping 20 e = some [] := by decide +kernel
    intro e he _ _ d hd
    rw [concatsBelow_of_within (hnone e he)] at hd
    exact absurd hd List.not_mem_nil
  exact ⟨hg, hrun, hcontinued, (neighbours_taken_iff hg hrun).2.mpr hcontinued⟩

def stacked : Graph Rat :=
  let ports : List Port := [⟨.f32, some [1, 2]⟩]
  Graph.assemble [("x", .parameter, [], ports), ("fq0", .fakeQuantize 256, [⟨0, 0⟩], ports),
    ("fq1", .fakeQuantize 256, [⟨0, 0⟩], ports), ("fq2", .fakeQuantize 256, [⟨0, 0⟩], ports),
    ("lower", .concat 1, [⟨1, 0⟩, ⟨2, 0⟩], ports), ("upper", .concat 1, [⟨4, 0⟩, ⟨3, 0⟩], ports),
    ("y", .result, [⟨5, 0⟩], [])]

theorem neighbour_missed : stacked.WellFormed ∧ stacked.Acyclic ∧
    around stacked 4 = .ok ⟨[4], [4], [1, 2]⟩ ∧
    ¬ (∀ d fq, stacked.kind? d = some .concat → fq ∈ [1, 2] → stacked.Behind d fq → d ∈ [4]) ∧
    around stacked 5 = .ok ⟨[5, 4], [4, 5], [3, 1, 2]⟩ := by
  have hlower : growWithin stacked true 20 .empty [4] [] = some ⟨[4], [4], [1, 2]⟩ := by decide +kernel
  have hupper : growWithin stacked true 20 .empty [5] [] = some ⟨[5, 4], [4, 5], [3, 1, 2]⟩ := by
    decide +kernel
  have hpreserved : stacked.Preserved 4 := ⟨⟨.concat, by decide +kernel, by decide⟩, by decide +kernel⟩
  have hbehind : stacked.Behind 5 1 :=
    .pass (.producer ⟨0, ⟨4, 0⟩, by decide +kernel, rfl⟩) hpreserved
      ⟨0, ⟨1, 0⟩, by decide +kernel, rfl⟩
  refine ⟨(Graph.assemble_ordered _).1, Graph.assemble_acyclic _,
    collect_of_growWithin (by decide +kernel) hlower, fun h => ?_,
    collect_of_growWithin (by decide +kernel) hupper⟩
  exact absurd (h 5 1 (by decide +kernel) (by decide) hbehind) (by decide)

end LowPrecision.Region
