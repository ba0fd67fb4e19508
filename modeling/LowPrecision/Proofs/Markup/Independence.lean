import LowPrecision.Proofs.Markup.Outcomes

namespace LowPrecision

open AttributeStore

variable {α : Type}

namespace MarkupPass

def reads : MarkupPass → List AttributeKind
  | precisions => []
  | averagePooling => [.precisionPreserved]
  | propagatePrecisions => [.precisionRestriction, .precisionPreserved]
  | alignIntervals => [.precisionPreserved]
  | alignParameters => [.precisions, .intervals]

def writes : MarkupPass → List AttributeKind
  | precisions => [.precisionRestriction, .precisionPreserved]
  | averagePooling => [.precisionPreserved]
  | propagatePrecisions => [.precisions]
  | alignIntervals => [.intervals]
  | alignParameters => [.alignment]

/-- The attributes that belong to a pass: all of the kinds that it writes, except that the one for
average poolings has only the marks at these. -/
def owns (g : Graph α) (pass : MarkupPass) (key : AttributeKey) : Bool :=
  key.kind ∈ pass.writes &&
    match pass, key.target with
    | averagePooling, .node id => g.kind? id == some .avgPool
    | averagePooling, .output _ => false
    | _, _ => true

variable {g g' : Graph α} {p : AttributeKind → Prop} {s t : AttributeStore α} {pass : MarkupPass}
  {restrictions : List OperationRestriction} {r : Except TransformError Unit}

theorem owns_eq_false {key : AttributeKey} (h : pass.owns g key = false) :
    key.kind ∉ pass.writes ∨ pass = averagePooling ∧ key.kind = .precisionPreserved ∧
      ∀ v, key.target = .node v → g.kind? v ≠ some .avgPool := by
  by_cases hkind : key.kind ∈ pass.writes
  · refine .inr ?_
    simp only [owns, hkind, decide_true, Bool.true_and] at h
    split at h
    · next v hv =>
      refine ⟨rfl, List.mem_singleton.mp hkind, fun u hu hpool => ?_⟩
      obtain rfl := Target.node.inj (hv.symm.trans hu)
      simp [hpool] at h
    · next slot hslot =>
      refine ⟨rfl, List.mem_singleton.mp hkind, fun u hu => ?_⟩
      cases hslot.symm.trans hu
    · cases h
  · exact .inl hkind

variable [Scalar α]

theorem exec_alignIntervals (restrictions : List OperationRestriction) (g : Graph α) :
    exec (alignIntervals.run restrictions) g =
      (Markup.alignIntervals g).map fun g' => (.ok (), g') := by
  rw [run, exec_bind_ok (exec_getThe g), exec_bind, exec_lift]
  cases Markup.alignIntervals g <;> rfl

theorem exec_alignParameters (restrictions : List OperationRestriction) (g : Graph α) :
    exec (alignParameters.run restrictions) g =
      (Markup.alignParameters g).map fun g' => (.ok (), g') := by
  rw [run, exec_bind_ok (exec_getThe g), exec_bind, exec_lift]
  cases Markup.alignParameters g <;> rfl

theorem run_answers (hordered : OrderedGrids α) (hg : g.WellFormed) (pass : MarkupPass)
    (restrictions : List OperationRestriction) :
    ∃ r g', exec (pass.run restrictions) g = .ok (r, g') := by
  cases pass with
  | precisions | averagePooling => exact ⟨_, _, rfl⟩
  | propagatePrecisions =>
    rw [run, Markup.exec_propagatePrecisions]
    rcases g.topologicalOrder_answers hg with ⟨order, horder⟩ | hcycle
    · obtain ⟨s, hs, -⟩ := Markup.visits_ok (Markup.grouped_clear g.attributes) order
      rw [horder]
      dsimp only
      rw [hs]
      exact ⟨_, _, rfl⟩
    · rw [hcycle]
      exact ⟨_, _, rfl⟩
  | alignIntervals =>
    obtain ⟨g', hg'⟩ := Markup.alignIntervals_ok g
    exact ⟨_, g', by rw [exec_alignIntervals, hg']; rfl⟩
  | alignParameters =>
    obtain ⟨g', hg'⟩ := Markup.alignParameters_ok hordered g
    exact ⟨_, g', by rw [exec_alignParameters, hg']; rfl⟩

theorem run_writes (hrun : exec (pass.run restrictions) g = .ok (r, g')) :
    ∃ s, g' = { g with attributes := s } ∧ Writes pass.writes g.attributes s := by
  cases pass with
  | precisions =>
    cases hrun
    exact ⟨_, rfl, Markup.precisions_writes restrictions g⟩
  | averagePooling =>
    cases hrun
    exact ⟨_, rfl, Markup.averagePooling_writes g⟩
  | propagatePrecisions =>
    have hclear : Writes [.precisions] g.attributes (g.attributes.clear .precisions) :=
      .clear _ (by simp)
    rw [run, Markup.exec_propagatePrecisions] at hrun
    split at hrun
    · obtain ⟨s, hs, hout⟩ := except_map_eq_ok.mp hrun
      cases hout
      exact ⟨s, rfl, hclear.trans (Markup.visits_writes hs)⟩
    · cases hrun
      exact ⟨_, rfl, hclear⟩
    · cases hrun
  | alignIntervals =>
    rw [exec_alignIntervals, Markup.alignIntervals_eq] at hrun
    obtain ⟨k, hk, hout⟩ := except_map_eq_ok.mp hrun
    obtain ⟨s, hs, rfl⟩ := except_map_eq_ok.mp hk
    cases hout
    have hclear : Writes [.intervals] g.attributes (g.attributes.clear .intervals) :=
      .clear _ (by simp)
    exact ⟨s, rfl, hclear.trans (Writes.foldlM id (fun _ _ _ h => Markup.alignRegion_writes h) hs)⟩
  | alignParameters =>
    rw [exec_alignParameters, Markup.alignParameters_eq] at hrun
    obtain ⟨k, hk, hout⟩ := except_map_eq_ok.mp hrun
    obtain ⟨s, hs, rfl⟩ := except_map_eq_ok.mp hk
    cases hout
    have hclear : Writes [.alignment] g.attributes (g.attributes.clear .alignment) :=
      .clear _ (by simp)
    exact ⟨s, rfl, hclear.trans (Writes.foldlM id (fun _ _ _ h => Markup.markGroup_writes h) hs)⟩

theorem run_follows (h : Agree p g.attributes t) (hreads : ∀ kind ∈ pass.reads, p kind)
    (hrun : exec (pass.run restrictions) g = .ok (r, { g with attributes := s })) :
    ∃ u, exec (pass.run restrictions) { g with attributes := t } =
        .ok (r, { g with attributes := u }) ∧
      Agree (fun kind => kind ∈ pass.writes ∨ p kind) s u := by
  cases pass with
  | precisions =>
    obtain ⟨rfl, hs⟩ := Prod.mk.inj (Except.ok.inj hrun)
    obtain rfl := (Graph.mk.inj hs).2.2
    exact ⟨_, rfl, Markup.precisions_agree restrictions h⟩
  | averagePooling =>
    obtain ⟨rfl, hs⟩ := Prod.mk.inj (Except.ok.inj hrun)
    obtain rfl := (Graph.mk.inj hs).2.2
    have hp := hreads .precisionPreserved (by simp [reads])
    refine ⟨_, rfl, (Markup.averagePooling_agree h hp).mono fun kind hkind => ?_⟩
    rcases hkind with hkind | hkind
    · rw [List.mem_singleton.mp hkind]
      exact hp
    · exact hkind
  | propagatePrecisions =>
    obtain ⟨u, hu, hagree⟩ := Markup.propagatePrecisions_follows h (hreads _ (by simp [reads]))
      (hreads _ (by simp [reads])) hrun
    exact ⟨u, hu, hagree.mono fun kind hkind => hkind.imp_left (List.mem_singleton.mp ·)⟩
  | alignIntervals =>
    rw [exec_alignIntervals] at hrun ⊢
    obtain ⟨k, hk, hout⟩ := except_map_eq_ok.mp hrun
    obtain ⟨rfl, rfl⟩ := Prod.mk.inj hout
    obtain ⟨u, hu, hagree⟩ := Markup.alignIntervals_follows h (hreads _ (by simp [reads])) hk
    exact ⟨u, except_map_eq_ok.mpr ⟨_, hu, rfl⟩,
      hagree.mono fun kind hkind => hkind.imp_left (List.mem_singleton.mp ·)⟩
  | alignParameters =>
    rw [exec_alignParameters] at hrun ⊢
    obtain ⟨k, hk, hout⟩ := except_map_eq_ok.mp hrun
    obtain ⟨rfl, rfl⟩ := Prod.mk.inj hout
    obtain ⟨u, hu, hagree⟩ := Markup.alignParameters_follows h (hreads _ (by simp [reads]))
      (hreads _ (by simp [reads])) hk
    exact ⟨u, except_map_eq_ok.mpr ⟨_, hu, rfl⟩,
      hagree.mono fun kind hkind => hkind.imp_left (List.mem_singleton.mp ·)⟩

theorem run_again (hfiled : g.attributes.Filed)
    (hrun : exec (pass.run restrictions) g = .ok (r, g')) :
    exec (pass.run restrictions) g' = .ok (r, g') := by
  by_cases hpool : pass = averagePooling
  · subst hpool
    cases hrun
    exact congrArg (fun k => Except.ok (Except.ok (), k)) (Markup.averagePooling_idem hfiled)
  have hreads : ∀ kind ∈ pass.reads, kind ∉ pass.writes := by
    cases pass <;> first | exact absurd rfl hpool | decide
  obtain ⟨s, rfl, hwrites⟩ := run_writes hrun
  obtain ⟨u, hagain, hagree⟩ := run_follows hwrites.agree hreads hrun
  obtain ⟨v, hv, hwrites'⟩ := run_writes hagain
  obtain rfl := (Graph.mk.inj hv).2.2
  have hs := hwrites.filed hfiled
  have hsame : s = u := hagree.eq (fun kind => Decidable.em _) hs (hwrites'.filed hs)
  rw [← hsame] at hagain
  exact hagain

/-- Every pass, on every well-formed graph with whatever attributes, comes to an end. A second run
directly after it has the same result and leaves the graph as it is. The nodes and names stay, as do all
entries of the snapshot that do not belong to the pass, and only the alignment of parameters changes
the conflicts. -/
theorem run_settles (hordered : OrderedGrids α) (pass : MarkupPass)
    (restrictions : List OperationRestriction) (g : Graph α) (hg : g.WellFormed)
    (hfiled : g.attributes.Filed) :
    ∃ r g', exec (pass.run restrictions) g = .ok (r, g') ∧
      exec (pass.run restrictions) g' = .ok (r, g') ∧
      g'.nodes = g.nodes ∧ g'.names = g.names ∧
      (g'.attributes.snapshot.filter fun e => !pass.owns g e.1) =
        (g.attributes.snapshot.filter fun e => !pass.owns g e.1) ∧
      (pass ≠ alignParameters → g'.attributes.conflicts = g.attributes.conflicts) := by
  obtain ⟨r, g', hrun⟩ := run_answers hordered hg pass restrictions
  refine ⟨r, g', hrun, run_again hfiled hrun, ?_⟩
  obtain ⟨s, rfl, hwrites⟩ := run_writes hrun
  refine ⟨rfl, rfl, filter_snapshot (fun key => !pass.owns g key) (hwrites.filed hfiled) hfiled
    (fun key hkey => ?_) (fun key value hkey hkind => ?_), fun hpass => ?_⟩
  · rw [Bool.not_eq_true'] at hkey
    rcases owns_eq_false hkey with hkind | ⟨rfl, -, hpool⟩
    · exact (hwrites.agree.get? key.target key.kind hkind).symm
    · cases hrun
      exact Markup.averagePooling_get? (.inr hpool)
  · rw [Bool.not_eq_true'] at hkey
    rcases owns_eq_false hkey with hother | ⟨-, hmark, -⟩
    · exact (hwrites.agree.value? (hkind ▸ hother)).symm
    · cases value <;> first | rfl | cases hkind.trans hmark
  · exact (hwrites.agree.conflicts (by cases pass <;> simp_all [writes])).symm

def stale : AttributeStore Binary32 :=
  (((AttributeStore.empty.set (.node 7) (.precisionPreserved false)).set (.node 5)
    (.intervals 4)).set (.output ⟨6, 0⟩) (.precisions 2)).set (.node 12) (.alignment 3)

theorem filed_stale : stale.Filed := (((Filed.empty.set _ _).set _ _).set _ _).set _ _

def looped : Graph Binary32 :=
  let chain : Graph Binary32 := Graph.assemble [("x", .parameter, [], [⟨.f32, some [1, 4]⟩]),
    ("a", .relu, [⟨0, 0⟩], [⟨.f32, some [1, 4]⟩]), ("b", .relu, [⟨1, 0⟩], [⟨.f32, some [1, 4]⟩])]
  { (chain.setInput 1 0 ⟨2, 0⟩).2 with attributes := stale }

theorem run_settles_of_looped :
    OrderedGrids Binary32 ∧ looped.WellFormed ∧ looped.attributes.Filed ∧
      ∃ r g', exec (propagatePrecisions.run defaultRestrictions) looped = .ok (r, g') ∧
        exec (propagatePrecisions.run defaultRestrictions) g' = .ok (r, g') ∧
        g'.nodes = looped.nodes ∧ g'.names = looped.names ∧
        (g'.attributes.snapshot.filter fun e => !propagatePrecisions.owns looped e.1) =
          (looped.attributes.snapshot.filter fun e => !propagatePrecisions.owns looped e.1) ∧
        (propagatePrecisions ≠ alignParameters →
          g'.attributes.conflicts = looped.attributes.conflicts) := by
  have hg : looped.WellFormed :=
    (Graph.sound_setInput (Graph.assemble_ordered _).1 1 0 ⟨2, 0⟩).wellFormed.of_views rfl
      (fun _ => rfl) (fun _ _ => rfl) (fun _ => rfl)
  exact ⟨orderedGrids_binary, hg, filed_stale,
    run_settles orderedGrids_binary propagatePrecisions defaultRestrictions looped hg filed_stale⟩

example : (exec (propagatePrecisions.run defaultRestrictions) looped).map Prod.fst =
    .ok (.error (.graph .cycle)) := by decide +kernel

theorem run_ok (hordered : OrderedGrids α) (hg : g.WellFormed) (hacyclic : g.Acyclic)
    (pass : MarkupPass) (restrictions : List OperationRestriction) :
    ∃ s, exec (pass.run restrictions) g = .ok (.ok (), { g with attributes := s }) ∧
      Writes pass.writes g.attributes s := by
  obtain ⟨r, g', hrun⟩ := run_answers hordered hg pass restrictions
  obtain ⟨s, rfl, hwrites⟩ := run_writes hrun
  refine ⟨s, ?_, hwrites⟩
  -- A pass comes to an end, so that only its answer is left to look at. Of all passes only the one
  -- that asks for a topological order can fail.
  cases pass with
  | precisions | averagePooling =>
    cases hrun
    rfl
  | propagatePrecisions =>
    obtain ⟨rank, hrank⟩ := hacyclic
    obtain ⟨order, horder, -⟩ := Graph.topologicalOrder_ok hg hrank
    rw [run, Markup.exec_propagatePrecisions, horder] at hrun ⊢
    obtain ⟨s', hs', hout⟩ := except_map_eq_ok.mp hrun
    obtain ⟨rfl, hgraph⟩ := Prod.mk.inj hout
    exact except_map_eq_ok.mpr ⟨s', hs', by rw [hgraph]⟩
  | alignIntervals =>
    rw [exec_alignIntervals] at hrun ⊢
    obtain ⟨k, hk, hout⟩ := except_map_eq_ok.mp hrun
    obtain ⟨rfl, rfl⟩ := Prod.mk.inj hout
    exact except_map_eq_ok.mpr ⟨_, hk, rfl⟩
  | alignParameters =>
    rw [exec_alignParameters] at hrun ⊢
    obtain ⟨k, hk, hout⟩ := except_map_eq_ok.mp hrun
    obtain ⟨rfl, rfl⟩ := Prod.mk.inj hout
    exact except_map_eq_ok.mpr ⟨_, hk, rfl⟩

def covers (known : List AttributeKind) : List MarkupPass → Bool
  | [] => true
  | pass :: passes => pass.reads.all (· ∈ known) && covers (pass.writes ++ known) passes

def written (known : List AttributeKind) (passes : List MarkupPass) : List AttributeKind :=
  passes.foldl (fun known pass => pass.writes ++ known) known

theorem runs_agree (hordered : OrderedGrids α) (hg : g.WellFormed) (hacyclic : g.Acyclic)
    {passes : List MarkupPass} {known : List AttributeKind} (hcovers : covers known passes = true)
    (hs : s.Filed) (ht : t.Filed) (h : Agree (· ∈ known) s t) :
    ∃ s' t', exec (passes.forM fun pass => pass.run restrictions) { g with attributes := s } =
        .ok (.ok (), { g with attributes := s' }) ∧
      exec (passes.forM fun pass => pass.run restrictions) { g with attributes := t } =
        .ok (.ok (), { g with attributes := t' }) ∧
      s'.Filed ∧ t'.Filed ∧ Agree (· ∈ written known passes) s' t' := by
  induction passes generalizing known s t with
  | nil => exact ⟨s, t, rfl, rfl, hs, ht, h⟩
  | cons pass passes ih =>
    rw [covers, Bool.and_eq_true, List.all_eq_true] at hcovers
    obtain ⟨hreads, hrest⟩ := hcovers
    have hwf : ∀ a, ({ g with attributes := a } : Graph α).WellFormed :=
      fun a => hg.of_attributes _
    obtain ⟨s₁, hs₁, hwrites⟩ := run_ok hordered (hwf s) hacyclic pass restrictions
    obtain ⟨t₁, ht₁, hagree⟩ := run_follows (g := { g with attributes := s }) h
      (fun kind hkind => of_decide_eq_true (hreads kind hkind)) hs₁
    obtain ⟨t₂, heq, hwrites'⟩ := run_writes ht₁
    obtain rfl := (Graph.mk.inj heq).2.2
    obtain ⟨s', t', hs', ht', hfiled, hfiled', hall⟩ := ih hrest (hwrites.filed hs)
      (hwrites'.filed ht) (hagree.mono fun kind hkind => List.mem_append.mp hkind)
    refine ⟨s', t', ?_, ?_, hfiled, hfiled', hall⟩
    · rw [List.forM, exec_bind_ok hs₁]
      exact hs'
    · rw [List.forM, exec_bind_ok ht₁]
      exact ht'

/-- The analyses do not depend on attributes from before. On the same nodes they succeed and leave the
same store, and with it the same snapshot and the same conflicts, whatever the graphs start with. -/
theorem analyses_ignore_attributes (hordered : OrderedGrids α)
    (restrictions : List OperationRestriction) (g g' : Graph α) (hg : g.WellFormed)
    (hacyclic : g.Acyclic) (hnodes : g'.nodes = g.nodes) (hnames : g'.names = g.names)
    (hfiled : g.attributes.Filed) (hfiled' : g'.attributes.Filed) :
    ∃ s, exec (MarkupPass.all.forM fun pass => pass.run restrictions) g =
        .ok (.ok (), { g with attributes := s }) ∧
      exec (MarkupPass.all.forM fun pass => pass.run restrictions) g' =
        .ok (.ok (), { g' with attributes := s }) := by
  obtain ⟨nodes, names, t⟩ := g'
  obtain rfl : nodes = g.nodes := hnodes
  obtain rfl : names = g.names := hnames
  have hcovers : covers [] MarkupPass.all = true := by decide
  have hall : ∀ kind, kind ∈ written [] MarkupPass.all := by
    intro kind
    cases kind <;> decide
  have hnone : Agree (· ∈ []) g.attributes t := (Agree.none g.attributes t).mono (by simp)
  obtain ⟨s, u, hs, hu, hsfiled, hufiled, hagree⟩ :=
    runs_agree hordered hg hacyclic hcovers hfiled hfiled' hnone
  refine ⟨s, hs, ?_⟩
  rw [hagree.eq hall hsfiled hufiled]
  exact hu

theorem analyses_ignore_attributes_of_joinedPair :
    (joinedPair [1, 2] [1, 4] 0 (51 / 20) : Graph Binary32).WellFormed ∧
      (joinedPair [1, 2] [1, 4] 0 (51 / 20) : Graph Binary32).Acyclic ∧
      (joinedPair [1, 2] [1, 4] 0 (51 / 20) : Graph Binary32).attributes.Filed ∧ stale.Filed ∧
      ∃ s, exec (MarkupPass.all.forM fun pass => pass.run defaultRestrictions)
          (joinedPair [1, 2] [1, 4] 0 (51 / 20) : Graph Binary32) =
            .ok (.ok (), { joinedPair [1, 2] [1, 4] 0 (51 / 20) with attributes := s }) ∧
        exec (MarkupPass.all.forM fun pass => pass.run defaultRestrictions)
          { joinedPair [1, 2] [1, 4] 0 (51 / 20) with attributes := stale } =
            .ok (.ok (), { joinedPair [1, 2] [1, 4] 0 (51 / 20) with attributes := s }) := by
  have hg : (joinedPair [1, 2] [1, 4] 0 (51 / 20) : Graph Binary32).WellFormed :=
    (Graph.assemble_ordered _).1
  have hacyclic : (joinedPair [1, 2] [1, 4] 0 (51 / 20) : Graph Binary32).Acyclic :=
    Graph.assemble_acyclic _
  have hfiled : (joinedPair [1, 2] [1, 4] 0 (51 / 20) : Graph Binary32).attributes.Filed := .empty
  exact ⟨hg, hacyclic, hfiled, filed_stale, analyses_ignore_attributes orderedGrids_binary
    defaultRestrictions _ { joinedPair [1, 2] [1, 4] 0 (51 / 20) with attributes := stale } hg hacyclic
    rfl rfl hfiled filed_stale⟩

end MarkupPass

end LowPrecision
