import LowPrecision.Proofs.Pipeline.Results
import LowPrecision.Proofs.Rewrite.GuardedConcat

/-!
Who reads integers between the rule applications of a run, and after it.
-/

namespace LowPrecision

variable {α : Type} {g g' : Graph α} {id : NodeId} {s s' : Session α} {rule : Rule} {lax lax' : Prop}

open LowPrecision.Graph

theorem Face.Accepts.weaken {f : Face α} {type : ElementType} (h : f.Accepts lax type)
    (hlax : lax → lax') : f.Accepts lax' type := by
  rw [Accepts] at h ⊢
  split
  · next hkind => exact hlax (by rwa [if_pos hkind] at h)
  · next hkind => rwa [if_neg hkind] at h

namespace Graph

structure Real (g : Graph α) : Prop where
  float (s : Slot) (p : Port) : g.port? s = some p → p.elementType.isLowPrecision = false
  converted (v : NodeId) (f : Face α) (type : ElementType) (p : Port) : g.face? v = some f →
    f.op = .convert type → p ∈ f.ports → p.elementType = type

def IntegersGuarded (lax : Prop) (g : Graph α) : Prop :=
  ∀ (v : NodeId) (f : Face α) (i : Nat) (s : Slot) (p : Port), g.face? v = some f →
    f.inputs[i]? = some s → g.port? s = some p → p.elementType.isLowPrecision = true →
      f.Accepts lax p.elementType

theorem IntegersGuarded.weaken (h : g.IntegersGuarded lax) (hlax : lax → lax') :
    g.IntegersGuarded lax' :=
  fun v f i s p hf hi hp hlow => (h v f i s p hf hi hp hlow).weaken hlax

namespace Guarded

variable {pending : Slot → Prop} {busy : NodeId → Prop}

theorem weaken (h : Guarded lax pending busy g) (hlax : lax → lax') : Guarded lax' pending busy g where
  wellFormed := h.wellFormed
  marked := h.marked
  typed := h.typed
  reads v f hf hbusy := by
    have hreads := h.reads v f hf hbusy
    exact ⟨fun s type hs hraw => (hreads.takes s type hs hraw).weaken hlax, hreads.first⟩

theorem integers (h : g.WellGuarded lax) : g.IntegersGuarded lax :=
  fun v f _ s p hf hi hp hlow => (h.reads v f hf fun hbusy => hbusy).takes s p.elementType
    (List.mem_of_getElem? hi) ⟨fun hpending => hpending, hlow, by rw [hp]; rfl⟩

theorem of_real (hg : g.WellFormed) (hmarked : g.Marked) (hreal : g.Real) : g.WellGuarded lax where
  wellFormed := hg
  marked _ he hmark := hmarked.owner he hmark
  typed v f hf := by
    refine ⟨fun p hp hlow => ?_, fun type p hop hp => hreal.converted v f type p hf hop hp⟩
    obtain ⟨i, hi⟩ := List.mem_iff_getElem?.mp hp
    have hport : g.port? ⟨v, i⟩ = some p := by rw [port?_eq_face, hf]; exact hi
    rw [hreal.float _ p hport] at hlow
    cases hlow
  reads v f hf _ := by
    have hnot : ∀ s type, ¬ g.Raw (fun _ => False) s type := by
      intro s type hraw
      obtain ⟨p, hp, -⟩ := Option.map_eq_some_iff.mp hraw.port
      exact not_raw_of_port hp (hreal.float s p hp) hraw
    refine ⟨fun s type _ hraw => absurd hraw (hnot s type), fun s p _ _ hp hlow => ?_⟩
    obtain ⟨i, hi⟩ := List.mem_iff_getElem?.mp hp
    have hport : g.port? ⟨v, i⟩ = some p := by rw [port?_eq_face, hf]; exact hi
    rw [hreal.float _ p hport] at hlow
    cases hlow

end Guarded

end Graph

def Region.Tangled (g : Graph α) (concat : NodeId) : Prop :=
  ∃ region, Region.around g concat = .ok region ∧ ¬ region.Apart g

instance Region.decidableTangled (g : Graph α) (concat : NodeId) : Decidable (Region.Tangled g concat) :=
  match h : Region.around g concat with
  | .ok region => decidable_of_iff (¬ region.Apart g)
    ⟨fun hapart => ⟨region, h, hapart⟩, fun ⟨_, hregion, hapart⟩ => Except.ok.inj (h.symm.trans hregion) ▸ hapart⟩
  | .error _ => isFalse fun ⟨_, hregion, _⟩ => by cases h.symm.trans hregion

variable [Scalar α] {settings : Settings} {r : Except TransformError Bool}

theorem Rule.apply_guarded {m : NodeMatch} (hg : s.graph.Regular) (h : s.graph.WellGuarded lax)
    (hapart : rule = .concat → Region.Tangled s.graph id → lax)
    (hm : rule.pattern.matchAt s.graph id = some m)
    (hcan : rule.canApply s.context s.graph m = .ok true)
    (hrun : exec (rule.apply m) s = .ok (.ok true, s')) : s'.graph.WellGuarded lax := by
  obtain ⟨n, hn, happlied⟩ := applied_of_apply hm hcan hrun
  have hk : s.graph.kind? id = some n.kind := by rw [kind?, hn]; rfl
  cases happlied with
  | decomposed _ _ hport hfloat hrun =>
    exact Decomposition.decompose_guarded hg h hport (ElementType.not_low_of_float hfloat) hrun
  | fused _ hm hkind hrun => exact h.fused (hm ▸ hn) hkind hrun
  | lowered _ hkind _ _ hrun => exact h.lowered hn hkind hrun
  | joined hrule hplan hrun =>
    have haccepted := ConcatPlan.accepted_of_ofConcat? hplan
    refine ConcatPlan.apply_guarded hg h haccepted ?_ hrun
    by_cases hlax : lax
    · exact .inl hlax
    · exact .inr (not_not.mp fun hnot => hlax (hapart hrule ⟨_, haccepted.region, hnot⟩))
  | sanitized _ hm hkind hrun => exact h.sanitized (by rw [hm, hk, hkind]) hrun
  | moved hmoves hkind hchain hrun =>
    have hpasses : n.face.kind.Passes := ⟨rule, by rcases hmoves with rfl | rfl <;> decide, hkind⟩
    have hface : s.graph.face? id = some n.face := face?_eq_some.mpr ⟨n, hn, rfl⟩
    exact (Edit.guarded_moved hpasses _ _ s.graph _ s'.graph ⟨hg, h, hface, hchain⟩ hrun).1 () rfl
  | folded _ _ hrun => exact h.folded hrun
  | absorbed _ hkind hrun =>
    exact h.absorbed (by rw [hk]; exact hkind.imp (congrArg some) (congrArg some)) hrun

namespace Pipeline

/-- The sessions that rule applications lead through after the analyses, in whatever order the rules are
applied, as long as no application of the Concat rule fails midway. It is tangled whether one of them
rewrote a region with a fake-quantize on its boundary that reads a member. -/
inductive Leads (settings : Settings) (g : Graph α) : Prop → Session α → Prop
  | start {s : Session α} : exec (analyses settings) ⟨g, .start settings.params⟩ = .ok (.ok (), s) →
    Leads settings g False s
  | step {tangled : Prop} {s s' : Session α} {id : NodeId} {rule : Rule}
    {r : Except TransformError Bool} : Leads settings g tangled s →
    exec (applyRule id rule) s = .ok (r, s') → (rule = .concat → ∃ b, r = .ok b) →
      Leads settings g (tangled ∨ rule = .concat ∧ Region.Tangled s.graph id) s'

theorem applyRule_guarded (hg : s.graph.Regular) (h : s.graph.WellGuarded lax)
    (hapart : rule = .concat → Region.Tangled s.graph id → lax)
    (hanswer : rule = .concat → ∃ b, r = .ok b)
    (hrun : exec (applyRule id rule) s = .ok (r, s')) : s'.graph.WellGuarded lax := by
  obtain ⟨rank, hr⟩ := hg.acyclic
  rcases applyRule_cases hg hr hrun with
    ⟨-, m, hm, hcan, happly, -⟩ | ⟨-, hgraph, -⟩ | ⟨hconcat, ⟨e, he⟩, -⟩
  · exact Rule.apply_guarded hg h hapart hm hcan happly
  · exact hgraph ▸ h
  · obtain ⟨b, hb⟩ := hanswer hconcat
    cases hb.symm.trans he

theorem Leads.guarded {tangled : Prop} (h : Leads settings g tangled s) (hg : g.Regular)
    (hreal : g.Real) : s.graph.Regular ∧ s.graph.WellGuarded tangled := by
  induction h with
  | start hrun =>
    have hstays := (stays_analyses settings ⟨g, .start settings.params⟩ _ _ (.refl hg) hrun).1
    obtain ⟨⟨a, ha⟩, -⟩ := annotates_analyses hrun
    have hanalysed := Markup.analysed_of_analyses hg.wellFormed hrun
    refine ⟨hstays.graph.regular, .of_real hanalysed.wellFormed hanalysed.marked ?_⟩
    rw [ha]
    exact ⟨hreal.float, hreal.converted⟩
  | step _ hrun hanswer ih =>
    obtain ⟨hregular, hguarded⟩ := ih
    refine ⟨(stays_applyRule _ _ _ _ _ (.refl hregular) hrun).1.graph.regular, ?_⟩
    exact applyRule_guarded hregular (hguarded.weaken .inl) (fun hrule htangled => .inr ⟨hrule, htangled⟩)
      hanswer hrun

theorem Leads.of_evolves {s₁ : Session α} (h : ∃ tangled, Leads settings g tangled s₁)
    (hevolves : Evolves s₁ s) : ∃ tangled, Leads settings g tangled s := by
  induction hevolves with
  | refl => exact h
  | tail _ hstep ih =>
    obtain ⟨tangled, hleads⟩ := ih
    obtain ⟨id, rule, m, -, hm, hcan, hrun⟩ := hstep
    exact ⟨_, .step hleads (exec_applyRule_of_fires ⟨m, hm, hcan, hrun⟩) fun _ => ⟨true, rfl⟩⟩

theorem Leads.stays_tidying :
    Stays (fun s : Session α => ∃ tangled, Leads settings g tangled s) (fun _ => True) tidying := by
  have hrules : ∀ rule ∈ Rule.cleanup, rule ≠ .concat := by decide
  refine Stays.mapM fun rule hrule => (stays_sweep_of fun id kind rule' hrule' => ?_).adapt
    fun _ _ => trivial
  split at hrule'
  · obtain rfl := List.mem_singleton.mp hrule'
    rintro s r s' ⟨tangled, hleads⟩ hrun
    exact ⟨⟨_, .step hleads hrun fun h => absurd h (hrules _ hrule)⟩, fun _ _ => trivial⟩
  · cases hrule'

theorem leads_of_run {report : Report} (hg : g.WellFormed)
    (hrun : run settings g = .ok (.ok report, g')) :
    ∃ tangled s, Leads settings g tangled s ∧ s.graph = g' := by
  obtain ⟨swept, s, counts, s', hmatched, htidying, rfl, -⟩ := matched_of_run hrun
  obtain ⟨s₁, hanalyses, -, hevolves⟩ := (hmatched.answer hg).1
  have hleads := Leads.of_evolves ⟨False, .start hanalyses⟩ hevolves
  obtain ⟨tangled, hend⟩ := (Leads.stays_tidying s _ s' hleads htidying).1
  exact ⟨tangled, s', hend, rfl⟩

/-- After every rule application, and at the end of a run that goes through, a node that reads integers
converts them, has relaxed types or passes them on. Fake-quantizes read none, unless the Concat rule has
rewritten a region with a fake-quantize on its boundary that reads a member. -/
theorem integers_guarded (settings : Settings) (hg : g.Regular) (hreal : g.Real) :
    (∀ report g', run settings g = .ok (.ok report, g') →
      ∃ tangled s, Leads settings g tangled s ∧ s.graph = g') ∧
    ∀ tangled (s : Session α), Leads settings g tangled s → s.graph.IntegersGuarded tangled :=
  ⟨fun _ _ => leads_of_run hg.wellFormed, fun _ _ h => (h.guarded hg hreal).2.integers⟩

def concatPair (source : NodeId) : Graph Binary32 :=
  Graph.assemble [("x", .parameter, [], [⟨.f32, some [1, 2]⟩]),
    ("low", .constant (Tensor.scalar (Arithmetic.ofRat 0)), [], [⟨.f32, some []⟩]),
    ("high", .constant (Tensor.scalar (Arithmetic.ofRat (51 / 20))), [], [⟨.f32, some []⟩]),
    ("first", .fakeQuantize 256, [⟨0, 0⟩, ⟨1, 0⟩, ⟨2, 0⟩, ⟨1, 0⟩, ⟨2, 0⟩], [⟨.f32, some [1, 2]⟩]),
    ("second", .fakeQuantize 256, [⟨source, 0⟩, ⟨1, 0⟩, ⟨2, 0⟩, ⟨1, 0⟩, ⟨2, 0⟩],
      [⟨.f32, some [1, 2]⟩]),
    ("concat", .concat 1, [⟨3, 0⟩, ⟨4, 0⟩], [⟨.f32, some [1, 4]⟩]),
    ("y", .result, [⟨5, 0⟩], [])]

theorem concatPair_regular (source : NodeId) : (concatPair source).Regular :=
  Graph.assemble_regular (by simp [OpKind.HasOneOutput, Op.kind])

theorem concatPair_real (source : NodeId) : (concatPair source).Real where
  float s p hp := by
    obtain ⟨n, hn, hmem⟩ := Graph.assemble_port hp
    simp only [List.mem_cons, List.not_mem_nil, or_false] at hn
    rcases hn with rfl | rfl | rfl | rfl | rfl | rfl | rfl <;> simp at hmem <;> rw [hmem] <;> rfl
  converted v f type p hf hop _ := by
    obtain ⟨n, hn, rfl⟩ := Graph.assemble_face hf
    simp only [List.mem_cons, List.not_mem_nil, or_false] at hn
    rcases hn with rfl | rfl | rfl | rfl | rfl | rfl | rfl <;> cases hop

theorem integers_guarded_of_concatPair :
    (concatPair 0).Regular ∧ (concatPair 0).Real ∧ ∃ s s' : Session Binary32,
      exec (analyses .default) ⟨concatPair 0, .start Settings.default.params⟩ = .ok (.ok (), s) ∧
        exec (applyRule 5 .concat) s = .ok (.ok true, s') ∧ ¬ Region.Tangled s.graph 5 ∧
        ((s'.graph.input? 5 0).bind s'.graph.port?).map Port.elementType = some .u8 ∧
        s'.graph.IntegersGuarded False := by
  have hg := concatPair_regular 0
  have hreal := concatPair_real 0
  have hanswers : (exec (analyses .default) ⟨concatPair 0, .start Settings.default.params⟩ >>= fun out =>
      (exec (applyRule (α := Binary32) 5 .concat) out.2).map fun applied =>
        ((out.1.toOption, applied.1), decide (Region.Tangled out.2.graph 5),
          ((applied.2.graph.input? 5 0).bind applied.2.graph.port?).map Port.elementType)) =
        .ok ((some (), .ok true), false, some .u8) := by decide +kernel
  obtain ⟨⟨answer, s⟩, hanalyses, happlied⟩ := except_bind_eq_ok.mp hanswers
  obtain ⟨⟨applied, s'⟩, hrun, hout⟩ := except_map_eq_ok.mp happlied
  obtain ⟨houtcome, hfacts⟩ := Prod.mk.inj hout
  obtain ⟨hsome, rfl⟩ := Prod.mk.inj houtcome
  obtain ⟨htangled, htype⟩ := Prod.mk.inj hfacts
  obtain rfl := except_toOption_eq_some.mp hsome
  have hleads : Leads .default (concatPair 0) _ s' := .step (.start hanalyses) hrun fun _ => ⟨true, rfl⟩
  have hapart := of_decide_eq_false htangled
  exact ⟨hg, hreal, s, s', hanalyses, hrun, hapart, htype,
    ((integers_guarded .default hg hreal).2 _ s' hleads).weaken fun h => h.elim id fun h => hapart h.2⟩

theorem quantizer_reads_integers :
    (concatPair 3).Regular ∧ (concatPair 3).Real ∧ ∃ report g' f s p,
      run .default (concatPair 3) = .ok (.ok report, g') ∧ g'.face? 12 = some f ∧
        f.kind = .fakeQuantize ∧ f.inputs[0]? = some s ∧ g'.port? s = some p ∧ p.elementType = .u8 ∧
        ¬ f.Takes p.elementType := by
  have hrun : ((run .default (concatPair 3)).map fun out => (out.1.map Report.converged,
      (out.2.face? 12).map fun f => ((f.kind, f.relaxed.isSome),
        (f.inputs[0]?.bind out.2.port?).map Port.elementType))) =
        .ok (.ok true, some ((.fakeQuantize, false), some .u8)) := by decide +kernel
  obtain ⟨⟨outcome, g'⟩, hrun, hfacts⟩ := except_map_eq_ok.mp hrun
  obtain ⟨houtcome, hfacts⟩ := Prod.mk.inj hfacts
  obtain ⟨report, rfl, -⟩ := except_map_eq_ok.mp houtcome
  obtain ⟨f, hf, hfacts⟩ := Option.map_eq_some_iff.mp hfacts
  obtain ⟨hface, hread⟩ := Prod.mk.inj hfacts
  obtain ⟨hkind, hrelaxed⟩ := Prod.mk.inj hface
  obtain ⟨p, hp, htype⟩ := Option.map_eq_some_iff.mp hread
  obtain ⟨s, hs, hp⟩ := Option.bind_eq_some_iff.mp hp
  refine ⟨concatPair_regular 3, concatPair_real 3, report, g', f, s, p, hrun, hf, hkind, hs, hp, htype, ?_⟩
  rintro (hconvert | hsome | ⟨hpasses, -⟩)
  · cases hkind.symm.trans hconvert
  · exact Bool.false_ne_true (hrelaxed.symm.trans hsome)
  · rw [hkind] at hpasses
    exact absurd hpasses (by decide)

end Pipeline

end LowPrecision
