import LowPrecision.Proofs.Rewrite.Decomposition
import LowPrecision.Proofs.Rewrite.TracedConcat

/-!
The nodes that a lowering adds to a graph. Its fake-quantizes read constants with bounds on the
quantized line, and the steps behind them read the scales and the zero points of the lowering. What
these nodes read stays while the rewrite goes on to move other slots.
-/

namespace LowPrecision

variable {α β : Type} {g₀ g g' : Graph α}

structure Recipe (α : Type) where
  quantizer : Ranges α → ElementType → Prop
  scale : Tensor α → Prop
  zeroPoint : Tensor α → Prop

def Recipe.Admits (q : Recipe α) (params : AffineParams α) : Prop :=
  q.scale params.scale ∧ ∀ z, params.zeroPoint = some z → q.zeroPoint z

namespace Graph

def Fixed (first base : Nat) (g : Graph α) (v : NodeId) (s : Slot) : Prop :=
  base ≤ s.node ∧ (g.kind? s.node = some .constant ∨ g.kind? s.node = some .convert) ∨
    first ≤ v ∧ g.kind? v = some .fakeQuantize ∧ g.kind? s.node = some .constant

structure Steady (first base : Nat) (g g' : Graph α) : Prop where
  wellFormed : g'.WellFormed
  size : g.nodes.size ≤ g'.nodes.size
  face (v : NodeId) (f' : Face α) : v < g.nodes.size → g'.face? v = some f' →
    ∃ f, g.face? v = some f ∧ f'.op = f.op ∧
      ∀ (i : Nat) (s : Slot), f.inputs[i]? = some s → g.Fixed first base v s →
        f'.inputs[i]? = some s

def NewValue (base : Nat) (g : Graph α) (s : Slot) (t : Tensor α) : Prop :=
  base ≤ s.node ∧ (g.constant? s = some t ∨ ∃ f c, g.face? s.node = some f ∧
    f.op = .convert .f32 ∧ f.inputs[0]? = some c ∧ base ≤ c.node ∧ g.constant? c = some t)

structure Ranged (g : Graph α) (f : Face α) (r : Ranges α) : Prop where
  inputLow : f.inputs[1]?.bind g.constant? = some r.inputLow
  inputHigh : f.inputs[2]?.bind g.constant? = some r.inputHigh
  outputLow : f.inputs[3]?.bind g.constant? = some r.outputLow
  outputHigh : f.inputs[4]?.bind g.constant? = some r.outputHigh

structure Meets (base : Nat) (q : Recipe α) (g : Graph α) (f : Face α) : Prop where
  quantizer (levels : Nat) : f.op = .fakeQuantize levels → ∃ r p, r.levels = levels ∧
    f.ports = [p] ∧ g.Ranged f r ∧ q.quantizer r p.elementType
  subtract : f.op = .subtract → ∃ s t, f.inputs[1]? = some s ∧ g.NewValue base s t ∧ q.zeroPoint t
  multiply : f.op = .multiply → ∃ s t, f.inputs[1]? = some s ∧ base ≤ s.node ∧
    g.constant? s = some t ∧ q.scale t

/-- A graph that came out of another one by changes whose new nodes look as the recipe says. -/
structure Emits (q : Recipe α) (g₀ g : Graph α) : Prop where
  descends : g₀.Descends g
  meets (v : NodeId) (f : Face α) : g₀.nodes.size ≤ v → g.face? v = some f →
    g.Meets g₀.nodes.size q f

namespace Steady

variable {first base : Nat} {move : Slot → Slot → Prop}

theorem of_rerouted (h : Rerouted move g g')
    (hmove : ∀ s s', move s s' → g.kind? s.node ≠ some .constant ∧ g.kind? s.node ≠ some .convert) :
    Steady first base g g' where
  wellFormed := h.wellFormed
  size := h.size
  face v f' hv hf' := by
    obtain ⟨f, hf, hsame⟩ := h.face v f' hv hf'
    refine ⟨f, hf, hsame.op, fun i s hi hfixed => ?_⟩
    obtain ⟨s', hi', rfl | hmoved⟩ := hsame.input_old hi
    · exact hi'
    · obtain ⟨hconstant, hconvert⟩ := hmove s s' hmoved
      rcases hfixed with ⟨-, hk | hk⟩ | ⟨-, -, hk⟩
      · exact absurd hk hconstant
      · exact absurd hk hconvert
      · exact absurd hk hconstant

theorem kind (h : Steady first base g g') {v : NodeId} {k : OpKind} (hv : v < g.nodes.size)
    (hk : g'.kind? v = some k) : g.kind? v = some k := by
  obtain ⟨f', hf', rfl⟩ := face_of_kind hk
  obtain ⟨f, hf, hop, -⟩ := h.face v f' hv hf'
  rw [kind?_eq_face, hf, Option.map_some, Face.kind, Face.kind, hop]

theorem of_extends {p : Slot → Prop} (h : Extends g g' p) : Steady first base g g' :=
  of_rerouted (h.rerouted : Rerouted (fun _ _ => False) g g') (fun _ _ h => h.elim)

theorem of_added {f : Face α} (h : Added g g' f) : Steady first base g g' :=
  of_rerouted (h.rerouted : Rerouted (fun _ _ => False) g g') (fun _ _ h => h.elim)

theorem of_recast {change : NodeId → Face α → Face α} (h : Recast g g' change)
    (hop : ∀ v f, (change v f).op = f.op)
    (hinputs : ∀ v (f : Face α) (i : Nat) (s : Slot), g.face? v = some f → f.inputs[i]? = some s →
      g.Fixed first base v s → (change v f).inputs[i]? = some s) : Steady first base g g' where
  wellFormed := h.wellFormed
  size := Nat.le_of_eq h.size.symm
  face v f' _ hf' := by
    rw [h.face] at hf'
    obtain ⟨f, hf, rfl⟩ := Option.map_eq_some_iff.mp hf'
    exact ⟨f, hf, hop v f, fun i s => hinputs v f i s hf⟩

theorem of_redirect {slots : List Slot} {source : Slot}
    (h : Recast g g' fun v f => f.redirect v slots source)
    (hslots : ∀ r ∈ slots, ∀ s, g.input? r.node r.index = some s →
      ¬ g.Fixed first base r.node s) : Steady first base g g' := by
  refine of_recast h (fun v f => rfl) fun v f i s hf hi hfixed => ?_
  rw [Face.input_redirect, hi, Option.map_some, if_neg fun hmem => ?_]
  refine hslots ⟨v, i⟩ hmem s ?_ hfixed
  rw [input?_eq_face, hf]
  exact hi

theorem older (h : Steady 0 base g g') : Steady first base g g' where
  wellFormed := h.wellFormed
  size := h.size
  face v f' hv hf' := by
    obtain ⟨f, hf, hop, hinputs⟩ := h.face v f' hv hf'
    refine ⟨f, hf, hop, fun i s hi hfixed => hinputs i s hi (hfixed.imp_right fun hfixed => ?_)⟩
    exact ⟨Nat.zero_le v, hfixed.2⟩

theorem refl (h : g.WellFormed) : Steady first base g g :=
  ⟨h, Nat.le_refl _, fun _ f' _ hf' => ⟨f', hf', rfl, fun _ _ hi _ => hi⟩⟩

section Reading

variable {v : NodeId} {f f' : Face α} {i : Nat} {s : Slot} {t : Tensor α}

theorem op_of_live (h : Steady first base g g') (hf : g.face? v = some f)
    (hf' : g'.face? v = some f') : f'.op = f.op := by
  obtain ⟨k, hk, hop, -⟩ := h.face v f' (lt_size_of_face? hf) hf'
  cases hf.symm.trans hk
  exact hop

theorem input (h : Steady first base g g') (hf : g.face? v = some f) (hf' : g'.face? v = some f')
    (hi : f.inputs[i]? = some s) (hfixed : g.Fixed first base v s) {k : Face α}
    (hk : g.face? s.node = some k) :
    f'.inputs[i]? = some s ∧ ∃ k', g'.face? s.node = some k' ∧ k'.op = k.op := by
  obtain ⟨f₁, hf₁, -, hinputs⟩ := h.face v f' (lt_size_of_face? hf) hf'
  cases hf.symm.trans hf₁
  have hread := hinputs i s hi hfixed
  obtain ⟨n, hn⟩ := h.wellFormed.live_of_input (v := v) (i := i) (by
    rw [input?_eq_face, hf']
    exact hread)
  have hk' := face?_eq_some.mpr ⟨n, hn, rfl⟩
  exact ⟨hread, n.face, hk', h.op_of_live hk hk'⟩

theorem trans {g₁ g₂ g₃ : Graph α} (h : Steady first base g₁ g₂) (h' : Steady first base g₂ g₃) :
    Steady first base g₁ g₃ where
  wellFormed := h'.wellFormed
  size := Nat.le_trans h.size h'.size
  face v f₃ hv hf₃ := by
    obtain ⟨f₂, hf₂, hop', hinputs'⟩ := h'.face v f₃ (Nat.lt_of_lt_of_le hv h.size) hf₃
    obtain ⟨f₁, hf₁, hop, -⟩ := h.face v f₂ hv hf₂
    refine ⟨f₁, hf₁, hop'.trans hop, fun i s hi hfixed => ?_⟩
    have hlive : ∀ {k : OpKind}, g₁.kind? s.node = some k →
        f₂.inputs[i]? = some s ∧ g₂.kind? s.node = some k := by
      intro k hk
      obtain ⟨c, hc, rfl⟩ := face_of_kind hk
      obtain ⟨hread, c', hc', hop⟩ := h.input hf₁ hf₂ hi hfixed hc
      refine ⟨hread, ?_⟩
      rw [kind?_eq_face, hc', Option.map_some, Face.kind, hop]
      rfl
    have hreader : g₂.kind? v = g₁.kind? v := by
      rw [kind?_eq_face, kind?_eq_face, hf₁, hf₂, Option.map_some, Option.map_some, Face.kind, hop]
      rfl
    rcases hfixed with ⟨hnew, hk | hk⟩ | ⟨hv, hk, hk'⟩
    · exact hinputs' i s (hlive hk).1 (.inl ⟨hnew, .inl (hlive hk).2⟩)
    · exact hinputs' i s (hlive hk).1 (.inl ⟨hnew, .inr (hlive hk).2⟩)
    · exact hinputs' i s (hlive hk').1 (.inr ⟨hv, hreader.trans hk, (hlive hk').2⟩)

theorem constant (h : Steady first base g g') (hf : g.face? v = some f)
    (hf' : g'.face? v = some f') (hi : f.inputs[i]? = some s) (hfixed : g.Fixed first base v s)
    (ht : g.constant? s = some t) : f'.inputs[i]? = some s ∧ g'.constant? s = some t := by
  obtain ⟨k, hk, hop⟩ := constant?_eq_some.mp ht
  obtain ⟨hread, k', hk', hop'⟩ := h.input hf hf' hi hfixed hk
  exact ⟨hread, constant?_eq_some.mpr ⟨k', hk', hop'.trans hop⟩⟩

theorem newValue (h : Steady first base g g') (hf : g.face? v = some f)
    (hf' : g'.face? v = some f') (hi : f.inputs[i]? = some s) (ht : g.NewValue base s t) :
    f'.inputs[i]? = some s ∧ g'.NewValue base s t := by
  obtain ⟨hnew, ht | ⟨k, c, hk, hop, hc, hcnew, ht⟩⟩ := ht
  · have hfixed : g.Fixed first base v s := .inl ⟨hnew, .inl (kind_of_constant (by rw [ht]; rfl))⟩
    obtain ⟨hread, ht'⟩ := h.constant hf hf' hi hfixed ht
    exact ⟨hread, hnew, .inl ht'⟩
  · have hkind : g.kind? s.node = some .convert := by
      rw [kind?_eq_face, hk, Option.map_some, Face.kind, hop]
      rfl
    obtain ⟨hread, k', hk', hop'⟩ := h.input hf hf' hi (.inl ⟨hnew, .inr hkind⟩) hk
    have hfixed : g.Fixed first base s.node c :=
      .inl ⟨hcnew, .inl (kind_of_constant (by rw [ht]; rfl))⟩
    obtain ⟨hc', ht'⟩ := h.constant hk hk' hc hfixed ht
    exact ⟨hread, hnew, .inr ⟨k', c, hk', hop'.trans hop, hc', hcnew, ht'⟩⟩

theorem bound (h : Steady first base g g') (hv : first ≤ v) (hf : g.face? v = some f)
    (hf' : g'.face? v = some f') (hkind : f.kind = .fakeQuantize)
    (ht : f.inputs[i]?.bind g.constant? = some t) :
    f'.inputs[i]?.bind g'.constant? = some t := by
  obtain ⟨s, hi, ht⟩ := Option.bind_eq_some_iff.mp ht
  have hk : g.kind? v = some .fakeQuantize := by rw [kind?_eq_face, hf, Option.map_some, hkind]
  obtain ⟨hi', ht'⟩ := h.constant hf hf' hi
    (.inr ⟨hv, hk, kind_of_constant (by rw [ht]; rfl)⟩) ht
  rw [hi']
  exact ht'

theorem ranged {r : Ranges α} (h : Steady first base g g') (hv : first ≤ v)
    (hf : g.face? v = some f) (hf' : g'.face? v = some f') (hkind : f.kind = .fakeQuantize)
    (hr : g.Ranged f r) : g'.Ranged f' r :=
  ⟨h.bound hv hf hf' hkind hr.inputLow, h.bound hv hf hf' hkind hr.inputHigh,
    h.bound hv hf hf' hkind hr.outputLow, h.bound hv hf hf' hkind hr.outputHigh⟩

theorem meets {q : Recipe α} (h : Steady base base g g') (hv : base ≤ v)
    (hf : g.face? v = some f) (hf' : g'.face? v = some f') (hports : f'.ports = f.ports)
    (hq : g.Meets base q f) : g'.Meets base q f' where
  quantizer levels hop := by
    rw [h.op_of_live hf hf'] at hop
    obtain ⟨r, p, hlevels, hp, hr, hquantizer⟩ := hq.quantizer levels hop
    exact ⟨r, p, hlevels, hports.trans hp, h.ranged hv hf hf' (congrArg Op.kind hop) hr, hquantizer⟩
  subtract hop := by
    rw [h.op_of_live hf hf'] at hop
    obtain ⟨s, t, hi, ht, hzero⟩ := hq.subtract hop
    obtain ⟨hi', ht'⟩ := h.newValue hf hf' hi ht
    exact ⟨s, t, hi', ht', hzero⟩
  multiply hop := by
    rw [h.op_of_live hf hf'] at hop
    obtain ⟨s, t, hi, hnew, ht, hscale⟩ := hq.multiply hop
    obtain ⟨hi', ht'⟩ := h.constant hf hf' hi
      (.inl ⟨hnew, .inl (kind_of_constant (by rw [ht]; rfl))⟩) ht
    exact ⟨s, t, hi', hnew, ht', hscale⟩

end Reading

end Steady

theorem Meets.of_kind {q : Recipe α} {base : Nat} {f : Face α} (hquantizer : f.kind ≠ .fakeQuantize)
    (hsubtract : f.kind ≠ .subtract) (hmultiply : f.kind ≠ .multiply) : g.Meets base q f :=
  ⟨fun _ hop => absurd (congrArg Op.kind hop) hquantizer,
    fun hop => absurd (congrArg Op.kind hop) hsubtract,
    fun hop => absurd (congrArg Op.kind hop) hmultiply⟩

namespace Emits

variable {q : Recipe α}

theorem imp {q' : Recipe α} (h : Emits q g₀ g)
    (hquantizer : ∀ r type, q.quantizer r type → q'.quantizer r type)
    (hscale : ∀ t, q.scale t → q'.scale t) (hzero : ∀ t, q.zeroPoint t → q'.zeroPoint t) :
    Emits q' g₀ g where
  descends := h.descends
  meets v f hv hf := by
    obtain ⟨hquantizes, hsubtracts, hmultiplies⟩ := h.meets v f hv hf
    refine ⟨fun levels hop => ?_, fun hop => ?_, fun hop => ?_⟩
    · obtain ⟨r, p, hlevels, hports, hranged, hr⟩ := hquantizes levels hop
      exact ⟨r, p, hlevels, hports, hranged, hquantizer r _ hr⟩
    · obtain ⟨s, t, hs, ht, hz⟩ := hsubtracts hop
      exact ⟨s, t, hs, ht, hzero t hz⟩
    · obtain ⟨s, t, hs, hnew, ht, hm⟩ := hmultiplies hop
      exact ⟨s, t, hs, hnew, ht, hscale t hm⟩

theorem refl (h : g.WellFormed) : Emits q g g :=
  ⟨.refl h, fun _ _ hv hf => absurd (lt_size_of_face? hf) (Nat.not_lt.mpr hv)⟩

theorem step (h : Emits q g₀ g) (hd : g₀.Descends g')
    (hsteady : Steady g₀.nodes.size g₀.nodes.size g g')
    (hports : ∀ v f f', g₀.nodes.size ≤ v → g.face? v = some f → g'.face? v = some f' →
      f'.ports = f.ports)
    (hnew : ∀ v f, g.nodes.size ≤ v → g'.face? v = some f → g'.Meets g₀.nodes.size q f) :
    Emits q g₀ g' where
  descends := hd
  meets v f' hv hf' := by
    rcases Nat.lt_or_ge v g.nodes.size with hlt | hge
    · obtain ⟨f, hf, -⟩ := hsteady.face v f' hlt hf'
      exact hsteady.meets hv hf hf' (hports v f f' hv hf hf') (h.meets v f hv hf)
    · exact hnew v f' hge hf'

theorem added {f : Face α} (h : Emits q g₀ g) (hd : g₀.Descends g') (ha : Added g g' f)
    (hf : g'.Meets g₀.nodes.size q f) : Emits q g₀ g' := by
  refine h.step hd (.of_added ha) (fun v k k' _ hk hk' => ?_) fun v k hv hk => ?_
  · cases (ha.old hk).symm.trans hk'
    rfl
  · obtain ⟨-, rfl⟩ := ha.eq_new hv hk
    exact hf

theorem rerouted {move : Slot → Slot → Prop} (h : Emits q g₀ g) (hd : g₀.Descends g')
    (hr : Rerouted move g g') (hsize : g'.nodes.size = g.nodes.size)
    (hmove : ∀ s s', move s s' → g.kind? s.node ≠ some .constant ∧ g.kind? s.node ≠ some .convert) :
    Emits q g₀ g' := by
  refine h.step hd (.of_rerouted hr hmove) (fun v f f' _ hf hf' => ?_) fun v f hv hf => ?_
  · obtain ⟨k, hk, hsame⟩ := hr.face v f' (lt_size_of_face? hf) hf'
    cases hf.symm.trans hk
    exact hsame.ports
  · exact absurd (lt_size_of_face? hf) (Nat.not_lt.mpr (hsize ▸ hv))

end Emits

end Graph

section Edits

open LowPrecision.Graph

variable {q : Recipe α}

namespace Edit

theorem emits_addNode {p : Graph α → Prop} {base : String} {op : Op α} {inputs : List Slot}
    {outputs : List Port}
    (h : ∀ g g', p g → g₀.nodes.size ≤ g.nodes.size → Added g g' ⟨op, inputs, outputs, none⟩ →
      g'.Meets g₀.nodes.size q ⟨op, inputs, outputs, none⟩) :
    Ensures (fun g => Emits q g₀ g ∧ p g) (fun id g' => Emits q g₀ g' ∧ ∃ g, p g ∧
        id = g.nodes.size ∧ g₀.nodes.size ≤ g.nodes.size ∧
        Added g g' ⟨op, inputs, outputs, none⟩) Fatal (addNode base op inputs outputs) := by
  rintro g r g' ⟨hg, hp⟩ hrun
  have hdescends := ensures_addNode Face.stable_true trivial g r g' hg.descends hrun
  refine ⟨fun id hid => ?_, hdescends.2⟩
  subst hid
  obtain ⟨rfl, -, hadded⟩ := addNode_done hg.descends.wellFormed hrun
  have hsize := hg.descends.size
  exact ⟨hg.added (hdescends.1 _ rfl).1 hadded (h g g' hp hsize hadded), g, hp, rfl, hsize, hadded⟩

theorem emits_addConstant {base : String} {value : Tensor α} {type : ElementType} :
    Ensures (Emits q g₀) (fun s g => Emits q g₀ g ∧ g₀.nodes.size ≤ s.node ∧
      g.constant? s = some value) Fatal (addConstant base value type) := by
  refine Ensures.map ?_
  have hadd : Ensures (fun g => Emits q g₀ g ∧ True) (fun id g' => Emits q g₀ g' ∧ ∃ g : Graph α,
      True ∧ id = g.nodes.size ∧ g₀.nodes.size ≤ g.nodes.size ∧
      Added g g' ⟨.constant value, [], [⟨type, some value.shape⟩], none⟩) Fatal
      (addNode base (.constant value) [] [⟨type, some value.shape⟩]) :=
    emits_addNode fun _ _ _ _ _ => .of_kind (by rintro ⟨⟩) (by rintro ⟨⟩) (by rintro ⟨⟩)
  refine Ensures.weaken hadd (fun _ hg => ⟨hg, trivial⟩) ?_
  rintro id g' ⟨hg, g, -, rfl, hsize, hadded⟩
  exact ⟨hg, hsize, constant?_eq_some.mpr ⟨_, hadded.new, rfl⟩⟩

theorem emits_port (s : Slot) :
    Ensures (Emits q g₀) (fun _ => Emits q g₀) Fatal (port (α := α) s) :=
  (ensures_port s).left

end Edit

namespace Dequantization

open Edit

section Chains

variable [Arithmetic α]

omit [Arithmetic α] in
theorem emits_addConvert (source : Slot) (port : Port) (base : String) :
    Ensures (Emits q g₀) (fun _ => Emits q g₀) Fatal (addConvert source port base) := by
  rw [addConvert]
  split
  · exact .pure fun _ hg => hg
  · refine .map ((emits_addNode (p := fun _ => True) fun _ _ _ _ _ => ?_).weaken
      (fun _ hg => ⟨hg, trivial⟩) fun _ _ h => h.1)
    exact .of_kind (by rintro ⟨⟩) (by rintro ⟨⟩) (by rintro ⟨⟩)

theorem emits_addZeroPoint (base : String) (zeroPoint : Tensor α) (type : ElementType) :
    Ensures (Emits q g₀) (fun s g => Emits q g₀ g ∧ g.NewValue g₀.nodes.size s zeroPoint) Fatal
      (addZeroPoint base zeroPoint type) := by
  rw [addZeroPoint]
  split
  · apply emits_addConstant.bind
    intro constant
    have hadd : Ensures (fun g => Emits q g₀ g ∧
        g₀.nodes.size ≤ constant.node ∧ g.constant? constant = some zeroPoint)
        (fun id g => Emits q g₀ g ∧ g.NewValue g₀.nodes.size ⟨id, 0⟩ zeroPoint) Fatal
        (addNode s!"{base}/DequantizationZeroPointConvert" (.convert .f32) [constant]
          [⟨.f32, some zeroPoint.shape⟩]) := by
      refine (emits_addNode fun _ _ _ _ _ => .of_kind (by rintro ⟨⟩) (by rintro ⟨⟩) (by rintro ⟨⟩)).weaken
        (fun _ h => h) ?_
      rintro id g' ⟨hg, g, ⟨hnew, ht⟩, rfl, hsize, hadded⟩
      obtain ⟨f, hf, hop⟩ := constant?_eq_some.mp ht
      exact ⟨hg, hsize, .inr ⟨_, constant, hadded.new, rfl, rfl, hnew,
        constant?_eq_some.mpr ⟨f, hadded.old hf, hop⟩⟩⟩
    exact hadd.bind fun id => .pure fun _ h => h
  · exact emits_addConstant.weaken (fun _ h => h) fun _ _ h => ⟨h.1, h.2.1, .inl h.2.2⟩

theorem emits_addSubtract (current : Slot) (port : Port) {zeroPoint : Option (Tensor α)}
    (hq : ∀ z, zeroPoint = some z → q.zeroPoint z) (base : String) :
    Ensures (Emits q g₀) (fun _ => Emits q g₀) Fatal (addSubtract current port zeroPoint base) := by
  cases zeroPoint with
  | none => exact .pure fun _ hg => hg
  | some zeroPoint =>
    apply (emits_addZeroPoint base zeroPoint port.elementType).bind
    intro constant
    refine (emits_addNode fun g g' ht _ hadded => ?_).left.bind fun id => .pure fun _ h => h
    refine ⟨by simp, fun _ => ⟨constant, zeroPoint, rfl, ?_, hq _ rfl⟩, by simp⟩
    have hsteady : Steady g₀.nodes.size g₀.nodes.size g g' := .of_added hadded
    obtain ⟨hnew, ht | ⟨f, c, hf, hop, hc, hcnew, ht⟩⟩ := ht
    · obtain ⟨f, hf, hop⟩ := constant?_eq_some.mp ht
      exact ⟨hnew, .inl (constant?_eq_some.mpr ⟨f, hadded.old hf, hop⟩)⟩
    · obtain ⟨k, hk, hconstant⟩ := constant?_eq_some.mp ht
      exact ⟨hnew, .inr ⟨f, c, hadded.old hf, hop, hc, hcnew,
        constant?_eq_some.mpr ⟨k, hadded.old hk, hconstant⟩⟩⟩

omit [Arithmetic α] in
theorem emits_addMultiply (current : Slot) (port : Port) {scale : Tensor α} (hq : q.scale scale)
    (base : String) :
    Ensures (Emits q g₀) (fun _ => Emits q g₀) Fatal (addMultiply current port scale base) := by
  apply emits_addConstant.bind
  intro constant
  refine (emits_addNode fun g g' ⟨hnew, ht⟩ _ hadded => ?_).left.bind fun id => .pure fun _ h => h
  obtain ⟨f, hf, hop⟩ := constant?_eq_some.mp ht
  exact ⟨by simp, by simp, fun _ => ⟨constant, scale, rfl, hnew,
    constant?_eq_some.mpr ⟨f, hadded.old hf, hop⟩, hq⟩⟩

theorem emits_build (source : Slot) {params : AffineParams α} (hq : q.Admits params)
    (base : String) :
    Ensures (Emits q g₀) (fun _ => Emits q g₀) Fatal (build source params base) := by
  apply (emits_port source).bind
  intro port
  apply (emits_addConvert source port base).bind
  intro _
  apply (emits_addSubtract _ port hq.2 base).bind
  intro _
  apply (emits_addMultiply _ port hq.1 base).bind
  intro _
  exact .pure fun _ hg => hg

theorem emits_insert (source : Slot) (slots : List Slot) {params : AffineParams α}
    (hq : q.Admits params) (base : String) :
    Ensures (fun g => Emits q g₀ g ∧ ∀ r ∈ slots, ∃ s, g.input? r.node r.index = some s ∧
        ¬ g.Fixed g₀.nodes.size g₀.nodes.size r.node s)
      (fun _ => Emits q g₀) Fatal (insert source slots params base) := by
  rintro g r g' ⟨hg, hslots⟩ hrun
  have hdescends := ensures_insert Face.stable_true (fun _ _ _ => trivial) source slots params base
    g r g' hg.descends hrun
  refine ⟨fun d hd => ?_, hdescends.2⟩
  subst hd
  have hwhole := (hdescends.1 d rfl).1
  rw [insert] at hrun
  obtain ⟨chain, mid, hbuild, hrun⟩ := exec_bind_eq_answer.mp hrun
  obtain ⟨⟨⟩, g₁, hrewire, hpure⟩ := exec_bind_eq_answer.mp hrun
  cases hpure
  have hmid := (emits_build source hq base g _ mid hg hbuild).1 d rfl
  obtain ⟨-, -, hbuilt⟩ := build_done hg.descends.wellFormed hbuild
  have hrecast := rewire_done hmid.descends.wellFormed (exec_adapt_eq_ok.mp hrewire)
  have hkept : ∀ {v : NodeId} {k : OpKind}, v < g.nodes.size → mid.kind? v = some k →
      g.kind? v = some k := by
    intro v k hv hk
    rwa [kind?_eq_face, hbuilt.old v hv, ← kind?_eq_face] at hk
  refine hmid.step hwhole (.of_redirect hrecast fun r hr s hs hfixed => ?_) ?_ ?_
  · -- A slot that was free reads an old node, and building the chain has not fixed it.
    obtain ⟨s', hs', hfree⟩ := hslots r hr
    have hr' : r.node < g.nodes.size := by
      rw [input?_eq_face] at hs'
      obtain ⟨f, hf, -⟩ := Option.bind_eq_some_iff.mp hs'
      exact lt_size_of_face? hf
    obtain ⟨n, hn⟩ := hg.descends.wellFormed.live_of_input hs'
    have hlt := lt_size_of_node? hn
    cases (hbuilt.input hs').symm.trans hs
    refine hfree ?_
    rcases hfixed with ⟨hnew, hk | hk⟩ | ⟨hnew, hk, hk'⟩
    · exact .inl ⟨hnew, .inl (hkept hlt hk)⟩
    · exact .inl ⟨hnew, .inr (hkept hlt hk)⟩
    · exact .inr ⟨hnew, hkept hr' hk, hkept hlt hk'⟩
  · intro v f f' _ hf hf'
    rw [hrecast.face, hf] at hf'
    cases hf'
    rfl
  · intro v f hv hf
    exact absurd (lt_size_of_face? hf) (Nat.not_lt.mpr (hrecast.size ▸ hv))

end Chains

end Dequantization

namespace Edit

theorem emits_addFakeQuantize {id : NodeId} {r : Ranges α} {low high : Tensor α}
    {type : ElementType} (hq : q.quantizer ⟨r.levels, r.inputLow, r.inputHigh, low, high⟩ type)
    {v : NodeId} (hg : Emits q g₀ g)
    (hid : ∀ f, g.face? id = some f → f.op = .fakeQuantize r.levels ∧ g.Ranged f r)
    (hrun : exec (addFakeQuantize id low high type) g = .ok (.ok v, g')) :
    Emits q g₀ g' ∧ v = g.nodes.size + 2 ∧ g.nodes.size ≤ v ∧
      g'.kind? v = some .fakeQuantize ∧ Steady 0 g₀.nodes.size g g' ∧
      g.kind? id = some .fakeQuantize ∧ g'.kind? id = some .fakeQuantize ∧
      ∀ u, g.nodes.size ≤ u → g'.kind? u = some .fakeQuantize → u = v := by
  obtain ⟨n, levels, data, inLow, inHigh, rest, p, hn, hop, hin, -, rfl, hdoubled⟩ :=
    addFakeQuantize_done hg.descends.wellFormed hrun
  obtain ⟨hlevels, hranged⟩ := hid n.face (face?_eq_some.mpr ⟨n, hn, rfl⟩)
  obtain rfl : levels = r.levels := Op.fakeQuantize.inj (hop.symm.trans hlevels)
  have hsteady : Steady 0 g₀.nodes.size g g' := .of_extends hdoubled.toExtends
  have hdescends : g₀.Descends g' :=
    hg.descends.extended Face.stable_true hdoubled.toExtends fun _ _ _ _ => trivial
  have hkind : g.kind? id = some .fakeQuantize := by
    rw [kind?, hn, Option.map_some, Node.kind, hop]
    rfl
  have hold : ∀ {i : Nat} {s : Slot} {t : Tensor α}, n.inputs[i]? = some s →
      n.face.inputs[i]?.bind g.constant? = some t → g'.constant? s = some t := by
    intro i s t hi ht
    rw [show n.face.inputs[i]? = some s from hi, Option.bind_some] at ht
    obtain ⟨f, hf, hconstant⟩ := constant?_eq_some.mp ht
    exact constant?_eq_some.mpr ⟨f, hdoubled.face hf, hconstant⟩
  refine ⟨hg.step hdescends hsteady.older (fun u f f' _ hf hf' => ?_) (fun u f hu hf => ?_), rfl,
    Nat.le_add_right _ 2, ?_, hsteady, hkind, hdoubled.kind hkind, fun u hu hk => ?_⟩
  · cases (hdoubled.face hf).symm.trans hf'
    rfl
  · obtain ⟨k, rfl⟩ := Nat.exists_eq_add_of_le hu
    have hk : k < 3 := Nat.add_lt_add_iff_left.mp (hdoubled.count ▸ lt_size_of_face? hf)
    obtain rfl | rfl | rfl : k = 0 ∨ k = 1 ∨ k = 2 := by omega
    · obtain rfl := Option.some.inj (hdoubled.lowBound.symm.trans hf)
      exact .of_kind (by rintro ⟨⟩) (by rintro ⟨⟩) (by rintro ⟨⟩)
    · obtain rfl := Option.some.inj (hdoubled.highBound.symm.trans hf)
      exact .of_kind (by rintro ⟨⟩) (by rintro ⟨⟩) (by rintro ⟨⟩)
    · obtain rfl := Option.some.inj (hdoubled.fakeQuantize.symm.trans hf)
      refine ⟨fun levels hlevels => ⟨⟨r.levels, r.inputLow, r.inputHigh, low, high⟩, _,
        Op.fakeQuantize.inj hlevels, rfl, ⟨?_, ?_, ?_, ?_⟩, hq⟩, by simp, by simp⟩
      · exact hold (by rw [hin]; rfl) hranged.inputLow
      · exact hold (by rw [hin]; rfl) hranged.inputHigh
      · exact constant?_eq_some.mpr ⟨_, hdoubled.lowBound, rfl⟩
      · exact constant?_eq_some.mpr ⟨_, hdoubled.highBound, rfl⟩
  · rw [kind?_eq_face, hdoubled.fakeQuantize]
    rfl
  · obtain ⟨f, hf, hfk⟩ := face_of_kind hk
    rcases (hdoubled.fresh hu hf).1 with hstep | ⟨rfl, -⟩
    · rw [hfk] at hstep
      simp [IsStep] at hstep
    · rfl

theorem emits_replaceNode {old new : NodeId} {k : OpKind} (hk : k ≠ .constant ∧ k ≠ .convert)
    (hnew : g₀.nodes.size ≤ new) :
    Ensures (fun g => Emits q g₀ g ∧ g.kind? old = some k) (fun _ => Emits q g₀) Fatal
      (ofGraph (Graph.replaceNode old new)) := by
  rintro g r g' ⟨hg, hkind⟩ hrun
  have hdescends := ensures_replaceNode Face.stable_true old hnew g r g' hg.descends hrun
  refine ⟨fun _ hr => ?_, hdescends.2⟩
  subst hr
  obtain ⟨-, hrerouted, hsize, -⟩ :=
    replaceNode_rerouted hg.descends.wellFormed (exec_adapt_eq_ok.mp hrun)
  refine hg.rerouted (hdescends.1 () rfl) hrerouted hsize ?_
  rintro s s' ⟨rfl, -⟩
  rw [hkind]
  exact ⟨fun h => hk.1 (Option.some.inj h), fun h => hk.2 (Option.some.inj h)⟩

end Edit

end Edits

end LowPrecision
