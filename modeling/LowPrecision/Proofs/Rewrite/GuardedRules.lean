import LowPrecision.Proofs.Rewrite.Exchanges
import LowPrecision.Proofs.Rewrite.Guarding
import LowPrecision.Proofs.Rewrite.TracedRules

namespace LowPrecision

variable {α : Type} {g g₁ g' : Graph α} {id : NodeId} {n : Node α} {lax : Prop}
  {pending pending' : Slot → Prop} {busy : NodeId → Prop} {s : Slot} {f : Face α}

open LowPrecision.Graph

namespace Graph

section Quantizers

variable {levels : Nat} {data low high : Slot} {rest : List Slot} {p : Port}
  {outLow outHigh : Tensor α}

theorem Guarded.doubled (h : Guarded lax pending busy g)
    (hd : Doubled g g' levels data low high p outLow outHigh) (hf : g.face? id = some f)
    (hkind : f.kind = .fakeQuantize) (hin : f.inputs = data :: low :: high :: rest) (hid : ¬ busy id)
    (hpending : ∀ s, s.node < g.nodes.size → (pending s ↔ pending' s)) :
    Guarded lax pending' busy g' := by
  have hconstant : ∀ {v : NodeId} {t : Tensor α},
      g'.face? v = some ⟨.constant t, [], [⟨.f32, some t.shape⟩], none⟩ → ∀ type,
        ¬ g'.Raw pending' ⟨v, 0⟩ type := fun hv type => not_raw_of_port (port?_new hv) rfl
  have hold : ∀ s ∈ f.inputs, ∀ type, g'.Raw pending' s type → lax := by
    intro s hs type hraw
    obtain ⟨i, hi⟩ := List.mem_iff_getElem?.mp hs
    obtain ⟨q, hq⟩ := h.wellFormed.exists_port (v := id) (i := i) (by rw [input?_eq_face, hf]; exact hi)
    have hraw' := (raw_of_eq (hpending s (lt_size_of_port hq))
      (hq.trans (hd.toExtends.port hq).symm)).mpr hraw
    exact (Face.accepts_iff_of_quantizer hkind).mp ((h.reads id f hf hid).takes s type hs hraw')
  refine h.extended hd.toExtends hpending fun v k hv hk => ?_
  obtain ⟨i, rfl⟩ := Nat.exists_eq_add_of_le hv
  have hi : i < 3 := Nat.add_lt_add_iff_left.mp (hd.count ▸ lt_size_of_face? hk)
  obtain rfl | rfl | rfl : i = 0 ∨ i = 1 ∨ i = 2 := by omega
  · obtain rfl := Option.some.inj (hd.lowBound.symm.trans hk)
    exact ⟨.of_kind (.inr (.inl rfl)), .of_inputs_nil rfl⟩
  · obtain rfl := Option.some.inj (hd.highBound.symm.trans hk)
    exact ⟨.of_kind (.inr (.inl rfl)), .of_inputs_nil rfl⟩
  · obtain rfl := Option.some.inj (hd.fakeQuantize.symm.trans hk)
    refine ⟨.of_kind (.inl rfl), .of_accepts (by decide : ¬ OpKind.fakeQuantize.Passes) ?_⟩
    intro s hs type hraw
    refine (Face.accepts_iff_of_quantizer rfl).mpr ?_
    simp only [List.mem_cons, List.not_mem_nil, or_false] at hs
    rcases hs with rfl | rfl | rfl | rfl | rfl
    · exact hold s (by simp [hin]) type hraw
    · exact hold s (by simp [hin]) type hraw
    · exact hold s (by simp [hin]) type hraw
    · exact absurd hraw (hconstant hd.lowBound type)
    · exact absurd hraw (hconstant hd.highBound type)

end Quantizers

namespace Guarded

section Exchanges

variable {m : NodeMatch}

theorem superseded {k : Face α} (h : g.WellGuarded lax) (hs : Superseded g g₁ g' id f)
    (htyped : f.Typed) (hreads : g₁.ReadsWell lax (fun _ => False) f) (hk : g.face? id = some k)
    (hkind : ¬ k.kind.Passes) (htypes : ∀ (j : Nat) (p q : Port), k.ports[j]? = some p →
      f.ports[j]? = some q → q.elementType = p.elementType) : g'.WellGuarded lax := by
  have h₁ : g₁.WellGuarded lax := h.added hs.added hs.reads (fun _ _ => .rfl) htyped hreads
  have hk₁ := hs.added.old hk
  have hlength : k.ports.length = f.ports.length := ports_of_replaceNode hk₁ hs.added.new hs.replaced
  refine h₁.replaced hs.replaced (fun k' hk' => ?_) fun v i j type _ hi => raw_congr .rfl ?_
  · cases hk₁.symm.trans hk'
    exact hkind
  · obtain ⟨p, hp⟩ := h₁.wellFormed.exists_port hi
    rw [port?_eq_face, hk₁, Option.bind_some] at hp
    have hq := List.getElem?_eq_getElem (hlength ▸ (List.getElem?_eq_some_iff.mp hp).1)
    rw [port?_eq_face, port?_eq_face, hk₁, hs.added.new, Option.bind_some, Option.bind_some, hp, hq,
      Option.map_some, Option.map_some, htypes j p _ hp hq]

theorem superseded_by_constant {k : Face α} {value : Tensor α} {q : Port} (h : g.WellGuarded lax)
    (hs : Superseded g g₁ g' id ⟨.constant value, [], [q], none⟩) (hk : g.face? id = some k)
    (hkind : ¬ k.kind.Passes) (htype : ∀ p, g.port? ⟨id, 0⟩ = some p → q.elementType = p.elementType) :
    g'.WellGuarded lax := by
  refine h.superseded hs (.of_kind (.inr (.inl rfl))) (.of_inputs_nil rfl) hk hkind fun j p q' hp hq => ?_
  cases j with
  | zero =>
    cases hq
    exact htype p (by rw [port?_eq_face, hk]; exact hp)
  | succ j => cases hq

theorem fused (h : g.WellGuarded lax) (hn : g.node? m.node = some n)
    (hkind : n.kind = .add ∨ n.kind = .multiply ∨ n.kind = .subtract)
    (hrun : exec (ConvertFusion.apply m) g = .ok (.ok true, g')) : g'.WellGuarded lax := by
  obtain ⟨slot, input, source, g₁, -, -, hs⟩ := ConvertFusion.apply_done h.wellFormed hn hrun
  obtain ⟨hpasses, -, hquantizer, -⟩ := OpKind.computes_of_arithmetic hkind
  have hface : g.face? m.node = some n.face := face?_eq_some.mpr ⟨n, hn, rfl⟩
  refine h.superseded hs ((h.typed _ _ hface).changed rfl (.inl rfl)) (.of_relaxed rfl hpasses hquantizer)
    hface hpasses fun j p q hp hq => ?_
  cases hp.symm.trans hq
  rfl

theorem sanitized [Scalar α] (h : g.WellGuarded lax) (hk : g.kind? m.node = some .constant)
    (hrun : exec (Sanitize.apply m) g = .ok (.ok true, g')) : g'.WellGuarded lax := by
  obtain ⟨value, p, g₁, -, hp, hs⟩ := Sanitize.apply_done h.wellFormed hrun
  obtain ⟨k, hk, hkind⟩ := face_of_kind hk
  refine h.superseded_by_constant hs hk (by rw [hkind]; decide) fun q hq => ?_
  cases hp.symm.trans hq
  rfl

theorem folded (h : g.WellGuarded lax) (hrun : exec (FoldConvert.apply id) g = .ok (.ok true, g')) :
    g'.WellGuarded lax := by
  obtain ⟨n, destination, source, value, g₁, hn, hop, -, -, hs⟩ :=
    FoldConvert.apply_done h.wellFormed hrun
  have hk : g.face? id = some n.face := face?_eq_some.mpr ⟨n, hn, rfl⟩
  refine h.superseded_by_constant hs hk ?_ fun p hp => ?_
  · rw [show n.face.kind = .convert from congrArg Op.kind hop]
    decide
  · exact ((h.typed id _ hk).converted destination p hop (mem_ports (s := ⟨id, 0⟩) hk hp)).symm

theorem absorbed {f : α → α → α} (h : g.WellGuarded lax)
    (hkind : g.kind? id = some .subtract ∨ g.kind? id = some .multiply)
    (hrun : exec (RangeFusion.apply id f) g = .ok (.ok true, g')) : g'.WellGuarded lax := by
  obtain ⟨fakeQuantize, value, k, levels, data, inLow, inHigh, rest, p, q, low, high, g₁, g₂, -, hp, hk,
    hop, hin, hq, hdoubled, hreplace, hrename, -⟩ := RangeFusion.apply_done h.wellFormed hrun
  have hface : g.face? fakeQuantize = some k.face := face?_eq_some.mpr ⟨k, hk, rfl⟩
  have h₁ : g₁.WellGuarded lax :=
    h.doubled hdoubled hface (congrArg Op.kind hop) hin (fun h => h) fun _ _ => .rfl
  obtain ⟨l, hl, hlkind⟩ : ∃ l, g.face? id = some l ∧ (l.kind = .subtract ∨ l.kind = .multiply) := by
    rcases hkind with hkind | hkind <;> obtain ⟨l, hl, hkind⟩ := face_of_kind hkind
    · exact ⟨l, hl, .inl hkind⟩
    · exact ⟨l, hl, .inr hkind⟩
  have hl₁ := hdoubled.toExtends.face hl
  have hlength := ports_of_replaceNode hl₁ hdoubled.fakeQuantize hreplace
  have h₂ : g₂.WellGuarded lax := by
    refine h₁.replaced hreplace (fun l' hl' => ?_) fun v i j type _ hi => raw_congr .rfl ?_
    · cases hl₁.symm.trans hl'
      rcases hlkind with h | h <;> rw [h] <;> decide
    · obtain ⟨r, hr⟩ := h₁.wellFormed.exists_port hi
      have hr' := hr
      rw [port?_eq_face, hl₁, Option.bind_some] at hr
      obtain rfl : j = 0 := by
        have hj := (List.getElem?_eq_some_iff.mp hr).1
        rw [hlength] at hj
        exact Nat.lt_one_iff.mp hj
      rw [hdoubled.toExtends.port hp, port?_new hdoubled.fakeQuantize]
      rfl
  exact h₂.renamed hrename

end Exchanges

section Kernels

variable [Arithmetic α] {operands : List Slot} {scale : Tensor α}

theorem lowered (h : g.WellGuarded lax) (hn : g.node? id = some n)
    (hkind : n.kind = .matMul ∨ n.kind = .convolution ∨ n.kind = .groupConvolution)
    (hrun : exec (lowerKernel id operands scale) g = .ok (.ok (), g')) : g'.WellGuarded lax := by
  obtain ⟨p, d, g₁, g₂, hp, hadded, hports, hinsert, hreplace⟩ := lowerKernel_done h.wellFormed hn hrun
  obtain ⟨_, mid, -, hins⟩ := Dequantization.insert_done hadded.wellFormed hinsert
  have hk : g.kind? id = some n.kind := by rw [kind?, hn]; rfl
  obtain ⟨hpasses, hliteral, hquantizer, -⟩ := OpKind.computes_of_kernel hkind
  have hreal : ¬ (n.kind = .fakeQuantize ∨ n.kind = .constant ∨ n.kind.Passes) := by
    rintro (h | h | h)
    exacts [hquantizer h, hliteral.1 h, hpasses h]
  have hextends : Extends g g₁ fun _ => True := hadded.extends (fun _ _ => trivial) hports
  have h₁ : g₁.WellGuarded lax := by
    refine h.added hadded hports (fun _ _ => .rfl) (.of_real (fun q hq => ?_) hliteral.2)
      (.of_relaxed rfl hpasses hquantizer)
    rw [List.mem_singleton.mp hq]
    rfl
  have h₂ : g₂.WellGuarded lax := h₁.inserted hins
    (fun r hr => hextends.input (mem_readers_of_node h.wellFormed hn hr)) (hextends.port hp)
    fun _ => h₁.not_raw_of_kind (s := ⟨id, 0⟩) (hextends.kind hk) hreal
  have hold : g₂.kind? id = some n.kind := hins.kind (hextends.kind hk)
  have hnew : g₂.kind? g.nodes.size = some n.kind := by
    refine hins.kind ?_
    rw [kind?_eq_face, hadded.new]
    rfl
  refine h₂.replaced hreplace (fun f hf hpasses => ?_) fun v i j type _ _ =>
    iff_of_false (h₂.not_raw_of_kind hold hreal) (h₂.not_raw_of_kind hnew hreal)
  rw [kind?_eq_face, hf, Option.map_some, Option.some.injEq] at hold
  exact hreal (.inr (.inr (hold ▸ hpasses)))

end Kernels

end Guarded

end Graph

section Moves

variable {type : ElementType} {todo : List Nat}

theorem Graph.Guarded.not_raw_of_ofOutput (h : Guarded lax pending busy g) {d : Dequantization α}
    (hd : Dequantization.ofOutput g s = some d) : ¬ g.Raw pending s type := by
  intro hraw
  obtain ⟨p, hp, htype⟩ := Option.map_eq_some_iff.mp hraw.port
  obtain ⟨f, hf, hport⟩ := Option.bind_eq_some_iff.mp (port?_eq_face g s ▸ hp)
  obtain ⟨n, hn, rfl⟩ := face?_eq_some.mp hf
  have hkind : n.kind = .fakeQuantize ∨ n.kind = .constant ∨ n.kind.Passes :=
    (h.typed s.node _ hf).low p (List.mem_of_getElem? hport) (htype ▸ hraw.low)
  obtain ⟨scaled, shifted, _, hm, hs, hc, _, hquantized⟩ := Dequantization.ofOutput_eq_some hd
  obtain ⟨hmultiply, rfl⟩ | ⟨n', _, _, _, hn', hk, -⟩ := Dequantization.readMultiply_cases hm
  swap
  · cases hn.symm.trans hn'
    exact absurd (hk ▸ hkind) (by decide)
  obtain ⟨hsubtract, rfl⟩ | ⟨n', _, _, hn', hk, -⟩ := Dequantization.readSubtract_cases hs
  swap
  · cases hn.symm.trans hn'
    exact absurd (hk ▸ hkind) (by decide)
  obtain ⟨hconvert, hdata⟩ | ⟨n', _, hn', hop, -⟩ := Dequantization.readConvert_cases hc
  swap
  · cases hn.symm.trans hn'
    have hk : n.kind = .convert := congrArg Op.kind hop
    exact absurd (hk ▸ hkind) (by decide)
  simp [hmultiply, hsubtract, hconvert] at hquantized

structure Graph.PassesOn (g : Graph α) (id : NodeId) (type : ElementType) (todo : List Nat)
    (f : Face α) : Prop where
  passes : f.kind.Passes
  below (s : Slot) : s ∈ f.inputs → s.node ≠ id
  ports (j : Nat) (p : Port) : f.ports[j]? = some p → j ∈ todo ∨ p.elementType = type
  takes (s : Slot) (t : ElementType) : s ∈ f.inputs → g.Raw (fun _ => False) s t →
    f.relaxed.isSome ∨ f.ports = [] ∨ t = type
  first (s : Slot) : f.inputs[0]? = some s → type.isLowPrecision = true →
    g.Raw (fun _ => False) s type

namespace Graph.PassesOn

theorem step {f f' : Face α} {todo' : List Nat} (h : PassesOn g id type todo f) (hop : f'.op = f.op)
    (hinputs : f'.inputs = f.inputs) (hrelaxed : f.relaxed.isSome → f'.relaxed.isSome)
    (hlength : f'.ports.length = f.ports.length)
    (hports : ∀ j p, f'.ports[j]? = some p → j ∈ todo' ∨ p.elementType = type)
    (hsame : ∀ s ∈ f.inputs, (g.port? s).map Port.elementType = (g'.port? s).map Port.elementType) :
    PassesOn g' id type todo' f' where
  passes := by
    rw [Face.kind, hop]
    exact h.passes
  below s hs := h.below s (hinputs ▸ hs)
  ports := hports
  takes s t hs hraw := by
    rw [hinputs] at hs
    refine (h.takes s t hs ((raw_congr .rfl (hsame s hs)).mpr hraw)).imp hrelaxed (.imp_left ?_)
    intro hnone
    rw [← List.length_eq_zero_iff, hlength, hnone, List.length_nil]
  first s hs hlow := by
    rw [hinputs] at hs
    exact (raw_congr .rfl (hsame s (List.mem_of_getElem? hs))).mp (h.first s hs hlow)

theorem readsWell {f : Face α} (h : PassesOn g id type [] f) :
    g.ReadsWell lax (fun _ => False) f := by
  have htype : ∀ p ∈ f.ports, p.elementType = type := fun p hp => by
    obtain ⟨j, hj⟩ := List.mem_iff_getElem?.mp hp
    exact (h.ports j p hj).resolve_left List.not_mem_nil
  refine ⟨fun s t hs hraw => Face.accepts_of_takes ?_ fun hk => ?_, fun s p _ hs hp hlow => ?_⟩
  · rcases h.takes s t hs hraw with hrelaxed | hnone | rfl
    · exact .inr (.inl hrelaxed)
    · exact .inr (.inr ⟨h.passes, fun p hp => absurd (hnone ▸ hp) List.not_mem_nil⟩)
    · exact .inr (.inr ⟨h.passes, htype⟩)
  · exact absurd (hk ▸ h.passes) (by decide)
  · rw [htype p hp] at hlow ⊢
    exact h.first s hs hlow

end Graph.PassesOn

structure Moving (lax : Prop) (id : NodeId) (type : ElementType) (todo : List Nat) (g : Graph α) :
    Prop where
  guarded : g.Guarded lax (fun t => t.node = id ∧ t.index ∈ todo) (· = id)
  passesOn : ∃ f, g.face? id = some f ∧ g.PassesOn id type todo f

namespace Moving

theorem finish (h : Moving lax id type [] g) : g.WellGuarded lax := by
  have hsettled : g.Guarded lax (fun _ => False) (· = id) :=
    h.guarded.settled (fun _ => False.elim) fun _ _ _ _ _ _ hs => absurd hs.2 List.not_mem_nil
  obtain ⟨f, hf, hpasses⟩ := h.passesOn
  refine hsettled.released fun v f' hf' hv _ => ?_
  obtain rfl : v = id := hv
  cases hf.symm.trans hf'
  exact hpasses.readsWell

theorem retype {index : Nat} (h : Moving lax id type (index :: todo) g)
    (hr : Recast g g' fun v f => if v = id then f.retype index type else f) :
    g'.Guarded lax (fun t => (t.node = id ∧ t.index ∈ todo) ∨ t = ⟨id, index⟩) (· = id) ∧
      ∃ f, g'.face? id = some f ∧ g'.PassesOn id type todo f := by
  obtain ⟨f, hf, hpasses⟩ := h.passesOn
  have hretyped : g'.Guarded lax (fun t => t.node = id ∧ t.index ∈ index :: todo) (· = id) := by
    refine h.guarded.retyped (s := ⟨id, index⟩) hr (fun k hk => ?_) rfl ⟨rfl, List.mem_cons_self⟩
    cases hf.symm.trans hk
    exact hpasses.passes
  have hcases : ∀ t : Slot, t.node = id ∧ t.index ∈ index :: todo ↔
      (t.node = id ∧ t.index ∈ todo) ∨ t = ⟨id, index⟩ := by
    rintro ⟨v, i⟩
    simp only [List.mem_cons, Slot.mk.injEq]
    tauto
  refine ⟨hretyped.settled (fun t => (hcases t).mpr) fun _ _ _ _ t _ ht _ hraw =>
    absurd ((hcases t).mp ht) hraw.settled, f.retype index type, ?_, ?_⟩
  · rw [hr.face, hf, Option.map_some, if_pos rfl]
  · refine hpasses.step rfl rfl (fun h => h) (List.length_modify ..) (fun j p hp => ?_) fun s hs => ?_
    · rw [Face.retype, List.getElem?_modify] at hp
      obtain ⟨q, hq, rfl⟩ := Option.map_eq_some_iff.mp hp
      split
      · exact .inr rfl
      · next hne => exact (hpasses.ports j q hq).imp_left fun hj =>
          (List.mem_cons.mp hj).resolve_left fun he => hne he.symm
    · have hne : s ≠ ⟨id, index⟩ := fun he => hpasses.below s hs (congrArg Slot.node he)
      have hsame : g'.port? s = g.port? s := Recast.port_of_ne (s := ⟨id, index⟩) hr hne
      rw [hsame]

theorem relax {types : RelaxedTypes} {f : Face α}
    (h : Moving lax id type (List.range f.ports.length) g) (hf : g.face? id = some f)
    (hr : Recast g g' fun v f => if v = id then f.relax types else f) :
    Moving lax id .f32 (List.range f.ports.length) g' := by
  obtain ⟨k, hk, hpasses⟩ := h.passesOn
  cases hf.symm.trans hk
  refine ⟨h.guarded.relaxed hr, f.relax types, ?_, hpasses.passes, hpasses.below, ?_, ?_,
    fun _ _ h => absurd h (by decide)⟩
  · rw [hr.face, hf, Option.map_some, if_pos rfl]
  · exact fun j p hp => .inl (List.mem_range.mpr (List.getElem?_eq_some_iff.mp hp).1)
  · exact fun _ _ _ _ => .inl rfl

variable [Arithmetic α] {params : AffineParams α}

theorem ensures_restore (id : NodeId) (index : Nat) (base : String) :
    Ensures (Moving lax id type (index :: todo)) (fun _ => Moving lax id type todo) Fatal (do
      let readers ← Edit.read (·.readers ⟨id, index⟩)
      Edit.ofGraph (Edit.step (·.setOutputType ⟨id, index⟩ type))
      if !readers.isEmpty then
        discard (Dequantization.insert ⟨id, index⟩ readers params base)) := by
  apply (Edit.ensures_read (·.readers ⟨id, index⟩)).bind
  intro readers
  have hretype : Ensures (fun g : Graph α => Moving lax id type (index :: todo) g ∧
        readers = g.readers ⟨id, index⟩)
      (fun _ g => (g.Guarded lax (fun t => (t.node = id ∧ t.index ∈ todo) ∨ t = ⟨id, index⟩) (· = id) ∧
        ∃ f, g.face? id = some f ∧ g.PassesOn id type todo f) ∧
        ∀ v i, (⟨v, i⟩ : Slot) ∈ readers ↔ g.input? v i = some ⟨id, index⟩)
      Fatal (Edit.ofGraph (Edit.step (·.setOutputType ⟨id, index⟩ type))) := by
    refine Edit.ensures_step fun g g' ⟨h, hreaders⟩ hrun => ?_
    obtain ⟨-, hrecast⟩ := setOutputType_done h.guarded.wellFormed hrun
    refine ⟨h.retype hrecast, fun v i => ?_⟩
    rw [hrecast.input fun v f => by split <;> rfl, hreaders]
    exact h.guarded.wellFormed.mem_readers
  apply hretype.bind
  intro _
  split
  · refine (?_ : Ensures _ (fun _ => Moving lax id type todo) Fatal _).discard fun _ _ h => h
    rintro g r g' ⟨⟨h, f, hf, hpasses⟩, hreaders⟩ hrun
    refine ⟨fun d hd => ?_, (Edit.ensures_insert Face.stable_true (fun _ _ _ => trivial) _ readers
      params base g r g' (.refl h.wellFormed) hrun).2⟩
    subst hd
    obtain ⟨p, mid, hp, hins⟩ := Dequantization.insert_done h.wellFormed hrun
    have hslots : ∀ r ∈ readers, g.input? r.node r.index = some ⟨id, index⟩ :=
      fun r hr => (hreaders r.node r.index).mp hr
    refine ⟨h.behind hins hslots hp fun v i hi _ => .inl ((hreaders v i).mpr hi), f, ?_, ?_⟩
    · rw [hins.face_old (lt_size_of_face? hf), hf, Option.map_some, Face.redirect_of_not_mem]
      intro i hi
      have hread := hslots _ hi
      rw [input?_eq_face, hf] at hread
      exact hpasses.below _ (List.mem_of_getElem? hread) rfl
    · refine hpasses.step rfl rfl (fun h => h) rfl hpasses.ports fun s hs => ?_
      obtain ⟨i, hi⟩ := List.mem_iff_getElem?.mp hs
      obtain ⟨q, hq⟩ := h.wellFormed.exists_port (v := id) (i := i) (by rw [input?_eq_face, hf]; exact hi)
      rw [hq, hins.recast.port fun _ _ => rfl, hins.built.toExtends.port hq]
  · next hempty =>
    refine .pure fun g ⟨⟨h, hpasses⟩, hreaders⟩ => ⟨h.settled (fun _ => .inl) ?_, hpasses⟩
    intro v f hf _ s hs hpending _ hraw
    obtain rfl := hpending.resolve_left hraw.settled
    obtain ⟨i, hi⟩ := List.mem_iff_getElem?.mp hs
    have hmem := (hreaders v i).mpr (by rw [input?_eq_face, hf]; exact hi)
    simp_all

omit [Arithmetic α] in
theorem start {f : Face α} {chain : Dequantization α} {p : Port} (hg : g.Regular)
    (h : g.WellGuarded lax) (hf : g.face? id = some f) (hpasses : f.kind.Passes)
    (hchain : Dequantization.ofInput g id 0 = some chain) (hp : g.port? chain.data = some p)
    (hr : Recast g g' fun v f => f.redirect v [⟨id, 0⟩] chain.data) :
    Moving lax id p.elementType (List.range f.ports.length) g' := by
  obtain ⟨rank, hrank⟩ := hg.acyclic
  obtain ⟨output, hi, hlt, hlt', -⟩ := Dequantization.ofInput_below hrank hchain
  obtain ⟨s, hs, hd⟩ := Option.bind_eq_some_iff.mp hchain
  cases hi.symm.trans hs
  have hinput : f.inputs[0]? = some output := by rw [input?_eq_face, hf] at hi; exact hi
  have hreads := h.reads id f hf fun h => h
  have hreal : ∀ q ∈ f.ports, q.elementType.isLowPrecision = false := by
    intro q hq
    by_contra hlow
    exact h.not_raw_of_ofOutput hd (hreads.first output q hpasses hinput hq (by simpa using hlow))
  -- Nothing integer leaves the outputs yet, so no reader of theirs can be wrong.
  have hexempt : g.Guarded lax (fun t => t.node = id ∧ t.index ∈ List.range f.ports.length) (· = id) := by
    refine h.exempted (fun _ => False.elim) (fun s type ⟨hs, _⟩ hraw => ?_) fun _ => False.elim
    obtain ⟨q, hq, htype⟩ := Option.map_eq_some_iff.mp hraw.port
    have hlow := hraw.low
    rw [← htype, hreal q (mem_ports (s := s) (hs ▸ hf) hq)] at hlow
    cases hlow
  have hport : ∀ s, g'.port? s = g.port? s := fun s => hr.port (fun _ _ => rfl) s
  refine ⟨hexempt.redirected hr rfl, f.redirect id [⟨id, 0⟩] chain.data, ?_, hpasses, ?_, ?_, ?_, ?_⟩
  · rw [hr.face, hf, Option.map_some]
  · rintro s hs rfl
    obtain ⟨i, hi⟩ := List.mem_iff_getElem?.mp hs
    rw [Face.input_redirect] at hi
    obtain ⟨t, ht, hmoved⟩ := Option.map_eq_some_iff.mp hi
    split at hmoved
    · subst hmoved
      omega
    · subst hmoved
      exact Nat.lt_irrefl _ (hrank _ _ _ (by rw [input?_eq_face, hf]; exact ht))
  · exact fun j q hq => .inl (List.mem_range.mpr (List.getElem?_eq_some_iff.mp hq).1)
  · intro s t hs hraw
    obtain ⟨i, hi⟩ := List.mem_iff_getElem?.mp hs
    rw [Face.input_redirect] at hi
    obtain ⟨s', hs', hmoved⟩ := Option.map_eq_some_iff.mp hi
    have hraw' : g.Raw _ s _ := (raw_of_eq .rfl (hport s)).mp hraw
    split at hmoved
    · subst hmoved
      exact .inr (.inr (hraw'.eq_of_port hp).symm)
    · subst hmoved
      have hquantizer : f.kind ≠ .fakeQuantize := fun hk => absurd (hk ▸ hpasses) (by decide)
      have haccepts := hreads.takes _ t (List.mem_of_getElem? hs') hraw'
      rw [Face.Accepts, if_neg hquantizer] at haccepts
      rcases haccepts with hk | hrelaxed | ⟨-, hports⟩
      · exact absurd (hk ▸ hpasses) (by decide)
      · exact .inl hrelaxed
      · refine .inr (.inl (List.eq_nil_iff_forall_not_mem.mpr fun q hq => ?_))
        have hlow := hraw.low
        rw [← hports q hq, hreal q hq] at hlow
        cases hlow
  · intro s hs hlow
    have hs' : s = chain.data := by
      rw [Face.input_redirect, hinput] at hs
      simpa using hs.symm
    exact ⟨fun h => h, hlow, by rw [hs', hport, hp]; rfl⟩

end Moving

theorem Edit.guarded_moved [Arithmetic α] {f : Face α} {chain : Dequantization α} (hpasses : f.kind.Passes)
    (params : AffineParams α) (keep : Bool) :
    Ensures (fun g => g.Regular ∧ g.WellGuarded lax ∧ g.face? id = some f ∧
      Dequantization.ofInput g id 0 = some chain) (fun _ g => g.WellGuarded lax) Fatal
      (moveDequantization id chain params keep) := by
  rw [moveDequantization]
  apply (Edit.ensures_port chain.data).bind
  intro port
  dsimp only
  generalize htype : (if keep then port.elementType else .f32) = type
  apply (Edit.ensures_node id).bind
  intro n
  have hset : Ensures (fun g => ((g.Regular ∧ g.WellGuarded lax ∧ g.face? id = some f ∧
        Dequantization.ofInput g id 0 = some chain) ∧ g.port? chain.data = some port) ∧
        g.node? id = some n)
      (fun _ g => Moving lax id port.elementType (List.range n.outputs.length) g ∧
        ∃ f, g.face? id = some f ∧ f.ports.length = n.outputs.length) Fatal
      (Edit.ofGraph (Edit.step (·.setInput id 0 chain.data))) := by
    refine Edit.ensures_step fun g g' hat hrun => ?_
    obtain ⟨⟨⟨hg, h, hf, hchain⟩, hp⟩, hn⟩ := hat
    obtain ⟨-, -, hrecast⟩ := setInput_done hg.wellFormed hrun
    obtain rfl : n.face = f := by
      rw [face?_eq_some.mpr ⟨n, hn, rfl⟩] at hf
      exact Option.some.inj hf
    have hcount : n.face.ports.length = n.outputs.length := List.length_map _
    refine ⟨hcount ▸ Moving.start hg h hf hpasses hchain hp hrecast,
      n.face.redirect id [⟨id, 0⟩] chain.data, ?_, hcount⟩
    rw [hrecast.face, hf, Option.map_some]
  have hrestore : Ensures (Moving lax id type (List.range n.outputs.length))
      (fun _ g => g.WellGuarded lax) Fatal (do
        (List.range n.outputs.length).forM fun index => do
          let readers ← Edit.read (·.readers ⟨id, index⟩)
          Edit.ofGraph (Edit.step (·.setOutputType ⟨id, index⟩ type))
          if !readers.isEmpty then
            discard (Dequantization.insert ⟨id, index⟩ readers params n.name)
        Edit.change (·.removeDead [chain.output.node])) := by
    refine (Ensures.forM_suffix (Moving lax id type) fun index _ _ => Moving.ensures_restore id index
      n.name).bind fun _ => ?_
    exact Edit.ensures_change fun g h => h.finish.removed _
  apply hset.bind
  intro _
  split
  · next hne =>
    obtain rfl : ElementType.f32 = type := by
      cases keep with
      | true => exact absurd htype.symm hne
      | false => exact htype
    refine Ensures.bind (Edit.ensures_step fun g g' hat hrun => ?_) fun _ => hrestore
    obtain ⟨h, f, hf, hcount⟩ := hat
    obtain ⟨-, hrecast⟩ := setRelaxed_done h.guarded.wellFormed hrun
    rw [← hcount] at h ⊢
    exact h.relax hf hrecast
  · next heq =>
    rw [← not_not.mp heq]
    exact hrestore.weaken (fun _ h => not_not.mp heq ▸ h.1) fun _ _ h => h

end Moves

namespace Decomposition

variable [Scalar α] {source : Slot} {p : Lowering α} {affine : AffineParams α} {type : ElementType}
  {name : String} {weights : Option (Tensor α)} {d : Dequantization α}

theorem addSource_guarded (h : g.WellGuarded lax) (hn : g.node? id = some n)
    (hrun : exec (addSource id name p type weights) g = .ok (.ok source, g₁)) :
    g₁.WellGuarded lax ∧ g.nodes.size ≤ source.node ∧ Extends g g₁ (· ∈ n.inputs) := by
  cases weights with
  | some weights =>
    obtain ⟨folded, -, rfl, hadded⟩ := addSource_some h.wellFormed hrun
    exact ⟨h.added hadded (by simp) (fun _ _ => .rfl) (.of_kind (.inr (.inl rfl))) (.of_inputs_nil rfl),
      Nat.le_refl _, hadded.extends (by simp) (by simp)⟩
  | none =>
    obtain ⟨k, levels, data, low, high, rest, q, _, _, hk, hop, hin, -, rfl, hdoubled⟩ :=
      addSource_doubled h.wellFormed hrun
    cases hn.symm.trans hk
    refine ⟨h.doubled hdoubled (face?_eq_some.mpr ⟨n, hn, rfl⟩) (congrArg Op.kind hop) hin
      (fun h => h) fun _ _ => .rfl, Nat.le_add_right _ _, ?_⟩
    refine (Extends.refl h.wellFormed).trans hdoubled.toExtends fun s _ hs => ?_
    rw [hin]
    rcases hs with rfl | rfl | rfl <;> simp

theorem place_guarded {q : Port} (h : g.WellGuarded lax) (hn : g.node? id = some n)
    (hkind : n.kind = .fakeQuantize) (hone : n.outputs.length = 1) (hself : ∀ s ∈ n.inputs, s.node ≠ id)
    (hq : g.port? ⟨id, 0⟩ = some q) (hreal : q.elementType.isLowPrecision = false)
    (hsource : exec (addSource id name p type weights) g = .ok (.ok source, g₁))
    (hrun : exec (place id n weights affine source) g₁ = .ok (.ok d, g')) : g'.WellGuarded lax := by
  have hface : g.face? id = some n.face := face?_eq_some.mpr ⟨n, hn, rfl⟩
  obtain ⟨h₁, hnew, hextends⟩ := addSource_guarded h hn hsource
  obtain ⟨g₂, hinsert, hreplace⟩ := place_run hrun
  obtain ⟨_, mid, -, hins⟩ := Dequantization.insert_done h₁.wellFormed hinsert
  have hq₁ := hextends.port hq
  have h₂ : g₂.WellGuarded lax := h₁.inserted hins
    (fun r hr => hextends.input (mem_readers_of_node h.wellFormed hn hr)) hq₁
    fun _ => not_raw_of_port hq₁ hreal
  have hall : ∀ v i, g₁.input? v i = some ⟨id, 0⟩ → (⟨v, i⟩ : Slot) ∈ n.readers 0 := by
    intro v i hi
    rcases Nat.lt_or_ge v g.nodes.size with hlt | hge
    · rw [input?_eq_face, hextends.old v hlt, ← input?_eq_face] at hi
      have hmem : (⟨v, i⟩ : Slot) ∈ g.readers ⟨id, 0⟩ := h.wellFormed.mem_readers.mpr hi
      rwa [readers, hn] at hmem
    · obtain ⟨f, hf, hi⟩ := Option.bind_eq_some_iff.mp (input?_eq_face g₁ v i ▸ hi)
      have hread := (hextends.inputs v f hge hf _ (List.mem_of_getElem? hi)).1 (lt_size_of_face? hface)
      exact absurd rfl (hself _ hread)
  have hid : id < g₁.nodes.size := Nat.lt_of_lt_of_le (lt_size_of_face? hface) hextends.size
  have hsame : source ≠ ⟨id, 0⟩ := by
    rintro rfl
    exact Nat.not_lt.mpr hnew (lt_size_of_face? hface)
  have hold : g₂.face? id = some (n.face.redirect id (n.readers 0) d.output) := by
    rw [hins.face_old hid, hextends.face hface]
    rfl
  refine h₂.replaced hreplace (fun f hf => ?_) fun v i j type _ hi => ?_
  · cases hold.symm.trans hf
    rw [show (n.face.redirect id (n.readers 0) d.output).kind = .fakeQuantize from hkind]
    decide
  · obtain ⟨r, hr⟩ := h₂.wellFormed.exists_port hi
    rw [port?_eq_face, hold, Option.bind_some] at hr
    obtain rfl : j = 0 := by
      have hj := (List.getElem?_eq_some_iff.mp hr).1
      rw [Face.ports_redirect, Node.face, List.length_map, hone] at hj
      exact Nat.lt_one_iff.mp hj
    exact absurd hi (unread_of_inserted hins hall hid hsame)

theorem decompose_guarded {s s' : Session α} {q : Port} (hg : s.graph.Regular)
    (h : s.graph.WellGuarded lax) (hq : s.graph.port? ⟨id, 0⟩ = some q)
    (hreal : q.elementType.isLowPrecision = false) (hrun : exec (decompose id) s = .ok (.ok d, s')) :
    s'.graph.WellGuarded lax := by
  obtain ⟨n, _, _, _, _, _, _, hn, hop, -, -, hsource, hplace⟩ := decompose_steps hrun
  have hkind : n.kind = .fakeQuantize := congrArg Op.kind hop
  obtain ⟨rank, hrank⟩ := hg.acyclic
  refine place_guarded h hn hkind (hg.length_outputs hn (by rw [hkind]; decide)) (fun s hs => ?_) hq hreal
    hsource hplace
  rintro rfl
  exact Nat.lt_irrefl _ (below_of_input hrank hn hs)

end Decomposition

end LowPrecision
