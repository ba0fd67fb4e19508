import LowPrecision.Proofs.Graph.Reworked
import LowPrecision.Rewrite.Basic

namespace LowPrecision

variable {α ε β γ : Type} {g g' : Graph α}

theorem Edit.exec_attempt (f : Graph α → Attempt ε β) (g : Graph α) :
    exec (Edit.attempt f) g = (f g).run.map fun r => (r, g) := by
  rw [attempt, exec_bind_ok (exec_getThe g), exec_bind]
  rcases (f g).run with fault | e | b <;> rfl

theorem Edit.exec_attempt_ok {f : Graph α → Attempt ε β} {b : β} (h : (f g).run = .ok (.ok b)) :
    exec (Edit.attempt f) g = .ok (.ok b, g) := by
  rw [exec_attempt, h]
  rfl

theorem Edit.exec_attempt_eq_ok {f : Graph α → Attempt ε β} {b : β} :
    exec (Edit.attempt f) g = .ok (.ok b, g') ↔ (f g).run = .ok (.ok b) ∧ g' = g := by
  rw [exec_attempt]
  rcases (f g).run with fault | e | c
  · simp [Except.map]
  · simp [Except.map]
  · simp [Except.map, eq_comm]

theorem Edit.silent_attempt (f : Graph α → Attempt ε β) : Silent (Edit.attempt f) := by
  intro g r g' h
  rw [exec_attempt] at h
  cases hf : (f g).run with
  | error fault =>
    rw [hf] at h
    cases h
  | ok answer =>
    rw [hf] at h
    cases h
    rfl

theorem Edit.silent_ofExcept (f : Graph α → Except ε β) : Silent (Edit.ofExcept f) := by
  intro g r g' h
  rw [exec_ofExcept] at h
  cases h
  rfl

theorem Context.handled_markHandled (c : Context) (name : String) :
    (c.markHandled name).handled = if name ∈ c.handled then c.handled else name :: c.handled := by
  by_cases h : name ∈ c.handled <;> simp [markHandled, isHandled, h]

theorem Edit.silent_node (id : NodeId) : Silent (Edit.node id : Edit α TransformError (Node α)) := by
  intro g r g' h
  rw [Edit.node, Edit.ofGraph, exec_adapt, exec_ofExcept] at h
  cases h
  rfl

theorem Edit.exec_node_eq_ok {id : NodeId} {n : Node α} :
    exec (Edit.node id) g = .ok (.ok n, g') ↔ g.node? id = some n ∧ g' = g := by
  rw [Edit.node, Edit.ofGraph, exec_adapt_eq_ok, Graph.exec_ofExcept_node_eq_ok]

theorem Edit.silent_port (s : Slot) : Silent (Edit.port s : Edit α TransformError Port) := by
  intro g r g' h
  rw [Edit.port, Edit.ofGraph, exec_adapt, exec_ofExcept] at h
  cases h
  rfl

namespace Rewrite

theorem exec_edit (e : Edit α TransformError β) (s : Session α) :
    exec (edit e) s = (exec e s.graph).map fun out => (out.1, { s with graph := out.2 }) := by
  rw [edit, exec]
  simp only [ExceptT.run_mk, StateT.run_bind, StateT.run_get, StateT.run_set, StateT.run_pure, exec,
    pure_bind]
  cases e.run.run s.graph <;> rfl

theorem exec_edit_eq {e : Edit α TransformError β} {s s' : Session α}
    {r : Except TransformError β} :
    exec (edit e) s = .ok (r, s') ↔
      exec e s.graph = .ok (r, s'.graph) ∧ s'.context = s.context := by
  rw [exec_edit]
  cases exec e s.graph with
  | error fault => simp [Except.map]
  | ok out =>
    obtain ⟨r', g'⟩ := out
    cases s'
    simp only [Except.map, Except.ok.injEq, Prod.mk.injEq, Session.mk.injEq]
    constructor
    · rintro ⟨rfl, rfl, rfl⟩
      exact ⟨⟨rfl, rfl⟩, rfl⟩
    · rintro ⟨⟨rfl, rfl⟩, rfl⟩
      exact ⟨rfl, rfl, rfl⟩

theorem silent_edit {e : Edit α TransformError β} (h : Silent e) : Silent (edit e) := by
  intro s r s' hrun
  obtain ⟨hgraph, hcontext⟩ := exec_edit_eq.mp hrun
  obtain ⟨g, c⟩ := s
  obtain ⟨g', c'⟩ := s'
  obtain rfl := h g r g' hgraph
  obtain rfl := hcontext
  rfl

theorem exec_edit_ofExcept_eq_ok {f : Graph α → Except TransformError β} {s s' : Session α} {b : β} :
    exec (edit (Edit.ofExcept f)) s = .ok (.ok b, s') ↔ f s.graph = .ok b ∧ s' = s := by
  rw [exec_edit, Edit.exec_ofExcept]
  simp [Except.map, eq_comm (a := s)]

theorem exec_edit_attempt_eq_ok {f : Graph α → Attempt TransformError β} {s s' : Session α} {b : β} :
    exec (edit (Edit.attempt f)) s = .ok (.ok b, s') ↔
      (f s.graph).run = .ok (.ok b) ∧ s' = s := by
  rw [exec_edit, Edit.exec_attempt]
  rcases (f s.graph).run with fault | e | c <;> simp [Except.map, eq_comm (a := s)]

theorem exec_changeContext (f : Context → Context) (s : Session α) :
    exec (changeContext f) s = .ok (.ok (), { s with context := f s.context }) := rfl

theorem exec_graph (s : Session α) : exec graph s = .ok (.ok s.graph, s) := rfl

theorem exec_context (s : Session α) : exec context s = .ok (.ok s.context, s) := rfl

end Rewrite

namespace Dequantization

variable {rank : NodeId → Nat} {output current : Slot} {m : Option (NodeId × Tensor α)}
  {c : Option NodeId}

theorem input_below (hr : g.Ranked rank) {n : Node α} (hn : g.node? output.node = some n) {i : Nat}
    (hi : n.input? i = some current) : rank current.node < rank output.node :=
  hr _ i current (by rw [Graph.input?, hn]; exact hi)

theorem readMultiply_cases (h : readMultiply g output = some (m, current)) :
    m = none ∧ current = output ∨ ∃ n a b scale, g.node? output.node = some n ∧ n.kind = .multiply ∧
      n.input? 0 = some a ∧ n.input? 1 = some b ∧ m = some (output.node, scale) ∧
        (g.constant? b = some scale ∧ current = a ∨
          g.constant? b = none ∧ g.constant? a = some scale ∧ current = b) := by
  rw [readMultiply] at h
  split at h
  · next n hn =>
    split at h
    · next hkind =>
      obtain ⟨a, ha, h⟩ := Option.bind_eq_some_iff.mp h
      obtain ⟨b, hb, h⟩ := Option.bind_eq_some_iff.mp h
      split at h <;> cases h
      · exact .inr ⟨n, _, b, _, hn, hkind, ha, hb, rfl, .inl ⟨‹_›, rfl⟩⟩
      · exact .inr ⟨n, a, _, _, hn, hkind, ha, hb, rfl, .inr ⟨‹_›, ‹_›, rfl⟩⟩
      · exact .inl ⟨rfl, rfl⟩
    · cases h
      exact .inl ⟨rfl, rfl⟩
  · cases h
    exact .inl ⟨rfl, rfl⟩

theorem readSubtract_cases (h : readSubtract g output = some (m, current)) :
    m = none ∧ current = output ∨ ∃ n b zeroPoint, g.node? output.node = some n ∧ n.kind = .subtract ∧
      n.input? 0 = some current ∧ n.input? 1 = some b ∧ m = some (output.node, zeroPoint) ∧
        g.constantValue? b = some zeroPoint := by
  rw [readSubtract] at h
  split at h
  · next n hn =>
    split at h
    · next hkind =>
      obtain ⟨a, ha, h⟩ := Option.bind_eq_some_iff.mp h
      obtain ⟨b, hb, h⟩ := Option.bind_eq_some_iff.mp h
      split at h <;> cases h
      · exact .inr ⟨n, b, _, hn, hkind, ha, hb, rfl, ‹_›⟩
      · exact .inl ⟨rfl, rfl⟩
    · cases h
      exact .inl ⟨rfl, rfl⟩
  · cases h
    exact .inl ⟨rfl, rfl⟩

theorem readConvert_cases (h : readConvert g output = some (c, current)) :
    c = none ∧ current = output ∨ ∃ n type, g.node? output.node = some n ∧ n.op = .convert type ∧
      n.input? 0 = some current ∧ c = some output.node := by
  rw [readConvert] at h
  split at h
  · next n hn =>
    split at h
    · next type hop =>
      split at h
      · obtain ⟨a, ha, h⟩ := Option.map_eq_some_iff.mp h
        cases h
        exact .inr ⟨n, type, hn, hop, ha, rfl⟩
      · cases h
        exact .inl ⟨rfl, rfl⟩
    · cases h
      exact .inl ⟨rfl, rfl⟩
  · cases h
    exact .inl ⟨rfl, rfl⟩

theorem readMultiply_below (hr : g.Ranked rank) (h : readMultiply g output = some (m, current)) :
    m = none ∧ current = output ∨ m.isSome = true ∧ rank current.node < rank output.node := by
  refine (readMultiply_cases h).imp_right ?_
  rintro ⟨n, a, b, scale, hn, -, ha, hb, rfl, ⟨-, rfl⟩ | ⟨-, -, rfl⟩⟩
  · exact ⟨rfl, input_below hr hn ha⟩
  · exact ⟨rfl, input_below hr hn hb⟩

theorem readSubtract_below (hr : g.Ranked rank) (h : readSubtract g output = some (m, current)) :
    m = none ∧ current = output ∨ m.isSome = true ∧ rank current.node < rank output.node := by
  refine (readSubtract_cases h).imp_right ?_
  rintro ⟨n, b, zeroPoint, hn, -, ha, -, rfl, -⟩
  exact ⟨rfl, input_below hr hn ha⟩

theorem readConvert_below (hr : g.Ranked rank) (h : readConvert g output = some (c, current)) :
    c = none ∧ current = output ∨ c.isSome = true ∧ rank current.node < rank output.node := by
  refine (readConvert_cases h).imp_right ?_
  rintro ⟨n, type, hn, -, ha, rfl⟩
  exact ⟨rfl, input_below hr hn ha⟩

theorem ofOutput_eq_some {d : Dequantization α} (h : ofOutput g output = some d) :
    ∃ scaled shifted p, readMultiply g output = some (d.multiply, scaled) ∧
      readSubtract g scaled = some (d.subtract, shifted) ∧
      readConvert g shifted = some (d.convert, d.data) ∧ g.port? d.data = some p ∧
      (d.convert.isSome = true ∧ p.elementType.isLowPrecision = true ∨
        d.convert = none ∧ (d.multiply.isSome = true ∨ d.subtract.isSome = true) ∧
          (p.elementType.isLowPrecision = true ∨ g.isQuantizedDomain d.data.node = true)) := by
  rw [ofOutput] at h
  obtain ⟨⟨multiply, scaled⟩, hm, h⟩ := Option.bind_eq_some_iff.mp h
  obtain ⟨⟨subtract, shifted⟩, hs, h⟩ := Option.bind_eq_some_iff.mp h
  obtain ⟨⟨convert, data⟩, hc, h⟩ := Option.bind_eq_some_iff.mp h
  obtain ⟨p, hp, h⟩ := Option.bind_eq_some_iff.mp h
  dsimp only at hs hc hp h
  rw [Option.ite_none_right_eq_some, Option.some.injEq] at h
  obtain ⟨hquantized, rfl⟩ := h
  refine ⟨scaled, shifted, p, hm, hs, hc, hp, ?_⟩
  cases convert with
  | some id => exact .inl ⟨rfl, hquantized⟩
  | none =>
    simp only [Bool.and_eq_true, Bool.or_eq_true] at hquantized
    exact .inr ⟨rfl, hquantized⟩

theorem quantized_of_ofInput {d : Dequantization α} {id : NodeId} {index : Nat}
    (h : ofInput g id index = some d) : ∃ p, g.port? d.data = some p ∧
      (p.elementType.isLowPrecision = true ∨ g.isQuantizedDomain d.data.node = true) := by
  obtain ⟨output, -, h⟩ := Option.bind_eq_some_iff.mp h
  obtain ⟨_, _, p, -, -, -, hp, hquantized⟩ := ofOutput_eq_some h
  exact ⟨p, hp, hquantized.elim (fun h => .inl h.2) fun h => h.2.2⟩

theorem ofOutput_below (hr : g.Ranked rank) {d : Dequantization α}
    (h : ofOutput g output = some d) :
    rank d.data.node < rank output.node ∧ ∃ p, g.port? d.data = some p := by
  obtain ⟨scaled, shifted, p, hm, hs, hc, hp, hquantized⟩ := ofOutput_eq_some h
  refine ⟨?_, p, hp⟩
  rcases readMultiply_below hr hm with ⟨hmultiply, rfl⟩ | ⟨-, hlt⟩ <;>
    rcases readSubtract_below hr hs with ⟨hsubtract, rfl⟩ | ⟨-, hlt'⟩ <;>
      rcases readConvert_below hr hc with ⟨hconvert, hdata⟩ | ⟨-, hlt''⟩
  · simp [hmultiply, hsubtract, hconvert] at hquantized
  all_goals
    try rw [hdata]
    omega

theorem ofInput_below (hr : g.Ranked rank) {d : Dequantization α} {id : NodeId} {index : Nat}
    (h : ofInput g id index = some d) :
    ∃ output, g.input? id index = some output ∧ rank d.data.node < rank output.node ∧
      rank output.node < rank id ∧ ∃ p, g.port? d.data = some p := by
  obtain ⟨output, hi, h⟩ := Option.bind_eq_some_iff.mp h
  obtain ⟨hlt, hport⟩ := ofOutput_below hr h
  exact ⟨output, hi, hlt, hr id index output hi, hport⟩

end Dequantization

section FakeQuantize

structure Doubled (g g' : Graph α) (levels : Nat) (data low high : Slot) (port : Port)
    (outLow outHigh : Tensor α) : Prop extends
    Graph.Extends g g' (fun s => s = data ∨ s = low ∨ s = high) where
  count : g'.nodes.size = g.nodes.size + 3
  lowBound : g'.face? g.nodes.size = some ⟨.constant outLow, [], [⟨.f32, some outLow.shape⟩], none⟩
  highBound : g'.face? (g.nodes.size + 1) =
    some ⟨.constant outHigh, [], [⟨.f32, some outHigh.shape⟩], none⟩
  fakeQuantize : g'.face? (g.nodes.size + 2) = some ⟨.fakeQuantize levels,
    [data, low, high, ⟨g.nodes.size, 0⟩, ⟨g.nodes.size + 1, 0⟩], [port], none⟩

variable {id : NodeId} {n : Node α} {levels : Nat} {data low high : Slot} {rest : List Slot}
  {p : Port}

theorem Doubled.new_face {outLow outHigh : Tensor α}
    (h : Doubled g g' levels data low high p outLow outHigh) {v : NodeId} {f : Face α}
    (hv : g.nodes.size ≤ v) (hf : g'.face? v = some f) :
    (∃ value, f = ⟨.constant value, [], [⟨.f32, some value.shape⟩], none⟩) ∨
      v = g.nodes.size + 2 ∧ f = ⟨.fakeQuantize levels,
        [data, low, high, ⟨g.nodes.size, 0⟩, ⟨g.nodes.size + 1, 0⟩], [p], none⟩ := by
  obtain ⟨k, rfl⟩ := Nat.exists_eq_add_of_le hv
  have hk : k < 3 := Nat.add_lt_add_iff_left.mp (h.count ▸ Graph.lt_size_of_face? hf)
  obtain rfl | rfl | rfl : k = 0 ∨ k = 1 ∨ k = 2 := by omega
  · exact .inl ⟨outLow, Option.some.inj (hf.symm.trans h.lowBound)⟩
  · exact .inl ⟨outHigh, Option.some.inj (hf.symm.trans h.highBound)⟩
  · exact .inr ⟨rfl, Option.some.inj (hf.symm.trans h.fakeQuantize)⟩

theorem Doubled.fresh {outLow outHigh : Tensor α}
    (h : Doubled g g' levels data low high p outLow outHigh) {v : NodeId} {f : Face α}
    (hv : g.nodes.size ≤ v) (hf : g'.face? v = some f) :
    (Graph.IsStep f.kind ∨ v = g.nodes.size + 2 ∧ f.kind = .fakeQuantize) ∧ f.ports.length = 1 := by
  rcases h.new_face hv hf with ⟨value, rfl⟩ | ⟨hlast, rfl⟩
  · exact ⟨.inl (.inl rfl), rfl⟩
  · exact ⟨.inr ⟨hlast, rfl⟩, rfl⟩

theorem Node.exists_ranges {n : Node α} (h : 3 ≤ n.inputs.length) :
    ∃ data low high rest, n.inputs = data :: low :: high :: rest := by
  match hinputs : n.inputs with
  | [] | [_] | [_, _] => simp [hinputs] at h
  | data :: low :: high :: rest => exact ⟨data, low, high, rest, rfl⟩

theorem addFakeQuantize_ok (h : g.WellFormed) (hn : g.node? id = some n)
    (hop : n.op = .fakeQuantize levels) (hin : n.inputs = data :: low :: high :: rest)
    (hp : g.port? ⟨id, 0⟩ = some p) (outLow outHigh : Tensor α) (type : ElementType) :
    ∃ g', exec (addFakeQuantize id outLow outHigh type) g = .ok (.ok (g.nodes.size + 2), g') ∧
      Doubled g g' levels data low high (p.withType type) outLow outHigh := by
  have hread : ∀ s ∈ n.inputs, (g.port? s).isSome := by
    intro s hs
    obtain ⟨i, hi⟩ := List.getElem?_of_mem hs
    rw [← Graph.wire?_isSome_eq_port]
    exact h.wire_of_input (Graph.input?_eq_some.mpr ⟨n, hn, hi⟩)
  obtain ⟨data', hdata⟩ := Option.isSome_iff_exists.mp (hread data (by simp [hin]))
  obtain ⟨low', hlow⟩ := Option.isSome_iff_exists.mp (hread low (by simp [hin]))
  obtain ⟨high', hhigh⟩ := Option.isSome_iff_exists.mp (hread high (by simp [hin]))
  obtain ⟨g₁, hexec₁, h₁⟩ := Edit.addConstant_ok h s!"{n.name}/OutputLow" outLow .f32
  obtain ⟨g₂, hexec₂, h₂⟩ :=
    Edit.addConstant_ok h₁.wellFormed s!"{n.name}/OutputHigh" outHigh .f32
  have hnewLow : g₂.face? g.nodes.size = _ := h₂.old h₁.new
  have hnewHigh : g₂.face? (g.nodes.size + 1) = _ := h₁.size ▸ h₂.new
  have hin₂ : ∀ s ∈ [data, low, high, ⟨g.nodes.size, 0⟩, ⟨g.nodes.size + 1, 0⟩],
      (g₂.port? s).isSome := by
    simp [h₂.port (h₁.port hdata), h₂.port (h₁.port hlow), h₂.port (h₁.port hhigh),
      Graph.port?_new hnewLow, Graph.port?_new hnewHigh]
  obtain ⟨g₃, hexec₃, h₃⟩ := Edit.addNode_ok h₂.wellFormed s!"{n.name}/LowPrecision"
    (.fakeQuantize levels) _ [p.withType type] hin₂
  have hsize₂ : g₂.nodes.size = g.nodes.size + 2 := by rw [h₂.size, h₁.size]
  refine ⟨g₃, ?_, ?_, ?_, h₃.old hnewLow, h₃.old hnewHigh, ?_⟩
  · rw [addFakeQuantize, exec_bind_ok (Edit.exec_node hn)]
    simp only [hop, hin]
    rw [exec_bind_ok (Edit.exec_port hp), exec_bind_ok hexec₁, exec_bind_ok hexec₂]
    rw [h₁.size, hexec₃, hsize₂]
  · have hmid := (h₁.extends (p := fun s => s = data ∨ s = low ∨ s = high) (by simp)
      (by simp)).trans (h₂.extends (by simp) (by simp)) fun _ _ h => h
    refine hmid.trans (h₃.extends (p := fun s =>
      (s = data ∨ s = low ∨ s = high) ∨ g.nodes.size ≤ s.node) (by simp) hin₂) ?_
    rintro s hv (hread | hnew)
    · exact hread
    · exact absurd hv (Nat.not_lt.mpr hnew)
  · rw [h₃.size, hsize₂]
  · rw [← hsize₂]
    exact h₃.new

theorem addFakeQuantize_cases {r : Except TransformError NodeId} {outLow outHigh : Tensor α}
    {type : ElementType} (h : g.WellFormed) (hn : g.node? id = some n)
    (hrun : exec (addFakeQuantize id outLow outHigh type) g = .ok (r, g')) :
    (∃ e, r = .error e ∧ g' = g) ∨ ∃ levels data low high rest p,
      n.op = .fakeQuantize levels ∧ n.inputs = data :: low :: high :: rest ∧
      g.port? ⟨id, 0⟩ = some p ∧ r = .ok (g.nodes.size + 2) ∧
      Doubled g g' levels data low high (p.withType type) outLow outHigh := by
  have hcopied := hrun
  rw [addFakeQuantize, exec_bind_ok (Edit.exec_node hn)] at hrun
  split at hrun
  · next levels hop =>
    split at hrun
    · next data low high rest hin =>
      cases hp : g.port? ⟨id, 0⟩ with
      | none =>
        rcases exec_bind_eq_ok.mp hrun with ⟨p, t, hport, -⟩ | ⟨e, he, rfl⟩
        · have hfound := exec_adapt_eq_ok.mp hport
          rw [Edit.exec_ofExcept] at hfound
          rw [Graph.port?] at hp
          cases hq : g.port ⟨id, 0⟩ with
          | error e =>
            rw [hq] at hfound
            cases hfound
          | ok q =>
            rw [hq] at hp
            cases hp
        · exact .inl ⟨e, rfl, Edit.silent_port _ _ _ _ he⟩
      | some p =>
        obtain ⟨g₁, hexec, hdoubled⟩ := addFakeQuantize_ok h hn hop hin hp outLow outHigh type
        rw [hexec] at hcopied
        cases hcopied
        exact .inr ⟨levels, data, low, high, rest, p, hop, hin, rfl, rfl, hdoubled⟩
    · cases hrun
  · cases hrun
    exact .inl ⟨_, rfl, rfl⟩

end FakeQuantize

end LowPrecision
