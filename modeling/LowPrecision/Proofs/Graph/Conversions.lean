import LowPrecision.Proofs.Graph.Evaluation
import LowPrecision.Proofs.Quantization.OutputRanges
import LowPrecision.Proofs.Quantization.WholeValues

namespace LowPrecision

namespace ElementType

def saturate (t : ElementType) (x : Rat) : Rat :=
  match t.integerBounds with
  | some (low, high) => max low (min high (x.num.tdiv x.den : Int))
  | none => x

variable {t : ElementType} {low high : Int} {x : Rat}

theorem represents_float (h : t.integerBounds = none) (x : Rat) : t.represents x = true := by
  rw [represents, integerRange, h]
  rfl

theorem bounds_ordered (h : t.integerBounds = some (low, high)) : low ≤ high := by
  cases t <;> cases h <;> decide

theorem represents_saturate (t : ElementType) (x : Rat) : t.represents (t.saturate x) = true := by
  cases h : t.integerBounds with
  | none => exact represents_float h _
  | some bounds =>
    obtain ⟨low, high⟩ := bounds
    have hwhole : t.saturate x = ((max low (min high (x.num.tdiv x.den)) : Int) : Rat) := by
      simp [saturate, h]
    rw [represents_iff h, hwhole]
    refine ⟨⟨_, rfl⟩, ?_, ?_⟩
    · exact_mod_cast le_max_left ..
    · exact_mod_cast max_le (bounds_ordered h) (min_le_left ..)

theorem saturate_of_represents (h : t.represents x = true) : t.saturate x = x := by
  cases hbounds : t.integerBounds with
  | none => simp [saturate, hbounds]
  | some bounds =>
    obtain ⟨low, high⟩ := bounds
    obtain ⟨⟨k, rfl⟩, hlow, hhigh⟩ := (represents_iff hbounds).mp h
    simp [saturate, hbounds, hlow, hhigh]

end ElementType

namespace Tensor

variable {t : Tensor Rat} {P : Rat → Prop}

theorem get_of_inside {i : Index} (hi : i.Inside t.shape) :
    t.values.get i = (t.data[place t.shape i]?).getD 0 := Values.get_of hi

theorem forall_get_iff (hfilled : t.Filled) :
    (∀ i : Index, i.Inside t.shape → P (t.values.get i)) ↔ ∀ x ∈ t.data, P x := by
  constructor
  · intro h x hx
    obtain ⟨k, hk, rfl⟩ := List.getElem_of_mem hx
    obtain ⟨i, hi, hplace⟩ := exists_index (hfilled ▸ hk : k < t.shape.prod)
    have hget := h i hi
    rwa [get_of_inside hi, hplace, List.getElem?_eq_getElem hk] at hget
  · intro h i hi
    have hlt : place t.shape i < t.data.length := by
      rw [← size, hfilled]
      exact place_lt hi
    rw [get_of_inside hi, List.getElem?_eq_getElem hlt]
    exact h _ (List.getElem_mem hlt)

end Tensor

namespace Values

def map (f : Rat → Rat) (x : Values) : Values := of x.shape fun i => f (x.get i)

theorem map_eq_self_iff {f : Rat → Rat} {x : Values} :
    x.map f = x ↔ ∀ i, i.Inside x.shape → f (x.get i) = x.get i := by
  rw [← of_inj, x.of_get]
  rfl

end Values

def Graph.ExactAt (g : Graph Rat) (s : Slot) (x : Values) : Prop :=
  ∀ f type, g.face? s.node = some f → f.op = .convert type →
    ∀ i, i.Inside x.shape → type.represents (x.get i) = true

/-- What each node computes when a conversion gives numbers of its type, and keeps those that it has. -/
structure TypedInterpretation where
  run : Run
  store : ElementType → Rat → Rat
  stored (type : ElementType) (x : Rat) : type.represents (store type x) = true
  exact (type : ElementType) (x : Rat) : type.represents x = true → store type x = x
  constant (id : NodeId) (t : Tensor Rat) (xs : List (Option Values)) :
    run id (.constant t) xs 0 = some t.values
  convert (id : NodeId) (type : ElementType) (x : Option Values) (xs : List (Option Values)) :
    run id (.convert type) (x :: xs) 0 = x.map (Values.map (store type))
  subtract (id : NodeId) (x y : Option Values) (xs : List (Option Values)) :
    run id .subtract (x :: y :: xs) 0 = x.bind fun x => y.bind fun y => x.zip (· - ·) y
  multiply (id : NodeId) (x y : Option Values) (xs : List (Option Values)) :
    run id .multiply (x :: y :: xs) 0 = x.bind fun x => y.bind fun y => x.zip (· * ·) y
  fakeQuantize (id : NodeId) (levels : Nat) (data inLow inHigh outLow outHigh : Option Values)
    (xs : List (Option Values)) :
    run id (.fakeQuantize levels) (data :: inLow :: inHigh :: outLow :: outHigh :: xs) 0 =
      data.bind fun data => inLow.bind fun inLow => inHigh.bind fun inHigh =>
        outLow.bind fun outLow => outHigh.bind fun outHigh =>
          data.quantize levels inLow inHigh outLow outHigh

namespace TypedInterpretation

def extend (others : Op Rat → List (Option Values) → Option Values) : TypedInterpretation where
  run _ op xs _ :=
    match op, xs with
    | .constant t, _ => some t.values
    | .convert type, x :: _ => x.map (Values.map type.saturate)
    | .subtract, x :: y :: _ => x.bind fun x => y.bind fun y => x.zip (· - ·) y
    | .multiply, x :: y :: _ => x.bind fun x => y.bind fun y => x.zip (· * ·) y
    | .fakeQuantize levels, data :: inLow :: inHigh :: outLow :: outHigh :: _ =>
      data.bind fun data => inLow.bind fun inLow => inHigh.bind fun inHigh =>
        outLow.bind fun outLow => outHigh.bind fun outHigh =>
          data.quantize levels inLow inHigh outLow outHigh
    | op, xs => others op xs
  store := ElementType.saturate
  stored := ElementType.represents_saturate
  exact _ _ := ElementType.saturate_of_represents
  constant _ _ _ := rfl
  convert _ _ _ _ := rfl
  subtract _ _ _ _ := rfl
  multiply _ _ _ _ := rfl
  fakeQuantize _ _ _ _ _ _ _ _ := rfl

open LowPrecision.Graph

variable {I : TypedInterpretation} {g : Graph Rat} {v : Slot → Option Values} {s source : Slot}
  {t : Tensor Rat} {x : Values} {type : ElementType} {f : Face Rat}

theorem map_store_eq_self_iff : x.map (I.store type) = x ↔
    ∀ i, i.Inside x.shape → type.represents (x.get i) = true := by
  rw [Values.map_eq_self_iff]
  refine forall₂_congr fun i _ => ⟨fun h => ?_, I.exact type _⟩
  rw [← h]
  exact I.stored type _

theorem value_constant (hv : g.Evaluates I.run v) (hg : g.Regular) (hs : (g.port? s).isSome)
    (ht : g.constant? s = some t) : v s = some t.values := by
  obtain ⟨f, hf, hop⟩ := constant?_eq_some.mp ht
  have hindex := index_eq_zero hg hf (by rw [Face.kind, hop, Op.kind]; decide) hs
  rw [hv.eq_run hf, hop, hindex, I.constant]

theorem value_convert (hv : g.Evaluates I.run v) (hg : g.Regular) (hs : (g.port? s).isSome)
    (hf : g.face? s.node = some f) (hop : f.op = .convert type) (hsource : f.inputs[0]? = some source) :
    v s = (v source).map (Values.map (I.store type)) := by
  have hindex := index_eq_zero hg hf (by rw [Face.kind, hop, Op.kind]; decide) hs
  obtain ⟨rest, hin⟩ := exists_cons_of_first hsource
  rw [hv.eq_run hf, hop, hindex, hin, List.map_cons, I.convert]

theorem value_constantValue_iff (hv : g.Evaluates I.run v) (hg : g.Regular) (hs : (g.port? s).isSome)
    (ht : g.constantValue? s = some t) : v s = some t.values ↔ g.ExactAt s t.values := by
  rcases constantValue?_eq_some.mp ht with hconstant | ⟨f, type, source, hf, hop, hsource, hconstant⟩
  · refine iff_of_true (value_constant hv hg hs hconstant) fun f type hf hop => ?_
    obtain ⟨k, hk, hkop⟩ := constant?_eq_some.mp hconstant
    cases hf.symm.trans hk
    rw [hkop] at hop
    cases hop
  · obtain ⟨p, hp⟩ := hg.wellFormed.exists_port (v := s.node) (i := 0) (s := source) (by
      rw [input?_eq_face, hf]; exact hsource)
    rw [value_convert hv hg hs hf hop hsource, value_constant hv hg (by rw [hp]; rfl) hconstant,
      Option.map_some, Option.some.injEq, map_store_eq_self_iff]
    refine ⟨fun h k type' hk hkop => ?_, fun h => h f type hf hop⟩
    cases hf.symm.trans hk
    cases hop.symm.trans hkop
    exact h

end TypedInterpretation

end LowPrecision
