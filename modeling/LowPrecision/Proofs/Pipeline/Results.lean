import LowPrecision.Proofs.Pipeline.Operands
import LowPrecision.Proofs.Rewrite.ShapedConcat

/-!
What results read after a run. In every slot it has the shape that it had before the run, and the type
that it had or type f32: the dequantizations that rules build are computed in f32.
-/

namespace LowPrecision

variable {α : Type} [Scalar α] {g₀ g g' : Graph α} {id : NodeId} {s s' : Session α} {rule : Rule}

open LowPrecision.Graph

namespace Rule

variable {m : NodeMatch}

def Misfits (rule : Rule) (g : Graph α) (id : NodeId) : Prop :=
  (rule = .fuseSubtract ∨ rule = .fuseMultiply) ∧ ¬ RangeFusion.Fits g id

theorem apply_retains (hg : s.graph.WellFormed) (hrule : rule ∈ Rule.cleanup)
    (hm : rule.pattern.matchAt s.graph id = some m)
    (hcan : rule.canApply s.context s.graph m = .ok true)
    (hrun : exec (rule.apply m) s = .ok (.ok true, s')) :
    s.graph.SameReads (fun o => o.node = id ∧ rule.Misfits s.graph id) s'.graph := by
  obtain ⟨n, hn, happlied⟩ := applied_of_apply hm hcan hrun
  cases happlied with
  | folded _ hcan hrun => exact (FoldConvert.retains hg hcan hrun).imp fun _ h => h.elim
  | absorbed hfuse _ hrun => exact (RangeFusion.retains hg hrun).imp fun _ h => ⟨h.1, hfuse, h.2⟩
  | decomposed h | fused h | joined h | sanitized h => exact absurd hrule (h ▸ by decide)
  | lowered h | moved h => exact absurd hrule (by rcases h with rfl | rfl <;> decide)

end Rule

namespace Pipeline

variable {s₁ : Session α} {settings : Settings}

def Tidies (s s' : Session α) : Prop := ∃ id, ∃ rule ∈ Rule.cleanup, Fires rule id s s'

abbrev Tidied (s s' : Session α) : Prop := Relation.ReflTransGen Tidies s s'

/-- On the way from one session to the other a range fusion takes arithmetic that the slot reads into a
fake-quantize of another shape. -/
def Misfused (s s' : Session α) (slot : Slot) : Prop :=
  ∃ t t' rule id index, Tidied s t ∧ Fires rule id t t' ∧ Tidied t' s' ∧
    rule.Misfits t.graph id ∧ t.graph.input? slot.node slot.index = some ⟨id, index⟩

theorem Misfused.tail {slot : Slot} (h : Misfused s₁ s slot) (hstep : Tidies s s') : Misfused s₁ s' slot := by
  obtain ⟨t, t', rule, id, index, hbefore, hfires, hafter, hrest⟩ := h
  exact ⟨t, t', rule, id, index, hbefore, hfires, hafter.tail hstep, hrest⟩

theorem Tidied.regular (h : Tidied s s') (hg : s.graph.Regular) : s'.graph.Regular := by
  induction h with
  | refl => exact hg
  | tail _ hstep ih =>
    obtain ⟨id, rule, -, hfires⟩ := hstep
    exact hfires.regular ih

theorem Tidied.retains (h : Tidied s s') (hg : s.graph.Regular) {v : NodeId} {i : Nat} {t : Slot}
    (hk : s'.graph.kind? v = some .result) (hi : s'.graph.input? v i = some t) :
    ∃ o p q, s.graph.kind? v = some .result ∧ s.graph.input? v i = some o ∧ s.graph.port? o = some p ∧
      s'.graph.port? t = some q ∧ q.elementType = p.elementType ∧
      (q.shape = p.shape ∨ Misfused s s' ⟨v, i⟩) := by
  induction h generalizing t with
  | refl =>
    obtain ⟨p, hp⟩ := hg.wellFormed.exists_port hi
    exact ⟨t, p, p, hk, hi, hp, hp, rfl, .inl rfl⟩
  | @tail s₁ s₂ htidied hstep ih =>
    obtain ⟨id, rule, hrule, hfires⟩ := hstep
    obtain ⟨m, hm, hcan, hrun⟩ := hfires
    have hg₁ := (Tidied.regular htidied hg).wellFormed
    obtain ⟨o₁, p₁, q, hk₁, hi₁, hp₁, hq, htype, hshape⟩ :=
      Rule.apply_retains hg₁ hrule hm hcan hrun v i t hk hi
    obtain ⟨o, p, q₁, hk₀, hi₀, hp, hq₁, htype₁, hshape₁⟩ := ih hk₁ hi₁
    cases hp₁.symm.trans hq₁
    refine ⟨o, p, q, hk₀, hi₀, hp, hq, htype.trans htype₁, ?_⟩
    rcases hshape with hshape | ⟨hnode, hmisfits⟩
    · rcases hshape₁ with hshape₁ | hmisfused
      · exact .inl (hshape.trans hshape₁)
      · exact .inr (hmisfused.tail ⟨id, rule, hrule, m, hm, hcan, hrun⟩)
    · subst hnode
      exact .inr ⟨s₁, s₂, rule, o₁.node, o₁.index, htidied, ⟨m, hm, hcan, hrun⟩, .refl, hmisfits, hi₁⟩

theorem Matched.regular {report : Report} (h : Matched settings g report s) (hg : g.Regular) :
    s.graph.Regular := by
  obtain ⟨s₁, hanalyses, hsweeps⟩ := h
  have h₁ := (stays_analyses settings ⟨g, .start settings.params⟩ _ s₁ (.refl hg) hanalyses).1
  exact (stays_sweeps _ _ s₁ _ s h₁ hsweeps).1.graph.regular

end Pipeline

end LowPrecision
