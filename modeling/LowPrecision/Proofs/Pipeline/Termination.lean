import Mathlib.Logic.Relation
import LowPrecision.Proofs.Pipeline.Descent
import LowPrecision.Proofs.Pipeline.Interface
import LowPrecision.Proofs.Pipeline.SweepBound

namespace LowPrecision

variable {α : Type}

def Session.state (s : Session α) : Graph α × List String := (s.graph, s.context.handled)

namespace Pipeline

section Steps

variable [Scalar α] {id : NodeId} {rule : Rule} {s s' : Session α} {t t' : Graph α × List String}

def Next (t' t : Graph α × List String) : Prop :=
  ∃ id rule, ∃ s s' : Session α, rule ∉ Rule.cleanup ∧ s.state = t ∧ s'.state = t' ∧
    exec (applyRule id rule) s = .ok (.ok true, s')

theorem forKind_not_cleanup (kind : OpKind) : ∀ rule ∈ Rule.forKind kind, rule ∉ Rule.cleanup := by
  cases kind <;> decide

structure Advance (count count' : Nat) (s s' : Session α) : Prop where
  regular : s'.graph.Regular
  steps : count' = count ∧ s'.state = s.state ∨
    count < count' ∧ Relation.TransGen (Function.swap Next) s.state s'.state

namespace Advance

theorem refl {count : Nat} (hg : s.graph.Regular) : Advance count count s s := ⟨hg, .inl ⟨rfl, rfl⟩⟩

theorem trans {n₁ n₂ n₃ : Nat} {s₁ s₂ s₃ : Session α} (h : Advance n₁ n₂ s₁ s₂)
    (h' : Advance n₂ n₃ s₂ s₃) : Advance n₁ n₃ s₁ s₃ := by
  refine ⟨h'.regular, ?_⟩
  rcases h.steps with ⟨rfl, hsame⟩ | ⟨hlt, hsteps⟩
  · exact hsame ▸ h'.steps
  · rcases h'.steps with ⟨rfl, hsame⟩ | ⟨hlt', hsteps'⟩
    · exact .inr ⟨hlt, hsame ▸ hsteps⟩
    · exact .inr ⟨Nat.lt_trans hlt hlt', hsteps.trans hsteps'⟩

end Advance

def Settles : Nat → Session α → Prop
  | 0, _ => False
  | count + 1, s =>
    ∀ rewrites s', exec (sweep Rule.forKind) s = .ok (.ok rewrites, s') →
      rewrites = 0 ∨ Settles count s'

theorem Settles.bounded {count : Nat} (bound : Nat) (h : Settles count s) :
    Settles count (s.bounded bound) := by
  induction count generalizing s bound with
  | zero => exact h.elim
  | succ count ih =>
    intro rewrites s' hrun
    have hrun' := blind_sweep _ s.context.params.maxSweeps _ _ _ hrun
    rcases h rewrites _ hrun' with hzero | hrest
    · exact .inl hzero
    · have hback := ih s'.context.params.maxSweeps hrest
      exact .inr hback

end Steps

section Runs

variable [Scalar α]

end Runs

def chained : Graph Binary32 :=
  Graph.assemble [("x", .parameter, [], [⟨.f32, some [1, 3]⟩]),
    ("low", .constant (Tensor.scalar (Arithmetic.ofRat 0)), [], [⟨.f32, some []⟩]),
    ("high", .constant (Tensor.scalar (Arithmetic.ofRat (51 / 20))), [], [⟨.f32, some []⟩]),
    ("first", .fakeQuantize 256, [⟨0, 0⟩, ⟨1, 0⟩, ⟨2, 0⟩, ⟨1, 0⟩, ⟨2, 0⟩], [⟨.f32, some [1, 3]⟩]),
    ("pool", .maxPool, [⟨3, 0⟩], [⟨.f32, some [1, 3]⟩]),
    ("second", .fakeQuantize 256, [⟨4, 0⟩, ⟨1, 0⟩, ⟨2, 0⟩, ⟨1, 0⟩, ⟨2, 0⟩], [⟨.f32, some [1, 3]⟩]),
    ("y", .result, [⟨5, 0⟩], [])]

end Pipeline

end LowPrecision
