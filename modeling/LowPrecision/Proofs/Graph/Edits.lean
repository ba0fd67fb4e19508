import LowPrecision.Graph.Rewiring
import LowPrecision.Proofs.Runs
import LowPrecision.Proofs.Graph.Steps

namespace LowPrecision

variable {α ε β γ : Type}

namespace Edit

@[simp] theorem exec_read (f : Graph α → β) (g : Graph α) :
    exec (read f : Edit α ε β) g = .ok (.ok (f g), g) := rfl

theorem exec_ofExcept (f : Graph α → Except ε β) (g : Graph α) :
    exec (ofExcept f) g = .ok (f g, g) := by
  rw [ofExcept, exec_bind_ok (exec_getThe g)]
  cases f g <;> rfl

@[simp] theorem exec_answer (f : Graph α → Except ε β × Graph α) (g : Graph α) :
    exec (answer f) g = .ok (f g) := rfl

@[simp] theorem exec_step (f : Graph α → Except ε Unit × Graph α) (g : Graph α) :
    exec (step f) g = .ok (f g) := rfl

@[simp] theorem exec_change (f : Graph α → Graph α) (g : Graph α) :
    exec (change f : Edit α ε Unit) g = .ok (.ok (), f g) := rfl

variable {p : Graph α → Prop}

theorem keeps_read (f : Graph α → β) : Keeps p (read f : Edit α ε β) :=
  fun g h => ⟨.ok (f g), g, rfl, h⟩

theorem keeps_ofExcept (f : Graph α → Except ε β) : Keeps p (ofExcept f) :=
  fun g h => ⟨f g, g, exec_ofExcept f g, h⟩

theorem keeps_answer {f : Graph α → Except ε β × Graph α} (h : ∀ g, p g → p (f g).2) :
    Keeps p (answer f) :=
  fun g hg => ⟨(f g).1, (f g).2, rfl, h g hg⟩

theorem keeps_change {f : Graph α → Graph α} (h : ∀ g, p g → p (f g)) :
    Keeps p (change f : Edit α ε Unit) :=
  fun g hg => ⟨.ok (), f g, rfl, h g hg⟩

end Edit

namespace Graph

def Follows (g₀ g : Graph α) : Prop := g.WellFormed ∧ Later g₀ g

theorem Sound.follows {g₀ g : Graph α} {outcome : Outcome α β} (hs : Sound g outcome)
    (h : Follows g₀ g) : Follows g₀ outcome.2 :=
  ⟨hs.wellFormed, h.2.trans hs.later⟩

theorem follows_removeDead {g₀ : Graph α} (g : Graph α) (stack : List NodeId)
    (h : Follows g₀ g) : Follows g₀ (g.removeDead stack) := by
  fun_induction removeDead g stack with
  | case1 => exact h
  | case2 g id rest hn ih => exact ih h
  | case3 g id rest n hn hdead ih =>
    apply ih
    have hc : n.readerCount = 0 := by
      simp only [Node.isDead, Bool.and_eq_true, beq_iff_eq] at hdead
      exact hdead.2
    exact ⟨h.1.detach hn hc, h.2.trans (.detach ..)⟩
  | case4 g id rest n hn hdead ih => exact ih h

theorem follows_attributes {g₀ g : Graph α} (s : AttributeStore α) (h : Follows g₀ g) :
    Follows g₀ { g with attributes := s } :=
  ⟨h.1.of_attributes _, h.2.size, h.2.dead⟩

theorem keeps_rewire (g₀ : Graph α) (slots : List Slot) (source : Slot) :
    Keeps (Follows g₀) (rewire slots source : Edit α GraphError Unit) :=
  Keeps.forM fun slot _ => Edit.keeps_answer fun _ h =>
    (sound_setInput h.1 slot.node slot.index source).follows h

theorem keeps_replaceOutput (g₀ : Graph α) (old new : Slot) :
    Keeps (Follows g₀) (replaceOutput old new : Edit α GraphError Unit) := by
  apply (Edit.keeps_read _).bind
  intro _
  exact keeps_rewire g₀ _ new

theorem keeps_replaceNode (g₀ : Graph α) (old new : NodeId) :
    Keeps (Follows g₀) (replaceNode old new : Edit α GraphError Unit) := by
  apply (Edit.keeps_ofExcept _).bind
  intro oldNode
  apply (Edit.keeps_ofExcept _).bind
  intro newNode
  dsimp only
  split
  · exact Keeps.throw _
  · apply (Keeps.forM fun index _ => keeps_replaceOutput g₀ _ _).bind
    intro _
    apply (Edit.keeps_change fun g h => follows_attributes _ h).bind
    intro _
    apply (Edit.keeps_change fun g h => follows_removeDead g [old] h).bind
    intro _
    apply (Edit.keeps_read _).bind
    intro gone
    split
    · exact Edit.keeps_answer fun g h => (sound_rename h.1 new oldNode.name).follows h
    · exact Keeps.pure ()

end Graph

end LowPrecision
