import LowPrecision.Counting
import LowPrecision.Graph.Edit

namespace LowPrecision.Graph

variable {α : Type}

def isLive (g : Graph α) (id : NodeId) : Bool := (g.node? id).isSome

def inputCount (g : Graph α) (id : NodeId) : Nat := ((g.node? id).map (·.inputs.length)).getD 0

def liveWeight (g : Graph α) : Nat :=
  weigh (fun id => g.inputCount id + 1) g.isLive (List.range g.nodes.size)

@[simp] theorem size_modifyNode (g : Graph α) (id : NodeId) (f : Node α → Node α) :
    (g.modifyNode id f).nodes.size = g.nodes.size := by
  simp [modifyNode]

@[simp] theorem isLive_modifyNode (g : Graph α) (id : NodeId) (f : Node α → Node α) (i : NodeId) :
    (g.modifyNode id f).isLive i = g.isLive i := by
  simp only [isLive, node?, modifyNode, Array.getElem?_modify]
  split
  · cases g.nodes[i]? with
    | none => simp
    | some n => cases n <;> simp
  · rfl

@[simp] theorem inputCount_modifyWire (g : Graph α) (slot : Slot) (f : Wire → Wire) (i : NodeId) :
    (g.modifyWire slot f).inputCount i = g.inputCount i := by
  simp only [inputCount, node?, modifyWire, modifyNode, Array.getElem?_modify]
  split
  · cases g.nodes[i]? with
    | none => rfl
    | some n => cases n <;> rfl
  · rfl

theorem size_foldl_removeReader (g : Graph α) (slots : List (Slot × Slot)) :
    (slots.foldl (fun g s => g.removeReader s.1 s.2) g).nodes.size = g.nodes.size := by
  induction slots generalizing g with
  | nil => rfl
  | cons s slots ih => rw [List.foldl_cons, ih]; simp [removeReader, modifyWire]

theorem isLive_foldl_removeReader (g : Graph α) (slots : List (Slot × Slot)) (i : NodeId) :
    (slots.foldl (fun g s => g.removeReader s.1 s.2) g).isLive i = g.isLive i := by
  induction slots generalizing g with
  | nil => rfl
  | cons s slots ih => rw [List.foldl_cons, ih]; simp [removeReader, modifyWire]

theorem inputCount_foldl_removeReader (g : Graph α) (slots : List (Slot × Slot)) (i : NodeId) :
    (slots.foldl (fun g s => g.removeReader s.1 s.2) g).inputCount i = g.inputCount i := by
  induction slots generalizing g with
  | nil => rfl
  | cons s slots ih => rw [List.foldl_cons, ih]; simp [removeReader]

theorem size_detach (g : Graph α) (id : NodeId) (n : Node α) :
    (g.detach id n).nodes.size = g.nodes.size := by
  simp [detach, drop, size_foldl_removeReader]

theorem isLive_detach (g : Graph α) (id : NodeId) (n : Node α) (i : NodeId) :
    (g.detach id n).isLive i = (g.isLive i && i != id) := by
  rw [← isLive_foldl_removeReader g (slotsOf id n.inputs) i]
  simp only [detach, drop, isLive, node?, Array.getElem?_setIfInBounds]
  by_cases h : id = i
  · subst h; simp; split <;> simp
  · have : i ≠ id := fun e => h e.symm
    simp [h, this]

theorem inputCount_detach_le (g : Graph α) (id : NodeId) (n : Node α) (i : NodeId) :
    (g.detach id n).inputCount i ≤ g.inputCount i := by
  rw [← inputCount_foldl_removeReader g (slotsOf id n.inputs) i]
  simp only [detach, drop, inputCount, node?, Array.getElem?_setIfInBounds]
  split
  · split <;> exact Nat.zero_le _
  · exact Nat.le_refl _

theorem lt_size_of_isLive {g : Graph α} {id : NodeId} (h : g.isLive id = true) :
    id < g.nodes.size := by
  rcases Nat.lt_or_ge id g.nodes.size with hlt | hge
  · exact hlt
  · simp [isLive, node?, hge] at h

theorem liveWeight_detach {g : Graph α} {id : NodeId} {n : Node α} (h : g.node? id = some n) :
    (g.detach id n).liveWeight + (n.inputs.length + 1) ≤ g.liveWeight := by
  have hlive : g.isLive id = true := by simp [isLive, h]
  have hcount : g.inputCount id = n.inputs.length := by simp [inputCount, h]
  rw [liveWeight, liveWeight, size_detach, ← hcount]
  apply weigh_add_le (w := fun id => g.inputCount id + 1)
    (List.mem_range.mpr (lt_size_of_isLive hlive)) ?_ ?_ hlive
  · intro i _ hi
    rw [isLive_detach, Bool.and_eq_true] at hi
    exact ⟨hi.1, Nat.succ_le_succ (inputCount_detach_le g id n i)⟩
  · simp [isLive_detach]

/-- Takes out the dead nodes found by looking at the stack and at the producers of each node taken
out, the last producer first. -/
def removeDead (g : Graph α) : List NodeId → Graph α
  | [] => g
  | id :: rest =>
    match _h : g.node? id with
    | none => g.removeDead rest
    | some n =>
      if n.isDead then (g.detach id n).removeDead (n.producers.reverse ++ rest)
      else g.removeDead rest
  termination_by stack => g.liveWeight + stack.length
  decreasing_by
    · exact Nat.lt_succ_self _
    · have hweight := liveWeight_detach _h
      simp only [Node.producers, List.length_append, List.length_reverse, List.length_map,
        List.length_cons]
      omega
    · exact Nat.lt_succ_self _

end LowPrecision.Graph
