import LowPrecision.Graph.Removal

namespace LowPrecision

namespace Graph

variable {α : Type}

def unvisited (g : Graph α) (cost : NodeId → Nat) (visited : List NodeId) : Nat :=
  weigh cost (fun id => g.isLive id && id ∉ visited) (List.range g.nodes.size)

theorem unvisited_le {g : Graph α} {visited more : List NodeId} (cost : NodeId → Nat)
    (h : ∀ id ∈ visited, id ∈ more) : g.unvisited cost more ≤ g.unvisited cost visited := by
  refine weigh_le ?_
  intro i _ hi
  simp at hi ⊢
  exact ⟨hi.1, fun hv => hi.2 (h i hv)⟩

theorem unvisited_add_le {g : Graph α} {visited more : List NodeId} {id : NodeId}
    (cost : NodeId → Nat) (h : ∀ id ∈ visited, id ∈ more) (hlive : g.isLive id = true)
    (hnew : id ∉ visited) (hmem : id ∈ more) :
    g.unvisited cost more + cost id ≤ g.unvisited cost visited := by
  refine weigh_add_le (List.mem_range.mpr (lt_size_of_isLive hlive)) ?_ ?_ ?_
  · intro i _ hi
    simp at hi ⊢
    exact ⟨hi.1, fun hv => hi.2 (h i hv)⟩
  · simp [hmem]
  · simp [hlive, hnew]

def stepCost (g : Graph α) (next : NodeId → Node α → List NodeId) (id : NodeId) : Nat :=
  ((g.node? id).map fun n => (next id n).length).getD 0 + 1

/-- Nodes reached from a queue when each live node leads on to `next`, newest first. A number
without a live node is passed over. -/
def walk (g : Graph α) (next : NodeId → Node α → List NodeId) (visited : List NodeId) :
    List NodeId → List NodeId
  | [] => visited
  | id :: queue =>
    match _h : g.node? id with
    | none => g.walk next visited queue
    | some n =>
      if _hv : id ∈ visited then g.walk next visited queue
      else g.walk next (id :: visited) (queue ++ next id n)
  termination_by queue => g.unvisited (g.stepCost next) visited + queue.length
  decreasing_by
    · exact Nat.lt_succ_self _
    · exact Nat.lt_succ_self _
    · have hcost : g.unvisited (g.stepCost next) (id :: visited) + g.stepCost next id ≤
          g.unvisited (g.stepCost next) visited :=
        unvisited_add_le _ (by simp +contextual) (by simp [isLive, _h]) _hv (by simp)
      rw [stepCost, _h] at hcost
      simp only [Option.map_some, Option.getD_some, List.length_append, List.length_cons] at hcost ⊢
      omega

def reach (g : Graph α) (next : NodeId → Node α → List NodeId) (start : List NodeId) :
    List NodeId :=
  (g.walk next [] start).reverse

end Graph

end LowPrecision
