import LowPrecision.Graph.Removal

namespace LowPrecision

abbrev Edit (α ε : Type) := ExceptT ε (StateT (Graph α) Checked)

namespace Edit

variable {α ε β : Type}

def read (f : Graph α → β) : Edit α ε β := do return f (← getThe (Graph α))

def ofExcept (f : Graph α → Except ε β) : Edit α ε β := do
  match f (← getThe (Graph α)) with
  | .ok x => return x
  | .error e => throw e

def attempt (f : Graph α → Attempt ε β) : Edit α ε β := do
  match ← (f (← getThe (Graph α))).run with
  | .ok x => return x
  | .error e => throw e

def answer (f : Graph α → Except ε β × Graph α) : Edit α ε β := ExceptT.mk (modifyGet f)

def step (f : Graph α → Except ε Unit × Graph α) : Edit α ε Unit := answer f

def change (f : Graph α → Graph α) : Edit α ε Unit := modifyThe (Graph α) f

end Edit

namespace Graph

variable {α : Type}

def rewire (slots : List Slot) (source : Slot) : Edit α GraphError Unit :=
  slots.forM fun slot => Edit.step (·.setInput slot.node slot.index source)

def replaceOutput (old new : Slot) : Edit α GraphError Unit := do
  let readers ← Edit.read (·.readers old)
  rewire (readers.filter (·.node ≠ new.node)) new

/-- Puts `new` in the place of `old`: it takes over the readers, the attributes that it lacks and,
once `old` is taken out as dead, the name. -/
def replaceNode (old new : NodeId) : Edit α GraphError Unit := do
  let oldNode ← Edit.ofExcept (·.node old)
  let newNode ← Edit.ofExcept (·.node new)
  if oldNode.outputs.length ≠ newNode.outputs.length then
    throw (.portCountMismatch oldNode.outputs.length newNode.outputs.length)
  (List.range oldNode.outputs.length).forM fun index =>
    replaceOutput ⟨old, index⟩ ⟨new, index⟩
  Edit.change fun g => { g with attributes := g.attributes.copyNode old new }
  Edit.change (·.removeDead [old])
  if (← Edit.read (·.node? old)).isNone then
    Edit.step (·.rename new oldNode.name)

end Graph

end LowPrecision
