import LowPrecision.Markup.Passes
import LowPrecision.Rewrite.Rule

/-!
A run over a graph: the analyses, then sweeps of the main rules until one changes nothing, then
one sweep of each cleanup rule.
-/

namespace LowPrecision

inductive Stage where
  | idle | markupRunning | ruleMatching | cleanupRunning | done
  deriving DecidableEq, Repr

def Stage.name : Stage → String
  | idle => "Idle"
  | markupRunning => "MarkupRunning"
  | ruleMatching => "RuleMatching"
  | cleanupRunning => "CleanupRunning"
  | done => "Done"

structure Report where
  sweeps : Nat
  rewrites : Nat
  converged : Bool
  cleanupRewrites : Nat
  conflicts : List AlignmentConflict
  degenerate : Nat
  deriving DecidableEq

inductive RunError where
  | markup (pass : MarkupPass) (cause : TransformError)
  | sweep (number : Nat) (cause : TransformError)
  | cleanup (rule : Rule) (cause : TransformError)
  deriving DecidableEq

namespace RunError

def message : RunError → String
  | markup pass _ => s!"markup pass {pass.name} failed"
  | sweep number _ => s!"rule sweep {number} failed"
  | cleanup rule _ => s!"cleanup {rule.name} failed"

def cause : RunError → TransformError
  | markup _ cause | sweep _ cause | cleanup _ cause => cause

def stage : RunError → Stage
  | markup _ _ => .markupRunning
  | sweep _ _ => .ruleMatching
  | cleanup _ _ => .cleanupRunning

def chain (e : RunError) : List String := e.message :: e.cause.chain

end RunError

namespace Pipeline

variable {α : Type} [Scalar α]

def applyRule (id : NodeId) (rule : Rule) : Rewrite α Bool := do
  let g ← Rewrite.graph
  match rule.pattern.matchAt g id with
  | none => return false
  | some m =>
    let c ← Rewrite.context
    if ← (rule.canApply c g m : Checked Bool) then
      tryCatch (rule.apply m) fun e => if e.isFatal then throw e else return false
    else return false

/-- The nodes of a graph from the start of a sweep, each with the first rule that rewrites it. Nodes
that are removed in the meantime are passed over. -/
def sweep (rules : OpKind → List Rule) : Rewrite α Nat := do
  let order ← Rewrite.editGraph (Edit.attempt Graph.topologicalOrder)
  order.foldlM (fun rewrites id => do
    match (← Rewrite.graph).kind? id with
    | none => return rewrites
    | some kind =>
      if ← (rules kind).anyM (applyRule id) then return rewrites + 1 else return rewrites) 0

def sweeps : Nat → Report → ExceptT RunError (StateT (Session α) Checked) Report
  | 0, report => return report
  | count + 1, report => do
    let number := report.sweeps + 1
    let rewrites ← ExceptT.adapt (.sweep number) (sweep Rule.forKind)
    let report := { report with sweeps := number, rewrites := report.rewrites + rewrites }
    if rewrites = 0 then return { report with converged := true } else sweeps count report

def cleanupSweep (rule : Rule) : Rewrite α Nat :=
  sweep fun kind => if kind ∈ rule.pattern.kinds then [rule] else []

def transform (settings : Settings) : ExceptT RunError (StateT (Session α) Checked) Report := do
  MarkupPass.all.forM fun pass =>
    ExceptT.adapt (.markup pass) (Rewrite.edit (pass.run settings.restrictions))
  let conflicts := (← get).graph.attributes.conflicts
  let report ← sweeps (max settings.params.maxSweeps 1) ⟨0, 0, false, 0, conflicts, 0⟩
  let cleanups ← Rule.cleanup.mapM fun rule =>
    ExceptT.adapt (.cleanup rule) (cleanupSweep rule)
  return { report with
    cleanupRewrites := cleanups.foldl (· + ·) 0
    degenerate := (← get).context.degenerate }

/-- Runs the pipeline. The graph is what the run left behind, also when it failed. -/
def run (settings : Settings) (g : Graph α) : Checked (Except RunError Report × Graph α) := do
  let (outcome, session) ← (transform settings).run.run ⟨g, .start settings.params⟩
  return (outcome, session.graph)

def finalStage : Except RunError Report → Stage
  | .ok _ => .done
  | .error e => e.stage

end Pipeline

def Graph.isQuantized {α : Type} (g : Graph α) : Bool :=
  (g.reach (fun _ n => n.producers) g.results).any fun id =>
    match Ranges.ofNode g id with
    | .ok r => r.hasSupportedLayout g id
    | .error _ => false

end LowPrecision
