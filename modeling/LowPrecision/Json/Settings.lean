import LowPrecision.Json.Graph
import LowPrecision.Settings

namespace LowPrecision

namespace Json.Reader

def inputRestriction : Reader InputRestriction := do
  let (index, precisions) ← pair "index" "precisions" natural (list elementType)
  return ⟨index, precisions⟩

def operationRestriction : Reader OperationRestriction := do
  let (kind, inputs) ← pair "kind" "inputs" opKind (list inputRestriction)
  return ⟨kind, inputs⟩

def params : Reader Params := do
  let (_, update, asymmetric, sweeps) ← record
    [⟨"update_precisions", fun parts => parts.1.isSome,
        fun parts => do return (some (← bool), parts.2)⟩,
      ⟨"support_asymmetric_quantization", fun parts => parts.2.1.isSome,
        fun parts => do return (parts.1, some (← bool), parts.2.2)⟩,
      ⟨"max_sweeps", fun parts => parts.2.2.isSome,
        fun parts => do return (parts.1, parts.2.1, some (← natural))⟩]
    ((none, none, none) : Option Bool × Option Bool × Option Nat)
  let default := Params.default
  return ⟨update.getD default.updatePrecisions, asymmetric.getD default.supportAsymmetric,
    sweeps.getD default.maxSweeps⟩

def settings : Reader Settings := do
  let (_, restrictions, parameters) ← twoParts "restrictions" "params"
    (list operationRestriction) params
  return ⟨restrictions.getD defaultRestrictions, parameters.getD .default⟩

end Json.Reader

inductive SettingsError where
  | unreadable (path : String)
  | malformed
  | noSweeps
  | notEightBit (kind : OpKind) (index : Nat) (precisions : List ElementType)
  deriving DecidableEq

namespace SettingsError

def message : SettingsError → String
  | unreadable path => s!"reading config file {path}"
  | malformed => "parsing low precision config"
  | noSweeps => "max_sweeps must be positive"
  | notEightBit kind index precisions =>
    s!"{kind.name} input {index} lists a precision that is not 8-bit: "
      ++ Text.bracketed (precisions.map ElementType.name)

end SettingsError

namespace Settings

def inputs (s : Settings) : List (OpKind × InputRestriction) :=
  s.restrictions.flatMap fun r => r.inputs.map (r.kind, ·)

def validate (s : Settings) : Except SettingsError Settings :=
  if s.params.maxSweeps = 0 then .error .noSweeps
  else
    match s.inputs.find? fun (_, input) => !input.precisions.all ElementType.isLowPrecision with
    | some (kind, input) => .error (.notEightBit kind input.index input.precisions)
    | none => .ok s

def ofText (text : String) : Attempt SettingsError Settings := do
  match ← (Json.Reader.settings.parse text).run with
  | .ok s => ExceptT.mk (pure s.validate)
  | .error _ => throw .malformed

end Settings

end LowPrecision
