import LowPrecision.Graph.Basic

namespace LowPrecision

inductive TransformError where
  | unsupportedConfiguration (node reason : String)
  | unsupportedPrecision (type : ElementType)
  | unsupportedLevels (levels : Nat)
  | invalidDetails (reason : String)
  | notQuantizable (id : NodeId)
  | graph (error : GraphError)
  | tensor (error : TensorError)
  deriving DecidableEq

namespace TransformError

def message : TransformError → String
  | unsupportedConfiguration node reason => s!"unsupported configuration at node {node}: {reason}"
  | unsupportedPrecision type =>
    s!"unsupported element type {type.name} for low precision decomposition"
  | unsupportedLevels levels => s!"unsupported number of quantization levels: {levels}"
  | invalidDetails reason => s!"invalid quantization details: {reason}"
  | notQuantizable id => s!"node {id} is not a quantizable fake-quantize"
  | graph error => s!"graph error: {error.message}"
  | tensor error => s!"tensor error: {error.message}"

def isFatal : TransformError → Bool
  | notQuantizable _ | unsupportedLevels _ => false
  | _ => true

def chain (e : TransformError) : List String :=
  match e with
  | graph error => [e.message, error.message]
  | tensor error => [e.message, error.message]
  | _ => [e.message]

end TransformError

end LowPrecision
