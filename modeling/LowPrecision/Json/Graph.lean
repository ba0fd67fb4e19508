import LowPrecision.Graph.Node
import LowPrecision.Json.Number

namespace LowPrecision.Json.Reader

def elementType : Reader ElementType := named ElementType.ofSymbol?

def opKind : Reader OpKind := named OpKind.ofName?

def shape : Reader (List Nat) := list natural

def tensor : Reader (Tensor Binary32) := do
  let (dimensions, data) ← pair "shape" "data" shape (list real)
  match ← (Tensor.make dimensions data).run with
  | .ok t => return t
  | .error e => throw (.tensor e)

def attributes : String → Reader (Op Binary32)
  | "Constant" => .constant <$> tensor
  | "FakeQuantize" => .fakeQuantize <$> single "levels" natural
  | "Convert" => .convert <$> single "destination" elementType
  | "MatMul" => do
    let (a, b) ← pair "transpose_a" "transpose_b" bool bool
    return .matMul a b
  | "Concat" => .concat <$> single "axis" natural
  | "Split" => .split <$> single "axis" natural
  | "VariadicSplit" => .variadicSplit <$> single "axis" natural
  | "Interpolate" => .interpolate <$> single "mode" (named InterpolateMode.ofName?)
  | "Clamp" => do
    let (low, high) ← pair "min" "max" real real
    return .clamp low high
  | "DepthToSpace" => .depthToSpace <$> single "block_size" natural
  | _ => malformed

def op : Reader (Op Binary32) :=
  choice (fun name => OpKind.ofName? name >>= Op.ofKind?) attributes

def port : Reader Port := do
  let (form, type, dimensions) ← twoParts "element_type" "shape" elementType (orNull shape)
  let dimensions ← match form with
    | .named => pure (dimensions.getD none)
    | .listed => required dimensions
  return ⟨← required type, dimensions⟩

def slot : Reader Slot := do
  let (node, index) ← pair "node" "index" natural natural
  return ⟨node, index⟩

end LowPrecision.Json.Reader
