import LowPrecision.Attributes.Store

namespace LowPrecision

structure OperationRestriction where
  kind : OpKind
  inputs : List InputRestriction
  deriving DecidableEq

def defaultRestrictions : List OperationRestriction :=
  [⟨.convolution, [⟨0, [.u8]⟩, ⟨1, [.i8]⟩]⟩,
    ⟨.groupConvolution, [⟨0, [.u8]⟩, ⟨1, [.i8]⟩]⟩,
    ⟨.matMul, [⟨0, [.u8, .i8]⟩, ⟨1, [.i8]⟩]⟩]

structure Params where
  updatePrecisions : Bool
  supportAsymmetric : Bool
  maxSweeps : Nat
  deriving DecidableEq

def Params.default : Params := ⟨true, true, 16⟩

structure Settings where
  restrictions : List OperationRestriction
  params : Params
  deriving DecidableEq

namespace Settings

def default : Settings := ⟨defaultRestrictions, .default⟩

def restriction? (s : Settings) (kind : OpKind) : Option OperationRestriction :=
  s.restrictions.find? (·.kind = kind)

end Settings

end LowPrecision
