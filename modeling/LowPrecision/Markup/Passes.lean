import LowPrecision.Markup.Alignment

namespace LowPrecision

inductive MarkupPass where
  | precisions
  | averagePooling
  | propagatePrecisions
  | alignIntervals
  | alignParameters
  deriving DecidableEq

namespace MarkupPass

def all : List MarkupPass :=
  [precisions, averagePooling, propagatePrecisions, alignIntervals, alignParameters]

def name : MarkupPass → String
  | precisions => "MarkupPrecisions"
  | averagePooling => "MarkupAvgPoolPrecisionPreserved"
  | propagatePrecisions => "PropagatePrecisions"
  | alignIntervals => "AlignQuantizationIntervals"
  | alignParameters => "AlignQuantizationParameters"

def ofName? (name : String) : Option MarkupPass := all.find? (·.name = name)

variable {α : Type} [Scalar α]

def run (restrictions : List OperationRestriction) : MarkupPass → Edit α TransformError Unit
  | precisions => Edit.change (Markup.precisions restrictions)
  | averagePooling => Edit.change Markup.averagePooling
  | propagatePrecisions => Markup.propagatePrecisions
  | alignIntervals => do set (← (Markup.alignIntervals (← getThe (Graph α)) : Checked (Graph α)))
  | alignParameters => do set (← (Markup.alignParameters (← getThe (Graph α)) : Checked (Graph α)))

end MarkupPass

end LowPrecision
