import TensorGraph.DType.Element

/-!
# Elements of two bytes

A conversion of the floating formats of two bytes that rounds once, to the nearest number of the format.
-/

namespace TensorGraph

instance : HalfConversion where
  toFloat format bits := (format.decode bits.toNat).toFloat
  ofFloat format x := UInt16.ofNat (format.encode (.ofFloat x))

end TensorGraph
