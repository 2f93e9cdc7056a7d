import LeastSquares.Norm

namespace LeastSquares

instance : Arith Float where
  zero := 0.0
  one := 1.0
  natCast := Float.ofNat
  decLt := inferInstance
  decLe := inferInstance
  abs := Float.abs
  sqrt := Float.sqrt
  isFinite := Float.isFinite
  epsilon := Float.ofBits 0x3CB0000000000000
  minPositive := Float.ofBits 0x0010000000000000
  maxFinite := Float.ofBits 0x7FEFFFFFFFFFFFFF

instance : Scalar Float where
  norm := bandedNorm

instance : Arith Float32 where
  zero := 0.0
  one := 1.0
  natCast := Float32.ofNat
  decLt := inferInstance
  decLe := inferInstance
  abs := Float32.abs
  sqrt := Float32.sqrt
  isFinite := Float32.isFinite
  epsilon := Float32.ofBits 0x34000000
  minPositive := Float32.ofBits 0x00800000
  maxFinite := Float32.ofBits 0x7F7FFFFF

end LeastSquares
