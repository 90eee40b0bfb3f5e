/-!
# Element types

`DType` is the type of a tensor's elements.  Each has a size in bytes, a stable numeric code and
two spellings: the short one shown with tensors, and the one shown in messages.
-/

namespace TensorGraph

/-- The element types: four floating formats, eight integers, and truth values of one byte. -/
inductive DType where
  | f64 | f32 | f16 | bf16
  | i64 | i32 | i16 | i8
  | u64 | u32 | u16 | u8
  | bool
deriving DecidableEq, Repr, Inhabited

namespace DType

/-- Every element type, by code. -/
def all : List DType := [f64, f32, f16, bf16, i64, i32, i16, i8, u64, u32, u16, u8, bool]

/-- Bytes of one element. -/
def size : DType → Nat
  | f64 | i64 | u64 => 8
  | f32 | i32 | u32 => 4
  | f16 | bf16 | i16 | u16 => 2
  | i8 | u8 | bool => 1

/-- Stable code: floats from 0, signed integers from 10, unsigned ones from 20, truth values 30. -/
def code : DType → Nat
  | f64 => 0 | f32 => 1 | f16 => 2 | bf16 => 3
  | i64 => 10 | i32 => 11 | i16 => 12 | i8 => 13
  | u64 => 20 | u32 => 21 | u16 => 22 | u8 => 23
  | bool => 30

/-- The spelling shown with tensors. -/
def shortName : DType → String
  | f64 => "f64" | f32 => "f32" | f16 => "f16" | bf16 => "bf16"
  | i64 => "i64" | i32 => "i32" | i16 => "i16" | i8 => "i8"
  | u64 => "u64" | u32 => "u32" | u16 => "u16" | u8 => "u8"
  | bool => "bool"

/-- The spelling shown in messages and descriptions of records. -/
def tag : DType → String
  | f64 => "F64" | f32 => "F32" | f16 => "F16" | bf16 => "BF16"
  | i64 => "I64" | i32 => "I32" | i16 => "I16" | i8 => "I8"
  | u64 => "U64" | u32 => "U32" | u16 => "U16" | u8 => "U8"
  | bool => "Bool"

/-- Whether elements are floating numbers. -/
def isFloat : DType → Bool
  | f64 | f32 | f16 | bf16 => true
  | _ => false

/-- Whether elements are integers; truth values are not. -/
def isInt : DType → Bool
  | i64 | i32 | i16 | i8 | u64 | u32 | u16 | u8 => true
  | _ => false

/-- The element type with a given short name. -/
def ofShortName? (name : String) : Option DType := all.find? (·.shortName == name)

theorem size_pos (t : DType) : 0 < t.size := by cases t <;> decide

end DType

end TensorGraph
