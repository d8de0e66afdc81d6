import Clir.Gen.Dominators
import Clir.Ir.Cursor

set_option autoImplicit false

/-! # Architecture configs and the local variables of the generator

A config lists the operand types of an architecture and, for each instruction, the modes in which
it may be generated. The generator keeps the values it has defined and used, with the types it
takes them to have, in one set for each block. Sets of typed values are lists without duplicates.
-/

namespace Clir

/-- `OperandType` -/
inductive OperandType
  | i8 | i16 | i32 | i64 | i128 | f16 | f32 | f64
  | i8x16 | i16x8 | i32x4 | i64x2 | f16x8 | f32x4 | f64x2
  deriving DecidableEq, Repr

/-- `to_cranelift_type` -/
def OperandType.toCraneliftType : OperandType → ClifType
  | i8 => .i8
  | i16 => .i16
  | i32 => .i32
  | i64 => .i64
  | i128 => .i128
  | f16 => .f16
  | f32 => .f32
  | f64 => .f64
  | i8x16 => .i8x16
  | i16x8 => .i16x8
  | i32x4 => .i32x4
  | i64x2 => .i64x2
  | f16x8 => .f16x8
  | f32x4 => .f32x4
  | f64x2 => .f64x2

/-- `ResultType` -/
inductive ResultType
  | same | conditional
  deriving DecidableEq, Repr

/-- `Mode` -/
structure Mode where
  name : String
  operandTypes : Option (List OperandType) := none
  arg0Types : Option (List OperandType) := none
  arg1Types : Option (List OperandType) := none
  resultType : Option ResultType := none
  memory : Option Bool := none
  deriving DecidableEq, Repr

/-- `Instruction` -/
structure Instruction where
  name : String
  modes : Option (List Mode)
  deriving DecidableEq, Repr

/-- The part of `ArchConfig` that instruction selection reads. -/
structure ArchConfig where
  operandTypes : List OperandType
  instructions : List Instruction
  deriving DecidableEq, Repr

/-- A lookup in `instruction_map`, which is collected from the list: the last entry of a name
counts. -/
def ArchConfig.instruction (config : ArchConfig) (name : String) : Option Instruction :=
  (config.instructions.filter fun instr => instr.name = name).getLast?

/-- `TypedValue`: a value and the type it is recorded with. -/
structure TypedValue where
  value : Value
  ty : ClifType
  deriving DecidableEq, Repr

/-- `HashMap<Block, HashSet<TypedValue>>` -/
abbrev ValueMap := BlockMap (List TypedValue)

/-- The local variables of `function_generator`. -/
structure Locals where
  blockDefValues : ValueMap := ∅
  blockRefValues : ValueMap := ∅
  defValues : List TypedValue := []
  refValues : List TypedValue := []

end Clir
