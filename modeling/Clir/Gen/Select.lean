import Clir.Gen.Config
import Mathlib.Data.List.Sort

set_option autoImplicit false

/-! # Choosing values and building instructions from them

The helpers of instruction selection, and the shapes that its arms share: two operands of one
type, one operand, a shift, a conversion, a load or a store through a fresh stack address. What an
arm emits depends on `values`, the function that lists the values of a type the block may use.

Immediates, condition codes, lane numbers and memory flags are not part of the model, and neither
are the draws that pick them.
-/

namespace Clir

open Cmd Cursor

variable {δ : Type}

/-- What an arm returns: the value it defines and the values it refers to. -/
abbrev Selection := Option (Option TypedValue × Option (List TypedValue))

/-- `get_dominator_values_with_type`, the newest value first. -/
def getDominatorValuesWithType (dominatorBlocks : List Block) (blockDominatorValues : ValueMap)
    (valueType : ClifType) : List Value :=
  (dominatorBlocks.flatMap fun b =>
    match blockDominatorValues.lookup b with
    | some typedValues =>
        (typedValues.filter fun tv => tv.ty = valueType).map TypedValue.value
    | none => []).insertionSort (· ≥ ·)

/-- `select_random_value` with head ratio `0.1`, the only one in use. -/
def selectRandomValue (values : List Value) : M δ (Option Value) := do
  if values.isEmpty then
    return none
  else
    let selectHead ← genRange 0 2
    if selectHead = 1 then
      let headCount := (values.length + 5) / 10
      if headCount = 0 then
        return values[0]?
      else
        let index ← genRange 0 (min headCount values.length)
        return values[index]?
    else
      let index ← genRange 0 values.length
      return values[index]?

/-- `select_random_value` where a value must be there. -/
def selectValue (values : List Value) : M δ Value := do
  unwrap (← selectRandomValue values)

/-- A uniform choice where a value must be there. -/
def chooseValue (values : List Value) : M δ Value := do
  unwrap (← choose values)

/-- `get_random_cond_value` -/
def getRandomCondValue (dominatorBlocks : List Block) (blockDominatorValues : ValueMap) :
    M δ Value :=
  selectValue (getDominatorValuesWithType dominatorBlocks blockDominatorValues .i32)

/-- `random_type` -/
def randomType (types : List ClifType) : M δ ClifType := do
  unwrap (← choose types)

/-- A type from a list of a mode. -/
def chooseType (types : Option (List OperandType)) : M δ ClifType := do
  let types ← unwrap types
  return (← unwrap (← choose types)).toCraneliftType

/-- The lane types of `extract_vector_type`. -/
def laneTypes : List (ClifType × ClifType) :=
  [(.i8x16, .i8), (.i16x8, .i16), (.i32x4, .i32), (.i64x2, .i64), (.f16x8, .f16), (.f32x4, .f32),
    (.f64x2, .f64)]

/-- `extract_vector_type`, without the number of lanes. -/
def extractVectorType (vectorType : ClifType) : M δ ClifType :=
  match laneTypes.lookup vectorType with
  | some laneType => return laneType
  | none => panicWith "Unsupported vector type"

/-- `bitcast_type_mapping` -/
def bitcastTypeMapping (vectorType : ClifType) : M δ ClifType :=
  match ([(.i16, .f16), (.i32, .f32), (.i64, .f64), (.f16, .i16), (.f32, .i32), (.f64, .i64)] :
      List (ClifType × ClifType)).lookup vectorType with
  | some castType => return castType
  | none =>
      match ([(.i128, [.i16x8, .i32x4, .i64x2, .f32x4, .f64x2]), (.i16x8, [.i128]),
          (.i32x4, [.f32x4, .i128]), (.i64x2, [.f64x2, .i128]), (.f16x8, [.i16x8, .i128]),
          (.f32x4, [.i32x4, .i128]), (.f64x2, [.i32x4, .i128])] :
          List (ClifType × List ClifType)).lookup vectorType with
      | some castTypes => randomType castTypes
      | none => panicWith "Unsupported vector type"

/-! ## Emission -/

/-- Build an instruction and take its first result. -/
def emit (data : InstructionData) : M δ Value := do
  firstResult (← ins data)

/-- The same at an explicit controlling type. -/
def emitTyped (ctrl : ClifType) (data : InstructionData) : M δ Value := do
  firstResult (← insTyped data ctrl)

/-- One of the function's stack slots. -/
def randomStackSlot : M δ StackSlot := do
  unwrap (← choose (List.range (← func).sizedStackSlots.len))

/-- `stack_addr` -/
def stackAddr (slot : StackSlot) (offset : ℕ) : M δ Value :=
  emitTyped .i64 (.stackLoad .stackAddr slot offset)

/-- The address of one of the function's stack slots. -/
def randomStackAddr : M δ Value := do
  stackAddr (← randomStackSlot) 0

end Clir
