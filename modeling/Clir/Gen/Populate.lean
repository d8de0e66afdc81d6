import Clir.Gen.Select

set_option autoImplicit false

/-! # Instruction selection

`populate_block_instructions` draws an opcode and a mode of it from the config, and the arm of the
opcode emits instructions at the cursor. Arms that only differ in the opcode, the types or the
table of types they use are instances of one definition. An arm returns the value it defined with
the type it takes it to have, and the operands it used.
-/

namespace Clir

open Cmd Cursor

variable {δ : Type}

/-- A new value with its recorded type, and the values it was made from. -/
def defined (newValue : Value) (valueType : ClifType) (refs : List TypedValue) : Selection :=
  some (some ⟨newValue, valueType⟩, some refs)

/-- A new value that was made from nothing the generator keeps track of. -/
def definedFresh (newValue : Value) (valueType : ClifType) : Selection :=
  some (some ⟨newValue, valueType⟩, none)

/-- The recorded type of an arm whose match on the operand type has no other cases. -/
def recordedType : Option ClifType → M δ ClifType
  | some t => return t
  | none => panicWith "error value type"

/-! ## The shapes of the arms -/

section Shapes

variable (values : ClifType → List Value)

/-- Two operands of one type; a single candidate is used twice. `ref` says which of the new value
and the operand is returned as the reference of the single candidate. -/
def binaryWith (ref : Value → Value → Value) (op : Opcode) (recorded : ClifType → Option ClifType)
    (valueType : ClifType) : M δ Selection := do
  match values valueType with
  | [] => return none
  | [refValue] =>
      let newValue ← emit (.fixed op [refValue, refValue])
      return defined newValue (← recordedType (recorded valueType))
        [⟨ref newValue refValue, valueType⟩]
  | candidates =>
      let firstValue ← selectValue candidates
      let secondValue ← selectValue candidates
      let newValue ← emit (.fixed op [firstValue, secondValue])
      return defined newValue (← recordedType (recorded valueType))
        [⟨firstValue, valueType⟩, ⟨secondValue, valueType⟩]

def binary : Opcode → (ClifType → Option ClifType) → ClifType → M δ Selection :=
  binaryWith values fun _ refValue => refValue

/-- The arms that return the new value as the reference of a single candidate. -/
def binaryRefNew : Opcode → (ClifType → Option ClifType) → ClifType → M δ Selection :=
  binaryWith values fun newValue _ => newValue

/-- Emit at the given controlling type, or at the one the operands determine. -/
def emitAt (ctrl : Option ClifType) (data : InstructionData) : M δ Value :=
  match ctrl with
  | some t => emitTyped t data
  | none => emit data

/-- One operand, which must be there. -/
def unary (op : Opcode) (ctrl : Option ClifType) (operandType resultType : ClifType) :
    M δ Selection := do
  let value ← selectValue (values operandType)
  let newValue ← emitAt ctrl (.fixed op [value])
  return defined newValue resultType [⟨value, operandType⟩]

/-- One operand, if there is one. -/
def unaryIfAny (op : Opcode) (valueType : ClifType) : M δ Selection :=
  if (values valueType).isEmpty then return none
  else unary values op none valueType valueType

/-- One operand, if there is one, chosen uniformly. -/
def unaryUniform (op : Opcode) (ctrl : Option ClifType) (operandType resultType : ClifType) :
    M δ Selection := do
  if (values operandType).isEmpty then
    return none
  else
    let value ← chooseValue (values operandType)
    let newValue ← emitAt ctrl (.fixed op [value])
    return defined newValue resultType [⟨value, operandType⟩]

/-- A conversion of `valueType` to the type a table gives for it, if it gives one. -/
def convert (op : Opcode) (targets : List (ClifType × ClifType)) (valueType : ClifType) :
    M δ Selection := do
  let value ← selectValue (values valueType)
  match targets.lookup valueType with
  | some target =>
      let newValue ← emitTyped target (.fixed op [value])
      return defined newValue target [⟨value, valueType⟩]
  | none => return none

/-- A conversion to `toType` from one of the types a table gives for it. -/
def convertFrom (op : Opcode) (sources : List (ClifType × List ClifType)) (message : String)
    (toType : ClifType) : M δ Selection := do
  match sources.lookup toType with
  | some fromTypes => unary values op (some toType) (← randomType fromTypes) toType
  | none => panicWith message

/-- A widening to `toType` from the type a table gives for it. -/
def widen (op : Opcode) (message : String) (toType : ClifType) : M δ Selection :=
  match ([(.i16x8, .i8x16), (.i32x4, .i16x8), (.i64x2, .i32x4)] :
      List (ClifType × ClifType)).lookup toType with
  | some fromType => unary values op none fromType toType
  | none => panicWith message

/-- The shifts and rotations. -/
def shift (op : Opcode) (mode : Mode) : M δ Selection := do
  let arg0ValueType ← chooseType mode.arg0Types
  let arg1ValueType ← chooseType mode.arg1Types
  let value ← selectValue (values arg0ValueType)
  let bitsNum ← selectValue (values arg1ValueType)
  let newValue ← emit (.fixed op [value, bitsNum])
  return defined newValue arg0ValueType [⟨value, arg0ValueType⟩, ⟨bitsNum, arg1ValueType⟩]

/-- `select` and `select_spectre_guard`. Both types come from the list of the first operand. -/
def selectOp (op : Opcode) (mode : Mode) : M δ Selection := do
  let controlValueType ← chooseType mode.arg0Types
  let controlValue ← selectValue (values controlValueType)
  let valueType ← chooseType mode.arg0Types
  let refValue1 ← selectValue (values valueType)
  let refValue2 ← selectValue (values valueType)
  let newValue ← emit (.fixed op [controlValue, refValue1, refValue2])
  return defined newValue valueType
    [⟨controlValue, controlValueType⟩, ⟨refValue1, valueType⟩, ⟨refValue2, valueType⟩]

/-- Additions and subtractions with a carry or borrow of type `i8`. -/
def carry (op : Opcode) (valueType : ClifType) : M δ Selection := do
  if (values valueType).isEmpty || (values .i8).isEmpty then
    return none
  else
    let x ← selectValue (values valueType)
    let y ← selectValue (values valueType)
    let carryIn ← selectValue (values .i8)
    let newValue ← emit (.fixed op [x, y, carryIn])
    return defined newValue valueType [⟨x, valueType⟩, ⟨y, valueType⟩, ⟨carryIn, .i8⟩]

end Shapes

/-! ## Memory -/

section Memory

/-- A load of a value of the given type from a random offset. -/
def loadFrom (op : Opcode) (addr : Value) (valueType : ClifType) : M δ Selection := do
  let offset ← genRange 0 10
  let newValue ← emitTyped valueType (.load op addr offset)
  return definedFresh newValue valueType

/-- The loads whose result type the opcode fixes. -/
def loadFixed (op : Opcode) (valueType : ClifType) : M δ Selection := do
  let addr ← randomStackAddr
  let offset ← genRange 0 10
  let newValue ← emit (.load op addr offset)
  return definedFresh newValue valueType

variable (values : ClifType → List Value) (mode : Mode)

/-- A store to offset `0`. -/
def storeTo (op : Opcode) (addr : Value) (valueType : ClifType) : M δ Selection := do
  let refValue ← selectValue (values valueType)
  let _ ← ins (.store op refValue addr 0)
  return some (none, some [⟨refValue, valueType⟩])

def atomicCas : M δ Selection := do
  let slot ← randomStackSlot
  let offset ← genRange 0 10
  let addr ← stackAddr slot offset
  let valueType ← chooseType mode.operandTypes
  match values valueType with
  | [] => return none
  | [refValue] =>
      let newValue ← emit (.fixed .atomicCas [addr, refValue, refValue])
      return defined newValue valueType [⟨refValue, valueType⟩]
  | candidates =>
      let firstValue ← selectValue candidates
      let secondValue ← selectValue candidates
      let newValue ← emit (.fixed .atomicCas [addr, firstValue, secondValue])
      return defined newValue valueType [⟨firstValue, valueType⟩, ⟨secondValue, valueType⟩]

def atomicRmw : M δ Selection := do
  let valueType ← chooseType mode.operandTypes
  let addr ← randomStackAddr
  let operandValue ← selectValue (values valueType)
  let newValue ← emitTyped valueType (.fixed .atomicRmw [addr, operandValue])
  return defined newValue valueType [⟨operandValue, valueType⟩]

def atomicLoad : M δ Selection := do
  let addr ← randomStackAddr
  let valueType ← chooseType mode.operandTypes
  let newValue ← emitTyped valueType (.fixed .atomicLoad [addr])
  return definedFresh newValue valueType

def atomicStore : M δ Selection := do
  let valueType ← chooseType mode.operandTypes
  let addr ← randomStackAddr
  let refValue ← selectValue (values valueType)
  let _ ← ins (.fixed .atomicStore [refValue, addr])
  return some (none, some [⟨refValue, valueType⟩])

def store : M δ Selection := do
  let addr ← randomStackAddr
  let valueType ← chooseType mode.operandTypes
  if (values valueType).isEmpty then
    return none
  else
    storeTo values .store addr valueType

def stackLoad : M δ Selection := do
  let valueType ← chooseType mode.operandTypes
  let slot ← randomStackSlot
  let newValue ← emitTyped valueType (.stackLoad .stackLoad slot 0)
  return definedFresh newValue valueType

def stackStore : M δ Selection := do
  let valueType ← chooseType mode.operandTypes
  if (values valueType).isEmpty then
    return none
  else
    let refValue ← selectValue (values valueType)
    let slot ← randomStackSlot
    let _ ← ins (.stackStore .stackStore refValue slot 0)
    return some (none, some [⟨refValue, valueType⟩])

def setPinnedReg : M δ Selection := do
  let addr ← randomStackAddr
  let _ ← ins (.fixed .setPinnedReg [addr])
  return none

end Memory

/-! ## The remaining arms -/

section Others

variable (values : ClifType → List Value) (mode : Mode)

def bitcast : M δ Selection := do
  let valueType ← chooseType mode.operandTypes
  let castedValue ← selectValue (values valueType)
  let castType ← bitcastTypeMapping valueType
  let newValue ← emitTyped castType (.fixed .bitcast [castedValue])
  return defined newValue castType [⟨castedValue, valueType⟩]

def bitselect : M δ Selection := do
  let controlValueType ← chooseType mode.operandTypes
  let controlValue ← selectValue (values controlValueType)
  let refValue1 ← selectValue (values controlValueType)
  let refValue2 ← selectValue (values controlValueType)
  let newValue ← emit (.fixed .bitselect [controlValue, refValue1, refValue2])
  return defined newValue controlValueType
    [⟨controlValue, controlValueType⟩, ⟨refValue1, controlValueType⟩,
      ⟨refValue2, controlValueType⟩]

def fma : M δ Selection := do
  let valueType ← chooseType mode.operandTypes
  if (values valueType).isEmpty then
    return none
  else
    let refValue1 ← chooseValue (values valueType)
    let refValue2 ← chooseValue (values valueType)
    let refValue3 ← chooseValue (values valueType)
    let newValue ← emit (.fixed .fma [refValue1, refValue2, refValue3])
    return defined newValue valueType
      [⟨refValue1, valueType⟩, ⟨refValue2, valueType⟩, ⟨refValue3, valueType⟩]

def insertlane : M δ Selection := do
  let valueType ← chooseType mode.operandTypes
  let laneType ← extractVectorType valueType
  if (values valueType).isEmpty then
    return none
  else
    let refValue ← chooseValue (values valueType)
    let insertedValue ← chooseValue (values laneType)
    let newValue ← emit (.fixed .insertlane [refValue, insertedValue])
    return defined newValue valueType [⟨refValue, valueType⟩, ⟨insertedValue, laneType⟩]

def isplit : M δ Selection := do
  let valueType ← chooseType mode.operandTypes
  if (values valueType).isEmpty then
    return none
  else
    match valueType.halfWidth with
    | none => return none
    | some outType => unary values .isplit none valueType outType

def iconst : M δ Selection := do
  let choice ← genRange 0 4
  let valueType : ClifType :=
    match choice with
    | 0 => .i8
    | 1 => .i16
    | 2 => .i32
    | _ => .i64
  let newValue ← emitTyped valueType (.fixed .iconst [])
  return definedFresh newValue valueType

/-- A constant whose type the opcode fixes. -/
def constant (op : Opcode) (valueType : ClifType) : M δ Selection := do
  let newValue ← emit (.fixed op [])
  return definedFresh newValue valueType

/-- The reads of a machine register. -/
def getRegister (op : Opcode) : M δ Selection := do
  let newValue ← emitTyped .i64 (.fixed op [])
  return definedFresh newValue .i64

/-- An instruction without operands and results. -/
def plain (op : Opcode) : M δ Selection := do
  let _ ← ins (.fixed op [])
  return none

/-- The arms that give up on an empty list of operand types. -/
def ifListed (arm : M δ Selection) : M δ Selection := do
  if (← unwrap mode.operandTypes).isEmpty then
    return none
  else
    arm

end Others

/-! ## The arms -/

/-- The recorded type of `icmp`. -/
def icmpType (valueType : ClifType) : ClifType :=
  if valueType ∈ [ClifType.i16x8, .i32x4, .i64x2] then valueType else .i8

/-- The recorded type of `fcmp`. -/
def fcmpType (valueType : ClifType) : ClifType :=
  (([(.f16x8, .i16x8), (.f32x4, .i32x4), (.f64x2, .i64x2)] :
    List (ClifType × ClifType)).lookup valueType).getD .i8

/-- The arm of an opcode. `cls` emits a `clz`. -/
def populateOpcode (values : ClifType → List Value) (mode : Mode) (op : Opcode) :
    M δ Selection := do
  match op with
  | .atomicCas => atomicCas values mode
  | .atomicRmw => atomicRmw values mode
  | .swizzle | .smin | .umin | .smax | .iadd | .imul | .smulhi | .udiv | .sdiv | .urem | .srem
  | .band | .bor | .bxor | .bandNot | .borNot | .bxorNot | .fadd | .fsub | .fmul | .fdiv
  | .fcopysign | .fmin | .fmax | .uaddOverflow | .saddOverflow | .usubOverflow | .ssubOverflow
  | .umulOverflow | .smulOverflow | .iaddPairwise | .uaddOverflowTrap =>
      binary values op some (← chooseType mode.operandTypes)
  | .umax | .avgRound | .uaddSat | .saddSat | .usubSat | .ssubSat | .isub | .umulhi
  | .sqmulRoundSat | .x86Pmulhrsw =>
      binaryRefNew values op some (← chooseType mode.operandTypes)
  | .x86Pshufb => ifListed mode do
      binary values op some (← chooseType mode.operandTypes)
  | .x86Pmaddubsw => ifListed mode do
      binaryRefNew values op (fun _ => some .i16x8) (← chooseType mode.operandTypes)
  | .snarrow | .uunarrow =>
      let narrowed := fun t => ([(.i16x8, .i8x16), (.i32x4, .i16x8), (.i64x2, .i32x4)] :
        List (ClifType × ClifType)).lookup t
      binary values op narrowed (← chooseType mode.operandTypes)
  | .unarrow =>
      let narrowed := fun t => ([(.i16x8, .i8x16), (.i32x4, .i16x8)] :
        List (ClifType × ClifType)).lookup t
      binary values op narrowed (← chooseType mode.operandTypes)
  | .iconcat =>
      let doubled := fun t => ([(.i64, .i128)] : List (ClifType × ClifType)).lookup t
      binary values op doubled (← chooseType mode.operandTypes)
  | .icmp => binary values op (fun t => some (icmpType t)) (← chooseType mode.operandTypes)
  | .fcmp => binary values op (fun t => some (fcmpType t)) (← chooseType mode.operandTypes)
  | .shuffle => binary values op (fun _ => some .i8x16) (← chooseType mode.operandTypes)
  | .rotl | .rotr | .ishl | .ushr | .sshr => shift values op mode
  | .iaddImm | .imulImm | .udivImm | .sdivImm | .uremImm | .sremImm | .irsubImm | .bandImm
  | .borImm | .bxorImm | .rotlImm | .rotrImm | .ishlImm | .ushrImm | .sshrImm | .sqrt | .fneg
  | .fabs | .ceil | .floor | .trunc | .nearest =>
      let valueType ← chooseType mode.operandTypes
      unary values op none valueType valueType
  | .icmpImm | .vanyTrue | .vallTrue =>
      unary values op none (← chooseType mode.operandTypes) .i8
  | .ineg | .iabs | .bnot | .bitrev | .clz | .ctz | .bswap | .popcnt =>
      unaryIfAny values op (← chooseType mode.operandTypes)
  | .cls => unaryIfAny values .clz (← chooseType mode.operandTypes)
  | .extractlane =>
      let valueType ← chooseType mode.operandTypes
      unaryUniform values op none valueType (← extractVectorType valueType)
  | .splat | .scalarToVector =>
      let valueType ← chooseType mode.operandTypes
      unaryUniform values op (some valueType) (← extractVectorType valueType) valueType
  | .insertlane => insertlane values mode
  | .vhighBits =>
      let valueType ← chooseType mode.operandTypes
      if (values valueType).isEmpty then
        return none
      else
        convert values op [(.i8x16, .i8), (.i16x8, .i16), (.i32x4, .i32), (.i64x2, .i64)] valueType
  | .bitcast => bitcast values mode
  | .bmask =>
      let targetValueType ← chooseType mode.arg0Types
      unary values op (some targetValueType) (← chooseType mode.arg1Types) targetValueType
  | .ireduce =>
      convertFrom values op [(.i8, [.i16, .i32, .i64]), (.i16, [.i32, .i64]), (.i32, [.i64])]
        "the from type of ireduce instr is unexpected!" (← chooseType mode.operandTypes)
  | .uextend | .sextend =>
      convertFrom values op [(.i16, [.i8]), (.i32, [.i8, .i16]), (.i64, [.i8, .i16, .i32]),
        (.i128, [.i8, .i16, .i32, .i64])]
        "the from type of ireduce instr is unexpected!" (← chooseType mode.operandTypes)
  | .swidenLow =>
      widen values op "the from value type of swidenlow instr is unexpected!"
        (← chooseType mode.operandTypes)
  | .swidenHigh | .uwidenLow | .uwidenHigh =>
      widen values op "the from value type of swidenhigh instr is unexpected!"
        (← chooseType mode.operandTypes)
  | .fpromote => unary values op (some .f64) .f32 .f64
  | .fdemote => unary values op (some .f32) .f64 .f32
  | .fvdemote => unary values op none .f64x2 .f32x4
  | .fvpromoteLow => unary values op none .f32x4 .f64x2
  | .fcvtToUint | .fcvtToSint =>
      convert values op [(.f32, .i32), (.f64, .i64)] (← chooseType mode.operandTypes)
  | .fcvtToUintSat | .fcvtToSintSat =>
      convert values op [(.f32, .i32), (.f64, .i64), (.f32x4, .i32x4), (.f64x2, .i64x2)]
        (← chooseType mode.operandTypes)
  | .x86Cvtt2dq => ifListed mode do
      convert values op [(.f32x4, .i32x4), (.f64x2, .i64x2)] (← chooseType mode.operandTypes)
  | .fcvtFromUint | .fcvtFromSint =>
      convert values op [(.i32, .f32), (.i64, .f64), (.i32x4, .f32x4), (.i64x2, .f64x2)]
        (← chooseType mode.operandTypes)
  | .isplit => isplit values mode
  | .select | .selectSpectreGuard => selectOp values op mode
  | .bitselect => bitselect values mode
  | .fma => fma values mode
  | .ssubOverflowBin | .usubOverflowBin | .uaddOverflowCin | .saddOverflowCin =>
      carry values op (← chooseType mode.operandTypes)
  | .load | .uload8 | .sload8 =>
      let addr ← randomStackAddr
      loadFrom op addr (← chooseType mode.operandTypes)
  | .uload16 | .sload16 =>
      let valueType ← chooseType mode.operandTypes
      loadFrom op (← randomStackAddr) valueType
  | .uload32 | .sload32 => loadFixed op .i64
  | .uload8x8 | .sload8x8 => loadFixed op .i16x8
  | .uload16x4 | .sload16x4 => loadFixed op .i32x4
  | .uload32x2 | .sload32x2 => loadFixed op .i64x2
  | .atomicLoad => atomicLoad mode
  | .stackLoad => stackLoad mode
  | .store => store values mode
  | .istore8 =>
      let addr ← randomStackAddr
      storeTo values op addr (← chooseType mode.operandTypes)
  | .istore16 | .istore32 =>
      let valueType ← chooseType mode.operandTypes
      storeTo values op (← randomStackAddr) valueType
  | .atomicStore => atomicStore values mode
  | .stackStore => stackStore values mode
  | .stackAddr =>
      let _ ← randomStackAddr
      return none
  | .setPinnedReg => setPinnedReg
  | .getPinnedReg | .getFramePointer | .getStackPointer | .getReturnAddress => getRegister op
  | .nop | .fence | .sequencePoint => plain op
  | .iconst => iconst
  | .f32const => constant op .f32
  | .f64const => constant op .f64
  | .f128const => constant op .f128
  | _ => return none

/-- `instr_mutation` -/
def instrMutation : M δ Opcode := do
  unwrap (← choose Opcode.all)

/-- What `populate_block_instructions` does with the opcode it has drawn. -/
def populateInstruction (values : ClifType → List Value) (config : ArchConfig)
    (instrOpcode : Opcode) : M δ Selection :=
  match config.instruction instrOpcode.name with
  | none => panicWith ("Instruction " ++ instrOpcode.name ++ " not found in config")
  | some instrConfig =>
      match instrConfig.modes with
      | none => return none
      | some modes => do
          let mode ← unwrap (← choose modes)
          populateOpcode values mode instrOpcode

/-- `populate_block_instructions` -/
def populateBlockInstructions (dominatorBlocks : List Block) (blockDominatorValues : ValueMap)
    (config : ArchConfig) : M δ Selection := do
  let instrOpcode ← instrMutation
  populateInstruction (getDominatorValuesWithType dominatorBlocks blockDominatorValues) config
    instrOpcode

end Clir
