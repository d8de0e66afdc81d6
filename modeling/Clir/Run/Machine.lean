import Clir.Ir.FlowGraph
import Clir.Ir.Memory

set_option autoImplicit false

/-! # The interpreter

The interpreter of the intermediate language as a machine that takes one step for each instruction.
A frame holds the function that runs, its registers, and the instruction it is at; a frame below
the top one is at the call it waits for. The stack slots of all frames lie in one array of bytes.

The values and the operations on them are a parameter (`Values`), and so is what an instruction
computes that neither branches nor calls nor accesses memory. All that the interpreter decides
itself is here: which registers it reads and writes, where it continues, how it enters and leaves
functions, and which bytes it accesses. Where it panics, asserts or returns an error, the machine
stops with the reason. Where it says `unimplemented!`, this is a reason of its own
(`Stop.unimplemented`), and an operation on values that panics is another one (`Fault.panic`). There
are no value aliases, no library calls and no tail calls in the functions it runs, and addresses
have 64 bits.
-/

namespace Clir

/-- The number of results of an instruction that is not a call. -/
def Opcode.resultCount : Opcode → ℕ
  | .jump | .brif | .brTable | .debugtrap | .trap | .trapz | .trapnz | .return_ | .returnCall
  | .returnCallIndirect | .tryCall | .tryCallIndirect | .store | .istore8 | .istore16 | .istore32
  | .stackStore | .dynamicStackStore | .setPinnedReg | .nop | .atomicStore | .fence
  | .sequencePoint => 0
  | .uaddOverflow | .saddOverflow | .usubOverflow | .ssubOverflow | .umulOverflow | .smulOverflow
  | .saddOverflowCin | .uaddOverflowCin | .ssubOverflowBin | .usubOverflowBin | .isplit => 2
  | _ => 1

/-- The opcodes that `step` answers with `unimplemented!`, before it reads an operand. -/
def Opcode.isUnimplemented : Opcode → Bool
  | .uload8x8 | .sload8x8 | .uload16x4 | .sload16x4 | .uload32x2 | .sload32x2 | .dynamicStackAddr
  | .dynamicStackLoad | .dynamicStackStore | .extractVector | .getFramePointer | .getStackPointer
  | .getReturnAddress | .x86Pshufb | .blendv | .x86Pmulhrsw | .x86Pmaddubsw | .x86Cvtt2dq
  | .stackSwitch | .tryCall | .tryCallIndirect | .getExceptionHandlerAddress
  | .sequencePoint => true
  | _ => false

end Clir

namespace Clir.Interpreter

/-- How an operation on values fails: it traps, it does not apply to the values it is given, or it
panics, as it does on values that it is not implemented for. -/
inductive Fault
  | trap
  | valueError
  | panic
  deriving DecidableEq, Repr

/-- What the interpreter does not implement: an opcode, or accesses to another region than the
stack. -/
inductive Unimplemented
  | opcode (op : Opcode)
  | region
  deriving DecidableEq, Repr

/-- `MemoryError` -/
inductive MemoryError
  | invalidAddressType
  | invalidOffset
  | outOfBoundsLoad
  | outOfBoundsStore
  deriving DecidableEq, Repr

/-- Why the interpretation stops without a result. -/
inductive Stop
  | fault (f : Fault)
  | unimplemented (what : Unimplemented)
  | badSignature
  | memory (e : MemoryError)
  | unknownFunctionName (name : FuncName)
  | unknownFunction (r : FuncRef)
  | unreachable
  | panic (message : String)
  deriving DecidableEq, Repr

/-- The values of the interpreter, and the operations on them. An instruction computes a value for
each of its results, and an address is read back from the value that holds it. -/
structure Values (D : Type) where
  /-- `DataValue::ty` -/
  ty : D → ClifType
  beq : D → D → Bool
  /-- `convert(ToBoolean)` and `into_bool` -/
  intoBool : D → Except Fault Bool
  intoIntUnsigned : D → Except Fault ℕ
  /-- `convert(ZeroExtend(I64))` and `into_int_unsigned` -/
  zeroExtend : D → Except Fault ℕ
  /-- An address of 64 bits as a value. -/
  ofAddress : ℕ → D
  /-- `read_from_slice` -/
  read : ClifType → List UInt8 → Except Fault D
  /-- `write_to_slice` -/
  write : D → List UInt8
  /-- The extension of a narrow load to the given type. -/
  extend : Opcode → ClifType → D → Except Fault D
  /-- The truncation for a narrow store. -/
  truncate : Opcode → D → Except Fault D
  /-- The operation of an `atomic_rmw`. -/
  rmw : Function → Inst → D → D → Except Fault D
  /-- What an instruction computes from its operands. -/
  compute : Function → Inst → List D → Except Fault (List D)
  write_length : ∀ d, (write d).length = (ty d).bytes
  zeroExtend_ofAddress : ∀ a < 2 ^ 64, zeroExtend (ofAddress a) = .ok a
  intoIntUnsigned_ofAddress : ∀ a < 2 ^ 64, intoIntUnsigned (ofAddress a) = .ok a
  compute_length : ∀ f i args values, compute f i args = .ok values →
    values.length = (f.instData i).opcode.resultCount

variable {D : Type}

/-- Failures of operations stop the interpretation. -/
def lift {α : Type} : Except Fault α → Except Stop α := Except.mapError .fault

/-! ## Frames -/

structure Frame (D : Type) where
  function : Function
  registers : Value → Option D
  inst : Option Inst

namespace Frame

/-- `Frame::new` -/
def new (function : Function) : Frame D := ⟨function, fun _ => none, none⟩

/-- `get` -/
def get (fr : Frame D) (name : Value) : Except Stop D :=
  if name < fr.function.dfg.values.len then
    match fr.registers name with
    | some value => .ok value
    | none => .error (.panic "empty slot")
  else
    .error (.panic "assertion failed: name.index() < self.registers.len()")

/-- `get_all` and `collect_values` -/
def getAll (fr : Frame D) (names : List Value) : Except Stop (List D) := names.mapM fr.get

/-- `set` -/
def set (fr : Frame D) (name : Value) (value : D) : Except Stop (Frame D) :=
  if name < fr.function.dfg.values.len then
    .ok { fr with registers := Function.update fr.registers name (some value) }
  else
    .error (.panic "assertion failed: name.index() < self.registers.len()")

/-- `set_all` -/
def setAll (fr : Frame D) (names : List Value) (values : List D) : Except Stop (Frame D) :=
  if names.length = values.length then
    (names.zip values).foldlM (fun fr nv => fr.set nv.1 nv.2) fr
  else
    .error (.panic "assertion failed: names.len() == values.len()")

/-- Continue at an instruction, if there is one. -/
def goto (fr : Frame D) (inst : Option Inst) : Frame D := { fr with inst := inst }

end Frame

/-- `next_inst` -/
def nextInst (layout : Layout) (inst : Inst) : Option Inst :=
  (layout.instBlock inst).bind fun b => ListEdit.next inst (layout.insts b)

/-! ## The state -/

/-- `InterpreterState`. The current frame is the first one. -/
structure State (D : Type) where
  frames : List (Frame D)
  frameOffset : ℕ
  stack : List UInt8
  pinnedReg : D

/-- The sizes of the stack slots below a slot, summed up. -/
def slotOffset (f : Function) (slot : StackSlot) : ℕ :=
  (List.range slot).foldl (fun sum k => sum + f.sizedStackSlots.get k) 0

/-- `fixed_stack_size` -/
def fixedStackSize (f : Function) : ℕ := slotOffset f f.sizedStackSlots.len

namespace State

/-- `push_frame` -/
def pushFrame (st : State D) (function : Function) : State D where
  frames := .new function :: st.frames
  frameOffset :=
    match st.frames with
    | [] => st.frameOffset
    | fr :: _ => st.frameOffset + fixedStackSize fr.function
  stack := st.stack ++ List.replicate (fixedStackSize function) 0
  pinnedReg := st.pinnedReg

/-- `pop_frame` -/
def popFrame (st : State D) : State D :=
  match st.frames with
  | [] => st
  | fr :: rest =>
      { st with
        frames := rest
        stack := st.stack.take (st.stack.length - fixedStackSize fr.function)
        frameOffset :=
          match rest with
          | [] => st.frameOffset
          | caller :: _ => st.frameOffset - fixedStackSize caller.function }

/-- `stack_address` -/
def stackAddress (st : State D) (f : Function) (slot : StackSlot) (offset : ℕ) :
    Except Stop ℕ :=
  match f.sizedStackSlots.get? slot with
  | none => .error (.panic "index out of bounds")
  | some size =>
      let finalOffset := st.frameOffset + slotOffset f slot + offset
      if size ≤ offset then
        .error (.memory .invalidOffset)
      else if 2 ^ 62 ≤ finalOffset then
        .error (.memory .invalidOffset)
      else
        .ok finalOffset

/-- `checked_load` -/
def checkedLoad (V : Values D) (st : State D) (addr : ℕ) (ty : ClifType) : Except Stop D :=
  if st.stack.length < addr + ty.bytes then
    .error (.memory .outOfBoundsLoad)
  else
    lift (V.read ty ((st.stack.drop addr).take ty.bytes))

/-- `checked_store` -/
def checkedStore (V : Values D) (st : State D) (addr : ℕ) (value : D) : Except Stop (State D) :=
  if st.stack.length < addr + (V.ty value).bytes then
    .error (.memory .outOfBoundsStore)
  else
    .ok { st with
      stack := st.stack.take addr ++ V.write value ++ st.stack.drop (addr + (V.ty value).bytes) }

end State

/-- `Address::try_from` of a `u64`: what fits 32 bits is taken for an address of 32 bits. Accesses
to other regions than the stack are not implemented. -/
def stackRegion (value : ℕ) : Except Stop ℕ :=
  if value < 2 ^ 30 ∨ (2 ^ 32 ≤ value ∧ value < 2 ^ 62) then .ok value
  else .error (.unimplemented .region)

namespace State

/-- The load through an address that has been calculated. -/
def loadAt (V : Values D) (st : State D) (value : ℕ) (ty : ClifType) : Except Stop D := do
  st.checkedLoad V (← stackRegion value) ty

/-- The store through an address that has been calculated. -/
def storeAt (V : Values D) (st : State D) (value : ℕ) (d : D) : Except Stop (State D) := do
  st.checkedStore V (← stackRegion value) d

end State

/-- `calculate_addr` of an offset and an address. -/
def calculateAddr (V : Values D) (offset : ℕ) (addr : D) : Except Stop ℕ := do
  return (offset + (← lift (V.zeroExtend addr))) % 2 ^ 64

/-! ## One instruction -/

/-- `ControlFlow` -/
inductive ControlFlow (D : Type)
  | assign (values : List D)
  | continue_
  | continueAt (block : Block) (args : List D)
  | call (callee : Function) (args : List D)
  | returned (values : List D)

/-- `validate_signature_params`. The types of vectors are not told apart. -/
def validateSignatureParams (V : Values D) (sig : List ClifType) (args : List D) : Bool :=
  ((args.map V.ty).zip sig).all fun p => p.1.isVector && p.2.isVector || p.1 == p.2

/-- `unreachable!` -/
def unreachableCode : Stop := .panic "internal error: entered unreachable code"

/-- The type that a load reads, before it is extended. -/
def loadType (op : Opcode) (ctrl : ClifType) : Except Stop ClifType :=
  match op with
  | .load => .ok ctrl
  | .uload8 | .sload8 => .ok .i8
  | .uload16 | .sload16 => .ok .i16
  | .uload32 | .sload32 => .ok .i32
  | .uload8x8 | .sload8x8 | .uload16x4 | .sload16x4 | .uload32x2 | .sload32x2 =>
      .error (.unimplemented (.opcode op))
  | _ => .error unreachableCode

/-- The value that a store writes. -/
def storeValue (V : Values D) (op : Opcode) (value : D) : Except Stop D :=
  match op with
  | .store => .ok value
  | .istore8 | .istore16 | .istore32 => lift (V.truncate op value)
  | _ => .error unreachableCode

section Step

variable (V : Values D) (functions : List Function) (st : State D) (fr : Frame D)

/-- `continue_at` -/
def continueAt (dest : BlockCall) : Except Stop (ControlFlow D × State D) := do
  return (.continueAt dest.block (← fr.getAll dest.args), st)

/-- The call of a function that is named by a reference. -/
def stepCall (r : FuncRef) (args : List Value) : Except Stop (ControlFlow D × State D) := do
  match fr.function.extFuncs.get? r with
  | none => .error (.unknownFunction r)
  | some extData =>
      let args ← fr.getAll args
      match functions.find? fun f => f.name = extData.name with
      | none => .error (.unknownFunction r)
      | some callee =>
          if validateSignatureParams V callee.signature.params args then
            return (.call callee args, st)
          else
            .error .badSignature

/-- The loads through an address. -/
def stepLoad (op : Opcode) (ctrl : ClifType) (arg : Value) (offset : ℕ) :
    Except Stop (ControlFlow D × State D) := do
  let loadTy ← loadType op ctrl
  let addr ← calculateAddr V offset (← fr.get arg)
  let loaded ← st.loadAt V addr loadTy
  return (.assign [← if op = .load then .ok loaded else lift (V.extend op ctrl loaded)], st)

/-- The stores through an address. -/
def stepStore (op : Opcode) (arg addr : Value) (offset : ℕ) :
    Except Stop (ControlFlow D × State D) := do
  let addr ← calculateAddr V offset (← fr.get addr)
  let reduced ← storeValue V op (← fr.get arg)
  return (.continue_, ← st.storeAt V addr reduced)

/-- `stack_load` and `stack_addr` -/
def stepStackLoad (op : Opcode) (resultTy : ClifType) (slot : StackSlot) (offset : ℕ) :
    Except Stop (ControlFlow D × State D) :=
  match op with
  | .stackLoad => do
      let addr ← st.stackAddress fr.function slot offset
      return (.assign [← st.checkedLoad V addr resultTy], st)
  | .stackAddr =>
      if resultTy = .i64 then do
        return (.assign [V.ofAddress (← st.stackAddress fr.function slot offset)], st)
      else
        .error (.memory .invalidAddressType)
  | _ => .error unreachableCode

/-- `stack_store` -/
def stepStackStore (op : Opcode) (arg : Value) (slot : StackSlot) (offset : ℕ) :
    Except Stop (ControlFlow D × State D) :=
  match op with
  | .stackStore => do
      let value ← fr.get arg
      let addr ← st.stackAddress fr.function slot offset
      return (.continue_, ← st.checkedStore V addr value)
  | _ => .error unreachableCode

/-- The address that an atomic instruction accesses. -/
def atomicAddr (addr : Value) : Except Stop ℕ := do
  return (← lift (V.intoIntUnsigned (← fr.get addr))) % 2 ^ 64

def stepAtomicRmw (i : Inst) (addr arg : Value) : Except Stop (ControlFlow D × State D) := do
  let value ← fr.get arg
  let addr ← atomicAddr V fr addr
  let previous ← st.loadAt V addr (fr.function.resultType i)
  let replace ← lift (V.rmw fr.function i previous value)
  return (.assign [previous], ← st.storeAt V addr replace)

def stepAtomicCas (addr expected arg : Value) : Except Stop (ControlFlow D × State D) := do
  let addr ← atomicAddr V fr addr
  let loaded ← st.loadAt V addr (fr.function.valueType arg)
  let expected ← fr.get expected
  if V.beq loaded expected then
    return (.assign [loaded], ← st.storeAt V addr (← fr.get arg))
  else
    return (.assign [loaded], st)

def stepAtomicLoad (i : Inst) (addr : Value) : Except Stop (ControlFlow D × State D) := do
  let addr ← atomicAddr V fr addr
  return (.assign [← st.loadAt V addr (fr.function.resultType i)], st)

def stepAtomicStore (arg addr : Value) : Except Stop (ControlFlow D × State D) := do
  let value ← fr.get arg
  let addr ← atomicAddr V fr addr
  return (.continue_, ← st.storeAt V addr value)

/-- All other instructions compute their results from their operands. -/
def stepCompute (i : Inst) (args : List Value) : Except Stop (ControlFlow D × State D) := do
  return (.assign (← lift (V.compute fr.function i (← fr.getAll args))), st)

/-- The instructions that have nothing but operands. -/
def stepFixed (i : Inst) (op : Opcode) (args : List Value) :
    Except Stop (ControlFlow D × State D) :=
  match op, args with
  | .atomicRmw, [addr, arg] => stepAtomicRmw V st fr i addr arg
  | .atomicCas, [addr, expected, arg] => stepAtomicCas V st fr addr expected arg
  | .atomicLoad, [addr] => stepAtomicLoad V st fr i addr
  | .atomicStore, [arg, addr] => stepAtomicStore V st fr arg addr
  | .getPinnedReg, _ => .ok (.assign [st.pinnedReg], st)
  | .setPinnedReg, [arg] => do
      return (.continue_, { st with pinnedReg := ← fr.get arg })
  | .nop, _ | .fence, _ => .ok (.continue_, st)
  | _, args => stepCompute V st fr i args

/-- The instructions that are implemented. -/
def stepImplemented (i : Inst) : Except Stop (ControlFlow D × State D) :=
  match fr.function.instData i with
  | .jump dest => continueAt st fr dest
  | .brif arg blockThen blockElse => do
      let condition ← lift (V.intoBool (← fr.get arg))
      continueAt st fr (if condition then blockThen else blockElse)
  | .branchTable arg table =>
      match fr.function.dfg.jumpTables.get? table with
      | none => .error (.panic "index out of bounds")
      | some jtData => do
          let index ← lift (V.intoIntUnsigned (← fr.get arg))
          continueAt st fr ((jtData.table[index]?).getD jtData.defaultBlock)
  | .call r args => stepCall V functions st fr r args
  | .multiAry op args =>
      if op = .return_ then do
        return (.returned (← fr.getAll args), st)
      else
        stepCompute V st fr i args
  | .load op arg offset => stepLoad V st fr op (fr.function.resultType i) arg offset
  | .store op arg addr offset => stepStore V st fr op arg addr offset
  | .stackLoad op slot offset => stepStackLoad V st fr op (fr.function.resultType i) slot offset
  | .stackStore op arg slot offset => stepStackStore V st fr op arg slot offset
  | .fixed op args => stepFixed V st fr i op args

/-- `step` -/
def step (i : Inst) : Except Stop (ControlFlow D × State D) :=
  let op := (fr.function.instData i).opcode
  if op.isUnimplemented then
    .error (.unimplemented (.opcode op))
  else
    stepImplemented V functions st fr i

end Step

/-! ## The loop -/

/-- `Interpreter::call` -/
def call (st : State D) (function : Function) (args : List D) : Except Stop (State D) := do
  match function.layout.blocks.head? with
  | none => .error (.panic "to have a first block")
  | some firstBlock =>
      let st := st.pushFrame function
      let fr ← (Frame.new function).setAll (function.blockParams firstBlock) args
      return { st with frames := fr.goto (function.layout.firstInst firstBlock) :: st.frames.tail }

/-- What the interpretation has come to. -/
inductive Status (D : Type)
  | running (st : State D)
  | returned (values : List D)

section Run

variable (V : Values D) (functions : List Function)

/-- A function returns: its frame is left, and the call it was entered by gets its results. -/
def return_ (st : State D) (values : List D) : Except Stop (Status D) :=
  match st.popFrame.frames with
  | [] => .ok (.returned values)
  | caller :: rest =>
      match caller.inst with
      | none => .error .unreachable
      | some inst => do
          let layout := caller.function.layout
          let caller ← caller.setAll (caller.function.dfg.results inst) values
          return .running { st.popFrame with frames := caller.goto (nextInst layout inst) :: rest }

/-- One round of the loop of `Interpreter::block`. -/
def advance (st : State D) : Except Stop (Status D) :=
  match st.frames with
  | [] => .error (.panic "unable to retrieve the current frame because no frames were pushed")
  | fr :: rest =>
      match fr.inst with
      | none => .error .unreachable
      | some inst => do
          let layout := fr.function.layout
          let (flow, st) ← step V functions st fr inst
          match flow with
          | .assign values =>
              let fr ← fr.setAll (fr.function.dfg.results inst) values
              return .running { st with frames := fr.goto (nextInst layout inst) :: rest }
          | .continue_ =>
              return .running { st with frames := fr.goto (nextInst layout inst) :: rest }
          | .continueAt block args =>
              let fr ← fr.setAll (fr.function.blockParams block) args
              return .running { st with frames := fr.goto (layout.firstInst block) :: rest }
          | .call callee args => return .running (← call st callee args)
          | .returned values => return_ st values

/-- The interpretation with the given fuel. It is still running when the fuel is exhausted. -/
def run : ℕ → State D → Except Stop (Status D)
  | 0, st => .ok (.running st)
  | fuel + 1, st => do
      match ← advance V functions st with
      | .running st => run fuel st
      | .returned values => return .returned values

/-- `call_by_name`, from the default state. -/
def callByName (name : FuncName) (args : List D) (pinnedReg : D) (fuel : ℕ) :
    Except Stop (Status D) :=
  match functions.find? fun f => f.name = name with
  | none => .error (.unknownFunctionName name)
  | some f => do run V functions fuel (← call ⟨[], 0, [], pinnedReg⟩ f args)

end Run

/-! ## The function store -/

/-- `FunctionStore::add` -/
def addFunction (functions : List Function) (f : Function) : Except Stop (List Function) :=
  if f.name ∈ functions.map Function.name then
    .error (.panic "assertion failed: !self.function_names.contains_key(&name)")
  else
    .ok (functions ++ [f])

/-- Interpret a program, from the function of the given name. -/
def interpret (V : Values D) (program : List Function) (name : FuncName) (args : List D)
    (pinnedReg : D) (fuel : ℕ) : Except Stop (Status D) := do
  callByName V (← program.foldlM addFunction []) name args pinnedReg fuel

end Clir.Interpreter
