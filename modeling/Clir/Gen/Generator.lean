import Clir.Gen.Populate

set_option autoImplicit false

/-! # The function generator

`function_generator` fills a control flow skeleton. It visits the blocks in depth first order and
emits instructions into each, with a condition for the branch that ends it. A second pass gives
parameters to the blocks with two or more predecessors, passes arguments along the branches to
them, and rewrites operands to the new parameters. The last block gets a return.
-/

namespace Clir

open Cmd Cursor

/-! ## Helpers -/

/-- `choose_multiple`: up to `n` elements at different places of the list. -/
def chooseMultiple {σ α : Type} : ℕ → List α → Cmd σ (List α)
  | 0, _ => return []
  | n + 1, l => do
      if l.isEmpty then
        return []
      else
        let i ← genRange 0 l.length
        let a ← unwrap l[i]?
        return a :: (← chooseMultiple n (l.eraseIdx i))

/-- `generate_random_signature` -/
def generateRandomSignature {σ : Type} (candidateTypes : List ClifType) (typesNum : ℕ)
    (isRootFunc : Bool) : Cmd σ Signature := do
  let params ← if isRootFunc then pure [] else chooseMultiple typesNum candidateTypes
  let returns ← chooseMultiple typesNum candidateTypes
  return ⟨params, returns⟩

/-- `create_sized_stack_slot`; the new slot is `f.sizedStackSlots.len`. -/
def Function.createSizedStackSlot (f : Function) (size : ℕ) : Function :=
  { f with sizedStackSlots := f.sizedStackSlots.push size }

/-- Change the signature. -/
def Function.withSignature (f : Function) (signature : Signature) : Function :=
  { f with signature := signature }

variable {δ : Type}

def createSizedStackSlot (size : ℕ) : M δ StackSlot := do
  let f ← func
  setFunc (f.createSizedStackSlot size)
  return f.sizedStackSlots.len

/-- `current_inst`, which must be there. -/
def currentInst : M δ Inst := do
  match ← position with
  | .at_ i => return i
  | _ => panicWith "called Option::unwrap() on a None value"

/-- The dominators of a block, if they are known. -/
def dominatorsOf (dominators : BlockMap (List Block)) (b : Block) : List Block :=
  (dominators.lookup b).getD []

/-- The values of a type that a block may use. -/
def valuesFor (dominators : BlockMap (List Block)) (b : Block) (ty : ClifType) :
    M Locals (List Value) := do
  return getDominatorValuesWithType (dominatorsOf dominators b) (← locals).blockDefValues ty

/-! ## Filling a block -/

/-- `def_values.insert` -/
def insertDef (tv : TypedValue) : M Locals Unit := do
  let x ← locals
  setLocals { x with defValues := x.defValues.insert tv }

/-- `ref_values.insert` of a list of values. -/
def insertRefs (tvs : List TypedValue) : M Locals Unit := do
  let x ← locals
  setLocals { x with refValues := tvs.foldl (fun refs tv => refs.insert tv) x.refValues }

/-- `block_def_values.insert` of the values defined so far. -/
def publishDefs (b : Block) : M Locals Unit := do
  let x ← locals
  setLocals { x with blockDefValues := x.blockDefValues.insert b x.defValues }

/-- `block_ref_values.insert` of the values used so far. -/
def publishRefs (b : Block) : M Locals Unit := do
  let x ← locals
  setLocals { x with blockRefValues := x.blockRefValues.insert b x.refValues }

/-- `gen_scalar_constant` -/
def genScalarConstant (valueType : ClifType) : M δ Value := do
  if valueType ∈ [ClifType.i8, .i16, .i32, .i64] then
    emitTyped valueType (.fixed .iconst [])
  else if valueType = .i128 then
    let v64 ← emitTyped .i64 (.fixed .iconst [])
    emitTyped .i128 (.fixed .uextend [v64])
  else if valueType = .f16 then
    emit (.fixed .f16const [])
  else if valueType = .f32 then
    emit (.fixed .f32const [])
  else if valueType = .f64 then
    emit (.fixed .f64const [])
  else
    panicWith "Unsupported scalar type in gen_scalar_constant"

/-- A constant of an operand type. -/
def genConstant (valueType : ClifType) : M δ Value :=
  if valueType ∈ [ClifType.i8, .i16, .i32, .i64, .i128, .f16, .f32, .f64] then
    genScalarConstant valueType
  else if valueType ∈ [ClifType.i8x16, .i16x8, .i32x4, .i64x2, .f16x8, .f32x4, .f64x2] then
    emitTyped valueType (.fixed .vconst [])
  else
    panicWith "Unsupported operand type"

/-- The parameters of the entry block; the types they cover need no constant. -/
def seedParams (node : Block) : List ClifType → List OperandType → M Locals (List OperandType)
  | [], operandTypes => return operandTypes
  | paramType :: rest, operandTypes => do
      let paramValue ← appendBlockParam node paramType
      insertDef ⟨paramValue, paramType⟩
      seedParams node rest (operandTypes.filter fun t => t.toCraneliftType ≠ paramType)

/-- The start of the entry block: parameters, two stack slots, constants, and stores that write
every byte of the slots. -/
def seedEntry (node : Block) (params : List ClifType) (config : ArchConfig) : M Locals Unit := do
  let operandTypes ← seedParams node params config.operandTypes
  let ss0 ← createSizedStackSlot 32
  let ss1 ← createSizedStackSlot 32
  operandTypes.forM fun operandType => do
    let valueType := operandType.toCraneliftType
    let randomValue ← genConstant valueType
    insertDef ⟨randomValue, valueType⟩
  let ss0Addr ← stackAddr ss0 0
  let ss1Addr ← stackAddr ss1 0
  let i64Value ← unwrap (← choose ((← locals).defValues.filter fun tv => tv.ty = .i64))
  (List.range 4).forM fun i => do
    let _ ← ins (.store .store i64Value.value ss0Addr (i * 8))
    let _ ← ins (.store .store i64Value.value ss1Addr (i * 8))
  publishDefs node

/-- One call of `populate_block_instructions`, and what is kept of its result. -/
def populateOnce (dominatorBlocks : List Block) (config : ArchConfig) : M Locals Unit := do
  match ← populateBlockInstructions dominatorBlocks (← locals).blockDefValues config with
  | none => return ()
  | some (newValue, refValues) =>
      if let some values := refValues then insertRefs values
      if let some tv := newValue then insertDef tv

/-- Write a new condition into the branch of a block, and drop the parameter that stood for it. -/
def replaceCondition (dominatorBlocks : List Block) (node : Block) (lastInstr : Inst)
    (data : Value → InstructionData) : M Locals Unit := do
  let condValue ← getRandomCondValue dominatorBlocks (← locals).blockDefValues
  setFunc ((← func).replaceInst lastInstr (data condValue))
  match (← func).blockParams node with
  | [] => return ()
  | param :: _ => removeBlockParam param

/-- The condition of the branch that ends a block. -/
def setCondition (dominatorBlocks : List Block) (node : Block) : M Locals Unit := do
  let lastInstr ← currentInst
  match (← func).instData lastInstr with
  | .brif _ blockThen blockElse =>
      replaceCondition dominatorBlocks node lastInstr fun v => .brif v blockThen blockElse
  | .branchTable _ table =>
      replaceCondition dominatorBlocks node lastInstr fun v => .branchTable v table
  | _ => return ()

/-- The instructions of a block, and what they define and use. Each snippet has twenty entries. -/
def populateNode (config : ArchConfig) (dominatorBlocks : List Block) (node : Block) :
    M Locals Unit := do
  (List.range 20).forM fun _ => populateOnce dominatorBlocks config
  publishDefs node
  publishRefs node

/-- The visit of a block up to its condition. -/
def enterBlock (config : ArchConfig) (params : List ClifType) (dominators : BlockMap (List Block))
    (isFirst : Bool) (node : Block) : M Locals Unit := do
  gotoFirstInsertionPoint node
  setLocals { (← locals) with defValues := [], refValues := [] }
  if isFirst then seedEntry node params config
  let _ ← genRange 0 5
  populateNode config (dominatorsOf dominators node) node
  if ((← func).layout.lastInst node).isNone then
    let _ ← ins (.fixed .nop [])

/-- The visit of a block in the first pass. -/
def fillBlock (config : ArchConfig) (params : List ClifType) (dominators : BlockMap (List Block))
    (isFirst : Bool) (node : Block) : M Locals Unit := do
  enterBlock config params dominators isFirst node
  gotoLastInst node
  setCondition (dominatorsOf dominators node) node

/-! ## Join parameters -/

/-- `get_value_type_intersection`: the types of the reference values of the first block that each of
the other blocks has defined a value of. `none` is a panic. -/
def getValueTypeIntersection (blocks : List Block) (blockDefValues blockRefValues : ValueMap) :
    Option (List ClifType) :=
  match blocks with
  | [] => none
  | node :: preBlocks => do
      let refValues ← blockRefValues.lookup node
      preBlocks.foldlM (fun types preBlock => do
        let defValues ← blockDefValues.lookup preBlock
        return types.filter fun t => t ∈ defValues.map TypedValue.ty)
        (refValues.map TypedValue.ty).dedup

/-- The types a join block may have parameters of. `get_value_type_intersection` is called with the
block alone: the predecessors are mapped lazily and never reach the list. -/
def joinTypes (node : Block) : M Locals (List ClifType) := do
  let x ← locals
  unwrap (getValueTypeIntersection [node] x.blockDefValues x.blockRefValues)

/-- A new parameter of a join block, recorded as one of its values. -/
def addJoinParam (node : Block) (paramType : ClifType) : M Locals Value := do
  let paramValue ← appendBlockParam node paramType
  let x ← locals
  let nodeDefValues ← unwrap (x.blockDefValues.lookup node)
  setLocals { x with
    blockDefValues := x.blockDefValues.insert node (nodeDefValues.insert ⟨paramValue, paramType⟩) }
  return paramValue

/-- One value of each type that the block `preBlock` may use. -/
def selectArgs (dominators : BlockMap (List Block)) (preBlock : Block) (types : List ClifType) :
    M Locals (List Value) :=
  types.mapM fun ty => do selectValue (← valuesFor dominators preBlock ty)

/-- One entry of a jump table: the arguments of earlier entries come first. -/
def passToEntry (node : Block) (args : M Locals (List Value)) (sofar : List Value)
    (c : BlockCall) : M Locals (BlockCall × List Value) := do
  if c.block = node then
    let sofar := sofar ++ (← args)
    return (⟨c.block, sofar⟩, sofar)
  else
    return (c, sofar)

def passToEntries (node : Block) (args : M Locals (List Value)) :
    List Value → List BlockCall → M Locals (List BlockCall)
  | _, [] => return []
  | sofar, c :: cs => do
      let (c, sofar) ← passToEntry node args sofar c
      return c :: (← passToEntries node args sofar cs)

/-- The arguments that one predecessor passes to a join block. -/
def passArgs (dominators : BlockMap (List Block)) (node : Block) (types : List ClifType)
    (preBlock : Block) : M Locals Unit := do
  gotoLastInst preBlock
  let lastInstr ← currentInst
  let args := selectArgs dominators preBlock types
  match (← func).instData lastInstr with
  | .jump destination =>
      let blockArgs ← args
      setFunc ((← func).replaceInst lastInstr (.jump ⟨destination.block, blockArgs⟩))
  | .brif arg blockThen blockElse =>
      let blockArgs ← args
      if blockElse.block = node then
        setFunc ((← func).replaceInst lastInstr
          (.brif arg blockThen ⟨blockElse.block, blockArgs⟩))
      else
        setFunc ((← func).replaceInst lastInstr
          (.brif arg ⟨blockThen.block, blockArgs⟩ blockElse))
  | .branchTable _ k =>
      let table := (← func).dfg.jumpTables.get k
      let (defaultBlock, sofar) ← passToEntry node args [] table.defaultBlock
      let entries ← passToEntries node args sofar table.table
      setFunc ((← func).setJumpTable k ⟨defaultBlock, entries⟩)
  | _ =>
      panicWith "A block has successors, but the last instruction is not a branch instruction"

/-! ## Operand rewriting -/

/-- The opcodes whose operands are left alone. -/
def keepsOperands : Opcode → Bool
  | .load | .store | .uload8 | .sload8 | .istore8 | .uload16 | .sload16 | .istore16 | .uload32
  | .sload32 | .istore32 | .uload8x8 | .sload8x8 | .uload16x4 | .sload16x4 | .uload32x2
  | .sload32x2 | .stackLoad | .stackStore | .dynamicStackLoad | .dynamicStackStore | .atomicLoad
  | .atomicStore | .atomicRmw | .atomicCas => true
  | _ => false

/-- Offer each candidate of the operand's type in turn; it is taken when a draw out of ten is
below `limit`. -/
def rewriteArg (limit : ℕ) (typeOf : Value → ClifType) :
    List (ClifType × Value) → Value → M δ Value
  | [], arg => return arg
  | (ty, candidate) :: rest, arg => do
      if ty = typeOf arg then
        if (← genRange 0 10) < limit then
          rewriteArg limit typeOf rest candidate
        else
          rewriteArg limit typeOf rest arg
      else
        rewriteArg limit typeOf rest arg

/-- Rewrite the operands of an instruction to join parameters. The type of an operand is read
once. Operands in the value list pool are rewritten in a copy that is dropped. -/
def rewriteInst (candidates : List (ClifType × Value)) (inst : Inst) : M δ Unit := do
  let f ← func
  let instrData := f.instData inst
  if keepsOperands instrData.opcode then
    return ()
  else
    let args ← instrData.arguments.mapM fun arg =>
      rewriteArg 3 (fun _ => f.valueType arg) candidates arg
    if instrData.argumentsInPool then
      return ()
    else
      setFunc (f.replaceInst inst (instrData.withArguments args))

/-- The instructions behind the cursor, `fuel` of them at most. -/
def rewriteInsts (candidates : List (ClifType × Value)) : ℕ → M δ Unit
  | 0 => return ()
  | fuel + 1 => do
      match ← nextInst with
      | none => return ()
      | some inst =>
          rewriteInst candidates inst
          rewriteInsts candidates fuel

/-- The parameters of a join block, and what its predecessors pass for them. The parameters are the
candidates for the operands of the block. -/
def appendJoinParams (dominators : BlockMap (List Block)) (node : Block) (preBlocks : List Block) :
    M Locals (List (ClifType × Value)) := do
  let types ← joinTypes node
  let blockParamsType ← chooseMultiple types.length types
  let blockParams ← blockParamsType.mapM (addJoinParam node)
  preBlocks.forM (passArgs dominators node blockParamsType)
  return blockParamsType.zip blockParams

/-- The loop that rewrites the operands of a join block. -/
def substitute (candidates : List (ClifType × Value)) (node : Block) : M Locals Unit := do
  gotoFirstInst node
  rewriteInsts candidates ((← func).layout.insts node).length

/-- The visit of a block in the second pass. -/
def joinBlock (dominators : BlockMap (List Block)) (node : Block) : M Locals Unit := do
  let preBlocks := predBlocks (← func) node
  if 2 ≤ preBlocks.length then
    let candidates ← appendJoinParams dominators node preBlocks
    substitute candidates node

/-! ## The generator -/

/-- `get_last_block` -/
def getLastBlock (f : Function) (dfsOrder : List Block) : Option Block :=
  dfsOrder.find? fun b => ((ControlFlowGraph.withFunction f).succs b).isEmpty

/-- The types of the signature of the root function. -/
def rootTypes : List ClifType :=
  [.i8, .i16, .i32, .i64, .f32, .f64, .i16x8, .i32x4, .f32x4, .i64x2, .f64x2]

/-- The signature the last block returns by. The root function gets a new one. -/
def finalSignature (isRootFunc : Bool) (sig : Signature) : M δ Signature := do
  if isRootFunc then
    let mainFuncSig ← generateRandomSignature rootTypes (← genRange 8 10) true
    setFunc ((← func).withSignature mainFuncSig)
    return mainFuncSig
  else
    return sig

/-- `function_generator`. It returns the dominators and the values of each block. -/
def functionGenerator (isRootFunc : Bool) (config : ArchConfig) :
    M Locals (BlockMap (List Block) × ValueMap) := do
  let start ← func
  Cursor.new
  let entryBlock ← unwrap start.layout.blocks.head?
  let dfsOrder := start.dfsOrder entryBlock
  let dominators := computeDominators start entryBlock
  dfsOrder.zipIdx.forM fun (node, i) =>
    fillBlock config start.signature.params dominators (i = 0) node
  dfsOrder.forM (joinBlock dominators)
  let sig ← finalSignature isRootFunc start.signature
  let lastBlock ← unwrap (getLastBlock (← func) dfsOrder)
  if !sig.returns.isEmpty then
    let returnValues ← selectArgs dominators lastBlock sig.returns
    gotoBottom lastBlock
    let _ ← ins (.multiAry .return_ returnValues)
  return (dominators, (← locals).blockDefValues)

end Clir
