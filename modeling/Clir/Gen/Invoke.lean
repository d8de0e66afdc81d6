import Clir.Cf.Construct
import Clir.Gen.Generator

set_option autoImplicit false

/-! # Calls to the children of a function, and the construction of a function

`insert_function_invocation` inserts one call for each child of a node of the call tree, into a
block other than the first one, and offers the results of the call to one instruction of a block
that the call dominates. It works from what `function_generator` returned for the function.

`buildFunction` is what `generate_ir` does to make one function.
-/

namespace Clir

open Cmd Cursor

variable {δ : Type}

/-- An entry of the list that `generate_ir` keeps: a function, and what `function_generator`
returned for it. -/
structure Generated where
  func : Function
  dominanceMap : BlockMap (List Block)
  blockDefValues : ValueMap

/-- What a call needs to know about a child of a node. -/
structure Child where
  name : FuncName
  signature : Signature

/-- `get_dominated_blocks` -/
def getDominatedBlocks (block : Block) (dominanceMap : BlockMap (List Block)) : List Block :=
  (dominanceMap.entries.filter fun e => block ∈ e.2).map Sigma.fst

/-- `import_function`; the new reference is `f.extFuncs.len`. -/
def Function.importFunction (f : Function) (data : ExtFuncData) : Function :=
  { f with extFuncs := f.extFuncs.push data }

/-- Offer the results of a call to the operands of an instruction. The type of an operand is read
again for each result, and operands in the value list pool are written back. -/
def injectResults (callInst inst : Inst) : M δ Unit := do
  let f ← func
  let instrData := f.instData inst
  if keepsOperands instrData.opcode then
    return ()
  else
    let candidates := (f.dfg.results callInst).map fun r => (f.valueType r, r)
    let args ← instrData.arguments.mapM (rewriteArg 2 f.valueType candidates)
    setFunc (f.replaceInst inst (instrData.withArguments args))

/-- The second instruction of a block, or nothing if it has only one. -/
def injectInto (callInst : Inst) (modifiedBlock : Block) : M δ Unit := do
  gotoFirstInst modifiedBlock
  match ← nextInst with
  | none => return ()
  | some inst => injectResults callInst inst

/-- The call to a child, placed by the maps of an entry, and the blocks whose operands may be
exchanged for its results. -/
def placeCall (calleeRef : FuncRef) (sig : Signature) (entry : Generated) :
    M δ (Inst × List Block) := do
  let allBlocks := entry.dominanceMap.keys.insertionSort (· ≤ ·)
  let insertedBlock ← unwrap (← choose allBlocks.tail)
  let dominatedBlocks := (getDominatedBlocks insertedBlock entry.dominanceMap).erase insertedBlock
  let dominatorBlocks := dominatorsOf entry.dominanceMap insertedBlock
  gotoLastInst insertedBlock
  let callParams ← sig.params.mapM fun ty =>
    selectValue (getDominatorValuesWithType dominatorBlocks entry.blockDefValues ty)
  let callInst ← build (.call calleeRef callParams) sig.returns
  return (callInst, dominatedBlocks)

/-- The call, and the operands of a block that its results are offered to. -/
def insertCall (calleeRef : FuncRef) (sig : Signature) (entry : Generated) : M δ Unit := do
  let (callInst, dominatedBlocks) ← placeCall calleeRef sig entry
  match ← choose dominatedBlocks with
  | none => return ()
  | some modifiedBlock => injectInto callInst modifiedBlock

/-- The call to one child. Entries are matched by the name of the function. -/
def invokeChild (entries : List Generated) (child : Child) : M δ Unit := do
  match child.name with
  | .testcase _ => panicWith "called Option::unwrap() on a None value"
  | .user _ _ =>
      let f ← func
      setFunc (f.importFunction ⟨child.name, child.signature⟩)
      Cursor.new
      entries.forM fun entry => do
        if (← func).name = entry.func.name then
          insertCall f.extFuncs.len child.signature entry

/-- `insert_function_invocation` on a node with the given children. -/
def insertFunctionInvocation (children : List Child) (entries : List Generated) : M δ Unit :=
  children.forM (invokeChild entries)

/-! ## One function of `generate_ir` -/

/-- Run a command that has local variables of its own. -/
def withLocals {ε α : Type} (start : ε) (x : M ε α) : M δ α := fun w =>
  match x ⟨w.draws, ⟨w.mem.func, w.mem.pos, start⟩⟩ with
  | .ok a w' => .ok a ⟨w'.draws, ⟨w'.mem.func, w'.mem.pos, w.mem.locals⟩⟩
  | .error e w' => .error e ⟨w'.draws, ⟨w'.mem.func, w'.mem.pos, w.mem.locals⟩⟩

/-- The control flow and the instructions of a function. -/
def buildFunction (maxDepth : ℕ) (isRootFunc : Bool) (config : ArchConfig) :
    M Locals (BlockMap (List Block) × ValueMap) := do
  withLocals [] (cfConstruct maxDepth none 0)
  functionGenerator isRootFunc config

/-- The state a function is built in: empty, with a name and a signature. -/
def buildStart (name : FuncName) (signature : Signature) (draws : List ℕ) :
    World (State Locals) :=
  ⟨draws, Function.new name signature, .nowhere, {}⟩

end Clir
