import Clir.Gen.Invoke
import Clir.Lib.RoseTree

set_option autoImplicit false

/-! # The call tree, and the program that is made from it

`generate_function_call_graph` draws a tree of functions that have a name and a signature but no
code. `generate_ir` then makes the code: of the root first, then of the other functions in
post-order. Each function gets a call to each of its children in the tree, by the name and the
signature that the tree has for the child, and is written to the output. The root, which is `main`,
gets its calls and is written at the end.
-/

namespace Clir

open Cmd

/-- The fields of a `FunctionNode` other than the children. -/
structure NodeData where
  func : Function
  sig : Signature
  name : FuncName

/-- `FunctionNode` -/
abbrev FunctionNode := RoseTree NodeData

namespace FunctionNode

/-- `FunctionNode::new` -/
def new (func : Function) (funcName : FuncName) (sig : Signature) : FunctionNode :=
  .node ⟨func, sig, funcName⟩ []

/-- `get_child_funcs_clone`: what a call needs to know of the functions. -/
def getChildFuncsClone (node : FunctionNode) : List Child :=
  node.children.map fun child => ⟨child.value.func.name, child.value.func.signature⟩

/-- Exchange the function of a node. -/
def withFunc (node : FunctionNode) (func : Function) : FunctionNode :=
  .node { node.value with func := func } node.children

end FunctionNode

/-- `*func_id += 1`, on an `i32`. -/
def nextFuncId : Cmd ℕ ℕ := do
  let funcId ← mem
  if funcId + 1 < 2 ^ 31 then
    update (· + 1)
    return funcId + 1
  else
    panicWith "attempt to add with overflow"

/-- `generate_function_tree`, for a node that is `depth` levels above the maximal depth. The memory
is `func_id`. -/
def generateFunctionTree : ℕ → FunctionNode → Cmd ℕ FunctionNode
  | 0, node => return node
  | depth + 1, node => do
      let numChildren ← genRange 1 3
      (List.range numChildren).foldlM (fun node _ => do
        let childFuncSig ← generateRandomSignature rootTypes (← genRange 8 10) false
        let childFuncName := FuncName.user 1 (← nextFuncId)
        let childNode := .new (.new childFuncName childFuncSig) childFuncName childFuncSig
        return node.addChild (← generateFunctionTree depth childNode)) node

/-- `generate_function_call_graph`, with the maximal depth as a parameter. -/
def generateFunctionCallGraph {σ : Type} (maxDepth : ℕ) : Cmd σ FunctionNode := do
  let rootFuncSig : Signature := ⟨[], []⟩
  let rootFuncName := FuncName.testcase "main"
  let root := .new (.new rootFuncName rootFuncSig) rootFuncName rootFuncSig
  return (← onMem 0 (generateFunctionTree maxDepth root)).1

/-- What `generate_ir` collects for one file: the entries of `func_dominator_ref_map_vec`, and the
functions that have been written. -/
structure Assembly where
  funcDominatorRefMapVec : List Generated := []
  clifOutput : List Function := []

/-- Make the code of a function, and add an entry for it. -/
def generateFunction (cfDepth : ℕ) (isRootFunc : Bool) (config : ArchConfig) (start : Function) :
    Cmd Assembly Function := do
  let ((dominatorBlockSet, blockDefValues), s) ←
    onMem ⟨start, .nowhere, {}⟩ (buildFunction cfDepth isRootFunc config)
  update fun a => { a with
    funcDominatorRefMapVec :=
      a.funcDominatorRefMapVec ++ [⟨s.func, dominatorBlockSet, blockDefValues⟩] }
  return s.func

/-- Insert the calls to the children of a node into its function, and write it. -/
def writeWithCalls (children : List Child) (start : Function) : Cmd Assembly Unit := do
  let entries := (← mem).funcDominatorRefMapVec
  let (_, s) ← onMem (⟨start, .nowhere, {}⟩ : State Locals)
    (insertFunctionInvocation children entries)
  update fun a => { a with clifOutput := a.clifOutput ++ [s.func] }

/-- The code of a function other than the root. -/
def generateNode (cfDepth : ℕ) (config : ArchConfig) (funcNode : FunctionNode) :
    Cmd Assembly Unit := do
  let func ← generateFunction cfDepth false config funcNode.value.func
  writeWithCalls funcNode.getChildFuncsClone func

/-- The functions of a call tree. -/
def generateProgram (cfDepth : ℕ) (config : ArchConfig) (rootFuncNode : FunctionNode) :
    Cmd Assembly Unit := do
  let rootFunc ← generateFunction cfDepth true config rootFuncNode.value.func
  let funcNodePostOrder := (rootFuncNode.withFunc rootFunc).postOrder
  funcNodePostOrder.dropLast.forM (generateNode cfDepth config)
  writeWithCalls rootFuncNode.getChildFuncsClone rootFunc

/-- One round of the loop of `generate_ir`, up to the text that it writes to files. -/
def generateIr (cfDepth maxDepth : ℕ) (config : ArchConfig) : Cmd Assembly Unit := do
  let rootFuncNode ← generateFunctionCallGraph maxDepth
  generateProgram cfDepth config rootFuncNode

end Clir
