import Clir.Ir.Function
import Clir.Lib.Command

set_option autoImplicit false

/-! # The function cursor

The commands of `FuncCursor`: positions, insertion and removal of blocks and instructions, and
the instruction builder. A command runs on the function under construction, the position of the
cursor, and the local variables `δ` of the code that drives it. The debug assertions of the
layout are panics here.
-/

namespace Clir

open Cmd

/-- `CursorPosition` -/
inductive CursorPosition
  | nowhere
  | at_ (inst : Inst)
  | before (block : Block)
  | after (block : Block)
  deriving DecidableEq, Repr

/-- The function, the cursor on it, and the local variables of its user. -/
structure State (δ : Type) where
  func : Function
  pos : CursorPosition
  locals : δ

abbrev M (δ α : Type) : Type := Cmd (State δ) α

/-- The controlling type that the operands of an instruction determine. -/
def Function.controlType (f : Function) (data : InstructionData) : ClifType :=
  match data.arguments[data.opcode.typevarOperand]? with
  | some v => f.valueType v
  | none => .invalid

namespace Cursor

variable {δ : Type}

def func : M δ Function := do
  return (← mem).func

def setFunc (f : Function) : M δ Unit := update fun s => { s with func := f }

def position : M δ CursorPosition := do
  return (← mem).pos

def setPosition (p : CursorPosition) : M δ Unit := update fun s => { s with pos := p }

def locals : M δ δ := do
  return (← mem).locals

def setLocals (x : δ) : M δ Unit := update fun s => { s with locals := x }

/-- `FuncCursor::new` -/
def new : M δ Unit := setPosition .nowhere

/-! ## Data flow graph -/

def makeBlock : M δ Block := do
  let f ← func
  setFunc f.makeBlock
  return f.dfg.blocks.len

def appendBlockParam (b : Block) (ty : ClifType) : M δ Value := do
  let f ← func
  setFunc (f.appendBlockParam b ty)
  return f.dfg.values.len

def removeBlockParam (v : Value) : M δ Unit := do
  let f ← func
  match (f.dfg.values.get v).source with
  | .param b num => setFunc (f.removeBlockParam b num)
  | .result _ _ => panicWith "must be a block parameter"

def createJumpTable (t : JumpTableData) : M δ JumpTable := do
  let f ← func
  setFunc (f.createJumpTable t)
  return f.dfg.jumpTables.len

/-! ## Layout -/

def appendBlock (b : Block) : M δ Unit := do
  let f ← func
  if h : b < f.dfg.blocks.len ∧ b ∉ f.layout.blocks then
    setFunc (f.appendBlock b h.1 h.2)
  else
    panicWith "Cannot append block that is already in the layout"

def insertBlockAfter (b after : Block) : M δ Unit := do
  let f ← func
  if h : b < f.dfg.blocks.len ∧ b ∉ f.layout.blocks then
    if hafter : after ∈ f.layout.blocks then
      setFunc (f.insertBlockAfter b after h.1 h.2 hafter)
    else
      panicWith "block Insertion point not in the layout"
  else
    panicWith "Cannot insert block that is already in the layout"

def removeBlock (b : Block) : M δ Unit := do
  let f ← func
  if b ∈ f.layout.blocks then
    if h : f.layout.insts b = [] then
      setFunc (f.removeBlock b h)
    else
      panicWith "block must be empty."
  else
    panicWith "block not in the layout"

def appendInst (i : Inst) (b : Block) : M δ Unit := do
  let f ← func
  if h : i < f.dfg.insts.len ∧ f.layout.instBlock i = none then
    if hb : b ∈ f.layout.blocks then
      setFunc (f.appendInst i b h.1 hb (Layout.instBlock_eq_none.mp h.2))
    else
      panicWith "Cannot append instructions to block not in layout"
  else
    panicWith "instruction already in the layout"

def insertInstBefore (i before : Inst) : M δ Unit := do
  let f ← func
  if h : i < f.dfg.insts.len ∧ f.layout.instBlock i = none then
    match hb : f.layout.instBlock before with
    | some b =>
        setFunc (f.insertInst i before b h.1 (Layout.mem_insts_of_instBlock hb)
          (Layout.instBlock_eq_none.mp h.2))
    | none => panicWith "Instruction before insertion point not in the layout"
  else
    panicWith "instruction already in the layout"

def removeInstFromLayout (i : Inst) : M δ Unit := do
  let f ← func
  match hb : f.layout.instBlock i with
  | some b => setFunc (f.removeInst i b (Layout.mem_insts_of_instBlock hb))
  | none => panicWith "Instruction already removed."

/-! ## Cursor -/

def gotoInst (i : Inst) : M δ Unit := do
  let f ← func
  if (f.layout.instBlock i).isSome then
    setPosition (.at_ i)
  else
    panicWith "assertion failed: self.layout().inst_block(inst).is_some()"

def gotoBottom (b : Block) : M δ Unit := do
  let f ← func
  if b ∈ f.layout.blocks then
    setPosition (.after b)
  else
    panicWith "assertion failed: self.layout().is_block_inserted(block)"

def gotoFirstInsertionPoint (b : Block) : M δ Unit := do
  let f ← func
  match f.layout.firstInst b with
  | some i => gotoInst i
  | none => gotoBottom b

def gotoFirstInst (b : Block) : M δ Unit := do
  let f ← func
  match f.layout.firstInst b with
  | some i => gotoInst i
  | none => panicWith "Empty block"

def gotoLastInst (b : Block) : M δ Unit := do
  let f ← func
  match f.layout.lastInst b with
  | some i => gotoInst i
  | none => panicWith "Empty block"

/-- `next_inst`: step over the current instruction; at the end of a block stop behind it. -/
def nextInst : M δ (Option Inst) := do
  let f ← func
  match ← position with
  | .nowhere | .after _ => return none
  | .at_ i =>
      match f.layout.instBlock i with
      | none => panicWith "current instruction removed?"
      | some b =>
          match ListEdit.next i (f.layout.insts b) with
          | some j =>
              setPosition (.at_ j)
              return some j
          | none =>
              setPosition (.after b)
              return none
  | .before b =>
      match f.layout.firstInst b with
      | some j =>
          setPosition (.at_ j)
          return some j
      | none =>
          setPosition (.after b)
          return none

def insertInst (i : Inst) : M δ Unit := do
  match ← position with
  | .nowhere | .before _ => panicWith "Invalid insert_inst position"
  | .at_ cur => insertInstBefore i cur
  | .after b => appendInst i b

/-- `remove_inst` leaves the cursor behind the removed instruction. -/
def removeInst : M δ Inst := do
  match ← position with
  | .at_ i =>
      let _ ← nextInst
      removeInstFromLayout i
      return i
  | _ => panicWith "No instruction to remove"

/-- `insert_block`. No code here inserts a block in front of another one or into the middle of
one, so those two positions are left out. -/
def insertBlock (b : Block) : M δ Unit := do
  match ← position with
  | .nowhere => appendBlock b
  | .after a => insertBlockAfter b a
  | .at_ _ | .before _ => panicWith "insert_block: position not modelled"
  setPosition (.after b)

/-! ## Instruction builder -/

/-- Make an instruction with results of the given types and put it at the cursor. -/
def build (data : InstructionData) (tys : List ClifType) : M δ Inst := do
  let f ← func
  setFunc (f.makeInst data tys)
  insertInst f.dfg.insts.len
  return f.dfg.insts.len

/-- Build at an explicit controlling type. -/
def insTyped (data : InstructionData) (ctrl : ClifType) : M δ Inst := do
  match data.opcode.resultTypes ctrl with
  | some tys => build data tys
  | none => panicWith "invalid type for the derived result type"

/-- Build at the controlling type of the operands. -/
def ins (data : InstructionData) : M δ Inst := do
  let f ← func
  insTyped data (f.controlType data)

/-- The first result of an instruction. -/
def firstResult (i : Inst) : M δ Value := do
  let f ← func
  match (f.dfg.results i).head? with
  | some v => return v
  | none => panicWith "Instruction has no results"

end Cursor

end Clir
