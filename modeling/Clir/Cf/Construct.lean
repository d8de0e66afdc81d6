import Clir.Ir.Cursor
import Clir.Ir.FlowGraph

set_option autoImplicit false

/-! # Control flow construction

`cf_construct` grows a control flow skeleton. It starts from an entry block and an end block with
one construct between them (a sequence, an if/else, a while loop or a switch), and then, level by
level, replaces a random block of the newest construct by a new construct. `update_predecessor`
redirects the branches into the replaced block, `update_successor` moves its branch to the last
block of the new construct and takes the replaced block out of the layout.

Nothing here reads the local variables of the cursor, except that every replacement is recorded
in a history (`Replacement`) for the theorems to speak about.
-/

namespace Clir

open Cmd Cursor

/-! ## Constructs -/

/-- `BlockType`. The parts of a construct are again of this type, and the accessors below insist
that they are plain blocks. -/
inductive BlockType
  | block (b : Block)
  | sequential (blocks : List BlockType)
  | ifElse (condBlock trueBlock falseBlock lastBlock : BlockType)
  | while_ (whileBlock bodyBlock falseBlock : BlockType)
  | switch (switchBlock defaultBlock : BlockType) (caseBlocks : List BlockType)
      (lastBlock : BlockType)

section Construct

variable {δ : Type}

def BlockType.asBlock (message : String) : BlockType → M δ Block
  | .block b => return b
  | _ => panicWith message

/-- One entry of the block list of a `Sequential`. -/
def BlockType.entry (o : Option BlockType) : M δ Block :=
  match o with
  | some b => b.asBlock "First block is not a BlockType::Block"
  | none => panicWith "No blocks in Sequential"

/-- `get_first_block` of the construct. -/
def BlockType.getFirstBlock : BlockType → M δ Block
  | .block b => return b
  | .sequential bs => entry bs[0]?
  | .ifElse cond _ _ _ => cond.asBlock "Condition block is not a BlockType::Block"
  | .while_ head _ _ => head.asBlock "Condition block is not a BlockType::Block"
  | .switch head _ _ _ => head.asBlock "Condition block is not a BlockType::Block"

/-- `get_last_block` of the construct. -/
def BlockType.getLastBlock : BlockType → M δ Block
  | .block b => return b
  | .sequential bs => entry bs[bs.length - 1]?
  | .ifElse _ _ _ last => last.asBlock "Condition block is not a BlockType::Block"
  | .while_ _ _ exit => exit.asBlock "Condition block is not a BlockType::Block"
  | .switch _ _ _ last => last.asBlock "Condition block is not a BlockType::Block"

/-- `get_random_block` of the construct. The head and the last block of an if/else and the last
block of a switch are never picked. -/
def BlockType.getRandomBlock : BlockType → M δ Block
  | .block b => return b
  | .sequential bs => do
      let i ← genRange 0 bs.length
      entry bs[i]?
  | .ifElse _ t e _ => do
      match ← genRange 0 2 with
      | 1 => t.asBlock "Condition block is not a BlockType::Block"
      | _ => e.asBlock "Condition block is not a BlockType::Block"
  | .while_ head body exit => do
      match ← genRange 0 3 with
      | 0 => head.asBlock "Condition block is not a BlockType::Block"
      | 1 => body.asBlock "Condition block is not a BlockType::Block"
      | _ => exit.asBlock "Condition block is not a BlockType::Block"
  | .switch head default cases _ => do
      match ← genRange 0 3 with
      | 0 => head.asBlock "Condition block is not a BlockType::Block"
      | 1 => default.asBlock "Condition block is not a BlockType::Block"
      | _ =>
          let i ← genRange 0 cases.length
          (← unwrap cases[i]?).asBlock "Condition block is not a BlockType::Block"

/-- `jump` without arguments. -/
def insJump (b : Block) : M δ Unit := do
  let _ ← ins (.jump ⟨b, []⟩)

/-- `brif` without arguments. -/
def insBrif (v : Value) (t e : Block) : M δ Unit := do
  let _ ← ins (.brif v ⟨t, []⟩ ⟨e, []⟩)

/-- `br_table` -/
def insBrTable (v : Value) (k : JumpTable) : M δ Unit := do
  let _ ← ins (.branchTable v k)

def makeBlocks : ℕ → M δ (List Block)
  | 0 => return []
  | n + 1 => do
      let b ← makeBlock
      return b :: (← makeBlocks n)

/-- Place a list of blocks, each with a jump to the next one. -/
def placeChain : List Block → M δ Unit
  | [] => panicWith "attempt to subtract with overflow"
  | [b] => insertBlock b
  | b :: c :: rest => do
      insertBlock b
      insJump c
      placeChain (c :: rest)

/-- `sequential` -/
def sequential (blockNum : ℕ) : M δ BlockType := do
  let bs ← makeBlocks blockNum
  Cursor.new
  placeChain bs
  return .sequential (bs.map .block)

/-- `if_else` -/
def ifElse : M δ BlockType := do
  let condBlock ← makeBlock
  let trueBlock ← makeBlock
  let falseBlock ← makeBlock
  let lastBlock ← makeBlock
  let cond ← appendBlockParam condBlock .i32
  Cursor.new
  insertBlock condBlock
  insBrif cond trueBlock falseBlock
  insertBlock trueBlock
  insJump lastBlock
  insertBlock falseBlock
  insJump lastBlock
  insertBlock lastBlock
  return .ifElse (.block condBlock) (.block trueBlock) (.block falseBlock) (.block lastBlock)

/-- `while_blocks` -/
def whileBlocks : M δ BlockType := do
  let condBlock ← makeBlock
  let bodyBlock ← makeBlock
  let falseBlock ← makeBlock
  let cond ← appendBlockParam condBlock .i32
  Cursor.new
  insertBlock condBlock
  insBrif cond bodyBlock falseBlock
  insertBlock bodyBlock
  insJump condBlock
  insertBlock falseBlock
  return .while_ (.block condBlock) (.block bodyBlock) (.block falseBlock)

/-- `switch_blocks`. The last block is made before the cases. -/
def switchBlocks (caseNum : ℕ) : M δ BlockType := do
  let condBlock ← makeBlock
  let defaultBlock ← makeBlock
  let lastBlock ← makeBlock
  let caseBlocks ← makeBlocks caseNum
  let cond ← appendBlockParam condBlock .i32
  let table ← createJumpTable ⟨⟨defaultBlock, []⟩, caseBlocks.map fun b => ⟨b, []⟩⟩
  Cursor.new
  insertBlock condBlock
  insBrTable cond table
  caseBlocks.forM fun b => do
    insertBlock b
    insJump lastBlock
  insertBlock defaultBlock
  insJump lastBlock
  insertBlock lastBlock
  return .switch (.block condBlock) (.block defaultBlock) (caseBlocks.map .block)
    (.block lastBlock)

/-! ## Replacing a block -/

/-- `get_block_last_control_instr`: the last instruction of a block, and the cursor on it. -/
def getBlockLastControlInstr (b : Block) : M δ (Option InstructionData) := do
  let f ← func
  match f.layout.lastInst b with
  | none => return none
  | some i =>
      setPosition (.at_ i)
      return some (f.instData i)

/-- `set_block` on a block call that names the replaced block. -/
def BlockCall.redirect (replaced block : Block) (c : BlockCall) : BlockCall :=
  if c.block = replaced then { c with block := block } else c

/-- The branch of one predecessor of the replaced block. -/
def updatePredecessorOf (block replaced preBlock : Block) : M δ Unit := do
  match ← unwrap (← getBlockLastControlInstr preBlock) with
  | .brif arg t e =>
      let _ ← removeInst
      if t.block = replaced then
        insBrif arg block e.block
      else if e.block = replaced then
        insBrif arg t.block block
      else
        panicWith "The replaced block does not exist in the jump target of the previous block's br_if."
  | .branchTable _ table =>
      let f ← func
      let t := f.dfg.jumpTables.get table
      setFunc (f.setJumpTable table
        ⟨t.defaultBlock.redirect replaced block, t.table.map (·.redirect replaced block)⟩)
  | .jump _ =>
      let _ ← removeInst
      insJump block
  | _ => panicWith "The control instruction recognition in the previous block is incorrect."

/-- `update_predecessor` -/
def updatePredecessor (block replaced : Block) : M δ Unit := do
  let cfg := ControlFlowGraph.withFunction (← func)
  Cursor.new
  (cfg.preds replaced).forM fun p => updatePredecessorOf block replaced p.2

/-- `update_successor`. The branch is rebuilt from the successor set of the replaced block. -/
def updateSuccessor (block replaced : Block) : M δ Unit := do
  let cfg := ControlFlowGraph.withFunction (← func)
  Cursor.new
  match cfg.succs replaced with
  | [] => pure ()
  | [post] =>
      if (← getBlockLastControlInstr replaced).isSome then
        let _ ← removeInst
      gotoBottom block
      insJump post
  | [post₀, post₁] =>
      match ← getBlockLastControlInstr replaced with
      | none => panicWith "The replaced block has no jump instruction"
      | some control =>
          let _ ← removeInst
          gotoBottom block
          match control with
          | .brif arg _ _ => insBrif arg post₀ post₁
          | _ => panicWith "Something went wrong"
  | post₀ :: posts =>
      let table ← createJumpTable ⟨⟨post₀, []⟩, posts.map fun b => ⟨b, []⟩⟩
      match ← getBlockLastControlInstr replaced with
      | none => panicWith "The replaced block has no jump instruction"
      | some control =>
          let _ ← removeInst
          gotoBottom block
          match control with
          | .branchTable arg _ => insBrTable arg table
          | _ => panicWith "Something went wrong"
  removeBlock replaced

end Construct

/-! ## The construction -/

/-- A replacement during the construction: the function when it starts, and the function before
and after `update_successor`. -/
structure Replacement where
  last : Block
  replaced : Block
  start : Function
  before : Function
  after : Function

/-- The local variables of the construction: the history of replacements, newest first. -/
abbrev History := List Replacement

/-- Which construct comes next. -/
def chooseKind (threshold : ℕ) : M History ℕ := do
  if (← genRange 0 5) < threshold then genRange 0 3 else return 3

/-- The new construct of a choice; choices other than the four kinds give none. -/
def makeChild (choice : ℕ) : M History (Option BlockType) := do
  match choice with
  | 0 => return some (← sequential (← genRange 2 5))
  | 1 => return some (← ifElse)
  | 2 => return some (← whileBlocks)
  | 3 => return some (← switchBlocks (← genRange 6 9))
  | _ => return none

/-- Put the construct in the place of the replaced block. -/
def replaceBlock (child : BlockType) (replaced : Block) : M History Unit := do
  let start ← func
  updatePredecessor (← child.getFirstBlock) replaced
  let last ← child.getLastBlock
  let before ← func
  updateSuccessor last replaced
  setLocals (⟨last, replaced, start, before, ← func⟩ :: (← locals))

/-- The body of `cf_construct` under a parent construct. -/
def cfReplace (parent : BlockType) (threshold : ℕ) (otherwise : M History Unit) :
    M History (Option BlockType) := do
  let choice ← chooseKind threshold
  let replaced ← parent.getRandomBlock
  match ← makeChild choice with
  | some child =>
      replaceBlock child replaced
      return some child
  | none =>
      otherwise
      return none

/-- The body of `cf_construct` without a parent. -/
def cfRoot : M History (Option BlockType) := do
  let entryBlock ← makeBlock
  let endBlock ← makeBlock
  Cursor.new
  insertBlock entryBlock
  insertBlock endBlock
  match ← makeChild (← chooseKind 2) with
  | some child =>
      Cursor.new
      gotoBottom entryBlock
      insJump (← child.getFirstBlock)
      gotoBottom (← child.getLastBlock)
      insJump endBlock
      return some child
  | none => return none

/-- `cf_construct` up to its recursive call; the result is `child_cf`. -/
def cfLevel : Option BlockType → M History (Option BlockType)
  | some (.sequential bs) => cfReplace (.sequential bs) 3 (panicWith "")
  | some (.ifElse c t e l) => cfReplace (.ifElse c t e l) 2 (pure ())
  | some (.while_ h b x) => cfReplace (.while_ h b x) 2 (pure ())
  | some (.switch h d cs l) => cfReplace (.switch h d cs l) 2 (pure ())
  | none => cfRoot
  | some (.block _) => return none

/-- `cf_construct` with `levels` recursive calls to go. -/
def cfLevels : ℕ → Option BlockType → M History Unit
  | 0, parent => do
      let _ ← cfLevel parent
  | levels + 1, parent => do
      match ← cfLevel parent with
      | none => return ()
      | some child => cfLevels levels (some child)

/-- `cf_construct`: it recurses as long as `depth < maxDepth`. -/
def cfConstruct (maxDepth : ℕ) (parent : Option BlockType) (depth : ℕ) : M History Unit :=
  cfLevels (maxDepth - depth) parent

/-- The state `cf_construct` is called in: an empty function. -/
def cfStart (name : FuncName) (signature : Signature) (draws : List ℕ) :
    World (State History) :=
  ⟨draws, Function.new name signature, .nowhere, []⟩

end Clir
