import Clir.Ir.Opcode
import Clir.Lib.ListEdit
import Clir.Lib.PrimaryMap
import Mathlib.Data.List.Nodup

set_option autoImplicit false

/-! # Functions of the intermediate language

The part of a function that control flow construction and instruction selection read and write:
the data flow graph (instructions, their results, block parameters, values, jump tables), the
layout, the signature, the stack slots and the imported functions.

An instruction holds its opcode, its value operands, its block calls and its stack addressing.
The lists that the implementation keeps in one pool (block parameters, results, block call
arguments) are plain lists here: no two of them share storage.

The layout carries the shape its linked lists have by construction: no block and no instruction
is placed twice, and a block that is not placed holds nothing.
-/

namespace Clir

abbrev Block := ℕ
abbrev Inst := ℕ
abbrev Value := ℕ
abbrev JumpTable := ℕ
abbrev StackSlot := ℕ
abbrev FuncRef := ℕ

/-- A branch destination with the values for the parameters of its block. -/
structure BlockCall where
  block : Block
  args : List Value
  deriving DecidableEq, Repr, Inhabited

/-- `JumpTableData`: the default destination, then the table. -/
structure JumpTableData where
  defaultBlock : BlockCall
  table : List BlockCall
  deriving DecidableEq, Repr, Inhabited

/-- Default first, as `all_branches`. -/
def JumpTableData.allBranches (t : JumpTableData) : List BlockCall :=
  t.defaultBlock :: t.table

/-- An instruction. `fixed` is every format whose operands are stored in the instruction and
which addresses no memory by an offset of its own. -/
inductive InstructionData
  | jump (destination : BlockCall)
  | brif (arg : Value) (blockThen blockElse : BlockCall)
  | branchTable (arg : Value) (table : JumpTable)
  | call (funcRef : FuncRef) (args : List Value)
  | multiAry (opcode : Opcode) (args : List Value)
  | load (opcode : Opcode) (arg : Value) (offset : ℕ)
  | store (opcode : Opcode) (arg addr : Value) (offset : ℕ)
  | stackLoad (opcode : Opcode) (slot : StackSlot) (offset : ℕ)
  | stackStore (opcode : Opcode) (arg : Value) (slot : StackSlot) (offset : ℕ)
  | fixed (opcode : Opcode) (args : List Value)
  deriving DecidableEq, Repr

instance : Inhabited InstructionData := ⟨.fixed .nop []⟩

namespace InstructionData

def opcode : InstructionData → Opcode
  | jump _ => .jump
  | brif _ _ _ => .brif
  | branchTable _ _ => .brTable
  | call _ _ => .call
  | multiAry op _ | load op _ _ | store op _ _ _ | stackLoad op _ _ | stackStore op _ _ _
  | fixed op _ => op

/-- `arguments`: the value operands, block call arguments not included. -/
def arguments : InstructionData → List Value
  | jump _ | stackLoad _ _ _ => []
  | brif v _ _ | branchTable v _ | load _ v _ | stackStore _ v _ _ => [v]
  | store _ v p _ => [v, p]
  | call _ vs | multiAry _ vs | fixed _ vs => vs

/-- The instruction with other value operands. -/
def withArguments (d : InstructionData) (vs : List Value) : InstructionData :=
  match d, vs with
  | brif _ t e, [v] => brif v t e
  | branchTable _ t, [v] => branchTable v t
  | load op _ o, [v] => load op v o
  | stackStore op _ s o, [v] => stackStore op v s o
  | store op _ _ o, [v, p] => store op v p o
  | call g _, vs => call g vs
  | multiAry op _, vs => multiAry op vs
  | fixed op _, vs => fixed op vs
  | d, _ => d

/-- Operands that live in the value list pool and not in the instruction. -/
def argumentsInPool : InstructionData → Bool
  | call _ _ | multiAry _ _ => true
  | _ => false

/-- A branch that the control flow graph follows. -/
def isBranch : InstructionData → Bool
  | jump _ | brif _ _ _ | branchTable _ _ => true
  | _ => false

end InstructionData

/-- Where a value comes from. -/
inductive ValueDef
  | result (inst : Inst) (num : ℕ)
  | param (block : Block) (num : ℕ)
  deriving DecidableEq, Repr

structure ValueData where
  ty : ClifType
  source : ValueDef
  deriving DecidableEq, Repr

instance : Inhabited ValueData := ⟨.invalid, .param 0 0⟩

structure Signature where
  params : List ClifType
  returns : List ClifType
  deriving DecidableEq, Repr, Inhabited

/-- `DataFlowGraph` -/
structure DataFlowGraph where
  insts : PrimaryMap InstructionData
  results : Inst → List Value
  blocks : PrimaryMap (List Value)
  values : PrimaryMap ValueData
  jumpTables : PrimaryMap JumpTableData

/-! ## The layout -/

structure Layout where
  blocks : List Block
  insts : Block → List Inst
  blocks_nodup : blocks.Nodup
  insts_nodup : ∀ b, (insts b).Nodup
  insts_disjoint : ∀ b c i, i ∈ insts b → i ∈ insts c → b = c
  insts_nil : ∀ b, b ∉ blocks → insts b = []

namespace Layout

def empty : Layout where
  blocks := []
  insts _ := []
  blocks_nodup := List.nodup_nil
  insts_nodup _ := List.nodup_nil
  insts_disjoint _ _ _ h := absurd h List.not_mem_nil
  insts_nil _ _ := rfl

/-- `inst_block` -/
def instBlock (l : Layout) (i : Inst) : Option Block :=
  l.blocks.find? fun b => i ∈ l.insts b

def firstInst (l : Layout) (b : Block) : Option Inst := (l.insts b).head?

def lastInst (l : Layout) (b : Block) : Option Inst := (l.insts b).getLast?

theorem mem_blocks_of_mem_insts {l : Layout} {b : Block} {i : Inst} (h : i ∈ l.insts b) :
    b ∈ l.blocks := by
  by_contra hb
  rw [l.insts_nil b hb] at h
  exact List.not_mem_nil h

theorem instBlock_eq_some {l : Layout} {b : Block} {i : Inst} (h : i ∈ l.insts b) :
    l.instBlock i = some b := by
  cases hfind : l.instBlock i with
  | none =>
      have := List.find?_eq_none.mp hfind b (mem_blocks_of_mem_insts h)
      exact absurd h (by simpa using this)
  | some c =>
      have hc : i ∈ l.insts c := by simpa using List.find?_some hfind
      rw [l.insts_disjoint c b i hc h]

theorem mem_insts_of_instBlock {l : Layout} {b : Block} {i : Inst}
    (h : l.instBlock i = some b) : i ∈ l.insts b := by
  simpa using List.find?_some h

theorem instBlock_eq_none {l : Layout} {i : Inst} :
    l.instBlock i = none ↔ ∀ b, i ∉ l.insts b := by
  constructor
  · intro h b hb
    rw [instBlock_eq_some hb] at h
    exact Option.some_ne_none b h
  · intro h
    exact List.find?_eq_none.mpr fun b _ => by simpa using h b

/-- Place a new block somewhere among the others. -/
def placeBlock (l : Layout) (b : Block) (bs : List Block) (hbs : bs.Perm (b :: l.blocks))
    (hb : b ∉ l.blocks) : Layout where
  blocks := bs
  insts := l.insts
  blocks_nodup := hbs.nodup_iff.mpr (List.nodup_cons.mpr ⟨hb, l.blocks_nodup⟩)
  insts_nodup := l.insts_nodup
  insts_disjoint := l.insts_disjoint
  insts_nil c hc := l.insts_nil c fun h => hc (hbs.mem_iff.mpr (List.mem_cons_of_mem b h))

/-- Take an empty block out. -/
def removeBlock (l : Layout) (b : Block) (hb : l.insts b = []) : Layout where
  blocks := l.blocks.erase b
  insts := l.insts
  blocks_nodup := l.blocks_nodup.erase b
  insts_nodup := l.insts_nodup
  insts_disjoint := l.insts_disjoint
  insts_nil c hc := by
    by_cases h : c = b
    · rw [h, hb]
    · exact l.insts_nil c fun hc' => hc ((List.mem_erase_of_ne h).mpr hc')

/-- Give a placed block another list of instructions, none of them placed elsewhere. -/
def setInsts (l : Layout) (b : Block) (is : List Inst) (hb : b ∈ l.blocks) (his : is.Nodup)
    (hnew : ∀ c ≠ b, ∀ i ∈ is, i ∉ l.insts c) : Layout where
  blocks := l.blocks
  insts := Function.update l.insts b is
  blocks_nodup := l.blocks_nodup
  insts_nodup c := by
    by_cases h : c = b
    · subst h
      simpa using his
    · simpa [h] using l.insts_nodup c
  insts_disjoint c d i hc hd := by
    by_cases hcb : c = b <;> by_cases hdb : d = b
    · rw [hcb, hdb]
    · subst hcb
      exact absurd (by simpa [hdb] using hd) (hnew d hdb i (by simpa using hc))
    · subst hdb
      exact absurd (by simpa [hcb] using hc) (hnew c hcb i (by simpa using hd))
    · exact l.insts_disjoint c d i (by simpa [hcb] using hc) (by simpa [hdb] using hd)
  insts_nil c hc := by
    have : c ≠ b := fun h => hc (h ▸ hb)
    simpa [this] using l.insts_nil c hc

end Layout

/-! ## Functions and their edits -/

inductive FuncName
  | testcase (name : String)
  | user (space index : ℕ)
  deriving DecidableEq, Repr

/-- `ExtFuncData`: a function this one may call. -/
structure ExtFuncData where
  name : FuncName
  signature : Signature
  deriving DecidableEq, Repr

instance : Inhabited ExtFuncData := ⟨.user 0 0, ⟨[], []⟩⟩

/-- A function. What its layout places, its data flow graph has made. -/
structure Function where
  name : FuncName
  signature : Signature
  sizedStackSlots : PrimaryMap ℕ
  extFuncs : PrimaryMap ExtFuncData
  dfg : DataFlowGraph
  layout : Layout
  insts_lt : ∀ b i, i ∈ layout.insts b → i < dfg.insts.len
  blocks_lt : ∀ b ∈ layout.blocks, b < dfg.blocks.len

namespace Function

/-- `Function::with_name_signature` -/
def new (name : FuncName) (signature : Signature) : Function where
  name := name
  signature := signature
  sizedStackSlots := .empty
  extFuncs := .empty
  dfg := ⟨.empty, fun _ => [], .empty, .empty, .empty⟩
  layout := .empty
  insts_lt _ _ h := absurd h List.not_mem_nil
  blocks_lt _ h := absurd h List.not_mem_nil

/-- Replace the data flow graph by one that has grown. -/
def withDfg (f : Function) (d : DataFlowGraph) (hi : f.dfg.insts.len ≤ d.insts.len)
    (hb : f.dfg.blocks.len ≤ d.blocks.len) : Function :=
  { f with
    dfg := d
    insts_lt := fun b i h => (f.insts_lt b i h).trans_le hi
    blocks_lt := fun b h => (f.blocks_lt b h).trans_le hb }

variable (f : Function)

/-! ### Data flow graph -/

def blockParams (b : Block) : List Value := f.dfg.blocks.get b

def valueType (v : Value) : ClifType := (f.dfg.values.get v).ty

def instData (i : Inst) : InstructionData := f.dfg.insts.get i

/-- `make_block`; the new block is `f.dfg.blocks.len`. -/
def makeBlock : Function :=
  f.withDfg { f.dfg with blocks := f.dfg.blocks.push [] } le_rfl (Nat.le_succ _)

/-- `n` new blocks at once. -/
def makeBlocks (n : ℕ) : Function :=
  f.withDfg
    { f.dfg with
      blocks := ⟨f.dfg.blocks.len + n,
        fun b => if f.dfg.blocks.len ≤ b ∧ b < f.dfg.blocks.len + n then []
          else f.dfg.blocks.get b⟩ }
    le_rfl (Nat.le_add_right _ _)

/-- `append_block_param`; the new value is `f.dfg.values.len`. -/
def appendBlockParam (b : Block) (ty : ClifType) : Function :=
  f.withDfg
    { f.dfg with
      values := f.dfg.values.push ⟨ty, .param b (f.blockParams b).length⟩
      blocks := f.dfg.blocks.set b (f.blockParams b ++ [f.dfg.values.len]) }
    le_rfl le_rfl

/-- One parameter of a block has moved one place down. -/
def renumberParam (values : PrimaryMap ValueData) (v : Value) : PrimaryMap ValueData :=
  match values.get v with
  | ⟨ty, .param b num⟩ => values.set v ⟨ty, .param b (num - 1)⟩
  | ⟨_, .result _ _⟩ => values

/-- `remove_block_param` of the parameter `num` of block `b`: the parameters behind it move
down. -/
def removeBlockParam (b : Block) (num : ℕ) : Function :=
  f.withDfg
    { f.dfg with
      values := ((f.blockParams b).drop (num + 1)).foldl renumberParam f.dfg.values
      blocks := f.dfg.blocks.set b ((f.blockParams b).eraseIdx num) }
    le_rfl le_rfl

/-- The values of the results of instruction `i`, from number `num` on. -/
def pushResults (values : PrimaryMap ValueData) (i : Inst) (num : ℕ) :
    List ClifType → PrimaryMap ValueData
  | [] => values
  | ty :: tys => pushResults (values.push ⟨ty, .result i num⟩) i (num + 1) tys

/-- `make_inst` and `make_inst_results`; the new instruction is `f.dfg.insts.len`. -/
def makeInst (data : InstructionData) (tys : List ClifType) : Function :=
  f.withDfg
    { f.dfg with
      insts := f.dfg.insts.push data
      values := pushResults f.dfg.values f.dfg.insts.len 0 tys
      results := Function.update f.dfg.results f.dfg.insts.len
        (List.range' f.dfg.values.len tys.length) }
    (Nat.le_succ _) le_rfl

/-- Overwrite the data of an instruction in place. -/
def replaceInst (i : Inst) (data : InstructionData) : Function :=
  f.withDfg { f.dfg with insts := f.dfg.insts.set i data } le_rfl le_rfl

/-- `create_jump_table`; the new table is `f.dfg.jumpTables.len`. -/
def createJumpTable (t : JumpTableData) : Function :=
  f.withDfg { f.dfg with jumpTables := f.dfg.jumpTables.push t } le_rfl le_rfl

def setJumpTable (k : JumpTable) (t : JumpTableData) : Function :=
  f.withDfg { f.dfg with jumpTables := f.dfg.jumpTables.set k t } le_rfl le_rfl

/-! ### Layout -/

/-- `append_block` -/
def appendBlock (b : Block) (hlt : b < f.dfg.blocks.len) (hb : b ∉ f.layout.blocks) : Function :=
  { f with
    layout := f.layout.placeBlock b (f.layout.blocks ++ [b])
      (List.perm_append_singleton b f.layout.blocks) hb
    blocks_lt := fun c hc => by
      rcases List.mem_append.mp hc with hc | hc
      · exact f.blocks_lt c hc
      · rwa [List.mem_singleton.mp hc] }

/-- `insert_block_after` -/
def insertBlockAfter (b after : Block) (hlt : b < f.dfg.blocks.len) (hb : b ∉ f.layout.blocks)
    (hafter : after ∈ f.layout.blocks) : Function :=
  { f with
    layout := f.layout.placeBlock b (ListEdit.insertAfter after b f.layout.blocks)
      (ListEdit.insertAfter_perm hafter) hb
    blocks_lt := fun c hc => by
      rcases List.mem_cons.mp ((ListEdit.insertAfter_perm hafter).mem_iff.mp hc) with hc | hc
      · rwa [hc]
      · exact f.blocks_lt c hc }

/-- `remove_block` -/
def removeBlock (b : Block) (hb : f.layout.insts b = []) : Function :=
  { f with
    layout := f.layout.removeBlock b hb
    blocks_lt := fun c hc => f.blocks_lt c (List.mem_of_mem_erase hc) }

/-- Give a placed block another list of instructions. -/
def setInsts (b : Block) (is : List Inst) (hb : b ∈ f.layout.blocks) (his : is.Nodup)
    (hnew : ∀ c ≠ b, ∀ i ∈ is, i ∉ f.layout.insts c) (hlt : ∀ i ∈ is, i < f.dfg.insts.len) :
    Function :=
  { f with
    layout := f.layout.setInsts b is hb his hnew
    insts_lt := fun c i hi => by
      by_cases h : c = b
      · exact hlt i (by simpa [Layout.setInsts, h] using hi)
      · exact f.insts_lt c i (by simpa [Layout.setInsts, h] using hi) }

/-- `append_inst` -/
def appendInst (i : Inst) (b : Block) (hlt : i < f.dfg.insts.len) (hb : b ∈ f.layout.blocks)
    (hi : ∀ c, i ∉ f.layout.insts c) : Function :=
  f.setInsts b (f.layout.insts b ++ [i]) hb
    ((List.perm_append_singleton i (f.layout.insts b)).nodup_iff.mpr
      (List.nodup_cons.mpr ⟨hi b, f.layout.insts_nodup b⟩))
    (fun c hc j hj hjc => by
      rcases List.mem_append.mp hj with hj | hj
      · exact hc (f.layout.insts_disjoint c b j hjc hj)
      · exact hi c (List.mem_singleton.mp hj ▸ hjc))
    (fun j hj => by
      rcases List.mem_append.mp hj with hj | hj
      · exact f.insts_lt b j hj
      · rwa [List.mem_singleton.mp hj])

/-- `insert_inst` before an instruction of block `b`. -/
def insertInst (i before : Inst) (b : Block) (hlt : i < f.dfg.insts.len)
    (hbefore : before ∈ f.layout.insts b) (hi : ∀ c, i ∉ f.layout.insts c) : Function :=
  have hperm := ListEdit.insertBefore_perm (i := i) hbefore
  f.setInsts b (ListEdit.insertBefore before i (f.layout.insts b))
    (Layout.mem_blocks_of_mem_insts hbefore)
    (hperm.nodup_iff.mpr (List.nodup_cons.mpr ⟨hi b, f.layout.insts_nodup b⟩))
    (fun c hc j hj hjc => by
      rcases List.mem_cons.mp (hperm.mem_iff.mp hj) with hj | hj
      · exact hi c (hj ▸ hjc)
      · exact hc (f.layout.insts_disjoint c b j hjc hj))
    (fun j hj => by
      rcases List.mem_cons.mp (hperm.mem_iff.mp hj) with hj | hj
      · rwa [hj]
      · exact f.insts_lt b j hj)

/-- `remove_inst` of an instruction of block `b`. -/
def removeInst (i : Inst) (b : Block) (hi : i ∈ f.layout.insts b) : Function :=
  f.setInsts b ((f.layout.insts b).erase i) (Layout.mem_blocks_of_mem_insts hi)
    ((f.layout.insts_nodup b).erase i)
    (fun c hc j hj hjc => hc (f.layout.insts_disjoint c b j hjc (List.mem_of_mem_erase hj)))
    (fun j hj => f.insts_lt b j (List.mem_of_mem_erase hj))

end Function

end Clir
