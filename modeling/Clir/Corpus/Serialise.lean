import Clir.Corpus.Store
import Clir.Ir.Opcode

set_option autoImplicit false

/-! # Blocks as the corpus gets them

`traverse_blocks` stores an instruction as the derived `Serialize` of `InstructionData` writes it.
The enum is tagged externally: its JSON is an object whose only key is the format, and the opcode is
a field of the object under that key. `compare_instrs` looks for the opcode one level above. No
instruction has a field of that name there, so that only the numbers of instructions are compared
(`compareInstrs_blockJson`), and the corpus keeps one block of every length
(`stores_onePerLength`).
-/

namespace Clir

/-! ## Instructions -/

/-- `InstructionFormat`: the variants of `InstructionData`. -/
inductive InstructionFormat
  | unary | unaryImm | unaryIeee16 | unaryIeee32 | unaryIeee64 | unaryConst | unaryGlobalValue
  | binary | binaryImm8 | binaryImm64 | ternary | ternaryImm8 | multiAry | nullAry | shuffle
  | intCompare | intCompareImm | floatCompare | jump | brif | branchTable | call | callIndirect
  | tryCall | tryCallIndirect | funcAddr | atomicRmw | atomicCas | load | loadNoOffset | store
  | storeNoOffset | stackLoad | stackStore | dynamicStackLoad | dynamicStackStore | trap
  | condTrap | intAddTrap | exceptionHandlerAddress
  deriving DecidableEq, Repr

/-- The name of the variant. -/
def InstructionFormat.name : InstructionFormat → String
  | unary => "Unary"
  | unaryImm => "UnaryImm"
  | unaryIeee16 => "UnaryIeee16"
  | unaryIeee32 => "UnaryIeee32"
  | unaryIeee64 => "UnaryIeee64"
  | unaryConst => "UnaryConst"
  | unaryGlobalValue => "UnaryGlobalValue"
  | binary => "Binary"
  | binaryImm8 => "BinaryImm8"
  | binaryImm64 => "BinaryImm64"
  | ternary => "Ternary"
  | ternaryImm8 => "TernaryImm8"
  | multiAry => "MultiAry"
  | nullAry => "NullAry"
  | shuffle => "Shuffle"
  | intCompare => "IntCompare"
  | intCompareImm => "IntCompareImm"
  | floatCompare => "FloatCompare"
  | jump => "Jump"
  | brif => "Brif"
  | branchTable => "BranchTable"
  | call => "Call"
  | callIndirect => "CallIndirect"
  | tryCall => "TryCall"
  | tryCallIndirect => "TryCallIndirect"
  | funcAddr => "FuncAddr"
  | atomicRmw => "AtomicRmw"
  | atomicCas => "AtomicCas"
  | load => "Load"
  | loadNoOffset => "LoadNoOffset"
  | store => "Store"
  | storeNoOffset => "StoreNoOffset"
  | stackLoad => "StackLoad"
  | stackStore => "StackStore"
  | dynamicStackLoad => "DynamicStackLoad"
  | dynamicStackStore => "DynamicStackStore"
  | trap => "Trap"
  | condTrap => "CondTrap"
  | intAddTrap => "IntAddTrap"
  | exceptionHandlerAddress => "ExceptionHandlerAddress"

/-- The loop of `camel_case`. -/
def camelChars (capitalize : Bool) : List Char → List Char
  | [] => []
  | c :: rest =>
      if c = '_' then
        camelChars true rest
      else
        (if capitalize then c.toUpper else c) :: camelChars false rest

/-- `camel_case` -/
def camelCase (s : String) : String := String.ofList (camelChars true s.toList)

/-- The name of the variant of an opcode. -/
def Opcode.camelName (op : Opcode) : String := camelCase op.name

example : Opcode.camelName .uaddOverflowTrap = "UaddOverflowTrap" := by decide

/-- An instruction as it is serialised: the variant of `InstructionData`, the opcode, which is the
first field of every variant, and the other fields, which are the operands and the immediates. -/
structure SerdeInst where
  format : InstructionFormat
  opcode : Opcode
  fields : List (String × JsonValue)

/-- The derived `Serialize` of `InstructionData`. -/
def SerdeInst.toJson (instr : SerdeInst) : JsonValue :=
  .object [(instr.format.name,
    .object (("opcode", .string instr.opcode.camelName) :: instr.fields))]

/-! ## Blocks -/

/-- A block as `traverse_blocks` reads it. -/
structure SerdeBlock where
  /-- the types of the parameters -/
  types : List JsonValue
  insts : List SerdeInst

/-- A function as `traverse_blocks` reads it, with the JSON of the tables it copies. -/
structure SerdeFunction where
  dynamicStackSlots : JsonValue
  sizedStackSlots : JsonValue
  globalValues : JsonValue
  memoryTypes : JsonValue
  extFuncs : JsonValue
  constants : JsonValue
  stackLimit : JsonValue
  blocks : List SerdeBlock

namespace SerdeFunction

def context (func : SerdeFunction) : List JsonValue :=
  [.object [("dynamic_stack_slots", func.dynamicStackSlots)],
    .object [("sized_stack_slots", func.sizedStackSlots)],
    .object [("global_values", func.globalValues)], .object [("memory_types", func.memoryTypes)],
    .object [("ext_funcs", func.extFuncs)], .object [("constants", func.constants)],
    .object [("stack_limit", func.stackLimit)]]

/-- The body of the loop of `traverse_blocks`, up to the call that stores the block. -/
def blockJson (func : SerdeFunction) (block : SerdeBlock) : BlockJson where
  instrs := block.insts.map SerdeInst.toJson
  blockType := [.object [("opcode", .string "block"), ("type", .array block.types)]]
  context := func.context

end SerdeFunction

/-! ## What is compared -/

theorem InstructionFormat.name_ne_opcode (format : InstructionFormat) : format.name ≠ "opcode" := by
  cases format <;> decide

/-- The opcode is not where `compare_instrs` looks for it. -/
@[simp] theorem SerdeInst.opcodeOf_toJson (instr : SerdeInst) :
    BlockJson.opcodeOf instr.toJson = none := by
  have hne : ("opcode" == instr.format.name) = false :=
    beq_eq_false_iff_ne.mpr instr.format.name_ne_opcode.symm
  simp only [BlockJson.opcodeOf, SerdeInst.toJson, JsonValue.asObject, Option.bind_some,
    List.lookup_cons, hne, List.lookup_nil]

section Compare

variable (func func' : SerdeFunction) (a b : SerdeBlock)

theorem blockJson_objectInstrs : (func.blockJson a).ObjectInstrs := by
  intro instr hinstr
  obtain ⟨i, -, rfl⟩ := List.mem_map.mp hinstr
  exact ⟨_, rfl⟩

theorem opcodes_blockJson :
    (func.blockJson a).opcodes = List.replicate a.insts.length none := by
  unfold BlockJson.opcodes SerdeFunction.blockJson
  rw [List.map_map, ← List.map_const']
  exact List.map_congr_left fun instr _ => instr.opcodeOf_toJson

theorem opcodes_blockJson_eq_iff :
    (func.blockJson a).opcodes = (func'.blockJson b).opcodes ↔ a.insts.length = b.insts.length := by
  rw [opcodes_blockJson, opcodes_blockJson]
  exact ⟨fun h => by simpa using congrArg List.length h, fun h => by rw [h]⟩

/-- **`compare_instrs` compares the lengths of two blocks.** -/
theorem compareInstrs_blockJson :
    (func.blockJson a).compareInstrs (func'.blockJson b) =
      .ok (decide (a.insts.length = b.insts.length)) := by
  rw [BlockJson.compareInstrs_eq (blockJson_objectInstrs _ _) (blockJson_objectInstrs _ _)]
  simp only [opcodes_blockJson_eq_iff]

end Compare

/-- The `i`-th instructions of the two blocks have the same opcode, for every `i`. -/
def SerdeBlock.SameOpcodes (a b : SerdeBlock) : Prop :=
  a.insts.length = b.insts.length ∧
    ∀ (i : ℕ) (x y : SerdeInst), a.insts[i]? = some x → b.insts[i]? = some y → x.opcode = y.opcode

/-- **When the comparison is one of opcodes.** `compare_instrs` answers whether the two blocks have
the same opcodes exactly if their opcodes are the same or their lengths differ. Two blocks of one
length and with different opcodes are taken for duplicates. -/
theorem compareInstrs_sameOpcodes_iff (func func' : SerdeFunction) (a b : SerdeBlock) :
    ((func.blockJson a).compareInstrs (func'.blockJson b) = .ok true ↔ a.SameOpcodes b) ↔
      a.SameOpcodes b ∨ a.insts.length ≠ b.insts.length := by
  have hcompare : (func.blockJson a).compareInstrs (func'.blockJson b) = .ok true ↔
      a.insts.length = b.insts.length := by
    rw [compareInstrs_blockJson, Except.ok.injEq, decide_eq_true_iff]
  have hlen : a.SameOpcodes b → a.insts.length = b.insts.length := And.left
  rw [hcompare]
  tauto

/-- A function of one block, with one instruction. -/
def binaryBlock (op : Opcode) : SerdeBlock :=
  ⟨[], [⟨.binary, op, [("args", .array [.number (.int 0), .number (.int 1)])]⟩]⟩

def binaryFunction (op : Opcode) : SerdeFunction :=
  ⟨.array [], .array [], .array [], .array [], .array [], .array [], .null, [binaryBlock op]⟩

/-- An addition is taken for a duplicate of a subtraction. -/
theorem compareInstrs_sameOpcodes_iff_isub :
    binaryBlock .iadd ∈ (binaryFunction .iadd).blocks ∧
    binaryBlock .isub ∈ (binaryFunction .isub).blocks ∧
    ((binaryFunction .iadd).blockJson (binaryBlock .iadd)).compareInstrs
      ((binaryFunction .isub).blockJson (binaryBlock .isub)) = .ok true ∧
    ¬ (binaryBlock .iadd).SameOpcodes (binaryBlock .isub) := by
  refine ⟨List.mem_singleton_self _, List.mem_singleton_self _, compareInstrs_blockJson .., ?_⟩
  intro hsame
  exact absurd (hsame.2 0 _ _ rfl rfl) (by decide)

/-! ## What the corpus keeps -/

section Corpus

variable {Text Document : Type} {S : Serde Text Document} {collection after : List Document}
  {d : Document}

/-- The document is read back as a block of a function. -/
def Serde.Holds (S : Serde Text Document) (d : Document) (block : SerdeBlock) : Prop :=
  ∃ func : SerdeFunction, S.Reads d (func.blockJson block)

/-- `traverse_blocks` stores a block of a function, and drops the error if there is one. The text of
the block is read as the block, and the serialised tables have no keys of extended JSON: the keys
are names of fields. -/
inductive Stores (S : Serde Text Document) : List Document → List Document → Prop
  | intro {collection after : List Document} (func : SerdeFunction) (block : SerdeBlock)
      (hblock : block ∈ func.blocks) {text : Text}
      (htext : S.fromJsonString text = .ok (func.blockJson block))
      (hplain : (func.blockJson block).Plain) (reply : Reply collection)
      {r : EStateM.Result Failure (List Document) Unit}
      (hr : insertJsonIntoMongodb S reply text collection = r)
      (hafter : r = .ok () after ∨ ∃ e, r = .error (.err e) after) :
      Stores S collection after

/-- What holds of the collection: every document is a block, and their lengths differ. -/
structure OnePerLength (S : Serde Text Document) (collection : List Document) : Prop where
  holds : ∀ d ∈ collection, ∃ block, S.Holds d block
  lengths : collection.Pairwise fun d e =>
    ∀ a b, S.Holds d a → S.Holds e b → a.insts.length ≠ b.insts.length

theorem onePerLength_nil : OnePerLength S [] := ⟨by simp, .nil⟩

theorem OnePerLength.readable (h : OnePerLength S collection) : S.Readable collection := by
  intro d hd
  obtain ⟨block, func, hreads⟩ := h.holds d hd
  exact ⟨_, hreads⟩

/-- A document matches a block exactly if the block it holds has the same length. -/
theorem Serde.Holds.matches_iff {a b : SerdeBlock} (h : S.Holds d a) (func : SerdeFunction) :
    S.Matches d (func.blockJson b) ↔ a.insts.length = b.insts.length := by
  obtain ⟨func', hreads⟩ := h
  rw [hreads.matches_iff (blockJson_objectInstrs func b)]
  exact opcodes_blockJson_eq_iff func' func a b

theorem OnePerLength.append (h : OnePerLength S collection) {func : SerdeFunction}
    {block : SerdeBlock} (hd : S.Reads d (func.blockJson block))
    (hne : ∀ old ∈ collection, ¬ S.Matches old (func.blockJson block)) :
    OnePerLength S (collection ++ [d]) where
  holds := by
    intro d' hd'
    rcases List.mem_append.mp hd' with hmem | hmem
    · exact h.holds d' hmem
    · exact ⟨block, func, List.mem_singleton.mp hmem ▸ hd⟩
  lengths := by
    refine List.pairwise_append.mpr ⟨h.lengths, List.pairwise_singleton _ _, ?_⟩
    intro old hold d' hd' a b ha hb hlen
    obtain rfl := List.mem_singleton.mp hd'
    -- the new document is read back as one block only
    have hself : S.Matches d' (func.blockJson block) := (hd.matches_iff hd.objects).mpr rfl
    exact hne old hold ((ha.matches_iff func).mpr (hlen.trans ((hb.matches_iff func).mp hself)))

theorem Stores.spec (hS : S.RoundTrip) (h : Stores S collection after)
    (hc : OnePerLength S collection) : OnePerLength S after := by
  obtain ⟨func, block, -, htext, hplain, reply, hr, hafter⟩ := h
  have hend := insertJsonIntoMongodb_spec hS hc.readable
    ⟨htext, blockJson_objectInstrs func block⟩ hplain reply
  rw [hr] at hend
  rcases hafter with rfl | ⟨e, rfl⟩
  · cases hend with
    | found hd hmatch => exact hc
    | added hd hne => exact hc.append hd hne
  · cases hend
    exact hc

/-- **The corpus keeps one block of every length.** In a collection that traversals have made from
an empty one, no two blocks have the same number of instructions, whatever their opcodes are. -/
theorem stores_onePerLength (hS : S.RoundTrip)
    (h : Relation.ReflTransGen (Stores S) [] collection) : OnePerLength S collection := by
  induction h with
  | refl => exact onePerLength_nil
  | tail _ hstep ih => exact hstep.spec hS ih

end Corpus

end Clir
