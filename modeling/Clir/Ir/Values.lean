import Clir.Ir.FlowGraph

set_option autoImplicit false

/-! # Definitions and uses of values

A value is attached if the block or instruction it comes from still lists it. A use of a value is
valid if the value is a parameter of a block that dominates the use, the result of an instruction
of a block that strictly dominates it, or the result of an earlier instruction of the same block.
-/

namespace Clir

open Graph

/-- The opcodes that end a block. -/
def Opcode.isTerminator : Opcode → Bool
  | .jump | .brif | .brTable | .trap | .return_ | .returnCall | .returnCallIndirect | .tryCall
  | .tryCallIndirect => true
  | _ => false

/-- The opcodes that call a function. -/
def Opcode.isCall : Opcode → Bool
  | .call | .callIndirect | .returnCall | .returnCallIndirect | .tryCall | .tryCallIndirect => true
  | _ => false

/-- The opcodes that neither end a block nor call a function. -/
def Opcode.isPlain (op : Opcode) : Bool := !op.isTerminator && !op.isCall

theorem Opcode.isTerminator_of_isPlain {op : Opcode} (h : op.isPlain = true) :
    op.isTerminator = false := by
  unfold Opcode.isPlain at h
  simp_all

theorem Opcode.isCall_of_isPlain {op : Opcode} (h : op.isPlain = true) : op.isCall = false := by
  unfold Opcode.isPlain at h
  simp_all

/-- The opcodes that read or write memory through an operand or a stack slot. -/
def Opcode.accessesMemory : Opcode → Bool
  | .load | .store | .uload8 | .sload8 | .istore8 | .uload16 | .sload16 | .istore16 | .uload32
  | .sload32 | .istore32 | .uload8x8 | .sload8x8 | .uload16x4 | .sload16x4 | .uload32x2
  | .sload32x2 | .stackLoad | .stackStore | .dynamicStackLoad | .dynamicStackStore | .atomicLoad
  | .atomicStore | .atomicRmw | .atomicCas => true
  | _ => false

/-- The instructions that accesses to memory depend on. -/
def InstructionData.pinned (d : InstructionData) : Bool :=
  d.opcode.accessesMemory ||
    match d with
    | .stackLoad _ _ _ => true
    | _ => false

/-- The kind and the destinations of a branch. -/
def Terminator.shape {κ : Type} (t : Terminator κ) : Terminator.Kind × List κ :=
  (t.kind, t.targets)

namespace Function

variable (f : Function)

/-- `v` is a current parameter of block `b`. -/
def IsParam (v : Value) (b : Block) : Prop :=
  v < f.dfg.values.len ∧
    ∃ k, (f.dfg.values.get v).source = .param b k ∧ (f.blockParams b)[k]? = some v

/-- `v` is a result of instruction `i`. -/
def IsResult (v : Value) (i : Inst) : Prop :=
  v < f.dfg.values.len ∧
    ∃ k, (f.dfg.values.get v).source = .result i k ∧ (f.dfg.results i)[k]? = some v

/-- `v` may be used in block `b` behind the instructions `before`. -/
def Available (entry b : Block) (before : List Inst) (v : Value) : Prop :=
  (∃ c, f.IsParam v c ∧ Dominates f.Edge entry c b) ∨
    ∃ c i, f.IsResult v i ∧ i ∈ f.layout.insts c ∧
      (StrictlyDominates f.Edge entry c b ∨ c = b ∧ i ∈ before)

/-- The arguments of the block calls of an instruction. -/
def callArgs (i : Inst) : List Value :=
  (f.destinations (f.instData i)).flatMap BlockCall.args

/-- All values an instruction uses. -/
def uses (i : Inst) : List Value := (f.instData i).arguments ++ f.callArgs i

/-- Every use of a value in the layout is dominated by its definition. -/
def UsesDominated (entry : Block) : Prop :=
  ∀ b before i after, f.layout.insts b = before ++ i :: after →
    ∀ v ∈ f.uses i, f.Available entry b before v

/-- `v` is a parameter of `b` or a result of one of its instructions in front of the terminator. -/
def DefinedIn (b : Block) (v : Value) : Prop :=
  f.IsParam v b ∨
    ∃ i, f.IsResult v i ∧ i ∈ f.layout.insts b ∧ (f.instData i).opcode.isTerminator = false

/-- `v` is defined in a block that dominates `b`. -/
def Usable (entry b : Block) (v : Value) : Prop :=
  ∃ c, f.DefinedIn c v ∧ Dominates f.Edge entry c b

variable {f} {entry b : Block} {v : Value}

/-- At the terminator of a block, everything usable is available. -/
theorem Usable.available {before : List Inst} (h : f.Usable entry b v)
    (hbefore : ∀ i ∈ f.layout.insts b, (f.instData i).opcode.isTerminator = false → i ∈ before) :
    f.Available entry b before v := by
  obtain ⟨c, hp | ⟨i, hi, hmem, hterm⟩, hdom⟩ := h
  · exact .inl ⟨c, hp, hdom⟩
  · refine .inr ⟨c, i, hi, hmem, ?_⟩
    by_cases hc : c = b
    · exact .inr ⟨hc, hbefore i (hc ▸ hmem) hterm⟩
    · exact .inl ⟨hdom, hc⟩

end Function

end Clir
