import Clir.Ir.Values

set_option autoImplicit false

/-! # Accesses to stack slots

Which bytes an instruction reads or writes: an address, which is a value or a stack slot, the
offset of the instruction, and a width that the opcode or the type of the accessed value gives.
An address resolves to an offset in a slot if it is the slot itself or the result of a
`stack_addr`. The bytes of a slot count as written once eight byte stores through such addresses
cover them.
-/

namespace Clir

/-- What an access is addressed by. -/
inductive Address
  | value (v : Value)
  | slot (s : StackSlot)
  deriving DecidableEq, Repr

/-- The bytes that an instruction accesses. -/
structure Access where
  address : Address
  offset : ℕ
  width : ℕ
  reads : Bool
  deriving DecidableEq, Repr

/-- The number of bytes accessed. Narrow and widening accesses fix it, the others access a value
of the given type. -/
def Opcode.width (op : Opcode) (ty : ClifType) : ℕ :=
  match op with
  | .uload8 | .sload8 | .istore8 => 1
  | .uload16 | .sload16 | .istore16 => 2
  | .uload32 | .sload32 | .istore32 => 4
  | .uload8x8 | .sload8x8 | .uload16x4 | .sload16x4 | .uload32x2 | .sload32x2 => 8
  | _ => ty.bytes

/-- The access of an instruction with a result of type `result`. -/
def InstructionData.access (typeOf : Value → ClifType) (result : ClifType) :
    InstructionData → Option Access
  | .load op addr offset => some ⟨.value addr, offset, op.width result, true⟩
  | .store op arg addr offset => some ⟨.value addr, offset, op.width (typeOf arg), false⟩
  | .stackLoad .stackLoad slot offset => some ⟨.slot slot, offset, result.bytes, true⟩
  | .stackStore .stackStore arg slot offset =>
      some ⟨.slot slot, offset, (typeOf arg).bytes, false⟩
  | .fixed .atomicLoad [addr] => some ⟨.value addr, 0, result.bytes, true⟩
  | .fixed .atomicRmw [addr, _] => some ⟨.value addr, 0, result.bytes, true⟩
  | .fixed .atomicCas [addr, _, arg] => some ⟨.value addr, 0, (typeOf arg).bytes, true⟩
  | .fixed .atomicStore [arg, addr] => some ⟨.value addr, 0, (typeOf arg).bytes, false⟩
  | _ => none

/-- An access depends on the types of operands only. -/
theorem InstructionData.access_congr {typeOf typeOf' : Value → ClifType} {result : ClifType}
    {d : InstructionData} (h : ∀ v ∈ d.arguments, typeOf' v = typeOf v) :
    d.access typeOf' result = d.access typeOf result := by
  unfold access
  split <;> simp_all [arguments]

namespace Function

variable (f : Function)

/-- The type of the first result of an instruction. -/
def resultType (i : Inst) : ClifType :=
  match (f.dfg.results i).head? with
  | some v => f.valueType v
  | none => .invalid

/-- The access of an instruction of the function. -/
def access (i : Inst) : Option Access :=
  (f.instData i).access f.valueType (f.resultType i)

/-- `v` is the result of the `stack_addr` of a slot at an offset. -/
def StackAddr (v : Value) (slot : StackSlot) (offset : ℕ) : Prop :=
  ∃ c i, f.IsResult v i ∧ i ∈ f.layout.insts c ∧
    f.instData i = .stackLoad .stackAddr slot offset

/-- An address is the given offset of a slot. -/
def Resolves : Address → StackSlot → ℕ → Prop
  | .value v, slot, offset => f.StackAddr v slot offset
  | .slot s, slot, offset => s = slot ∧ offset = 0

/-- The instruction stores eight bytes at the given offset of a slot. -/
def StoresWord (i : Inst) (slot : StackSlot) (offset : ℕ) : Prop :=
  ∃ v p base o, f.instData i = .store .store v p o ∧ f.valueType v = .i64 ∧
    f.StackAddr p slot base ∧ base + o = offset

/-- One of the instructions writes the given byte of a slot. -/
def Written (prior : List Inst) (slot : StackSlot) (byte : ℕ) : Prop :=
  ∃ i ∈ prior, ∃ offset, f.StoresWord i slot offset ∧ offset ≤ byte ∧ byte < offset + 8

end Function

end Clir
