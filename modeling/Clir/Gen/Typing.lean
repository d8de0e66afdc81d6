import Clir.Gen.Emit
import Clir.Gen.Populate

set_option autoImplicit false

/-! # Types that opcodes accept, and types that are recorded

`Opcode.accepts` is the set of types over which the type variable of an opcode ranges, for the
operand or, in loads, extensions and splats, for the result that a mode lists types of. A config
is accepted if its modes list no other types.

An arm records a type for the value it defines. `Records op t r` says that the type `r`, recorded
for operands of type `t`, is the type of the result, with one exception: the comparison `icmp` of
`i8x16` vectors, which the arm records as `i8`. A value recorded as `i8` may therefore be an `i8x16`
in a function that has such a comparison, and in no other (`Function.Agrees`).
-/

namespace Clir

namespace ClifType

/-- Integers and vectors of integers. -/
def anyInt : ClifType → Bool
  | invalid => false
  | lanes l _ => l.isInt

/-- Floating point numbers and vectors of them. -/
def anyFloat : ClifType → Bool
  | invalid => false
  | lanes l _ => !l.isInt

end ClifType

namespace Opcode

/-- The types of the list `operand_types` that an opcode accepts. Opcodes whose arm reads no such
list accept all. -/
def accepts (op : Opcode) (t : ClifType) : Bool :=
  match op with
  | swizzle | x86Pshufb | shuffle | x86Pmaddubsw => t == .i8x16
  | smin | umin | smax | umax | icmp | iadd | isub | ineg | iabs | imul | umulhi | smulhi | popcnt
  | rotlImm | rotrImm | ishlImm | ushrImm | sshrImm | fcvtFromUint | fcvtFromSint => t.anyInt
  | avgRound | uaddSat | saddSat | usubSat | ssubSat => t.vectorInt 8 128
  | sqmulRoundSat | x86Pmulhrsw => t.vectorInt 16 32 || t.scalarInt 16 32
  | udiv | sdiv | urem | srem | iaddImm | imulImm | udivImm | sdivImm | uremImm | sremImm | irsubImm
  | bandImm | borImm | bxorImm | icmpImm | bitrev | clz | cls | ctz | uaddOverflow | saddOverflow
  | usubOverflow | ssubOverflow | uaddOverflowCin | saddOverflowCin | usubOverflowBin
  | ssubOverflowBin | ireduce | uextend | sextend | atomicRmw | atomicCas | atomicLoad
  | atomicStore => t.scalarInt 8 128
  | umulOverflow | smulOverflow | iconcat => t.scalarInt 8 64
  | bswap | isplit => t.scalarInt 16 128
  | uload8 | sload8 | istore8 => t.scalarInt 16 64
  | uaddOverflowTrap | uload16 | sload16 | istore16 => t.scalarInt 32 64
  | istore32 => t.scalarInt 64 64
  | fadd | fsub | fmul | fdiv | fcopysign | fmin | fmax | fcmp | fma | sqrt | fneg | fabs | ceil
  | floor | trunc | nearest | fcvtToUintSat | fcvtToSintSat | x86Cvtt2dq => t.anyFloat
  | fcvtToUint | fcvtToSint => t.anyFloat && !t.isVector
  | extractlane | insertlane | splat | scalarToVector | vanyTrue | vallTrue | vhighBits =>
      t.isVector
  | snarrow | unarrow | uunarrow | swidenLow | swidenHigh | uwidenLow | uwidenHigh =>
      t.vectorInt 16 64
  | iaddPairwise => t.vectorInt 8 32
  | _ => true

/-- The types of the list `arg0_types` that an opcode accepts. -/
def acceptsArg0 (op : Opcode) (t : ClifType) : Bool :=
  match op with
  | rotl | rotr | ishl | ushr | sshr => t.anyInt
  | select | selectSpectreGuard | bmask => t.scalarInt 8 128
  | _ => true

/-- The types of the list `arg1_types` that an opcode accepts. -/
def acceptsArg1 (op : Opcode) (t : ClifType) : Bool :=
  match op with
  | rotl | rotr | ishl | ushr | sshr | bmask => t.scalarInt 8 128
  | _ => true

end Opcode

/-- Every type of a list is accepted. -/
def acceptsAll (accepts : ClifType → Bool) (types : Option (List OperandType)) : Bool :=
  match types with
  | none => true
  | some ts => ts.all fun t => accepts t.toCraneliftType

/-- The modes of an opcode list only types it accepts. -/
def Mode.acceptedBy (mode : Mode) (op : Opcode) : Bool :=
  acceptsAll op.accepts mode.operandTypes && acceptsAll op.acceptsArg0 mode.arg0Types &&
    acceptsAll op.acceptsArg1 mode.arg1Types

/-- Every mode of a config lists, for its opcode, only types the opcode accepts. -/
def ArchConfig.Accepted (config : ArchConfig) : Prop :=
  ∀ op ∈ Opcode.all, ∀ instr ∈ config.instructions, instr.name = op.name →
    ∀ modes, instr.modes = some modes → ∀ mode ∈ modes, mode.acceptedBy op = true

instance (config : ArchConfig) : Decidable config.Accepted :=
  inferInstanceAs (Decidable (∀ op ∈ Opcode.all, ∀ instr ∈ config.instructions,
    instr.name = op.name → ∀ modes ∈ instr.modes, ∀ mode ∈ modes, mode.acceptedBy op = true))

/-! ## Recorded types -/

namespace Opcode

/-- The type `r` is right for the result at controlling type `a`, recorded as `t`, or the exception
applies: the operand is itself an instance of it, or this is where it comes in. -/
def resultOk (op : Opcode) (t a r : ClifType) : Bool :=
  match op.resultTypes a with
  | some (r' :: _) =>
      r' == r || r == .i8 && r' == .i8x16 && (a != t || op == .icmp && a == .i8x16)
  | _ => true

/-- For operands recorded as `t`, the result may be recorded as `r`. -/
def records (op : Opcode) (t r : ClifType) : Bool :=
  op.resultOk t t r && (t != .i8 || op.resultOk t .i8x16 r)

/-- The first result has the controlling type. -/
def SameType (op : Opcode) : Prop := ∀ a, ∃ rest, op.resultTypes a = some (a :: rest)

/-- The first result has a fixed type. -/
def FixedType (op : Opcode) (r : ClifType) : Prop :=
  ∀ a, ∃ rest, op.resultTypes a = some (r :: rest)

theorem SameType.records {op : Opcode} (h : op.SameType) (t : ClifType) :
    op.records t t = true := by
  obtain ⟨rest, ht⟩ := h t
  obtain ⟨rest', hv⟩ := h .i8x16
  simp only [Opcode.records, resultOk, ht, hv]
  by_cases h8 : t = .i8
  · subst h8
    cases op <;> decide
  · simp [h8]

theorem FixedType.records {op : Opcode} {r : ClifType} (h : op.FixedType r) (t : ClifType) :
    op.records t r = true := by
  obtain ⟨rest, ht⟩ := h t
  obtain ⟨rest', hv⟩ := h .i8x16
  simp [Opcode.records, resultOk, ht, hv]

end Opcode

namespace Function

/-- Some `icmp` compares `i8x16` vectors. -/
def ComparesI8x16 (f : Function) : Prop :=
  ∃ b i, i ∈ f.layout.insts b ∧ (f.instData i).opcode = .icmp ∧
    ((f.instData i).arguments.map f.valueType).head? = some .i8x16

/-- The type recorded for a value is its type, except that the result of a comparison of `i8x16`
vectors, and what is made from it, may be recorded as `i8`. -/
def Agrees (f : Function) (t : ClifType) (v : Value) : Prop :=
  f.valueType v = t ∨ t = .i8 ∧ f.valueType v = .i8x16 ∧ f.ComparesI8x16

variable {f g : Function} {t r : ClifType} {v x : Value}

theorem Agrees.bytes (h : f.Agrees t v) (ht : t.bytes ≤ 16) : (f.valueType v).bytes ≤ 16 := by
  rcases h with h | ⟨-, h, -⟩
  · rwa [h]
  · rw [h]
    decide

theorem Agrees.mono (h : f.Agrees t v) (hv : g.valueType v = f.valueType v)
    (hcmp : f.ComparesI8x16 → g.ComparesI8x16) : g.Agrees t v := by
  rcases h with h | ⟨ht, h, hc⟩
  · exact .inl (hv.trans h)
  · exact .inr ⟨ht, hv.trans h, hcmp hc⟩

/-- The type recorded for a result agrees with its type if the one recorded for the operand that
controls it does. -/
theorem Agrees.result {op : Opcode} (h : f.Agrees t v) (hrec : op.records t r = true)
    {r' : ClifType} {rest : List ClifType}
    (hres : op.resultTypes (f.valueType v) = some (r' :: rest)) (hx : g.valueType x = r')
    (hcmp : f.ComparesI8x16 → g.ComparesI8x16)
    (hicmp : op = .icmp → f.valueType v = .i8x16 → g.ComparesI8x16) : g.Agrees r x := by
  obtain ⟨hself, hvec⟩ : op.resultOk t t r = true ∧ (t ≠ .i8 ∨ op.resultOk t .i8x16 r = true) := by
    simpa [Opcode.records] using hrec
  have hok : op.resultOk t (f.valueType v) r = true := by
    rcases h with h | ⟨ht, h, -⟩
    · rwa [h]
    · rw [h]
      exact hvec.resolve_left fun hne => hne ht
  rw [Opcode.resultOk, hres] at hok
  obtain heq | ⟨⟨hr, hr'⟩, hex⟩ : r' = r ∨ (r = .i8 ∧ r' = .i8x16) ∧
      (f.valueType v ≠ t ∨ op = .icmp ∧ f.valueType v = .i8x16) := by
    simpa using hok
  · exact .inl (hx.trans heq)
  · refine .inr ⟨hr, hx.trans hr', ?_⟩
    rcases hex with hne | ⟨hop, hv⟩
    · rcases h with h | ⟨-, -, hc⟩
      · exact absurd h hne
      · exact hcmp hc
    · exact hicmp hop hv

end Function

end Clir
