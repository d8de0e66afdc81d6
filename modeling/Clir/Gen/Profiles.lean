import Clir.Gen.Supported

set_option autoImplicit false

/-! # The profiles that come with the generator

A profile has one entry for every opcode, so it is a function from opcodes to modes
(`ArchConfig.ofModes`); the order of the entries in the file does not matter, as they are looked up
by name. The files also have an entry without modes for an instruction that is no opcode. An
intersection of profiles is a profile, with the modes of each opcode intersected. So whether a
profile is supported is a check of one opcode after the other.
-/

namespace Clir

/-! ## Profiles -/

namespace Opcode

/-- The bytes of a name, as a number modulo 2398, which is the first modulus that keeps the names
apart. -/
def fingerprint (name : String) : ℕ :=
  name.toByteArray.data.toList.foldl (fun n byte => (n * 256 + byte.toNat) % 2398) 0

/-- The names, and that of the entry that is no opcode. -/
theorem names_nodup : ("patchable_call" :: all.map name).Nodup := by
  have happart : ListEdit.apart 0 (("patchable_call" :: all.map name).map fingerprint) = true := by
    decide +kernel
  exact (ListEdit.nodup_of_apart happart).1.of_map _

theorem name_injective : Function.Injective name := by
  intro a b hab
  exact List.inj_on_of_nodup_map (List.nodup_cons.mp names_nodup).2 a.mem_all b.mem_all hab

theorem name_ne_patchableCall (op : Opcode) : op.name ≠ "patchable_call" := by
  intro h
  have hmem : op.name ∈ all.map name := List.mem_map_of_mem op.mem_all
  rw [h] at hmem
  exact (List.nodup_cons.mp names_nodup).1 hmem

end Opcode

namespace ArchConfig

/-- A config with an entry for every opcode. -/
def ofModes (operandTypes : List OperandType) (modes : Opcode → Option (List Mode)) :
    ArchConfig where
  operandTypes := operandTypes
  instructions := (Opcode.all.map fun op => ⟨op.name, modes op⟩) ++ [⟨"patchable_call", none⟩]

section OfModes

variable {types types' : List OperandType} {modes modes' : Opcode → Option (List Mode)}

theorem mem_ofModes {instr : Instruction} (h : instr ∈ (ofModes types modes).instructions)
    {op : Opcode} (hname : instr.name = op.name) : instr = ⟨op.name, modes op⟩ := by
  rcases List.mem_append.mp h with h | h
  · obtain ⟨op', -, rfl⟩ := List.mem_map.mp h
    rw [Opcode.name_injective hname]
  · rw [List.mem_singleton.mp h] at hname
    exact absurd hname.symm op.name_ne_patchableCall

theorem ofModes_mem (types : List OperandType) (modes : Opcode → Option (List Mode)) (op : Opcode) :
    ⟨op.name, modes op⟩ ∈ (ofModes types modes).instructions :=
  List.mem_append_left _ (List.mem_map.mpr ⟨op, op.mem_all, rfl⟩)

/-- **The entry of an opcode is its modes.** -/
@[simp] theorem instruction_ofModes (op : Opcode) :
    (ofModes types modes).instruction op.name = some ⟨op.name, modes op⟩ := by
  have hmem : ⟨op.name, modes op⟩ ∈
      (ofModes types modes).instructions.filter fun instr => instr.name = op.name :=
    List.mem_filter.mpr ⟨ofModes_mem types modes op, by simp⟩
  unfold instruction
  rw [List.getLast?_eq_some_getLast (List.ne_nil_of_mem hmem)]
  have hlast := List.mem_filter.mp (List.getLast_mem (List.ne_nil_of_mem hmem))
  exact congrArg some (mem_ofModes hlast.1 (by simpa using hlast.2))

/-- The modes of an opcode in an intersection. -/
def meetModes : Option (List Mode) → Option (List Mode) → Option (List Mode)
  | some selfModes, some otherModes => intersectModes selfModes otherModes
  | _, _ => none

theorem find_ofModes (op : Opcode) :
    ((ofModes types modes).instructions.find? fun i => i.name = op.name) =
      some ⟨op.name, modes op⟩ := by
  cases hfind : (ofModes types modes).instructions.find? fun i => i.name = op.name with
  | none =>
      have hnone := List.find?_eq_none.mp hfind _ (ofModes_mem types modes op)
      simp at hnone
  | some instr =>
      have hname : instr.name = op.name := by simpa using List.find?_some hfind
      rw [mem_ofModes (List.mem_of_find?_eq_some hfind) hname]

/-- **An intersection of profiles is a profile.** -/
theorem intersect_ofModes : (ofModes types modes).intersect (ofModes types' modes') =
    ofModes types fun op => meetModes (modes op) (modes' op) := by
  have hentry : ∀ op : Opcode,
      (⟨op.name, modes op⟩ : Instruction).intersect (ofModes types' modes') =
        ⟨op.name, meetModes (modes op) (modes' op)⟩ := by
    intro op
    unfold Instruction.intersect
    rw [find_ofModes]
    unfold meetModes
    cases modes op <;> cases modes' op <;> rfl
  have hlast : (⟨"patchable_call", none⟩ : Instruction).intersect (ofModes types' modes') =
      ⟨"patchable_call", none⟩ := by
    unfold Instruction.intersect
    split <;> rfl
  unfold intersect ofModes
  have hmap := List.map_congr_left fun op (_ : op ∈ Opcode.all) => hentry op
  rw [List.map_append, List.map_map, List.map_singleton]
  exact congrArg (ArchConfig.mk types) (congrArg₂ (· ++ ·) hmap (congrArg (fun i => [i]) hlast))

/-- There are values for the types of signatures, and every opcode is supported. -/
def SupportedModes (types : List OperandType) (modes : Opcode → Option (List Mode)) : Prop :=
  (∀ t ∈ rootTypes, t ∈ types.map OperandType.toCraneliftType) ∧
    ∀ op ∈ Opcode.all, ∀ ms ∈ modes op, ms ≠ [] ∧ ∀ mode ∈ ms,
      mode.acceptedBy op = true ∧ mode.SupportedBy (types.map OperandType.toCraneliftType) op

instance : Decidable (SupportedModes types modes) := inferInstanceAs (Decidable (_ ∧ _))

/-- **A profile is supported if every opcode is.** -/
theorem SupportedModes.supported (h : SupportedModes types modes) :
    (ofModes types modes).Supported where
  accepted op hop instr hinstr hname ms hms mode hmode := by
    rw [mem_ofModes hinstr hname] at hms
    exact ((h.2 op hop ms hms).2 mode hmode).1
  root := h.1
  found op _ := by rw [instruction_ofModes]; rfl
  modes op hop instr hinstr ms hms := by
    rw [instruction_ofModes] at hinstr
    obtain rfl := Option.some.inj hinstr
    have hop' := h.2 op hop ms hms
    exact ⟨hop'.1, fun mode hmode => (hop'.2 mode hmode).2⟩

end OfModes

end ArchConfig

/-! ## The four profiles -/

/-- One mode, for the listed types. -/
def listed (types : List OperandType) (result : ResultType) : Option (List Mode) :=
  some [{ name := "default", operandTypes := some types, resultType := some result }]

/-- One mode, for the types of the two operands. -/
def paired (arg0 arg1 : List OperandType) (result : ResultType) : Option (List Mode) :=
  some [{ name := "default", arg0Types := some arg0, arg1Types := some arg1,
          resultType := some result }]

/-- One mode, for the listed types in memory. -/
def accessed (types : List OperandType) : Option (List Mode) :=
  some [{ name := "default", operandTypes := some types, memory := some true }]

/-- The same, with a result. -/
def accessedAs (types : List OperandType) (result : ResultType) : Option (List Mode) :=
  some [{ name := "default", operandTypes := some types, resultType := some result,
          memory := some true }]

/-- The modes of `arch_x86.toml`. -/
def modesX86 : Opcode → Option (List Mode)
  | .atomicCas | .atomicRmw | .umulhi | .smulhi | .udiv | .sdiv | .urem | .srem | .umulOverflow
  | .smulOverflow | .iaddImm | .imulImm | .udivImm | .sdivImm | .uremImm | .sremImm | .irsubImm
  | .bandImm | .borImm | .bxorImm | .rotlImm | .rotrImm | .ishlImm | .ushrImm | .sshrImm =>
      listed [.i8, .i16, .i32, .i64] .same
  | .swizzle | .x86Pshufb =>
      listed [.i8x16] .same
  | .smin | .umin | .smax | .umax | .iabs =>
      listed [.i8, .i16, .i32, .i64, .i8x16, .i16x8, .i32x4, .i64x2] .same
  | .avgRound =>
      listed [.i8x16, .i16x8, .i32x4, .i64x2] .same
  | .uaddSat | .saddSat | .usubSat | .ssubSat =>
      listed [.i8x16, .i16x8] .same
  | .iadd | .isub | .imul | .ineg =>
      listed [.i8, .i16, .i32, .i64, .i128, .i8x16, .i16x8, .i32x4, .i64x2] .same
  | .sqmulRoundSat =>
      listed [.i16x8] .same
  | .x86Pmaddubsw | .shuffle =>
      listed [.i8x16] .conditional
  | .uaddOverflow | .saddOverflow | .usubOverflow | .ssubOverflow | .bitrev | .clz | .cls | .ctz =>
      listed [.i8, .i16, .i32, .i64, .i128] .same
  | .band | .bor | .bxor | .bandNot | .borNot | .bxorNot =>
      listed [.i8, .i16, .i32, .i64, .i128, .f32, .f64, .i8x16, .i16x8, .i32x4, .i64x2, .f16x8,
        .f32x4, .f64x2] .same
  | .rotl | .rotr =>
      paired [.i8, .i16, .i32, .i64, .i128] [.i8, .i16, .i32, .i64] .conditional
  | .ishl | .ushr | .sshr =>
      paired [.i8, .i16, .i32, .i64, .i128, .i8x16, .i16x8, .i32x4, .i64x2] [.i8, .i16, .i32, .i64]
        .conditional
  | .fadd | .fsub | .fmul | .fdiv | .fma | .sqrt | .fneg | .fabs | .ceil | .floor | .trunc
  | .nearest =>
      listed [.f32, .f64, .f32x4, .f64x2] .same
  | .fcopysign | .fmin | .fmax =>
      listed [.f32, .f64] .same
  | .snarrow | .unarrow =>
      listed [.i16x8, .i32x4] .conditional
  | .iaddPairwise =>
      listed [.i8x16, .i16x8, .i32x4] .same
  | .iconcat =>
      listed [.i64] .conditional
  | .extractlane | .insertlane | .splat | .vanyTrue =>
      listed [.i8x16, .i16x8, .i32x4, .i64x2, .f32x4, .f64x2] .conditional
  | .fcmp =>
      listed [.f32, .f64, .f32x4, .f64x2] .conditional
  | .uaddOverflowTrap =>
      listed [.i32, .i64] .same
  | .icmp =>
      listed [.i8, .i16, .i32, .i64, .i128, .i16x8, .i32x4, .i64x2] .conditional
  | .icmpImm =>
      listed [.i8, .i16, .i32, .i64] .conditional
  | .load =>
      accessed [.i8, .i16, .i32, .i64, .i128, .f16, .f32, .f64, .i8x16, .i16x8, .i32x4, .i64x2,
        .f16x8, .f32x4, .f64x2]
  | .uload8 | .sload8 | .istore8 =>
      accessed [.i16, .i32, .i64]
  | .uload16 | .sload16 | .istore16 =>
      accessed [.i32, .i64]
  | .uload32 | .sload32 | .istore32 =>
      accessed [.i64]
  | .uload8x8 | .sload8x8 =>
      accessed [.i16x8]
  | .uload16x4 | .sload16x4 =>
      accessed [.i32x4]
  | .uload32x2 | .sload32x2 =>
      accessed [.i64x2]
  | .bitcast =>
      listed [.i32, .i64, .f32, .f64, .i16x8, .i32x4, .i64x2, .f16x8, .f32x4, .f64x2] .conditional
  | .stackLoad =>
      accessedAs [.i8, .i16, .i32, .i64, .i128, .i8x16, .i16x8, .i32x4, .i64x2, .f16x8, .f32x4,
        .f64x2] .same
  | .stackStore | .store =>
      accessed [.i8, .i16, .i32, .i64, .i128, .i8x16, .i16x8, .i32x4, .i64x2, .f32x4, .f64x2]
  | .atomicStore | .atomicLoad =>
      accessed [.i8, .i16, .i32, .i64]
  | .select | .selectSpectreGuard =>
      paired [.i8, .i16, .i32, .i64] [.i8, .i16, .i32, .i64, .f32, .f64, .i8x16, .i16x8, .i32x4,
        .i64x2, .f32x4, .f64x2] .conditional
  | .bitselect =>
      listed [.i8, .i16, .i32, .i64, .f32, .f64, .i8x16, .i16x8, .i32x4, .i64x2, .f32x4, .f64x2]
        .same
  | .vallTrue =>
      listed [.i8x16, .i16x8, .i32x4, .i64x2, .f16x8, .f32x4, .f64x2] .conditional
  | .vhighBits =>
      listed [.i8x16, .i16x8, .i32x4, .i64x2] .conditional
  | .bnot =>
      listed [.i8, .i16, .i32, .i64, .i128, .f16, .f32, .f64, .i8x16, .i16x8, .i32x4, .i64x2,
        .f16x8, .f32x4, .f64x2] .same
  | .bswap =>
      listed [.i16, .i32, .i64, .i128] .same
  | .popcnt =>
      listed [.i8, .i16, .i32, .i64, .i128, .i8x16] .same
  | .scalarToVector =>
      listed [.i16x8, .i32x4, .i64x2, .f32x4, .f64x2] .conditional
  | .bmask =>
      paired [.i8, .i16, .i32, .i64, .i128] [.i8, .i16, .i32, .i64, .i128] .conditional
  | .ireduce =>
      listed [.i8, .i16, .i32] .conditional
  | .swidenLow | .swidenHigh | .uwidenLow | .uwidenHigh =>
      listed [.i16x8, .i32x4, .i64x2] .conditional
  | .uextend | .sextend | .isplit =>
      listed [.i16, .i32, .i64, .i128] .conditional
  | .fpromote =>
      listed [.f32] .conditional
  | .fdemote =>
      listed [.f64] .conditional
  | .fvdemote =>
      listed [.f64x2] .conditional
  | .fvpromoteLow | .x86Cvtt2dq =>
      listed [.f32x4] .conditional
  | .fcvtToUint | .fcvtToSint =>
      listed [.f32, .f64] .conditional
  | .fcvtToUintSat | .fcvtToSintSat =>
      listed [.f32, .f64, .f32x4] .conditional
  | .fcvtFromUint | .fcvtFromSint =>
      listed [.i32, .i64, .i32x4, .i64x2] .conditional
  | .f16const | .f32const | .f64const | .f128const | .iconst | .getPinnedReg | .fence
  | .setPinnedReg | .sequencePoint =>
      some [{ name := "default" }]
  | .x86Pmulhrsw =>
      listed [.i16x8] .conditional
  | .getStackPointer | .getFramePointer | .getReturnAddress =>
      some [{ name := "default", operandTypes := some [] }]
  | .blendv =>
      listed [.i8x16, .i16x8, .i32x4, .i64x2, .f16x8, .f32x4, .f64x2] .same
  | .ssubOverflowBin | .uaddOverflowCin | .saddOverflowCin | .usubOverflowBin =>
      listed [.i16, .i32, .i64] .same
  | _ => none

/-- The operand types of `arch_x86.toml`. -/
def typesX86 : List OperandType :=
  [.i8, .i16, .i32, .i64, .i128, .f16, .f32, .f64, .i8x16, .i16x8, .i32x4, .i64x2, .f16x8,
    .f32x4, .f64x2]

/-- `arch_x86.toml` -/
def archX86 : ArchConfig := .ofModes typesX86 modesX86

/-- The modes of `arch_aarch64.toml`. -/
def modesAarch64 : Opcode → Option (List Mode)
  | .atomicCas | .atomicRmw | .umulhi | .smulhi | .udiv | .sdiv | .urem | .srem | .umulOverflow
  | .smulOverflow | .iaddImm | .imulImm | .udivImm | .sdivImm | .uremImm | .sremImm | .irsubImm
  | .bandImm | .borImm | .bxorImm | .rotlImm | .rotrImm | .ishlImm | .ushrImm | .sshrImm =>
      listed [.i8, .i16, .i32, .i64] .same
  | .swizzle =>
      listed [.i8x16] .same
  | .smin | .umin | .smax | .umax | .iabs =>
      listed [.i8, .i16, .i32, .i64, .i8x16, .i16x8, .i32x4, .i64x2] .same
  | .avgRound | .uaddSat | .saddSat | .usubSat | .ssubSat =>
      listed [.i8x16, .i16x8, .i32x4, .i64x2] .same
  | .iadd | .isub | .imul | .ineg =>
      listed [.i8, .i16, .i32, .i64, .i128, .i8x16, .i16x8, .i32x4, .i64x2] .same
  | .sqmulRoundSat =>
      listed [.i16x8] .same
  | .uaddOverflow | .saddOverflow | .usubOverflow | .ssubOverflow | .bitrev | .clz | .cls | .ctz =>
      listed [.i8, .i16, .i32, .i64, .i128] .same
  | .band =>
      listed [.i8, .i16, .i32, .i64, .i128, .f32, .f64, .i8x16, .i16x8, .i32x4, .i64x2, .f32x4,
        .f64x2] .same
  | .bor | .bxor | .bandNot | .borNot | .bxorNot =>
      listed [.i8, .i16, .i32, .i64, .i128, .f16, .f32, .f64, .i8x16, .i16x8, .i32x4, .i64x2,
        .f32x4, .f64x2] .same
  | .rotl | .rotr =>
      paired [.i8, .i16, .i32, .i64, .i128] [.i8, .i16, .i32, .i64] .conditional
  | .ishl | .ushr | .sshr =>
      paired [.i8, .i16, .i32, .i64, .i128, .i8x16, .i16x8, .i32x4, .i64x2] [.i8, .i16, .i32, .i64]
        .conditional
  | .fadd | .fsub | .fmul | .fdiv | .fma | .sqrt | .fneg | .fabs | .ceil | .floor | .trunc
  | .nearest =>
      listed [.f32, .f64, .f32x4, .f64x2] .same
  | .fcopysign | .fmin | .fmax =>
      listed [.f32, .f64] .same
  | .snarrow | .unarrow =>
      listed [.i16x8, .i32x4] .conditional
  | .uunarrow | .swidenLow | .swidenHigh | .uwidenLow | .uwidenHigh =>
      listed [.i16x8, .i32x4, .i64x2] .conditional
  | .iaddPairwise =>
      listed [.i8x16, .i16x8, .i32x4] .same
  | .iconcat =>
      listed [.i64] .conditional
  | .extractlane | .insertlane | .splat | .vanyTrue | .vallTrue | .scalarToVector =>
      listed [.i8x16, .i16x8, .i32x4, .i64x2, .f32x4, .f64x2] .conditional
  | .fcmp | .fcvtToUintSat | .fcvtToSintSat =>
      listed [.f32, .f64, .f32x4, .f64x2] .conditional
  | .uaddOverflowTrap =>
      listed [.i32, .i64] .same
  | .icmp =>
      listed [.i8, .i16, .i32, .i64, .i128, .i16x8, .i32x4, .i64x2] .conditional
  | .icmpImm =>
      listed [.i8, .i16, .i32, .i64] .conditional
  | .load =>
      accessed [.i8, .i16, .i32, .i64, .i128, .f16, .f32, .f64, .i8x16, .i16x8, .i32x4, .i64x2,
        .f32x4, .f64x2]
  | .uload8 | .sload8 | .istore8 =>
      accessed [.i16, .i32, .i64]
  | .uload16 | .sload16 | .istore16 =>
      accessed [.i32, .i64]
  | .uload32 | .sload32 | .istore32 =>
      accessed [.i64]
  | .uload8x8 | .sload8x8 =>
      accessed [.i16x8]
  | .uload16x4 | .sload16x4 =>
      accessed [.i32x4]
  | .uload32x2 | .sload32x2 =>
      accessed [.i64x2]
  | .bitcast =>
      listed [.i32, .i64, .f32, .f64, .i16x8, .i32x4, .i64x2, .f32x4, .f64x2] .conditional
  | .shuffle =>
      listed [.i8x16] .conditional
  | .stackLoad =>
      listed [.i8, .i16, .i32, .i64, .i128, .i8x16, .i16x8, .i32x4, .i64x2, .f32x4, .f64x2]
        .conditional
  | .stackStore | .store =>
      accessed [.i8, .i16, .i32, .i64, .i128, .i8x16, .i16x8, .i32x4, .i64x2, .f32x4, .f64x2]
  | .atomicStore | .atomicLoad =>
      accessed [.i8, .i16, .i32, .i64]
  | .select | .selectSpectreGuard =>
      paired [.i8, .i16, .i32, .i64] [.i8, .i16, .i32, .i64, .f32, .f64, .i8x16, .i16x8, .i32x4,
        .i64x2, .f32x4, .f64x2] .conditional
  | .bitselect =>
      listed [.i8, .i16, .i32, .i64, .i8x16, .i16x8, .i32x4, .i64x2, .f32x4, .f64x2] .same
  | .vhighBits =>
      listed [.i8x16, .i16x8, .i32x4, .i64x2, .f32x4] .conditional
  | .bnot =>
      listed [.i8, .i16, .i32, .i64, .i128, .i8x16, .i16x8, .i32x4, .i64x2, .f32x4, .f64x2] .same
  | .bswap =>
      listed [.i16, .i32, .i64, .i128] .same
  | .popcnt =>
      listed [.i8, .i16, .i32, .i64, .i128, .i8x16] .same
  | .bmask =>
      paired [.i8, .i16, .i32, .i64, .i128] [.i8, .i16, .i32, .i64, .i128] .conditional
  | .ireduce =>
      listed [.i8, .i16, .i32] .conditional
  | .uextend | .sextend | .isplit =>
      listed [.i16, .i32, .i64, .i128] .conditional
  | .fpromote =>
      listed [.f32] .conditional
  | .fdemote =>
      listed [.f64] .conditional
  | .fvdemote =>
      listed [.f64x2] .conditional
  | .fvpromoteLow =>
      listed [.f32x4] .conditional
  | .fcvtToUint | .fcvtToSint =>
      listed [.f32, .f64] .conditional
  | .fcvtFromUint | .fcvtFromSint =>
      listed [.i32, .i64, .i32x4, .i64x2] .conditional
  | .f16const | .f32const | .f64const | .f128const | .iconst | .getPinnedReg | .fence
  | .setPinnedReg | .sequencePoint =>
      some [{ name := "default" }]
  | .getStackPointer | .getFramePointer | .getReturnAddress =>
      some [{ name := "default", operandTypes := some [] }]
  | .blendv =>
      listed [.i8x16, .i16x8, .i32x4, .i64x2, .f16x8, .f32x4, .f64x2] .same
  | .ssubOverflowBin | .uaddOverflowCin | .saddOverflowCin | .usubOverflowBin =>
      listed [.i16, .i32, .i64] .same
  | _ => none

/-- The operand types of `arch_aarch64.toml`. -/
def typesAarch64 : List OperandType :=
  [.i8, .i16, .i32, .i64, .i128, .f16, .f32, .f64, .i8x16, .i16x8, .i32x4, .i64x2, .f32x4,
    .f64x2]

/-- `arch_aarch64.toml` -/
def archAarch64 : ArchConfig := .ofModes typesAarch64 modesAarch64

/-- The modes of `arch_riscv64.toml`. -/
def modesRiscv64 : Opcode → Option (List Mode)
  | .atomicCas | .atomicRmw | .umulhi | .smulhi | .udiv | .sdiv | .urem | .srem | .iaddImm
  | .imulImm | .udivImm | .sdivImm | .uremImm | .sremImm | .irsubImm | .bandImm | .borImm | .bxorImm
  | .rotlImm | .rotrImm | .ishlImm | .ushrImm | .sshrImm =>
      listed [.i8, .i16, .i32, .i64] .same
  | .swizzle =>
      listed [.i8x16] .same
  | .smin | .umin | .smax | .umax | .iabs =>
      listed [.i8, .i16, .i32, .i64, .i8x16, .i16x8, .i32x4, .i64x2] .same
  | .avgRound | .uaddSat | .saddSat | .usubSat | .ssubSat =>
      listed [.i8x16, .i16x8, .i32x4, .i64x2] .same
  | .iadd | .isub | .imul | .ineg =>
      listed [.i8, .i16, .i32, .i64, .i128, .i8x16, .i16x8, .i32x4, .i64x2] .same
  | .sqmulRoundSat =>
      listed [.i16x8] .same
  | .band | .bxor | .bandNot | .borNot | .bxorNot =>
      listed [.i8, .i16, .i32, .i64, .i128, .f16, .f32, .f64, .i8x16, .i16x8, .i32x4, .i64x2,
        .f32x4] .same
  | .bor =>
      listed [.i8, .i16, .i32, .i64, .i128, .f16, .f32, .f64, .i8x16, .i16x8, .i32x4, .i64x2,
        .f32x4, .f64x2] .same
  | .rotl | .rotr =>
      paired [.i8, .i16, .i32, .i64, .i128] [.i8, .i16, .i32, .i64] .conditional
  | .ishl | .ushr | .sshr =>
      paired [.i8, .i16, .i32, .i64, .i128, .i8x16, .i16x8, .i32x4, .i64x2] [.i8, .i16, .i32, .i64]
        .conditional
  | .fadd | .fsub | .fmul | .fdiv | .fma | .fneg | .fabs | .ceil | .floor | .trunc | .nearest =>
      listed [.f32, .f64, .f32x4, .f64x2] .same
  | .fcopysign | .fmin | .fmax | .sqrt =>
      listed [.f32, .f64] .same
  | .snarrow | .unarrow =>
      listed [.i16x8, .i32x4] .conditional
  | .uunarrow | .swidenLow | .swidenHigh | .uwidenLow | .uwidenHigh =>
      listed [.i16x8, .i32x4, .i64x2] .conditional
  | .iaddPairwise =>
      listed [.i8x16, .i16x8, .i32x4] .same
  | .iconcat =>
      listed [.i64] .conditional
  | .extractlane | .insertlane | .splat =>
      listed [.i8x16, .i16x8, .i32x4, .i64x2, .f32x4, .f64x2] .conditional
  | .fcmp | .fcvtToUintSat | .fcvtToSintSat =>
      listed [.f32, .f64, .f32x4, .f64x2] .conditional
  | .uaddOverflowTrap =>
      listed [.i32, .i64] .same
  | .icmp =>
      listed [.i8, .i16, .i32, .i64, .i128, .i16x8, .i32x4, .i64x2] .conditional
  | .icmpImm =>
      listed [.i8, .i16, .i32, .i64] .conditional
  | .load =>
      accessed [.i8, .i16, .i32, .i64, .i128, .f16, .f32, .f64, .i8x16, .i16x8, .i32x4, .i64x2]
  | .uload8 | .sload8 | .istore8 =>
      accessed [.i16, .i32, .i64]
  | .uload16 | .sload16 | .istore16 =>
      accessed [.i32, .i64]
  | .uload32 | .sload32 | .istore32 =>
      accessed [.i64]
  | .uload8x8 | .sload8x8 =>
      accessed [.i16x8]
  | .uload16x4 | .sload16x4 =>
      accessed [.i32x4]
  | .uload32x2 | .sload32x2 =>
      accessed [.i64x2]
  | .bitcast =>
      listed [.i32, .i64, .f32, .f64, .i16x8, .i32x4, .i64x2, .f32x4, .f64x2] .conditional
  | .shuffle =>
      listed [.i8x16] .conditional
  | .stackLoad =>
      accessedAs [.i8, .i16, .i32, .i64, .i128, .i8x16, .i16x8, .i32x4, .i64x2, .f32x4, .f64x2]
        .same
  | .stackStore | .store =>
      accessed [.i8, .i16, .i32, .i64, .i128, .i8x16, .i16x8, .i32x4, .i64x2, .f32x4, .f64x2]
  | .atomicStore | .atomicLoad =>
      accessed [.i8, .i16, .i32, .i64]
  | .select | .selectSpectreGuard =>
      paired [.i8, .i16, .i32, .i64] [.i8, .i16, .i32, .i64, .f32, .f64, .i8x16, .i16x8, .i32x4,
        .i64x2, .f32x4, .f64x2] .conditional
  | .bitselect =>
      listed [.i8, .i16, .i32, .i64, .f32, .f64, .i8x16, .i16x8, .i32x4, .i64x2, .f32x4, .f64x2]
        .same
  | .vanyTrue | .vallTrue =>
      listed [.i8x16, .i16x8, .i32x4, .i64x2, .f32x4] .conditional
  | .vhighBits =>
      listed [.i8x16, .i16x8, .i32x4, .i64x2] .conditional
  | .bnot =>
      listed [.i8, .i16, .i32, .i64, .i128, .i8x16, .i16x8, .i32x4, .i64x2, .f32x4, .f64x2] .same
  | .bitrev | .clz | .cls | .ctz =>
      listed [.i8, .i16, .i32, .i64, .i128] .same
  | .bswap =>
      listed [.i16, .i32, .i64, .i128] .same
  | .popcnt =>
      listed [.i8, .i16, .i32, .i64, .i128, .i8x16] .same
  | .scalarToVector =>
      listed [.i8x16, .i16x8, .i32x4, .i64x2, .f32x4] .same
  | .bmask =>
      paired [.i8, .i16, .i32, .i64, .i128] [.i8, .i16, .i32, .i64, .i128] .conditional
  | .ireduce =>
      listed [.i8, .i16, .i32] .conditional
  | .uextend | .sextend | .isplit =>
      listed [.i16, .i32, .i64, .i128] .conditional
  | .fpromote =>
      listed [.f32] .conditional
  | .fdemote =>
      listed [.f64] .conditional
  | .fvdemote =>
      listed [.f64x2] .conditional
  | .fvpromoteLow =>
      listed [.f32x4] .conditional
  | .fcvtToUint | .fcvtToSint =>
      listed [.f32, .f64] .conditional
  | .fcvtFromUint | .fcvtFromSint =>
      listed [.i32, .i64, .i32x4, .i64x2] .conditional
  | .f16const | .f32const | .f64const | .f128const | .iconst | .getPinnedReg | .fence
  | .setPinnedReg | .sequencePoint =>
      some [{ name := "default" }]
  | .getStackPointer | .getFramePointer | .getReturnAddress =>
      some [{ name := "default", operandTypes := some [] }]
  | .blendv =>
      listed [.i8x16, .i16x8, .i32x4, .i64x2, .f16x8, .f32x4, .f64x2] .same
  | .ssubOverflowBin | .uaddOverflowCin | .saddOverflowCin | .usubOverflowBin =>
      listed [.i16, .i32, .i64] .same
  | _ => none

/-- The operand types of `arch_riscv64.toml`. -/
def typesRiscv64 : List OperandType :=
  [.i8, .i16, .i32, .i64, .i128, .f32, .f64, .i8x16, .i16x8, .i32x4, .i64x2, .f32x4,
    .f64x2]

/-- `arch_riscv64.toml` -/
def archRiscv64 : ArchConfig := .ofModes typesRiscv64 modesRiscv64

/-- The modes of `arch_s390x.toml`. -/
def modesS390x : Opcode → Option (List Mode)
  | .atomicCas | .atomicRmw | .udiv | .sdiv | .urem | .srem | .iaddImm | .imulImm | .udivImm
  | .sdivImm | .uremImm | .sremImm | .irsubImm | .bandImm | .borImm | .bxorImm | .rotlImm | .rotrImm
  | .ishlImm | .ushrImm | .sshrImm =>
      listed [.i8, .i16, .i32, .i64] .same
  | .swizzle =>
      listed [.i8x16] .same
  | .smin | .umin | .smax | .umax | .umulhi | .smulhi | .iabs =>
      listed [.i8, .i16, .i32, .i64, .i8x16, .i16x8, .i32x4, .i64x2] .same
  | .avgRound | .uaddSat | .saddSat | .usubSat | .ssubSat =>
      listed [.i8x16, .i16x8, .i32x4, .i64x2] .same
  | .iadd | .isub | .imul | .ineg =>
      listed [.i8, .i16, .i32, .i64, .i128, .i8x16, .i16x8, .i32x4, .i64x2] .same
  | .sqmulRoundSat =>
      listed [.i16x8] .same
  | .band | .bor | .bxor | .bandNot | .borNot | .bxorNot | .bnot =>
      listed [.i8, .i16, .i32, .i64, .i128, .i8x16, .i16x8, .i32x4, .i64x2, .f32x4, .f64x2] .same
  | .rotl | .rotr =>
      paired [.i8, .i16, .i32, .i64, .i128] [.i8, .i16, .i32, .i64] .conditional
  | .ishl | .ushr | .sshr =>
      paired [.i8, .i16, .i32, .i64, .i128, .i8x16, .i16x8, .i32x4, .i64x2] [.i8, .i16, .i32, .i64]
        .conditional
  | .fadd | .fsub | .fmul | .fdiv | .fma | .sqrt | .fneg | .fabs | .ceil | .floor | .trunc
  | .nearest =>
      listed [.f32, .f64, .f32x4, .f64x2] .same
  | .fcopysign | .fmin | .fmax =>
      listed [.f32, .f64] .same
  | .snarrow | .unarrow =>
      listed [.i16x8, .i32x4] .conditional
  | .uunarrow | .swidenLow | .swidenHigh | .uwidenLow | .uwidenHigh =>
      listed [.i16x8, .i32x4, .i64x2] .conditional
  | .iaddPairwise =>
      listed [.i8x16, .i16x8, .i32x4] .same
  | .iconcat =>
      listed [.i64] .conditional
  | .extractlane | .insertlane | .splat | .vanyTrue | .vallTrue | .scalarToVector =>
      listed [.i8x16, .i16x8, .i32x4, .i64x2, .f32x4, .f64x2] .conditional
  | .fcmp | .fcvtToUintSat | .fcvtToSintSat =>
      listed [.f32, .f64, .f32x4, .f64x2] .conditional
  | .uaddOverflowTrap =>
      listed [.i32, .i64] .same
  | .icmp =>
      listed [.i8, .i16, .i32, .i64, .i128, .i8x16, .i16x8, .i32x4, .i64x2] .conditional
  | .icmpImm =>
      listed [.i8, .i16, .i32, .i64] .conditional
  | .load =>
      accessed [.i8, .i16, .i32, .i64, .i128, .f32, .f64, .i8x16, .i16x8, .i32x4, .i64x2, .f32x4,
        .f64x2]
  | .uload8 | .sload8 | .istore8 =>
      accessed [.i16, .i32, .i64]
  | .uload16 | .sload16 | .istore16 =>
      accessed [.i32, .i64]
  | .uload32 | .sload32 | .istore32 =>
      accessed [.i64]
  | .uload8x8 | .sload8x8 =>
      accessed [.i16x8]
  | .uload16x4 | .sload16x4 =>
      accessed [.i32x4]
  | .uload32x2 | .sload32x2 =>
      accessed [.i64x2]
  | .bitcast =>
      listed [.i32, .i64, .f32, .f64, .i128, .i16x8, .i32x4, .i64x2, .f32x4, .f64x2] .conditional
  | .shuffle =>
      listed [.i8x16] .conditional
  | .stackLoad =>
      accessedAs [.i8, .i16, .i32, .i64, .i128, .i8x16, .i16x8, .i32x4, .i64x2, .f32x4, .f64x2]
        .same
  | .stackStore | .store =>
      accessed [.i8, .i16, .i32, .i64, .i128, .i8x16, .i16x8, .i32x4, .i64x2, .f32x4, .f64x2]
  | .atomicStore | .atomicLoad =>
      accessed [.i8, .i16, .i32, .i64]
  | .select | .selectSpectreGuard =>
      paired [.i8, .i16, .i32, .i64] [.i8, .i16, .i32, .i64, .f32, .f64, .i8x16, .i16x8, .i32x4,
        .i64x2, .f32x4, .f64x2] .conditional
  | .bitselect =>
      listed [.i8, .i16, .i32, .i64, .f32, .f64, .i8x16, .i16x8, .i32x4, .i64x2, .f32x4, .f64x2]
        .same
  | .vhighBits =>
      listed [.i8x16, .i16x8, .i32x4, .i64x2] .conditional
  | .bitrev | .clz | .cls | .ctz =>
      listed [.i8, .i16, .i32, .i64, .i128] .same
  | .bswap =>
      listed [.i16, .i32, .i64, .i128] .same
  | .popcnt =>
      listed [.i8, .i16, .i32, .i64, .i128, .i8x16] .same
  | .bmask =>
      paired [.i8, .i16, .i32, .i64, .i128] [.i8, .i16, .i32, .i64, .i128] .conditional
  | .ireduce =>
      listed [.i8, .i16, .i32] .conditional
  | .uextend | .sextend | .isplit =>
      listed [.i16, .i32, .i64, .i128] .conditional
  | .fpromote =>
      listed [.f32] .conditional
  | .fdemote =>
      listed [.f64] .conditional
  | .fvdemote =>
      listed [.f64x2] .conditional
  | .fvpromoteLow =>
      listed [.f32x4] .conditional
  | .fcvtToUint | .fcvtToSint =>
      listed [.f32, .f64] .conditional
  | .fcvtFromUint | .fcvtFromSint =>
      listed [.i32, .i64, .i32x4, .i64x2] .conditional
  | .f16const | .f32const | .f64const | .f128const | .iconst | .getPinnedReg | .fence
  | .setPinnedReg | .sequencePoint =>
      some [{ name := "default" }]
  | .getStackPointer | .getFramePointer | .getReturnAddress =>
      some [{ name := "default", operandTypes := some [] }]
  | .blendv =>
      listed [.i8x16, .i16x8, .i32x4, .i64x2, .f16x8, .f32x4, .f64x2] .same
  | .ssubOverflowBin | .uaddOverflowCin | .saddOverflowCin | .usubOverflowBin =>
      listed [.i16, .i32, .i64] .same
  | _ => none

/-- The operand types of `arch_s390x.toml`. -/
def typesS390x : List OperandType :=
  [.i8, .i16, .i32, .i64, .i128, .f32, .f64, .i8x16, .i16x8, .i32x4, .i64x2, .f32x4,
    .f64x2]

/-- `arch_s390x.toml` -/
def archS390x : ArchConfig := .ofModes typesS390x modesS390x

/-- The config of compatible mode, which is the intersection of the four. -/
def archCompatible : ArchConfig :=
  [archAarch64, archRiscv64, archS390x].foldl ArchConfig.intersect archX86

/-- The modes of the config of compatible mode. -/
def modesCompatible (op : Opcode) : Option (List Mode) :=
  [modesAarch64, modesRiscv64, modesS390x].foldl
    (fun ms modes => ArchConfig.meetModes ms (modes op)) (modesX86 op)

theorem archCompatible_eq : archCompatible = .ofModes typesX86 modesCompatible := by
  unfold archCompatible archX86 archAarch64 archRiscv64 archS390x
  simp only [List.foldl_cons, List.foldl_nil, ArchConfig.intersect_ofModes]
  rfl

/-- What can be generated from: a profile, or the intersection of all. -/
def shipped : List ArchConfig := [archX86, archAarch64, archRiscv64, archS390x, archCompatible]

/-- **The configs that come with the generator are supported.** -/
theorem shipped_supported : ∀ config ∈ shipped, config.Supported := by
  have hmodes : ArchConfig.SupportedModes typesX86 modesX86 ∧
      ArchConfig.SupportedModes typesAarch64 modesAarch64 ∧
      ArchConfig.SupportedModes typesRiscv64 modesRiscv64 ∧
      ArchConfig.SupportedModes typesS390x modesS390x ∧
      ArchConfig.SupportedModes typesX86 modesCompatible := by decide +kernel
  obtain ⟨hx86, haarch64, hriscv64, hs390x, hcompatible⟩ := hmodes
  unfold shipped
  rw [archCompatible_eq]
  simp only [List.forall_mem_cons]
  exact ⟨hx86.supported, haarch64.supported, hriscv64.supported, hs390x.supported,
    hcompatible.supported, List.forall_mem_nil _⟩

end Clir
