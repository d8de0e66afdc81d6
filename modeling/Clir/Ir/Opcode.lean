import Clir.Ir.Types

set_option autoImplicit false

/-! # Opcodes

The opcodes of the intermediate language in the order of their definition, the names the printer
gives them, and the type rule of each: from the controlling type of an instruction to the types
of its results. An opcode without a rule of its own has one result of the controlling type.
-/

namespace Clir

inductive Opcode
  | jump | brif | brTable | debugtrap | trap | trapz | trapnz | return_ | call | callIndirect
  | returnCall | returnCallIndirect | funcAddr | tryCall | tryCallIndirect | splat | swizzle
  | x86Pshufb | insertlane | extractlane | smin | umin | smax | umax | avgRound | uaddSat
  | saddSat | usubSat | ssubSat | load | store | uload8 | sload8 | istore8 | uload16 | sload16
  | istore16 | uload32 | sload32 | istore32 | stackSwitch | uload8x8 | sload8x8 | uload16x4
  | sload16x4 | uload32x2 | sload32x2 | stackLoad | stackStore | stackAddr | dynamicStackLoad
  | dynamicStackStore | dynamicStackAddr | globalValue | symbolValue | tlsValue | getPinnedReg
  | setPinnedReg | getFramePointer | getStackPointer | getReturnAddress
  | getExceptionHandlerAddress | iconst | f16const | f32const | f64const | f128const | vconst
  | shuffle | nop | select | selectSpectreGuard | bitselect | blendv | vanyTrue | vallTrue
  | vhighBits | icmp | icmpImm | iadd | isub | ineg | iabs | imul | umulhi | smulhi
  | sqmulRoundSat | x86Pmulhrsw | udiv | sdiv | urem | srem | iaddImm | imulImm | udivImm
  | sdivImm | uremImm | sremImm | irsubImm | saddOverflowCin | uaddOverflowCin | uaddOverflow
  | saddOverflow | usubOverflow | ssubOverflow | umulOverflow | smulOverflow | uaddOverflowTrap
  | ssubOverflowBin | usubOverflowBin | band | bor | bxor | bnot | bandNot | borNot | bxorNot
  | bandImm | borImm | bxorImm | rotl | rotr | rotlImm | rotrImm | ishl | ushr | sshr | ishlImm
  | ushrImm | sshrImm | bitrev | clz | cls | ctz | bswap | popcnt | fcmp | fadd | fsub | fmul
  | fdiv | sqrt | fma | fneg | fabs | fcopysign | fmin | fmax | ceil | floor | trunc | nearest
  | bitcast | scalarToVector | bmask | ireduce | snarrow | unarrow | uunarrow | swidenLow
  | swidenHigh | uwidenLow | uwidenHigh | iaddPairwise | x86Pmaddubsw | uextend | sextend
  | fpromote | fdemote | fvdemote | fvpromoteLow | fcvtToUint | fcvtToSint | fcvtToUintSat
  | fcvtToSintSat | x86Cvtt2dq | fcvtFromUint | fcvtFromSint | isplit | iconcat | atomicRmw
  | atomicCas | atomicLoad | atomicStore | fence | extractVector | sequencePoint
  deriving DecidableEq, Repr

namespace Opcode

/-- `Opcode::all()` -/
def all : List Opcode :=
  [
    .jump, .brif, .brTable, .debugtrap, .trap, .trapz, .trapnz, .return_, .call, .callIndirect,
    .returnCall, .returnCallIndirect, .funcAddr, .tryCall, .tryCallIndirect, .splat, .swizzle,
    .x86Pshufb, .insertlane, .extractlane, .smin, .umin, .smax, .umax, .avgRound, .uaddSat,
    .saddSat, .usubSat, .ssubSat, .load, .store, .uload8, .sload8, .istore8, .uload16, .sload16,
    .istore16, .uload32, .sload32, .istore32, .stackSwitch, .uload8x8, .sload8x8, .uload16x4,
    .sload16x4, .uload32x2, .sload32x2, .stackLoad, .stackStore, .stackAddr, .dynamicStackLoad,
    .dynamicStackStore, .dynamicStackAddr, .globalValue, .symbolValue, .tlsValue, .getPinnedReg,
    .setPinnedReg, .getFramePointer, .getStackPointer, .getReturnAddress,
    .getExceptionHandlerAddress, .iconst, .f16const, .f32const, .f64const, .f128const, .vconst,
    .shuffle, .nop, .select, .selectSpectreGuard, .bitselect, .blendv, .vanyTrue, .vallTrue,
    .vhighBits, .icmp, .icmpImm, .iadd, .isub, .ineg, .iabs, .imul, .umulhi, .smulhi,
    .sqmulRoundSat, .x86Pmulhrsw, .udiv, .sdiv, .urem, .srem, .iaddImm, .imulImm, .udivImm,
    .sdivImm, .uremImm, .sremImm, .irsubImm, .saddOverflowCin, .uaddOverflowCin, .uaddOverflow,
    .saddOverflow, .usubOverflow, .ssubOverflow, .umulOverflow, .smulOverflow, .uaddOverflowTrap,
    .ssubOverflowBin, .usubOverflowBin, .band, .bor, .bxor, .bnot, .bandNot, .borNot, .bxorNot,
    .bandImm, .borImm, .bxorImm, .rotl, .rotr, .rotlImm, .rotrImm, .ishl, .ushr, .sshr, .ishlImm,
    .ushrImm, .sshrImm, .bitrev, .clz, .cls, .ctz, .bswap, .popcnt, .fcmp, .fadd, .fsub, .fmul,
    .fdiv, .sqrt, .fma, .fneg, .fabs, .fcopysign, .fmin, .fmax, .ceil, .floor, .trunc, .nearest,
    .bitcast, .scalarToVector, .bmask, .ireduce, .snarrow, .unarrow, .uunarrow, .swidenLow,
    .swidenHigh, .uwidenLow, .uwidenHigh, .iaddPairwise, .x86Pmaddubsw, .uextend, .sextend,
    .fpromote, .fdemote, .fvdemote, .fvpromoteLow, .fcvtToUint, .fcvtToSint, .fcvtToUintSat,
    .fcvtToSintSat, .x86Cvtt2dq, .fcvtFromUint, .fcvtFromSint, .isplit, .iconcat, .atomicRmw,
    .atomicCas, .atomicLoad, .atomicStore, .fence, .extractVector, .sequencePoint]

theorem all_eq_map_ofNat : all = (List.range 187).map ofNat := by decide +kernel

theorem ctorIdx_lt (op : Opcode) : op.ctorIdx < 187 := by cases op <;> decide

theorem mem_all (op : Opcode) : op ∈ all := by
  rw [all_eq_map_ofNat]
  exact List.mem_map.mpr ⟨op.ctorIdx, List.mem_range.mpr op.ctorIdx_lt, op.ofNat_ctorIdx⟩

/-- The name the printer gives an opcode. -/
def name : Opcode → String
  | jump => "jump"
  | brif => "brif"
  | brTable => "br_table"
  | debugtrap => "debugtrap"
  | trap => "trap"
  | trapz => "trapz"
  | trapnz => "trapnz"
  | return_ => "return"
  | call => "call"
  | callIndirect => "call_indirect"
  | returnCall => "return_call"
  | returnCallIndirect => "return_call_indirect"
  | funcAddr => "func_addr"
  | tryCall => "try_call"
  | tryCallIndirect => "try_call_indirect"
  | splat => "splat"
  | swizzle => "swizzle"
  | x86Pshufb => "x86_pshufb"
  | insertlane => "insertlane"
  | extractlane => "extractlane"
  | smin => "smin"
  | umin => "umin"
  | smax => "smax"
  | umax => "umax"
  | avgRound => "avg_round"
  | uaddSat => "uadd_sat"
  | saddSat => "sadd_sat"
  | usubSat => "usub_sat"
  | ssubSat => "ssub_sat"
  | load => "load"
  | store => "store"
  | uload8 => "uload8"
  | sload8 => "sload8"
  | istore8 => "istore8"
  | uload16 => "uload16"
  | sload16 => "sload16"
  | istore16 => "istore16"
  | uload32 => "uload32"
  | sload32 => "sload32"
  | istore32 => "istore32"
  | stackSwitch => "stack_switch"
  | uload8x8 => "uload8x8"
  | sload8x8 => "sload8x8"
  | uload16x4 => "uload16x4"
  | sload16x4 => "sload16x4"
  | uload32x2 => "uload32x2"
  | sload32x2 => "sload32x2"
  | stackLoad => "stack_load"
  | stackStore => "stack_store"
  | stackAddr => "stack_addr"
  | dynamicStackLoad => "dynamic_stack_load"
  | dynamicStackStore => "dynamic_stack_store"
  | dynamicStackAddr => "dynamic_stack_addr"
  | globalValue => "global_value"
  | symbolValue => "symbol_value"
  | tlsValue => "tls_value"
  | getPinnedReg => "get_pinned_reg"
  | setPinnedReg => "set_pinned_reg"
  | getFramePointer => "get_frame_pointer"
  | getStackPointer => "get_stack_pointer"
  | getReturnAddress => "get_return_address"
  | getExceptionHandlerAddress => "get_exception_handler_address"
  | iconst => "iconst"
  | f16const => "f16const"
  | f32const => "f32const"
  | f64const => "f64const"
  | f128const => "f128const"
  | vconst => "vconst"
  | shuffle => "shuffle"
  | nop => "nop"
  | select => "select"
  | selectSpectreGuard => "select_spectre_guard"
  | bitselect => "bitselect"
  | blendv => "blendv"
  | vanyTrue => "vany_true"
  | vallTrue => "vall_true"
  | vhighBits => "vhigh_bits"
  | icmp => "icmp"
  | icmpImm => "icmp_imm"
  | iadd => "iadd"
  | isub => "isub"
  | ineg => "ineg"
  | iabs => "iabs"
  | imul => "imul"
  | umulhi => "umulhi"
  | smulhi => "smulhi"
  | sqmulRoundSat => "sqmul_round_sat"
  | x86Pmulhrsw => "x86_pmulhrsw"
  | udiv => "udiv"
  | sdiv => "sdiv"
  | urem => "urem"
  | srem => "srem"
  | iaddImm => "iadd_imm"
  | imulImm => "imul_imm"
  | udivImm => "udiv_imm"
  | sdivImm => "sdiv_imm"
  | uremImm => "urem_imm"
  | sremImm => "srem_imm"
  | irsubImm => "irsub_imm"
  | saddOverflowCin => "sadd_overflow_cin"
  | uaddOverflowCin => "uadd_overflow_cin"
  | uaddOverflow => "uadd_overflow"
  | saddOverflow => "sadd_overflow"
  | usubOverflow => "usub_overflow"
  | ssubOverflow => "ssub_overflow"
  | umulOverflow => "umul_overflow"
  | smulOverflow => "smul_overflow"
  | uaddOverflowTrap => "uadd_overflow_trap"
  | ssubOverflowBin => "ssub_overflow_bin"
  | usubOverflowBin => "usub_overflow_bin"
  | band => "band"
  | bor => "bor"
  | bxor => "bxor"
  | bnot => "bnot"
  | bandNot => "band_not"
  | borNot => "bor_not"
  | bxorNot => "bxor_not"
  | bandImm => "band_imm"
  | borImm => "bor_imm"
  | bxorImm => "bxor_imm"
  | rotl => "rotl"
  | rotr => "rotr"
  | rotlImm => "rotl_imm"
  | rotrImm => "rotr_imm"
  | ishl => "ishl"
  | ushr => "ushr"
  | sshr => "sshr"
  | ishlImm => "ishl_imm"
  | ushrImm => "ushr_imm"
  | sshrImm => "sshr_imm"
  | bitrev => "bitrev"
  | clz => "clz"
  | cls => "cls"
  | ctz => "ctz"
  | bswap => "bswap"
  | popcnt => "popcnt"
  | fcmp => "fcmp"
  | fadd => "fadd"
  | fsub => "fsub"
  | fmul => "fmul"
  | fdiv => "fdiv"
  | sqrt => "sqrt"
  | fma => "fma"
  | fneg => "fneg"
  | fabs => "fabs"
  | fcopysign => "fcopysign"
  | fmin => "fmin"
  | fmax => "fmax"
  | ceil => "ceil"
  | floor => "floor"
  | trunc => "trunc"
  | nearest => "nearest"
  | bitcast => "bitcast"
  | scalarToVector => "scalar_to_vector"
  | bmask => "bmask"
  | ireduce => "ireduce"
  | snarrow => "snarrow"
  | unarrow => "unarrow"
  | uunarrow => "uunarrow"
  | swidenLow => "swiden_low"
  | swidenHigh => "swiden_high"
  | uwidenLow => "uwiden_low"
  | uwidenHigh => "uwiden_high"
  | iaddPairwise => "iadd_pairwise"
  | x86Pmaddubsw => "x86_pmaddubsw"
  | uextend => "uextend"
  | sextend => "sextend"
  | fpromote => "fpromote"
  | fdemote => "fdemote"
  | fvdemote => "fvdemote"
  | fvpromoteLow => "fvpromote_low"
  | fcvtToUint => "fcvt_to_uint"
  | fcvtToSint => "fcvt_to_sint"
  | fcvtToUintSat => "fcvt_to_uint_sat"
  | fcvtToSintSat => "fcvt_to_sint_sat"
  | x86Cvtt2dq => "x86_cvtt2dq"
  | fcvtFromUint => "fcvt_from_uint"
  | fcvtFromSint => "fcvt_from_sint"
  | isplit => "isplit"
  | iconcat => "iconcat"
  | atomicRmw => "atomic_rmw"
  | atomicCas => "atomic_cas"
  | atomicLoad => "atomic_load"
  | atomicStore => "atomic_store"
  | fence => "fence"
  | extractVector => "extract_vector"
  | sequencePoint => "sequence_point"

/-- The format's `typevar_operand`: the operand whose type is the controlling type. -/
def typevarOperand : Opcode → ℕ
  | select | selectSpectreGuard | bitselect | blendv | fma | saddOverflowCin | uaddOverflowCin
  | ssubOverflowBin | usubOverflowBin => 1
  | atomicCas => 2
  | _ => 0

/-- The result types at a controlling type. `none` where resolving a derived type panics. -/
def resultTypes (op : Opcode) (ctrl : ClifType) : Option (List ClifType) :=
  match op with
  | jump | brif | brTable | debugtrap | trap | trapz | trapnz | return_ | returnCall
  | returnCallIndirect | tryCall | tryCallIndirect | store | istore8 | istore16 | istore32
  | stackStore | dynamicStackStore | setPinnedReg | nop | atomicStore | fence
  | sequencePoint => some []
  | swizzle | x86Pshufb | shuffle => some [.i8x16]
  | x86Pmaddubsw => some [.i16x8]
  | icmp | fcmp => some [ctrl.asTruthy]
  | icmpImm | vanyTrue | vallTrue => some [.i8]
  | uaddOverflow | saddOverflow | usubOverflow | ssubOverflow | umulOverflow | smulOverflow
  | saddOverflowCin | uaddOverflowCin | ssubOverflowBin | usubOverflowBin => some [ctrl, .i8]
  | extractlane => some [ctrl.laneOf]
  | snarrow | unarrow | uunarrow => ctrl.splitLanes.map fun t => [t]
  | swidenLow | swidenHigh | uwidenLow | uwidenHigh => ctrl.mergeLanes.map fun t => [t]
  | isplit => ctrl.halfWidth.map fun t => [t, t]
  | iconcat => ctrl.doubleWidth.map fun t => [t]
  | fvdemote => some [.f32x4]
  | fvpromoteLow => some [.f64x2]
  | uload32 | sload32 => some [.i64]
  | uload8x8 | sload8x8 => some [.i16x8]
  | uload16x4 | sload16x4 => some [.i32x4]
  | uload32x2 | sload32x2 => some [.i64x2]
  | f16const => some [.f16]
  | f32const => some [.f32]
  | f64const => some [.f64]
  | f128const => some [.f128]
  | _ => some [ctrl]

end Opcode

end Clir
