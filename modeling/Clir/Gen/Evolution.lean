import Clir.Gen.Closed

set_option autoImplicit false

/-! # How a function evolves

The generator and `insert_function_invocation` are made of edits, so every property that is closed
under edits holds of the functions they make. The opcode of an instruction that is inserted is
structural, or it has been drawn and has a mode in the config, or the instruction makes a constant
of one of the config's operand types.
-/

namespace Clir

open Cmd Cursor InstructionData

/-- The config has a mode of an opcode whose arm inserts `op`. -/
def ArchConfig.Selects (config : ArchConfig) (op : Opcode) : Prop :=
  ∃ (drawn : Opcode) (mode : Mode), config.HasMode drawn.name mode ∧ op = drawn.emitted

/-- The instructions that make a constant of an operand type, with the types of their results. -/
def OperandType.constantInsts : OperandType → List (Opcode × ClifType)
  | .i128 => [(.iconst, .i64), (.uextend, .i128)]
  | .i8 => [(.iconst, .i8)]
  | .i16 => [(.iconst, .i16)]
  | .i32 => [(.iconst, .i32)]
  | .i64 => [(.iconst, .i64)]
  | .f16 => [(.f16const, .f16)]
  | .f32 => [(.f32const, .f32)]
  | .f64 => [(.f64const, .f64)]
  | o => [(.vconst, o.toCraneliftType)]

/-- An instruction of opcode `op` with results of the given types makes a constant that the entry
block starts with. -/
def ArchConfig.Seeds (config : ArchConfig) (op : Opcode) (tys : List ClifType) : Prop :=
  ∃ o ∈ config.operandTypes, ∃ ty, (op, ty) ∈ o.constantInsts ∧ tys = [ty]

/-- What is inserted because of the config. -/
def ArchConfig.Emits (config : ArchConfig) (op : Opcode) (tys : List ClifType) : Prop :=
  config.Seeds op tys ∨ config.Selects op

/-! ## What edits leave alone -/

/-- Instruction `i` has been made, with the given frame. -/
def Function.Frames (f : Function) (i : Inst)
    (frame : InstructionData.Frame) : Prop :=
  i < f.dfg.insts.len ∧ (f.instData i).frame = frame

theorem closed_frames (A : Opcode → List ClifType → Prop) (i : Inst)
    (frame : InstructionData.Frame) : Closed A fun f => f.Frames i frame := by
  intro f g h hf
  cases h with
  | replaceInst j data hj hframe =>
      refine ⟨hf.1, ?_⟩
      by_cases hij : i = j
      · subst hij
        rw [← hf.2, ← hframe]
        exact congrArg InstructionData.frame (PrimaryMap.set_get_self _ _ _)
      · rw [← hf.2]
        exact congrArg InstructionData.frame (PrimaryMap.set_get_of_ne _ _ hij)
  | inserted ctrl hop hdata htys he =>
      exact ⟨he.insts_len ▸ Nat.lt_succ_of_lt hf.1, by rw [he.instData_old hf.1, hf.2]⟩
  | called hr he =>
      exact ⟨he.insts_len ▸ Nat.lt_succ_of_lt hf.1, by rw [he.instData_old hf.1, hf.2]⟩
  | _ => exact hf

theorem closed_made (A : Opcode → List ClifType → Prop) (i : Inst) :
    Closed A fun f => i < f.dfg.insts.len := by
  intro f g h hf
  exact (closed_frames A i _ h ⟨hf, rfl⟩).1

theorem closed_slot (A : Opcode → List ClifType → Prop) (slot : StackSlot) :
    Closed A fun f => slot < f.sizedStackSlots.len := by
  intro f g h hf
  cases h with
  | createSizedStackSlot size => exact Nat.lt_succ_of_lt hf
  | inserted ctrl hop hdata htys he =>
      rw [he.sizedStackSlots]
      exact hf
  | called hr he =>
      rw [he.sizedStackSlots]
      exact hf
  | _ => exact hf

namespace Closed

variable {A : Opcode → List ClifType → Prop} {J K : Function → Prop} {δ α β : Type}

theorem and (hJ : Closed A J) (hK : Closed A K) : Closed A fun f => J f ∧ K f :=
  fun h hf => ⟨hJ h hf.1, hK h hf.2⟩

/-! ## What a command finds out

A command may find out something about the function that the rest needs and that edits keep. In the
rules `K` is the stronger property that the rest keeps. -/

section Learn

variable (hJ : Closed A J)
include hJ

theorem learn {P : β → Function → Prop} {x : M δ β} {k : β → M δ α}
    (hx : ∀ s, J s.func → Ensures (fun _ _ => True) x s fun a s' => J s'.func ∧ P a s'.func)
    (hP : ∀ a, Closed A (P a))
    (hk : ∀ a K, Closed A K → (∀ f, K f → J f) → (∀ f, K f → P a f) → Keeping K (k a)) :
    Keeping J (x >>= k) :=
  fun s hs => (hx s hs).bind fun a s' h =>
    (hk a _ (hJ.and (hP a)) (fun _ hf => hf.1) (fun _ hf => hf.2) s' h).mono fun _ _ h' => h'.1

/-- The last instruction of a block has been made. -/
theorem lastInst {b : Block} {k : Inst → M δ α}
    (hk : ∀ i K, Closed A K → (∀ f, K f → i < f.dfg.insts.len) → Keeping K (k i)) :
    Keeping J (Cursor.gotoLastInst b >>= fun _ => Clir.currentInst >>= k) := by
  rw [← bind_assoc]
  refine hJ.learn (fun s hs => Ensures.bind (P := fun _ s' => s'.func = s.func ∧
    ∀ i, s'.pos = .at_ i → i < s.func.dfg.insts.len) (ensures_bind_func ?_) fun _ s' h => ?_)
    (closed_made A) fun i K hK _ => hk i K hK
  · split
    · rename_i i hi
      have hmem : i ∈ s.func.layout.insts b := List.mem_of_mem_getLast? hi
      refine ensures_bind_func (Ensures.ite (fun _ => ensures_setPosition ⟨rfl, ?_⟩)
        fun _ => Ensures.panicWith trivial)
      intro j hj
      cases hj
      exact s.func.insts_lt b i hmem
    · exact Ensures.panicWith trivial
  · refine Ensures.bind (ensures_position (Q := fun p s'' => p = s'.pos ∧ s'' = s') ⟨rfl, rfl⟩) ?_
    rintro p _ ⟨rfl, rfl⟩
    split
    · rename_i i hi
      exact Ensures.pure ⟨h.1 ▸ hs, h.1 ▸ h.2 i hi⟩
    · exact Ensures.panicWith trivial

/-- The frame of an instruction that has been made. -/
theorem readFrame {i : Inst} {k : Function → M δ α} (hi : ∀ f, J f → i < f.dfg.insts.len)
    (hk : ∀ f K, Closed A K → (∀ g, K g → g.Frames i (f.instData i).frame) → Keeping K (k f)) :
    Keeping J (Cursor.func >>= k) :=
  hJ.learn (P := fun f g => g.Frames i (f.instData i).frame)
    (fun _ hs => ensures_func ⟨hs, hi _ hs, rfl⟩) (fun _ => closed_frames A i _)
    fun f K hK _ => hk f K hK

/-- A slot that is drawn has been made. -/
theorem randomStackSlot {k : StackSlot → M δ α}
    (hk : ∀ slot K, Closed A K → (∀ f, K f → slot < f.sizedStackSlots.len) → Keeping K (k slot)) :
    Keeping J (Clir.randomStackSlot >>= k) := by
  refine hJ.learn (fun s hs => ensures_bind_func ?_) (closed_slot A) fun slot K hK _ => hk slot K hK
  exact Ensures.chooseUnwrap trivial (fun _ _ => trivial) fun slot hslot =>
    ⟨hs, List.mem_range.mp hslot⟩

/-- A slot has been made once it is created. -/
theorem createSlot {size : ℕ} {k : StackSlot → M δ α} (hk : ∀ slot K, Closed A K →
      (∀ f, K f → J f) → (∀ f, K f → slot < f.sizedStackSlots.len) → Keeping K (k slot)) :
    Keeping J (Clir.createSizedStackSlot size >>= k) := by
  refine hJ.learn (fun s hs => ensures_bind_func ?_) (closed_slot A) hk
  exact ensures_bind_setFunc (Ensures.pure
    ⟨hJ (.createSizedStackSlot s.func size) hs, Nat.lt_succ_self _⟩)

end Learn

theorem ensures_nextInst_lt (s : State δ) : Ensures (fun _ _ => True) Cursor.nextInst s
    fun o s' => s'.func = s.func ∧ ∀ i, o = some i → i < s.func.dfg.insts.len := by
  have hmove : ∀ (p : CursorPosition) (b : Block) (o : Option Inst),
      (∀ i, o = some i → i ∈ s.func.layout.insts b) → Ensures (fun _ _ => True)
        (Cursor.setPosition p >>= fun _ => pure o) s
        fun o s' => s'.func = s.func ∧ ∀ i, o = some i → i < s.func.dfg.insts.len := by
    intro p b o ho
    exact ensures_bind_setPosition (Ensures.pure ⟨rfl, fun i hi => s.func.insts_lt b i (ho i hi)⟩)
  refine ensures_bind_func ?_
  refine Ensures.bind (ensures_position (Q := fun p s' => p = s.pos ∧ s' = s) ⟨rfl, rfl⟩) ?_
  rintro p _ ⟨rfl, rfl⟩
  split
  · exact Ensures.pure ⟨rfl, by simp⟩
  · exact Ensures.pure ⟨rfl, by simp⟩
  · split
    · exact Ensures.panicWith trivial
    · split
      · rename_i b _ _ j hj
        exact hmove _ b _ fun i hi => Option.some.inj hi ▸ ListEdit.mem_of_next hj
      · exact hmove _ 0 _ (by simp)
  · split
    · rename_i b _ _ j hj
      exact hmove _ b _ fun i hi => Option.some.inj hi ▸ List.mem_of_mem_head? hj
    · exact hmove _ 0 _ (by simp)

variable (hJ : Closed A J)
include hJ

/-! ## The arms of instruction selection -/

section Emit

variable (data : InstructionData) (hop : data.opcode.Allowed A)
  (hdata : ∀ f, J f → data.Insertable f)
include hop hdata

theorem emit : Keeping J (emit data : M δ Value) :=
  (hJ.ins data hop hdata).bind fun i => firstResult i

theorem emitTyped (ctrl : ClifType) : Keeping J (emitTyped ctrl data : M δ Value) :=
  (hJ.insTyped data hop hdata ctrl).bind fun i => firstResult i

theorem emitAt (ctrl : Option ClifType) : Keeping J (emitAt ctrl data : M δ Value) := by
  cases ctrl with
  | none => exact hJ.emit data hop hdata
  | some t => exact hJ.emitTyped data hop hdata t

end Emit

/-- The address of a slot that has been made. -/
theorem stackAddr {slot : StackSlot} (hslot : ∀ f, J f → slot < f.sizedStackSlots.len)
    (offset : ℕ) : Keeping J (stackAddr slot offset : M δ Value) :=
  hJ.emitTyped (.stackLoad .stackAddr slot offset) (.inl rfl)
    (fun f hf => ⟨rfl, fun _ hs => Option.some.inj hs ▸ hslot f hf, rfl⟩) _

theorem randomStackAddr : Keeping J (randomStackAddr : M δ Value) :=
  hJ.randomStackSlot fun _ _ hK hslot => hK.stackAddr hslot 0

section Arms

variable {values : ClifType → List Value} {op : Opcode} (hop : op.Allowed A)

section Pick

omit hJ

theorem pickType (types : Option (List OperandType)) :
    Keeping J (chooseType types : M δ ClifType) :=
  (Preserves.unwrap _).bind fun _ => (Preserves.choose _).bind fun _ =>
    (Preserves.unwrap _).bind fun _ => .pure _

theorem pickValue (l : List Value) : Keeping J (chooseValue l : M δ Value) :=
  (Preserves.choose _).bind fun _ => .unwrap _

theorem randomType (types : List ClifType) : Keeping J (randomType types : M δ ClifType) :=
  (Preserves.choose _).bind fun _ => .unwrap _

theorem extractVectorType (t : ClifType) : Keeping J (extractVectorType t : M δ ClifType) := by
  unfold Clir.extractVectorType
  split
  · exact .pure _
  · exact .panicWith _

theorem bitcastTypeMapping (t : ClifType) : Keeping J (bitcastTypeMapping t : M δ ClifType) := by
  unfold Clir.bitcastTypeMapping
  split
  · exact .pure _
  · split
    · exact randomType _
    · exact .panicWith _

theorem recordedType (o : Option ClifType) : Keeping J (recordedType o : M δ ClifType) := by
  cases o with
  | none => exact .panicWith _
  | some t => exact .pure t

end Pick

include hop

/-- One instruction with operands, and what is returned for it. -/
theorem emitFixed (args : List Value) (ctrl : Option ClifType) {k : Value → M δ α}
    (hk : ∀ v, Keeping J (k v)) : Keeping J (Clir.emitAt ctrl (.fixed op args) >>= k) :=
  (hJ.emitAt (.fixed op args) hop (fun _ _ => insertable rfl) ctrl).bind hk

theorem binaryWith (ref : Value → Value → Value) (recorded : ClifType → Option ClifType)
    (t : ClifType) : Keeping J (binaryWith values ref op recorded t : M δ Selection) := by
  have hreturn : ∀ (args : List Value) (refs : Value → List TypedValue), Keeping J (do
      let newValue ← Clir.emit (.fixed op args)
      return defined newValue (← Clir.recordedType (recorded t)) (refs newValue) : M δ Selection) :=
    fun args _ => hJ.emitFixed hop args none fun _ => (recordedType _).bind fun _ => .pure _
  unfold Clir.binaryWith
  split
  · exact .pure none
  · exact hreturn _ _
  · exact (selectValue _).bind fun _ => (selectValue _).bind fun _ => hreturn _ _

theorem unary (ctrl : Option ClifType) (operandType resultType : ClifType) :
    Keeping J (unary values op ctrl operandType resultType : M δ Selection) :=
  (selectValue _).bind fun _ => hJ.emitFixed hop _ ctrl fun _ => .pure _

theorem unaryIfAny (t : ClifType) : Keeping J (unaryIfAny values op t : M δ Selection) :=
  .ite (.pure _) (hJ.unary hop none t t)

theorem unaryUniform (ctrl : Option ClifType) (operandType resultType : ClifType) :
    Keeping J (unaryUniform values op ctrl operandType resultType : M δ Selection) :=
  .ite (.pure _) ((pickValue _).bind fun _ => hJ.emitFixed hop _ ctrl fun _ => .pure _)

theorem convert (targets : List (ClifType × ClifType)) (t : ClifType) :
    Keeping J (convert values op targets t : M δ Selection) := by
  refine (selectValue _).bind fun v => ?_
  split
  · exact hJ.emitFixed hop [v] (some _) fun _ => .pure _
  · exact .pure none

theorem convertFrom (sources : List (ClifType × List ClifType)) (message : String)
    (t : ClifType) : Keeping J (convertFrom values op sources message t : M δ Selection) := by
  unfold Clir.convertFrom
  split
  · exact (randomType _).bind fun _ => hJ.unary hop _ _ _
  · exact .panicWith _

theorem widen (message : String) (t : ClifType) :
    Keeping J (widen values op message t : M δ Selection) := by
  unfold Clir.widen
  split
  · exact hJ.unary hop _ _ _
  · exact .panicWith _

theorem shift (mode : Mode) : Keeping J (shift values op mode : M δ Selection) :=
  (pickType _).bind fun _ => (pickType _).bind fun _ => (selectValue _).bind fun _ =>
    (selectValue _).bind fun _ => hJ.emitFixed hop _ none fun _ => .pure _

theorem selectOp (mode : Mode) : Keeping J (selectOp values op mode : M δ Selection) :=
  (pickType _).bind fun _ => (selectValue _).bind fun _ => (pickType _).bind fun _ =>
    (selectValue _).bind fun _ => (selectValue _).bind fun _ =>
      hJ.emitFixed hop _ none fun _ => .pure _

theorem carry (t : ClifType) : Keeping J (carry values op t : M δ Selection) :=
  .ite (.pure _) ((selectValue _).bind fun _ => (selectValue _).bind fun _ =>
    (selectValue _).bind fun _ => hJ.emitFixed hop _ none fun _ => .pure _)

theorem constant (t : ClifType) : Keeping J (constant op t : M δ Selection) :=
  hJ.emitFixed hop [] none fun _ => .pure _

theorem getRegister : Keeping J (getRegister op : M δ Selection) :=
  hJ.emitFixed hop [] (some .i64) fun _ => .pure _

theorem plain : Keeping J (plain op : M δ Selection) :=
  (hJ.ins (.fixed op []) hop fun _ _ => insertable rfl).bind fun _ => .pure _

theorem loadFrom (hload : op.isLoad = true) (addr : Value) (t : ClifType) :
    Keeping J (loadFrom op addr t : M δ Selection) :=
  (Preserves.genRange _ _).bind fun offset => (hJ.emitTyped (.load op addr offset) hop
    (fun _ _ => insertable (congrArg (none, none, ·) hload)) t).bind fun _ => .pure _

theorem loadFixed (hload : op.isLoad = true) (t : ClifType) :
    Keeping J (loadFixed op t : M δ Selection) :=
  hJ.randomStackAddr.bind fun addr => (Preserves.genRange _ _).bind fun offset =>
    (hJ.emit (.load op addr offset) hop fun _ _ =>
      insertable (congrArg (none, none, ·) hload)).bind fun _ => .pure _

theorem storeTo (hstore : op.isStore = true) (addr : Value) (t : ClifType) :
    Keeping J (storeTo values op addr t : M δ Selection) :=
  (selectValue _).bind fun v => (hJ.ins (.store op v addr 0) hop fun _ _ =>
    insertable (congrArg (none, none, ·) hstore)).bind fun _ => .pure _

end Arms

section Members

variable {values : ClifType → List Value} {mode : Mode}

theorem atomicCas (hop : ∀ tys, A .atomicCas tys) :
    Keeping J (atomicCas values mode : M δ Selection) := by
  refine hJ.randomStackSlot fun slot K hK hslot => (Preserves.genRange _ _).bind fun offset =>
    (hK.stackAddr hslot offset).bind fun addr => (pickType _).bind fun t => ?_
  split
  · exact .pure none
  · exact hK.emitFixed (.inr hop) _ none fun _ => .pure _
  · exact (selectValue _).bind fun _ => (selectValue _).bind fun _ =>
      hK.emitFixed (.inr hop) _ none fun _ => .pure _

theorem atomicRmw (hop : ∀ tys, A .atomicRmw tys) :
    Keeping J (atomicRmw values mode : M δ Selection) :=
  (pickType _).bind fun _ => hJ.randomStackAddr.bind fun _ => (selectValue _).bind fun _ =>
    hJ.emitFixed (.inr hop) _ (some _) fun _ => .pure _

theorem atomicLoad (hop : ∀ tys, A .atomicLoad tys) : Keeping J (atomicLoad mode : M δ Selection) :=
  hJ.randomStackAddr.bind fun _ => (pickType _).bind fun _ =>
    hJ.emitFixed (.inr hop) _ (some _) fun _ => .pure _

theorem atomicStore (hop : ∀ tys, A .atomicStore tys) :
    Keeping J (atomicStore values mode : M δ Selection) :=
  (pickType _).bind fun _ => hJ.randomStackAddr.bind fun addr => (selectValue _).bind fun v =>
    (hJ.ins (.fixed .atomicStore [v, addr]) (.inr hop) fun _ _ => insertable rfl).bind
      fun _ => .pure _

theorem store : Keeping J (store values mode : M δ Selection) :=
  hJ.randomStackAddr.bind fun _ => (pickType _).bind fun _ => .ite (.pure _)
    (hJ.storeTo (.inl rfl) rfl _ _)

theorem stackLoad (hop : ∀ tys, A .stackLoad tys) : Keeping J (stackLoad mode : M δ Selection) := by
  refine (pickType _).bind fun t => hJ.randomStackSlot fun slot K hK hslot => ?_
  have hdata : ∀ f, K f → (InstructionData.stackLoad .stackLoad slot 0).Insertable f :=
    fun f hf => ⟨rfl, fun _ hs => Option.some.inj hs ▸ hslot f hf, rfl⟩
  exact (hK.emitTyped (.stackLoad .stackLoad slot 0) (.inr hop) hdata t).bind fun _ => .pure _

theorem stackStore (hop : ∀ tys, A .stackStore tys) :
    Keeping J (stackStore values mode : M δ Selection) := by
  refine (pickType _).bind fun t => .ite (.pure _) ((selectValue _).bind fun v =>
    hJ.randomStackSlot fun slot K hK hslot => ?_)
  have hdata : ∀ f, K f → (InstructionData.stackStore .stackStore v slot 0).Insertable f :=
    fun f hf => ⟨rfl, fun _ hs => Option.some.inj hs ▸ hslot f hf, rfl⟩
  exact (hK.ins (.stackStore .stackStore v slot 0) (.inr hop) hdata).bind fun _ => .pure _

theorem setPinnedReg (hop : ∀ tys, A .setPinnedReg tys) :
    Keeping J (setPinnedReg : M δ Selection) :=
  hJ.randomStackAddr.bind fun addr =>
    (hJ.ins (.fixed .setPinnedReg [addr]) (.inr hop) fun _ _ => insertable rfl).bind
      fun _ => .pure _

theorem bitcast (hop : ∀ tys, A .bitcast tys) : Keeping J (bitcast values mode : M δ Selection) :=
  (pickType _).bind fun _ => (selectValue _).bind fun _ => (bitcastTypeMapping _).bind fun _ =>
    hJ.emitFixed (.inr hop) _ (some _) fun _ => .pure _

theorem bitselect (hop : ∀ tys, A .bitselect tys) :
    Keeping J (bitselect values mode : M δ Selection) :=
  (pickType _).bind fun _ => (selectValue _).bind fun _ => (selectValue _).bind fun _ =>
    (selectValue _).bind fun _ => hJ.emitFixed (.inr hop) _ none fun _ => .pure _

theorem fma (hop : ∀ tys, A .fma tys) : Keeping J (fma values mode : M δ Selection) :=
  (pickType _).bind fun _ => .ite (.pure _) ((pickValue _).bind fun _ => (pickValue _).bind
    fun _ => (pickValue _).bind fun _ => hJ.emitFixed (.inr hop) _ none fun _ => .pure _)

theorem insertlane (hop : ∀ tys, A .insertlane tys) :
    Keeping J (insertlane values mode : M δ Selection) :=
  (pickType _).bind fun _ => (extractVectorType _).bind fun _ => .ite (.pure _)
    ((pickValue _).bind fun _ => (pickValue _).bind fun _ =>
      hJ.emitFixed (.inr hop) _ none fun _ => .pure _)

theorem isplit (hop : ∀ tys, A .isplit tys) : Keeping J (isplit values mode : M δ Selection) := by
  refine (pickType _).bind fun t => .ite (.pure _) ?_
  split
  · exact .pure none
  · exact hJ.unary (.inr hop) _ _ _

theorem iconst (hop : ∀ tys, A .iconst tys) : Keeping J (iconst : M δ Selection) :=
  (Preserves.genRange _ _).bind fun _ => hJ.emitFixed (.inr hop) [] (some _) fun _ => .pure _

omit hJ in
theorem ifListed {arm : M δ Selection} (h : Keeping J arm) : Keeping J (ifListed mode arm) :=
  (Preserves.unwrap _).bind fun _ => .ite (.pure _) h

end Members

/-- The arm of an opcode inserts addresses and one instruction of that opcode. -/
theorem populateOpcode {values : ClifType → List Value} {op : Opcode} (mode : Mode)
    (hop : ∀ tys, A op.emitted tys) :
    Keeping J (populateOpcode values mode op : M δ Selection) := by
  cases op with
  | atomicCas => exact hJ.atomicCas hop
  | atomicRmw => exact hJ.atomicRmw hop
  | swizzle | smin | umin | smax | iadd | imul | smulhi | udiv | sdiv | urem | srem | band | bor
  | bxor | bandNot | borNot | bxorNot | fadd | fsub | fmul | fdiv | fcopysign | fmin | fmax
  | uaddOverflow | saddOverflow | usubOverflow | ssubOverflow | umulOverflow | smulOverflow
  | iaddPairwise | uaddOverflowTrap | snarrow | uunarrow | unarrow | iconcat | icmp | fcmp
  | shuffle | umax | avgRound | uaddSat | saddSat | usubSat | ssubSat | isub | umulhi
  | sqmulRoundSat | x86Pmulhrsw =>
      exact (pickType _).bind fun t => hJ.binaryWith (.inr hop) _ _ t
  | x86Pshufb | x86Pmaddubsw =>
      exact ifListed ((pickType _).bind fun t => hJ.binaryWith (.inr hop) _ _ t)
  | rotl | rotr | ishl | ushr | sshr => exact hJ.shift (.inr hop) mode
  | iaddImm | imulImm | udivImm | sdivImm | uremImm | sremImm | irsubImm | bandImm | borImm
  | bxorImm | rotlImm | rotrImm | ishlImm | ushrImm | sshrImm | sqrt | fneg | fabs | ceil | floor
  | trunc | nearest | icmpImm | vanyTrue | vallTrue =>
      exact (pickType _).bind fun t => hJ.unary (.inr hop) none t _
  | ineg | iabs | bnot | bitrev | clz | ctz | bswap | popcnt | cls =>
      exact (pickType _).bind fun t => hJ.unaryIfAny (.inr hop) t
  | extractlane | splat | scalarToVector =>
      exact (pickType _).bind fun t => (extractVectorType _).bind fun _ =>
        hJ.unaryUniform (.inr hop) _ _ _
  | insertlane => exact hJ.insertlane hop
  | vhighBits =>
      exact (pickType _).bind fun t => .ite (.pure _) (hJ.convert (.inr hop) _ t)
  | bitcast => exact hJ.bitcast hop
  | bmask =>
      exact (pickType _).bind fun _ => (pickType _).bind fun t => hJ.unary (.inr hop) _ t _
  | ireduce | uextend | sextend =>
      exact (pickType _).bind fun t => hJ.convertFrom (.inr hop) _ _ t
  | swidenLow | swidenHigh | uwidenLow | uwidenHigh =>
      exact (pickType _).bind fun t => hJ.widen (.inr hop) _ t
  | fpromote | fdemote | fvdemote | fvpromoteLow => exact hJ.unary (.inr hop) _ _ _
  | fcvtToUint | fcvtToSint | fcvtToUintSat | fcvtToSintSat | fcvtFromUint | fcvtFromSint =>
      exact (pickType _).bind fun t => hJ.convert (.inr hop) _ t
  | x86Cvtt2dq => exact ifListed ((pickType _).bind fun t => hJ.convert (.inr hop) _ t)
  | isplit => exact hJ.isplit hop
  | select | selectSpectreGuard => exact hJ.selectOp (.inr hop) mode
  | bitselect => exact hJ.bitselect hop
  | fma => exact hJ.fma hop
  | ssubOverflowBin | usubOverflowBin | uaddOverflowCin | saddOverflowCin =>
      exact (pickType _).bind fun t => hJ.carry (.inr hop) t
  | load | uload8 | sload8 =>
      exact hJ.randomStackAddr.bind fun addr => (pickType _).bind fun t =>
        hJ.loadFrom (.inr hop) rfl addr t
  | uload16 | sload16 =>
      exact (pickType _).bind fun t => hJ.randomStackAddr.bind fun addr =>
        hJ.loadFrom (.inr hop) rfl addr t
  | uload32 | sload32 | uload8x8 | sload8x8 | uload16x4 | sload16x4 | uload32x2 | sload32x2 =>
      exact hJ.loadFixed (.inr hop) rfl _
  | atomicLoad => exact hJ.atomicLoad hop
  | stackLoad => exact hJ.stackLoad hop
  | store => exact hJ.store
  | istore8 =>
      exact hJ.randomStackAddr.bind fun addr => (pickType _).bind fun t =>
        hJ.storeTo (.inr hop) rfl addr t
  | istore16 | istore32 =>
      exact (pickType _).bind fun t => hJ.randomStackAddr.bind fun addr =>
        hJ.storeTo (.inr hop) rfl addr t
  | atomicStore => exact hJ.atomicStore hop
  | stackStore => exact hJ.stackStore hop
  | stackAddr => exact hJ.randomStackAddr.bind fun _ => .pure none
  | setPinnedReg => exact hJ.setPinnedReg hop
  | getPinnedReg | getFramePointer | getStackPointer | getReturnAddress =>
      exact hJ.getRegister (.inr hop)
  | nop | fence | sequencePoint => exact hJ.plain (.inr hop)
  | iconst => exact hJ.iconst hop
  | f32const | f64const | f128const => exact hJ.constant (.inr hop) _
  | _ => exact .pure none

end Closed

section Populate

variable {config : ArchConfig} {J : Function → Prop} {δ : Type} (hJ : Closed config.Emits J)
include hJ

namespace Closed

/-- What is inserted is enabled, as the opcode that was drawn has a mode. -/
theorem populateBlockInstructions (dominatorBlocks : List Block) (values : ValueMap) :
    Keeping J (populateBlockInstructions dominatorBlocks values config : M δ Selection) := by
  unfold Clir.populateBlockInstructions
  have hdraw : Keeping J (instrMutation : M δ Opcode) :=
    (Preserves.choose _).bind fun o => .unwrap o
  refine hdraw.bind fun op => ?_
  unfold populateInstruction
  cases hinstr : config.instruction op.name with
  | none => exact .panicWith _
  | some instr =>
      cases hmodes : instr.modes with
      | none =>
          simp only [hmodes]
          exact .pure none
      | some modes =>
          simp only [hmodes]
          refine Preserves.chooseUnwrap fun mode hmode => ?_
          have hmem := List.mem_filter.mp (List.mem_of_getLast? hinstr)
          exact hJ.populateOpcode mode fun tys => .inr
            ⟨op, mode, ⟨instr, hmem.1, of_decide_eq_true hmem.2, modes, hmodes, hmode⟩, rfl⟩

/-! ## The first pass -/

variable {dominators : BlockMap (List Block)}

omit hJ in
theorem insertDef (tv : TypedValue) : Keeping J (insertDef tv) :=
  locals.bind fun _ => setLocals _

omit hJ in
theorem insertRefs (tvs : List TypedValue) : Keeping J (insertRefs tvs) :=
  locals.bind fun _ => setLocals _

omit hJ in
theorem publishDefs (b : Block) : Keeping J (publishDefs b) :=
  locals.bind fun _ => setLocals _

omit hJ in
theorem publishRefs (b : Block) : Keeping J (publishRefs b) :=
  locals.bind fun _ => setLocals _

theorem populateOnce (dominatorBlocks : List Block) :
    Keeping J (populateOnce dominatorBlocks config) := by
  refine locals.bind fun L => (hJ.populateBlockInstructions dominatorBlocks _).bind fun sel => ?_
  match sel with
  | none => exact .pure ()
  | some (none, none) => exact .pure ()
  | some (some tv, none) => exact insertDef tv
  | some (none, some refs) => exact (insertRefs refs).bind fun _ => .pure ()
  | some (some tv, some refs) => exact (insertRefs refs).bind fun _ => insertDef tv

/-- The types that are left are some of the operand types. -/
theorem seedParams (node : Block) (params : List ClifType) (types : List OperandType)
    (s : State Locals) (hs : J s.func) : Ensures (fun _ _ => True) (seedParams node params types) s
      fun rest s' => J s'.func ∧ rest ⊆ types := by
  induction params generalizing types s with
  | nil => exact Ensures.pure ⟨hs, List.Subset.refl types⟩
  | cons ty rest ih =>
      refine Ensures.bind (hJ.appendBlockParam node ty s hs) fun v s₁ h₁ =>
        Ensures.bind (insertDef _ s₁ h₁) fun _ s₂ h₂ => (ih _ s₂ h₂).mono ?_
      rintro left s₃ ⟨h₃, hleft⟩
      exact ⟨h₃, List.Subset.trans hleft (List.filter_subset_self _)⟩

/-- An instruction that makes a constant. -/
theorem insConstant {op : Opcode} {ty ctrl : ClifType} (args : List Value)
    (hop : config.Seeds op [ty]) (hty : op.resultTypes ctrl = some [ty]) :
    Keeping J (Cursor.insTyped (.fixed op args) ctrl : M δ Inst) := by
  refine hJ.insWith (.fixed op args) ctrl (fun tys htys => .inr (.inl ?_)) fun _ _ => insertable rfl
  obtain rfl : [ty] = tys := Option.some.inj (hty.symm.trans htys)
  exact hop

theorem genConstant {o : OperandType} (ho : o ∈ config.operandTypes) :
    Keeping J (genConstant o.toCraneliftType : M δ Value) := by
  have hseeds : ∀ {op ty}, (op, ty) ∈ o.constantInsts → config.Seeds op [ty] :=
    fun h => ⟨o, ho, _, h, rfl⟩
  have hfloat : ∀ {op ty}, (op, ty) ∈ o.constantInsts → (∀ c, op.resultTypes c = some [ty]) →
      Keeping J (Clir.emit (.fixed op []) : M δ Value) :=
    fun h hty => Preserves.bind (func fun f _ => hJ.insConstant [] (hseeds h) (hty _)) firstResult
  have htyped : ∀ {op ty} (args : List Value), (op, ty) ∈ o.constantInsts →
      op.resultTypes ty = some [ty] → Keeping J (Clir.emitTyped ty (.fixed op args) : M δ Value) :=
    fun args h hty => (hJ.insConstant args (hseeds h) hty).bind firstResult
  cases o with
  | i128 =>
      exact (htyped [] List.mem_cons_self rfl).bind fun v =>
        htyped [v] (List.mem_cons_of_mem _ List.mem_cons_self) rfl
  | f16 | f32 | f64 => exact hfloat List.mem_cons_self fun _ => rfl
  | _ => exact htyped [] List.mem_cons_self rfl

theorem seedEntry (node : Block) (params : List ClifType) :
    Keeping J (seedEntry node params config) := by
  refine hJ.learn (P := fun types _ => types ⊆ config.operandTypes)
    (hJ.seedParams node params config.operandTypes) (fun _ => fun _ h => h)
    fun types J' hJ' _ htypes => hJ'.createSlot fun ss0 K hK hKJ hss0 =>
      hK.createSlot fun ss1 L hL hLK hss1 => ?_
  intro s hs
  have hsub : types ⊆ config.operandTypes := htypes _ (hKJ _ (hLK _ hs))
  revert s hs
  refine Preserves.bind (.forM_of_mem fun o ho => (hL.genConstant (hsub ho)).bind fun _ =>
    insertDef _) fun _ => ?_
  have hstore : ∀ (v addr : Value) (i : ℕ), Keeping L (Cursor.ins (.store .store v addr (i * 8)) :
      M Locals Inst) :=
    fun v addr i => hL.ins (.store .store v addr (i * 8)) (.inl rfl) fun _ _ => insertable rfl
  refine (hL.stackAddr (fun f hf => hss0 f (hLK f hf)) 0).bind fun ss0Addr =>
    (hL.stackAddr hss1 0).bind fun ss1Addr => locals.bind fun _ => (Preserves.choose _).bind
      fun o => (Preserves.unwrap o).bind fun value => Preserves.bind ?_ fun _ => publishDefs node
  exact .forM (fun i => (hstore _ _ i).bind fun _ => (hstore _ _ i).bind fun _ => .pure _) _

/-- The condition is exchanged in the branch that was read. -/
theorem exchange {i : Inst} {frame : InstructionData.Frame}
    (hi : ∀ f, J f → f.Frames i frame) (data : InstructionData) (hframe : data.frame = frame) :
    Keeping J (Cursor.func >>= fun f => Cursor.setFunc (f.replaceInst i data) : M δ Unit) :=
  func fun f hf =>
    setFunc (hJ (.replaceInst f i data (hi f hf).1 (hframe.trans (hi f hf).2.symm)) hf)

theorem replaceCondition {i : Inst} {frame : InstructionData.Frame}
    (hi : ∀ f, J f → f.Frames i frame) (dominatorBlocks : List Block) (node : Block)
    (data : Value → InstructionData) (hframe : ∀ v, (data v).frame = frame) :
    Keeping J (replaceCondition dominatorBlocks node i data) := by
  refine locals.bind fun L => (selectValue _).bind fun v => func fun f hf =>
    (setFunc (hJ (.replaceInst f i (data v) (hi f hf).1 ?_) hf)).bind fun _ => func fun g _ => ?_
  · exact (hframe v).trans (hi f hf).2.symm
  · cases g.blockParams node with
    | nil => exact .pure ()
    | cons p _ => exact hJ.removeBlockParam p

/-- The condition of the branch that ends a block. -/
theorem setCondition (dominatorBlocks : List Block) (node : Block) :
    Keeping J (Cursor.gotoLastInst node >>= fun _ => setCondition dominatorBlocks node) := by
  refine hJ.lastInst fun i K hK hi => hK.readFrame hi fun f L hL hframe => ?_
  cases hdata : f.instData i with
  | brif | branchTable =>
      rw [hdata] at hframe
      exact hL.replaceCondition hframe _ _ _ fun _ => rfl
  | _ => exact .pure ()

theorem populateNode (node : Block) (dominatorBlocks : List Block) :
    Keeping J (populateNode config dominatorBlocks node) :=
  (Preserves.forM (fun _ => hJ.populateOnce _) _).bind fun _ => (publishDefs node).bind fun _ =>
    publishRefs node

theorem fillBlock (params : List ClifType) (isFirst : Bool) (node : Block) :
    Keeping J (fillBlock config params dominators isFirst node) := by
  have hvisit : Keeping J (do
      let _ ← genRange 0 5
      Clir.populateNode config (dominatorsOf dominators node) node
      if ((← Cursor.func).layout.lastInst node).isNone then
        let _ ← Cursor.ins (.fixed .nop [])) := by
    refine (Preserves.genRange 0 5).bind fun _ => (hJ.populateNode node _).bind fun _ =>
      func fun _ _ => .ite ?_ (.pure _)
    exact (hJ.ins (.fixed .nop []) (.inl rfl) fun _ _ => insertable rfl).bind fun _ => .pure _
  have henter : Keeping J (enterBlock config params dominators isFirst node) :=
    (gotoFirstInsertionPoint node).bind fun _ => locals.bind fun _ => (setLocals _).bind
      fun _ => .ite ((hJ.seedEntry node params).bind fun _ => hvisit) hvisit
  exact henter.bind fun _ => hJ.setCondition _ _

/-! ## The second pass -/

omit hJ in
theorem chooseMultiple {β : Type} (n : ℕ) (l : List β) :
    Keeping J (chooseMultiple n l : M δ (List β)) :=
  .of_mem_eq fun _ => ensures_chooseMultiple trivial n l

omit hJ in
theorem selectArgs (preBlock : Block) (types : List ClifType) :
    Keeping J (selectArgs dominators preBlock types) :=
  .mapM (fun _ => Preserves.bind (locals.bind fun _ => .pure _) selectValue) types

theorem addJoinParam (node : Block) (ty : ClifType) : Keeping J (addJoinParam node ty) :=
  (hJ.appendBlockParam node ty).bind fun _ => locals.bind fun _ => (Preserves.unwrap _).bind
    fun _ => (setLocals _).bind fun _ => .pure _

omit hJ in
theorem passToEntry (node : Block) {args : M Locals (List Value)} (hargs : Keeping J args)
    (sofar : List Value) (c : BlockCall) : Keeping J (passToEntry node args sofar c) :=
  .ite (hargs.bind fun _ => .pure _) (.pure _)

omit hJ in
theorem passToEntries (node : Block) {args : M Locals (List Value)} (hargs : Keeping J args)
    (sofar : List Value) (cs : List BlockCall) :
    Keeping J (passToEntries node args sofar cs) := by
  induction cs generalizing sofar with
  | nil => exact .pure []
  | cons c cs ih =>
      exact (passToEntry node hargs sofar c).bind fun r => (ih r.2).bind fun _ => .pure _

theorem passArgs (node : Block) (types : List ClifType) (preBlock : Block) :
    Keeping J (passArgs dominators node types preBlock) := by
  refine hJ.lastInst fun i K hK hi => hK.readFrame hi fun f L hL hframe => ?_
  have hargs : Keeping L (Clir.selectArgs dominators preBlock types) := selectArgs preBlock types
  cases hdata : f.instData i with
  | jump d =>
      rw [hdata] at hframe
      exact hargs.bind fun _ => hL.exchange hframe _ rfl
  | brif v t e =>
      rw [hdata] at hframe
      exact hargs.bind fun _ => .ite (hL.exchange hframe _ rfl) (hL.exchange hframe _ rfl)
  | branchTable v k =>
      exact func fun _ _ => (passToEntry node hargs _ _).bind fun r =>
        (passToEntries node hargs _ _).bind fun entries => hL.setJumpTable k fun _ => ⟨r.1, entries⟩
  | _ => exact .panicWith _

omit hJ in
theorem rewriteArg (limit : ℕ) (typeOf : Value → ClifType) (candidates : List (ClifType × Value))
    (arg : Value) : Keeping J (rewriteArg limit typeOf candidates arg : M δ Value) := by
  induction candidates generalizing arg with
  | nil => exact .pure arg
  | cons candidate rest ih =>
      exact .ite ((Preserves.genRange 0 10).bind fun _ => .ite (ih _) (ih _)) (ih _)

/-- The operands are exchanged in an instruction that has been made. -/
theorem rewriteInst (candidates : List (ClifType × Value)) {i : Inst} {s : State δ} (hs : J s.func)
    (hi : i < s.func.dfg.insts.len) :
    Ensures (fun _ _ => True) (rewriteInst candidates i) s fun _ s' => J s'.func := by
  have hkeep : ∀ data : List Value → InstructionData, (∀ args, (data args).frame =
      (s.func.instData i).frame) → ∀ args, Keeping J
        (Cursor.setFunc (s.func.replaceInst i (data args)) : M δ Unit) :=
    fun data hframe args => setFunc (hJ (.replaceInst s.func i _ hi (hframe args)) hs)
  refine ensures_bind_func (Ensures.ite (fun _ => Ensures.pure hs) fun _ => ?_)
  refine ((Preserves.mapM (fun _ => rewriteArg _ _ _ _) _).bind fun args => .ite (.pure _) ?_) s hs
  exact hkeep _ (fun _ => frame_withArguments _ _) args

theorem rewriteInsts (candidates : List (ClifType × Value)) (fuel : ℕ) :
    Keeping J (rewriteInsts candidates fuel : M δ Unit) := by
  induction fuel with
  | zero => exact .pure ()
  | succ fuel ih =>
      intro s hs
      refine (ensures_nextInst_lt s).bind fun o s' h => ?_
      have hs' : J s'.func := h.1 ▸ hs
      cases o with
      | none => exact Ensures.pure hs'
      | some i =>
          have hi : i < s'.func.dfg.insts.len := h.1 ▸ h.2 i rfl
          exact (hJ.rewriteInst candidates hs' hi).bind fun _ s'' hs'' => ih s'' hs''

theorem appendJoinParams (node : Block) (preBlocks : List Block) :
    Keeping J (appendJoinParams dominators node preBlocks) := by
  have htypes : Keeping J (joinTypes node) := locals.bind fun _ => .unwrap _
  exact htypes.bind fun types => (chooseMultiple _ types).bind fun chosen =>
    (Preserves.mapM (hJ.addJoinParam node) chosen).bind fun params =>
      (Preserves.forM (hJ.passArgs node chosen) _).bind fun _ => .pure _

theorem joinBlock (node : Block) : Keeping J (joinBlock dominators node) := by
  refine func fun f _ => .ite ?_ (.pure _)
  refine (hJ.appendJoinParams node _).bind fun candidates => ?_
  exact (gotoFirstInst node).bind fun _ => func fun _ _ => hJ.rewriteInsts candidates _

/-! ## Whole functions -/

theorem finalSignature (isRootFunc : Bool) (sig : Signature) :
    Keeping J (finalSignature isRootFunc sig : M δ Signature) := by
  refine .ite ((Preserves.genRange 8 10).bind fun n => Preserves.bind ?_ fun mainSig => ?_)
    (.pure sig)
  · exact .of_mem_eq fun _ => ensures_generateRandomSignature trivial
  · exact func fun f hf => (setFunc (hJ (.withSignature f mainSig) hf)).bind fun _ => .pure _

theorem functionGenerator (isRootFunc : Bool) :
    Keeping J (functionGenerator isRootFunc config) := by
  refine func fun start _ => (setPosition _).bind fun _ => (Preserves.unwrap _).bind fun _ =>
    (Preserves.forM (fun _ => hJ.fillBlock _ _ _) _).bind fun _ =>
      (Preserves.forM (fun b => hJ.joinBlock b) _).bind fun _ =>
        (hJ.finalSignature isRootFunc _).bind fun sig => func fun _ _ =>
          (Preserves.unwrap _).bind fun last => .ite ?_ ?_
  · exact (selectArgs _ _).bind fun values => (gotoBottom last).bind fun _ =>
      (hJ.ins (.multiAry .return_ values) (.inl rfl) fun _ _ => insertable rfl).bind fun _ =>
      locals.bind fun _ => .pure _
  · exact locals.bind fun _ => .pure _

omit hJ in
theorem withLocals {ε α : Type} {start : ε} {x : M ε α} (hx : Keeping J x) :
    Keeping J (withLocals start x : M δ α) := by
  intro s hs
  refine ⟨fun draws => ?_⟩
  have hrun := (hx ⟨s.func, s.pos, start⟩ hs).runs draws
  unfold Runs at hrun ⊢
  simp only [Clir.withLocals]
  split at hrun <;> simp_all

end Closed

end Populate

/-! ## The insertion of calls -/

/-- One edit of `insert_function_invocation`. A call has a result for each type that the function
it refers to returns. -/
inductive CallEdit : Function → Function → Prop
  | importFunction (f : Function) (data : ExtFuncData) : CallEdit f (f.importFunction data)
  | call {f g : Function} {b : Block} {before after : List Inst} {r : FuncRef} {args : List Value}
      {data : ExtFuncData} (hr : f.extFuncs.get? r = some data)
      (he : Emitted f g b before after (.call r args) data.signature.returns) : CallEdit f g
  | exchange (f : Function) (i : Inst) (args : List Value) (hi : i < f.dfg.insts.len) :
      CallEdit f (f.replaceInst i ((f.instData i).withArguments args))

theorem CallEdit.edit {f g : Function} (A : Opcode → List ClifType → Prop) (h : CallEdit f g) :
    Edit A f g := by
  cases h with
  | importFunction data => exact .importFunction f data
  | call hr he => exact .called hr he
  | exchange i args hi => exact .replaceInst f i _ hi (frame_withArguments _ _)

/-- The edits that insert calls keep the property. -/
def ClosedUnderCalls (J : Function → Prop) : Prop := ∀ {f g : Function}, CallEdit f g → J f → J g

/-- `g` is `f` after a number of edits that insert calls. -/
def EvolvesByCalls : Function → Function → Prop := Relation.ReflTransGen CallEdit

theorem EvolvesByCalls.keeps {J : Function → Prop} {f g : Function} (h : EvolvesByCalls f g)
    (hJ : ClosedUnderCalls J) (hf : J f) : J g := by
  induction h with
  | refl => exact hf
  | tail _ he ih => exact hJ he ih

theorem EvolvesByCalls.evolves {f g : Function} (A : Opcode → List ClifType → Prop)
    (h : EvolvesByCalls f g) : Evolves A f g :=
  Relation.ReflTransGen.mono (fun _ _ => CallEdit.edit A) _ _ h

/-- An imported function stays. -/
theorem closedUnderCalls_imported (r : FuncRef) (data : ExtFuncData) :
    ClosedUnderCalls fun f => f.extFuncs.get? r = some data := by
  intro f g h hf
  cases h with
  | importFunction new => exact PrimaryMap.get?_push_of_eq_some new hf
  | call hr he =>
      rw [he.extFuncs]
      exact hf
  | exchange i args hi => exact hf

namespace ClosedUnderCalls

variable {J : Function → Prop} {δ : Type} (hJ : ClosedUnderCalls J)
include hJ

theorem injectInto (callInst : Inst) (b : Block) :
    Keeping J (injectInto callInst b : M δ Unit) := by
  refine (Closed.gotoFirstInst b).bind fun _ s hs => ?_
  refine (Closed.ensures_nextInst_lt s).bind fun o s' h => ?_
  have hs' : J s'.func := h.1 ▸ hs
  cases o with
  | none => exact Ensures.pure hs'
  | some i =>
      have hi : i < s'.func.dfg.insts.len := h.1 ▸ h.2 i rfl
      refine ensures_bind_func (Ensures.ite (fun _ => Ensures.pure hs') fun _ => ?_)
      exact ((Preserves.mapM (Closed.rewriteArg _ _ _) _).bind fun args =>
        Closed.setFunc (hJ (.exchange s'.func i args hi) hs')) s' hs'

/-- The reference of the call is one that has been imported with the signature. -/
theorem placeCall {calleeRef : FuncRef} (data : ExtFuncData)
    (hcallee : ∀ f, J f → f.extFuncs.get? calleeRef = some data) (entry : Generated) :
    Keeping J (placeCall calleeRef data.signature entry : M δ (Inst × List Block)) := by
  have hbuild : ∀ args, Keeping J
      (Cursor.build (.call calleeRef args) data.signature.returns : M δ Inst) := by
    intro args s hs
    refine (ensures_build _ _).mono ?_
    rintro i s' ⟨-, ⟨_, _, _, he⟩, -⟩
    exact hJ (.call (hcallee _ hs) he) hs
  exact (Preserves.choose _).bind fun o => (Preserves.unwrap o).bind fun b =>
    (Closed.gotoLastInst b).bind fun _ => (Preserves.mapM (fun _ => Closed.selectValue _) _).bind
      fun args => (hbuild args).bind fun i => .pure _

theorem insertCall {calleeRef : FuncRef} (data : ExtFuncData)
    (hcallee : ∀ f, J f → f.extFuncs.get? calleeRef = some data) (entry : Generated) :
    Keeping J (insertCall calleeRef data.signature entry : M δ Unit) := by
  refine (hJ.placeCall data hcallee entry).bind fun p => (Preserves.choose p.2).bind fun o => ?_
  cases o with
  | none => exact .pure ()
  | some c => exact hJ.injectInto p.1 c

theorem insertFunctionInvocation (children : List Child) (entries : List Generated) :
    Keeping J (insertFunctionInvocation children entries : M δ Unit) := by
  refine .forM (fun child => ?_) children
  unfold invokeChild
  split
  · exact .panicWith _
  · refine Closed.func fun f hf s hs => ?_
    -- while the call is inserted, the function refers to the child
    let K : Function → Prop := fun g =>
      J g ∧ g.extFuncs.get? f.extFuncs.len = some ⟨child.name, child.signature⟩
    have hK : ClosedUnderCalls K :=
      fun h hg => ⟨hJ h hg.1, closedUnderCalls_imported _ _ h hg.2⟩
    have hentry : ∀ entry : Generated, Keeping K (do
        if (← Cursor.func).name = entry.func.name then
          Clir.insertCall f.extFuncs.len child.signature entry : M δ Unit) :=
      fun entry => Closed.func fun g _ => .ite
        (hK.insertCall ⟨child.name, child.signature⟩ (fun _ hg => hg.2) entry) (.pure _)
    have hentries : Keeping K (Cursor.new >>= fun _ => entries.forM _ : M δ Unit) :=
      (Closed.setPosition _).bind fun _ => .forM hentry entries
    have hstart : K (f.importFunction ⟨child.name, child.signature⟩) :=
      ⟨hJ (.importFunction f _) hf, PrimaryMap.get?_push_self _ _⟩
    refine Ensures.bind (ensures_setFunc (Q := fun _ s' => K s'.func) hstart) fun _ s' hs' => ?_
    exact (hentries s' hs').mono fun _ _ h => h.1

end ClosedUnderCalls

end Clir
