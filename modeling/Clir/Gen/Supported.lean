import Clir.Gen.PopulatePanics
import Clir.Gen.Safety

set_option autoImplicit false

/-! # Configs with which the generator never panics

Instruction selection panics if it draws from a list that is absent or empty, if it needs a value of
a type of which there is none, or if the type it draws is not in the table of an arm.
`ArchConfig.Supported` rules these out for every opcode and mode, by a check of the config alone:
the types of `operand_types` always have a value, because the entry block starts with a parameter or
a constant of each.

From a moment at which the cursor stands in a block (`Emitting`), emitting an instruction only fails
if its result type cannot be derived. So the arms are run one after another, with the end of the
draws as the only way to stop.
-/

namespace Clir

open Cmd Cursor

/-! ## What a config must have -/

/-- The sources of `ireduce`, by target. -/
def reduceSources : List (ClifType × List ClifType) :=
  [(.i8, [.i16, .i32, .i64]), (.i16, [.i32, .i64]), (.i32, [.i64])]

/-- The sources of `uextend` and `sextend`, by target. -/
def extendSources : List (ClifType × List ClifType) :=
  [(.i16, [.i8]), (.i32, [.i8, .i16]), (.i64, [.i8, .i16, .i32]), (.i128, [.i8, .i16, .i32, .i64])]

/-- The source of the widenings, by target. -/
def widenSources : List (ClifType × ClifType) :=
  [(.i16x8, .i8x16), (.i32x4, .i16x8), (.i64x2, .i32x4)]

namespace Opcode

/-- The arm does not panic on a type of the list `operand_types`, if the types in stock have
values. -/
def supports (stock : List ClifType) (op : Opcode) (t : ClifType) : Bool :=
  match op with
  | iaddImm | imulImm | udivImm | sdivImm | uremImm | sremImm | irsubImm | bandImm | borImm
  | bxorImm | rotlImm | rotrImm | ishlImm | ushrImm | sshrImm | sqrt | fneg | fabs | ceil | floor | trunc
  | nearest | icmpImm | vanyTrue | vallTrue | fcvtToUint | fcvtToSint | fcvtToUintSat
  | fcvtToSintSat | x86Cvtt2dq | fcvtFromUint | fcvtFromSint | bitselect | atomicRmw | istore8
  | istore16 | istore32 | atomicStore => decide (t ∈ stock)
  | snarrow | uunarrow => t ∈ [ClifType.i16x8, .i32x4, .i64x2]
  | unarrow => t ∈ [ClifType.i16x8, .i32x4]
  | iconcat => t == .i64
  | extractlane | splat | scalarToVector => (laneTypes.lookup t).isSome
  | insertlane => (laneTypes.lookup t).any (· ∈ stock)
  | bitcast => t ∈ stock && t ∈ [ClifType.i16, .i32, .i64, .i128, .f16, .f32, .f64, .i16x8, .i32x4,
      .i64x2, .f16x8, .f32x4, .f64x2]
  | ireduce => (reduceSources.lookup t).any fun sources => sources.all (· ∈ stock)
  | uextend | sextend => (extendSources.lookup t).any fun sources => sources.all (· ∈ stock)
  | swidenLow | swidenHigh | uwidenLow | uwidenHigh => (widenSources.lookup t).any (· ∈ stock)
  | _ => true

/-- The same for the list `arg0_types`. -/
def supportsArg0 (stock : List ClifType) (op : Opcode) (t : ClifType) : Bool :=
  match op with
  | rotl | rotr | ishl | ushr | sshr | select | selectSpectreGuard => decide (t ∈ stock)
  | _ => true

/-- The same for the list `arg1_types`. -/
def supportsArg1 (stock : List ClifType) (op : Opcode) (t : ClifType) : Bool :=
  match op with
  | rotl | rotr | ishl | ushr | sshr | bmask => decide (t ∈ stock)
  | _ => true

/-- The types that the arm asks for whatever the mode. -/
def needs : Opcode → List ClifType
  | fpromote => [.f32]
  | fdemote => [.f64]
  | fvdemote => [.f64x2]
  | fvpromoteLow => [.f32x4]
  | _ => []

end Opcode

/-- The arm of an opcode does not panic in a mode, if the types in stock have values. -/
structure Mode.SupportedBy (mode : Mode) (stock : List ClifType) (op : Opcode) : Prop where
  listed : ∀ slot ∈ op.slots, mode.listed slot ≠ []
  operand : ∀ t ∈ mode.listed .operand, op.supports stock t.toCraneliftType = true
  arg0 : ∀ t ∈ mode.listed .arg0, op.supportsArg0 stock t.toCraneliftType = true
  arg1 : ∀ t ∈ mode.listed .arg1, op.supportsArg1 stock t.toCraneliftType = true
  needs : ∀ t ∈ op.needs, t ∈ stock

instance (mode : Mode) (stock : List ClifType) (op : Opcode) :
    Decidable (mode.SupportedBy stock op) :=
  decidable_of_iff ((∀ slot ∈ op.slots, mode.listed slot ≠ []) ∧
      (∀ t ∈ mode.listed .operand, op.supports stock t.toCraneliftType = true) ∧
      (∀ t ∈ mode.listed .arg0, op.supportsArg0 stock t.toCraneliftType = true) ∧
      (∀ t ∈ mode.listed .arg1, op.supportsArg1 stock t.toCraneliftType = true) ∧
      ∀ t ∈ op.needs, t ∈ stock)
    ⟨fun h => ⟨h.1, h.2.1, h.2.2.1, h.2.2.2.1, h.2.2.2.2⟩, fun h => ⟨h.1, h.2, h.3, h.4, h.5⟩⟩

/-- The types that a config puts into stock. -/
def ArchConfig.stock (config : ArchConfig) : List ClifType :=
  config.operandTypes.map OperandType.toCraneliftType

/-- A config has an entry for every opcode; if the entry has modes, there is one to draw, and the
arm does not panic in any of them. -/
structure ArchConfig.Supported (config : ArchConfig) : Prop where
  accepted : config.Accepted
  root : ∀ t ∈ rootTypes, t ∈ config.stock
  found : ∀ op ∈ Opcode.all, (config.instruction op.name).isSome
  modes : ∀ op ∈ Opcode.all, ∀ instr ∈ config.instruction op.name, ∀ modes ∈ instr.modes,
    modes ≠ [] ∧ ∀ mode ∈ modes, mode.SupportedBy config.stock op

instance (config : ArchConfig) : Decidable config.Supported :=
  decidable_of_iff (config.Accepted ∧ (∀ t ∈ rootTypes, t ∈ config.stock) ∧
      (∀ op ∈ Opcode.all, (config.instruction op.name).isSome) ∧
      ∀ op ∈ Opcode.all, ∀ instr ∈ config.instruction op.name, ∀ modes ∈ instr.modes,
        modes ≠ [] ∧ ∀ mode ∈ modes, mode.SupportedBy config.stock op)
    ⟨fun h => ⟨h.1, h.2.1, h.2.2.1, h.2.2.2⟩, fun h => ⟨h.1, h.2, h.3, h.4⟩⟩

/-! ## Emission -/

/-- The cursor stands in a block, and there is a stack slot to choose. -/
structure Emitting {δ : Type} (s : State δ) : Prop where
  slots : 0 < s.func.sizedStackSlots.len
  cursor : ∃ b before after, Points s b before after

/-- The result types of an opcode can be derived, and there is a first result. -/
def Opcode.HasResult (op : Opcode) (ctrl : ClifType) : Prop :=
  ∃ r rest, op.resultTypes ctrl = some (r :: rest)

theorem Opcode.SameType.hasResult {op : Opcode} (h : op.SameType) (ctrl : ClifType) :
    op.HasResult ctrl := ⟨ctrl, h ctrl⟩

theorem Opcode.FixedType.hasResult {op : Opcode} {r : ClifType} (h : op.FixedType r)
    (ctrl : ClifType) : op.HasResult ctrl := ⟨r, h ctrl⟩

theorem Opcode.hasResult_of_ne_nil {op : Opcode} {ctrl : ClifType}
    (h : (op.resultTypes ctrl).getD [] ≠ []) : op.HasResult ctrl := by
  unfold HasResult
  cases hres : op.resultTypes ctrl with
  | none =>
      rw [hres] at h
      exact absurd rfl h
  | some tys =>
      cases tys with
      | nil =>
          rw [hres] at h
          exact absurd rfl h
      | cons r rest => exact ⟨r, rest, rfl⟩

section Emission

variable {δ : Type} {s : State δ} {I : Halt → State δ → Prop} {data : InstructionData}

theorem Emitting.build (h : Emitting s) (data : InstructionData) (tys : List ClifType) :
    Ensures I (build data tys) s fun i s' => Emitting s' ∧
      s'.func.dfg.results i = List.range' s.func.dfg.values.len tys.length := by
  obtain ⟨b, before, after, hpoints⟩ := h.cursor
  refine (hpoints.build data tys).mono ?_
  rintro i s' ⟨rfl, he, hpos, -⟩
  have hslots : 0 < s'.func.sizedStackSlots.len := by
    rw [he.sizedStackSlots]
    exact h.slots
  exact ⟨⟨hslots, _, _, _, hpoints.emitted he hpos⟩, he.results_new⟩

theorem Emitting.emitTyped (h : Emitting s) {ctrl : ClifType} (hres : data.opcode.HasResult ctrl) :
    Ensures I (emitTyped ctrl data) s fun _ => Emitting := by
  obtain ⟨r, rest, hres⟩ := hres
  unfold Clir.emitTyped insTyped
  rw [hres]
  refine Ensures.bind (h.build data (r :: rest)) ?_
  rintro i s' ⟨hplaced, hresults⟩
  unfold firstResult
  refine ensures_bind_func ?_
  rw [hresults]
  exact Ensures.pure hplaced

theorem Emitting.emitAt (h : Emitting s) (ctrl : Option ClifType)
    (hres : data.opcode.HasResult (ctrl.getD (s.func.controlType data))) :
    Ensures I (emitAt ctrl data) s fun _ => Emitting := by
  cases ctrl with
  | some t => exact h.emitTyped hres
  | none =>
      have hemit : Ensures I (Clir.emitTyped (s.func.controlType data) data) s fun _ => Emitting :=
        h.emitTyped hres
      exact ⟨hemit.runs⟩

theorem Emitting.emit (h : Emitting s) (hres : data.opcode.HasResult (s.func.controlType data)) :
    Ensures I (emit data) s fun _ => Emitting := h.emitAt none hres

/-- An instruction whose results do not depend on a type. -/
theorem Emitting.ins (h : Emitting s) {tys : List ClifType}
    (hres : ∀ ctrl, data.opcode.resultTypes ctrl = some tys) :
    Ensures I (ins data) s fun _ => Emitting := by
  unfold Cursor.ins
  refine ensures_bind_func ?_
  unfold insTyped
  rw [hres]
  exact (h.build data tys).mono fun _ _ h' => h'.1

theorem Emitting.randomStackSlot (h : Emitting s) :
    Ensures Dry (randomStackSlot : M δ StackSlot) s fun _ s' => s' = s ∧ True := by
  unfold Clir.randomStackSlot
  refine ensures_bind_func ?_
  refine Ensures.chooseUnwrap rfl (fun hnil => ?_) fun _ _ => ⟨rfl, trivial⟩
  have hlen : s.func.sizedStackSlots.len = 0 := by simpa using hnil
  have hpos := h.slots
  omega

theorem Emitting.stackAddr (h : Emitting s) (slot : StackSlot) (offset : ℕ) :
    Ensures I (stackAddr slot offset) s fun _ => Emitting := h.emitTyped ⟨.i64, [], rfl⟩

theorem Emitting.randomStackAddr (h : Emitting s) :
    Ensures Dry (randomStackAddr : M δ Value) s fun _ => Emitting := by
  unfold Clir.randomStackAddr
  exact Ensures.pick h.randomStackSlot fun slot _ => h.stackAddr slot 0

end Emission

/-! ## The shapes of the arms -/

section Shapes

variable {δ : Type} {s : State δ} {values : ClifType → List Value} {op : Opcode} {t r : ClifType}

/-- A type that a list has. -/
theorem ensures_listed (slot : Slot) {mode : Mode} (hne : mode.listed slot ≠ []) :
    Ensures Dry (chooseType (mode.types slot) : M δ ClifType) s fun t s' => s' = s ∧
      ∃ o ∈ mode.listed slot, t = o.toCraneliftType := by
  unfold Mode.listed at hne ⊢
  obtain ⟨ts, hts, hne⟩ := exists_of_getD_ne_nil hne
  rw [hts, chooseType_some]
  refine Ensures.pick (P := fun o => o ∈ ts) (Ensures.chooseUnwrap rfl (fun hnil => absurd hnil hne)
    fun o ho => ⟨rfl, ho⟩) fun o ho => Ensures.pure ⟨rfl, o, ho, rfl⟩

theorem ensures_selected (hne : values t ≠ []) :
    Ensures Dry (selectValue (values t) : M δ Value) s fun v s' => s' = s ∧ v ∈ values t :=
  ensures_selectValue _ rfl fun hnil => absurd hnil hne

theorem ensures_chosen (hne : values t ≠ []) :
    Ensures Dry (chooseValue (values t) : M δ Value) s fun v s' => s' = s ∧ v ∈ values t :=
  ensures_chooseValue _ rfl fun hnil => absurd hnil hne

/-- An instruction on values of type `t` has a result, at the given controlling type or at that of
any of the values. -/
def Derives (f : Function) (values : ClifType → List Value) (op : Opcode) (ctrl : Option ClifType)
    (t : ClifType) : Prop :=
  ∀ u ∈ values t, op.HasResult (ctrl.getD (f.valueType u))

theorem Derives.control {ctrl : Option ClifType} (h : Derives s.func values op ctrl t)
    (args : List Value) {u : Value} (hu : args[op.typevarOperand]? = some u) (ht : u ∈ values t) :
    op.HasResult (ctrl.getD (s.func.controlType (.fixed op args))) := by
  have hctrl : s.func.controlType (.fixed op args) = s.func.valueType u := by
    simp only [Function.controlType, InstructionData.arguments, InstructionData.opcode, hu]
  rw [hctrl]
  exact h u ht

theorem Emitting.binaryWith (h : Emitting s) (hctrl : op.typevarOperand = 0)
    {recorded : ClifType → Option ClifType} (hrec : recorded t = some r)
    (hder : Derives s.func values op none t) (ref : Value → Value → Value) :
    Ensures Dry (binaryWith values ref op recorded t : M δ Selection) s fun _ _ => True := by
  unfold Clir.binaryWith
  rw [hrec]
  split
  · exact Ensures.pure trivial
  · rename_i v hv
    have hmem : v ∈ values t := by
      rw [hv]
      exact List.mem_singleton_self v
    refine Ensures.bind (h.emit (hder.control [v, v] ?_ hmem)) fun _ _ _ =>
      Ensures.pure trivial
    rw [hctrl]
    rfl
  · rename_i candidates hnil _
    have hne : values t ≠ [] := hnil
    refine Ensures.pick (ensures_selected hne) fun x hx => ?_
    refine Ensures.pick (ensures_selected hne) fun y hy => ?_
    refine Ensures.bind (h.emit (hder.control [x, y] ?_ hx)) fun _ _ _ =>
      Ensures.pure trivial
    rw [hctrl]
    rfl

theorem Emitting.unary (h : Emitting s) (hctrl : op.typevarOperand = 0) {ctrl : Option ClifType}
    (hne : values t ≠ []) (hder : Derives s.func values op ctrl t) :
    Ensures Dry (unary values op ctrl t r : M δ Selection) s fun _ _ => True := by
  unfold Clir.unary
  refine Ensures.pick (ensures_selected hne) fun v hv => ?_
  refine Ensures.bind (h.emitAt _ (hder.control [v] ?_ hv)) fun _ _ _ =>
    Ensures.pure trivial
  rw [hctrl]
  rfl

theorem Emitting.unaryIfAny (h : Emitting s) (hctrl : op.typevarOperand = 0)
    (hder : Derives s.func values op none t) :
    Ensures Dry (unaryIfAny values op t : M δ Selection) s fun _ _ => True := by
  unfold Clir.unaryIfAny
  refine Ensures.ite (fun _ => Ensures.pure trivial) fun hne => ?_
  exact h.unary hctrl (fun hnil => hne (List.isEmpty_iff.mpr hnil)) hder

theorem Emitting.unaryUniform (h : Emitting s) (hctrl : op.typevarOperand = 0)
    {ctrl : Option ClifType} (hder : Derives s.func values op ctrl t) :
    Ensures Dry (unaryUniform values op ctrl t r : M δ Selection) s fun _ _ => True := by
  unfold Clir.unaryUniform
  refine Ensures.ite (fun _ => Ensures.pure trivial) fun hne => ?_
  refine Ensures.pick (ensures_chosen fun hnil => hne (List.isEmpty_iff.mpr hnil)) fun v hv => ?_
  refine Ensures.bind (h.emitAt _ (hder.control [v] ?_ hv)) fun _ _ _ =>
    Ensures.pure trivial
  rw [hctrl]
  rfl

theorem Emitting.convert (h : Emitting s) (hsame : op.SameType) (hne : values t ≠ [])
    (targets : List (ClifType × ClifType)) :
    Ensures Dry (convert values op targets t : M δ Selection) s fun _ _ => True := by
  unfold Clir.convert
  refine Ensures.pick (ensures_selected hne) fun v hv => ?_
  split
  · exact Ensures.bind (h.emitTyped (hsame.hasResult _)) fun _ _ _ => Ensures.pure trivial
  · exact Ensures.pure trivial

/-- A conversion to a type of the table whose sources all have values. -/
theorem Emitting.convertFrom (h : Emitting s) (hctrl : op.typevarOperand = 0) (hsame : op.SameType)
    {sources : List (ClifType × List ClifType)} {fromTypes : List ClifType} (message : String)
    (hlookup : sources.lookup t = some fromTypes) (hnonempty : fromTypes ≠ [])
    (hne : ∀ t' ∈ fromTypes, values t' ≠ []) :
    Ensures Dry (convertFrom values op sources message t : M δ Selection) s fun _ _ => True := by
  unfold Clir.convertFrom
  rw [hlookup]
  refine Ensures.pick (P := fun t' => t' ∈ fromTypes) (Ensures.chooseUnwrap rfl
    (fun hnil => absurd hnil hnonempty) fun t' ht' => ⟨rfl, ht'⟩) fun t' ht' => ?_
  exact h.unary hctrl (hne t' ht') fun _ _ => hsame.hasResult _

theorem Emitting.widen (h : Emitting s) (hctrl : op.typevarOperand = 0) {fromType : ClifType}
    (message : String) (hlookup : widenSources.lookup t = some fromType)
    (hne : values fromType ≠ []) (hder : Derives s.func values op none fromType) :
    Ensures Dry (widen values op message t : M δ Selection) s fun _ _ => True := by
  unfold Clir.widen
  unfold widenSources at hlookup
  rw [hlookup]
  exact h.unary hctrl hne hder

/-- Three operands, the second of which controls the type. -/
theorem Emitting.ternary (h : Emitting s) (hsame : op.SameType) (x y z : Value)
    (sel : Value → Selection) :
    Ensures Dry (do
      let newValue ← Clir.emit (.fixed op [x, y, z])
      return sel newValue : M δ Selection) s fun _ _ => True :=
  Ensures.bind (h.emit (hsame.hasResult _)) fun _ _ _ => Ensures.pure trivial

theorem Emitting.carry (h : Emitting s) (hsame : op.SameType) :
    Ensures Dry (carry values op t : M δ Selection) s fun _ _ => True := by
  unfold Clir.carry
  refine Ensures.ite (fun _ => Ensures.pure trivial) fun hor => ?_
  simp only [Bool.or_eq_true, List.isEmpty_iff, not_or] at hor
  refine Ensures.pick (ensures_selected hor.1) fun x _ => ?_
  refine Ensures.pick (ensures_selected hor.1) fun y _ => ?_
  refine Ensures.pick (ensures_selected hor.2) fun z _ => ?_
  exact h.ternary hsame x y z _

theorem Emitting.loadFrom (h : Emitting s) (hsame : op.SameType) (addr : Value) :
    Ensures Dry (loadFrom op addr t : M δ Selection) s fun _ _ => True := by
  unfold Clir.loadFrom
  refine Ensures.pick (P := fun _ => True) (Ensures.genRange rfl (fun hle => by omega)
    fun _ _ _ => ⟨rfl, trivial⟩) fun offset _ => ?_
  exact Ensures.bind (h.emitTyped (hsame.hasResult t)) fun _ _ _ => Ensures.pure trivial

theorem Emitting.loadFixed (h : Emitting s) (hfixed : op.FixedType r) :
    Ensures Dry (loadFixed op t : M δ Selection) s fun _ _ => True := by
  unfold Clir.loadFixed
  refine Ensures.bind h.randomStackAddr fun addr s' h' => ?_
  refine Ensures.pick (P := fun _ => True) (Ensures.genRange rfl (fun hle => by omega)
    fun _ _ _ => ⟨rfl, trivial⟩) fun offset _ => ?_
  exact Ensures.bind (h'.emit (hfixed.hasResult _)) fun _ _ _ => Ensures.pure trivial

theorem Emitting.storeTo (h : Emitting s) (hnone : ∀ ctrl, op.resultTypes ctrl = some [])
    (hne : values t ≠ []) (addr : Value) :
    Ensures Dry (storeTo values op addr t : M δ Selection) s fun _ _ => True := by
  unfold Clir.storeTo
  refine Ensures.pick (ensures_selected hne) fun v _ => ?_
  exact Ensures.bind (h.ins hnone) fun _ _ _ => Ensures.pure trivial

end Shapes

/-! ## The arms -/

section Arms

variable {δ : Type} {s : State δ} {values : ClifType → List Value} {op : Opcode} {mode : Mode}
  {stock : List ClifType}

/-- What an arm starts from: the cursor is placed, the types in stock have values, and values have
the types they are listed by, but for the results of comparisons of bytes. -/
structure Stock (values : ClifType → List Value) (stock : List ClifType) (s : State δ) : Prop
    extends Emitting s where
  values_ne_nil : ∀ t ∈ stock, values t ≠ []
  typed : ∀ t, ∀ v ∈ values t, s.func.Agrees t v

/-- The type of a listed value, other than a byte. -/
theorem Stock.valueType_eq (h : Stock values stock s) {t : ClifType} {v : Value} (hv : v ∈ values t)
    (ht : t ≠ .i8) : s.func.valueType v = t :=
  (h.typed t v hv).resolve_right fun hex => ht hex.1

theorem Stock.derives (h : Stock values stock s) {t : ClifType} (ht : t ≠ .i8)
    (hres : op.HasResult t) : Derives s.func values op none t := by
  intro u hu
  rw [Option.getD_none, h.valueType_eq hu ht]
  exact hres

/-- An arm that begins with a type of the list `operand_types`. -/
theorem ensures_operand {k : ClifType → M δ Selection} (hmode : mode.SupportedBy stock op)
    (hslots : .operand ∈ op.slots)
    (hk : ∀ t, op.supports stock t = true → Ensures Dry (k t) s fun _ _ => True) :
    Ensures Dry (chooseType mode.operandTypes >>= k) s fun _ _ => True := by
  refine Ensures.pick (ensures_listed .operand (hmode.listed _ hslots)) ?_
  rintro t ⟨o, ho, rfl⟩
  exact hk _ (hmode.operand o ho)

/-- The same for a type of the list `arg0_types`. -/
theorem ensures_arg0 {k : ClifType → M δ Selection} (hmode : mode.SupportedBy stock op)
    (hslots : .arg0 ∈ op.slots)
    (hk : ∀ t, op.supportsArg0 stock t = true → Ensures Dry (k t) s fun _ _ => True) :
    Ensures Dry (chooseType mode.arg0Types >>= k) s fun _ _ => True := by
  refine Ensures.pick (ensures_listed .arg0 (hmode.listed _ hslots)) ?_
  rintro t ⟨o, ho, rfl⟩
  exact hk _ (hmode.arg0 o ho)

/-- The same for a type of the list `arg1_types`. -/
theorem ensures_arg1 {k : ClifType → M δ Selection} (hmode : mode.SupportedBy stock op)
    (hslots : .arg1 ∈ op.slots)
    (hk : ∀ t, op.supportsArg1 stock t = true → Ensures Dry (k t) s fun _ _ => True) :
    Ensures Dry (chooseType mode.arg1Types >>= k) s fun _ _ => True := by
  refine Ensures.pick (ensures_listed .arg1 (hmode.listed _ hslots)) ?_
  rintro t ⟨o, ho, rfl⟩
  exact hk _ (hmode.arg1 o ho)

/-- Two operands of a listed type. -/
theorem Stock.binaryListed (h : Stock values stock s) (hmode : mode.SupportedBy stock op)
    (hslots : .operand ∈ op.slots) (hctrl : op.typevarOperand = 0)
    {recorded : ClifType → Option ClifType}
    (hlisted : ∀ t, op.supports stock t = true →
      Derives s.func values op none t ∧ (recorded t).isSome) (ref : Value → Value → Value) :
    Ensures Dry (do
      binaryWith values ref op recorded (← chooseType mode.operandTypes) : M δ Selection) s
      fun _ _ => True := by
  refine ensures_operand hmode hslots fun t ht => ?_
  obtain ⟨hder, hrec⟩ := hlisted t ht
  obtain ⟨r, hr⟩ := Option.isSome_iff_exists.mp hrec
  exact h.toEmitting.binaryWith hctrl hr hder ref

/-- Two operands of a listed type that is one of a few. -/
theorem Stock.binaryIn (h : Stock values stock s) (hmode : mode.SupportedBy stock op)
    (hslots : .operand ∈ op.slots) (hctrl : op.typevarOperand = 0)
    {recorded : ClifType → Option ClifType} (types : List ClifType)
    (hin : ∀ t, op.supports stock t = true → t ∈ types)
    (htable : ∀ t ∈ types,
      t ≠ .i8 ∧ (op.resultTypes t).getD [] ≠ [] ∧ (recorded t).isSome = true)
    (ref : Value → Value → Value) :
    Ensures Dry (do
      binaryWith values ref op recorded (← chooseType mode.operandTypes) : M δ Selection) s
      fun _ _ => True := by
  refine h.binaryListed hmode hslots hctrl (fun t ht => ?_) ref
  obtain ⟨hne, hres, hrec⟩ := htable t (hin t ht)
  exact ⟨h.derives hne (Opcode.hasResult_of_ne_nil hres), hrec⟩

/-- One operand of a listed type that is in stock. -/
theorem Stock.unaryListed (h : Stock values stock s) (hmode : mode.SupportedBy stock op)
    (hslots : .operand ∈ op.slots) (hctrl : op.typevarOperand = 0)
    (hres : ∀ ctrl, op.HasResult ctrl)
    (hstock : ∀ t, op.supports stock t = true → t ∈ stock) (result : ClifType → ClifType) :
    Ensures Dry (do
      let t ← chooseType mode.operandTypes
      unary values op none t (result t) : M δ Selection) s fun _ _ => True :=
  ensures_operand hmode hslots fun t ht =>
    h.toEmitting.unary hctrl (h.values_ne_nil t (hstock t ht)) fun _ _ => hres _

/-- A conversion of a listed type that is in stock. -/
theorem Stock.convertListed (h : Stock values stock s) (hmode : mode.SupportedBy stock op)
    (hslots : .operand ∈ op.slots) (hsame : op.SameType)
    (hstock : ∀ t, op.supports stock t = true → t ∈ stock)
    (targets : List (ClifType × ClifType)) :
    Ensures Dry (do
      convert values op targets (← chooseType mode.operandTypes) : M δ Selection) s
      fun _ _ => True :=
  ensures_operand hmode hslots fun t ht =>
    h.toEmitting.convert hsame (h.values_ne_nil t (hstock t ht)) targets

/-- A conversion to a listed type, from one of the sources that a table has for it. -/
theorem Stock.convertFromListed (h : Stock values stock s) (hmode : mode.SupportedBy stock op)
    (hslots : .operand ∈ op.slots) (hctrl : op.typevarOperand = 0) (hsame : op.SameType)
    {sources : List (ClifType × List ClifType)} (hnonempty : ∀ p ∈ sources, p.2 ≠ [])
    (hstock : ∀ t, op.supports stock t = true →
      (sources.lookup t).any (fun fromTypes => fromTypes.all (· ∈ stock)) = true)
    (message : String) :
    Ensures Dry (do
      convertFrom values op sources message (← chooseType mode.operandTypes) : M δ Selection) s
      fun _ _ => True := by
  refine ensures_operand hmode hslots fun t ht => ?_
  obtain ⟨fromTypes, hlookup, hall⟩ := (Option.any_eq_true _ _).mp (hstock t ht)
  refine h.toEmitting.convertFrom hctrl hsame message hlookup (hnonempty _ (mem_of_lookup hlookup))
    fun t' ht' => h.values_ne_nil t' ?_
  simpa using List.all_eq_true.mp hall t' ht'

/-- An access through a stack address to a value of a listed type. -/
theorem ensures_addrOperand {k : Value → ClifType → M δ Selection} (h : Emitting s)
    (hmode : mode.SupportedBy stock op) (hslots : .operand ∈ op.slots)
    (hk : ∀ addr t s', Emitting s' → op.supports stock t = true →
      Ensures Dry (k addr t) s' fun _ _ => True) :
    Ensures Dry (do
      let addr ← randomStackAddr
      k addr (← chooseType mode.operandTypes)) s fun _ _ => True :=
  Ensures.bind h.randomStackAddr fun addr s' h' =>
    ensures_operand hmode hslots fun t ht => hk addr t s' h' ht

/-- The same with the type drawn first. -/
theorem ensures_operandAddr {k : Value → ClifType → M δ Selection} (h : Emitting s)
    (hmode : mode.SupportedBy stock op) (hslots : .operand ∈ op.slots)
    (hk : ∀ addr t s', Emitting s' → op.supports stock t = true →
      Ensures Dry (k addr t) s' fun _ _ => True) :
    Ensures Dry (do
      let t ← chooseType mode.operandTypes
      k (← randomStackAddr) t) s fun _ _ => True :=
  ensures_operand hmode hslots fun t ht =>
    Ensures.bind h.randomStackAddr fun addr s' h' => hk addr t s' h' ht

theorem Emitting.atomicCas (h : Emitting s) (hmode : mode.SupportedBy stock .atomicCas) :
    Ensures Dry (atomicCas values mode : M δ Selection) s fun _ _ => True := by
  have hres : ∀ ctrl, Opcode.atomicCas.HasResult ctrl := fun ctrl => ⟨ctrl, [], rfl⟩
  unfold Clir.atomicCas
  refine Ensures.pick h.randomStackSlot fun slot _ => ?_
  refine Ensures.pick (P := fun _ => True) (Ensures.genRange rfl (fun hle => by omega)
    fun _ _ _ => ⟨rfl, trivial⟩) fun offset _ => ?_
  refine Ensures.bind (h.stackAddr slot offset) fun addr s' h' => ?_
  refine ensures_operand hmode (by decide) fun t _ => ?_
  split
  · exact Ensures.pure trivial
  · exact Ensures.bind (h'.emit (hres _)) fun _ _ _ => Ensures.pure trivial
  · rename_i hnil _
    refine Ensures.pick (ensures_selected hnil) fun x _ => ?_
    refine Ensures.pick (ensures_selected hnil) fun y _ => ?_
    exact Ensures.bind (h'.emit (hres _)) fun _ _ _ => Ensures.pure trivial

theorem Stock.insertlane (h : Stock values stock s) (hmode : mode.SupportedBy stock .insertlane) :
    Ensures Dry (insertlane values mode : M δ Selection) s fun _ _ => True := by
  unfold Clir.insertlane
  refine ensures_operand hmode (by decide) fun t ht => ?_
  obtain ⟨lane, hlane, hstock⟩ := (Option.any_eq_true _ _).mp ht
  unfold extractVectorType
  rw [hlane]
  refine Ensures.pick (P := fun l => l = lane) (Ensures.pure ⟨rfl, rfl⟩) ?_
  rintro _ rfl
  refine Ensures.ite (fun _ => Ensures.pure trivial) fun hne => ?_
  refine Ensures.pick (ensures_chosen fun hnil => hne (List.isEmpty_iff.mpr hnil)) fun x _ => ?_
  refine Ensures.pick (ensures_chosen (h.values_ne_nil _ (by simpa using hstock))) fun y _ => ?_
  refine Ensures.bind (h.toEmitting.emit ⟨_, [], rfl⟩) fun _ _ _ => Ensures.pure trivial

theorem ensures_castType {t : ClifType} (ht : Opcode.bitcast.supports stock t = true) :
    Ensures Dry (bitcastTypeMapping t : M δ ClifType) s fun _ s' => s' = s ∧ True := by
  have hmem : t ∈ [ClifType.i16, .i32, .i64, .i128, .f16, .f32, .f64, .i16x8, .i32x4, .i64x2,
      .f16x8, .f32x4, .f64x2] := by
    simp only [Opcode.supports, Bool.and_eq_true, decide_eq_true_eq] at ht
    exact ht.2
  have hchoice : ∀ l : List ClifType, l ≠ [] →
      Ensures Dry (randomType l : M δ ClifType) s fun _ s' => s' = s ∧ True := fun l hl =>
    Ensures.chooseUnwrap rfl (fun hnil => absurd hnil hl) fun _ _ => ⟨rfl, trivial⟩
  simp only [List.mem_cons, List.not_mem_nil, or_false] at hmem
  -- each type is in one of the two tables
  rcases hmem with rfl | rfl | rfl | rfl | rfl | rfl | rfl | rfl | rfl | rfl | rfl | rfl | rfl
  all_goals first
    | exact Ensures.pure ⟨rfl, trivial⟩
    | exact hchoice _ (by decide)

theorem Stock.bitcast (h : Stock values stock s) (hmode : mode.SupportedBy stock .bitcast) :
    Ensures Dry (bitcast values mode : M δ Selection) s fun _ _ => True := by
  unfold Clir.bitcast
  refine ensures_operand hmode (by decide) fun t ht => ?_
  have hstock : t ∈ stock := by
    simp only [Opcode.supports, Bool.and_eq_true, decide_eq_true_eq] at ht
    exact ht.1
  refine Ensures.pick (ensures_selected (h.values_ne_nil t hstock)) fun v _ => ?_
  refine Ensures.pick (ensures_castType ht) fun castType _ => ?_
  exact Ensures.bind (h.toEmitting.emitTyped ⟨castType, [], rfl⟩) fun _ _ _ => Ensures.pure trivial

theorem Stock.shift (h : Stock values stock s) (hmode : mode.SupportedBy stock op)
    (hslots : op.slots = [.arg0, .arg1])
    (hstock : ∀ t, op.supportsArg0 stock t = true ∨ op.supportsArg1 stock t = true → t ∈ stock)
    (hsame : op.SameType) :
    Ensures Dry (shift values op mode : M δ Selection) s fun _ _ => True := by
  unfold Clir.shift
  refine ensures_arg0 hmode (by simp [hslots]) fun t₀ ht₀ => ?_
  refine ensures_arg1 hmode (by simp [hslots]) fun t₁ ht₁ => ?_
  refine Ensures.pick (ensures_selected (h.values_ne_nil t₀ (hstock t₀ (.inl ht₀)))) fun x _ => ?_
  refine Ensures.pick (ensures_selected (h.values_ne_nil t₁ (hstock t₁ (.inr ht₁)))) fun y _ => ?_
  exact Ensures.bind (h.toEmitting.emit (hsame.hasResult _)) fun _ _ _ => Ensures.pure trivial

theorem Stock.selectOp (h : Stock values stock s) (hmode : mode.SupportedBy stock op)
    (hslots : .arg0 ∈ op.slots) (hstock : ∀ t, op.supportsArg0 stock t = true → t ∈ stock)
    (hsame : op.SameType) :
    Ensures Dry (selectOp values op mode : M δ Selection) s fun _ _ => True := by
  unfold Clir.selectOp
  refine ensures_arg0 hmode hslots fun tc htc => ?_
  refine Ensures.pick (ensures_selected (h.values_ne_nil tc (hstock tc htc))) fun c _ => ?_
  refine ensures_arg0 hmode hslots fun t ht => ?_
  refine Ensures.pick (ensures_selected (h.values_ne_nil t (hstock t ht))) fun x _ => ?_
  refine Ensures.pick (ensures_selected (h.values_ne_nil t (hstock t ht))) fun y _ => ?_
  exact h.toEmitting.ternary hsame c x y _

theorem Stock.isplit (h : Stock values stock s) (hmode : mode.SupportedBy stock .isplit) :
    Ensures Dry (isplit values mode : M δ Selection) s fun _ _ => True := by
  unfold Clir.isplit
  refine ensures_operand hmode (by decide) fun t _ => ?_
  refine Ensures.ite (fun _ => Ensures.pure trivial) fun hne => ?_
  split
  · exact Ensures.pure trivial
  · rename_i half hhalf
    refine h.toEmitting.unary rfl (fun hnil => hne (List.isEmpty_iff.mpr hnil)) ?_
    refine h.derives (fun ht => ?_) ⟨half, [half], ?_⟩
    · rw [ht] at hhalf
      cases hhalf
    · simp only [Opcode.resultTypes, hhalf, Option.map_some]

/-- An arm that gives up on an empty list. -/
theorem ensures_ifListed {arm : M δ Selection} (hne : mode.listed .operand ≠ [])
    (harm : Ensures Dry arm s fun _ _ => True) :
    Ensures Dry (ifListed mode arm) s fun _ _ => True := by
  obtain ⟨ts, hts, hne⟩ := exists_of_getD_ne_nil hne
  rw [ifListed_of_ne_nil hts hne]
  exact harm

private theorem sameType {op : Opcode} (h : ∀ a, op.resultTypes a = some [a]) : op.SameType :=
  fun a => ⟨[], h a⟩

private theorem sameTypeAndFlag {op : Opcode} (h : ∀ a, op.resultTypes a = some [a, .i8]) :
    op.SameType := fun a => ⟨[.i8], h a⟩

/-- **No arm panics in a mode that is supported**, from values in stock. -/
theorem Stock.populateOpcode (h : Stock values stock s) (hmode : mode.SupportedBy stock op) :
    Ensures Dry (populateOpcode values mode op : M δ Selection) s fun _ _ => True := by
  have hcursor : Emitting s := h.toEmitting
  cases op with
  | atomicCas => exact hcursor.atomicCas hmode
  | atomicRmw =>
      refine ensures_operandAddr (k := fun addr t => do
        let operandValue ← selectValue (values t)
        let newValue ← emitTyped t (.fixed .atomicRmw [addr, operandValue])
        return defined newValue t [⟨operandValue, t⟩]) hcursor hmode (by decide) ?_
      intro addr t s' h' ht
      have hne := h.values_ne_nil t (of_decide_eq_true ht)
      refine Ensures.pick (ensures_selected hne) fun v _ => ?_
      exact Ensures.bind (h'.emitTyped ⟨t, [], rfl⟩) fun _ _ _ => Ensures.pure trivial
  | smin | umin | smax | iadd | imul | smulhi | udiv | sdiv | urem | srem | band | bor | bxor
  | bandNot | borNot | bxorNot | fadd | fsub | fmul | fdiv | fcopysign | fmin | fmax
  | iaddPairwise | uaddOverflowTrap | umax | avgRound | uaddSat | saddSat | usubSat | ssubSat
  | isub | umulhi | sqmulRoundSat | x86Pmulhrsw | uaddOverflow | saddOverflow | usubOverflow
  | ssubOverflow | umulOverflow | smulOverflow | swizzle | icmp | fcmp | shuffle =>
      exact h.binaryListed hmode (by decide) rfl (fun t _ => ⟨fun u _ => ⟨_, _, rfl⟩, rfl⟩) _
  | snarrow | uunarrow =>
      exact h.binaryIn hmode (by decide) rfl [.i16x8, .i32x4, .i64x2]
        (fun _ ht => of_decide_eq_true ht) (by decide) _
  | unarrow =>
      exact h.binaryIn hmode (by decide) rfl [.i16x8, .i32x4] (fun _ ht => of_decide_eq_true ht)
        (by decide) _
  | iconcat =>
      exact h.binaryIn hmode (by decide) rfl [.i64]
        (fun _ ht => List.mem_singleton.mpr (eq_of_beq ht)) (by decide) _
  | x86Pshufb | x86Pmaddubsw =>
      exact ensures_ifListed (hmode.listed _ (by decide))
        (h.binaryListed hmode (by decide) rfl (fun t _ => ⟨fun u _ => ⟨_, _, rfl⟩, rfl⟩) _)
  | rotl | rotr | ishl | ushr | sshr =>
      exact h.shift hmode rfl (fun t ht => ht.elim of_decide_eq_true of_decide_eq_true)
        (sameType fun _ => rfl)
  | iaddImm | imulImm | udivImm | sdivImm | uremImm | sremImm | irsubImm | bandImm | borImm
  | bxorImm | rotlImm | rotrImm | ishlImm | ushrImm | sshrImm | sqrt | fneg | fabs | ceil | floor
  | trunc | nearest =>
      exact h.unaryListed hmode (by decide) rfl (fun ctrl => ⟨_, _, rfl⟩)
        (fun _ ht => of_decide_eq_true ht) fun t => t
  | icmpImm | vanyTrue | vallTrue =>
      exact h.unaryListed hmode (by decide) rfl (fun ctrl => ⟨_, _, rfl⟩)
        (fun _ ht => of_decide_eq_true ht) fun _ => .i8
  | ineg | iabs | bnot | bitrev | clz | ctz | bswap | popcnt | cls =>
      exact ensures_operand hmode (by decide) fun t _ =>
        hcursor.unaryIfAny rfl fun u _ => ⟨_, _, rfl⟩
  | extractlane | splat | scalarToVector =>
      refine ensures_operand hmode (by decide) fun t ht => ?_
      obtain ⟨lane, hlane⟩ := Option.isSome_iff_exists.mp ht
      unfold extractVectorType
      rw [hlane]
      exact Ensures.pick (P := fun _ => True) (Ensures.pure ⟨rfl, trivial⟩) fun l _ =>
        hcursor.unaryUniform rfl fun u _ => ⟨_, _, rfl⟩
  | insertlane => exact h.insertlane hmode
  | vhighBits =>
      refine ensures_operand hmode (by decide) fun t _ => ?_
      exact Ensures.ite (fun _ => Ensures.pure trivial) fun hne =>
        hcursor.convert (sameType fun _ => rfl) (fun hnil => hne (List.isEmpty_iff.mpr hnil)) _
  | bitcast => exact h.bitcast hmode
  | bmask =>
      refine ensures_arg0 hmode (by decide) fun target _ => ?_
      refine ensures_arg1 hmode (by decide) fun t ht => ?_
      exact hcursor.unary rfl (h.values_ne_nil t (of_decide_eq_true ht)) fun u _ => ⟨_, _, rfl⟩
  | ireduce =>
      exact h.convertFromListed hmode (by decide) rfl (sameType fun _ => rfl)
        (show ∀ p ∈ reduceSources, p.2 ≠ [] by decide) (fun _ ht => ht) _
  | uextend | sextend =>
      exact h.convertFromListed hmode (by decide) rfl (sameType fun _ => rfl)
        (show ∀ p ∈ extendSources, p.2 ≠ [] by decide) (fun _ ht => ht) _
  | swidenLow | swidenHigh | uwidenLow | uwidenHigh =>
      refine ensures_operand hmode (by decide) fun t ht => ?_
      obtain ⟨fromType, hlookup, hstock⟩ := (Option.any_eq_true _ _).mp ht
      have htable : ∀ p ∈ widenSources, p.2 ≠ .i8 ∧ p.2.mergeLanes.isSome = true := by decide
      obtain ⟨hne, hmerge⟩ := htable _ (mem_of_lookup hlookup)
      obtain ⟨wide, hwide⟩ := Option.isSome_iff_exists.mp hmerge
      refine hcursor.widen rfl _ hlookup (h.values_ne_nil fromType (by simpa using hstock)) ?_
      exact h.derives hne ⟨wide, [], by simp only [Opcode.resultTypes, hwide, Option.map_some]⟩
  | fpromote | fdemote | fvdemote | fvpromoteLow =>
      exact hcursor.unary rfl (h.values_ne_nil _ (hmode.needs _ (List.mem_singleton_self _)))
        fun u _ => ⟨_, _, rfl⟩
  | fcvtToUint | fcvtToSint | fcvtToUintSat | fcvtToSintSat | fcvtFromUint | fcvtFromSint =>
      exact h.convertListed hmode (by decide) (sameType fun _ => rfl)
        (fun _ ht => of_decide_eq_true ht) _
  | x86Cvtt2dq =>
      exact ensures_ifListed (hmode.listed _ (by decide)) (h.convertListed hmode (by decide)
        (sameType fun _ => rfl) (fun _ ht => of_decide_eq_true ht) _)
  | isplit => exact h.isplit hmode
  | select | selectSpectreGuard =>
      exact h.selectOp hmode (by decide) (fun _ ht => of_decide_eq_true ht) (sameType fun _ => rfl)
  | bitselect =>
      refine ensures_operand hmode (by decide) fun t ht => ?_
      have hne : values t ≠ [] := h.values_ne_nil t (of_decide_eq_true ht)
      refine Ensures.pick (ensures_selected hne) fun x _ => ?_
      refine Ensures.pick (ensures_selected hne) fun y _ => ?_
      refine Ensures.pick (ensures_selected hne) fun z _ => ?_
      exact hcursor.ternary (sameType fun _ => rfl) x y z _
  | fma =>
      refine ensures_operand hmode (by decide) fun t _ => ?_
      refine Ensures.ite (fun _ => Ensures.pure trivial) fun hempty => ?_
      have hne : values t ≠ [] := fun hnil => hempty (List.isEmpty_iff.mpr hnil)
      refine Ensures.pick (ensures_chosen hne) fun x _ => ?_
      refine Ensures.pick (ensures_chosen hne) fun y _ => ?_
      refine Ensures.pick (ensures_chosen hne) fun z _ => ?_
      exact hcursor.ternary (sameType fun _ => rfl) x y z _
  | ssubOverflowBin | usubOverflowBin | uaddOverflowCin | saddOverflowCin =>
      exact ensures_operand hmode (by decide) fun t _ =>
        hcursor.carry (sameTypeAndFlag fun _ => rfl)
  | load | uload8 | sload8 =>
      exact ensures_addrOperand hcursor hmode (by decide) fun addr t s' h' _ =>
        h'.loadFrom (sameType fun _ => rfl) addr
  | uload16 | sload16 =>
      exact ensures_operandAddr hcursor hmode (by decide) fun addr t s' h' _ =>
        h'.loadFrom (sameType fun _ => rfl) addr
  | uload32 | sload32 | uload8x8 | sload8x8 | uload16x4 | sload16x4 | uload32x2 | sload32x2 =>
      exact hcursor.loadFixed fun _ => ⟨[], rfl⟩
  | atomicLoad =>
      refine ensures_addrOperand (k := fun addr t => do
        let newValue ← emitTyped t (.fixed .atomicLoad [addr])
        return definedFresh newValue t) hcursor hmode (by decide) fun addr t s' h' _ => ?_
      exact Ensures.bind (h'.emitTyped ⟨t, [], rfl⟩) fun _ _ _ => Ensures.pure trivial
  | stackLoad =>
      refine ensures_operand hmode (by decide) fun t _ => ?_
      refine Ensures.pick hcursor.randomStackSlot fun slot _ => ?_
      exact Ensures.bind (hcursor.emitTyped ⟨t, [], rfl⟩) fun _ _ _ => Ensures.pure trivial
  | store =>
      refine ensures_addrOperand (k := fun addr t =>
        if (values t).isEmpty then return none else storeTo values .store addr t) hcursor hmode
        (by decide) fun addr t s' h' _ => ?_
      exact Ensures.ite (fun _ => Ensures.pure trivial) fun hne =>
        h'.storeTo (fun _ => rfl) (fun hnil => hne (List.isEmpty_iff.mpr hnil)) addr
  | istore8 =>
      exact ensures_addrOperand hcursor hmode (by decide) fun addr t s' h' ht =>
        h'.storeTo (fun _ => rfl) (h.values_ne_nil t (of_decide_eq_true ht)) addr
  | istore16 | istore32 =>
      exact ensures_operandAddr hcursor hmode (by decide) fun addr t s' h' ht =>
        h'.storeTo (fun _ => rfl) (h.values_ne_nil t (of_decide_eq_true ht)) addr
  | atomicStore =>
      refine ensures_operandAddr (k := fun addr t => do
        let refValue ← selectValue (values t)
        let _ ← ins (.fixed .atomicStore [refValue, addr])
        return some (none, some [⟨refValue, t⟩])) hcursor hmode (by decide) ?_
      intro addr t s' h' ht
      have hne := h.values_ne_nil t (of_decide_eq_true ht)
      refine Ensures.pick (ensures_selected hne) fun v _ => ?_
      exact Ensures.bind (h'.ins fun _ => rfl) fun _ _ _ => Ensures.pure trivial
  | stackStore =>
      refine ensures_operand hmode (by decide) fun t _ => ?_
      refine Ensures.ite (fun _ => Ensures.pure trivial) fun hempty => ?_
      have hne : values t ≠ [] := fun hnil => hempty (List.isEmpty_iff.mpr hnil)
      refine Ensures.pick (ensures_selected hne) fun v _ => ?_
      refine Ensures.pick hcursor.randomStackSlot fun slot _ => ?_
      exact Ensures.bind (hcursor.ins fun _ => rfl) fun _ _ _ => Ensures.pure trivial
  | stackAddr => exact Ensures.bind hcursor.randomStackAddr fun _ _ _ => Ensures.pure trivial
  | setPinnedReg =>
      refine Ensures.bind hcursor.randomStackAddr fun addr s' h' => ?_
      exact Ensures.bind (h'.ins fun _ => rfl) fun _ _ _ => Ensures.pure trivial
  | getPinnedReg | getFramePointer | getStackPointer | getReturnAddress =>
      exact Ensures.bind (hcursor.emitTyped ⟨_, _, rfl⟩) fun _ _ _ => Ensures.pure trivial
  | nop | fence | sequencePoint =>
      exact Ensures.bind (hcursor.ins fun _ => rfl) fun _ _ _ => Ensures.pure trivial
  | iconst =>
      refine Ensures.pick (P := fun _ => True) (Ensures.genRange rfl (fun hle => by omega)
        fun _ _ _ => ⟨rfl, trivial⟩) fun choice _ => ?_
      exact Ensures.bind (hcursor.emitTyped ⟨_, _, rfl⟩) fun _ _ _ => Ensures.pure trivial
  | f32const | f64const | f128const =>
      exact Ensures.bind (hcursor.emit ⟨_, _, rfl⟩) fun _ _ _ => Ensures.pure trivial
  -- opcodes that the generator does not know emit nothing
  | _ => exact Ensures.pure trivial

end Arms

/-! ## The generator -/

section Generator

variable {S : Setting} {b : Block} {s : State Locals} {e : Halt}

theorem Setting.Drawing.stock (h : S.Drawing b s) (hb : b ∈ S.start.layout.blocks)
    (hok : S.config.Accepted) :
    Stock (S.pool s.locals.blockDefValues b) S.config.stock s := by
  obtain ⟨done, hworking⟩ := h.working
  obtain ⟨before, hpoints, -⟩ := hworking.cursor
  have hslots : 0 < s.func.sizedStackSlots.len := by
    rw [hworking.slots.1]
    decide
  refine ⟨⟨hslots, b, before, _, hpoints⟩, fun t ht => ?_, fun t v hv => ?_⟩
  · have hstock : t ∈ S.stock := List.mem_append_left _ ht
    exact hworking.valid.pool_ne_nil h.recorded hb hstock
  · exact (hworking.valid.mayUse hv).typed hok

/-- **Instruction selection never panics with a config that is supported.** -/
theorem Setting.Drawing.populateBlockInstructions (h : S.Drawing b s)
    (hb : b ∈ S.start.layout.blocks) (hok : S.config.Supported) :
    Ensures Dry (populateBlockInstructions (dominatorsOf S.dominators b)
      s.locals.blockDefValues S.config) s fun _ _ => True := by
  have hstock := h.stock hb hok.accepted
  unfold Clir.populateBlockInstructions
  refine Ensures.pick (P := fun op => op ∈ Opcode.all) (Ensures.chooseUnwrap rfl
    (fun hnil => by cases hnil) fun op hop => ⟨rfl, hop⟩) fun op hop => ?_
  obtain ⟨instr, hinstr⟩ := Option.isSome_iff_exists.mp (hok.found op hop)
  unfold populateInstruction
  rw [hinstr]
  cases hmodes : instr.modes with
  | none =>
      simp only [hmodes]
      exact Ensures.pure trivial
  | some modes =>
      obtain ⟨hne, hall⟩ := hok.modes op hop instr hinstr modes hmodes
      simp only [hmodes]
      rw [← bind_assoc]
      refine Ensures.pick (P := fun mode => mode ∈ modes) (Ensures.chooseUnwrap rfl
        (fun hnil => absurd hnil hne) fun mode hmode => ⟨rfl, hmode⟩) fun mode hmode => ?_
      exact hstock.populateOpcode (hall mode hmode)

theorem Setting.Selecting.starved (h : S.Selecting e s) (hok : S.config.Supported) :
    e = .starved := by
  obtain ⟨b, hb, w, draws, hdrawing, hrun⟩ := h
  exact (hdrawing.populateBlockInstructions hb hok).of_error hrun

/-- With such a config the generator stops only at the end of the draws. -/
theorem Stop.starved (h : Stop S e s) (hok : S.config.Supported)
    (hreturns : S.start.signature.returns ⊆ rootTypes) : e = .starved := by
  have hroot : ∀ t ∈ rootTypes, t ∈ S.stock := fun t ht =>
    List.mem_append_left _ (hok.root t ht)
  rcases h.place with hselecting | ⟨hstarved, -⟩
  · exact hselecting.starved hok
  · exact hstarved ⟨hroot, fun t ht => hroot t (hreturns ht)⟩

end Generator

theorem exists_of_withLocals_eq_error {δ ε α : Type} {start : ε} {x : M ε α} {e : Halt}
    {w w' : World (State δ)} (h : withLocals start x w = .error e w') :
    ∃ w₁, x ⟨w.draws, ⟨w.mem.func, w.mem.pos, start⟩⟩ = .error e w₁ := by
  unfold withLocals at h
  cases hx : x ⟨w.draws, ⟨w.mem.func, w.mem.pos, start⟩⟩ with
  | ok a w₁ =>
      rw [hx] at h
      cases h
  | error e' w₁ =>
      rw [hx] at h
      cases h
      exact ⟨w₁, rfl⟩

/-- **Building a function never panics** with a config that is supported and a signature that
returns types of signatures. -/
theorem buildFunction_starved {maxDepth : ℕ} {isRootFunc : Bool} {config : ArchConfig}
    {name : FuncName} {signature : Signature} {draws : List ℕ} {e : Halt}
    {w : World (State Locals)} (hok : config.Supported) (hreturns : signature.returns ⊆ rootTypes)
    (h : buildFunction maxDepth isRootFunc config (buildStart name signature draws) = .error e w) :
    e = .starved := by
  rcases bind_eq_error.mp h with hcf | ⟨⟨⟩, w₁, hcf, hgen⟩
  · -- the control flow is made on local variables of its own
    obtain ⟨w₁, hw₁⟩ := exists_of_withLocals_eq_error hcf
    have hrun : cfConstruct maxDepth none 0 (cfStart name signature draws) = .error e w₁ := hw₁
    exact (Runs.of_error (cfConstruct_spec maxDepth name signature draws) hrun).1
  · have hc : Constructed maxDepth name signature w₁ := ⟨draws, hcf⟩
    refine ((hc.functionGenerator_spec config isRootFunc).of_error hgen).starved hok ?_
    rw [show (hc.setting config).start.signature = _ from hc.signature_eq]
    exact hreturns

end Clir
