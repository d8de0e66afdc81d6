import Clir.Run.Frames

set_option autoImplicit false

/-! # One step of the interpreter

`Now.step` says once what one instruction can do, for all instructions and however it ends: what it
hands to the loop (`Stepped`), what it does to the memory (`Accessed`), and why it may stop
(`Tolerated`). A step that is made in a frame of an executable function does not panic, unless an
operation on values does, or the opcode is not implemented. If accesses are known to be inside the
slots they are addressed through (`confined`), it does not load out of bounds, all addresses are in
the region of the stack, and it does not touch the bytes of the frames below.
-/

namespace Clir.Interpreter

open Graph

variable {D : Type} {V : Values D}

/-- The reasons to stop that lie in the values, or in an instruction of the program that is not
implemented. -/
def Stop.Tolerated (program : List Function) (confined : Prop) : Stop → Prop
  | .fault _ | .badSignature => True
  | .unimplemented (.opcode op) => op.isUnimplemented = true ∧
      ∃ f ∈ program, ∃ b, ∃ i ∈ f.layout.insts b, (f.instData i).opcode = op
  | .unimplemented .region => ¬ confined
  | .memory .outOfBoundsLoad => ¬ confined
  | .memory _ => True
  | _ => False

/-! ## The slots of a frame -/

theorem slotOffset_succ (f : Function) (slot : StackSlot) :
    slotOffset f (slot + 1) = slotOffset f slot + f.sizedStackSlots.get slot := by
  simp [slotOffset, List.range_succ]

theorem slotOffset_mono (f : Function) : Monotone (slotOffset f) :=
  monotone_nat_of_le_succ fun slot => by
    rw [slotOffset_succ]
    exact Nat.le_add_right _ _

/-- A slot is inside the memory of its frame. -/
theorem slotOffset_add_le {f : Function} {slot : StackSlot} (hslot : slot < f.sizedStackSlots.len) :
    slotOffset f slot + f.sizedStackSlots.get slot ≤ fixedStackSize f := by
  rw [← slotOffset_succ]
  exact slotOffset_mono f hslot

/-! ## Where a step is made -/

/-- The frame `fr` is the top one, and is at instruction `i`. -/
structure Now (V : Values D) (confined : Prop) (st : State D) (fr : Frame D) (b : Block)
    (before : List Inst) (i : Inst) (after : List Inst) : Prop where
  executable : fr.function.Executable
  place : fr.At V st.frameOffset b before i after
  top : st.frameOffset + fixedStackSize fr.function = st.stack.length
  room : confined → st.stack.length < 2 ^ 30
  access : confined → (fr.function.instData i).opcode.accessesMemory = true →
    ∃ a slot offset, fr.function.access i = some a ∧ slot < fr.function.sizedStackSlots.len ∧
      fr.function.Resolves a.address slot offset ∧
        offset + a.offset + a.width ≤ fr.function.sizedStackSlots.get slot

/-- What a step does to the state: frames stay, and if accesses are confined then so do the bytes
below the frame. -/
structure Accessed (confined : Prop) (st st' : State D) : Prop where
  frames : st'.frames = st.frames
  frameOffset : st'.frameOffset = st.frameOffset
  length : st'.stack.length = st.stack.length
  below : confined → st'.stack.take st.frameOffset = st.stack.take st.frameOffset

theorem Accessed.refl (confined : Prop) (st : State D) : Accessed confined st st :=
  ⟨rfl, rfl, rfl, fun _ => rfl⟩

/-- What a step hands to the loop. -/
inductive Stepped (V : Values D) (program : List Function) (rank : Function → ℕ) (base : ℕ)
    (f : Function) (i : Inst) : ControlFlow D → Prop
  | assign (values : List D) (hleaves : (f.instData i).leaves = false)
      (hlen : (f.dfg.results i).length = values.length)
      (haddr : ∀ slot offset, f.instData i = .stackLoad .stackAddr slot offset →
        ∀ d ∈ values, d = V.ofAddress (base + slotOffset f slot + offset)) :
      Stepped V program rank base f i (.assign values)
  | continue_ (hleaves : (f.instData i).leaves = false) (hres : f.dfg.results i = [])
      (haddr : ∀ slot offset, f.instData i ≠ .stackLoad .stackAddr slot offset) :
      Stepped V program rank base f i .continue_
  | continueAt (c : BlockCall) (args : List D) (hc : c ∈ f.destinations (f.instData i))
      (hlen : args.length = c.args.length) :
      Stepped V program rank base f i (.continueAt c.block args)
  | call (callee : Function) (args : List D) (r : FuncRef) (vs : List Value)
      (hdata : f.instData i = .call r vs) (hcallee : callee ∈ program)
      (hlen : args.length = callee.signature.params.length)
      (hres : (f.dfg.results i).length = callee.signature.returns.length)
      (hrank : rank callee < rank f) : Stepped V program rank base f i (.call callee args)
  | returned (values : List D) (hlen : values.length = f.signature.returns.length) :
      Stepped V program rank base f i (.returned values)

/-! ## Memory -/

section Memory

variable {program : List Function} {confined : Prop} {st : State D} {addr width : ℕ} {ty : ClifType}
  {d : D}

/-- The bytes are above the frames below, and all bytes are in the lowest part of the address
space. -/
structure Reaches (st : State D) (addr width : ℕ) : Prop where
  above : st.frameOffset ≤ addr
  inside : addr + width ≤ st.stack.length
  room : st.stack.length < 2 ^ 30

theorem lift_spec {α : Type} {x : Except Fault α} {P : α → Prop} (h : ∀ a, x = .ok a → P a) :
    Attempts (Stop.Tolerated program confined) (lift x) P :=
  Attempts.mapError (fun _ => trivial) h

theorem checkedLoad_spec (h : confined → addr + ty.bytes ≤ st.stack.length) :
    Attempts (Stop.Tolerated program confined) (st.checkedLoad V addr ty) fun _ => True := by
  unfold State.checkedLoad
  refine .ite (fun hlt => .error fun hc => ?_) fun _ => lift_spec fun _ _ => trivial
  exact absurd (h hc) (Nat.not_le_of_lt hlt)

theorem checkedStore_spec (h : confined → st.frameOffset ≤ addr) :
    Attempts (Stop.Tolerated program confined) (st.checkedStore V addr d)
      (Accessed confined st) := by
  unfold State.checkedStore
  refine .ite (fun _ => .error trivial) fun hle => .ok ⟨rfl, rfl, ?_, fun hc => ?_⟩
  · simp only [List.length_append, List.length_take, List.length_drop, V.write_length]
    omega
  · show List.take _ (_ ++ _ ++ _) = _
    have hlen : st.frameOffset ≤ (st.stack.take addr).length := by
      rw [List.length_take]
      exact le_min (h hc) ((h hc).trans (by omega))
    rw [List.append_assoc, List.take_append_of_le_length hlen, List.take_take,
      min_eq_left (h hc)]

theorem stackRegion_spec (h : confined → Reaches st addr width) :
    Attempts (Stop.Tolerated program confined) (stackRegion addr) fun a => a = addr := by
  unfold stackRegion
  refine .ite (fun _ => .ok rfl) fun hne => .error fun hc => hne (.inl ?_)
  exact (Nat.le_of_add_right_le (h hc).inside).trans_lt (h hc).room

theorem loadAt_spec (h : confined → Reaches st addr ty.bytes) :
    Attempts (Stop.Tolerated program confined) (st.loadAt V addr ty) fun _ => True := by
  unfold State.loadAt
  refine .bind (stackRegion_spec h) ?_
  rintro _ rfl
  exact checkedLoad_spec fun hc => (h hc).inside

theorem storeAt_spec (h : confined → Reaches st addr width) :
    Attempts (Stop.Tolerated program confined) (st.storeAt V addr d) (Accessed confined st) := by
  unfold State.storeAt
  refine .bind (stackRegion_spec h) ?_
  rintro _ rfl
  exact checkedStore_spec fun hc => (h hc).above

theorem stackAddress_spec {f : Function} {slot : StackSlot} {offset : ℕ}
    (hslot : slot < f.sizedStackSlots.len) :
    Attempts (Stop.Tolerated program confined) (st.stackAddress f slot offset) fun addr =>
      addr = st.frameOffset + slotOffset f slot + offset := by
  unfold State.stackAddress
  rw [PrimaryMap.get?_eq_some.mpr ⟨hslot, rfl⟩]
  exact .ite (fun _ => .error trivial) fun _ => .ite (fun _ => .error trivial) fun _ => .ok rfl

end Memory

/-! ## Addresses -/

section Addresses

variable {program : List Function} {confined : Prop} {st : State D} {fr : Frame D} {b : Block}
  {before after : List Inst} {i : Inst} {v : Value} {d : D} {offset : ℕ} {data : InstructionData}

/-- A value from which the given bytes can be accessed: they are above the frames below. -/
def Points (V : Values D) (st : State D) (d : D) (offset width : ℕ) : Prop :=
  ∃ a, d = V.ofAddress a ∧ st.frameOffset ≤ a ∧ a + offset + width ≤ st.stack.length ∧
    st.stack.length < 2 ^ 30

/-- An access through a value is through an address of the frame. -/
theorem Now.points (h : Now V confined st fr b before i after) {width : ℕ} (reads : Bool)
    (hdata : fr.function.instData i = data) (hacc : data.opcode.accessesMemory = true)
    (ha : data.access fr.function.valueType (fr.function.resultType i) =
      some ⟨.value v, offset, width, reads⟩)
    (hv : v ∈ fr.function.uses i) (hd : fr.registers v = some d) (hc : confined) :
    Points V st d offset width := by
  subst hdata
  obtain ⟨a, slot, o, ha', hslot, hres, hbound⟩ := h.access hc hacc
  obtain rfl := Option.some.inj (ha'.symm.trans ha)
  obtain ⟨-, d', hd', haddr⟩ := h.place.holds h.executable hv
  obtain rfl := Option.some.inj (hd'.symm.trans hd)
  refine ⟨_, haddr slot o hres, by omega, ?_, h.room hc⟩
  have hle := slotOffset_add_le hslot
  have htop := h.top
  dsimp only at hbound
  omega

/-- An access to a slot is in the frame. -/
theorem Now.slot_le (h : Now V confined st fr b before i after) {width : ℕ} (reads : Bool)
    (hdata : fr.function.instData i = data) (hacc : data.opcode.accessesMemory = true)
    {slot : StackSlot}
    (ha : data.access fr.function.valueType (fr.function.resultType i) =
      some ⟨.slot slot, offset, width, reads⟩) (hc : confined) :
    st.frameOffset + slotOffset fr.function slot + offset + width ≤ st.stack.length := by
  subst hdata
  obtain ⟨a, slot', o, ha', hslot, hres, hbound⟩ := h.access hc hacc
  obtain rfl := Option.some.inj (ha'.symm.trans ha)
  obtain ⟨rfl, rfl⟩ := hres
  have hle := slotOffset_add_le hslot
  have htop := h.top
  dsimp only at hbound
  omega

/-- An address as it is calculated from a value. -/
theorem calculateAddr_spec (st : State D) (width : ℕ) :
    Attempts (Stop.Tolerated program confined) (calculateAddr V offset d) fun addr =>
      Points V st d offset width → Reaches st addr width := by
  unfold calculateAddr
  refine .bind (lift_spec fun x hx => hx) fun x hx => .pure ?_
  rintro ⟨a, rfl, hle, hbound, hroom⟩
  rw [V.zeroExtend_ofAddress a (by omega)] at hx
  obtain rfl := Except.ok.inj hx
  rw [Nat.mod_eq_of_lt (by omega)]
  exact ⟨by omega, by omega, hroom⟩

/-- The address of an atomic access. -/
theorem Now.atomicAddr (h : Now V confined st fr b before i after) (width : ℕ) (reads : Bool)
    (hv : v ∈ fr.function.uses i) (hdata : fr.function.instData i = data)
    (hacc : data.opcode.accessesMemory = true)
    (ha : data.access fr.function.valueType (fr.function.resultType i) =
      some ⟨.value v, 0, width, reads⟩) :
    Attempts (Stop.Tolerated program confined) (atomicAddr V fr v) fun addr => confined →
      Reaches st addr width := by
  unfold Interpreter.atomicAddr
  refine .bind (h.place.get h.executable hv) fun d hd => ?_
  refine .bind (lift_spec fun x hx => hx) fun x hx => .pure fun hc => ?_
  obtain ⟨a, rfl, hle, hbound, hroom⟩ := h.points reads hdata hacc ha hv hd hc
  rw [V.intoIntUnsigned_ofAddress a (by omega)] at hx
  obtain rfl := Except.ok.inj hx
  rw [Nat.mod_eq_of_lt (by omega)]
  exact ⟨by omega, by omega, hroom⟩

end Addresses

/-! ## Instructions -/

theorem loadType_spec {program : List Function} {confined : Prop} {op : Opcode} {ctrl : ClifType}
    (hload : op.isLoad = true) (himpl : op.isUnimplemented = false) :
    Attempts (Stop.Tolerated program confined) (loadType op ctrl) fun ty =>
      op.accessesMemory = true ∧ op.resultCount = 1 ∧ ty.bytes = op.width ctrl := by
  cases op with
  | load | uload8 | sload8 | uload16 | sload16 | uload32 | sload32 => exact .ok ⟨rfl, rfl, rfl⟩
  | uload8x8 | sload8x8 | uload16x4 | sload16x4 | uload32x2 | sload32x2 => cases himpl
  | _ => cases hload

theorem storeValue_spec {program : List Function} {confined : Prop} {op : Opcode} {d : D}
    (hstore : op.isStore = true) :
    Attempts (Stop.Tolerated program confined) (storeValue V op d) fun _ =>
      op.accessesMemory = true ∧ op.resultCount = 0 := by
  cases op with
  | store => exact .ok ⟨rfl, rfl⟩
  | istore8 | istore16 | istore32 => exact lift_spec fun _ _ => ⟨rfl, rfl⟩
  | _ => cases hstore

section Instructions

variable {confined : Prop} {st : State D} {fr : Frame D} {b : Block} {before after : List Inst}
  {i : Inst} {program : List Function} {rank : Function → ℕ} {data : InstructionData}

/-- How a step may end. -/
def Ends (V : Values D) (program : List Function) (rank : Function → ℕ) (confined : Prop)
    (st : State D) (fr : Frame D) (i : Inst) (r : ControlFlow D × State D) : Prop :=
  Stepped V program rank st.frameOffset fr.function i r.1 ∧ Accessed confined st r.2

theorem mem_uses {f : Function} {i : Inst} {v : Value} (h : v ∈ (f.instData i).arguments) :
    v ∈ f.uses i := List.mem_append_left _ h

/-- The end of an instruction that is neither a call nor a branch, and assigns values. -/
theorem Now.ends_assign (h : Now V confined st fr b before i after) {st' : State D}
    (hdata : fr.function.instData i = data) (hplain : (data.callee, data.leaves) = (none, false))
    {values : List D} (hcount : values.length = data.opcode.resultCount)
    (haddr : ∀ slot offset, data = .stackLoad .stackAddr slot offset →
      ∀ d ∈ values, d = V.ofAddress (st.frameOffset + slotOffset fr.function slot + offset))
    (hst : Accessed confined st st') :
    Ends V program rank confined st fr i (.assign values, st') := by
  subst hdata
  have hres := h.executable.results b i h.place.mem (congrArg Prod.fst hplain)
  exact ⟨.assign values (congrArg Prod.snd hplain) (hres.trans hcount.symm) haddr, hst⟩

/-- The end of one that has no results. -/
theorem Now.ends_continue (h : Now V confined st fr b before i after) {st' : State D}
    (hdata : fr.function.instData i = data) (hplain : (data.callee, data.leaves) = (none, false))
    (hcount : data.opcode.resultCount = 0) (hst : Accessed confined st st') :
    Ends V program rank confined st fr i (.continue_, st') := by
  subst hdata
  have hres := h.executable.results b i h.place.mem (congrArg Prod.fst hplain)
  refine ⟨.continue_ (congrArg Prod.snd hplain) ?_ fun slot offset hstack => ?_, hst⟩
  · exact List.eq_nil_of_length_eq_zero (hres.trans hcount)
  · rw [hstack] at hcount
    cases hcount

variable (h : Now V confined st fr b before i after)
include h

theorem Now.continueAt {c : BlockCall}
    (hc : c ∈ fr.function.destinations (fr.function.instData i)) :
    Attempts (Stop.Tolerated program confined) (continueAt st fr c)
      (Ends V program rank confined st fr i) := by
  unfold Interpreter.continueAt
  refine .bind (h.place.getAll h.executable fun v hv => ?_) fun args hargs => .pure ?_
  · exact List.mem_append_right _ (List.mem_flatMap.mpr ⟨c, hc, hv⟩)
  · exact ⟨.continueAt c args hc hargs, .refl _ _⟩

theorem Now.formatted (hdata : fr.function.instData i = data) : data.formatted = true := by
  subst hdata
  exact h.executable.formats b i h.place.mem

theorem Now.stepLoad {op : Opcode} {arg : Value} {offset : ℕ}
    (hdata : fr.function.instData i = .load op arg offset) (himpl : op.isUnimplemented = false) :
    Attempts (Stop.Tolerated program confined)
      (stepLoad V st fr op (fr.function.resultType i) arg offset)
      (Ends V program rank confined st fr i) := by
  have harg : arg ∈ fr.function.uses i := mem_uses (by rw [hdata]; exact List.mem_singleton_self _)
  unfold Interpreter.stepLoad
  refine .bind (loadType_spec (h.formatted hdata) himpl) ?_
  rintro ty ⟨hacc, hcount, hwidth⟩
  refine .bind (h.place.get h.executable harg) fun d hd => ?_
  refine .bind (calculateAddr_spec st ty.bytes) fun addr haddr => ?_
  rw [hwidth] at haddr
  refine .bind (loadAt_spec fun hc => ?_) fun loaded _ => ?_
  · rw [hwidth]
    exact haddr (h.points true hdata hacc rfl harg hd hc)
  have hend : ∀ x, Ends V program rank confined st fr i (.assign [x], st) := fun x =>
    h.ends_assign hdata rfl hcount.symm (by simp) (.refl _ _)
  split
  · exact .pure (hend loaded)
  · exact .bind (lift_spec (P := fun _ => True) fun _ _ => trivial) fun x _ => .pure (hend x)

theorem Now.stepStore {op : Opcode} {arg addr : Value} {offset : ℕ}
    (hdata : fr.function.instData i = .store op arg addr offset) :
    Attempts (Stop.Tolerated program confined) (stepStore V st fr op arg addr offset)
      (Ends V program rank confined st fr i) := by
  have harg : arg ∈ fr.function.uses i :=
    mem_uses (by simp [hdata, InstructionData.arguments])
  have hptr : addr ∈ fr.function.uses i :=
    mem_uses (by simp [hdata, InstructionData.arguments])
  unfold Interpreter.stepStore
  refine .bind (h.place.get h.executable hptr) fun d hd => ?_
  refine .bind (calculateAddr_spec st (op.width (fr.function.valueType arg))) fun a ha => ?_
  refine .bind (h.place.get h.executable harg) fun x hx => ?_
  refine .bind (storeValue_spec (h.formatted hdata)) ?_
  rintro reduced ⟨hacc, hcount⟩
  have hreaches := fun hc => ha (h.points false hdata hacc rfl hptr hd hc)
  refine .bind (storeAt_spec hreaches) fun st' hst' => .pure ?_
  exact h.ends_continue hdata rfl hcount hst'

theorem Now.stepStackLoad {op : Opcode} {slot : StackSlot} {offset : ℕ}
    (hdata : fr.function.instData i = .stackLoad op slot offset) :
    Attempts (Stop.Tolerated program confined)
      (stepStackLoad V st fr op (fr.function.resultType i) slot offset)
      (Ends V program rank confined st fr i) := by
  have hslot : slot < fr.function.sizedStackSlots.len :=
    h.executable.slots b i h.place.mem slot (by rw [hdata]; rfl)
  unfold Interpreter.stepStackLoad
  split
  · refine .bind (stackAddress_spec hslot) ?_
    rintro _ rfl
    refine .bind (checkedLoad_spec (h.slot_le true hdata rfl rfl)) fun x _ => .pure ?_
    exact h.ends_assign hdata rfl rfl (by simp) (.refl _ _)
  · refine .ite (fun _ => ?_) fun _ => .error trivial
    refine .bind (stackAddress_spec hslot) ?_
    rintro _ rfl
    refine .pure (h.ends_assign hdata rfl rfl ?_ (.refl _ _))
    rintro slot' offset' ⟨⟩ d hd
    exact List.mem_singleton.mp hd
  · have hformat := h.formatted hdata
    simp_all [InstructionData.formatted]

theorem Now.stepStackStore {op : Opcode} {arg : Value} {slot : StackSlot} {offset : ℕ}
    (hdata : fr.function.instData i = .stackStore op arg slot offset) :
    Attempts (Stop.Tolerated program confined) (stepStackStore V st fr op arg slot offset)
      (Ends V program rank confined st fr i) := by
  have hslot : slot < fr.function.sizedStackSlots.len :=
    h.executable.slots b i h.place.mem slot (by rw [hdata]; rfl)
  have harg : arg ∈ fr.function.uses i := mem_uses (by rw [hdata]; exact List.mem_singleton_self _)
  unfold Interpreter.stepStackStore
  split
  · refine .bind (h.place.get h.executable harg) fun d hd => ?_
    refine .bind (stackAddress_spec hslot) ?_
    rintro _ rfl
    refine .bind (checkedStore_spec fun _ => by omega) fun st' hst' => .pure ?_
    exact h.ends_continue hdata rfl rfl hst'
  · have hformat := h.formatted hdata
    simp_all [InstructionData.formatted]

theorem Now.stepAtomicRmw {addr arg : Value}
    (hdata : fr.function.instData i = .fixed .atomicRmw [addr, arg]) :
    Attempts (Stop.Tolerated program confined) (stepAtomicRmw V st fr i addr arg)
      (Ends V program rank confined st fr i) := by
  have huses : ∀ v ∈ [addr, arg], v ∈ fr.function.uses i := fun v hv =>
    mem_uses (by rwa [hdata])
  unfold Interpreter.stepAtomicRmw
  refine .bind (h.place.get h.executable (huses arg (by simp))) fun d _ => ?_
  refine .bind (h.atomicAddr (fr.function.resultType i).bytes true (huses addr (by simp)) hdata
    rfl rfl) fun a ha => ?_
  refine .bind (loadAt_spec ha) fun previous _ => ?_
  refine .bind (lift_spec (P := fun _ => True) fun _ _ => trivial) fun replace _ => ?_
  refine .bind (storeAt_spec ha) fun st' hst' => .pure ?_
  exact h.ends_assign hdata rfl rfl (by simp) hst'

theorem Now.stepAtomicCas {addr expected arg : Value}
    (hdata : fr.function.instData i = .fixed .atomicCas [addr, expected, arg]) :
    Attempts (Stop.Tolerated program confined) (stepAtomicCas V st fr addr expected arg)
      (Ends V program rank confined st fr i) := by
  have huses : ∀ v ∈ [addr, expected, arg], v ∈ fr.function.uses i := fun v hv =>
    mem_uses (by rwa [hdata])
  have hend : ∀ x st', Accessed confined st st' →
      Ends V program rank confined st fr i (.assign [x], st') := fun x st' hst' =>
    h.ends_assign hdata rfl rfl (by simp) hst'
  unfold Interpreter.stepAtomicCas
  refine .bind (h.atomicAddr (fr.function.valueType arg).bytes true (huses addr (by simp)) hdata
    rfl rfl) fun a ha => ?_
  refine .bind (loadAt_spec ha) fun loaded _ => ?_
  refine .bind (h.place.get h.executable (huses expected (by simp))) fun d _ => ?_
  split
  · refine .bind (h.place.get h.executable (huses arg (by simp))) fun x _ => ?_
    exact .bind (storeAt_spec ha) fun st' hst' => .pure (hend _ _ hst')
  · exact .pure (hend _ _ (.refl _ _))

theorem Now.stepAtomicLoad {addr : Value}
    (hdata : fr.function.instData i = .fixed .atomicLoad [addr]) :
    Attempts (Stop.Tolerated program confined) (stepAtomicLoad V st fr i addr)
      (Ends V program rank confined st fr i) := by
  have haddr : addr ∈ fr.function.uses i :=
    mem_uses (by rw [hdata]; exact List.mem_singleton_self _)
  unfold Interpreter.stepAtomicLoad
  refine .bind (h.atomicAddr (fr.function.resultType i).bytes true haddr hdata rfl rfl)
    fun a ha => ?_
  refine .bind (loadAt_spec ha) fun loaded _ => .pure ?_
  exact h.ends_assign hdata rfl rfl (by simp) (.refl _ _)

theorem Now.stepAtomicStore {arg addr : Value}
    (hdata : fr.function.instData i = .fixed .atomicStore [arg, addr]) :
    Attempts (Stop.Tolerated program confined) (stepAtomicStore V st fr arg addr)
      (Ends V program rank confined st fr i) := by
  have huses : ∀ v ∈ [arg, addr], v ∈ fr.function.uses i := fun v hv =>
    mem_uses (by rwa [hdata])
  unfold Interpreter.stepAtomicStore
  refine .bind (h.place.get h.executable (huses arg (by simp))) fun d _ => ?_
  refine .bind (h.atomicAddr (fr.function.valueType arg).bytes false (huses addr (by simp)) hdata
    rfl rfl) fun a ha => ?_
  refine .bind (storeAt_spec ha) fun st' hst' => .pure ?_
  exact h.ends_continue hdata rfl rfl hst'

theorem Now.stepCompute (hdata : fr.function.instData i = data)
    (hplain : (data.callee, data.leaves) = (none, false))
    (haddr : ∀ slot offset, data ≠ .stackLoad .stackAddr slot offset) :
    Attempts (Stop.Tolerated program confined) (stepCompute V st fr i data.arguments)
      (Ends V program rank confined st fr i) := by
  unfold Interpreter.stepCompute
  refine .bind (h.place.getAll h.executable fun v hv => mem_uses (hdata ▸ hv)) fun ds _ => ?_
  refine .bind (lift_spec fun values hvalues => hvalues) fun values hvalues => .pure ?_
  have hcount := V.compute_length _ _ _ _ hvalues
  rw [hdata] at hcount
  exact h.ends_assign hdata hplain hcount
    (fun slot offset hstack => absurd hstack (haddr slot offset)) (.refl _ _)

theorem Now.stepFixed {op : Opcode} {args : List Value}
    (hdata : fr.function.instData i = .fixed op args) :
    Attempts (Stop.Tolerated program confined) (stepFixed V st fr i op args)
      (Ends V program rank confined st fr i) := by
  unfold Interpreter.stepFixed
  split
  · exact h.stepAtomicRmw hdata
  · exact h.stepAtomicCas hdata
  · exact h.stepAtomicLoad hdata
  · exact h.stepAtomicStore hdata
  · exact .ok (h.ends_assign hdata rfl rfl (by simp) (.refl _ _))
  · refine .bind (h.place.get h.executable (mem_uses ?_)) fun d _ => .pure ?_
    · rw [hdata]
      exact List.mem_singleton_self _
    · exact h.ends_continue hdata rfl rfl ⟨rfl, rfl, rfl, fun _ => rfl⟩
  · exact .ok (h.ends_continue hdata rfl rfl (.refl _ _))
  · exact .ok (h.ends_continue hdata rfl rfl (.refl _ _))
  · exact h.stepCompute hdata rfl (by simp)

end Instructions

/-! ## All instructions -/

/-- A program that can be run: its functions can, under names of their own, and a call is to one of
them, with arguments for its parameters and results for what it returns. A call goes down in rank,
and ranks are at most `depth`. -/
structure Linked (program : List Function) (rank : Function → ℕ) (depth : ℕ) : Prop where
  executable : ∀ f ∈ program, f.Executable
  distinct : (program.map Function.name).Nodup
  bounded : ∀ f ∈ program, rank f ≤ depth
  calls : ∀ f ∈ program, ∀ b, ∀ i ∈ f.layout.insts b, ∀ r args, f.instData i = .call r args →
    ∃ data, f.extFuncs.get? r = some data ∧ ∃ callee ∈ program, callee.name = data.name ∧
      args.length = callee.signature.params.length ∧
      (f.dfg.results i).length = callee.signature.returns.length ∧ rank callee < rank f

section Step

variable {confined : Prop} {st : State D} {fr : Frame D} {b : Block} {before after : List Inst}
  {i : Inst} {program : List Function} {rank : Function → ℕ} {depth : ℕ} {f : Function}

/-- A function is found by its name. -/
theorem Linked.find_eq (h : Linked program rank depth) (hf : f ∈ program) :
    program.find? (fun g => g.name = f.name) = some f :=
  ListEdit.find?_eq_some_of_nodup h.distinct hf

theorem Now.stepCall (h : Now V confined st fr b before i after)
    (hlinked : Linked program rank depth) (hf : fr.function ∈ program) {r : FuncRef}
    {args : List Value} (hdata : fr.function.instData i = .call r args) :
    Attempts (Stop.Tolerated program confined) (stepCall V program st fr r args)
      (Ends V program rank confined st fr i) := by
  obtain ⟨data, hr, callee, hcallee, hname, hparams, hreturns, hrank⟩ :=
    hlinked.calls _ hf b i h.place.mem r args hdata
  have hargs : args ⊆ fr.function.uses i := fun v hv => mem_uses (by rwa [hdata])
  unfold Interpreter.stepCall
  rw [hr]
  refine .bind (h.place.getAll h.executable hargs) fun ds hds => ?_
  rw [← hname, hlinked.find_eq hcallee]
  refine .ite (fun _ => .pure ?_) fun _ => .error trivial
  exact ⟨.call callee ds r args hdata hcallee (hds.trans hparams) hreturns hrank, .refl _ _⟩

/-- **One step.** -/
theorem Now.step (h : Now V confined st fr b before i after)
    (hlinked : Linked program rank depth) (hf : fr.function ∈ program) :
    Attempts (Stop.Tolerated program confined) (step V program st fr i)
      (Ends V program rank confined st fr i) := by
  have hread : ∀ v, v ∈ (fr.function.instData i).arguments →
      Attempts (Stop.Tolerated program confined) (fr.get v) fun _ => True := fun v hv =>
    (h.place.get h.executable (mem_uses hv)).mono fun _ _ => trivial
  unfold Interpreter.step
  refine .ite (fun himpl => .error ⟨himpl, fr.function, hf, b, i, h.place.mem, rfl⟩) fun himpl => ?_
  unfold stepImplemented
  cases hdata : fr.function.instData i with
  | jump dest => exact h.continueAt (by simp [hdata, Function.destinations, Function.branchOf,
      Terminator.targets])
  | brif arg blockThen blockElse =>
      refine .bind (hread arg (by simp [hdata, InstructionData.arguments])) fun d _ => ?_
      refine .bind (lift_spec (P := fun _ => True) fun _ _ => trivial) fun condition _ => ?_
      refine h.continueAt ?_
      rw [hdata]
      cases condition <;> simp [Function.destinations, Function.branchOf, Terminator.targets]
  | branchTable arg table =>
      have htable := h.executable.tables b i h.place.mem arg table hdata
      dsimp only
      rw [PrimaryMap.get?_eq_some.mpr ⟨htable, rfl⟩]
      refine .bind (hread arg (by simp [hdata, InstructionData.arguments])) fun d _ => ?_
      refine .bind (lift_spec (P := fun _ => True) fun _ _ => trivial) fun index _ => ?_
      refine h.continueAt ?_
      rw [hdata]
      cases hget : (fr.function.dfg.jumpTables.get table).table[index]? with
      | none => simp [Function.destinations, Function.branchOf, Terminator.targets]
      | some c => simp [Function.destinations, Function.branchOf, Terminator.targets,
          List.mem_of_getElem? hget]
  | call r args => exact h.stepCall hlinked hf hdata
  | multiAry op args =>
      refine .ite (fun hop => ?_) fun hop => ?_
      · subst hop
        have hargs : args ⊆ fr.function.uses i := fun v hv => mem_uses (by rwa [hdata])
        refine .bind (h.place.getAll h.executable hargs) fun ds hds => .pure ?_
        have hlen := h.executable.returns b i h.place.mem args hdata
        exact ⟨.returned ds (hds.trans hlen), .refl _ _⟩
      · exact h.stepCompute hdata (by simp [InstructionData.callee, InstructionData.leaves, hop])
          (by simp)
  | load op arg offset =>
      rw [hdata] at himpl
      exact h.stepLoad hdata (Bool.eq_false_iff.mpr himpl)
  | store op arg addr offset => exact h.stepStore hdata
  | stackLoad op slot offset => exact h.stepStackLoad hdata
  | stackStore op arg slot offset => exact h.stepStackStore hdata
  | fixed op args => exact h.stepFixed hdata

end Step

end Clir.Interpreter
