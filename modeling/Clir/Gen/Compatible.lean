import Clir.Gen.PopulatePanics
import Clir.Gen.Safety

set_option autoImplicit false

/-! # The compatible mode

In the compatible mode one program is generated for several targets, from the intersection of their
configs. The operand types of the intersection are those of the first config, so the constants in
the entry block may be of types that other targets do not have. A list of a mode is dropped if the
configs have no type in common there, and instruction selection panics without it.
-/

namespace Clir

open Cmd Cursor

/-! ## Entry constants -/

section Steady

variable {δ α β : Type}

/-- A command that leaves the local variables alone. -/
def Steady (x : M δ α) : Prop :=
  ∀ s, Ensures (fun _ _ => True) x s fun _ s' => s'.locals = s.locals

theorem Steady.pure (a : α) : Steady (pure a : M δ α) := fun _ => Ensures.pure rfl

theorem Steady.bind {x : M δ α} {k : α → M δ β} (hx : Steady x) (hk : ∀ a, Steady (k a)) :
    Steady (x >>= k) := fun s =>
  (hx s).bind fun a s' h => ((hk a) s').mono fun _ _ h' => h'.trans h

theorem Steady.func : Steady (func : M δ Function) := fun _ => ensures_func rfl

theorem Steady.setFunc (f : Function) : Steady (setFunc f : M δ Unit) :=
  fun _ => ensures_setFunc rfl

theorem steady_insTyped (data : InstructionData) (ctrl : ClifType) :
    Steady (insTyped data ctrl : M δ Inst) :=
  fun _ => (ensures_insTyped data ctrl).mono fun _ _ h => h.2.2

theorem steady_ins (data : InstructionData) : Steady (ins data : M δ Inst) :=
  fun _ => (ensures_ins data).mono fun _ _ h => h.2.2

theorem steady_firstResult (i : Inst) : Steady (firstResult i : M δ Value) :=
  fun _ => (ensures_firstResult i).mono fun _ _ h => congrArg State.locals h.1

theorem steady_emitTyped (ctrl : ClifType) (data : InstructionData) :
    Steady (emitTyped ctrl data : M δ Value) :=
  (steady_insTyped data ctrl).bind fun i => steady_firstResult i

theorem steady_emit (data : InstructionData) : Steady (emit data : M δ Value) :=
  (steady_ins data).bind fun i => steady_firstResult i

theorem Steady.preserves {x : M δ α} (h : Steady x) (L : δ) :
    Preserves (fun s => s.locals = L) x := fun s hs => (h s).mono fun _ _ h' => h'.trans hs

/-- A constant is made by one or two instructions. -/
theorem preserves_genConstant {J : State δ → Prop}
    (htyped : ∀ ctrl data, Preserves J (emitTyped ctrl data : M δ Value))
    (hemit : ∀ data, Preserves J (emit data : M δ Value)) (o : OperandType) :
    Preserves J (genConstant o.toCraneliftType : M δ Value) := by
  cases o with
  | i128 => exact (htyped _ _).bind fun _ => htyped _ _
  | f16 | f32 | f64 => exact hemit _
  | _ => exact htyped _ _

theorem steady_genConstant (o : OperandType) :
    Steady (genConstant o.toCraneliftType : M δ Value) := fun s =>
  preserves_genConstant (J := fun s' => s'.locals = s.locals)
    (fun ctrl data => (steady_emitTyped ctrl data).preserves _)
    (fun data => (steady_emit data).preserves _) o s rfl

end Steady

/-- A value of the type has been defined in the block. -/
def Locals.Has (L : Locals) (t : ClifType) : Prop := ∃ v, ⟨v, t⟩ ∈ L.defValues

section Constants

variable {node : Block} {s : State Locals}

theorem has_insertDef (tv : TypedValue) :
    Ensures (fun _ _ => True) (insertDef tv) s fun _ s' =>
      ∀ t, s'.locals.Has t ↔ t = tv.ty ∨ s.locals.Has t := by
  unfold insertDef
  refine ensures_bind_locals ?_
  refine ensures_setLocals fun t => ?_
  simp only [Locals.Has, List.mem_insert_iff]
  constructor
  · rintro ⟨v, rfl | hv⟩
    · exact .inl rfl
    · exact .inr ⟨v, hv⟩
  · rintro (rfl | ⟨v, hv⟩)
    · exact ⟨tv.value, .inl rfl⟩
    · exact ⟨v, .inr hv⟩

theorem has_seedParams (params : List ClifType) (types : List OperandType) :
    Ensures (fun _ _ => True) (seedParams node params types) s fun constants s' =>
      constants = types.filter (fun o => o.toCraneliftType ∉ params) ∧
        ∀ t, s'.locals.Has t ↔ t ∈ params ∨ s.locals.Has t := by
  induction params generalizing types s with
  | nil => exact Ensures.pure ⟨by simp, fun t => by simp⟩
  | cons p params ih =>
      unfold seedParams
      refine Ensures.bind (P := fun _ s' => s'.locals = s.locals) ?_ fun v s₁ h₁ => ?_
      · exact (Steady.func.bind fun f => (Steady.setFunc _).bind fun _ => .pure _) s
      refine Ensures.bind (has_insertDef _) fun _ s₂ h₂ => (ih _).mono ?_
      rintro constants s' ⟨rfl, h'⟩
      refine ⟨?_, fun t => ?_⟩
      · rw [List.filter_filter]
        refine List.filter_congr fun o _ => ?_
        simp [Bool.and_comm]
      · rw [h', h₂, h₁, List.mem_cons, or_left_comm, or_assoc]

theorem has_constants (types : List OperandType) :
    Ensures (fun _ _ => True) (types.forM fun operandType => do
      let randomValue ← genConstant operandType.toCraneliftType
      insertDef ⟨randomValue, operandType.toCraneliftType⟩) s fun _ s' =>
      ∀ t, s'.locals.Has t ↔ (∃ o ∈ types, t = o.toCraneliftType) ∨ s.locals.Has t := by
  induction types generalizing s with
  | nil => exact Ensures.pure fun t => by simp
  | cons o types ih =>
      refine Ensures.bind (Ensures.bind (steady_genConstant o s) fun v s₁ h₁ =>
        (has_insertDef _).mono fun _ s₂ h₂ => ?_) fun _ s₂ (h₂ : ∀ t, s₂.locals.Has t ↔
          t = o.toCraneliftType ∨ s.locals.Has t) => ih.mono fun _ s' h' t => ?_
      · rw [← h₁]
        exact h₂
      · rw [h', h₂, ← or_assoc]
        refine or_congr_left ?_
        simp [or_comm]

/-- **The entry block gets the parameters, and a constant of each operand type that no parameter
has.** -/
theorem has_seedEntry (params : List ClifType) (config : ArchConfig) :
    Ensures (fun _ _ => True) (seedEntry node params config) s fun _ s' =>
      ∀ t, s'.locals.Has t ↔ (∃ o ∈ config.operandTypes, o.toCraneliftType ∉ params ∧
        t = o.toCraneliftType) ∨ t ∈ params ∨ s.locals.Has t := by
  have hslot : Steady (createSizedStackSlot 32 : M Locals StackSlot) :=
    Steady.func.bind fun f => (Steady.setFunc _).bind fun _ => .pure _
  unfold seedEntry
  refine Ensures.bind (has_seedParams params config.operandTypes) ?_
  rintro _ s₁ ⟨rfl, h₁⟩
  refine Ensures.bind (hslot s₁) fun _ s₂ h₂ => Ensures.bind (hslot s₂) fun _ s₃ h₃ => ?_
  refine Ensures.bind (has_constants _) fun _ s₄ h₄ => ?_
  refine Ensures.bind (steady_emitTyped _ _ s₄) fun _ s₅ h₅ => ?_
  refine Ensures.bind (steady_emitTyped _ _ s₅) fun _ s₆ h₆ => ?_
  refine ensures_bind_locals ?_
  rw [← bind_assoc]
  refine Ensures.pick (P := fun _ => True) (Ensures.chooseUnwrap trivial (fun _ _ => trivial)
    fun _ _ => ⟨rfl, trivial⟩) fun tv _ => ?_
  refine Ensures.bind (Ensures.forM (P := fun _ s' => s'.locals = s₆.locals) rfl
    fun i rest s' h => ?_) fun _ s₇ h₇ => ?_
  · exact ((steady_ins _).bind fun _ => (steady_ins _).bind fun _ => .pure _ : Steady _) s' |>.mono
      fun _ _ h' => h'.trans h
  unfold publishDefs
  refine ensures_bind_locals ?_
  refine ensures_setLocals fun t => ?_
  change s₇.locals.Has t ↔ _
  -- only the parameters and the constants add to the values of the block
  rw [h₇, h₆, h₅, h₄, h₃, h₂, h₁]
  refine or_congr_left (exists_congr fun o => ?_)
  simp [and_assoc]

end Constants

/-! ## Operand types of the intersection -/

theorem OperandType.toCraneliftType_inj {a b : OperandType}
    (h : a.toCraneliftType = b.toCraneliftType) : a = b := by
  cases a <;> cases b <;> first | rfl | cases h

@[simp] theorem operandTypes_foldl_intersect {first : ArchConfig} {rest : List ArchConfig} :
    (rest.foldl ArchConfig.intersect first).operandTypes = first.operandTypes := by
  induction rest generalizing first with
  | nil => rfl
  | cons c rest ih => rw [List.foldl_cons, ih, ArchConfig.intersect]

/-- **The operand types of an intersection are those of the first config.** Hence they, and the
constants that the entry block of a function is given for them, are supported by all configs
exactly if the other configs have the types of the first one. A value of the entry block that has
no parameter's type is a constant. -/
theorem configIntersection_operandTypes_iff (first : ArchConfig) (rest : List ArchConfig) :
    ∃ result, configIntersection (first :: rest) = some result ∧
      ((∀ t ∈ result.operandTypes, ∀ c ∈ first :: rest, t ∈ c.operandTypes) ↔
        ∀ t ∈ first.operandTypes, ∀ c ∈ rest, t ∈ c.operandTypes) ∧
      ∀ (node : Block) (params : List ClifType) (w w' : World (State Locals)),
        w.mem.locals.defValues = [] → seedEntry node params result w = .ok () w' →
        ((∀ tv ∈ w'.mem.locals.defValues, tv.ty ∉ params →
            ∀ c ∈ first :: rest, ∃ t ∈ c.operandTypes, tv.ty = t.toCraneliftType) ↔
          ∀ t ∈ first.operandTypes, t.toCraneliftType ∉ params →
            ∀ c ∈ rest, t ∈ c.operandTypes) := by
  refine ⟨_, rfl, ?_, fun node params w w' hempty hrun => ?_⟩
  · rw [operandTypes_foldl_intersect]
    constructor
    · exact fun h t ht c hc => h t ht c (List.mem_cons_of_mem _ hc)
    · exact fun h t ht => List.forall_mem_cons.mpr ⟨ht, h t ht⟩
  -- a value that is seeded has the type of a parameter or an operand type of the first config
  · have hhas := (has_seedEntry params _).of_ok hrun
    rw [operandTypes_foldl_intersect] at hhas
    have hnone : ∀ t, ¬ w.mem.locals.Has t := by simp [Locals.Has, hempty]
    constructor
    · intro h t ht htp c hc
      obtain ⟨v, hv⟩ := (hhas _).mpr (.inl ⟨t, ht, htp, rfl⟩)
      obtain ⟨t', ht', heq⟩ := h _ hv htp c (List.mem_cons_of_mem _ hc)
      exact OperandType.toCraneliftType_inj heq ▸ ht'
    · intro h tv htv htp
      obtain ⟨t, ht, htp', heq⟩ : ∃ t ∈ first.operandTypes, t.toCraneliftType ∉ params ∧
          tv.ty = t.toCraneliftType := by
        rcases (hhas tv.ty).mp ⟨tv.value, htv⟩ with h' | h' | h'
        · exact h'
        · exact absurd h' htp
        · exact absurd h' (hnone _)
      refine List.forall_mem_cons.mpr ⟨⟨t, ht, heq⟩, fun c hc => ?_⟩
      exact ⟨t, h t ht htp' c hc, heq⟩

/-- The operand types of `arch_x86.toml`. -/
def x86Config : ArchConfig where
  operandTypes := [.i8, .i16, .i32, .i64, .i128, .f16, .f32, .f64, .i8x16, .i16x8, .i32x4, .i64x2,
    .f16x8, .f32x4, .f64x2]
  instructions := addConfig.instructions

/-- The operand types of `arch_riscv64.toml`. -/
def riscv64Config : ArchConfig where
  operandTypes := [.i8, .i16, .i32, .i64, .i128, .f32, .f64, .i8x16, .i16x8, .i32x4, .i64x2,
    .f32x4, .f64x2]
  instructions := addConfig.instructions

/-- A function that is generated for both architectures. -/
theorem x86Config_returns : returnsWith (buildFunction 0 false (x86Config.intersect riscv64Config))
    (buildStart (.user 1 0) ⟨[], [.i32]⟩ (List.replicate 110 0)) (fun _ w =>
      ∃ i ∈ w.mem.func.layout.insts 0, (w.mem.func.instData i).opcode = .f16const) = true := by
  decide +kernel

theorem configIntersection_operandTypes_f16 :
    ∃ result, configIntersection [x86Config, riscv64Config] = some result ∧
      OperandType.f16 ∈ result.operandTypes ∧ OperandType.f16 ∉ riscv64Config.operandTypes ∧
      ∃ r w, buildFunction 0 false result
          (buildStart (.user 1 0) ⟨[], [.i32]⟩ (List.replicate 110 0)) = .ok r w ∧
        ∃ i ∈ w.mem.func.layout.insts 0, (w.mem.func.instData i).opcode = .f16const := by
  obtain ⟨r, w, hrun, hcheck⟩ := exists_of_returnsWith x86Config_returns
  refine ⟨_, rfl, by decide, by decide, r, w, hrun, of_decide_eq_true hcheck⟩

/-- The visit of the entry block of a function without parameters, before it is seeded. -/
def entryStart : World (State Locals) :=
  after (do
    withLocals [] (cfConstruct 0 none 0)
    gotoFirstInsertionPoint 0) (buildStart (.user 1 0) ⟨[], [.i32]⟩ (List.replicate 10 0))

theorem configIntersection_operandTypes_iff_add :
    ∃ result, configIntersection [addConfig, riscv64Config] = some result ∧
      (∀ t ∈ result.operandTypes, ∀ c ∈ [addConfig, riscv64Config], t ∈ c.operandTypes) ∧
      ∃ w', seedEntry 0 [] result entryStart = .ok () w' ∧
        ∀ tv ∈ w'.mem.locals.defValues, tv.ty ∉ ([] : List ClifType) →
          ∀ c ∈ [addConfig, riscv64Config], ∃ t ∈ c.operandTypes, tv.ty = t.toCraneliftType := by
  have hrun : returns (seedEntry 0 [] (addConfig.intersect riscv64Config)) entryStart = true := by
    decide +kernel
  obtain ⟨result, hresult, htypes, hconstants⟩ :=
    configIntersection_operandTypes_iff addConfig [riscv64Config]
  obtain rfl := Option.some.inj hresult
  obtain ⟨⟨⟩, w', hrun⟩ := exists_of_returns hrun
  refine ⟨_, hresult, htypes.mpr (by decide), w', hrun, ?_⟩
  exact (hconstants 0 [] entryStart w' (by decide +kernel) hrun).mpr (by decide)

/-! ## Lists of the intersection -/

section Panics

variable {δ : Type} {s : State δ} {values : ClifType → List Value} {op : Opcode}
  {config first : ArchConfig} {rest : List ArchConfig} {instr : Instruction}

theorem safe_populateInstruction_iff :
    Safe (populateInstruction values config op : M δ Selection) s ↔
      ∃ instr, config.instruction op.name = some instr ∧ ∀ ms, instr.modes = some ms →
        ms ≠ [] ∧ ∀ m ∈ ms, Safe (populateOpcode values m op : M δ Selection) s := by
  unfold populateInstruction
  cases hinstr : config.instruction op.name with
  | none => simpa using not_safe_panicWith
  | some instr =>
      simp only [Option.some.injEq, exists_eq_left']
      cases hmodes : instr.modes with
      | none => simpa using safe_pure none
      | some ms =>
          simp only [Option.some.injEq, forall_eq']
          rw [← bind_assoc]
          have hfair : Fair (do unwrap (← choose ms) : M δ Mode) :=
            (Fair.choose ms).bind fun _ => .unwrap _
          constructor
          · intro h
            have hne := safe_chooseUnwrap.mp h.of_bind
            refine ⟨hne, fun m hm => ?_⟩
            have hrest := h.rest hfair ((leads_chooseUnwrap hne).mpr ⟨rfl, hm⟩)
            exact hrest
          · rintro ⟨hne, hms⟩
            refine (safe_chooseUnwrap.mpr hne).bind fun m s' hm => ?_
            obtain ⟨rfl, hmem⟩ := (leads_chooseUnwrap hne).mp hm
            exact hms m hmem

theorem Instruction.modes_intersect_ne_nil {c : ArchConfig} {ms : List Mode}
    (h : (instr.intersect c).modes = some ms) : ms ≠ [] := by
  unfold Instruction.intersect at h
  split at h
  · split at h
    · simp only [intersectModes] at h
      split_ifs at h with hempty
      exact Option.some.inj h ▸ fun hnil => hempty (List.isEmpty_iff.mpr hnil)
    · cases h
  · cases h

theorem Instruction.modes_foldl_intersect_ne_nil (hrest : rest ≠ []) {ms : List Mode}
    (h : (rest.foldl Instruction.intersect instr).modes = some ms) : ms ≠ [] := by
  obtain ⟨init, c, rfl⟩ := (List.eq_nil_or_concat rest).resolve_left hrest
  rw [List.concat_eq_append, List.foldl_concat] at h
  exact Instruction.modes_intersect_ne_nil h

theorem instruction_foldl_intersect {i : String} :
    (rest.foldl ArchConfig.intersect first).instruction i =
      (first.instruction i).map (rest.foldl Instruction.intersect) := by
  unfold ArchConfig.instruction
  rw [instructions_foldl_intersect, List.filter_map, List.getLast?_map]
  simp only [Function.comp_def, Instruction.foldl_intersect_name]

/-- A list of a merge is present if there is a type in common. -/
theorem Chain.isSome_iff {m x : Mode} {ys : List Mode} (h : Chain instr rest m x ys)
    (hrest : rest ≠ []) {slot : Slot} :
    (m.types slot).isSome ↔ ∃ t, ∀ y ∈ x :: ys, t ∈ y.listed slot := by
  have hys : ys ≠ [] := by
    rintro rfl
    exact hrest (List.forall₂_nil_right_iff.mp h.tail)
  rw [Mode.isSome_types_merge h.merge hys]
  simp only [Mode.mem_listed_merge h.merge, List.forall_mem_cons]

/-- The same with one config, where there is nothing to merge with. -/
theorem Chain.isSome_types_iff {m x : Mode} {ys : List Mode} (h : Chain instr rest m x ys)
    {slot : Slot} (hlists : ∀ y ∈ x :: ys, (y.types slot).isSome) :
    (m.types slot).isSome ↔ rest = [] ∨ ∃ t, ∀ y ∈ x :: ys, t ∈ y.listed slot := by
  by_cases hrest : rest = []
  · subst hrest
    obtain ⟨-, htail, hmerge⟩ := h
    cases htail
    obtain rfl := Mode.merge_nil.mp hmerge
    simpa using hlists
  · rw [h.isSome_iff hrest, or_iff_right hrest]

/-- With two or more configs, a safe opcode of the first config stays safe exactly if the lists it
draws from have not vanished. -/
theorem safe_populateInstruction_foldl_iff (hrest : rest ≠ [])
    (hfirst : Safe (populateInstruction values first op : M δ Selection) s) :
    Safe (populateInstruction values (rest.foldl ArchConfig.intersect first) op : M δ Selection) s ↔
      ∀ instr, first.instruction op.name = some instr → ∀ m x ys, Chain instr rest m x ys →
        ∀ slot ∈ op.slots, (m.types slot).isSome := by
  obtain ⟨instr, hinstr, hmodes⟩ := safe_populateInstruction_iff.mp hfirst
  have hresult : (rest.foldl ArchConfig.intersect first).instruction op.name =
      some (rest.foldl Instruction.intersect instr) := by
    rw [instruction_foldl_intersect, hinstr]
    rfl
  rw [safe_populateInstruction_iff, hresult, hinstr]
  simp only [Option.some.injEq, exists_eq_left', forall_eq']
  constructor
  · intro h m x ys hchain
    obtain ⟨ms, hms, hm⟩ := Instruction.mem_modes_foldl_intersect.mpr ⟨x, ys, hchain⟩
    exact (populateOpcode_drawsFrom values op).isSome ((h ms hms).2 m hm)
  · intro h ms hms
    refine ⟨Instruction.modes_foldl_intersect_ne_nil hrest hms, fun m hm => ?_⟩
    obtain ⟨x, ys, hchain⟩ := Instruction.mem_modes_foldl_intersect.mp ⟨ms, hms, hm⟩
    obtain ⟨xs, hxs, hx⟩ := hchain.head
    refine (populateOpcode_drawsFrom values op).safe_of_narrows (fun slot hslot => ?_)
      ((hmodes xs hxs).2 x hx)
    -- a list of the result is not empty, and has types of the first config only
    obtain ⟨t, ht⟩ := (hchain.isSome_iff hrest).mp (h m x ys hchain slot hslot)
    have htm := (Mode.mem_listed_merge hchain.merge).mpr (List.forall_mem_cons.mp ht)
    exact ⟨List.ne_nil_of_mem htm, fun t ht => ((Mode.mem_listed_merge hchain.merge).mp ht).1⟩

end Panics

/-- **When intersected modes keep their lists.** A mode of the result is the merge of a chain of
modes. Of a list that all of them have, the result has one exactly if some type is in all of them
(or there is one config only). An opcode that panics for no draws under each of the configs panics
for none under the result exactly if this holds for the lists that the opcode draws types from. -/
theorem configIntersection_keepsLists_iff (first : ArchConfig) (rest : List ArchConfig) :
    ∃ result, configIntersection (first :: rest) = some result ∧
      (∀ i m, result.HasMode i m ↔
        ∃ instr ∈ first.instructions, instr.name = i ∧ ∃ x ys, Chain instr rest m x ys) ∧
      (∀ instr m x ys, Chain instr rest m x ys → ∀ slot, (∀ y ∈ x :: ys, (y.types slot).isSome) →
        ((m.types slot).isSome ↔ rest = [] ∨ ∃ t, ∀ y ∈ x :: ys, t ∈ y.listed slot)) ∧
      ∀ (values : ClifType → List Value) (op : Opcode) (s : State Locals),
        (∀ c ∈ first :: rest, Safe (populateInstruction values c op) s) →
        (Safe (populateInstruction values result op) s ↔
          ∀ instr, first.instruction op.name = some instr → ∀ m x ys, Chain instr rest m x ys →
            ∀ slot ∈ op.slots, rest = [] ∨ ∃ t, ∀ y ∈ x :: ys, t ∈ y.listed slot) := by
  refine ⟨_, rfl, fun i m => ?_, fun instr m x ys h slot => h.isSome_types_iff, ?_⟩
  · unfold ArchConfig.HasMode
    simp [instructions_foldl_intersect, Instruction.mem_modes_foldl_intersect]
  · intro values op s hall
    have hfirst := hall first List.mem_cons_self
    by_cases hrest : rest = []
    · subst hrest
      simpa using hfirst
    · rw [safe_populateInstruction_foldl_iff hrest hfirst]
      refine forall_congr' fun instr => imp_congr_right fun _ => forall_congr' fun m =>
        forall_congr' fun x => forall_congr' fun ys => imp_congr_right fun h =>
        forall_congr' fun slot => imp_congr_right fun _ => ?_
      rw [h.isSome_iff hrest, or_iff_right hrest]

section Iadd

variable {operandTypes types : List OperandType} {i : String} {m : Mode}

theorem iaddConfig_mode (h : (iaddConfig operandTypes types).HasMode i m) :
    m = { name := "default", operandTypes := some types } := by
  obtain ⟨instr, hinstr, -, ms, hms, hm⟩ := h
  obtain rfl := List.mem_singleton.mp hinstr
  obtain rfl := Option.some.inj hms
  exact List.mem_singleton.mp hm

/-- Where there are no values to add, `iadd` draws a type and gives up. -/
theorem iaddConfig_safe (hne : types ≠ []) (s : State Locals) :
    Safe (populateInstruction (fun _ => []) (iaddConfig operandTypes types) .iadd) s := by
  refine safe_populateInstruction_iff.mpr ⟨_, rfl, fun ms hms => ?_⟩
  obtain rfl := Option.some.inj hms
  refine ⟨List.cons_ne_nil _ _, fun m hm => ?_⟩
  obtain rfl := List.mem_singleton.mp hm
  exact (safe_chooseType hne).bind fun t s' _ => safe_pure none

end Iadd

theorem configIntersection_keepsLists_disjoint :
    ∃ result, configIntersection [iaddConfig [] [.i32], iaddConfig [] [.i64]] = some result ∧
      (∀ c ∈ [iaddConfig [] [.i32], iaddConfig [] [.i64]], ∀ m, c.HasMode "iadd" m →
        m.name = "default" ∧ (m.types .operand).isSome) ∧
      (∃ m, result.HasMode "iadd" m ∧ m.name = "default" ∧ m.types .operand = none) ∧
      ∀ s : State Locals,
        (∀ c ∈ [iaddConfig [] [.i32], iaddConfig [] [.i64]],
          Safe (populateInstruction (fun _ => []) c .iadd) s) ∧
        ¬ Safe (populateInstruction (fun _ => []) result .iadd) s := by
  refine ⟨_, rfl, ?_, ?_, fun s => ⟨?_, fun h => ?_⟩⟩
  · simp only [List.forall_mem_cons]
    refine ⟨fun m hm => ?_, fun m hm => ?_, fun c hc => absurd hc List.not_mem_nil⟩
    · rw [iaddConfig_mode hm]
      exact ⟨rfl, rfl⟩
    · rw [iaddConfig_mode hm]
      exact ⟨rfl, rfl⟩
  · exact ⟨{ name := "default" }, ⟨_, List.mem_singleton_self _, rfl, _, rfl,
      List.mem_singleton_self _⟩, rfl, rfl⟩
  · simp only [List.forall_mem_cons]
    exact ⟨iaddConfig_safe (by decide) s, iaddConfig_safe (by decide) s,
      fun c hc => absurd hc List.not_mem_nil⟩
  · obtain ⟨instr, hinstr, hmodes⟩ := safe_populateInstruction_iff.mp h
    obtain rfl := Option.some.inj hinstr
    obtain ⟨ts, hts, -⟩ := exists_of_safe_chooseType
      ((hmodes _ rfl).2 _ (List.mem_singleton_self _)).of_bind
    cases hts

theorem configIntersection_keepsLists_iff_iadd :
    ∃ result, configIntersection [iaddConfig [] [.i32, .i64], iaddConfig [] [.i8, .i32]] =
        some result ∧
      ∀ s : State Locals, Safe (populateInstruction (fun _ => []) result .iadd) s := by
  obtain ⟨result, hresult, -, -, hsafe⟩ := configIntersection_keepsLists_iff
    (iaddConfig [] [.i32, .i64]) [iaddConfig [] [.i8, .i32]]
  refine ⟨result, hresult, fun s => (hsafe _ _ s ?_).mpr ?_⟩
  · simp only [List.forall_mem_cons]
    exact ⟨iaddConfig_safe (by decide) s, iaddConfig_safe (by decide) s,
      fun c hc => absurd hc List.not_mem_nil⟩
  · intro instr hinstr m x ys hchain slot hslot
    obtain rfl := List.mem_singleton.mp hslot
    obtain ⟨hmem, hname⟩ := ArchConfig.mem_of_instruction hinstr
    have hx := iaddConfig_mode ⟨instr, hmem, hname, hchain.head⟩
    obtain _ | @⟨_, y, _, _, hy, htail⟩ := hchain.tail
    cases htail
    have hy := iaddConfig_mode hy.hasMode
    refine .inr ⟨.i32, ?_⟩
    rw [hx, hy]
    decide

end Clir
