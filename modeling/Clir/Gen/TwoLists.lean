import Clir.Gen.Arms

set_option autoImplicit false

/-! # Modes with two lists of types

The modes of shifts, rotations, `bmask`, `select` and `select_spectre_guard` list types for two
operands. Over all streams of draws, the types of what a call emits are all the pairs of the two
lists; but both types of a `select` come from the first list.
-/

namespace Clir

open Cmd Cursor

/-- The opcodes whose modes list types for two operands. -/
def twoListOpcodes : List Opcode :=
  [.rotl, .rotr, .ishl, .ushr, .sshr, .bmask, .select, .selectSpectreGuard]

/-- A list of the mode has the type. -/
def Mode.ListsIn (mode : Mode) (slot : Slot) (t : ClifType) : Prop :=
  ∃ o ∈ mode.listed slot, o.toCraneliftType = t

/-- The types that the two lists are for, read off what a call returned: the types of the result
and the operand of a `bmask`, of the operands of a shift or rotation, and of the control operand
and the rest of a `select`. -/
def Selection.governed : Selection → Option (ClifType × ClifType)
  | some (some target, some [arg]) => some (target.ty, arg.ty)
  | some (some _, some [value, bitsNum]) => some (value.ty, bitsNum.ty)
  | some (some new, some [control, x, y]) =>
      if x.ty = new.ty ∧ y.ty = new.ty then some (control.ty, new.ty) else none
  | _ => none

/-! ## Streams that reach a result -/

section Reach

variable {δ : Type} {s : State δ} {b : Block} {before after : List Inst}

theorem exists_leads_selectValue {l : List Value} (hne : l ≠ []) :
    ∃ v, Leads (selectValue l) s v s := by
  have hsafe : Safe (selectValue l) s := .of_ensures
    (ensures_selectValue l rfl fun hnil => absurd hnil hne)
  obtain ⟨v, s', hv⟩ := (fair_selectValue l).live hsafe
  obtain ⟨rfl, -⟩ := (ensures_select l).of_leads hv
  exact ⟨v, hv⟩

theorem leads_chooseType_iff {mode : Mode} {slot : Slot} {t : ClifType} {s' : State δ} :
    Leads (chooseType (mode.types slot)) s t s' ↔ s' = s ∧ mode.ListsIn slot t := by
  unfold Mode.ListsIn Mode.listed
  cases mode.types slot with
  | none =>
      constructor
      · rintro ⟨draws, rest, h⟩
        cases h
      · rintro ⟨-, o, ho, -⟩
        exact absurd ho List.not_mem_nil
  | some types =>
      cases types with
      | nil =>
          constructor
          · rintro ⟨draws, rest, h⟩
            cases h
          · rintro ⟨-, o, ho, -⟩
            exact absurd ho List.not_mem_nil
      | cons o types => exact leads_chooseType (List.cons_ne_nil o types)

theorem Points.ensures_insTyped (h : Points s b before after) {data : InstructionData}
    (hres : data.opcode.SameType) (c : ClifType) :
    Ensures (fun _ _ => False) (insTyped data c) s fun i s' =>
      (s'.func.dfg.results i).head? = some s.func.dfg.values.len := by
  obtain ⟨rest, hrest⟩ := hres c
  unfold insTyped
  rw [hrest]
  refine (h.build data (c :: rest)).mono ?_
  rintro i s' ⟨rfl, he, -, -⟩
  rw [he.results_new]
  rfl

/-- Where the cursor stands in a block, an instruction with a result is emitted. -/
theorem Points.exists_leads_emitAt (h : Points s b before after) (ctrl : Option ClifType)
    (data : InstructionData) (hres : data.opcode.SameType) :
    ∃ v s', Leads (emitAt ctrl data) s v s' := by
  have hfirst : ∀ (i : Inst) (s' : State δ),
      (s'.func.dfg.results i).head? = some s.func.dfg.values.len →
        Ensures (fun _ _ => False) (firstResult i) s' fun _ _ => True := by
    intro i s' hhead
    unfold firstResult
    refine ensures_bind_func ?_
    rw [hhead]
    exact Ensures.pure trivial
  cases ctrl with
  | some c => exact (Ensures.bind (h.ensures_insTyped hres c) hfirst).exists_leads
  | none =>
      have hins : Ensures (fun _ _ => False) (ins data) s fun i s' =>
          (s'.func.dfg.results i).head? = some s.func.dfg.values.len := by
        unfold ins
        refine ensures_bind_func ?_
        exact h.ensures_insTyped hres _
      exact (Ensures.bind hins hfirst).exists_leads

end Reach

/-! ## The pairs of types of an arm -/

section Arms

variable {δ : Type} {s : State δ} {b : Block} {before after : List Inst}
  {values : ClifType → List Value} {mode : Mode} {op : Opcode} {t₀ t₁ : ClifType}

/-- The types of what an arm can emit. -/
def Governs (arm : M δ Selection) (s : State δ) (t₀ t₁ : ClifType) : Prop :=
  ∃ sel s', Leads arm s sel s' ∧ Selection.governed sel = some (t₀, t₁)

/-- An arm that first draws a type can emit what the rest of it can. -/
theorem governs_chooseType {slot : Slot} {k : ClifType → M δ Selection} :
    Governs (chooseType (mode.types slot) >>= k) s t₀ t₁ ↔
      ∃ t, mode.ListsIn slot t ∧ Governs (k t) s t₀ t₁ := by
  unfold Governs
  simp only [leads_bind (fair_chooseType _), leads_chooseType_iff]
  constructor
  · rintro ⟨sel, s', ⟨t, _, ⟨rfl, ht⟩, hk⟩, hgov⟩
    exact ⟨t, ht, sel, s', hk, hgov⟩
  · rintro ⟨t, ht, sel, s', hk, hgov⟩
    exact ⟨sel, s', ⟨t, s, ⟨rfl, ht⟩, hk⟩, hgov⟩

/-- An arm that selects a candidate, where there is one, and whose types do not depend on it. -/
theorem governs_selectValue {l : List Value} (hne : l ≠ []) {k : Value → M δ Selection} {P : Prop}
    (hk : ∀ v, Governs (k v) s t₀ t₁ ↔ P) : Governs (selectValue l >>= k) s t₀ t₁ ↔ P := by
  unfold Governs
  simp only [leads_bind (fair_selectValue l)]
  constructor
  · rintro ⟨sel, s', ⟨v, s₁, hv, hrest⟩, hgov⟩
    obtain ⟨rfl, -⟩ := (ensures_select l).of_leads hv
    exact (hk v).mp ⟨sel, s', hrest, hgov⟩
  · intro hP
    obtain ⟨v, hv⟩ := exists_leads_selectValue (s := s) hne
    obtain ⟨sel, s', hrest, hgov⟩ := (hk v).mpr hP
    exact ⟨sel, s', ⟨v, s, hv, hrest⟩, hgov⟩

/-- The instruction itself can be emitted, so the types are those that are returned. -/
theorem Points.governs_emitAt (h : Points s b before after) (ctrl : Option ClifType)
    (hop : op.SameType) {args : List Value} {k : Value → Selection} {p : ClifType × ClifType}
    (hk : ∀ v, Selection.governed (k v) = some p) :
    Governs (emitAt ctrl (.fixed op args) >>= fun v => pure (k v)) s t₀ t₁ ↔ (t₀, t₁) = p := by
  constructor
  · rintro ⟨sel, s', ⟨draws, rest, hrun⟩, hgov⟩
    obtain ⟨v, w₁, -, hpure⟩ := bind_eq_ok.mp hrun
    obtain ⟨rfl, -⟩ := EStateM.Result.ok.inj hpure
    exact Option.some.inj (hgov.symm.trans (hk v))
  · rintro rfl
    obtain ⟨v, s', hv⟩ := h.exists_leads_emitAt ctrl (.fixed op args) hop
    exact ⟨k v, s', hv.map k, hk v⟩

/-- A shift or rotation: one type of each list. -/
theorem Points.governs_shift (h : Points s b before after) (hop : op.SameType)
    (hpool : ∀ t, mode.ListsIn .arg0 t ∨ mode.ListsIn .arg1 t → values t ≠ []) :
    Governs (shift values op mode) s t₀ t₁ ↔ mode.ListsIn .arg0 t₀ ∧ mode.ListsIn .arg1 t₁ := by
  have harm : ∀ t t', mode.ListsIn .arg0 t → mode.ListsIn .arg1 t' →
      (Governs (do
        let value ← selectValue (values t)
        let bitsNum ← selectValue (values t')
        let newValue ← emit (.fixed op [value, bitsNum])
        return defined newValue t [⟨value, t⟩, ⟨bitsNum, t'⟩] : M δ Selection) s t₀ t₁ ↔
          (t₀, t₁) = (t, t')) := fun t t' ht ht' =>
    governs_selectValue (hpool t (.inl ht)) fun _ => governs_selectValue (hpool t' (.inr ht'))
      fun _ => h.governs_emitAt none hop fun _ => rfl
  change Governs (chooseType (mode.types .arg0) >>= fun t =>
    chooseType (mode.types .arg1) >>= fun t' => _) s t₀ t₁ ↔ _
  simp only [governs_chooseType]
  constructor
  · rintro ⟨t, ht, t', ht', hgov⟩
    obtain ⟨rfl, rfl⟩ := Prod.mk.inj ((harm t t' ht ht').mp hgov)
    exact ⟨ht, ht'⟩
  · rintro ⟨ht, ht'⟩
    exact ⟨t₀, ht, t₁, ht', (harm t₀ t₁ ht ht').mpr rfl⟩

/-- A `bmask`: the type of the result, then the type of the operand. -/
theorem Points.governs_bmask (h : Points s b before after)
    (hpool : ∀ t, mode.ListsIn .arg0 t ∨ mode.ListsIn .arg1 t → values t ≠ []) :
    Governs (populateOpcode values mode .bmask : M δ Selection) s t₀ t₁ ↔
      mode.ListsIn .arg0 t₀ ∧ mode.ListsIn .arg1 t₁ := by
  have hop : Opcode.bmask.SameType := fun _ => ⟨[], rfl⟩
  have harm : ∀ t t', mode.ListsIn .arg1 t' →
      (Governs (unary values .bmask (some t) t' t : M δ Selection) s t₀ t₁ ↔
        (t₀, t₁) = (t, t')) := fun t t' ht' =>
    governs_selectValue (hpool t' (.inr ht')) fun _ => h.governs_emitAt (some t) hop fun _ => rfl
  change Governs (chooseType (mode.types .arg0) >>= fun t =>
    chooseType (mode.types .arg1) >>= fun t' => unary values .bmask (some t) t' t) s t₀ t₁ ↔ _
  simp only [governs_chooseType]
  constructor
  · rintro ⟨t, ht, t', ht', hgov⟩
    obtain ⟨rfl, rfl⟩ := Prod.mk.inj ((harm t t' ht').mp hgov)
    exact ⟨ht, ht'⟩
  · rintro ⟨ht, ht'⟩
    exact ⟨t₀, ht, t₁, ht', (harm t₀ t₁ ht').mpr rfl⟩

/-- A `select`: both types are of the first list. -/
theorem Points.governs_selectOp (h : Points s b before after) (hop : op.SameType)
    (hpool : ∀ t, mode.ListsIn .arg0 t ∨ mode.ListsIn .arg1 t → values t ≠ []) :
    Governs (selectOp values op mode) s t₀ t₁ ↔
      mode.ListsIn .arg0 t₀ ∧ mode.ListsIn .arg0 t₁ := by
  -- the operands are drawn last and do not decide the types
  have hrest : ∀ t control t', mode.ListsIn .arg0 t' →
      (Governs (do
        let refValue1 ← selectValue (values t')
        let refValue2 ← selectValue (values t')
        let newValue ← emit (.fixed op [control, refValue1, refValue2])
        return defined newValue t'
          [⟨control, t⟩, ⟨refValue1, t'⟩, ⟨refValue2, t'⟩] : M δ Selection) s t₀ t₁ ↔
        (t₀, t₁) = (t, t')) := fun t _ t' ht' =>
    governs_selectValue (hpool t' (.inl ht')) fun _ => governs_selectValue (hpool t' (.inl ht'))
      fun _ => h.governs_emitAt none hop fun _ => if_pos ⟨rfl, rfl⟩
  -- the second draw is from the first list as well
  have harm : ∀ t, mode.ListsIn .arg0 t → (Governs (do
      let control ← selectValue (values t)
      let t' ← chooseType (mode.types .arg0)
      let refValue1 ← selectValue (values t')
      let refValue2 ← selectValue (values t')
      let newValue ← emit (.fixed op [control, refValue1, refValue2])
      return defined newValue t'
        [⟨control, t⟩, ⟨refValue1, t'⟩, ⟨refValue2, t'⟩] : M δ Selection) s t₀ t₁ ↔
      t₀ = t ∧ mode.ListsIn .arg0 t₁) := by
    intro t ht
    refine governs_selectValue (hpool t (.inl ht)) fun control => ?_
    rw [governs_chooseType]
    constructor
    · rintro ⟨t', ht', hgov⟩
      obtain ⟨rfl, rfl⟩ := Prod.mk.inj ((hrest t control t' ht').mp hgov)
      exact ⟨rfl, ht'⟩
    · rintro ⟨rfl, ht'⟩
      exact ⟨t₁, ht', (hrest t₀ control t₁ ht').mpr rfl⟩
  change Governs (chooseType (mode.types .arg0) >>= fun t => _) s t₀ t₁ ↔ _
  rw [governs_chooseType]
  constructor
  · rintro ⟨t, ht, hgov⟩
    obtain ⟨rfl, ht'⟩ := (harm t ht).mp hgov
    exact ⟨ht, ht'⟩
  · rintro ⟨ht, ht'⟩
    exact ⟨t₀, ht, (harm t₀ ht).mpr ⟨rfl, ht'⟩⟩

/-- The list that the second type of an opcode is drawn from. -/
def Opcode.secondSlot : Opcode → Slot
  | .select | .selectSpectreGuard => .arg0
  | _ => .arg1

theorem Points.governs_populateOpcode (h : Points s b before after) (hop : op ∈ twoListOpcodes)
    (hpool : ∀ t, mode.ListsIn .arg0 t ∨ mode.ListsIn .arg1 t → values t ≠ []) :
    Governs (populateOpcode values mode op : M δ Selection) s t₀ t₁ ↔
      mode.ListsIn .arg0 t₀ ∧ mode.ListsIn op.secondSlot t₁ := by
  simp only [twoListOpcodes, List.mem_cons, List.not_mem_nil, or_false] at hop
  rcases hop with rfl | rfl | rfl | rfl | rfl | rfl | rfl | rfl
  · exact h.governs_shift (fun _ => ⟨[], rfl⟩) hpool
  · exact h.governs_shift (fun _ => ⟨[], rfl⟩) hpool
  · exact h.governs_shift (fun _ => ⟨[], rfl⟩) hpool
  · exact h.governs_shift (fun _ => ⟨[], rfl⟩) hpool
  · exact h.governs_shift (fun _ => ⟨[], rfl⟩) hpool
  · exact h.governs_bmask hpool
  · exact h.governs_selectOp (fun _ => ⟨[], rfl⟩) hpool
  · exact h.governs_selectOp (fun _ => ⟨[], rfl⟩) hpool

end Arms

/-! ## Over all streams -/

section Streams

variable {δ : Type} {s : State δ} {b : Block} {before after : List Inst}
  {dominatorBlocks : List Block} {blockDominatorValues : ValueMap} {config : ArchConfig}
  {instr : Instruction} {modes : List Mode} {op : Opcode} {t₀ t₁ : ClifType}

/-- On some stream of draws, a call draws the opcode and returns an instruction of these types. -/
def CanEmit (dominatorBlocks : List Block) (blockDominatorValues : ValueMap) (config : ArchConfig)
    (op : Opcode) (s : State δ) (t₀ t₁ : ClifType) : Prop :=
  ∃ draws w₁ sel w', instrMutation ⟨draws, s⟩ = .ok op w₁ ∧
    populateBlockInstructions dominatorBlocks blockDominatorValues config ⟨draws, s⟩ = .ok sel w' ∧
    Selection.governed sel = some (t₀, t₁)

theorem fair_instrMutation : Fair (instrMutation : M δ Opcode) :=
  (Fair.choose _).bind fun _ => .unwrap _

theorem leads_instrMutation {s' : State δ} : Leads instrMutation s op s' ↔ s' = s := by
  have hne : Opcode.all ≠ [] := List.ne_nil_of_mem (Opcode.mem_all .nop)
  exact (leads_chooseUnwrap hne).trans (and_iff_left (Opcode.mem_all op))

theorem canEmit_iff : CanEmit dominatorBlocks blockDominatorValues config op s t₀ t₁ ↔
    Governs (populateInstruction (getDominatorValuesWithType dominatorBlocks blockDominatorValues)
      config op) s t₀ t₁ := by
  constructor
  · rintro ⟨draws, w₁, sel, w', hdraw, hrun, hgov⟩
    unfold populateBlockInstructions at hrun
    obtain ⟨op', w₂, hdraw', hrun⟩ := bind_eq_ok.mp hrun
    obtain ⟨rfl, rfl⟩ := EStateM.Result.ok.inj (hdraw.symm.trans hdraw')
    have hmem : w₁.mem = s := leads_instrMutation.mp ⟨draws, w₁.draws, hdraw⟩
    refine ⟨sel, w'.mem, ⟨w₁.draws, w'.draws, ?_⟩, hgov⟩
    rw [← hmem]
    exact hrun
  · rintro ⟨sel, s', ⟨draws, rest, hrun⟩, hgov⟩
    obtain ⟨draws₀, hdraw⟩ := fair_instrMutation.followed (leads_instrMutation.mpr rfl) draws
    refine ⟨draws₀, ⟨draws, s⟩, sel, ⟨rest, s'⟩, hdraw, ?_, hgov⟩
    unfold populateBlockInstructions
    exact bind_eq_ok.mpr ⟨op, _, hdraw, hrun⟩

/-- The modes of the config are drawn uniformly. -/
theorem governs_populateInstruction {values : ClifType → List Value}
    (hinstr : config.instruction op.name = some instr) (hmodes : instr.modes = some modes) :
    Governs (populateInstruction values config op : M δ Selection) s t₀ t₁ ↔
      ∃ mode ∈ modes, Governs (populateOpcode values mode op : M δ Selection) s t₀ t₁ := by
  have heq : (populateInstruction values config op : M δ Selection) =
      (do unwrap (← choose modes)) >>= fun mode => populateOpcode values mode op := by
    rw [populateInstruction, hinstr, bind_assoc]
    simp only [hmodes]
  have hfair : Fair (do unwrap (← choose modes) : M δ Mode) :=
    (Fair.choose modes).bind fun _ => .unwrap _
  rw [heq]
  unfold Governs
  simp only [leads_bind hfair]
  constructor
  · rintro ⟨sel, s', ⟨mode, s₁, hmode, hrest⟩, hgov⟩
    obtain ⟨rfl, hmem⟩ := (Ensures.chooseUnwrap (I := fun _ _ => True)
      (Q := fun m s₁ => s₁ = s ∧ m ∈ modes) trivial (fun _ _ => trivial)
        fun m hm => ⟨rfl, hm⟩).of_leads hmode
    exact ⟨mode, hmem, sel, s', hrest, hgov⟩
  · rintro ⟨mode, hmem, sel, s', hrest, hgov⟩
    exact ⟨sel, s', ⟨mode, s, (leads_chooseUnwrap (List.ne_nil_of_mem hmem)).mpr ⟨rfl, hmem⟩,
      hrest⟩, hgov⟩

/-- **A call can emit all pairs of types of the two lists and no others**, except that a `select`
takes both types from the first list. -/
theorem populateBlockInstructions_twoLists_iff (hop : op ∈ twoListOpcodes)
    (hinstr : config.instruction op.name = some instr) (hmodes : instr.modes = some modes)
    (hpool : ∀ mode ∈ modes, ∀ t, mode.ListsIn .arg0 t ∨ mode.ListsIn .arg1 t →
      getDominatorValuesWithType dominatorBlocks blockDominatorValues t ≠ [])
    (hcursor : Points s b before after) :
    (∀ t₀ t₁, CanEmit dominatorBlocks blockDominatorValues config op s t₀ t₁ ↔
        ∃ mode ∈ modes, mode.ListsIn .arg0 t₀ ∧ mode.ListsIn .arg1 t₁) ↔
      (op = .select ∨ op = .selectSpectreGuard →
        ∀ t₀ t₁, (∃ mode ∈ modes, mode.ListsIn .arg0 t₀ ∧ mode.ListsIn .arg0 t₁) ↔
          ∃ mode ∈ modes, mode.ListsIn .arg0 t₀ ∧ mode.ListsIn .arg1 t₁) := by
  have hcan : ∀ t₀ t₁, CanEmit dominatorBlocks blockDominatorValues config op s t₀ t₁ ↔
      ∃ mode ∈ modes, mode.ListsIn .arg0 t₀ ∧ mode.ListsIn op.secondSlot t₁ := by
    intro t₀ t₁
    rw [canEmit_iff, governs_populateInstruction hinstr hmodes]
    refine exists_congr fun mode => and_congr_right fun hmem => ?_
    exact hcursor.governs_populateOpcode hop (hpool mode hmem)
  simp only [hcan]
  by_cases hselect : op = .select ∨ op = .selectSpectreGuard
  · have hslot : op.secondSlot = .arg0 := by rcases hselect with rfl | rfl <;> rfl
    simp only [hslot, hselect, true_implies]
  · have hslot : op.secondSlot = .arg1 := by
      cases op <;> first | rfl | exact absurd (by simp) hselect
    simp only [hslot, hselect, implies_true, false_implies]

/-- A block with parameters of types `i32` and `i64`. -/
def twoParams : Function := oneParam.appendBlockParam 0 .i64

def twoParamsState : State Unit := ⟨twoParams, .after 0, ()⟩

def twoParamsPool : ValueMap := AList.insert 0 [⟨0, .i32⟩, ⟨1, .i64⟩] ∅

/-- A mode with two lists of types. -/
def twoListMode (arg0 arg1 : List OperandType) : Mode :=
  { name := "int", arg0Types := some arg0, arg1Types := some arg1 }

/-- A config of one instruction with two lists of types. -/
def twoListConfig (op : Opcode) (arg0 arg1 : List OperandType) : ArchConfig where
  operandTypes := [.i32, .i64]
  instructions := [⟨op.name, some [twoListMode arg0 arg1]⟩]

theorem twoListConfig_select : returnsWith
    (populateBlockInstructions [0] twoParamsPool (twoListConfig .select [.i32] [.i64]))
    ⟨70 :: List.replicate 10 0, twoParamsState⟩
    (fun sel _ => Selection.governed sel = some (.i32, .i32)) = true := by
  decide +kernel

/-- A call can take the type of the value operands of a `select` from the list of the control
operand, which the list of the value operands does not have. -/
theorem populateBlockInstructions_twoLists_select :
    CanEmit [0] twoParamsPool (twoListConfig .select [.i32] [.i64]) .select twoParamsState
        .i32 .i32 ∧
      ∀ instr modes, (twoListConfig .select [.i32] [.i64]).instruction "select" = some instr →
        instr.modes = some modes → ∀ mode ∈ modes, ¬ mode.ListsIn .arg1 .i32 := by
  constructor
  · obtain ⟨sel, w', hrun, hcheck⟩ := exists_of_returnsWith twoListConfig_select
    obtain ⟨w₁, hdraw⟩ : ∃ w₁, instrMutation ⟨70 :: List.replicate 10 0, twoParamsState⟩ =
        .ok .select w₁ := exists_instrMutation (by decide +kernel)
    exact ⟨_, w₁, sel, w', hdraw, hrun, of_decide_eq_true hcheck⟩
  · intro instr modes hinstr hmodes mode hmode hlists
    obtain rfl := Option.some.inj hinstr
    obtain rfl := Option.some.inj hmodes
    obtain rfl := List.mem_singleton.mp hmode
    obtain ⟨o, ho, ht⟩ := hlists
    obtain rfl := List.mem_singleton.mp ho
    cases ht

theorem populateBlockInstructions_twoLists_rotl :
    Opcode.rotl ∈ twoListOpcodes ∧ Points twoParamsState 0 [] [] ∧
    ∀ t₀ t₁, CanEmit [0] twoParamsPool (twoListConfig .rotl [.i32] [.i64]) .rotl twoParamsState
        t₀ t₁ ↔ t₀ = .i32 ∧ t₁ = .i64 := by
  have harg0 : ∀ t, (twoListMode [.i32] [.i64]).ListsIn .arg0 t ↔ t = .i32 := by
    intro t
    simp [Mode.ListsIn, Mode.listed, Mode.types, twoListMode, OperandType.toCraneliftType, eq_comm]
  have harg1 : ∀ t, (twoListMode [.i32] [.i64]).ListsIn .arg1 t ↔ t = .i64 := by
    intro t
    simp [Mode.ListsIn, Mode.listed, Mode.types, twoListMode, OperandType.toCraneliftType, eq_comm]
  have hpool : ∀ mode ∈ [twoListMode [.i32] [.i64]], ∀ t,
      mode.ListsIn .arg0 t ∨ mode.ListsIn .arg1 t →
        getDominatorValuesWithType [0] twoParamsPool t ≠ [] := by
    intro mode hmode t ht
    rw [List.mem_singleton.mp hmode, harg0, harg1] at ht
    rcases ht with rfl | rfl <;> decide
  have hpoints : Points twoParamsState 0 [] [] := ⟨by decide, rfl, rfl⟩
  refine ⟨by decide, hpoints, fun t₀ t₁ => ?_⟩
  rw [(populateBlockInstructions_twoLists_iff (by decide) rfl rfl hpool hpoints).mpr (by simp)]
  simp [harg0, harg1]

end Streams

end Clir
