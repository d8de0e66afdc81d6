import Clir.Gen.Arms

set_option autoImplicit false

/-! # The references of instruction selection

A call of `populate_block_instructions` returns the operands it took from the pool, with the types
it selected them under. The exception are the arms that return the new value for a single
candidate. What a block refers to is collected over its calls, so without the exception it is what
the instructions of the block use.
-/

namespace Clir

open Cmd Cursor

/-! ## What a call draws -/

section Draws

variable {δ : Type} {values : ClifType → List Value} {config : ArchConfig} {op : Opcode}
  {w w₁ w' : World (State δ)} {r : Option TypedValue × Option (List TypedValue)}

/-- The type of the operands of an opcode, which the arms with two operands of one type draw
first. -/
def drawOperandType (config : ArchConfig) (instrOpcode : Opcode) : M δ ClifType := do
  let instrConfig ← unwrap (config.instruction instrOpcode.name)
  let modes ← unwrap instrConfig.modes
  let mode ← unwrap (← choose modes)
  chooseType mode.operandTypes

/-- A call from `w` draws an opcode whose arm returns the new value for a single candidate, and a
type with a single candidate. The new value is the next one, and not the candidate. -/
def DrawsSingle (values : ClifType → List Value) (config : ArchConfig)
    (w : World (State δ)) : Prop :=
  ∃ op w₁ t w₂ v, instrMutation w = .ok op w₁ ∧ drawOperandType config op w₁ = .ok t w₂ ∧
    op.refersToNew = true ∧ values t = [v] ∧ v ≠ w.mem.func.dfg.values.len

/-- The arms that return the new value draw a type and have two operands of it. -/
theorem populateOpcode_refersToNew {mode : Mode} (hop : op.refersToNew = true)
    (hrun : populateOpcode values mode op w = .ok (some r) w') :
    ∃ t recorded w₁, chooseType mode.operandTypes w = .ok t w₁ ∧
      binaryRefNew values op recorded t w₁ = .ok (some r) w' := by
  have hplain : ∀ recorded : ClifType → Option ClifType,
      (do binaryRefNew values op recorded (← chooseType mode.operandTypes) : M δ Selection) w =
        .ok (some r) w' → ∃ t recorded w₁, chooseType mode.operandTypes w = .ok t w₁ ∧
          binaryRefNew values op recorded t w₁ = .ok (some r) w' := by
    intro recorded hrun
    obtain ⟨t, w₁, ht, harm⟩ := bind_eq_ok.mp hrun
    exact ⟨t, recorded, w₁, ht, harm⟩
  cases op with
  | umax | avgRound | uaddSat | saddSat | usubSat | ssubSat | isub | umulhi | sqmulRoundSat
  | x86Pmulhrsw => exact hplain some hrun
  | x86Pmaddubsw =>
      -- this arm first looks whether a type is listed
      obtain ⟨types, w₁, htypes, harm⟩ := bind_eq_ok.mp hrun
      obtain rfl : w₁ = w := by
        cases hmode : mode.operandTypes with
        | none =>
            rw [hmode] at htypes
            cases htypes
        | some types' =>
            rw [hmode] at htypes
            exact (EStateM.Result.ok.inj htypes).2.symm
      split at harm
      · cases harm
      · exact hplain _ harm
  | _ => cases hop

/-- A call that returns something has drawn a mode. -/
theorem exists_mode_of_run (hrun : populateInstruction values config op w = .ok (some r) w') :
    ∃ instr modes mode w₁, config.instruction op.name = some instr ∧ instr.modes = some modes ∧
      (do unwrap (← choose modes) : M δ Mode) w = .ok mode w₁ ∧
        populateOpcode values mode op w₁ = .ok (some r) w' := by
  unfold populateInstruction at hrun
  cases hinstr : config.instruction op.name with
  | none =>
      rw [hinstr] at hrun
      cases hrun
  | some instr =>
      simp only [hinstr] at hrun
      cases hmodes : instr.modes with
      | none =>
          simp only [hmodes] at hrun
          cases hrun
      | some modes =>
          simp only [hmodes] at hrun
          rw [← bind_assoc] at hrun
          obtain ⟨mode, w₁, hmode, harm⟩ := bind_eq_ok.mp hrun
          exact ⟨instr, modes, mode, w₁, rfl, hmodes, hmode, harm⟩

/-- What the draws of a call come to, from those of its parts. -/
theorem drawOperandType_eq_ok {instr : Instruction} {modes : List Mode} {mode : Mode} {t : ClifType}
    {w₂ : World (State δ)} (hinstr : config.instruction op.name = some instr)
    (hmodes : instr.modes = some modes)
    (hmode : (do unwrap (← choose modes) : M δ Mode) w = .ok mode w₁)
    (htype : chooseType mode.operandTypes w₁ = .ok t w₂) :
    drawOperandType config op w = .ok t w₂ := by
  refine bind_eq_ok.mpr ⟨instr, w, ?_, bind_eq_ok.mpr ⟨modes, w, ?_, ?_⟩⟩
  · rw [hinstr]
    rfl
  · rw [hmodes]
    rfl
  · rw [← bind_assoc]
    exact bind_eq_ok.mpr ⟨mode, w₁, hmode, htype⟩

end Draws

/-! ## One call -/

section Call

variable {δ : Type} {values : ClifType → List Value} {op : Opcode} {f g : Function}
  {s : State δ} {new : Option TypedValue} {refs : List TypedValue}

theorem Opcode.emits_of_refersToNew (h : op.refersToNew = true) : op.emits op = true := by
  cases op <;> first | rfl | cases h

/-- **The arms that return the new value are right unless there is a single candidate**, or the
candidate is the value that is made next. -/
theorem ensures_binaryRefNew (hop : op.refersToNew = true) (recorded : ClifType → Option ClifType)
    (t : ClifType) :
    Ensures (fun _ _ => True) (binaryRefNew values op recorded t) s fun sel s' =>
      ∀ new refs, sel = some (new, some refs) → ∃ data, s.func.added s'.func = [data] ∧
        (Uses values data refs ↔ ∀ v, values t = [v] → v = s.func.dfg.values.len) := by
  have hemits := Opcode.emits_of_refersToNew hop
  unfold binaryRefNew binaryWith
  split
  · exact Ensures.pure fun _ _ hsel => by cases hsel
  · -- the only candidate is used twice, and the new value is returned for it
    rename_i v hv
    refine Ensures.bind (ensures_emitAt none (.fixed op [v, v])) ?_
    rintro x s' ⟨⟨b, before, after, tys, he⟩, -, -, rfl⟩
    refine Ensures.pick (ensures_recordedType _ fun _ => trivial) fun ty _ => Ensures.pure ?_
    rintro _ _ ⟨⟩
    refine ⟨_, (Extends.refl.snoc he).added, fun huses u hu => ?_, fun hfresh => ?_⟩
    · obtain rfl := List.singleton_inj.mp (hv.symm.trans hu)
      have hmem := (huses.operands v).mpr (by rw [valueOperands_fixed hemits]; simp)
      exact List.mem_singleton.mp hmem
    · have heq := hfresh v hv
      refine ⟨fun u => ?_, fun tv htv => ?_⟩
      · rw [valueOperands_fixed hemits, heq]
        simp
      · rw [List.mem_singleton.mp htv, hv, ← heq]
        exact List.mem_singleton_self v
  · -- two candidates are drawn and returned
    rename_i candidates hcands
    refine Ensures.pick (ensures_select _) fun x hx => ?_
    refine Ensures.pick (ensures_select _) fun y hy => ?_
    refine Ensures.bind (ensures_emitAt none (.fixed op [x, y])) ?_
    rintro z s' ⟨⟨b, before, after, tys, he⟩, -, -, -⟩
    refine Ensures.pick (ensures_recordedType _ fun _ => trivial) fun ty _ => Ensures.pure ?_
    rintro _ _ ⟨⟩
    refine ⟨_, (Extends.refl.snoc he).added, fun _ v hv => absurd hv (hcands v), fun _ => ?_⟩
    exact .of_eq (valueOperands_fixed hemits _) (by simpa using ⟨hx, hy⟩)

/-- **What a call returns is what its last instruction uses**, unless it draws a single
candidate. -/
theorem uses_iff_of_run {dominatorBlocks : List Block} {blockDominatorValues : ValueMap}
    {config : ArchConfig} {w w' : World (State δ)}
    (hrun : populateBlockInstructions dominatorBlocks blockDominatorValues config w =
      .ok (some (new, some refs)) w') :
    ∃ data, (w.mem.func.added w'.mem.func).getLast? = some data ∧
      (∀ v ∈ data.arguments, v ∈ data.valueOperands ∨ w.mem.func.NewAddress w'.mem.func v) ∧
      (Uses (getDominatorValuesWithType dominatorBlocks blockDominatorValues) data refs ↔
        ¬ DrawsSingle (getDominatorValuesWithType dominatorBlocks blockDominatorValues) config
          w) := by
  set values := getDominatorValuesWithType dominatorBlocks blockDominatorValues
  obtain ⟨op, w₁, hdraw, hinstr⟩ := bind_eq_ok.mp hrun
  obtain ⟨hsel, -⟩ := returned_of_run hdraw hrun
  cases hsel with
  | @chosen datas data _ _ _ hext _ haddresses _ huses =>
  have hlast : (w.mem.func.added w'.mem.func).getLast? = some data := by
    rw [hext.added, List.getLast?_concat]
  refine ⟨data, hlast, haddresses, ?_⟩
  cases hop : op.refersToNew with
  | false =>
      -- the arm of any other opcode returns its operands
      refine ⟨?_, fun _ => huses.resolve_right fun hnew => ?_⟩
      · rintro - ⟨op', w₂, t, w₃, v, hdraw', -, hop', -⟩
        obtain ⟨rfl, -⟩ := EStateM.Result.ok.inj (hdraw.symm.trans hdraw')
        rw [hop] at hop'
        cases hop'
      · rw [hnew.opcode] at hop
        cases hop
  | true =>
      obtain ⟨instr, modes, mode, w₂, hconfig, hmodes, hmode, harm⟩ := exists_mode_of_run hinstr
      obtain ⟨t, recorded, w₃, htype, harm⟩ := populateOpcode_refersToNew hop harm
      have hdraws := drawOperandType_eq_ok hconfig hmodes hmode htype
      -- nothing has been emitted before the arm
      have hmem : w₃.mem = w.mem :=
        ((ensures_pickType _).of_ok htype).1.trans ((Ensures.chooseUnwrap (I := fun _ _ => True)
          (Q := fun _ s' => s' = w₁.mem) trivial (fun _ _ => trivial) fun _ _ => rfl).of_ok hmode
            |>.trans (mem_of_instrMutation hdraw))
      obtain ⟨data', hadded, hiff⟩ := (ensures_binaryRefNew hop recorded t).of_ok harm _ _ rfl
      rw [hmem] at hadded hiff
      obtain rfl : data = data' := by
        rw [hadded] at hlast
        exact (Option.some.inj hlast).symm
      rw [hiff]
      constructor
      · rintro hfresh ⟨op', w₄, t', w₅, v, hdraw', hdraws', -, hv, hne⟩
        obtain ⟨rfl, rfl⟩ := EStateM.Result.ok.inj (hdraw.symm.trans hdraw')
        obtain ⟨rfl, -⟩ := EStateM.Result.ok.inj (hdraws.symm.trans hdraws')
        exact hne (hfresh v hv)
      · intro hnot v hv
        by_contra hne
        exact hnot ⟨op, w₁, t, w₃, v, hdraw, hdraws, hop, hv, hne⟩

end Call

/-! ## The calls of a block -/

section Block

variable {s s₀ : State Locals} {dominatorBlocks : List Block} {config : ArchConfig}

/-- An instruction on the only candidate of a type, from an arm that returns the new value. -/
def OnSingle (values : ClifType → List Value) (data : InstructionData) : Prop :=
  data.opcode.refersToNew = true ∧ ∃ t v, values t = [v] ∧ data.arguments = [v, v]

/-- What has been collected since the state `s₀`: the candidates that the instructions added since
then use, provided that none of them is on a single candidate. -/
structure Collected (values : ClifType → List Value) (s₀ s : State Locals) : Prop where
  defs : s.locals.blockDefValues = s₀.locals.blockDefValues
  exists_ext : ∃ datas, Extends s₀.func datas s.func ∧
    ((∀ d ∈ datas, ¬ OnSingle values d) →
      (∀ v, v ∈ s.locals.refValues.map TypedValue.value ↔ ∃ d ∈ datas, v ∈ d.valueOperands) ∧
        ∀ tv ∈ s.locals.refValues, tv.value ∈ values tv.ty)

/-- The references that a call returned. -/
def Selection.refs (sel : Selection) : List TypedValue := (sel.bind Prod.snd).getD []

/-- What one call adds and refers to. -/
theorem Selected.collects {values : ClifType → List Value} {op : Opcode} {f g : Function}
    {sel : Selection} (h : Selected values op f sel g) :
    ∃ datas, Extends f datas g ∧ ((∀ d ∈ datas, ¬ OnSingle values d) →
      (∀ v, v ∈ (Selection.refs sel).map TypedValue.value ↔ ∃ d ∈ datas, v ∈ d.valueOperands) ∧
        ∀ tv ∈ Selection.refs sel, tv.value ∈ values tv.ty) := by
  cases h with
  | nothing hext hsilent =>
      refine ⟨_, hext, fun _ => ⟨fun v => ⟨fun hv => absurd hv List.not_mem_nil, ?_⟩,
        fun tv htv => absurd htv List.not_mem_nil⟩⟩
      rintro ⟨d, hd, hv⟩
      rw [(hsilent d hd).2] at hv
      exact absurd hv List.not_mem_nil
  | @chosen datas data _ _ refs hext haddrs _ hop huses =>
      refine ⟨_, hext, fun hsingle => ?_⟩
      have hlast : data ∈ datas ++ [data] := List.mem_append_right _ (List.mem_singleton_self _)
      have huses : Uses values data (refs.getD []) := by
        refine huses.resolve_right ?_
        rintro ⟨hop', -, t, v, -, hv, rfl⟩
        exact hsingle _ hlast ⟨hop', t, v, hv, rfl⟩
      refine ⟨fun v => (huses.operands v).trans ⟨fun hv => ⟨data, hlast, hv⟩, ?_⟩,
        huses.candidates⟩
      rintro ⟨d, hd, hv⟩
      rcases List.mem_append.mp hd with hd | hd
      · -- the addresses in front have no operands
        rw [(haddrs d hd).valueOperands] at hv
        exact absurd hv List.not_mem_nil
      · rwa [List.mem_singleton.mp hd] at hv

/-- The references of a call join those collected before. -/
theorem Collected.step {values : ClifType → List Value} {op : Opcode} {sel : Selection}
    {s' : State Locals} (h : Collected values s₀ s) (hsel : Selected values op s.func sel s'.func)
    (hdefs : s'.locals.blockDefValues = s.locals.blockDefValues)
    (hrefs : ∀ tv, tv ∈ s'.locals.refValues ↔ tv ∈ s.locals.refValues ∨
      tv ∈ Selection.refs sel) : Collected values s₀ s' := by
  obtain ⟨datas, hext, hold⟩ := h.exists_ext
  obtain ⟨datas', hext', hnew⟩ := hsel.collects
  refine ⟨hdefs.trans h.defs, datas ++ datas', hext.trans hext', fun hsingle => ?_⟩
  rw [List.forall_mem_append] at hsingle
  obtain ⟨hvalues, hcands⟩ := hold hsingle.1
  obtain ⟨hvalues', hcands'⟩ := hnew hsingle.2
  refine ⟨fun v => ?_, fun tv htv => ?_⟩
  · have hsplit : v ∈ s'.locals.refValues.map TypedValue.value ↔
        v ∈ s.locals.refValues.map TypedValue.value ∨
          v ∈ (Selection.refs sel).map TypedValue.value := by
      simp only [List.mem_map, hrefs, or_and_right, exists_or]
    rw [hsplit, hvalues, hvalues']
    simp only [List.mem_append, or_and_right, exists_or]
  · rcases (hrefs tv).mp htv with htv | htv
    · exact hcands tv htv
    · exact hcands' tv htv

theorem ensures_insertRefs (tvs : List TypedValue) :
    Ensures (fun _ _ => True) (insertRefs tvs) s fun _ s' => s'.func = s.func ∧
      s'.locals.blockDefValues = s.locals.blockDefValues ∧
      ∀ tv, tv ∈ s'.locals.refValues ↔ tv ∈ s.locals.refValues ∨ tv ∈ tvs := by
  unfold insertRefs
  refine ensures_bind_locals ?_
  exact ensures_setLocals ⟨rfl, rfl, fun tv => ListEdit.mem_foldl_insert⟩

theorem ensures_insertDef (tv : TypedValue) :
    Ensures (fun _ _ => True) (insertDef tv) s fun _ s' => s'.func = s.func ∧
      s'.locals.blockDefValues = s.locals.blockDefValues ∧
      s'.locals.refValues = s.locals.refValues := by
  unfold insertDef
  refine ensures_bind_locals ?_
  exact ensures_setLocals ⟨rfl, rfl, rfl⟩

/-- The references of a call are recorded. -/
theorem ensures_insertSelection {sel : Selection} :
    Ensures (fun _ _ => True) (match sel with
      | none => return ()
      | some (newValue, refValues) => do
          if let some values := refValues then insertRefs values
          if let some tv := newValue then insertDef tv : M Locals Unit) s fun _ s' =>
      s'.func = s.func ∧ s'.locals.blockDefValues = s.locals.blockDefValues ∧
      ∀ tv, tv ∈ s'.locals.refValues ↔ tv ∈ s.locals.refValues ∨ tv ∈ Selection.refs sel := by
  match sel with
  | none | some (none, none) => exact Ensures.pure ⟨rfl, rfl, fun tv => by simp [Selection.refs]⟩
  | some (some tv, none) =>
      refine (ensures_insertDef tv).mono ?_
      rintro - s' ⟨hfunc, hdefs, hrefs⟩
      exact ⟨hfunc, hdefs, fun tv => by simp [hrefs, Selection.refs]⟩
  | some (none, some tvs) =>
      exact Ensures.bind (ensures_insertRefs tvs) fun _ s' h => Ensures.pure h
  | some (some tv, some tvs) =>
      refine Ensures.bind (ensures_insertRefs tvs) ?_
      rintro - s₁ ⟨hfunc, hdefs, hrefs⟩
      refine (ensures_insertDef tv).mono ?_
      rintro - s' ⟨hfunc', hdefs', hrefs'⟩
      exact ⟨hfunc'.trans hfunc, hdefs'.trans hdefs, fun tv => by rw [hrefs']; exact hrefs tv⟩

/-- One round of the loop over a snippet. -/
theorem Collected.populateOnce_spec
    (h : Collected (getDominatorValuesWithType dominatorBlocks s₀.locals.blockDefValues) s₀ s) :
    Ensures (fun _ _ => True) (populateOnce dominatorBlocks config) s fun _ =>
      Collected (getDominatorValuesWithType dominatorBlocks s₀.locals.blockDefValues) s₀ := by
  unfold populateOnce
  refine ensures_bind_locals ?_
  rw [h.defs]
  refine Ensures.bind (populateBlockInstructions_returned s _ _ config) ?_
  rintro sel s₁ ⟨op, hsel, hlocals⟩
  refine ensures_insertSelection.mono ?_
  rintro - s' ⟨hfunc, hdefs, hrefs⟩
  rw [hlocals] at hdefs hrefs
  exact h.step (hfunc ▸ hsel) hdefs hrefs

/-- **What a block refers to is what its instructions use**, unless one of them is on a single
candidate. -/
theorem ensures_populateNode (node : Block) (hstart : s.locals.refValues = []) :
    Ensures (fun _ _ => True) (populateNode config dominatorBlocks node) s fun _ s' =>
      ∃ refs, s'.locals.blockRefValues.lookup node = some refs ∧
        ((∀ d ∈ s.func.added s'.func, ¬ OnSingle
            (getDominatorValuesWithType dominatorBlocks s.locals.blockDefValues) d) →
          (∀ v, v ∈ refs.map TypedValue.value ↔
            ∃ d ∈ s.func.added s'.func, v ∈ d.valueOperands) ∧
          ∀ tv ∈ refs, tv.value ∈
            getDominatorValuesWithType dominatorBlocks s.locals.blockDefValues tv.ty) := by
  set values := getDominatorValuesWithType dominatorBlocks s.locals.blockDefValues with hvalues
  have hinit : Collected values s s := ⟨rfl, [], .refl, fun _ => by simp [hstart]⟩
  -- twenty instructions; what they use is collected from the empty list on
  have hloop : Ensures (fun _ _ => True)
      ((List.range 20).forM fun _ => populateOnce dominatorBlocks config) s
      fun _ => Collected values s :=
    Ensures.forM (P := fun _ => Collected values s) hinit fun _ _ s₁ h => h.populateOnce_spec
  refine Ensures.bind hloop fun _ s₁ h₁ => ?_
  unfold publishDefs publishRefs
  refine Ensures.bind (P := fun _ s₂ => s₂.func = s₁.func ∧
    s₂.locals.refValues = s₁.locals.refValues) ?_ ?_
  · refine ensures_bind_locals ?_
    exact ensures_setLocals ⟨rfl, rfl⟩
  · rintro - s₂ ⟨hfunc, hrefs⟩
    refine ensures_bind_locals ?_
    obtain ⟨datas, hext, hcollected⟩ := h₁.exists_ext
    refine ensures_setLocals ⟨s₂.locals.refValues, AList.lookup_insert _, ?_⟩
    rw [hrefs, hfunc, hext.added]
    exact hcollected

end Block

/-- **The references of a call are its operands** that are not addresses, each with the type it was
selected under, unless an arm refers to the new value instead of a single candidate. What is
collected over the calls of a block in which this does not happen is what its instructions use. -/
theorem populateBlockInstructions_references (dominatorBlocks : List Block) (config : ArchConfig) :
    (∀ (δ : Type) (blockDominatorValues : ValueMap) (w w' : World (State δ))
        (new : Option TypedValue) (refs : List TypedValue),
      populateBlockInstructions dominatorBlocks blockDominatorValues config w =
          .ok (some (new, some refs)) w' →
        ∃ data, (w.mem.func.added w'.mem.func).getLast? = some data ∧
          (∀ v ∈ data.arguments,
            v ∈ data.valueOperands ∨ w.mem.func.NewAddress w'.mem.func v) ∧
          (Uses (getDominatorValuesWithType dominatorBlocks blockDominatorValues) data refs ↔
            ¬ DrawsSingle (getDominatorValuesWithType dominatorBlocks blockDominatorValues)
              config w)) ∧
      ∀ (node : Block) (w w' : World (State Locals)), w.mem.locals.refValues = [] →
        populateNode config dominatorBlocks node w = .ok () w' →
          ∃ refs, w'.mem.locals.blockRefValues.lookup node = some refs ∧
            ((∀ d ∈ w.mem.func.added w'.mem.func, ¬ OnSingle (getDominatorValuesWithType
                dominatorBlocks w.mem.locals.blockDefValues) d) →
              (∀ v, v ∈ refs.map TypedValue.value ↔
                ∃ d ∈ w.mem.func.added w'.mem.func, v ∈ d.valueOperands) ∧
              ∀ tv ∈ refs, tv.value ∈ getDominatorValuesWithType dominatorBlocks
                w.mem.locals.blockDefValues tv.ty) := by
  refine ⟨fun δ blockDominatorValues w w' new refs hrun => ?_, fun node w w' hstart hrun => ?_⟩
  · exact uses_iff_of_run hrun
  · exact (ensures_populateNode node hstart).of_ok hrun

theorem oneParamEnd_umax : returnsWith
    (populateBlockInstructions [0] oneParamPool (oneConfig .umax)) (oneParamEnd [23, 0, 0])
    (fun sel w' => sel = some (some ⟨1, .i32⟩, some [⟨1, .i32⟩]) ∧
      oneParam.added w'.mem.func = [.fixed .umax [0, 0]]) = true := by
  decide +kernel

theorem populateBlockInstructions_references_umax :
    ∃ w', populateBlockInstructions [0] oneParamPool (oneConfig .umax) (oneParamEnd [23, 0, 0]) =
        .ok (some (some ⟨1, .i32⟩, some [⟨1, .i32⟩])) w' ∧
      oneParam.added w'.mem.func = [.fixed .umax [0, 0]] ∧
      ¬ Uses (getDominatorValuesWithType [0] oneParamPool) (.fixed .umax [0, 0])
        [⟨1, .i32⟩] := by
  obtain ⟨sel, w', hrun, hcheck⟩ := exists_of_returnsWith oneParamEnd_umax
  obtain ⟨rfl, hadded⟩ := of_decide_eq_true hcheck
  refine ⟨w', hrun, hadded, fun h => ?_⟩
  exact absurd ((h.operands 0).mpr (by decide)) (by decide)

/-- The block of one parameter, which is to be filled. -/
def oneParamFill (draws : List ℕ) : World (State Locals) :=
  ⟨draws, ⟨oneParam, .after 0, { blockDefValues := oneParamPool }⟩⟩

theorem oneParamFill_iadd : returnsWith (populateNode addConfig [0] 0)
    (oneParamFill ([79, 0, 0] ++ List.replicate 19 0))
    (fun _ w' => oneParam.added w'.mem.func = [.fixed .iadd [0, 0]]) = true := by
  decide +kernel

theorem populateBlockInstructions_references_iadd :
    (∃ w' refs, populateBlockInstructions [0] oneParamPool (oneConfig .iadd)
        (oneParamEnd [79, 0, 0]) = .ok (some (some ⟨1, .i32⟩, some refs)) w' ∧
      Uses (getDominatorValuesWithType [0] oneParamPool) (.fixed .iadd [0, 0]) refs) ∧
    ∃ w' refs, populateNode addConfig [0] 0
        (oneParamFill ([79, 0, 0] ++ List.replicate 19 0)) = .ok () w' ∧
      w'.mem.locals.blockRefValues.lookup 0 = some refs ∧
      ∀ v, v ∈ refs.map TypedValue.value ↔
        ∃ d ∈ oneParam.added w'.mem.func, v ∈ d.valueOperands := by
  constructor
  · have hreturns : returnsWith (populateBlockInstructions [0] oneParamPool (oneConfig .iadd))
        (oneParamEnd [79, 0, 0]) (fun sel w' => sel = some (some ⟨1, .i32⟩, some [⟨0, .i32⟩]) ∧
          oneParam.added w'.mem.func = [.fixed .iadd [0, 0]]) = true := by
      decide +kernel
    obtain ⟨sel, w', hrun, hcheck⟩ := exists_of_returnsWith hreturns
    obtain ⟨rfl, hadded⟩ := of_decide_eq_true hcheck
    obtain ⟨data, hlast, -, huses⟩ :=
      (populateBlockInstructions_references [0] (oneConfig .iadd)).1 Unit oneParamPool _ w' _ _ hrun
    obtain rfl : InstructionData.fixed .iadd [0, 0] = data := by
      rw [show (oneParamEnd [79, 0, 0]).mem.func = oneParam from rfl, hadded] at hlast
      exact Option.some.inj hlast
    refine ⟨w', _, hrun, huses.mpr ?_⟩
    rintro ⟨op, w₁, t, w₂, v, hdraw, -, hop, -⟩
    obtain ⟨w₃, hdraw'⟩ : ∃ w₃, instrMutation (oneParamEnd [79, 0, 0]) = .ok .iadd w₃ :=
      exists_instrMutation (by decide +kernel)
    obtain ⟨rfl, -⟩ := EStateM.Result.ok.inj (hdraw.symm.trans hdraw')
    cases hop
  · obtain ⟨_, w', hrun, hcheck⟩ := exists_of_returnsWith oneParamFill_iadd
    have hadded := of_decide_eq_true hcheck
    obtain ⟨refs, hlookup, huses⟩ :=
      (populateBlockInstructions_references [0] addConfig).2 0 _ w' rfl hrun
    refine ⟨w', refs, hrun, hlookup, (huses fun d hd hsingle => ?_).1⟩
    rw [show (oneParamFill _).mem.func = oneParam from rfl, hadded] at hd
    obtain rfl := List.mem_singleton.mp hd
    cases hsingle.1

end Clir
