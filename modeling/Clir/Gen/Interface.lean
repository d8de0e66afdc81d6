import Clir.Gen.References
import Clir.Gen.Safety

set_option autoImplicit false

/-! # The interface of a finished function

The entry block gets the parameters of the signature at the start of the first pass, and nothing
later touches them: conditions are put into other blocks, and a join block has two predecessors
while the entry block has none. The exit block gets the return at the end, by the signature that
the function has then.
-/

namespace Clir

open Cmd Cursor Graph Relation

/-! ## The parameters of a block -/

/-- The parameters of block `b` are made, and of the given types, in order. -/
structure HasParams (b : Block) (tys : List ClifType) (f : Function) : Prop where
  types : (f.blockParams b).map f.valueType = tys
  made : ∀ p ∈ f.blockParams b, p < f.dfg.values.len

namespace HasParams

variable {b c : Block} {tys : List ClifType} {f g : Function}

/-- An edit that leaves the parameters and the types of the values alone. -/
theorem edited (h : HasParams b tys f) (hparams : g.blockParams b = f.blockParams b)
    (hlen : f.dfg.values.len ≤ g.dfg.values.len)
    (htypes : ∀ v < f.dfg.values.len, g.valueType v = f.valueType v) : HasParams b tys g where
  types := by
    rw [hparams, List.map_congr_left fun p hp => htypes p (h.made p hp)]
    exact h.types
  made p hp := by
    rw [hparams] at hp
    exact (h.made p hp).trans_le hlen

theorem keeps {n : ℕ} (h : HasParams b tys f) (hkeeps : Keeps n f g)
    (hparams : g.blockParams b = f.blockParams b) : HasParams b tys g :=
  h.edited hparams hkeeps.values_len hkeeps.types

theorem emitted {before after : List Inst} {data : InstructionData} {results : List ClifType}
    (h : HasParams b tys f) (he : Emitted f g c before after data results) :
    HasParams b tys g :=
  h.edited (he.blockParams b) (he.values_len ▸ Nat.le_add_right _ _)
    fun _ hv => congrArg ValueData.ty (he.values_old hv)

theorem extended {datas : List InstructionData} (h : HasParams b tys f)
    (hext : Extends f datas g) : HasParams b tys g := by
  induction hext with
  | refl => exact h
  | snoc _ he ih => exact ih.emitted he

theorem append (h : HasParams b tys f) (ty : ClifType) :
    HasParams b (tys ++ [ty]) (f.appendBlockParam b ty) where
  types := by
    have hkeeps := f.keeps_appendBlockParam 0 b ty
    rw [Function.appendBlockParam_blockParams_self, List.map_append,
      List.map_congr_left fun p hp => hkeeps.types p (h.made p hp), h.types, List.map_singleton,
      Function.valueType, Function.appendBlockParam_value_new]
  made p hp := by
    rw [Function.appendBlockParam_blockParams_self] at hp
    rcases List.mem_append.mp hp with hp | hp
    · exact Nat.lt_succ_of_lt (h.made p hp)
    · rw [List.mem_singleton.mp hp]
      exact Nat.lt_succ_self _

theorem append_of_ne (h : HasParams b tys f) (hne : b ≠ c) (ty : ClifType) :
    HasParams b tys (f.appendBlockParam c ty) :=
  h.keeps (f.keeps_appendBlockParam 0 c ty) (f.appendBlockParam_blockParams_of_ne ty hne)

end HasParams

/-! ## Commands that leave the parameters of a block alone -/

/-- The command leaves the parameters of block `b` as they are. -/
abbrev KeepsParams {δ α : Type} (b : Block) (tys : List ClifType) (x : M δ α) : Prop :=
  Preserves (fun s => HasParams b tys s.func) x

section Commands

variable {δ α : Type} {b c : Block} {tys : List ClifType}

theorem keepsParams_func {k : Function → M δ α}
    (h : ∀ f, HasParams b tys f → KeepsParams b tys (k f)) : KeepsParams b tys (func >>= k) :=
  fun s hs => Ensures.bind (ensures_func (Q := fun f s' => f = s.func ∧ s' = s) ⟨rfl, rfl⟩) <| by
    rintro _ _ ⟨rfl, rfl⟩
    exact h _ hs _ hs

theorem keepsParams_setFunc {f : Function} (h : HasParams b tys f) :
    KeepsParams b tys (setFunc f : M δ Unit) := fun _ _ => ensures_setFunc h

theorem keepsParams_position : KeepsParams b tys (position : M δ CursorPosition) :=
  fun _ hs => ensures_position hs

theorem keepsParams_setPosition (p : CursorPosition) :
    KeepsParams b tys (setPosition p : M δ Unit) := fun _ hs => ensures_setPosition hs

theorem keepsParams_locals : KeepsParams b tys (locals : M δ δ) := fun _ hs => ensures_locals hs

theorem keepsParams_setLocals (x : δ) : KeepsParams b tys (setLocals x : M δ Unit) :=
  fun _ hs => ensures_setLocals hs

theorem keepsParams_gotoInst (i : Inst) : KeepsParams b tys (gotoInst i : M δ Unit) :=
  keepsParams_func fun _ _ => .ite (keepsParams_setPosition _) (.panicWith _)

theorem keepsParams_gotoBottom (c : Block) : KeepsParams b tys (gotoBottom c : M δ Unit) :=
  keepsParams_func fun _ _ => .ite (keepsParams_setPosition _) (.panicWith _)

theorem keepsParams_gotoFirstInsertionPoint (c : Block) :
    KeepsParams b tys (gotoFirstInsertionPoint c : M δ Unit) := by
  refine keepsParams_func fun f _ => ?_
  split
  · exact keepsParams_gotoInst _
  · exact keepsParams_gotoBottom c

theorem keepsParams_gotoFirstInst (c : Block) : KeepsParams b tys (gotoFirstInst c : M δ Unit) := by
  refine keepsParams_func fun f _ => ?_
  split
  · exact keepsParams_gotoInst _
  · exact .panicWith _

theorem keepsParams_gotoLastInst (c : Block) : KeepsParams b tys (gotoLastInst c : M δ Unit) := by
  refine keepsParams_func fun f _ => ?_
  split
  · exact keepsParams_gotoInst _
  · exact .panicWith _

theorem keepsParams_currentInst : KeepsParams b tys (currentInst : M δ Inst) := by
  refine keepsParams_position.bind fun p => ?_
  cases p with
  | at_ i => exact .pure i
  | _ => exact .panicWith _

theorem keepsParams_nextInst : KeepsParams b tys (nextInst : M δ (Option Inst)) := by
  have hgoto : ∀ (p : CursorPosition) (o : Option Inst), KeepsParams b tys
      (setPosition p >>= fun _ => pure o : M δ (Option Inst)) :=
    fun p o => (keepsParams_setPosition p).bind fun _ => .pure o
  refine keepsParams_func fun f _ => keepsParams_position.bind fun p => ?_
  cases p with
  | nowhere | after => exact .pure none
  | at_ i =>
      cases hi : f.layout.instBlock i with
      | none =>
          simp only [hi]
          exact .panicWith _
      | some c =>
          simp only [hi]
          split
          · exact hgoto _ _
          · exact hgoto _ _
  | before c =>
      dsimp only
      split
      · exact hgoto _ _
      · exact hgoto _ _

/-! ### Emission -/

theorem keepsParams_ins (data : InstructionData) : KeepsParams b tys (ins data : M δ Inst) := by
  intro s hs
  refine (ensures_ins data).mono ?_
  rintro i s' ⟨-, ⟨_, _, _, _, he⟩, -⟩
  exact hs.emitted he

theorem keepsParams_emitAt (ctrl : Option ClifType) (data : InstructionData) :
    KeepsParams b tys (emitAt ctrl data : M δ Value) := by
  intro s hs
  refine (ensures_emitAt ctrl data).mono ?_
  rintro v s' ⟨⟨_, _, _, _, he⟩, -⟩
  exact hs.emitted he

theorem keepsParams_createSizedStackSlot (size : ℕ) :
    KeepsParams b tys (createSizedStackSlot size : M δ StackSlot) :=
  keepsParams_func fun f hf => (keepsParams_setFunc
    (hf.edited (g := f.createSizedStackSlot size) rfl le_rfl fun _ _ => rfl)).bind fun _ => .pure _

theorem keepsParams_genConstant (o : OperandType) :
    KeepsParams b tys (genConstant o.toCraneliftType : M δ Value) :=
  preserves_genConstant (fun ctrl => keepsParams_emitAt (some ctrl)) (keepsParams_emitAt none) o

end Commands

/-! ## The first pass -/

section Fill

variable {b c : Block} {tys params : List ClifType} {config : ArchConfig} {s : State Locals}
  {dominators : BlockMap (List Block)}

theorem keepsParams_insertDef (tv : TypedValue) : KeepsParams b tys (insertDef tv) :=
  keepsParams_locals.bind fun _ => keepsParams_setLocals _

theorem keepsParams_insertRefs (tvs : List TypedValue) : KeepsParams b tys (insertRefs tvs) :=
  keepsParams_locals.bind fun _ => keepsParams_setLocals _

theorem keepsParams_publishDefs (c : Block) : KeepsParams b tys (publishDefs c) :=
  keepsParams_locals.bind fun _ => keepsParams_setLocals _

theorem keepsParams_publishRefs (c : Block) : KeepsParams b tys (publishRefs c) :=
  keepsParams_locals.bind fun _ => keepsParams_setLocals _

theorem keepsParams_populateOnce (dominatorBlocks : List Block) :
    KeepsParams b tys (populateOnce dominatorBlocks config) := by
  refine keepsParams_locals.bind fun L => Preserves.bind ?_ fun sel => ?_
  · intro s hs
    refine (populateBlockInstructions_returned s dominatorBlocks L.blockDefValues config).mono ?_
    rintro sel s' ⟨op, hreturned⟩
    obtain ⟨datas, hext⟩ := hreturned.1.extends
    exact hs.extended hext
  · match sel with
    | none => exact .pure ()
    | some (none, none) => exact .pure ()
    | some (some tv, none) => exact keepsParams_insertDef tv
    | some (none, some refs) => exact (keepsParams_insertRefs refs).bind fun _ => .pure ()
    | some (some tv, some refs) =>
        exact (keepsParams_insertRefs refs).bind fun _ => keepsParams_insertDef tv

theorem keepsParams_populateNode (dominatorBlocks : List Block) (c : Block) :
    KeepsParams b tys (populateNode config dominatorBlocks c) :=
  (Preserves.forM (fun _ => keepsParams_populateOnce dominatorBlocks) _).bind fun _ =>
    (keepsParams_publishDefs c).bind fun _ => keepsParams_publishRefs c

/-- The visit of a block behind its start. -/
theorem keepsParams_visit (dominatorBlocks : List Block) (c : Block) :
    KeepsParams b tys (do
      let _ ← genRange 0 5
      populateNode config dominatorBlocks c
      if ((← func).layout.lastInst c).isNone then
        let _ ← ins (.fixed .nop [])) :=
  (Preserves.genRange 0 5).bind fun _ => (keepsParams_populateNode dominatorBlocks c).bind fun _ =>
    keepsParams_func fun _ _ => .ite ((keepsParams_ins _).bind fun _ => .pure _) (.pure _)

/-- Only the first visit gives parameters to a block. -/
theorem keepsParams_enterBlock (c : Block) :
    KeepsParams b tys (enterBlock config params dominators false c) :=
  (keepsParams_gotoFirstInsertionPoint c).bind fun _ => keepsParams_locals.bind fun _ =>
    (keepsParams_setLocals _).bind fun _ => keepsParams_visit _ c

/-- The entry block gets its parameters one by one. -/
theorem hasParams_seedParams (operandTypes : List OperandType) (h : HasParams b tys s.func) :
    Ensures (fun _ _ => True) (seedParams b params operandTypes) s fun _ s' =>
      HasParams b (tys ++ params) s'.func := by
  induction params generalizing tys operandTypes s with
  | nil =>
      rw [List.append_nil]
      exact Ensures.pure h
  | cons ty rest ih =>
      unfold seedParams Cursor.appendBlockParam
      simp only [bind_assoc, pure_bind]
      refine ensures_bind_func ?_
      refine Ensures.bind (ensures_setFunc (Q := fun _ s' => HasParams b (tys ++ [ty]) s'.func)
        (h.append ty)) fun _ s₁ h₁ => ?_
      refine Ensures.bind (keepsParams_insertDef _ s₁ h₁) fun _ s₂ h₂ => ?_
      rw [List.append_cons]
      exact ih _ h₂

theorem hasParams_seedEntry (h : HasParams b [] s.func) :
    Ensures (fun _ _ => True) (seedEntry b params config) s fun _ s' =>
      HasParams b params s'.func := by
  refine Ensures.bind (hasParams_seedParams config.operandTypes h) fun operandTypes s₁ h₁ => ?_
  refine ((keepsParams_createSizedStackSlot 32).bind fun ss0 =>
    (keepsParams_createSizedStackSlot 32).bind fun ss1 => ?_ : KeepsParams b params _) s₁ h₁
  refine (Preserves.forM (fun o => (keepsParams_genConstant o).bind fun _ =>
    keepsParams_insertDef _) _).bind fun _ => ?_
  refine (keepsParams_emitAt (some .i64) _).bind fun ss0Addr =>
    (keepsParams_emitAt (some .i64) _).bind fun ss1Addr => ?_
  refine keepsParams_locals.bind fun L => (Preserves.choose _).bind fun o =>
    (Preserves.unwrap o).bind fun i64Value => ?_
  exact (Preserves.forM (fun i => (keepsParams_ins _).bind fun _ => (keepsParams_ins _).bind
    fun _ => .pure _) _).bind fun _ => keepsParams_publishDefs b

theorem hasParams_enterFirst (h : HasParams b [] s.func) :
    Ensures (fun _ _ => True) (enterBlock config params dominators true b) s fun _ s' =>
      HasParams b params s'.func := by
  have hreset : ∀ x : Locals, KeepsParams b [] (setLocals x) := keepsParams_setLocals
  refine Ensures.bind (keepsParams_gotoFirstInsertionPoint b s h) fun _ s₁ h₁ => ?_
  refine Ensures.bind (keepsParams_locals s₁ h₁) fun L s₂ h₂ => ?_
  refine Ensures.bind (hreset _ s₂ h₂) fun _ s₃ h₃ => ?_
  refine Ensures.bind (hasParams_seedEntry h₃) fun _ s₄ h₄ => ?_
  exact keepsParams_visit _ b s₄ h₄

end Fill

/-! ## The second pass -/

section Join

variable {b c : Block} {tys : List ClifType} {dominators : BlockMap (List Block)}

theorem keepsParams_chooseMultiple {α : Type} (n : ℕ) (l : List α) :
    KeepsParams b tys (chooseMultiple n l : M Locals (List α)) :=
  .of_mem_eq fun _ => ensures_chooseMultiple trivial n l

theorem keepsParams_selectArgs (pre : Block) (types : List ClifType) :
    KeepsParams b tys (selectArgs dominators pre types) := by
  refine Preserves.mapM (fun ty => Preserves.bind ?_ fun l => ?_) types
  · exact keepsParams_locals.bind fun _ => .pure _
  · exact .of_mem_eq fun _ => ensures_select l

theorem keepsParams_addJoinParam (hne : b ≠ c) (ty : ClifType) :
    KeepsParams b tys (addJoinParam c ty) := by
  refine Preserves.bind ?_ fun v => keepsParams_locals.bind fun L =>
    (Preserves.unwrap _).bind fun tvs => (keepsParams_setLocals _).bind fun _ => .pure v
  exact keepsParams_func fun _ hf => (keepsParams_setFunc (hf.append_of_ne hne ty)).bind
    fun _ => .pure _

theorem keepsParams_replaceInst (i : Inst) (data : InstructionData) :
    KeepsParams b tys (func >>= fun f => setFunc (f.replaceInst i data) : M Locals Unit) :=
  keepsParams_func fun f hf => keepsParams_setFunc
    (hf.edited (g := f.replaceInst i data) rfl le_rfl fun _ _ => rfl)

theorem keepsParams_passToEntry {args : M Locals (List Value)} (hargs : KeepsParams b tys args)
    (sofar : List Value) (call : BlockCall) : KeepsParams b tys (passToEntry c args sofar call) :=
  .ite (hargs.bind fun _ => .pure _) (.pure _)

theorem keepsParams_passToEntries {args : M Locals (List Value)} (hargs : KeepsParams b tys args)
    (sofar : List Value) (calls : List BlockCall) :
    KeepsParams b tys (passToEntries c args sofar calls) := by
  induction calls generalizing sofar with
  | nil => exact .pure _
  | cons call rest ih =>
      exact (keepsParams_passToEntry hargs sofar call).bind fun r => (ih r.2).bind fun _ => .pure _

theorem keepsParams_passArgs (types : List ClifType) (pre : Block) :
    KeepsParams b tys (passArgs dominators c types pre) := by
  have hargs : KeepsParams b tys (selectArgs dominators pre types) := keepsParams_selectArgs _ _
  refine (keepsParams_gotoLastInst pre).bind fun _ => keepsParams_currentInst.bind fun i =>
    keepsParams_func fun f _ => ?_
  cases f.instData i with
  | jump destination => exact hargs.bind fun _ => keepsParams_replaceInst i _
  | brif arg blockThen blockElse =>
      exact hargs.bind fun _ => .ite (keepsParams_replaceInst i _) (keepsParams_replaceInst i _)
  | branchTable arg k =>
      refine keepsParams_func fun _ _ => (keepsParams_passToEntry hargs _ _).bind fun r =>
        (keepsParams_passToEntries hargs _ _).bind fun entries => keepsParams_func fun g hg => ?_
      exact keepsParams_setFunc
        (hg.edited (g := g.setJumpTable k ⟨r.1, entries⟩) rfl le_rfl fun _ _ => rfl)
  | _ => exact .panicWith _

theorem keepsParams_appendJoinParams (hne : b ≠ c) (preBlocks : List Block) :
    KeepsParams b tys (appendJoinParams dominators c preBlocks) := by
  refine Preserves.bind ?_ fun types => (keepsParams_chooseMultiple _ types).bind fun chosen =>
    (Preserves.mapM (fun ty => keepsParams_addJoinParam hne ty) chosen).bind fun values =>
      (Preserves.forM (fun pre => keepsParams_passArgs chosen pre) preBlocks).bind fun _ => .pure _
  exact keepsParams_locals.bind fun _ => .unwrap _

theorem keepsParams_rewriteArg (limit : ℕ) (typeOf : Value → ClifType)
    (candidates : List (ClifType × Value)) (arg : Value) :
    KeepsParams b tys (rewriteArg limit typeOf candidates arg : M Locals Value) := by
  induction candidates generalizing arg with
  | nil => exact .pure arg
  | cons candidate rest ih =>
      exact .ite ((Preserves.genRange 0 10).bind fun _ => .ite (ih _) (ih _)) (ih _)

theorem keepsParams_rewriteInst (candidates : List (ClifType × Value)) (i : Inst) :
    KeepsParams b tys (rewriteInst candidates i : M Locals Unit) := by
  refine keepsParams_func fun f hf => .ite (.pure _) ?_
  refine (Preserves.mapM (fun arg => keepsParams_rewriteArg _ _ _ _) _).bind fun args =>
    .ite (.pure _) (keepsParams_setFunc ?_)
  exact hf.edited rfl le_rfl fun _ _ => rfl

theorem keepsParams_substitute (candidates : List (ClifType × Value)) (c : Block) :
    KeepsParams b tys (substitute candidates c) := by
  have hloop : ∀ n, KeepsParams b tys (rewriteInsts candidates n : M Locals Unit) := by
    intro n
    induction n with
    | zero => exact .pure _
    | succ n ih =>
        refine keepsParams_nextInst.bind fun o => ?_
        cases o with
        | none => exact .pure _
        | some i => exact (keepsParams_rewriteInst candidates i).bind fun _ => ih
  exact (keepsParams_gotoFirstInst c).bind fun _ => keepsParams_func fun _ _ => hloop _

end Join

/-! ## The two passes -/

section Passes

variable {S : Setting} {s : State Locals} {joined : List Block} {v : Block}

theorem Setting.entry_hasParams : HasParams S.entry [] S.start := by
  have hnil : S.start.blockParams S.entry = [] := by
    rcases S.skeleton.condParam S.entry Setting.entry_mem with hnil | ⟨_, t, -, -, -, ht, hkind⟩
    · exact hnil
    · -- the entry block ends in a jump, which has no condition
      obtain ⟨d, hd⟩ := S.skeleton.entry_jump
      rw [hd, Option.some.injEq] at ht
      exact absurd (ht ▸ rfl) hkind
  refine ⟨by rw [hnil]; rfl, fun p hp => ?_⟩
  rw [hnil] at hp
  exact absurd hp List.not_mem_nil

theorem Filled.fillPass_hasParams (h : Filled S [] s) (hfunc : s.func = S.start) :
    Ensures (Stop S) (S.order.zipIdx.forM fun (node, i) =>
      fillBlock S.config S.start.signature.params S.dominators (i = 0) node) s
      fun _ s' => (∃ done, Filled S done s' ∧ ∀ b ∈ S.start.layout.blocks, b ∈ done) ∧
        HasParams S.entry S.start.signature.params s'.func := by
  have hstart : HasParams S.entry [] s.func := hfunc ▸ Setting.entry_hasParams
  refine S.fillPass_rule (R := fun s' => HasParams S.entry S.start.signature.params s'.func) ?_
    fun h' hR hb hnew hentry => ?_
  · exact ensures_fillBlock (fun _ _ hR hkeeps hparams => hR.keeps hkeeps hparams)
      (h.enterFirst_spec.and (hasParams_enterFirst hstart)) List.not_mem_nil
  · exact ensures_fillBlock (fun _ _ hR hkeeps hparams => hR.keeps hkeeps hparams)
      ((h'.enterNext_spec hb hnew hentry).and (keepsParams_enterBlock _ _ hR)) hnew

/-- A join block is not the entry block. -/
theorem Joined.joinBlock_hasParams {tys : List ClifType}
    (h : Joined S joined (fun _ _ => False) s.func s.locals) (hs : HasParams S.entry tys s.func) :
    Ensures (fun _ _ => True) (joinBlock S.dominators v) s fun _ s' =>
      HasParams S.entry tys s'.func := by
  unfold joinBlock
  refine ensures_bind_func ?_
  simp only [h.predBlocks_eq]
  refine Ensures.ite (fun hpreds => ?_) fun _ => Ensures.pure hs
  have hne : S.entry ≠ v := (S.ne_entry_of_preds hpreds).symm
  exact ((keepsParams_appendJoinParams hne _).bind fun candidates =>
    keepsParams_substitute candidates v : KeepsParams S.entry tys _) s hs

theorem keepsParams_finalSignature {b : Block} {tys : List ClifType} (isRootFunc : Bool)
    (sig : Signature) : KeepsParams b tys (finalSignature isRootFunc sig : M Locals Signature) := by
  refine Preserves.ite ((Preserves.genRange 8 10).bind fun n => Preserves.bind ?_ fun mainSig => ?_)
    (.pure sig)
  · exact .of_mem_eq fun _ => ensures_generateRandomSignature trivial
  · exact keepsParams_func fun f hf => (keepsParams_setFunc
      (hf.edited (g := f.withSignature mainSig) rfl le_rfl fun _ _ => rfl)).bind fun _ => .pure _

/-- The generator behind the two passes. -/
theorem keepsParams_finishFrom {b : Block} {tys : List ClifType} (isRootFunc : Bool) :
    KeepsParams b tys (finishFrom isRootFunc S.order.length S.start S.entry) := by
  unfold finishFrom
  rw [show (S.start.dfsOrder S.entry).drop S.order.length = [] from List.drop_length]
  refine (Preserves.pure _).bind fun _ => (keepsParams_finalSignature isRootFunc _).bind fun sig =>
    keepsParams_func fun f _ => (Preserves.unwrap _).bind fun last => .ite ?_ ?_
  · exact (keepsParams_selectArgs _ _).bind fun _ => (keepsParams_gotoBottom _).bind fun _ =>
      (keepsParams_ins _).bind fun _ => keepsParams_locals.bind fun _ => .pure _
  · exact keepsParams_locals.bind fun _ => .pure _

/-- **The parameters of the entry block are those of the signature.** -/
theorem Filled.functionGenerator_hasParams {isRootFunc : Bool} (h : Filled S [] s)
    (hfunc : s.func = S.start) :
    Ensures (Stop S) (functionGenerator isRootFunc S.config) s fun r s' =>
      Generates S isRootFunc r s' ∧ HasParams S.entry S.start.signature.params s'.func := by
  rw [functionGenerator_eq isRootFunc S.config S.order.length]
  refine Ensures.bind (S.passesUpTo_rule
    (R := fun s' => HasParams S.entry S.start.signature.params s'.func) hfunc
    ((h.withPos _).fillPass_hasParams hfunc) (fun h' hR hv hnew => ?_) _) ?_
  · exact ((h'.joinBlock_spec hv hnew).mono fun _ _ => And.left).and (h'.joinBlock_hasParams hR)
  · rintro _ s₁ ⟨rfl, h₁, hR⟩
    exact h₁.finishFrom_spec.and (keepsParams_finishFrom isRootFunc s₁ hR)

end Passes

/-! ## The finished function -/

/-- What a function shows of itself: its blocks end in terminators, the first one has the
parameters of the signature, and the only one without successors returns recorded values of the
types that the signature returns. -/
structure Function.Interface (f : Function) (recorded : ValueMap) (entry exit : Block) : Prop where
  terminated : ∀ b ∈ f.layout.blocks, ∃ before i, f.layout.insts b = before ++ [i] ∧
    (f.instData i).opcode.isTerminator = true ∧
      ∀ j ∈ before, (f.instData j).opcode.isTerminator = false
  head : f.layout.blocks.head? = some entry
  params : (f.blockParams entry).map f.valueType = f.signature.params
  exit_mem : exit ∈ f.layout.blocks
  no_succ : ∀ b ∈ f.layout.blocks, (∀ c, ¬ f.Edge b c) ↔ b = exit
  returns : ∀ b ∈ f.layout.blocks,
    (∃ i, f.layout.lastInst b = some i ∧ (f.instData i).opcode = .return_) ↔ b = exit
  values : ∃ i vs, f.layout.lastInst exit = some i ∧ f.instData i = .multiAry .return_ vs ∧
    List.Forall₂ (fun v t => ∃ d tvs, recorded.lookup d = some tvs ∧ ⟨v, t⟩ ∈ tvs) vs
      f.signature.returns

theorem InstructionData.opcode_ne_return {d : InstructionData} (h : d.isBranch = true) :
    d.opcode ≠ .return_ := by
  cases d with
  | jump | brif | branchTable => exact fun hop => by cases hop
  | _ => cases h

section Finished

variable {S : Setting} {isRootFunc : Bool} {r : BlockMap (List Block) × ValueMap}
  {s : State Locals} {f : Function} {pools : ValueMap} {b : Block}

/-- A terminator at the end of a block is the only one in it. -/
theorem Valid.terminated_once {settled : Block → Prop} (h : Valid S settled f pools) {i : Inst}
    (hi : f.layout.lastInst b = some i) :
    ∃ before, f.layout.insts b = before ++ [i] ∧
      ∀ j ∈ before, (f.instData j).opcode.isTerminator = false := by
  obtain ⟨before, hsplit⟩ := List.getLast?_eq_some_iff.mp hi
  refine ⟨before, hsplit, fun j hj => Bool.eq_false_iff.mpr fun ht => ?_⟩
  obtain ⟨p, q, rfl⟩ := List.append_of_mem hj
  rw [List.append_assoc, List.cons_append] at hsplit
  obtain ⟨hnil, -⟩ := h.ends b p j (q ++ [i]) hsplit ht
  exact List.append_ne_nil_of_right_ne_nil q (List.cons_ne_nil i []) hnil

/-- Of the blocks, only the exit block returns. -/
theorem Generates.returns_iff (h : Generates S isRootFunc r s)
    (hreturns : isRootFunc = true ∨ S.start.signature.returns ≠ [])
    (hb : b ∈ S.start.layout.blocks) :
    (∃ i, s.func.layout.lastInst b = some i ∧ (s.func.instData i).opcode = .return_) ↔
      b = S.exit := by
  refine ⟨fun ⟨i, hi, hop⟩ => by_contra fun hne => ?_, ?_⟩
  · obtain ⟨j, hmem, hj, hold⟩ := h.complete.valid.lastInst_of_ne hb hne
    obtain rfl : i = j := Option.some.inj (hi.symm.trans hj)
    exact InstructionData.opcode_ne_return (S.skeleton.isBranch hmem) (hold.symm.trans hop)
  · rintro rfl
    obtain ⟨i, vs, hi, hdata, -⟩ := h.returned hreturns
    exact ⟨i, hi, by rw [hdata]; rfl⟩

theorem Generates.interface (h : Generates S isRootFunc r s)
    (hreturns : isRootFunc = true ∨ S.start.signature.returns ≠ [])
    (hparams : HasParams S.entry s.func.signature.params s.func) :
    s.func.Interface r.2 S.entry S.exit := by
  have hvalid := h.complete.valid
  have hblocks := hvalid.frame.blocks
  refine ⟨fun b hb => ?_, hblocks ▸ S.skeleton.head, hparams.types, hblocks ▸ Setting.exit_mem,
    fun b hb => ?_, fun b hb => h.returns_iff hreturns (hblocks ▸ hb), ?_⟩
  · obtain ⟨i, hi, hterm⟩ := h.ended hreturns b (hblocks ▸ hb)
    obtain ⟨before, hsplit, hbefore⟩ := hvalid.terminated_once hi
    exact ⟨before, i, hsplit, hterm, hbefore⟩
  · simp only [hvalid.frame.edge_iff]
    refine ⟨fun hnone => by_contra fun hne => ?_, ?_⟩
    · obtain ⟨c, hc⟩ := Setting.exists_edge (hblocks ▸ hb) hne
      exact hnone c hc
    · rintro rfl
      exact S.skeleton.flow.no_succ
  · obtain ⟨i, vs, hi, hdata, hvs⟩ := h.returned hreturns
    refine ⟨i, vs, hi, hdata, hvs.flip.imp fun v t hmem => ?_⟩
    obtain ⟨d, -, tvs, htvs, htv⟩ := mem_getDominatorValuesWithType.mp hmem
    exact ⟨d, tvs, htvs, htv⟩

end Finished

section Runs

variable {maxDepth : ℕ} {name : FuncName} {signature : Signature} {draws : List ℕ}
  {isRootFunc : Bool} {config : ArchConfig} {w : World (State Locals)}
  {r : BlockMap (List Block) × ValueMap}

/-- **A function is built to its signature**, the one it has in the end. The signature it starts
with has been drawn, and some type to return with it unless the function is the root. -/
theorem buildFunction_interface {σ : Type} {w₀ w₀' : World σ} {candidateTypes : List ClifType}
    {typesNum : ℕ} (hne : candidateTypes ≠ []) (hnum : isRootFunc = true ∨ 1 ≤ typesNum)
    (hsig : generateRandomSignature candidateTypes typesNum isRootFunc w₀ = .ok signature w₀')
    (hbuild : buildFunction maxDepth isRootFunc config (buildStart name signature draws) =
      .ok r w) :
    ∃ entry exit, w.mem.func.Interface r.2 entry exit := by
  obtain ⟨w₁, hc, hgen⟩ := buildFunction_eq_ok hbuild
  obtain ⟨-, -, -, hlen, hroot⟩ := (ensures_generateRandomSignature
    (I := fun _ _ => True) trivial).of_ok hsig
  obtain ⟨h, hparams⟩ := ((hc.filled config).functionGenerator_hasParams rfl).of_ok hgen
  refine ⟨0, 1, h.interface (hnum.imp_right fun hone hnil => ?_) ?_⟩
  · -- a type to return was asked for, and there is one
    have hpos : 0 < candidateTypes.length := List.length_pos_of_ne_nil hne
    rw [show (hc.setting config).start.signature = signature from hc.signature_eq] at hnil
    rw [hnil, List.length_nil] at hlen
    omega
  · have hstart : (hc.setting config).start.signature = signature := hc.signature_eq
    rw [hstart] at hparams
    cases isRootFunc with
    | false =>
        rw [h.signature rfl, hstart]
        exact hparams
    | true =>
        rw [h.rootParams rfl]
        rwa [hroot rfl] at hparams

/-- Without a type to return there is no return, and the last block does not end. -/
theorem buildFunction_interface_no_types :
    ([.i32] : List ClifType) ≠ [] ∧
    generateRandomSignature [.i32] 0 false (⟨[], ()⟩ : World Unit) = .ok ⟨[], []⟩ ⟨[], ()⟩ ∧
    ∃ (w : World (State Locals)) (r : BlockMap (List Block) × ValueMap),
      buildFunction 0 false addConfig (buildStart (.user 1 0) ⟨[], []⟩ ifDraws) = .ok r w ∧
      (∃ b ∈ w.mem.func.layout.blocks, ∀ i ∈ w.mem.func.layout.insts b,
        (w.mem.func.instData i).opcode.isTerminator = false) ∧
      ¬ ∃ entry exit, w.mem.func.Interface r.2 entry exit := by
  have hrun : returnsWith (buildFunction 0 false addConfig)
      (buildStart (.user 1 0) ⟨[], []⟩ ifDraws) (fun _ w => decide (1 ∈ w.mem.func.layout.blocks ∧
        ∀ i ∈ w.mem.func.layout.insts 1, (w.mem.func.instData i).opcode.isTerminator = false)) =
      true := by
    decide +kernel
  obtain ⟨r, w, hbuild, hcheck⟩ := exists_of_returnsWith hrun
  obtain ⟨hmem, hopen⟩ := of_decide_eq_true hcheck
  refine ⟨List.cons_ne_nil _ _, rfl, w, r, hbuild, ⟨1, hmem, hopen⟩, ?_⟩
  rintro ⟨entry, exit, h⟩
  obtain ⟨before, i, hsplit, hterm, -⟩ := h.terminated 1 hmem
  have hi : i ∈ w.mem.func.layout.insts 1 := by rw [hsplit]; simp
  rw [hopen i hi] at hterm
  cases hterm

theorem buildFunction_interface_full :
    generateRandomSignature rootTypes 8 false (⟨List.replicate 16 0, ()⟩ : World Unit) =
      .ok fullSignature ⟨[], ()⟩ ∧
    ∃ (w : World (State Locals)) (r : BlockMap (List Block) × ValueMap),
      buildFunction 0 false fullConfig (buildStart (.user 1 0) fullSignature ifDraws) = .ok r w ∧
      ∃ entry exit, w.mem.func.Interface r.2 entry exit := by
  have hsig : generateRandomSignature rootTypes 8 false (⟨List.replicate 16 0, ()⟩ : World Unit) =
      .ok fullSignature ⟨[], ()⟩ := rfl
  obtain ⟨r, w, hbuild⟩ := exists_of_returns fullConfig_returns
  exact ⟨hsig, w, r, hbuild,
    buildFunction_interface (by decide) (.inr (by decide)) hsig hbuild⟩

end Runs

end Clir
