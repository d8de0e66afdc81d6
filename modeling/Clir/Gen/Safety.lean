import Clir.Gen.Guarantees

set_option autoImplicit false

/-! # Memory, types and the pools of values

A config is accepted if its modes list only types that the opcodes accept. In such a config every
access to memory stays inside the two stack slots, and the types that the generator records are the
types of the values, apart from comparisons of `i8x16` vectors. A config that has all the types of
signatures never runs out of values.
-/

namespace Clir

open Cmd Cursor Graph Relation

/-! ## Memory -/

/-- Every access is inside one of two initialised stack slots of 32 bytes. The entry block is block
`0`. -/
structure MemorySafe (f : Function) : Prop where
  two : f.sizedStackSlots.len = 2
  size : ∀ slot < 2, f.sizedStackSlots.get slot = 32
  access : ∀ b before i after, f.layout.insts b = before ++ i :: after →
    (f.instData i).opcode.accessesMemory = true →
      ∃ a slot offset, f.access i = some a ∧ slot < 2 ∧ f.Resolves a.address slot offset ∧
        offset + a.offset + a.width ≤ 32 ∧
        (a.reads = true → ∀ byte, offset + a.offset ≤ byte → byte < offset + a.offset + a.width →
          f.Written (if b = 0 then before else f.layout.insts 0) slot byte)

section Memory

variable {S : Setting} {f g : Function} {pools : ValueMap} {children : List Child}

/-- An access that was safe is safe after calls have been inserted. -/
theorem Inserted.safe (h : Inserted S pools children f g) (hf : Complete S f pools) {b : Block}
    {before after : List Inst} {i : Inst} (hsplit : g.layout.insts b = before ++ i :: after)
    (hacc : (g.instData i).opcode.accessesMemory = true) :
    ∃ a slot offset, g.access i = some a ∧ S.Safe g (S.prior g b before) a slot offset := by
  have hi : i ∈ g.layout.insts b := by rw [hsplit]; simp
  obtain ⟨hold, hop⟩ := h.mem_old hi fun hop => by
    rw [hop] at hacc
    cases hacc
  rw [← hop] at hacc
  -- the old instructions in front of it are still in front of it
  have hlt := f.insts_lt b i hold
  have hsplit' := h.stays.order b
  rw [hsplit, List.filter_append, List.filter_cons_of_pos (by simpa using hlt)] at hsplit'
  exact hf.valid.keepsSafe h.stays.keeps hsplit'.symm hacc (List.filter_subset_self _)

/-- The address of a slot determines the slot and the offset. -/
theorem Function.StackAddr.eq_of_source {v : Value} {slot slot' : StackSlot} {offset offset' k : ℕ}
    {i : Inst} (h : f.StackAddr v slot offset) (hsource : (f.dfg.values.get v).source = .result i k)
    (hdata : f.instData i = .stackLoad .stackAddr slot' offset') :
    slot = slot' ∧ offset = offset' := by
  obtain ⟨-, j, ⟨-, k', hj, -⟩, -, hdata'⟩ := h
  rw [hsource] at hj
  obtain ⟨rfl, -⟩ := ValueDef.result.inj hj
  rw [hdata] at hdata'
  obtain ⟨-, rfl, rfl⟩ := InstructionData.stackLoad.inj hdata'
  exact ⟨rfl, rfl⟩

theorem Inserted.memorySafe (h : Inserted S pools children f g) (hf : Complete S f pools)
    (hentry : S.entry = 0) (hok : S.config.Accepted) : MemorySafe g where
  two := by rw [h.stays.slots, hf.seeded.two]
  size slot hslot := by rw [h.stays.slots, hf.seeded.size slot hslot]
  access b before i after hsplit hacc := by
    obtain ⟨a, slot, offset, ha, hsafe⟩ := h.safe hf hsplit hacc
    have hmade := hsafe.made
    have hbound := hsafe.bound hok
    rw [h.stays.slots, hf.seeded.two] at hmade
    refine ⟨a, slot, offset, ha, hmade, hsafe.resolves, hbound, fun hreads byte _ hlt => ?_⟩
    have hwritten := (hsafe.initialised hreads).written (hlt.trans_le hbound)
    rwa [Setting.prior, hentry] at hwritten

end Memory

section Runs

variable {maxDepth : ℕ} {name : FuncName} {signature : Signature} {draws : List ℕ}
  {isRootFunc : Bool} {config : ArchConfig} {w₁ w : World (State Locals)}
  {r : BlockMap (List Block) × ValueMap}

/-- **Accesses stay inside initialised stack slots** in a function that has been built and into
which any calls have been inserted. -/
theorem insertFunctionInvocation_memorySafe {children : List Child} {entries : List Generated}
    {wc w' : World (State Locals)} (hok : config.Accepted)
    (hbuild : buildFunction maxDepth isRootFunc config (buildStart name signature draws) = .ok r w)
    (hfunc : wc.mem.func = w.mem.func)
    (hentries : entries.filter (fun e => w.mem.func.name = e.func.name) = [⟨w.mem.func, r.1, r.2⟩])
    (hrun : insertFunctionInvocation children entries wc = .ok () w') :
    MemorySafe w'.mem.func := by
  obtain ⟨w₁, hc, hgen⟩ := buildFunction_eq_ok hbuild
  have h := hc.generates hgen
  exact (hc.inserted hgen hfunc hentries hrun).memorySafe (h.pools ▸ h.complete) rfl hok

/-- A config in which `swizzle` is listed with scalars. -/
def swizzleConfig : ArchConfig where
  operandTypes := [.i32, .i64]
  instructions := [⟨"jump", none⟩,
    ⟨"swizzle", some [{ name := "vector", operandTypes := some [.i64] }]⟩,
    ⟨"iconcat", some [{ name := "int", operandTypes := some [.i64] }]⟩,
    ⟨"atomic_cas", some [{ name := "int", operandTypes := some [.i128] }]⟩]

/-- Draws for four blocks in sequence: the second one swizzles a scalar, which makes a vector that
is recorded as a scalar, the third one concatenates that vector with itself, and the last one
exchanges the 32 bytes of the result at offset 9. -/
def swizzleDraws : List ℕ := List.replicate 26 0 ++ [16] ++ List.replicate 22 0 ++ [179] ++
  List.replicate 26 0 ++ [181, 0, 0, 9] ++ List.replicate 40 0

theorem swizzleDraws_returns : returnsWith (do
    let r ← buildFunction 0 false swizzleConfig
    insertFunctionInvocation [] [⟨← func, r.1, r.2⟩])
    (buildStart (.user 1 0) ⟨[], [.i32]⟩ swizzleDraws) (fun _ w =>
      w.mem.func.layout.insts 1 = [17] ++ 18 :: [19] ∧
        (w.mem.func.instData 18).opcode.accessesMemory = true ∧
        w.mem.func.access 18 = some ⟨.value 6, 0, 32, true⟩ ∧
        (w.mem.func.dfg.values.get 6).source = .result 17 0 ∧
        w.mem.func.instData 17 = .stackLoad .stackAddr 0 9) = true := by
  decide +kernel

theorem insertFunctionInvocation_memorySafe_swizzle :
    ∃ (w w' : World (State Locals)) (r : BlockMap (List Block) × ValueMap),
      buildFunction 0 false swizzleConfig (buildStart (.user 1 0) ⟨[], [.i32]⟩ swizzleDraws) =
        .ok r w ∧
      insertFunctionInvocation [] [⟨w.mem.func, r.1, r.2⟩] w = .ok () w' ∧
      ¬ MemorySafe w'.mem.func := by
  obtain ⟨⟨⟩, w', hrun, hcheck⟩ := exists_of_returnsWith swizzleDraws_returns
  obtain ⟨r, w, hbuild, hrest⟩ := bind_eq_ok.mp hrun
  refine ⟨w, w', r, hbuild, hrest, fun hsafe => ?_⟩
  obtain ⟨hsplit, hacc, haccess, hsource, hdata⟩ := of_decide_eq_true hcheck
  obtain ⟨a, slot, offset, ha, -, haddr, hbound, -⟩ := hsafe.access 1 _ 18 _ hsplit hacc
  rw [haccess] at ha
  obtain rfl := Option.some.inj ha
  obtain ⟨rfl, rfl⟩ := Function.StackAddr.eq_of_source haddr hsource hdata
  exact absurd hbound (by decide)

theorem insertFunctionInvocation_memorySafe_if :
    addConfig.Accepted ∧ ∃ (w w' : World (State Locals)) (r : BlockMap (List Block) × ValueMap),
      buildFunction 0 false addConfig (buildStart (.user 1 0) ⟨[], [.i32]⟩ ifDraws) = .ok r w ∧
      insertFunctionInvocation [addChild] [⟨w.mem.func, r.1, r.2⟩] w = .ok () w' ∧
      MemorySafe w'.mem.func := by
  have hok : addConfig.Accepted := by decide +kernel
  obtain ⟨w, w', r, hbuild, hrun⟩ := exists_invocation
  exact ⟨hok, w, w', r, hbuild, hrun, insertFunctionInvocation_memorySafe hok hbuild rfl (by simp)
    hrun⟩

/-! ## Types -/

/-- Every recorded value has the type it is recorded with. -/
def RecordsTypes (s : State Locals) : Prop :=
  ∀ b tvs, s.locals.blockDefValues.lookup b = some tvs →
    ∀ tv ∈ tvs, s.func.valueType tv.value = tv.ty

theorem Moment.recordsTypes {S : Setting} {s : State Locals} (h : Moment S s)
    (hok : S.config.Accepted) (hcmp : ¬ s.func.ComparesI8x16) : RecordsTypes s := by
  obtain ⟨settled, hvalid⟩ := h
  intro b tvs htvs tv htv
  rcases (hvalid.recorded b tvs htvs tv htv).typed hok with hty | ⟨-, -, hcmp'⟩
  · exact hty
  · exact absurd hcmp' hcmp

/-- **Recorded types are right where no `icmp` compares `i8x16` vectors**, at every moment of the
generator. The arm of `icmp` records the type of its result for every type it accepts but that
one. -/
theorem functionGenerator_recordsTypes (hok : config.Accepted)
    (hcf : withLocals [] (cfConstruct maxDepth none 0) (buildStart name signature draws) =
      .ok () w₁) :
    (¬ (after (functionGenerator isRootFunc config) w₁).mem.func.ComparesI8x16 →
      RecordsTypes (after (functionGenerator isRootFunc config) w₁).mem) ∧
    ∀ o : OperandType, Opcode.icmp.accepts o.toCraneliftType = true →
      (Opcode.icmp.resultTypes o.toCraneliftType = some [icmpType o.toCraneliftType] ↔
        o ≠ .i8x16) := by
  have hc : Constructed maxDepth name signature w₁ := ⟨draws, hcf⟩
  have hmoment : Moment (hc.setting config) (after (functionGenerator isRootFunc config) w₁).mem :=
    ((hc.functionGenerator_spec config isRootFunc).weaken fun _ _ h => h.moment).after
      fun _ _ h => ⟨_, h.complete.valid⟩
  refine ⟨hmoment.recordsTypes hok, fun o => ?_⟩
  cases o <;> decide

/-- A config in which `icmp` compares vectors of bytes. -/
def icmpConfig : ArchConfig where
  operandTypes := [.i32, .i64, .i8x16]
  instructions := [⟨"jump", none⟩,
    ⟨"icmp", some [{ name := "vector", operandTypes := some [.i8x16] }]⟩]

/-- Draws for four blocks in sequence, the second of which compares a vector with itself. -/
def icmpDraws : List ℕ := List.replicate 26 0 ++ [77] ++ List.replicate 80 0

theorem icmpDraws_returns : returnsWith (buildFunction 0 false icmpConfig)
    (buildStart (.user 1 0) ⟨[], [.i32]⟩ icmpDraws) (fun _ w =>
      w.mem.locals.blockDefValues.lookup 2 = some [⟨5, .i8⟩] ∧
        w.mem.func.valueType 5 = .i8x16) = true := by
  decide +kernel

theorem functionGenerator_recordsTypes_icmp : icmpConfig.Accepted ∧
    ∃ w₁ : World (State Locals), withLocals [] (cfConstruct 0 none 0)
        (buildStart (.user 1 0) ⟨[], [.i32]⟩ icmpDraws) = .ok () w₁ ∧
      ¬ RecordsTypes (after (functionGenerator false icmpConfig) w₁).mem := by
  refine ⟨by decide +kernel, ?_⟩
  obtain ⟨r, w, hbuild, hcheck⟩ := exists_of_returnsWith icmpDraws_returns
  obtain ⟨⟨⟩, w₁, hcf, hgen⟩ := bind_eq_ok.mp hbuild
  refine ⟨w₁, hcf, fun h => ?_⟩
  rw [after_eq_of_ok hgen] at h
  obtain ⟨htvs, hty⟩ := of_decide_eq_true hcheck
  -- the comparison is recorded for block 2 as a byte, and is a vector
  have hrecorded := h 2 _ htvs _ (List.mem_singleton_self _)
  rw [hty] at hrecorded
  cases hrecorded

/-- A function without `icmp` compares nothing. -/
theorem Function.not_comparesI8x16 {f : Function} (h : ∀ b ∈ f.layout.blocks,
    ∀ i ∈ f.layout.insts b, (f.instData i).opcode ≠ .icmp) : ¬ f.ComparesI8x16 :=
  fun ⟨b, i, hi, hop, _⟩ => h b (Layout.mem_blocks_of_mem_insts hi) i hi hop

theorem ifDraws_noIcmp : returnsWith (buildFunction 0 false addConfig)
    (buildStart (.user 1 0) ⟨[], [.i32]⟩ ifDraws) (fun _ w =>
      ∀ b ∈ w.mem.func.layout.blocks, ∀ i ∈ w.mem.func.layout.insts b,
        (w.mem.func.instData i).opcode ≠ .icmp) = true := by
  decide +kernel

theorem functionGenerator_recordsTypes_if : addConfig.Accepted ∧
    ∃ w₁ : World (State Locals), withLocals [] (cfConstruct 0 none 0)
        (buildStart (.user 1 0) ⟨[], [.i32]⟩ ifDraws) = .ok () w₁ ∧
      ¬ (after (functionGenerator false addConfig) w₁).mem.func.ComparesI8x16 ∧
      RecordsTypes (after (functionGenerator false addConfig) w₁).mem := by
  have hok : addConfig.Accepted := by decide +kernel
  obtain ⟨r, w, hbuild, hcheck⟩ := exists_of_returnsWith ifDraws_noIcmp
  obtain ⟨⟨⟩, w₁, hcf, hgen⟩ := bind_eq_ok.mp hbuild
  have hcmp : ¬ (after (functionGenerator false addConfig) w₁).mem.func.ComparesI8x16 := by
    rw [after_eq_of_ok hgen]
    exact Function.not_comparesI8x16 (of_decide_eq_true hcheck)
  exact ⟨hok, w₁, hcf, hcmp, (functionGenerator_recordsTypes hok hcf).1 hcmp⟩

/-! ## Values in stock -/

/-- Every block of the skeleton may use a value of each of the types, so that selecting one does not
fail. -/
structure Stocked (start : Function) (types : List ClifType) (pools : ValueMap) : Prop where
  values : ∀ b ∈ start.layout.blocks, ∀ t ∈ types,
    getDominatorValuesWithType (dominatorsOf (computeDominators start 0) b) pools t ≠ []
  select : ∀ b ∈ start.layout.blocks, ∀ t ∈ types, ∀ (w w' : World (State Locals)) (m : String),
    selectValue (getDominatorValuesWithType (dominatorsOf (computeDominators start 0) b) pools t) w ≠
      .error (.panic m) w'

/-- `s` is where instruction selection for some block stopped, which chooses from stocked values. -/
def StoppedSelecting (start : Function) (config : ArchConfig) (types : List ClifType) (e : Halt)
    (s : State Locals) : Prop :=
  ∃ b ∈ start.layout.blocks, ∃ (w : World (State Locals)) (draws : List ℕ),
    Stocked start types w.mem.locals.blockDefValues ∧
    populateBlockInstructions (dominatorsOf (computeDominators start 0) b)
      w.mem.locals.blockDefValues config w = .error e ⟨draws, s⟩

/-- The generator, from `w`, and the insertion of calls after it always choose from stocked values.
Wherever the generator stops, it is selecting an instruction, or it is at the start of the entry
block, which looks nothing up, or it is at a place where the values are stocked; only selecting an
instruction can panic. -/
structure NeverDry (isRootFunc : Bool) (config : ArchConfig) (types : List ClifType)
    (w : World (State Locals)) : Prop where
  stops : ∀ e w', functionGenerator isRootFunc config w = .error e w' →
    StoppedSelecting w.mem.func config types e w'.mem ∨
      e = .starved ∧ ((∃ w₀ draws, seedEntry 0 w.mem.func.signature.params config w₀ =
        .error e ⟨draws, w'.mem⟩) ∨ Stocked w.mem.func types w'.mem.locals.blockDefValues)
  returns : ∀ r w', functionGenerator isRootFunc config w = .ok r w' → Stocked w.mem.func types r.2
  calls : ∀ r w', functionGenerator isRootFunc config w = .ok r w' →
    ∀ (children : List Child) (entries : List Generated) (wc wc' : World (State Locals)) (m : String),
      (∀ child ∈ children, (∃ namespace_ id, child.name = .user namespace_ id) ∧
        child.signature.params ⊆ rootTypes) →
      wc.mem.func = w'.mem.func →
      entries.filter (fun e => w'.mem.func.name = e.func.name) = [⟨w'.mem.func, r.1, r.2⟩] →
      insertFunctionInvocation children entries wc ≠ .error (.panic m) wc'

theorem Setting.Published.stocked {S : Setting} {s : State Locals} (h : S.Published s)
    (hentry : S.entry = 0) : Stocked S.start S.stock s.locals.blockDefValues := by
  obtain ⟨⟨settled, hvalid⟩, hrecorded⟩ := h
  have hvalues : ∀ b ∈ S.start.layout.blocks, ∀ t ∈ S.stock, getDominatorValuesWithType
      (dominatorsOf (computeDominators S.start 0) b) s.locals.blockDefValues t ≠ [] := by
    intro b hb t ht
    have hpool := hvalid.pool_ne_nil hrecorded hb ht
    rwa [Setting.pool, Setting.dominators, hentry] at hpool
  refine ⟨hvalues, fun b hb t ht w w' m hrun => ?_⟩
  have hselect := ensures_selectValue (I := fun e (_ : State Locals) => e = .starved) (s := w.mem) _
    rfl fun hnil => absurd hnil (hvalues b hb t ht)
  cases hselect.of_error hrun

theorem Constructed.stock_eq (h : Constructed maxDepth name signature w₁) (config : ArchConfig) :
    (h.setting config).stock =
      config.operandTypes.map OperandType.toCraneliftType ++ signature.params := by
  rw [Setting.stock, show (h.setting config).start.signature = _ from h.signature_eq]
  rfl

theorem Constructed.plentiful (h : Constructed maxDepth name signature w₁)
    (hconfig : rootTypes ⊆ config.operandTypes.map OperandType.toCraneliftType)
    (hreturns : signature.returns ⊆ rootTypes) : (h.setting config).Plentiful := by
  have hroot : ∀ t ∈ rootTypes, t ∈ (h.setting config).stock := fun t ht => by
    rw [h.stock_eq]
    exact List.mem_append_left _ (hconfig ht)
  refine ⟨hroot, fun t ht => hroot t (hreturns ?_)⟩
  rwa [show (h.setting config).start.signature = _ from h.signature_eq] at ht

/-- **The pools never run dry**, for a config that has the types of signatures and a signature that
has been drawn. -/
theorem functionGenerator_neverDry {σ : Type} {w₀ w₀' : World σ} {n : ℕ}
    (hconfig : rootTypes ⊆ config.operandTypes.map OperandType.toCraneliftType)
    (hsig : generateRandomSignature rootTypes n isRootFunc w₀ = .ok signature w₀')
    (hcf : withLocals [] (cfConstruct maxDepth none 0) (buildStart name signature draws) =
      .ok () w₁) :
    NeverDry isRootFunc config
      (config.operandTypes.map OperandType.toCraneliftType ++ signature.params) w₁ := by
  have hc : Constructed maxDepth name signature w₁ := ⟨draws, hcf⟩
  obtain ⟨-, -, hreturns, -⟩ := (ensures_generateRandomSignature
    (I := fun _ _ => True) trivial).of_ok hsig
  have hplenty : (hc.setting config).Plentiful := hc.plentiful hconfig hreturns
  rw [← hc.stock_eq]
  refine ⟨fun e w' hrun => ?_, fun r w' hrun => ?_, ?_⟩
  · have hstop := (hc.functionGenerator_spec config isRootFunc).of_error hrun
    rcases hstop.place with ⟨b, hb, w₀, draws, hpub, hselect⟩ | ⟨hstarved, hplace⟩
    · exact .inl ⟨b, hb, w₀, draws, hpub.stocked rfl, hselect⟩
    · exact .inr ⟨hstarved hplenty, hplace.imp_right fun h => h.stocked rfl⟩
  · have hg := hc.generates hrun
    have hpub : (hc.setting config).Published w'.mem :=
      ⟨⟨_, hg.complete.valid⟩, hg.complete.defs _ Setting.entry_mem⟩
    exact hg.pools ▸ hpub.stocked rfl
  · intro r w' hrun children entries wc wc' m hchildren hfunc hentries hinsert
    have hcallable : (hc.setting config).Callable children := fun child hchild =>
      ⟨(hchildren child hchild).1, fun t ht => hplenty.root t ((hchildren child hchild).2 ht)⟩
    cases (hc.insertFunctionInvocation_spec hrun hfunc hentries).of_error hinsert hcallable

/-- A config that has all types of signatures. -/
def fullConfig : ArchConfig where
  operandTypes := [.i8, .i16, .i32, .i64, .f32, .f64, .i16x8, .i32x4, .f32x4, .i64x2, .f64x2]
  instructions := addConfig.instructions

/-- A drawn signature: the first eight types, for parameters and results. -/
def fullSignature : Signature := ⟨rootTypes.take 8, rootTypes.take 8⟩

theorem fullConfig_returns : returns (buildFunction 0 false fullConfig)
    (buildStart (.user 1 0) fullSignature ifDraws) = true := by
  decide +kernel

theorem functionGenerator_neverDry_full :
    rootTypes ⊆ fullConfig.operandTypes.map OperandType.toCraneliftType ∧
    generateRandomSignature rootTypes 8 false (⟨List.replicate 16 0, ()⟩ : World Unit) =
      .ok fullSignature ⟨[], ()⟩ ∧
    ∃ (w₁ w : World (State Locals)) (r : BlockMap (List Block) × ValueMap),
      withLocals [] (cfConstruct 0 none 0) (buildStart (.user 1 0) fullSignature ifDraws) =
        .ok () w₁ ∧ functionGenerator false fullConfig w₁ = .ok r w ∧
      NeverDry false fullConfig
        (fullConfig.operandTypes.map OperandType.toCraneliftType ++ fullSignature.params) w₁ := by
  have hconfig : rootTypes ⊆ fullConfig.operandTypes.map OperandType.toCraneliftType := by decide
  have hsig : generateRandomSignature rootTypes 8 false (⟨List.replicate 16 0, ()⟩ : World Unit) =
      .ok fullSignature ⟨[], ()⟩ := rfl
  obtain ⟨r, w, hbuild⟩ := exists_of_returns fullConfig_returns
  obtain ⟨⟨⟩, w₁, hcf, hgen⟩ := bind_eq_ok.mp hbuild
  exact ⟨hconfig, hsig, w₁, w, r, hcf, hgen, functionGenerator_neverDry hconfig hsig hcf⟩

end Runs

end Clir
