import Clir.Gen.InvokeSpec

set_option autoImplicit false

/-! # What the generator guarantees

The results about whole runs, for every config, every signature and every stream of draws: a
skeleton is constructed, `function_generator` fills it, and `insert_function_invocation` inserts
the calls to the children of the function.
-/

namespace Clir

open Cmd Cursor Graph Relation

/-! ## Uses and definitions -/

section Uses

variable {S : Setting} {f : Function} {pools : ValueMap} {b : Block} {i : Inst}

/-- With all conditions settled, every use is dominated and none is of a value of the skeleton. -/
theorem Valid.usesDominated (h : Valid S (fun _ => True) f pools) :
    f.UsesDominated S.entry ∧
      ∀ b, ∀ i ∈ f.layout.insts b, ∀ v ∈ f.uses i, S.base ≤ v := by
  have huses : ∀ b before i after, f.layout.insts b = before ++ i :: after →
      ∀ v ∈ f.uses i, S.base ≤ v ∧ f.Available S.entry b before v := by
    intro b before i after hsplit v hv
    refine h.uses b before i after hsplit v ?_
    rcases List.mem_append.mp hv with hv | hv
    · exact .inr ⟨hv, fun _ => trivial⟩
    · exact .inl hv
  constructor
  · exact fun b before i after hsplit v hv => (huses b before i after hsplit v hv).2
  · intro b i hi v hv
    obtain ⟨before, after, hsplit⟩ := List.append_of_mem hi
    exact (huses b before i after hsplit v hv).1

/-- A block call belongs to the branch of its block. -/
theorem Valid.branch_of_destination {settled : Block → Prop} (h : Valid S settled f pools)
    {c : BlockCall} (hi : i ∈ f.layout.insts b) (hc : c ∈ f.destinations (f.instData i)) :
    ∃ t, f.branch b = some t ∧ c ∈ t.targets := by
  unfold Function.destinations at hc
  cases hbr : f.branchOf (f.instData i) with
  | none =>
      rw [hbr] at hc
      cases hc
  | some t =>
      rw [hbr] at hc
      have hterm := InstructionData.isTerminator_of_isBranch
        (InstructionData.isBranch_of_branchOf hbr)
      obtain ⟨before, after, hsplit⟩ := List.append_of_mem hi
      obtain ⟨rfl, -⟩ := h.ends b before i after hsplit hterm
      refine ⟨t, ?_, hc⟩
      rw [Function.branch, Layout.lastInst, hsplit, List.getLast?_concat, Option.bind_some, hbr]

/-- Two predecessors are two branch instructions. -/
theorem exists_two_branches (h : 2 ≤ (predBlocks f b).length) :
    ∃ i j p q, i ≠ j ∧ f.layout.lastInst p = some i ∧ f.Edge p b ∧
      f.layout.lastInst q = some j ∧ f.Edge q b := by
  have hsorted := ((ControlFlowGraph.withFunction f).data b).predecessors.sorted
  have hlen : 2 ≤ ((ControlFlowGraph.withFunction f).preds b).length := by
    rwa [predBlocks, List.length_map] at h
  cases hl : (ControlFlowGraph.withFunction f).preds b with
  | nil => simp [hl] at hlen
  | cons x l =>
      cases l with
      | nil => simp [hl] at hlen
      | cons y l =>
          have hx : x ∈ (ControlFlowGraph.withFunction f).preds b := by rw [hl]; simp
          have hy : y ∈ (ControlFlowGraph.withFunction f).preds b := by rw [hl]; simp
          have hlt : x.1 < y.1 := by
            rw [show ((ControlFlowGraph.withFunction f).data b).predecessors.toList = x :: y :: l
              from hl] at hsorted
            exact List.rel_of_pairwise_cons hsorted List.mem_cons_self
          obtain ⟨hi, hp⟩ := ControlFlowGraph.mem_preds.mp hx
          obtain ⟨hj, hq⟩ := ControlFlowGraph.mem_preds.mp hy
          exact ⟨x.1, y.1, x.2, y.2, Nat.ne_of_lt hlt, hi, hp, hj, hq⟩

end Uses

section Runs

variable {maxDepth : ℕ} {name : FuncName} {signature : Signature} {draws : List ℕ}
  {isRootFunc : Bool} {config : ArchConfig} {w₁ w : World (State Locals)}
  {r : BlockMap (List Block) × ValueMap}

theorem Constructed.generates (h : Constructed maxDepth name signature w₁)
    (hgen : functionGenerator isRootFunc config w₁ = .ok r w) :
    Generates (h.setting config) isRootFunc r w.mem :=
  (h.functionGenerator_spec config isRootFunc).of_ok hgen

/-- **Every use in a generated function is dominated by its definition**, and no use is of a value
that the skeleton had, so none of a condition parameter. -/
theorem functionGenerator_usesDominated
    (hcf : withLocals [] (cfConstruct maxDepth none 0) (buildStart name signature draws) =
      .ok () w₁)
    (hgen : functionGenerator isRootFunc config w₁ = .ok r w) :
    w.mem.func.layout.blocks.head? = some 0 ∧ w.mem.func.UsesDominated 0 ∧
      ∀ b, ∀ i ∈ w.mem.func.layout.insts b, ∀ v ∈ w.mem.func.uses i,
        w₁.mem.func.dfg.values.len ≤ v := by
  have hc : Constructed maxDepth name signature w₁ := ⟨draws, hcf⟩
  have hvalid := (hc.generates hgen).complete.valid
  refine ⟨?_, hvalid.usesDominated⟩
  rw [hvalid.frame.blocks]
  exact (hc.setting config).skeleton.head

/-- A config of two types in which only `iadd` emits anything. -/
def addConfig : ArchConfig where
  operandTypes := [.i32, .i64]
  instructions := [⟨"jump", none⟩,
    ⟨"iadd", some [{ name := "int", operandTypes := some [.i32, .i64] }]⟩]

/-- Draws for an `if` whose last block holds an addition. -/
def ifDraws : List ℕ := [0, 1] ++ List.replicate 70 0 ++ [79, 0, 0] ++ List.replicate 100 0

theorem ifDraws_returns : returns (buildFunction 0 false addConfig)
    (buildStart (.user 1 0) ⟨[], [.i32]⟩ ifDraws) = true := by
  decide +kernel

theorem functionGenerator_usesDominated_if :
    ∃ (w₁ w : World (State Locals)) (r : BlockMap (List Block) × ValueMap),
      withLocals [] (cfConstruct 0 none 0) (buildStart (.user 1 0) ⟨[], [.i32]⟩ ifDraws) =
        .ok () w₁ ∧ functionGenerator false addConfig w₁ = .ok r w ∧
      w.mem.func.layout.blocks.head? = some 0 ∧ w.mem.func.UsesDominated 0 ∧
        ∀ b, ∀ i ∈ w.mem.func.layout.insts b, ∀ v ∈ w.mem.func.uses i,
          w₁.mem.func.dfg.values.len ≤ v := by
  obtain ⟨r, w, hbuild⟩ := exists_of_returns ifDraws_returns
  obtain ⟨⟨⟩, w₁, hcf, hgen⟩ := bind_eq_ok.mp hbuild
  exact ⟨w₁, w, r, hcf, hgen, functionGenerator_usesDominated hcf hgen⟩

/-! ## Block calls -/

/-- **Block calls pass an argument for each parameter**, recorded with the type of the parameter,
and a block other than the first one has parameters only where two branches meet, at most one of
each type. -/
theorem buildFunction_callsMatch
    (hbuild : buildFunction maxDepth isRootFunc config (buildStart name signature draws) =
      .ok r w) :
    (∀ b, ∀ i ∈ w.mem.func.layout.insts b,
      ∀ c ∈ w.mem.func.destinations (w.mem.func.instData i),
        List.Forall₂ (fun a p => ∃ d tvs, r.2.lookup d = some tvs ∧
          ⟨a, w.mem.func.valueType p⟩ ∈ tvs) c.args (w.mem.func.blockParams c.block)) ∧
    ∀ c ∈ w.mem.func.layout.blocks, w.mem.func.layout.blocks.head? ≠ some c →
      (w.mem.func.blockParams c ≠ [] →
        ∃ i j p q, i ≠ j ∧ w.mem.func.layout.lastInst p = some i ∧ w.mem.func.Edge p c ∧
          w.mem.func.layout.lastInst q = some j ∧ w.mem.func.Edge q c) ∧
      ((w.mem.func.blockParams c).map w.mem.func.valueType).Nodup := by
  obtain ⟨w₁, hc, hgen⟩ := buildFunction_eq_ok hbuild
  have h := hc.generates hgen
  have hvalid := h.complete.valid
  have hblocks := hvalid.frame.blocks
  have hhead := (hc.setting config).skeleton.head
  constructor
  · intro b i hi c hdest
    obtain ⟨t, ht, hct⟩ := hvalid.branch_of_destination hi hdest
    rw [h.pools]
    exact h.complete.passes b t ht c hct
  · rw [hblocks]
    intro c hcb hne
    have hce : c ≠ (hc.setting config).entry := fun heq => hne (heq ▸ hhead)
    refine ⟨fun hparams => exists_two_branches ?_, h.complete.nodup c hcb hce⟩
    rw [predBlocks, hvalid.preds_eq]
    exact h.complete.joins c hcb hce hparams

theorem buildFunction_callsMatch_if :
    ∃ (w : World (State Locals)) (r : BlockMap (List Block) × ValueMap),
      buildFunction 0 false addConfig (buildStart (.user 1 0) ⟨[], [.i32]⟩ ifDraws) = .ok r w ∧
      ∀ b, ∀ i ∈ w.mem.func.layout.insts b,
        ∀ c ∈ w.mem.func.destinations (w.mem.func.instData i),
          List.Forall₂ (fun a p => ∃ d tvs, r.2.lookup d = some tvs ∧
            ⟨a, w.mem.func.valueType p⟩ ∈ tvs) c.args (w.mem.func.blockParams c.block) := by
  obtain ⟨r, w, hbuild⟩ := exists_of_returns ifDraws_returns
  exact ⟨w, r, hbuild, (buildFunction_callsMatch hbuild).1⟩

/-! ## The maps that the generator returns -/

theorem Constructed.insertFunctionInvocation_spec {δ : Type} {children : List Child}
    {entries : List Generated} {wc : World (State δ)} (h : Constructed maxDepth name signature w₁)
    (hgen : functionGenerator isRootFunc config w₁ = .ok r w) (hfunc : wc.mem.func = w.mem.func)
    (hentries : entries.filter (fun e => w.mem.func.name = e.func.name) =
      [⟨w.mem.func, r.1, r.2⟩]) :
    Ensures (fun e _ => (h.setting config).Callable children → e = .starved)
      (insertFunctionInvocation children entries) wc.mem
      fun _ s' => Inserted (h.setting config) r.2 children w.mem.func s'.func := by
  have hg := h.generates hgen
  have hsound : Sound (h.setting config) wc.mem.func r.2 := by
    rw [hfunc, hg.pools]
    exact hg.complete.sound
  rw [← hfunc] at hentries ⊢
  exact hsound.insertFunctionInvocation_spec rfl hentries hg.dominators rfl

theorem Constructed.inserted {δ : Type} {children : List Child} {entries : List Generated}
    {wc w' : World (State δ)} (h : Constructed maxDepth name signature w₁)
    (hgen : functionGenerator isRootFunc config w₁ = .ok r w) (hfunc : wc.mem.func = w.mem.func)
    (hentries : entries.filter (fun e => w.mem.func.name = e.func.name) = [⟨w.mem.func, r.1, r.2⟩])
    (hrun : insertFunctionInvocation children entries wc = .ok () w') :
    Inserted (h.setting config) r.2 children w.mem.func w'.mem.func :=
  (h.insertFunctionInvocation_spec hgen hfunc hentries).of_ok hrun

/-- The maps `dominanceMap` and `blockDefValues` describe `f`, which has been made from the
skeleton `start`. -/
structure MapsDescribe (start f : Function) (dominanceMap : BlockMap (List Block))
    (blockDefValues : ValueMap) : Prop where
  edges : ∀ b c, f.Edge b c ↔ start.Edge b c
  terminators : ∀ b, ∀ i ∈ f.layout.insts b, (f.instData i).opcode.isTerminator = true →
    i ∈ start.layout.insts b ∨ (f.instData i).opcode = .return_
  dominance : dominanceMap = computeDominators f 0
  defined : ∀ b tvs, blockDefValues.lookup b = some tvs → ∀ tv ∈ tvs,
    f.IsParam tv.value b ∨ ∃ before i after, f.layout.insts b = before ++ i :: after ∧
      f.IsResult tv.value i ∧ ∀ j ∈ before ++ [i], (f.instData j).opcode.isTerminator = false
  once : ∀ b c tvs tvs', blockDefValues.lookup b = some tvs → blockDefValues.lookup c = some tvs' →
    ∀ tv ∈ tvs, ∀ tv' ∈ tvs', tv.value = tv'.value → b = c

section Describes

variable {S : Setting} {f g : Function} {pools : ValueMap} {b c : Block} {v : Value}
  {children : List Child}

/-- A value is defined in one block. -/
theorem Function.DefinedIn.unique (hb : f.DefinedIn b v) (hc : f.DefinedIn c v) : b = c := by
  obtain ⟨-, k, hsource, -⟩ | ⟨i, ⟨-, k, hsource, -⟩, hi, -⟩ := hb
  · obtain ⟨-, k', hsource', -⟩ | ⟨j, ⟨-, k', hsource', -⟩, -⟩ := hc
    · rw [hsource] at hsource'
      exact (ValueDef.param.inj hsource').1
    · rw [hsource] at hsource'
      cases hsource'
  · obtain ⟨-, k', hsource', -⟩ | ⟨j, ⟨-, k', hsource', -⟩, hj, -⟩ := hc
    · rw [hsource] at hsource'
      cases hsource'
    · rw [hsource] at hsource'
      obtain ⟨rfl, -⟩ := ValueDef.result.inj hsource'
      exact f.layout.insts_disjoint b c i hi hj

/-- Terminators are last, and come from the skeleton unless they are returns. -/
def Setting.Ends (S : Setting) (f : Function) : Prop :=
  ∀ b, ∀ i ∈ f.layout.insts b, (f.instData i).opcode.isTerminator = true →
    f.layout.lastInst b = some i ∧
      (i ∈ S.start.layout.insts b ∨ (f.instData i).opcode = .return_)

theorem Valid.setting_ends {settled : Block → Prop} (h : Valid S settled f pools) : S.Ends f := by
  intro b i hi ht
  obtain ⟨before, after, hsplit⟩ := List.append_of_mem hi
  obtain ⟨rfl, hor⟩ := h.ends b before i after hsplit ht
  exact ⟨by rw [Layout.lastInst, hsplit, List.getLast?_concat], hor⟩

theorem Inserted.setting_ends (h : Inserted S pools children f g) (hf : S.Ends f) : S.Ends g := by
  intro b i hi ht
  obtain ⟨hmem, hop⟩ := h.mem_old hi fun hop => by
    rw [hop] at ht
    cases ht
  rw [← hop] at ht ⊢
  rw [h.stays.lastInst]
  exact hf b i hmem ht

/-- What a block defines by an instruction stands in front of its terminator. -/
theorem Function.DefinedIn.placed (h : f.DefinedIn b v) (hends : S.Ends f) :
    f.IsParam v b ∨ ∃ before i after, f.layout.insts b = before ++ i :: after ∧
      f.IsResult v i ∧ ∀ j ∈ before ++ [i], (f.instData j).opcode.isTerminator = false := by
  refine h.imp_right fun ⟨i, hres, hi, hterm⟩ => ?_
  obtain ⟨before, after, hsplit⟩ := List.append_of_mem hi
  refine ⟨before, i, after, hsplit, hres, fun j hj => ?_⟩
  rcases List.mem_append.mp hj with hj | hj
  · by_contra ht
    have hmem : j ∈ f.layout.insts b := by
      rw [hsplit]
      exact List.mem_append_left _ hj
    obtain ⟨hlast, -⟩ := hends b j hmem (Bool.eq_true_of_not_eq_false ht)
    -- the terminator would be in front of the instruction, and last
    have hnodup := f.layout.insts_nodup b
    rw [Layout.lastInst, hsplit, List.getLast?_append_cons] at hlast
    rw [hsplit] at hnodup
    exact (List.nodup_append.mp hnodup).2.2 j hj j (List.mem_of_mem_getLast? hlast) rfl
  · rw [List.mem_singleton.mp hj, hterm]

theorem Sound.describes (h : Sound S f pools) (hentry : S.entry = 0) (hends : S.Ends f)
    (hlast : ∀ b c, S.start.Edge b c → f.layout.lastInst b = S.start.layout.lastInst b) :
    MapsDescribe S.start f S.dominators pools where
  edges _ _ := h.frame.edge_iff
  terminators b i hi ht := (hends b i hi ht).2
  dominance := by
    rw [← hentry]
    exact (computeDominators_congr h.frame.blocks (fun _ _ => h.frame.edge_iff) hlast).symm
  defined b tvs htvs tv htv := (h.recorded b tvs htvs tv htv).2.placed hends
  once b c tvs tvs' htvs htvs' tv htv tv' htv' heq :=
    (h.recorded b tvs htvs tv htv).2.unique (heq ▸ (h.recorded c tvs' htvs' tv' htv').2)

end Describes

/-- **The returned maps describe the function**, when it is returned and after any calls have been
inserted into it. -/
theorem functionGenerator_mapsDescribe
    (hcf : withLocals [] (cfConstruct maxDepth none 0) (buildStart name signature draws) =
      .ok () w₁)
    (hgen : functionGenerator isRootFunc config w₁ = .ok r w) :
    MapsDescribe w₁.mem.func w.mem.func r.1 r.2 ∧
      ∀ (children : List Child) (entries : List Generated) (wc w' : World (State Locals)),
        wc.mem.func = w.mem.func →
        entries.filter (fun e => w.mem.func.name = e.func.name) = [⟨w.mem.func, r.1, r.2⟩] →
        insertFunctionInvocation children entries wc = .ok () w' →
          MapsDescribe w₁.mem.func w'.mem.func r.1 r.2 := by
  have hc : Constructed maxDepth name signature w₁ := ⟨draws, hcf⟩
  have h := hc.generates hgen
  have hvalid := h.complete.valid
  have hsound := h.complete.sound
  rw [← h.pools] at hsound
  rw [h.dominators]
  refine ⟨hsound.describes rfl hvalid.setting_ends fun _ _ => hvalid.lastInst_of_edge, ?_⟩
  intro children entries wc w' hfunc hentries hrun
  rw [← h.dominators] at hentries
  have hins := hc.inserted hgen hfunc hentries hrun
  refine hins.sound.describes rfl (hins.setting_ends hvalid.setting_ends) fun b c he => ?_
  rw [hins.stays.lastInst, hvalid.lastInst_of_edge he]

/-- A child with one parameter. -/
def addChild : Child := ⟨.user 1 1, ⟨[.i32], [.i32]⟩⟩

theorem ifDraws_invokes : returns (do
    let r ← buildFunction 0 false addConfig
    insertFunctionInvocation [addChild] [⟨← func, r.1, r.2⟩])
    (buildStart (.user 1 0) ⟨[], [.i32]⟩ ifDraws) = true := by
  decide +kernel

/-- The runs that the witness starts. -/
theorem exists_invocation : ∃ (w w' : World (State Locals)) (r : BlockMap (List Block) × ValueMap),
    buildFunction 0 false addConfig (buildStart (.user 1 0) ⟨[], [.i32]⟩ ifDraws) = .ok r w ∧
      insertFunctionInvocation [addChild] [⟨w.mem.func, r.1, r.2⟩] w = .ok () w' := by
  obtain ⟨⟨⟩, w', hrun⟩ := exists_of_returns ifDraws_invokes
  obtain ⟨r, w, hbuild, hrest⟩ := bind_eq_ok.mp hrun
  exact ⟨w, w', r, hbuild, hrest⟩

theorem functionGenerator_mapsDescribe_if :
    ∃ (w₁ w w' : World (State Locals)) (r : BlockMap (List Block) × ValueMap),
      withLocals [] (cfConstruct 0 none 0) (buildStart (.user 1 0) ⟨[], [.i32]⟩ ifDraws) =
        .ok () w₁ ∧ functionGenerator false addConfig w₁ = .ok r w ∧
      insertFunctionInvocation [addChild] [⟨w.mem.func, r.1, r.2⟩] w = .ok () w' ∧
      MapsDescribe w₁.mem.func w.mem.func r.1 r.2 ∧
        MapsDescribe w₁.mem.func w'.mem.func r.1 r.2 := by
  obtain ⟨w, w', r, hbuild, hrun⟩ := exists_invocation
  obtain ⟨⟨⟩, w₁, hcf, hgen⟩ := bind_eq_ok.mp hbuild
  obtain ⟨hmaps, hafter⟩ := functionGenerator_mapsDescribe hcf hgen
  exact ⟨w₁, w, w', r, hcf, hgen, hrun, hmaps, hafter _ _ w w' rfl (by simp) hrun⟩

/-! ## Calls -/

/-- What the insertion of calls to the children does to a function `f`, whose recorded values are
`blockDefValues`. -/
structure CallsInserted (blockDefValues : ValueMap) (children : List Child) (f g : Function) :
    Prop where
  one_each : g.dfg.insts.len = f.dfg.insts.len + children.length
  old : ∀ b, (g.layout.insts b).filter (· < f.dfg.insts.len) = f.layout.insts b
  call : ∀ k child, children[k]? = some child →
    ∃ b ∈ g.layout.blocks, g.layout.blocks.head? ≠ some b ∧
      ∃ before t, g.layout.insts b = before ++ [t] ∧
        (g.instData t).opcode.isTerminator = true ∧ f.dfg.insts.len + k ∈ before ∧
        ∃ ref args, g.instData (f.dfg.insts.len + k) = .call ref args ∧
          g.extFuncs.get ref = ⟨child.name, child.signature⟩ ∧
          ∃ passed, List.Forall₂ (fun t a => ∃ d tvs, blockDefValues.lookup d = some tvs ∧
              ⟨a, t⟩ ∈ tvs) child.signature.params passed ∧
            args.map g.valueType = passed.map g.valueType
  edges : ∀ b c, g.Edge b c ↔ f.Edge b c
  params : ∀ b, g.blockParams b = f.blockParams b
  blockCalls : ∀ b, (g.branch b).map Terminator.targets = (f.branch b).map Terminator.targets
  operands : ∀ b, ∀ i ∈ f.layout.insts b, (g.instData i).opcode = (f.instData i).opcode ∧
    (g.instData i).arguments.map g.valueType = (f.instData i).arguments.map f.valueType
  dominated : f.UsesDominated 0 → g.UsesDominated 0

/-- **Inserting calls keeps the function valid.** Each child gets one call, before the terminator
of a block other than the first one, with recorded values of the parameter types. What was there
stays in its order, with operands of the same types, and every use is dominated if it was. -/
theorem insertFunctionInvocation_valid {children : List Child} {entries : List Generated}
    {wc w' : World (State Locals)}
    (hbuild : buildFunction maxDepth isRootFunc config (buildStart name signature draws) = .ok r w)
    (hreturns : isRootFunc = true ∨ signature.returns ≠ []) (hfunc : wc.mem.func = w.mem.func)
    (hentries : entries.filter (fun e => w.mem.func.name = e.func.name) = [⟨w.mem.func, r.1, r.2⟩])
    (hrun : insertFunctionInvocation children entries wc = .ok () w') :
    CallsInserted r.2 children w.mem.func w'.mem.func := by
  obtain ⟨w₁, hc, hgen⟩ := buildFunction_eq_ok hbuild
  have h := hc.generates hgen
  have hins := hc.inserted hgen hfunc hentries hrun
  -- every block ends in a terminator, the exit block too, since there is a return
  have hended : (hc.setting config).Terminated w.mem.func :=
    h.ended (hreturns.imp_right fun hne => by rwa [← hc.signature_eq] at hne)
  have hcomplete := hins.complete hended (h.pools ▸ h.complete)
  have hterm := hins.stays.terminated hended
  have hframe := hcomplete.valid.frame
  refine ⟨hins.insts_len, hins.stays.order, fun k child hk => ?_, fun b c => ?_, hins.stays.params,
    fun b => ?_, fun b i hi => ?_, fun _ => hcomplete.valid.usesDominated.1⟩
  -- the call is in the block and is not its last instruction
  · obtain ⟨⟨b, hb, hne, hi, hlast⟩, ⟨ref, -, hcallee, hext⟩, passed, hpassed, htypes⟩ :=
      hins.called k child hk
    obtain ⟨t, ht, htt⟩ := hterm b hb
    obtain ⟨before, hsplit⟩ := List.getLast?_eq_some_iff.mp ht
    obtain ⟨args, hargs⟩ := InstructionData.callee_eq_some.mp hcallee
    refine ⟨b, hframe.blocks ▸ hb, fun hhead => hne ?_, before, t, hsplit, htt, ?_, ref, args,
      hargs, hext, passed, hpassed, ?_⟩
    · rw [hframe.blocks, (hc.setting config).skeleton.head] at hhead
      exact (Option.some.inj hhead).symm
    · rw [hsplit, List.mem_append, List.mem_singleton] at hi
      refine hi.resolve_right fun heq => hlast ?_
      rw [ht, heq]
    · rwa [hargs] at htypes
  · rw [hframe.edge_iff, h.complete.valid.frame.edge_iff]
  · have hcalls := congrArg (Option.map Prod.snd) (hins.stays.calls b)
    rwa [Option.map_map, Option.map_map] at hcalls
  · have hlt := w.mem.func.insts_lt b i hi
    exact ⟨hins.stays.keeps.opcode i hlt,
      hins.stays.operands i hlt (h.complete.sound.args_lt b i hi)⟩

theorem insertFunctionInvocation_valid_if :
    ∃ (w w' : World (State Locals)) (r : BlockMap (List Block) × ValueMap),
      buildFunction 0 false addConfig (buildStart (.user 1 0) ⟨[], [.i32]⟩ ifDraws) = .ok r w ∧
      insertFunctionInvocation [addChild] [⟨w.mem.func, r.1, r.2⟩] w = .ok () w' ∧
      CallsInserted r.2 [addChild] w.mem.func w'.mem.func := by
  obtain ⟨w, w', r, hbuild, hrun⟩ := exists_invocation
  exact ⟨w, w', r, hbuild, hrun, insertFunctionInvocation_valid hbuild (.inr (by decide)) rfl
    (by simp) hrun⟩

end Runs

end Clir
