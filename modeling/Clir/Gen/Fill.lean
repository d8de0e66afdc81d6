import Clir.Gen.Seed

set_option autoImplicit false

/-! # The first pass

The visit of a block emits instructions into it, publishes what it has defined and used, and puts
a condition into its branch. `Filled` is what holds between two visits; `Setting.Supplied` says
where the types come from that a block has used, which the second pass relies on.
-/

namespace Clir

open Cmd Cursor Graph Relation

/-! ## Pools that are never empty -/

section Pool

variable {S : Setting} {settled : Block → Prop} {f : Function} {pools pools' : ValueMap}
  {b c : Block} {t : ClifType}

theorem Setting.entry_dominates (S : Setting) (b : Block) :
    Dominates S.start.Edge S.entry S.entry b := fun _ hp => hp.first_mem

/-- **The pool of a block has a value of each type in stock.** -/
theorem Valid.pool_ne_nil (h : Valid S settled f pools) (hentry : (pools.lookup S.entry).isSome)
    (hb : b ∈ S.start.layout.blocks) (ht : t ∈ S.stock) : S.pool pools b t ≠ [] := by
  obtain ⟨tvs, htvs⟩ := Option.isSome_iff_exists.mp hentry
  obtain ⟨v, hv⟩ := h.stocked tvs htvs t ht
  refine List.ne_nil_of_mem (mem_getDominatorValuesWithType.mpr ⟨S.entry, ?_, tvs, htvs, hv⟩)
  exact (Setting.mem_dominatorsOf hb).mpr (S.entry_dominates b)

/-- A strict dominator of the block has recorded a value of the type. -/
def Setting.Supplied (S : Setting) (pools : ValueMap) (b : Block) (t : ClifType) : Prop :=
  ∃ c, StrictlyDominates S.start.Edge S.entry c b ∧
    ∃ tvs, pools.lookup c = some tvs ∧ ∃ v, ⟨v, t⟩ ∈ tvs

/-- What the pool of a block has before the block records anything comes from elsewhere. -/
theorem Setting.supplied_of_pool (hpool : S.pool pools b t ≠ []) (hb : pools.lookup b = none) :
    S.Supplied pools b t := by
  obtain ⟨v, hv⟩ := List.exists_mem_of_ne_nil _ hpool
  obtain ⟨c, hc, tvs, htvs, hmem⟩ := mem_getDominatorValuesWithType.mp hv
  refine ⟨c, ⟨Setting.dominates_of_mem_dominatorsOf hc, ?_⟩, tvs, htvs, v, hmem⟩
  rintro rfl
  rw [hb] at htvs
  cases htvs

/-- Pools that only grow. -/
def Grows (pools pools' : ValueMap) : Prop :=
  ∀ b tvs, pools.lookup b = some tvs → ∃ tvs', pools'.lookup b = some tvs' ∧ tvs ⊆ tvs'

theorem Grows.refl (pools : ValueMap) : Grows pools pools :=
  fun _ tvs h => ⟨tvs, h, List.Subset.refl _⟩

theorem Grows.insert {tvs : List TypedValue}
    (h : ∀ old, pools.lookup b = some old → old ⊆ tvs) : Grows pools (pools.insert b tvs) := by
  intro c old hc
  by_cases hcb : c = b
  · subst hcb
    exact ⟨tvs, AList.lookup_insert _, h old hc⟩
  · exact ⟨old, by rw [AList.lookup_insert_ne hcb, hc], List.Subset.refl _⟩

theorem Setting.Supplied.grows (h : S.Supplied pools b t) (hg : Grows pools pools') :
    S.Supplied pools' b t := by
  obtain ⟨c, hdom, tvs, htvs, v, hv⟩ := h
  obtain ⟨tvs', htvs', hsub⟩ := hg c tvs htvs
  exact ⟨c, hdom, tvs', htvs', v, hsub hv⟩

/-- **A type supplied to a block is in the pool of each of its predecessors.** -/
theorem Setting.Supplied.pool_ne_nil (h : S.Supplied pools b t) {p : Block}
    (hp : S.start.Edge p b) : S.pool pools p t ≠ [] := by
  obtain ⟨c, ⟨hdom, hne⟩, tvs, htvs, v, hv⟩ := h
  have hmem : c ∈ dominatorsOf S.dominators p :=
    (Setting.mem_dominatorsOf hp.mem_blocks).mpr (hdom.pred hne hp)
  exact List.ne_nil_of_mem (mem_getDominatorValuesWithType.mpr ⟨c, hmem, tvs, htvs, hv⟩)

end Pool

/-! ## One instruction -/

section Gather

variable {S : Setting} {done : List Block} {b : Block} {L : Locals} {s : State Locals}
  {pools refs : ValueMap} {seeds : List TypedValue}

theorem ArchConfig.mem_of_instruction {config : ArchConfig} {name : String} {instr : Instruction}
    (h : config.instruction name = some instr) :
    instr ∈ config.instructions ∧ instr.name = name := by
  have hmem := List.mem_of_mem_getLast? (show _ ∈ _ from h)
  obtain ⟨hin, hname⟩ := List.mem_filter.mp hmem
  exact ⟨hin, by simpa using hname⟩

/-- Instruction selection keeps the state, and what it returns may be recorded. -/
theorem Working.populateBlockInstructions_spec (h : Working S done b L True s) :
    Ensures (fun _ => Moment S)
      (populateBlockInstructions (dominatorsOf S.dominators b) L.blockDefValues S.config) s
      (Produces S done b L) := by
  unfold populateBlockInstructions
  refine Ensures.pick (P := fun op => op ∈ Opcode.all) (Ensures.chooseUnwrap h.moment
    (fun _ _ => h.moment) fun op hop => ⟨rfl, hop⟩) fun op hop => ?_
  unfold populateInstruction
  cases hinstr : S.config.instruction op.name with
  | none => exact Ensures.panicWith h.moment
  | some instr =>
      obtain ⟨hmem, hname⟩ := ArchConfig.mem_of_instruction hinstr
      cases hmodes : instr.modes with
      | none =>
          simp only [hmodes]
          exact Ensures.pure (.nothing h)
      | some modes =>
          simp only [hmodes]
          rw [← bind_assoc]
          refine Ensures.pick (P := fun mode => mode ∈ modes) (Ensures.chooseUnwrap h.moment
            (fun _ _ => h.moment) fun mode hmode => ⟨rfl, hmode⟩) fun mode hmode => ?_
          exact h.populateOpcode_spec fun hok => hok op hop instr hmem hname modes hmodes mode hmode

/-- A block is being filled from the given pools; the values `seeds` were there from the start. -/
structure Gathering (S : Setting) (done : List Block) (b : Block) (pools refs : ValueMap)
    (seeds : List TypedValue) (s : State Locals) : Prop where
  working : Working S done b s.locals True s
  defs : s.locals.blockDefValues = pools
  refs : s.locals.blockRefValues = refs
  seeds : seeds ⊆ s.locals.defValues
  used : ∀ tv ∈ s.locals.refValues, S.pool pools b tv.ty ≠ []
  published : (pools.lookup S.entry).isSome

theorem Working.mem_blocks {ready : Prop} (h : Working S done b L ready s) :
    b ∈ S.start.layout.blocks := by
  obtain ⟨before, hpoints, -⟩ := h.cursor
  rw [← h.valid.frame.blocks]
  exact hpoints.mem

theorem Gathering.recorded (h : Gathering S done b pools refs seeds s) : S.Published s :=
  ⟨h.working.moment, by rw [h.defs]; exact h.published⟩

theorem Gathering.insertRefs_spec (h : Gathering S done b pools refs seeds s)
    {tvs : List TypedValue} (htvs : ∀ tv ∈ tvs, S.pool pools b tv.ty ≠ []) :
    Ensures (Stop S) (insertRefs tvs) s fun _ s' =>
      Gathering S done b pools refs seeds s' ∧ s'.func = s.func := by
  unfold insertRefs
  refine ensures_bind_locals ?_
  refine ensures_setLocals ⟨⟨h.working.with_locals rfl h.working.own, h.defs, h.refs, h.seeds,
    fun tv htv => ?_, h.published⟩, rfl⟩
  rcases ListEdit.mem_foldl_insert.mp htv with htv | htv
  · exact h.used tv htv
  · exact htvs tv htv

theorem Gathering.insertDef_spec (h : Gathering S done b pools refs seeds s) {tv : TypedValue}
    (htv : S.Recorded s.func b tv) :
    Ensures (Stop S) (insertDef tv) s fun _ => Gathering S done b pools refs seeds := by
  unfold insertDef
  refine ensures_bind_locals ?_
  refine ensures_setLocals ⟨h.working.with_locals rfl fun u hu => ?_, h.defs, h.refs,
    fun u hu => List.mem_insert_of_mem (h.seeds hu), h.used, h.published⟩
  rcases List.mem_insert_iff.mp hu with rfl | hu
  · exact htv
  · exact h.working.own u hu

/-- One round of the loop over a snippet. -/
theorem Gathering.populateOnce_spec (h : Gathering S done b pools refs seeds s) :
    Ensures (Stop S) (populateOnce (dominatorsOf S.dominators b) S.config) s fun _ =>
      Gathering S done b pools refs seeds := by
  unfold populateOnce
  refine ensures_bind_locals ?_
  refine Ensures.bind (h.working.populateBlockInstructions_spec.traced.weaken ?_) ?_
  · rintro e s' ⟨hmoment, draws, draws', hrun⟩
    exact ⟨hmoment, .inl ⟨b, h.working.mem_blocks, ⟨draws, s⟩, draws', ⟨h.recorded, _, h.working⟩,
      hrun⟩⟩
  · intro sel s' hp
    have hl := hp.working.locals
    have h' : Gathering S done b pools refs seeds s' := ⟨hl.symm ▸ hp.working, hl ▸ h.defs,
      hl ▸ h.refs, hl ▸ h.seeds, hl ▸ h.used, h.published⟩
    have hrefs := hp.refs
    rw [h.defs] at hrefs
    match sel with
    | none => exact Ensures.pure h'
    | some (none, none) => exact Ensures.pure h'
    | some (some tv, none) => exact h'.insertDef_spec (hp.recorded tv none rfl)
    | some (none, some tvs) =>
        exact (h'.insertRefs_spec (hrefs none tvs rfl)).bind fun _ _ h₂ => Ensures.pure h₂.1
    | some (some tv, some tvs) =>
        refine (h'.insertRefs_spec (hrefs _ tvs rfl)).bind ?_
        rintro - s₂ ⟨h₂, hfunc⟩
        exact h₂.insertDef_spec (by rw [hfunc]; exact hp.recorded tv _ rfl)

end Gather

/-! ## The condition of a branch -/

section Condition

variable {S : Setting} {done : List Block} {b : Block} {L : Locals} {s : State Locals}
  {f g : Function} {i : Inst}

theorem Skeleton.isBranch {entry exit : Block} (h : Skeleton f entry exit)
    (hi : i ∈ f.layout.insts b) : (f.instData i).isBranch = true := by
  obtain ⟨-, -, t, ht⟩ := h.lastInst_of_mem hi
  exact InstructionData.isBranch_of_branchOf ht

/-- The terminator of a block that is not done is its branch in the skeleton. -/
theorem Filling.branch_of_terminator {current : Block} {settled : Block → Prop} {pools : ValueMap}
    (h : Filling S done current f) (hvalid : Valid S settled f pools) (hb : b ∉ done)
    (hi : i ∈ f.layout.insts b) (ht : (f.instData i).opcode.isTerminator = true) :
    f.layout.lastInst b = some i ∧ S.start.layout.lastInst b = some i ∧
      f.instData i = S.start.instData i ∧ (f.instData i).isBranch = true := by
  have hstart := h.ended b i hi ht
  have hkept := h.kept b hb i hstart
  refine ⟨?_, (S.skeleton.lastInst_of_mem hstart).2.1, hkept, ?_⟩
  · obtain ⟨p, q, hsplit⟩ := List.append_of_mem hi
    obtain ⟨rfl, -⟩ := hvalid.ends b p i q hsplit ht
    rw [Layout.lastInst, hsplit, List.getLast?_concat]
  · rw [hkept]
    exact S.skeleton.isBranch hstart

/-- What finishing a block changes: its branch, and its parameters. -/
theorem Filling.finish (h : Filling S done b f) (hlayout : g.layout = f.layout)
    (hdata : ∀ i, i ∉ f.layout.insts b → g.instData i = f.instData i)
    (hop : ∀ i, (g.instData i).opcode = (f.instData i).opcode) (hcalls : CallsKept f g)
    (hparams : ∀ c ≠ b, g.blockParams c = f.blockParams c)
    (hb : b ≠ S.entry → g.blockParams b = []) (hnil : f.layout.insts b ≠ [])
    (hdecl : g.declaration = f.declaration) (hkeeps : Keeps S.base S.start f) (c : Block) :
    Filling S (b :: done) c g where
  -- `b` leaves the blocks to come: only its own branch and parameters may differ
  kept c hc i hi := by
    obtain ⟨hcb, hc⟩ := not_or.mp (mt List.mem_cons.mpr hc)
    rw [hdata i fun hib => hcb (f.layout.insts_disjoint c b i (hkeeps.insts c hi) hib)]
    exact h.kept c hc i hi
  untouched c hc _ := by
    obtain ⟨hcb, hc⟩ := not_or.mp (mt List.mem_cons.mpr hc)
    rw [hlayout, h.untouched c hc hcb]
  params c hne hc := by
    obtain ⟨hcb, hc⟩ := not_or.mp (mt List.mem_cons.mpr hc)
    rw [hparams c hcb, h.params c hne hc]
  params_done c hc hne := by
    by_cases hcb : c = b
    · subst hcb
      exact hb hne
    · rw [hparams c hcb]
      exact h.params_done c ((List.mem_cons.mp hc).resolve_left hcb) hne
  noArgs c t ht := by
    have hshape := hcalls c
    rw [ht, Option.map_some] at hshape
    obtain ⟨t', ht', heq⟩ := Option.map_eq_some_iff.mp hshape.symm
    have htargets : t'.targets = t.targets := congrArg Prod.snd heq
    exact htargets ▸ h.noArgs c t' ht'
  ended c i hi ht := by
    rw [hlayout] at hi
    rw [hop] at ht
    exact h.ended c i hi ht
  nonempty c hc := by
    rw [hlayout]
    rcases List.mem_cons.mp hc with rfl | hc
    · exact hnil
    · exact h.nonempty c hc
  uncalled := h.uncalled.edited hlayout hop hdecl

/-- A block that is not done has the condition of its branch as its only parameter, or none. -/
theorem Filling.params_cases {current : Block} {settled : Block → Prop} {pools : ValueMap}
    (h : Filling S done current f) (hvalid : Valid S settled f pools)
    (hblock : b ∈ S.start.layout.blocks) (hb : b ∉ done) (hne : b ≠ S.entry) :
    f.blockParams b = [] ∨ ∃ v, f.blockParams b = [v] ∧ v < S.base ∧
      (f.dfg.values.get v).source = .param b 0 ∧
        ∃ i, f.layout.lastInst b = some i ∧ (f.instData i).isBranch = true ∧
          (f.instData i).arguments ≠ [] := by
  rw [h.params b hne hb]
  refine (S.skeleton.condParam b hblock).imp_right ?_
  rintro ⟨v, t, hparams, hv, hdata, ht, hkind⟩
  refine ⟨v, hparams, hv, by rw [hvalid.frame.values v hv, hdata], ?_⟩
  obtain ⟨i, t', hi, hbr, hmap⟩ := Function.exists_of_terminator ht
  have hmem : i ∈ S.start.layout.insts b := List.mem_of_mem_getLast? hi
  have hlt := S.start.insts_lt b i hmem
  have hterm : (f.instData i).opcode.isTerminator = true := by
    rw [hvalid.frame.opcode i hlt]
    exact S.skeleton.isTerminator hmem
  obtain ⟨hlast, -, -, hbranch⟩ :=
    h.branch_of_terminator hvalid hb (hvalid.frame.insts b hmem) hterm
  refine ⟨i, hlast, hbranch, ?_⟩
  rw [h.kept b hb i hmem]
  -- a branch that is no jump has a condition
  cases hd : S.start.instData i with
  | jump c =>
      rw [hd, Function.branchOf, Option.some.injEq] at hbr
      subst hbr hmap
      exact absurd rfl hkind
  | brif v t e => exact List.cons_ne_nil _ _
  | branchTable v k => exact List.cons_ne_nil _ _
  | _ => simp [hd, Function.branchOf] at hbr

end Condition

/-- The visit of block `b` ends: its condition is chosen, and its parameter is gone. -/
structure Finished (S : Setting) (done : List Block) (b : Block) (s s' : State Locals) : Prop where
  valid : Valid S (· ∈ b :: done) s'.func s.locals.blockDefValues
  filling : ∀ c, Filling S (b :: done) c s'.func
  locals : s'.locals = s.locals
  layout : s'.func.layout = s.func.layout
  keeps : Keeps S.base s.func s'.func
  slots : s'.func.sizedStackSlots = s.func.sizedStackSlots
  params : s'.func.blockParams S.entry = s.func.blockParams S.entry

section Visit

variable {S : Setting} {done : List Block} {b : Block} {s : State Locals} {i : Inst}

/-- The branch of the entry block has no condition. -/
theorem Filling.ne_entry {current : Block} {settled : Block → Prop} {pools : ValueMap}
    {f : Function} (h : Filling S done current f) (hvalid : Valid S settled f pools)
    (hb : b ∉ done) (hi : i ∈ f.layout.insts b)
    (ht : (f.instData i).opcode.isTerminator = true) (hargs : (f.instData i).arguments ≠ []) :
    b ≠ S.entry := by
  rintro rfl
  obtain ⟨-, hlast, hdata, -⟩ := h.branch_of_terminator hvalid hb hi ht
  obtain ⟨d, hd⟩ := S.skeleton.entry_jump
  obtain ⟨j, t, hj, hbr, hmap⟩ := Function.exists_of_terminator hd
  obtain rfl : j = i := Option.some.inj (hj.symm.trans hlast)
  rw [hdata] at hargs
  cases hjd : S.start.instData j with
  | jump c => exact hargs (by rw [hjd]; rfl)
  | brif v x y =>
      rw [hjd, Function.branchOf, Option.some.injEq] at hbr
      subst hbr
      cases hmap
  | branchTable v k =>
      rw [hjd, Function.branchOf, Option.some.injEq] at hbr
      subst hbr
      cases hmap
  | _ => simp [hjd, Function.branchOf] at hbr

/-- A new condition, from the pool of the block. -/
theorem ensures_replaceCondition {data : Value → InstructionData}
    (hvalid : Valid S (· ∈ done) s.func s.locals.blockDefValues)
    (hfilling : Filling S done b s.func)
    (hpub : (s.locals.blockDefValues.lookup S.entry).isSome)
    (hblock : b ∈ S.start.layout.blocks) (hb : b ∉ done) (hi : i ∈ s.func.layout.insts b)
    (hterm : (s.func.instData i).opcode.isTerminator = true)
    (hpinned : (s.func.instData i).pinned = false)
    (hone : (s.func.instData i).arguments.length = 1)
    (hdata : ∀ v, data v = (s.func.instData i).withArguments [v]) :
    Ensures (Stop S) (replaceCondition (dominatorsOf S.dominators b) b i data) s fun _ =>
      Finished S done b s := by
  have hrecorded : S.Published s := ⟨⟨_, hvalid⟩, hpub⟩
  have hne : b ≠ S.entry := hfilling.ne_entry hvalid hb hi hterm
    (List.ne_nil_of_length_eq_add_one hone)
  unfold replaceCondition
  refine ensures_bind_locals ?_
  refine Ensures.pick (ensures_selectValue (S.pool s.locals.blockDefValues b .i32)
    (hrecorded.stop fun _ => rfl) fun hnil _ => hrecorded.stop fun hplenty => ?_) fun v hv => ?_
  · exact absurd hnil (hvalid.pool_ne_nil hpub hblock (hplenty.root .i32 (by decide)))
  have huse := hvalid.mayUse hv
  have hlt : v < s.func.dfg.values.len := by
    obtain ⟨c, hc, -⟩ := huse.usable
    exact hc.lt
  have hex : s.func.Exchange i [v] := by
    refine ⟨hone.symm, fun hp => ?_, fun _ u hu => List.mem_singleton.mp hu ▸ hlt, fun hnt => ?_⟩
    · rw [hpinned] at hp
      cases hp
    · rw [hterm] at hnt
      cases hnt
  have hkeeps : Keeps S.base s.func (s.func.withOperands i [v]) := Function.keeps_withOperands hex
  have hvalid' : Valid S (· ∈ b :: done) (s.func.withOperands i [v]) s.locals.blockDefValues := by
    refine hvalid.withOperands hi hex (fun c hc => ?_) fun before after hsplit u hu => .inr ?_
    · exact (List.mem_cons.mp hc).symm.imp_right fun h => ⟨h, hterm⟩
    · rw [List.mem_singleton.mp hu]
      exact ⟨huse.new, hvalid.available_at_end hsplit hterm huse.usable⟩
  -- the parameter that stood for the condition goes, if there is one
  have hfinish : ∀ g : Function, SameCode (s.func.withOperands i [v]) g →
      (∀ c ≠ b, g.blockParams c = s.func.blockParams c) → g.blockParams b = [] →
        g.declaration = s.func.declaration → ∀ c, Filling S (b :: done) c g := by
    intro g hcode hparams hbparams hdecl
    refine hfilling.finish (by rw [hcode.layout]; rfl) (fun j hj => ?_) (fun j => ?_) (fun c => ?_)
      hparams (fun _ => hbparams) (List.ne_nil_of_mem hi) hdecl hvalid.frame
    · have hji : j ≠ i := fun h => hj (h ▸ hi)
      rw [hcode.instData, Function.withOperands_instData_of_ne hji]
    · rw [hcode.instData, Function.withOperands_opcode]
    · rw [hcode.branch]
      exact Function.callsKept_withOperands _ _ _ c
  refine ensures_bind_func ?_
  rw [hdata v]
  refine Ensures.bind (ensures_setFunc
    (Q := fun _ s' => s' = { s with func := s.func.withOperands i [v] }) rfl) ?_
  rintro - _ rfl
  refine ensures_bind_func ?_
  have hparams_eq : (s.func.withOperands i [v]).blockParams b = s.func.blockParams b := rfl
  rcases hfilling.params_cases hvalid hblock hb hne with hnil | ⟨p, hp, hpbase, hsource, -⟩
  · rw [hparams_eq, hnil]
    exact Ensures.pure ⟨hvalid', hfinish _ ⟨rfl, rfl, rfl, rfl⟩ (fun _ _ => rfl) hnil rfl, rfl,
      rfl, hkeeps, rfl, rfl⟩
  · rw [hparams_eq, hp]
    unfold removeBlockParam
    refine ensures_bind_func ?_
    rw [show ((s.func.withOperands i [v]).dfg.values.get p).source = .param b 0 from hsource]
    have hcode := (s.func.withOperands i [v]).sameCode_removeBlockParam b 0
    have hkeeps₂ : Keeps S.base (s.func.withOperands i [v])
        ((s.func.withOperands i [v]).removeBlockParam b 0) :=
      Function.keeps_removeBlockParam _ _ hp hpbase
    refine ensures_setFunc ⟨hvalid'.sameCode hkeeps₂ hcode, hfinish _ hcode (fun c hc => ?_) ?_ rfl,
      rfl, rfl, hkeeps.trans hkeeps₂, rfl, PrimaryMap.set_get_of_ne _ _ hne.symm⟩
    · exact PrimaryMap.set_get_of_ne _ _ hc
    · refine (PrimaryMap.set_get_self _ _ _).trans ?_
      rw [hparams_eq, hp]
      rfl

/-- **The condition of a block.** Afterwards the block is done. -/
theorem ensures_setCondition (hvalid : Valid S (· ∈ done) s.func s.locals.blockDefValues)
    (hfilling : Filling S done b s.func)
    (hpub : (s.locals.blockDefValues.lookup S.entry).isSome)
    (hblock : b ∈ S.start.layout.blocks) (hb : b ∉ done)
    (hi : s.func.layout.lastInst b = some i) (hpos : s.pos = .at_ i) :
    Ensures (Stop S) (setCondition (dominatorsOf S.dominators b) b) s fun _ =>
      Finished S done b s := by
  have hmem : i ∈ s.func.layout.insts b := List.mem_of_mem_getLast? hi
  unfold setCondition currentInst
  rw [bind_assoc]
  refine Ensures.pick (P := fun p => p = .at_ i) (ensures_position ⟨rfl, hpos⟩) ?_
  rintro _ rfl
  refine Ensures.pick (P := fun j => i = j) (Ensures.pure ⟨rfl, rfl⟩) ?_
  rintro _ rfl
  refine ensures_bind_func ?_
  -- without a condition to replace, the block is done as it is
  have hplain : (s.func.instData i).arguments = [] ∨ (s.func.instData i).isBranch = false →
      Finished S done b s s := by
    intro hcase
    have hargs : ∀ j ∈ s.func.layout.insts b, (s.func.instData j).opcode.isTerminator = true →
        (s.func.instData j).arguments = [] := by
      intro j hj ht
      obtain ⟨hlast, -, -, hbr⟩ := hfilling.branch_of_terminator hvalid hb hj ht
      obtain rfl : i = j := Option.some.inj (hi.symm.trans hlast)
      exact hcase.resolve_right (by simp [hbr])
    refine ⟨hvalid.settle (fun c hc => (List.mem_cons.mp hc).symm) hargs, ?_, rfl, rfl,
      Keeps.refl _ _, rfl, rfl⟩
    refine hfilling.finish rfl (fun _ _ => rfl) (fun _ => rfl) (fun _ => rfl) (fun _ _ => rfl) ?_
      (List.ne_nil_of_mem hmem) rfl hvalid.frame
    intro hne
    refine (hfilling.params_cases hvalid hblock hb hne).resolve_right ?_
    rintro ⟨p, -, -, -, j, hj, hbr, hjargs⟩
    obtain rfl : i = j := Option.some.inj (hi.symm.trans hj)
    exact hjargs (hcase.resolve_right (by simp [hbr]))
  cases hd : s.func.instData i with
  | brif v t e =>
      exact ensures_replaceCondition hvalid hfilling hpub hblock hb hmem (by rw [hd]; rfl)
        (by rw [hd]; rfl) (by rw [hd]; rfl) fun u => by rw [hd]; rfl
  | branchTable v k =>
      exact ensures_replaceCondition hvalid hfilling hpub hblock hb hmem (by rw [hd]; rfl)
        (by rw [hd]; rfl) (by rw [hd]; rfl) fun u => by rw [hd]; rfl
  | jump c => exact Ensures.pure (hplain (.inl (by rw [hd]; rfl)))
  | _ => exact Ensures.pure (hplain (.inr (by rw [hd]; rfl)))

end Visit

/-! ## The visit of a block -/

/-- The first pass between two visits. -/
structure Filled (S : Setting) (done : List Block) (s : State Locals) : Prop where
  valid : Valid S (· ∈ done) s.func s.locals.blockDefValues
  filling : ∀ b, Filling S done b s.func
  seeded : done ≠ [] → S.Seeded s.func (s.func.layout.insts S.entry)
  slots : done = [] → s.func.sizedStackSlots.len = 0
  defs : ∀ b, (s.locals.blockDefValues.lookup b).isSome ↔ b ∈ done
  refs : ∀ b ∈ done, ∃ tvs, s.locals.blockRefValues.lookup b = some tvs ∧
    (b ≠ S.entry → ∀ tv ∈ tvs, S.Supplied s.locals.blockDefValues b tv.ty)

/-- The visit of block `b` once it has its instructions, before its condition is chosen. -/
structure Entered (S : Setting) (done : List Block) (b : Block) (s : State Locals) : Prop where
  working : Working S done b s.locals True s
  published : (s.locals.blockDefValues.lookup S.entry).isSome
  nonempty : s.func.layout.insts b ≠ []
  defs : ∀ c, (s.locals.blockDefValues.lookup c).isSome ↔ c ∈ b :: done
  refs : ∀ c ∈ b :: done, ∃ tvs, s.locals.blockRefValues.lookup c = some tvs ∧
    (c ≠ S.entry → ∀ tv ∈ tvs, S.Supplied s.locals.blockDefValues c tv.ty)

section Visit

variable {S : Setting} {done : List Block} {b : Block} {s : State Locals} {pools refs : ValueMap}
  {seeds : List TypedValue}

theorem Filled.insts_eq (h : Filled S done s) (hb : b ∉ done) :
    s.func.layout.insts b = S.start.layout.insts b :=
  (h.filling (b + 1)).untouched b hb (Nat.ne_of_lt (Nat.lt_succ_self b))

theorem Working.seeded_insts {L : Locals} (h : Working S done b L True s) :
    S.Seeded s.func (s.func.layout.insts S.entry) := by
  obtain ⟨before, hpoints, -, hready⟩ := h.cursor
  refine (hready trivial).keeps (Keeps.refl _ _) rfl ?_
  unfold Setting.prior
  split
  · rename_i hb
    rw [← hb, hpoints.split]
    exact List.subset_append_left _ _
  · exact List.Subset.refl _

/-- The values that a block has defined and used are published. -/
theorem Gathering.publish_spec (h : Gathering S done b pools refs seeds s)
    (hstock : b = S.entry → ∀ t ∈ S.stock, ∃ v, ⟨v, t⟩ ∈ seeds) :
    Ensures (Stop S) (do publishDefs b; publishRefs b) s fun _ s' =>
      Working S done b s'.locals True s' ∧
        s'.locals.blockDefValues = pools.insert b s.locals.defValues ∧
          s'.locals.blockRefValues = refs.insert b s.locals.refValues := by
  unfold publishDefs publishRefs
  simp only [bind_assoc]
  refine ensures_bind_locals ?_
  have hw : Working S done b _ True { s with locals := { s.locals with
      blockDefValues := s.locals.blockDefValues.insert b s.locals.defValues } } :=
    h.working.publish rfl rfl fun hb t ht => by
      obtain ⟨v, hv⟩ := hstock hb t ht
      exact ⟨v, h.seeds hv⟩
  refine ensures_bind_setLocals ?_
  refine ensures_bind_locals ?_
  refine ensures_setLocals ⟨hw.with_locals rfl hw.own, ?_, ?_⟩
  · exact congrArg (AList.insert b s.locals.defValues) h.defs
  · exact congrArg (AList.insert b s.locals.refValues) h.refs

/-- The end of a visit. The parameters of the entry block stay. -/
theorem Entered.finish_spec (h : Entered S done b s) (hnew : b ∉ done) :
    Ensures (Stop S) (do
      gotoLastInst b
      setCondition (dominatorsOf S.dominators b) b) s fun _ s' => Filled S (b :: done) s' ∧
        Keeps S.base s.func s'.func ∧
          s'.func.blockParams S.entry = s.func.blockParams S.entry := by
  obtain ⟨i, hi⟩ : ∃ i, s.func.layout.lastInst b = some i :=
    ⟨_, List.getLast?_eq_some_getLast h.nonempty⟩
  have hw := h.working
  refine Ensures.bind (ensures_gotoLastInst hi
    (Q := fun _ s' => s' = { s with pos := .at_ i }) rfl) ?_
  rintro - _ rfl
  refine (ensures_setCondition (s := { s with pos := .at_ i }) hw.valid hw.filling h.published
    hw.mem_blocks hnew hi rfl).mono ?_
  intro _ s' hf
  refine ⟨⟨?_, hf.filling, fun _ => ?_, fun hnil => absurd hnil (List.cons_ne_nil _ _), ?_, ?_⟩,
    hf.keeps, hf.params⟩
  · rw [hf.locals]
    exact hf.valid
  · rw [hf.layout]
    exact hw.seeded_insts.keeps hf.keeps hf.slots (List.Subset.refl _)
  · rw [hf.locals]
    exact h.defs
  · rw [hf.locals]
    exact h.refs

/-- The visit of a block once its entry values are there. -/
theorem Gathering.visit_spec (h : Gathering S done b pools refs seeds s) (hnew : b ∉ done)
    (hstock : b = S.entry → ∀ t ∈ S.stock, ∃ v, ⟨v, t⟩ ∈ seeds)
    (hdefs : ∀ c, c ≠ b → ((pools.lookup c).isSome ↔ c ∈ done))
    (hown : b ≠ S.entry → pools.lookup b = none)
    (hold : ∀ tvs, pools.lookup b = some tvs → tvs ⊆ seeds)
    (hrefs : ∀ c ∈ done, ∃ tvs, refs.lookup c = some tvs ∧
      (c ≠ S.entry → ∀ tv ∈ tvs, S.Supplied pools c tv.ty)) :
    Ensures (Stop S) (do
      let _ ← genRange 0 5
      populateNode S.config (dominatorsOf S.dominators b) b
      if ((← func).layout.lastInst b).isNone then
        let _ ← ins (.fixed .nop [])) s fun _ => Entered S done b := by
  refine Ensures.pick (P := fun _ => True) (Ensures.genRange (h.recorded.stop fun _ => rfl)
    (fun hle => by omega) fun _ _ _ => ⟨rfl, trivial⟩) fun _ _ => ?_
  -- twenty draws of an instruction, with the same invariant before and after each
  unfold populateNode
  rw [bind_assoc]
  refine Ensures.bind (Ensures.forM (P := fun _ => Gathering S done b pools refs seeds) h
    fun _ _ _ h' => h'.populateOnce_spec) ?_
  intro _ s₁ h₁
  refine Ensures.bind (h₁.publish_spec hstock) ?_
  rintro - s₂ ⟨h₂, hpools₂, hrefs₂⟩
  -- publishing the pool of `b` loses nothing that was published before
  have hgrows : Grows pools (pools.insert b s₁.locals.defValues) :=
    .insert fun tvs htvs => List.Subset.trans (hold tvs htvs) h₁.seeds
  have hpub₂ : (s₂.locals.blockDefValues.lookup S.entry).isSome := by
    obtain ⟨tvs, htvs⟩ := Option.isSome_iff_exists.mp h.published
    obtain ⟨tvs', htvs', -⟩ := hgrows S.entry tvs htvs
    rw [hpools₂, htvs']
    rfl
  have hdefs₂ : ∀ c, (s₂.locals.blockDefValues.lookup c).isSome ↔ c ∈ b :: done := by
    intro c
    rw [hpools₂, List.mem_cons]
    by_cases hc : c = b
    · rw [hc, AList.lookup_insert]
      simp
    · rw [AList.lookup_insert_ne hc, hdefs c hc]
      simp [hc]
  -- a used value is supplied by a dominator, and pools only grow
  have hrefs₂ : ∀ c ∈ b :: done, ∃ tvs, s₂.locals.blockRefValues.lookup c = some tvs ∧
      (c ≠ S.entry → ∀ tv ∈ tvs, S.Supplied s₂.locals.blockDefValues c tv.ty) := by
    intro c hc
    rw [hpools₂, hrefs₂]
    by_cases hcb : c = b
    · subst hcb
      refine ⟨_, AList.lookup_insert _, fun hne tv htv => ?_⟩
      exact (Setting.supplied_of_pool (h₁.used tv htv) (hown hne)).grows hgrows
    · obtain ⟨tvs, htvs, hsupplied⟩ := hrefs c ((List.mem_cons.mp hc).resolve_left hcb)
      exact ⟨tvs, by rw [AList.lookup_insert_ne hcb, htvs],
        fun hne tv htv => (hsupplied hne tv htv).grows hgrows⟩
  refine ensures_bind_func ?_
  -- a block that is still empty gets a `nop`
  refine Ensures.ite (fun _ => ?_) fun hsome => ?_
  · refine Ensures.bind (h₂.ins_spec (.fixed .nop []) (fun _ => rfl) rfl
      (fun _ hv => absurd hv List.not_mem_nil) (.of_not rfl)) ?_
    rintro i s₃ ⟨-, h₃, -, before, after, he⟩
    have hl := h₃.locals
    refine Ensures.pure ⟨hl.symm ▸ h₃, hl ▸ hpub₂, ?_, hl ▸ hdefs₂, hl ▸ hrefs₂⟩
    rw [he.insts_self]
    exact List.append_ne_nil_of_right_ne_nil _ (List.cons_ne_nil _ _)
  · refine Ensures.pure ⟨h₂, hpub₂, fun hnil => hsome ?_, hdefs₂, hrefs₂⟩
    rw [Layout.lastInst, hnil]
    rfl

end Visit

/-! ## The pass -/

section Pass

variable {S : Setting} {done : List Block} {b : Block} {s : State Locals}

/-- A visit starts at the first insertion point of its block, with empty pools of its own. -/
theorem Filled.start_rule {k : Unit → M Locals Unit} {I : Halt → State Locals → Prop}
    {Q : Unit → State Locals → Prop} (h : Filled S done s) (hb : b ∈ S.start.layout.blocks)
    (hnew : b ∉ done)
    (hk : ∀ s', s'.func = s.func → s'.locals = { s.locals with defValues := [], refValues := [] } →
      Points s' b [] (S.start.layout.insts b) → Ensures I (k ()) s' Q) :
    Ensures I (gotoFirstInsertionPoint b >>= fun _ => locals >>= fun x =>
      setLocals { x with defValues := [], refValues := [] } >>= k) s Q := by
  refine Ensures.bind (ensures_gotoFirstInsertionPoint (Q := fun _ s' => s'.func = s.func ∧
    s'.locals = s.locals ∧ Points s' b [] (S.start.layout.insts b)) ?_ ?_) ?_
  · rw [h.valid.frame.blocks]
    exact hb
  · intro p hp
    rw [h.insts_eq hnew] at hp
    exact ⟨rfl, rfl, hp⟩
  rintro - s₁ ⟨hfunc, hlocals, hpoints⟩
  refine ensures_bind_locals (ensures_bind_setLocals (hk _ hfunc ?_ ?_))
  · rw [hlocals]
  · exact ⟨hpoints.mem, hpoints.split, hpoints.pos⟩

/-- The visit of the entry block, which comes first. -/
theorem Filled.enterFirst_spec (h : Filled S [] s) :
    Ensures (Stop S) (enterBlock S.config S.start.signature.params S.dominators true S.entry) s
      fun _ => Entered S [] S.entry := by
  unfold enterBlock
  refine h.start_rule Setting.entry_mem List.not_mem_nil fun s₁ hfunc hlocals hpoints => ?_
  refine Ensures.ite (fun _ => ?_) fun hf => absurd rfl hf
  -- the slots and the constants are made first, and only in this block
  have hseeding : Seeding S s₁.locals 0 s₁ := by
    refine ⟨⟨?_, rfl, ?_, ?_, ?_⟩, ?_, ?_, fun slot hslot => absurd hslot (by omega), rfl, rfl, rfl⟩
    · rw [hfunc, hlocals]
      exact h.valid
    · rw [hfunc]
      exact h.filling S.entry
    · exact ⟨[], hpoints, fun _ hi => absurd hi List.not_mem_nil, fun hf => hf.elim⟩
    · rw [hlocals]
      exact fun tv htv => absurd htv List.not_mem_nil
    · rw [hlocals]
      exact fun tv htv => absurd htv List.not_mem_nil
    · rw [hfunc]
      exact h.slots rfl
  refine Ensures.bind (hseeding.seedEntry_spec.traced.weaken ?_) ?_
  · rintro e s' ⟨⟨hmoment, hstarved⟩, draws, draws', hrun⟩
    exact ⟨hmoment, .inr ⟨hstarved, .inl ⟨⟨draws, _⟩, draws', hrun⟩⟩⟩
  rintro - s₂ ⟨h₂, hpools, hrefs, hused, hstock⟩
  -- they are what the block can draw from, published before the first draw
  have hgather : Gathering S [] S.entry s₂.locals.blockDefValues s₂.locals.blockRefValues
      s₂.locals.defValues s₂ := by
    refine ⟨h₂, rfl, rfl, List.Subset.refl _, ?_, ?_⟩
    · rw [hused, hlocals]
      exact fun tv htv => absurd htv List.not_mem_nil
    · rw [hpools, AList.lookup_insert]
      rfl
  refine hgather.visit_spec List.not_mem_nil (fun _ => hstock) ?_ (fun hne => absurd rfl hne) ?_
    fun c hc => absurd hc List.not_mem_nil
  · intro c hc
    rw [hpools, AList.lookup_insert_ne hc, hlocals]
    exact h.defs c
  · intro tvs htvs
    rw [hpools, AList.lookup_insert, Option.some.injEq] at htvs
    rw [htvs]
    exact List.Subset.refl _

/-- The visit of any other block. -/
theorem Filled.enterNext_spec (h : Filled S done s) (hb : b ∈ S.start.layout.blocks)
    (hnew : b ∉ done) (hentry : S.entry ∈ done) :
    Ensures (Stop S) (enterBlock S.config S.start.signature.params S.dominators false b) s
      fun _ => Entered S done b := by
  have hne : b ≠ S.entry := fun he => hnew (he ▸ hentry)
  have hnone : s.locals.blockDefValues.lookup b = none :=
    Option.not_isSome_iff_eq_none.mp fun hc => hnew ((h.defs b).mp hc)
  unfold enterBlock
  refine h.start_rule hb hnew fun s₁ hfunc hlocals hpoints => ?_
  refine Ensures.ite (fun hf => by cases hf) fun _ => ?_
  have hgather : Gathering S done b s.locals.blockDefValues s.locals.blockRefValues [] s₁ := by
    refine ⟨⟨?_, rfl, ?_, ?_, ?_⟩, by rw [hlocals], by rw [hlocals], List.nil_subset _, ?_,
      (h.defs S.entry).mpr hentry⟩
    · rw [hfunc, hlocals]
      exact h.valid
    · rw [hfunc]
      exact h.filling b
    · refine ⟨[], hpoints, fun _ hi => absurd hi List.not_mem_nil, fun _ => ?_⟩
      -- nothing stands before the cursor yet: what there is comes from the entry block
      rw [hfunc, Setting.prior, if_neg hne]
      exact h.seeded (List.ne_nil_of_mem hentry)
    · rw [hlocals]
      exact fun tv htv => absurd htv List.not_mem_nil
    · rw [hlocals]
      exact fun tv htv => absurd htv List.not_mem_nil
  exact hgather.visit_spec hnew (fun he => absurd he hne) (fun c _ => h.defs c) (fun _ => hnone)
    (fun tvs htvs => by rw [hnone] at htvs; cases htvs) h.refs

/-- The order in which the blocks are visited. -/
def Setting.order (S : Setting) : List Block := S.start.dfsOrder S.entry

theorem Setting.mem_order : b ∈ S.order ↔ b ∈ S.start.layout.blocks := by
  rw [Setting.order, Function.mem_dfsOrder]
  refine ⟨fun hreach => ?_, fun hb => ?_⟩
  · rcases ReflTransGen.cases_tail hreach with rfl | ⟨p, -, he⟩
    · exact Setting.entry_mem
    · exact (S.skeleton.flow.edge_mem p b he).2
  · exact S.skeleton.flow.reach b hb

/-- A visit: the block is entered, and its condition is chosen. -/
theorem ensures_fillBlock {R : State Locals → Prop} {isFirst : Bool}
    (hkeep : ∀ s s', R s → Keeps S.base s.func s'.func →
      s'.func.blockParams S.entry = s.func.blockParams S.entry → R s')
    (henter : Ensures (Stop S) (enterBlock S.config S.start.signature.params S.dominators isFirst b)
      s fun _ s' => Entered S done b s' ∧ R s') (hnew : b ∉ done) :
    Ensures (Stop S) (fillBlock S.config S.start.signature.params S.dominators isFirst b) s
      fun _ s' => Filled S (b :: done) s' ∧ R s' := by
  unfold fillBlock
  refine Ensures.bind henter fun _ s₁ ⟨h₁, hR⟩ => ?_
  exact (h₁.finish_spec hnew).mono fun _ s₂ ⟨h₂, hkeeps, hparams⟩ =>
    ⟨h₂, hkeep s₁ s₂ hR hkeeps hparams⟩

/-- **The first pass.** Every block ends up done, and what the visits keep holds afterwards. -/
theorem Setting.fillPass_rule {R : State Locals → Prop}
    (hfirst : Ensures (Stop S)
      (fillBlock S.config S.start.signature.params S.dominators true S.entry) s
      fun _ s' => Filled S [S.entry] s' ∧ R s')
    (hnext : ∀ {done : List Block} {b : Block} {s : State Locals}, Filled S done s → R s →
      b ∈ S.start.layout.blocks → b ∉ done → S.entry ∈ done → Ensures (Stop S)
        (fillBlock S.config S.start.signature.params S.dominators false b) s
        fun _ s' => Filled S (b :: done) s' ∧ R s') :
    Ensures (Stop S) (S.order.zipIdx.forM fun (node, i) =>
      fillBlock S.config S.start.signature.params S.dominators (i = 0) node) s
      fun _ s' => (∃ done, Filled S done s' ∧ ∀ b ∈ S.start.layout.blocks, b ∈ done) ∧ R s' := by
  obtain ⟨rest, hrest⟩ : ∃ rest, S.order = S.entry :: rest := by
    have hhead := S.start.dfsOrder_head S.entry
    exact List.head?_eq_some_iff.mp hhead
  have hnodup : (S.entry :: rest).Nodup := hrest ▸ S.start.dfsOrder_nodup S.entry
  have hmem : ∀ c, c ∈ S.entry :: rest ↔ c ∈ S.start.layout.blocks := by
    intro c
    rw [← hrest]
    exact Setting.mem_order
  rw [hrest, List.zipIdx_cons]
  refine Ensures.bind hfirst ?_
  rintro - s₁ ⟨h₁, hR₁⟩
  -- the blocks that are done and those still to come make up the order
  refine (Ensures.forM (P := fun l s' => R s' ∧ ∃ done, Filled S done s' ∧ S.entry ∈ done ∧
    (l.map Prod.fst).Nodup ∧ (∀ p ∈ l, p.2 ≠ 0 ∧ p.1 ∈ S.start.layout.blocks ∧ p.1 ∉ done) ∧
      ∀ c ∈ S.start.layout.blocks, c ∈ done ∨ c ∈ l.map Prod.fst) ?_ ?_).mono ?_
  · refine ⟨hR₁, [S.entry], h₁, List.mem_singleton_self _, ?_, ?_, ?_⟩
    · rw [List.zipIdx_map_fst]
      exact (List.nodup_cons.mp hnodup).2
    · intro p hp
      have hfst : p.1 ∈ rest := List.zipIdx_map_fst 1 rest ▸ List.mem_map_of_mem hp
      refine ⟨?_, (hmem p.1).mp (List.mem_cons_of_mem _ hfst), fun hc => ?_⟩
      · have := List.le_snd_of_mem_zipIdx hp
        omega
      · rw [List.mem_singleton.mp hc] at hfst
        exact (List.nodup_cons.mp hnodup).1 hfst
    · intro c hc
      rw [List.zipIdx_map_fst]
      exact (List.mem_cons.mp ((hmem c).mpr hc)).imp_left List.mem_singleton.mpr
  · rintro ⟨b, i⟩ l s' ⟨hR, done, h', hentry, hl, hp, hcover⟩
    obtain ⟨hi, hb, hnew⟩ := hp (b, i) List.mem_cons_self
    obtain ⟨hbl, hl⟩ := List.nodup_cons.mp hl
    have hfirst : decide (i = 0) = false := decide_eq_false hi
    simp only [hfirst]
    refine (hnext h' hR hb hnew hentry).mono fun _ s'' ⟨h'', hR''⟩ => ?_
    refine ⟨hR'', b :: done, h'', List.mem_cons_of_mem b hentry, hl, fun p hpl => ?_,
      fun c hc => ?_⟩
    · obtain ⟨hne, hblock, hnot⟩ := hp p (List.mem_cons_of_mem _ hpl)
      refine ⟨hne, hblock, fun hc => ?_⟩
      rcases List.mem_cons.mp hc with heq | hc
      · have hmap : p.1 ∈ l.map Prod.fst := List.mem_map_of_mem hpl
        exact hbl (heq ▸ hmap)
      · exact hnot hc
    · rcases hcover c hc with hd | hr
      · exact .inl (List.mem_cons_of_mem b hd)
      · refine (List.mem_cons.mp hr).imp_left ?_
        rintro rfl
        exact List.mem_cons_self
  · rintro - s' ⟨hR, done, h', -, -, -, hcover⟩
    exact ⟨⟨done, h', fun c hc => (hcover c hc).resolve_right List.not_mem_nil⟩, hR⟩

theorem Filled.fillPass_spec (h : Filled S [] s) :
    Ensures (Stop S) (S.order.zipIdx.forM fun (node, i) =>
      fillBlock S.config S.start.signature.params S.dominators (i = 0) node) s
      fun _ s' => ∃ done, Filled S done s' ∧ ∀ b ∈ S.start.layout.blocks, b ∈ done := by
  refine (S.fillPass_rule (R := fun _ => True) ?_ fun h' _ hb hnew hentry => ?_).mono
    fun _ _ => And.left
  · exact ensures_fillBlock (fun _ _ _ _ _ => trivial)
      (h.enterFirst_spec.mono fun _ _ h' => ⟨h', trivial⟩) List.not_mem_nil
  · exact ensures_fillBlock (fun _ _ _ _ _ => trivial)
      ((h'.enterNext_spec hb hnew hentry).mono fun _ _ h' => ⟨h', trivial⟩) hnew

end Pass

end Clir
