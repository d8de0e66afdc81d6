import Clir.Cg.Guarantees
import Clir.Gen.Interface
import Clir.Gen.Safety
import Clir.Run.Safety

set_option autoImplicit false

/-! # Running what is generated

The functions of a generated program are executable, its calls are linked, and with an accepted
config its accesses are confined. So whatever the values are, the interpreter reaches none of its
assertions on a generated program: it stops because of a value, or at something it does not
implement. It calls no deeper than the call graph.
-/

namespace Clir

open Cmd Graph Interpreter

/-! ## Finished functions -/

theorem InstructionData.leaves_of_isBranch {d : InstructionData} (h : d.isBranch = true) :
    d.leaves = true := by
  cases d with
  | jump | brif | branchTable => rfl
  | _ => cases h

theorem InstructionData.isTerminator_of_leaves {d : InstructionData} (h : d.leaves = true) :
    d.opcode.isTerminator = true := by
  cases d with
  | jump | brif | branchTable => rfl
  | multiAry op vs =>
      obtain rfl : op = .return_ := of_decide_eq_true h
      rfl
  | _ => cases h

/-- The exit block ends in a return of as many values as the signature has. -/
def Setting.ReturnsAll (S : Setting) (f : Function) : Prop :=
  ∃ i vs, f.layout.lastInst S.exit = some i ∧ f.instData i = .multiAry .return_ vs ∧
    vs.length = f.signature.returns.length

namespace Complete

variable {S : Setting} {f : Function} {pools : ValueMap} {b : Block} {i : Inst}

theorem mem_blocks (h : Complete S f pools) (hi : i ∈ f.layout.insts b) :
    b ∈ S.start.layout.blocks :=
  h.valid.frame.blocks ▸ Layout.mem_blocks_of_mem_insts hi

/-- A block other than the exit block ends in a branch. -/
theorem isBranch_of_ne (h : Complete S f pools) (hb : b ∈ S.start.layout.blocks)
    (hne : b ≠ S.exit) : ∃ i, f.layout.lastInst b = some i ∧ (f.instData i).isBranch = true := by
  obtain ⟨t, ht⟩ := S.skeleton.branch b hb hne
  have hshape := h.valid.frame.shape b
  rw [ht, Option.map_some] at hshape
  obtain ⟨t', ht', -⟩ := Option.map_eq_some_iff.mp hshape
  obtain ⟨i, t'', hi, hbr, -⟩ := Function.exists_of_terminator ht'
  exact ⟨i, hi, InstructionData.isBranch_of_branchOf hbr⟩

theorem leaves (h : Complete S f pools) (hret : S.ReturnsAll f) (hb : b ∈ S.start.layout.blocks) :
    ∃ before i, f.layout.insts b = before ++ [i] ∧ (f.instData i).leaves = true ∧
      ∀ j ∈ before, (f.instData j).leaves = false := by
  have hlast : ∃ i, f.layout.lastInst b = some i ∧ (f.instData i).leaves = true := by
    by_cases hne : b = S.exit
    · obtain ⟨i, vs, hi, hdata, -⟩ := hret
      exact ⟨i, hne ▸ hi, by rw [hdata]; rfl⟩
    · obtain ⟨i, hi, hbr⟩ := h.isBranch_of_ne hb hne
      exact ⟨i, hi, InstructionData.leaves_of_isBranch hbr⟩
  obtain ⟨i, hi, hleaves⟩ := hlast
  obtain ⟨before, hsplit, hbefore⟩ := h.valid.terminated_once hi
  refine ⟨before, i, hsplit, hleaves, fun j hj => Bool.eq_false_iff.mpr fun hj' => ?_⟩
  have := hbefore j hj
  rw [InstructionData.isTerminator_of_leaves hj'] at this
  cases this

theorem tables (h : Complete S f pools) (hi : i ∈ f.layout.insts b) {v : Value} {k : JumpTable}
    (hdata : f.instData i = .branchTable v k) : k < f.dfg.jumpTables.len := by
  obtain ⟨hlast, -⟩ := h.valid.setting_ends b i hi (by rw [hdata]; rfl)
  have htable := Function.tableOf_eq_some.mpr ⟨i, v, hlast, hdata⟩
  rw [h.valid.frame.tableOf] at htable
  rw [h.valid.frame.tables_len]
  exact S.skeleton.tables b k htable

theorem destinations (h : Complete S f pools) (hi : i ∈ f.layout.insts b) {c : BlockCall}
    (hc : c ∈ f.destinations (f.instData i)) :
    c.block ∈ f.layout.blocks ∧ c.args.length = (f.blockParams c.block).length := by
  obtain ⟨t, ht, hct⟩ := h.valid.branch_of_destination hi hc
  obtain ⟨-, hblock, -⟩ := h.valid.call_block ht hct
  exact ⟨h.valid.frame.blocks.symm ▸ hblock, (h.passes b t ht c hct).length_eq⟩

/-- The only return is the one of the exit block. -/
theorem returns (h : Complete S f pools) (hret : S.ReturnsAll f) (hi : i ∈ f.layout.insts b)
    {vs : List Value} (hdata : f.instData i = .multiAry .return_ vs) :
    vs.length = f.signature.returns.length := by
  obtain ⟨hlast, -⟩ := h.valid.setting_ends b i hi (by rw [hdata]; rfl)
  obtain ⟨j, vs', hj, hdata', hlen⟩ := hret
  have hexit : b = S.exit := by
    by_contra hne
    obtain ⟨k, hk, hbr⟩ := h.isBranch_of_ne (h.mem_blocks hi) hne
    obtain rfl : i = k := Option.some.inj (hlast.symm.trans hk)
    rw [hdata] at hbr
    cases hbr
  rw [hexit] at hlast
  obtain rfl : i = j := Option.some.inj (hlast.symm.trans hj)
  rw [hdata] at hdata'
  cases hdata'
  exact hlen

end Complete

/-! ## Built instructions -/

namespace Function.Built

variable {A : Opcode → List ClifType → Prop} {f : Function} {i : Inst}

theorem results_length (h : f.Built A i) (hcallee : (f.instData i).callee = none) :
    (f.dfg.results i).length = (f.instData i).opcode.resultCount := by
  cases h with
  | inserted ctrl hop hdata hres =>
      have hlen := Opcode.resultTypes_length hres
      rwa [List.length_map] at hlen
  | called hr hdata hres =>
      rw [hcallee] at hr
      cases hr

theorem slot_lt (h : f.Built A i) {slot : StackSlot}
    (hslot : (f.instData i).stackSlot = some slot) : slot < f.sizedStackSlots.len := by
  cases h with
  | inserted ctrl hop hdata hres => exact hdata.slot slot hslot
  | called hr hdata hres =>
      obtain ⟨args, hcall⟩ := InstructionData.callee_eq_some.mp hr
      rw [hcall] at hslot
      cases hslot

theorem formatted (h : f.Built A i) : (f.instData i).formatted = true := by
  cases h with
  | inserted ctrl hop hdata hres => exact hdata.formatted
  | called hr hdata hres =>
      obtain ⟨args, hcall⟩ := InstructionData.callee_eq_some.mp hr
      rw [hcall]
      rfl

end Function.Built

/-! ## Assembled functions -/

/-- The edits that insert calls keep a return. -/
theorem closedUnderCalls_return (i : Inst) : ClosedUnderCalls fun f =>
    i < f.dfg.insts.len ∧ ∃ vs, f.instData i = .multiAry .return_ vs := by
  rintro f g he ⟨hi, vs, hdata⟩
  cases he with
  | importFunction data => exact ⟨hi, vs, hdata⟩
  | call hr he =>
      exact ⟨he.insts_len ▸ Nat.lt_succ_of_lt hi, vs, (he.instData_old hi).trans hdata⟩
  | exchange j args hj =>
      refine ⟨hi, ?_⟩
      by_cases hij : i = j
      · subst hij
        refine ⟨args, ?_⟩
        rw [Function.replaceInst_instData_self, hdata]
        rfl
      · exact ⟨vs, (Function.replaceInst_instData_of_ne _ _ hij).trans hdata⟩

/-- The return gets other operands, but as many. -/
theorem Setting.Returns.all {S : Setting} {f g : Function} {pools : ValueMap}
    (h : S.Returns f pools) (hcomplete : Complete S f pools) (hstays : Stays S f g)
    (hcalls : EvolvesByCalls f g) : S.ReturnsAll g := by
  obtain ⟨i, vs, hi, hdata, hvs⟩ := h
  have hmem : i ∈ f.layout.insts S.exit := List.mem_of_mem_getLast? hi
  have hlt := f.insts_lt _ i hmem
  obtain ⟨-, vs', hdata'⟩ := hcalls.keeps (closedUnderCalls_return i) ⟨hlt, vs, hdata⟩
  refine ⟨i, vs', (hstays.lastInst _).trans hi, hdata', ?_⟩
  have htypes := congrArg List.length
    (hstays.operands i hlt (hcomplete.sound.args_lt _ i hmem))
  rw [hdata, hdata', List.length_map, List.length_map] at htypes
  rw [hstays.signature, hvs.length_eq]
  exact htypes

section Assembled

variable {cfDepth : ℕ} {isRootFunc : Bool} {config : ArchConfig} {name : FuncName} {sig : Signature}
  {children : List Child} {g : Function}

/-- **An assembled function can be run** if it returns something, and the root has no parameters. -/
theorem Assembled.executable (h : Assembled cfDepth isRootFunc config name sig children g)
    (hreturns : isRootFunc = true ∨ sig.returns ≠ [])
    (hparams : isRootFunc = true → sig.params = []) : g.Executable := by
  obtain ⟨hcoherent, hbuilt⟩ := h.built
  obtain ⟨e, w₁, w, hc, hgen, hfunc, hins, hcalls⟩ := h
  obtain ⟨hout, hentry⟩ := ((hc.filled config).functionGenerator_hasParams rfl).of_ok hgen
  have hstart : (hc.setting config).start.signature = sig := hc.signature_eq
  have hreturned := hout.returned (hreturns.imp_right fun hne => by rwa [hstart])
  have hended := hout.ended (hreturns.imp_right fun hne => by rwa [hstart])
  have hpools : e.blockDefValues = w.mem.locals.blockDefValues := hout.pools
  have hcomplete := hins.complete hended (hpools ▸ hout.complete)
  have hblocks := hcomplete.valid.frame.blocks
  have hhead : g.entryBlock = (hc.setting config).entry := by
    unfold Function.entryBlock
    rw [hblocks, List.headD_eq_head?_getD, (hc.setting config).skeleton.head]
    rfl
  have hret := hreturned.all (hpools ▸ hout.complete) hins.stays hcalls
  have hlaid : ∀ b, ∀ i ∈ g.layout.insts b, g.Built config.Emits i :=
    fun b i hi => hbuilt i (g.insts_lt b i hi)
  refine ⟨?_, fun b hb => hcomplete.leaves hret (hblocks ▸ hb), ?_, hcoherent,
    fun b i hi => (hlaid b i hi).results_length, fun b i hi slot => (hlaid b i hi).slot_lt,
    fun b i hi => (hlaid b i hi).formatted, fun b i hi v k => hcomplete.tables hi,
    fun b i hi c => hcomplete.destinations hi, fun b i hi vs => hcomplete.returns hret hi, ?_⟩
  · rw [hhead, hblocks]
    exact Setting.entry_mem
  · rw [hhead]
    exact hcomplete.valid.usesDominated.1
  · -- the parameters are there since the generator has seeded the entry block
    have hlen := congrArg List.length hentry.types
    rw [List.length_map, hstart] at hlen
    rw [hhead, hins.stays.params, hins.stays.signature, hlen]
    cases isRootFunc with
    | false => rw [hout.signature rfl, hstart]
    | true => rw [hout.rootParams rfl, hparams rfl]

/-- A call of an assembled function is to one of the children. -/
theorem Assembled.call (h : Assembled cfDepth isRootFunc config name sig children g) {b : Block}
    {i : Inst} (hi : i ∈ g.layout.insts b) {r : FuncRef} {args : List Value}
    (hdata : g.instData i = .call r args) :
    ∃ child ∈ children, g.extFuncs.get? r = some ⟨child.name, child.signature⟩ ∧
      args.length = child.signature.params.length ∧
        (g.dfg.results i).length = child.signature.returns.length := by
  obtain ⟨-, hbuilt⟩ := h.built
  obtain ⟨e, w₁, w, hc, hgen, hfunc, hins, -⟩ := h
  have hout := hc.generates hgen
  -- the function had no calls before
  obtain ⟨k, rfl⟩ : ∃ k, i = w.mem.func.dfg.insts.len + k := by
    refine Nat.exists_eq_add_of_le (Nat.le_of_not_lt fun hlt => ?_)
    have hcall := hout.noCalls b i (hins.stays.mem_of_lt hi hlt)
    rw [← hins.stays.keeps.opcode i hlt, hdata] at hcall
    cases hcall
  have hlt := g.insts_lt b _ hi
  rw [hins.insts_len] at hlt
  have hk := List.getElem?_eq_getElem (Nat.lt_of_add_lt_add_left hlt)
  obtain ⟨-, ⟨r', hr', hcallee, hext⟩, passed, hpassed, htypes⟩ := hins.called k _ hk
  rw [hdata] at hcallee htypes
  obtain rfl : r = r' := Option.some.inj hcallee
  have hget := PrimaryMap.get?_eq_some.mpr ⟨hr', hext⟩
  refine ⟨_, List.getElem_mem _, hget, ?_, ?_⟩
  · have hlen := congrArg List.length htypes
    rw [List.length_map, List.length_map] at hlen
    exact hlen.trans hpassed.length_eq.symm
  · cases hbuilt _ (g.insts_lt b _ hi) with
    | inserted ctrl hop hinsert hres =>
        have hnone := hinsert.callee
        rw [hdata] at hnone
        cases hnone
    | called hr hdata' hres =>
        rw [hdata] at hr
        obtain rfl := Option.some.inj hr
        rw [hget] at hdata'
        obtain rfl := Option.some.inj hdata'
        have hlen := congrArg List.length hres
        rwa [List.length_map] at hlen

end Assembled

/-! ## Programs -/

/-- The height of the node of a function in the call graph. -/
def rankIn (root : FunctionNode) (f : Function) : ℕ :=
  ((root.postOrder.find? fun n => n.value.name = f.name).map RoseTree.height).getD 0

section Program

variable {cfDepth maxDepth : ℕ} {config : ArchConfig} {root n : FunctionNode}
  {program : List Function} {f : Function}

theorem rankIn_eq (hnodup : (root.postOrder.map fun n => n.value.name).Nodup)
    (hn : n ∈ root.postOrder) (hname : f.name = n.value.name) :
    rankIn root f = RoseTree.height n := by
  unfold rankIn
  rw [hname, ListEdit.find?_eq_some_of_nodup hnodup hn]
  rfl

/-- Every function of the program is assembled from a node, and returns. -/
theorem AssembledGraph.exists_node (h : AssembledGraph cfDepth config root program)
    (hgraph : DrawnGraph maxDepth root) (hf : f ∈ program) :
    ∃ (n : FunctionNode) (isRootFunc : Bool), n ∈ root.postOrder ∧
      Assembled cfDepth isRootFunc config n.value.name n.value.sig n.getChildFuncsClone f ∧
      (isRootFunc = true ∨ n.value.sig.returns ≠ []) ∧
        (isRootFunc = true → n.value.sig.params = []) := by
  obtain ⟨gs, g, hgs, hg, rfl⟩ := h.assembled
  rw [RoseTree.postOrder_eq]
  rcases List.mem_append.mp hf with hf | hf
  · obtain ⟨n, hn, hassembled⟩ := ListEdit.exists_of_mem_right hgs hf
    refine ⟨n, false, List.mem_append_left _ hn, hassembled, .inr ?_, fun h => by cases h⟩
    exact (hgraph.drawn hn).sig.returns_ne_nil
  · obtain rfl := List.mem_singleton.mp hf
    refine ⟨root, true, List.mem_append_right _ (List.mem_singleton_self root), hg, .inl rfl,
      fun _ => ?_⟩
    rw [hgraph.sig]

/-- The function that is called for a child, which is a node below. -/
theorem AssembledGraph.exists_callee (h : AssembledGraph cfDepth config root program)
    (hgraph : DrawnGraph maxDepth root) (hn : n ∈ root.postOrder) {child : Child}
    (hchild : child ∈ n.getChildFuncsClone) :
    ∃ callee ∈ program, callee.name = child.name ∧ callee.signature = child.signature ∧
      ∃ c ∈ root.postOrder, callee.name = c.value.name ∧ RoseTree.height c < RoseTree.height n := by
  obtain ⟨gs, g, hgs, -, rfl⟩ := h.assembled
  obtain ⟨count, hbelow⟩ := hgraph.below
  obtain ⟨c, hc, rfl⟩ := List.mem_map.mp hchild
  have hmem : c ∈ root.children.flatMap RoseTree.postOrder :=
    (RoseTree.children_perm_postOrder root).subset (List.mem_flatMap.mpr ⟨n, hn, hc⟩)
  have hfresh : c.value.func = .new c.value.name c.value.sig := hbelow.numbered.fresh c hmem
  obtain ⟨callee, hcallee, hassembled⟩ := ListEdit.exists_of_mem_left hgs hmem
  have hwritten : Written false c.value.name c.value.sig (FunctionNode.getChildFuncsClone c)
      callee := hassembled.written
  refine ⟨callee, List.mem_append_left _ hcallee, ?_, ?_, c, ?_, hwritten.name,
    RoseTree.height_lt_of_mem_children hc⟩
  · rw [hfresh]
    exact hwritten.name
  · rw [hfresh]
    exact hwritten.signature rfl
  · rw [RoseTree.postOrder_eq]
    exact List.mem_append_left _ hmem

/-- **A generated program can be run.** -/
theorem AssembledGraph.linked (h : AssembledGraph cfDepth config root program)
    (hgraph : DrawnGraph maxDepth root) : Linked program (rankIn root) maxDepth := by
  have hclosed := h.closed hgraph
  have hnodup : (root.postOrder.map fun n => n.value.name).Nodup :=
    hclosed.defined ▸ hclosed.distinct
  refine ⟨fun f hf => ?_, hclosed.distinct, fun f hf => ?_, fun f hf b i hi r args hdata => ?_⟩
  · obtain ⟨n, isRootFunc, -, hassembled, hreturns, hparams⟩ := h.exists_node hgraph hf
    exact hassembled.executable hreturns hparams
  · obtain ⟨n, isRootFunc, hn, hassembled, -⟩ := h.exists_node hgraph hf
    rw [rankIn_eq hnodup hn hassembled.written.name]
    exact (RoseTree.height_le_of_mem_postOrder root n hn).trans hgraph.binary.height_le
  · obtain ⟨n, isRootFunc, hn, hassembled, -⟩ := h.exists_node hgraph hf
    obtain ⟨child, hchild, hget, hargs, hres⟩ := hassembled.call hi hdata
    obtain ⟨callee, hcallee, hname, hsig, c, hc, hcname, hheight⟩ :=
      h.exists_callee hgraph hn hchild
    refine ⟨_, hget, callee, hcallee, hname, ?_, ?_, ?_⟩
    · rw [hargs, hsig]
    · rw [hres, hsig]
    · rwa [rankIn_eq hnodup hn hassembled.written.name, rankIn_eq hnodup hc hcname]

/-- **With an accepted config its accesses are confined**: every function has two slots of 32
bytes. -/
theorem AssembledGraph.confined (h : AssembledGraph cfDepth config root program)
    (hgraph : DrawnGraph maxDepth root) (hok : config.Accepted) (hdepth : maxDepth ≤ 30) :
    Confined program maxDepth := by
  have hsafe : ∀ f ∈ program, MemorySafe f := by
    intro f hf
    obtain ⟨n, isRootFunc, -, ⟨e, w₁, w, hc, hgen, hfunc, hins, -⟩, -⟩ := h.exists_node hgraph hf
    have hout := hc.generates hgen
    have hpools : e.blockDefValues = w.mem.locals.blockDefValues := hout.pools
    exact hins.memorySafe (hpools ▸ hout.complete) rfl hok
  refine ⟨fun f hf b i hi hacc => ?_, 64, fun f hf => ?_, ?_⟩
  · obtain ⟨before, after, hsplit⟩ := List.append_of_mem hi
    obtain ⟨a, slot, offset, ha, hslot, hres, hbound, -⟩ :=
      (hsafe f hf).access b before i after hsplit hacc
    refine ⟨a, slot, offset, ha, ?_, hres, ?_⟩
    · rwa [(hsafe f hf).two]
    · rwa [(hsafe f hf).size slot hslot]
  · have hzero := (hsafe f hf).size 0 (by omega)
    have hone := (hsafe f hf).size 1 (by omega)
    rw [fixedStackSize, (hsafe f hf).two, slotOffset_succ, slotOffset_succ, hzero, hone]
    rfl
  · omega

/-- An instruction that the interpreter does not implement has been drawn. -/
theorem AssembledGraph.hasMode_of_unimplemented (h : AssembledGraph cfDepth config root program)
    (hf : f ∈ program) {b : Block} {i : Inst} (hi : i ∈ f.layout.insts b)
    (hop : (f.instData i).opcode.isUnimplemented = true) :
    ∃ mode, config.HasMode (f.instData i).opcode.name mode := by
  cases (h.built hf).2 i (f.insts_lt b i hi) with
  | called hr hdata hres =>
      obtain ⟨args, hcall⟩ := InstructionData.callee_eq_some.mp hr
      rw [hcall] at hop
      cases hop
  | inserted ctrl hemitted hdata hres =>
      generalize (f.instData i).opcode = op at *
      rcases hemitted with hstructural | ⟨o, -, ty, hseed, -⟩ | ⟨drawn, mode, hmode, rfl⟩
      · cases op with
        | jump | brif | brTable | return_ | nop | stackAddr | store => cases hop
        | _ => cases hstructural
      · have himpl : ∀ p ∈ o.constantInsts, p.1.isUnimplemented = false := by
          cases o <;> decide
        rw [himpl _ hseed] at hop
        cases hop
      · cases drawn with
        | cls => cases hop
        | _ => exact ⟨mode, hmode⟩

end Program

/-! ## Interpretation -/

section Interpretation

variable {cfDepth maxDepth : ℕ} {config : ArchConfig} {draws : List ℕ} {w : World Assembly}
  {D : Type}

/-- `main` is in the program, and has no parameters. -/
theorem AssembledGraph.exists_main {root : FunctionNode} {program : List Function}
    (h : AssembledGraph cfDepth config root program) (hgraph : DrawnGraph maxDepth root) :
    ∃ f ∈ program, f.name = .testcase "main" ∧ f.signature.params = [] := by
  obtain ⟨gs, g, -, hg, rfl⟩ := h.assembled
  refine ⟨g, List.mem_append_right _ (List.mem_singleton_self g), ?_, ?_⟩
  · rw [hg.written.name, hgraph.name]
  · obtain ⟨e, w₁, w, hc, hgen, -, hins, -⟩ := hg
    rw [hins.stays.signature, (hc.generates hgen).rootParams rfl]

/-- Every state of an interpretation from `main` is sound, and the reasons to stop are those of
single steps. -/
theorem interpret_generated (h : generateIr cfDepth maxDepth config ⟨draws, {}⟩ = .ok () w)
    (V : Values D) (pinnedReg : D) (fuel : ℕ) :
    ∃ rank, Linked w.mem.clifOutput rank maxDepth ∧
      (config.Accepted ∧ maxDepth ≤ 30 → Confined w.mem.clifOutput maxDepth) ∧
      (∀ f ∈ w.mem.clifOutput, ∀ b, ∀ i ∈ f.layout.insts b,
        (f.instData i).opcode.isUnimplemented = true →
          ∃ mode, config.HasMode (f.instData i).opcode.name mode) ∧
      Attempts (Stop.Tolerated w.mem.clifOutput (config.Accepted ∧ maxDepth ≤ 30))
        (interpret V w.mem.clifOutput (.testcase "main") [] pinnedReg fuel) fun s =>
          ∀ st, s = .running st → Interpreter.Sound V w.mem.clifOutput rank st := by
  obtain ⟨root, hgraph, hassembled⟩ := (generateIr_spec cfDepth maxDepth config).of_ok h
  have hlinked := hassembled.linked hgraph
  have hconfined : config.Accepted ∧ maxDepth ≤ 30 → Confined w.mem.clifOutput maxDepth :=
    fun hok => hassembled.confined hgraph hok.1 hok.2
  obtain ⟨f, hf, hname, hparams⟩ := hassembled.exists_main hgraph
  refine ⟨_, hlinked, hconfined, fun f hf b i hi => hassembled.hasMode_of_unimplemented hf hi, ?_⟩
  rw [← hname]
  exact interpret_spec hlinked hconfined hf (by rw [hparams]; rfl) pinnedReg fuel

/-- Numbers with a type, and operations that yield zero. -/
def typedNumbers : Values (ClifType × ℕ) where
  ty := Prod.fst
  beq a b := a == b
  intoBool d := .ok (d.2 ≠ 0)
  intoIntUnsigned d := .ok d.2
  zeroExtend d := .ok d.2
  ofAddress a := (.i64, a)
  read ty _ := .ok (ty, 0)
  write d := List.replicate d.1.bytes 0
  extend _ ty d := .ok (ty, d.2)
  truncate _ d := .ok d
  rmw _ _ _ d := .ok d
  compute f i _ :=
    let results := f.dfg.results i
    let count := (f.instData i).opcode.resultCount
    .ok (if results.length = count then results.map fun v => (f.valueType v, 0)
      else List.replicate count (.i64, 0))
  write_length _ := List.length_replicate
  zeroExtend_ofAddress _ _ := rfl
  intoIntUnsigned_ofAddress _ _ := rfl
  compute_length f i args values h := by
    obtain rfl := Except.ok.inj h
    split
    · rwa [List.length_map]
    · exact List.length_replicate

/-- The number of frames of an interpretation that is still running. -/
def frameCount : Except Interpreter.Stop (Status D) → ℕ
  | .ok (.running st) => st.frames.length
  | _ => 0

theorem exists_of_frameCount {x : Except Interpreter.Stop (Status D)} {n : ℕ}
    (h : frameCount x = n + 1) : ∃ st, x = .ok (.running st) ∧ st.frames.length = n + 1 := by
  match x with
  | .ok (.running st) => exact ⟨st, rfl, h⟩
  | .ok (.returned _) => cases h
  | .error _ => cases h

/-- After 30 instructions `main` has called its child. -/
theorem interpret_running : returnsWith (generateIr 0 1 fullConfig) ⟨List.replicate 300 0, {}⟩
    (fun _ w => frameCount (interpret typedNumbers w.mem.clifOutput (.testcase "main") []
      (.i64, 0) 30) = 2) = true := by
  decide +kernel

/-- **With an accepted config no load is out of bounds**, and no round of the loop touches what
belongs to the callers: until a function returns, the frames below it and the bytes of their stack
slots stay as they were when it was called. -/
theorem interpret_isolates (h : generateIr cfDepth maxDepth config ⟨draws, {}⟩ = .ok () w)
    (hok : config.Accepted) (hdepth : maxDepth ≤ 30) (V : Values D) (pinnedReg : D) (fuel : ℕ) :
    interpret V w.mem.clifOutput (.testcase "main") [] pinnedReg fuel ≠
      .error (.memory .outOfBoundsLoad) ∧
    ∀ st, interpret V w.mem.clifOutput (.testcase "main") [] pinnedReg fuel = .ok (.running st) →
      ∀ st', Relation.ReflTransGen (Round V w.mem.clifOutput st.frames.length) st st' →
        st.frames.tail <:+ st'.frames.tail ∧
          st'.stack.take st.frameOffset = st.stack.take st.frameOffset := by
  obtain ⟨rank, hlinked, hconfined, -, hrun⟩ := interpret_generated h V pinnedReg fuel
  refine ⟨fun hstop => hrun.of_error hstop ⟨hok, hdepth⟩, fun st hst st' hrounds => ?_⟩
  exact (((hrun.of_ok hst) st rfl).isolated hlinked (hconfined ⟨hok, hdepth⟩) hrounds).2

theorem interpret_isolates_two : fullConfig.Accepted ∧ ∃ w st,
    generateIr 0 1 fullConfig ⟨List.replicate 300 0, {}⟩ = .ok () w ∧
      interpret typedNumbers w.mem.clifOutput (.testcase "main") [] (.i64, 0) 30 =
        .ok (.running st) ∧ st.frames.length = 2 ∧
      ∀ st', Relation.ReflTransGen (Round typedNumbers w.mem.clifOutput st.frames.length) st st' →
        st.frames.tail <:+ st'.frames.tail ∧
          st'.stack.take st.frameOffset = st.stack.take st.frameOffset := by
  have hok : fullConfig.Accepted := by decide +kernel
  obtain ⟨⟨⟩, w, hrun, hcheck⟩ := exists_of_returnsWith interpret_running
  obtain ⟨st, hst, hcount⟩ := exists_of_frameCount (of_decide_eq_true hcheck)
  exact ⟨hok, w, st, hrun, hst, hcount,
    (interpret_isolates hrun hok (by omega) _ _ _).2 st hst⟩

end Interpretation

end Clir
