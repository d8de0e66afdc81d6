import Clir.Cg.Program
import Clir.Gen.Coherent
import Clir.Gen.Profiles

set_option autoImplicit false

/-! # What is guaranteed of a program

`generateIr_spec` says once how a round of `generate_ir` ends: it leaves the functions of a call
graph that has been drawn, each assembled from its node, and with a supported config it does not
panic. The guarantees are read off from this.
-/

namespace Clir

open Cmd

/-! ## A call graph that has been drawn -/

theorem Signature.Sampled.drawn {sig : Signature} (h : sig.Sampled) : sig.Drawn where
  params := h.params
  returns := h.returns
  returns_ne_nil := by
    have hsize := h.size
    have hlen := h.returns_length
    intro hnil
    rw [hnil, List.length_nil] at hlen
    omega

section Graph

variable {maxDepth lo hi : ℕ} {n root : FunctionNode} {ts : List FunctionNode}

theorem Below.mem_preOrder (hn : n ∈ ts.flatMap RoseTree.postOrder) :
    n ∈ ts.flatMap RoseTree.preOrder := by
  obtain ⟨t, ht, hn⟩ := List.mem_flatMap.mp hn
  exact List.mem_flatMap.mpr ⟨t, ht, t.preOrder_perm_postOrder.mem_iff.mpr hn⟩

/-- A function below the root can be called. -/
theorem Below.callable (h : Below lo hi ts) (hn : n ∈ ts.flatMap RoseTree.postOrder) :
    Child.Callable ⟨n.value.func.name, n.value.func.signature⟩ := by
  obtain ⟨k, -, -, hk⟩ := h.numbered.named n hn
  have hfresh : n.value.func = .new n.value.name n.value.sig := h.numbered.fresh n hn
  rw [hfresh]
  exact ⟨⟨1, k, hk⟩, (h.sampled n (Below.mem_preOrder hn)).params⟩

theorem DrawnGraph.callable (h : DrawnGraph maxDepth root) (hn : n ∈ root.postOrder) :
    ∀ child ∈ n.getChildFuncsClone, child.Callable := by
  intro child hchild
  obtain ⟨c, hc, rfl⟩ := List.mem_map.mp hchild
  obtain ⟨count, hbelow⟩ := h.below
  refine hbelow.callable ?_
  exact (RoseTree.children_perm_postOrder root).subset (List.mem_flatMap.mpr ⟨n, hn, hc⟩)

theorem DrawnGraph.drawn (h : DrawnGraph maxDepth root)
    (hn : n ∈ root.children.flatMap RoseTree.postOrder) : FunctionNode.Drawn n where
  sig := by
    obtain ⟨count, hbelow⟩ := h.below
    exact (hbelow.sampled n (Below.mem_preOrder hn)).drawn
  children := by
    refine h.callable ?_
    rw [RoseTree.postOrder_eq]
    exact List.mem_append_left _ hn

end Graph

/-! ## Runs -/

/-- The functions of a call graph, in post-order. -/
structure AssembledGraph (cfDepth : ℕ) (config : ArchConfig) (root : FunctionNode)
    (program : List Function) : Prop where
  assembled : ∃ gs g, List.Forall₂ (FunctionNode.AssembledAs cfDepth config)
      (root.children.flatMap RoseTree.postOrder) gs ∧
    Assembled cfDepth true config root.value.name root.value.sig root.getChildFuncsClone g ∧
    program = gs ++ [g]

theorem AssembledGraph.closed {cfDepth maxDepth : ℕ} {config : ArchConfig} {root : FunctionNode}
    {program : List Function} (h : AssembledGraph cfDepth config root program)
    (hgraph : DrawnGraph maxDepth root) : ClosedCallTree root program := by
  obtain ⟨gs, g, hgs, hg, rfl⟩ := h.assembled
  obtain ⟨count, hbelow⟩ := hgraph.below
  exact Written.closed hgraph.name hbelow.numbered (hgs.imp fun _ _ hf => hf.written) hg.written

/-- **How a round of `generate_ir` ends.** -/
theorem generateIr_spec (cfDepth maxDepth : ℕ) (config : ArchConfig) :
    Ensures (fun e _ => config.Supported ∧ maxDepth ≤ 30 → e = .starved)
      (generateIr cfDepth maxDepth config) {} fun _ a =>
        ∃ root, DrawnGraph maxDepth root ∧ AssembledGraph cfDepth config root a.clifOutput := by
  unfold generateIr
  refine Ensures.pick ((ensures_drawnGraph maxDepth).weaken fun e _ he h => he h.2) fun root h => ?_
  obtain ⟨count, hbelow⟩ := h.below
  refine (generateProgram_assembled ?_ h.fresh h.name hbelow.numbered).mono ?_
  · intro hok
    refine ⟨hok.1, ?_, h.callable root.mem_postOrder_self, fun n hn => h.drawn hn⟩
    rw [h.sig]
    exact List.nil_subset _
  · intro _ a hout
    exact ⟨root, h, ⟨hout⟩⟩

theorem safe_generateIr {cfDepth maxDepth : ℕ} {config : ArchConfig} (hok : config.Supported)
    (hdepth : maxDepth ≤ 30) : Safe (generateIr cfDepth maxDepth config) {} :=
  .of_ensures ((generateIr_spec cfDepth maxDepth config).weaken fun _ _ he => he ⟨hok, hdepth⟩)

/-- **The configs that come with the generator never make it panic**, nor does the one that
compatible mode makes from them. -/
theorem shipped_never_panic (config : ArchConfig) (hconfig : config ∈ shipped) (cfDepth : ℕ) :
    Safe (generateIr cfDepth 4 config) {} :=
  safe_generateIr (shipped_supported config hconfig) (by omega)

theorem shipped_never_panic_compatible :
    archCompatible ∈ shipped ∧ Safe (generateIr 3 4 archCompatible) {} := by
  have hmem : archCompatible ∈ shipped := by
    unfold shipped
    simp
  exact ⟨hmem, shipped_never_panic archCompatible hmem 3⟩

/-! ## The shape of the call graph -/

/-- **A call graph that has been drawn** has `main` at the root, without parameters and results. All
its leaves are `max_depth` below, and every function above them calls one or two others. So it has
more than `max_depth` and fewer than `2 ^ (max_depth + 1)` functions. Those below the root are
numbered in pre-order, and their signatures have eight or nine types each way. -/
theorem generateFunctionCallGraph_shape {σ : Type} {maxDepth : ℕ} {w w' : World σ}
    {root : FunctionNode} (h : generateFunctionCallGraph maxDepth w = .ok root w') :
    root.value.sig = ⟨[], []⟩ ∧ RoseTree.Binary maxDepth root ∧
      maxDepth < root.preOrder.length ∧ root.preOrder.length < 2 ^ (maxDepth + 1) ∧
      (root.preOrder.map fun n => n.value.name) =
        .testcase "main" :: (List.range' 1 (root.preOrder.length - 1)).map (.user 1) ∧
      ∀ n ∈ root.preOrder.tail, n.value.sig.Sampled := by
  obtain ⟨-, hgraph⟩ := (ensures_drawnGraph maxDepth).of_ok h
  obtain ⟨count, hbelow⟩ := hgraph.below
  have hsize := hgraph.binary.length_le
  have horder : root.preOrder = root :: root.children.flatMap RoseTree.preOrder :=
    root.preOrder_eq
  have hlen : root.preOrder.length = (root.children.flatMap RoseTree.preOrder).length + 1 := by
    rw [horder, List.length_cons]
  refine ⟨hgraph.sig, hgraph.binary, by omega, by omega, ?_, ?_⟩
  · rw [hlen, Nat.add_sub_cancel, horder, List.map_cons, hgraph.name, hbelow.names]
  · rw [horder]
    exact hbelow.sampled

theorem generateFunctionCallGraph_shape_one : ∃ root w',
    generateFunctionCallGraph 1 (⟨List.replicate 20 0, ()⟩ : World Unit) = .ok root w' ∧
      RoseTree.Binary 1 root ∧ root.preOrder.length = 2 := by
  have hrun : returnsWith (generateFunctionCallGraph 1) (⟨List.replicate 20 0, ()⟩ : World Unit)
      (fun root _ => root.preOrder.length = 2) = true := by decide +kernel
  obtain ⟨root, w', hroot, hcheck⟩ := exists_of_returnsWith hrun
  exact ⟨root, w', hroot, (generateFunctionCallGraph_shape hroot).2.1, of_decide_eq_true hcheck⟩

/-! ## How functions are built -/

/-- **The values of an assembled function are where they come from, and its instructions are built
as their opcodes say.** -/
theorem Assembled.built {cfDepth : ℕ} {isRootFunc : Bool} {config : ArchConfig} {name : FuncName}
    {sig : Signature} {children : List Child} {g : Function}
    (h : Assembled cfDepth isRootFunc config name sig children g) :
    g.dfg.Coherent ∧ ∀ i < g.dfg.insts.len, g.Built config.Emits i :=
  h.evolves.keeps (closed_built config.Emits)
    ⟨Function.coherent_new name sig, fun i hi => absurd hi (Nat.not_lt_zero i)⟩

theorem AssembledGraph.built {cfDepth : ℕ} {config : ArchConfig} {root : FunctionNode}
    {program : List Function} (h : AssembledGraph cfDepth config root program) {f : Function}
    (hf : f ∈ program) : f.dfg.Coherent ∧ ∀ i < f.dfg.insts.len, f.Built config.Emits i := by
  obtain ⟨gs, g, hgs, hg, rfl⟩ := h.assembled
  rcases List.mem_append.mp hf with hf | hf
  · obtain ⟨n, -, hassembled⟩ := ListEdit.exists_of_mem_right hgs hf
    exact Assembled.built hassembled
  · obtain rfl := List.mem_singleton.mp hf
    exact hg.built

section Runs

variable {cfDepth maxDepth : ℕ} {config : ArchConfig} {draws : List ℕ} {w : World Assembly}

/-- **A generated function lists its values where they come from.** Every parameter of a block and
every result of an instruction is a value of its own, recorded with the block or instruction that
lists it and the place it has there. An instruction has the results that its opcode has at some
controlling type, and a call those of the signature that it is imported with. -/
theorem generateIr_coherent (h : generateIr cfDepth maxDepth config ⟨draws, {}⟩ = .ok () w) :
    ∀ f ∈ w.mem.clifOutput, f.dfg.Coherent ∧
      ∀ b, ∀ i ∈ f.layout.insts b,
        (∃ ctrl, (f.instData i).opcode.resultTypes ctrl =
          some ((f.dfg.results i).map f.valueType)) ∨
        ∃ r args data, f.instData i = .call r args ∧ f.extFuncs.get? r = some data ∧
          (f.dfg.results i).map f.valueType = data.signature.returns := by
  obtain ⟨root, -, hassembled⟩ := (generateIr_spec cfDepth maxDepth config).of_ok h
  intro f hf
  obtain ⟨hcoherent, hbuilt⟩ := hassembled.built hf
  refine ⟨hcoherent, fun b i hi => ?_⟩
  cases hbuilt i (f.insts_lt b i hi) with
  | inserted ctrl hop hdata hres => exact .inl ⟨ctrl, hres⟩
  | called hr hdata hres =>
      obtain ⟨args, hcall⟩ := InstructionData.callee_eq_some.mp hr
      exact .inr ⟨_, args, _, hcall, hdata, hres⟩

theorem generateIr_coherent_two : ∃ w,
    generateIr 0 1 fullConfig ⟨List.replicate 300 0, {}⟩ = .ok () w ∧
      w.mem.clifOutput.length = 2 ∧ ∀ f ∈ w.mem.clifOutput, f.dfg.Coherent := by
  obtain ⟨⟨⟩, w, hrun, hcheck⟩ := exists_of_returnsWith generateIr_returns
  exact ⟨w, hrun, of_decide_eq_true hcheck, fun f hf => (generateIr_coherent hrun f hf).1⟩

/-! ## Compatible mode -/

/-- A mode of the intersection is a mode of every config. -/
theorem configIntersection_hasMode {configs : List ArchConfig} {result c : ArchConfig} {i : String}
    {m : Mode} (h : configIntersection configs = some result) (hm : result.HasMode i m)
    (hc : c ∈ configs) : ∃ m', c.HasMode i m' ∧ m'.name = m.name := by
  cases configs with
  | nil => cases h
  | cons first rest =>
      obtain rfl := Option.some.inj h
      obtain ⟨x, ys, hx, hys, hmerge⟩ := hasMode_foldl_intersect.mp hm
      obtain ⟨hxm, hagree⟩ := Mode.agrees_of_merge hmerge
      rcases List.mem_cons.mp hc with rfl | hc
      · exact ⟨x, hx, hxm.name.symm⟩
      · obtain ⟨y, hy, hcy⟩ := ListEdit.exists_of_mem_left hys hc
        exact ⟨y, hcy.hasMode, (hagree y hy).name.trans hxm.name.symm⟩

end Runs

end Clir
