import Clir.Gen.Closed
import Clir.Gen.Coherent
import Clir.Lib.Attempt
import Clir.Run.Machine

set_option autoImplicit false

/-! # Frames

What a function must be like for the interpreter to run it (`Executable`), and what holds of a frame
that runs such a function: it is at an instruction, and every value that is available there is in
its register, where the result of a `stack_addr` is the address of its slot. Going to the next
instruction, to another block and into a function keep this.
-/

namespace Clir

open Graph Interpreter

/-! ## Functions that can be run -/

/-- The instructions that leave a block. -/
def InstructionData.leaves : InstructionData → Bool
  | .jump _ | .brif _ _ _ | .branchTable _ _ => true
  | .multiAry op _ => op = .return_
  | _ => false

theorem InstructionData.leaves_of_destination {f : Function} {d : InstructionData} {c : BlockCall}
    (hc : c ∈ f.destinations d) :
    d.leaves = true ∧ d.callee = none ∧ d.opcode.resultCount = 0 := by
  cases d with
  | jump _ | brif _ _ _ | branchTable _ _ => exact ⟨rfl, rfl, rfl⟩
  | _ => cases hc

/-- The first block of a function. -/
def Function.entryBlock (f : Function) : Block := f.layout.blocks.headD 0

/-- What the interpreter relies on, and does not check without a panic. -/
structure Function.Executable (f : Function) : Prop where
  entered : f.entryBlock ∈ f.layout.blocks
  leaves : ∀ b ∈ f.layout.blocks, ∃ before i, f.layout.insts b = before ++ [i] ∧
    (f.instData i).leaves = true ∧ ∀ j ∈ before, (f.instData j).leaves = false
  dominated : f.UsesDominated f.entryBlock
  coherent : f.dfg.Coherent
  results : ∀ b, ∀ i ∈ f.layout.insts b, (f.instData i).callee = none →
    (f.dfg.results i).length = (f.instData i).opcode.resultCount
  slots : ∀ b, ∀ i ∈ f.layout.insts b, ∀ slot, (f.instData i).stackSlot = some slot →
    slot < f.sizedStackSlots.len
  formats : ∀ b, ∀ i ∈ f.layout.insts b, (f.instData i).formatted = true
  tables : ∀ b, ∀ i ∈ f.layout.insts b, ∀ v k, f.instData i = .branchTable v k →
    k < f.dfg.jumpTables.len
  passes : ∀ b, ∀ i ∈ f.layout.insts b, ∀ c ∈ f.destinations (f.instData i),
    c.block ∈ f.layout.blocks ∧ c.args.length = (f.blockParams c.block).length
  returns : ∀ b, ∀ i ∈ f.layout.insts b, ∀ vs, f.instData i = .multiAry .return_ vs →
    vs.length = f.signature.returns.length
  params : (f.blockParams f.entryBlock).length = f.signature.params.length

theorem Opcode.resultTypes_length {op : Opcode} {ctrl : ClifType} {tys : List ClifType}
    (h : op.resultTypes ctrl = some tys) : tys.length = op.resultCount := by
  unfold resultTypes at h
  split at h
  all_goals first
    | cases h; rfl
    | (obtain ⟨t, -, rfl⟩ := Option.map_eq_some_iff.mp h; rfl)
    | (cases h; cases op <;> first | rfl | simp_all)

namespace Function.Executable

variable {f : Function} {b : Block} {before after : List Inst} {i : Inst} {v : Value}

theorem head_eq (h : f.Executable) : f.layout.blocks.head? = some f.entryBlock := by
  have hmem := h.entered
  unfold entryBlock at hmem ⊢
  cases hblocks : f.layout.blocks with
  | nil => simp [hblocks] at hmem
  | cons b bs => rfl

theorem mem_of_split (hsplit : f.layout.insts b = before ++ i :: after) : i ∈ f.layout.insts b := by
  rw [hsplit]
  simp

/-- An instruction that leaves a block is the last one, and no other one is. -/
theorem leaves_iff (h : f.Executable) (hsplit : f.layout.insts b = before ++ i :: after) :
    (f.instData i).leaves = true ↔ after = [] := by
  have hmem := mem_of_split hsplit
  obtain ⟨front, last, hlast, hleaves, hfront⟩ := h.leaves b (Layout.mem_blocks_of_mem_insts hmem)
  constructor
  · intro hi
    have heq : i = last := by
      rw [hlast, List.mem_append, List.mem_singleton] at hmem
      refine hmem.resolve_left fun hmem => ?_
      rw [hfront i hmem] at hi
      cases hi
    subst heq
    have hnodup := f.layout.insts_nodup b
    rw [hsplit] at hnodup
    exact (ListEdit.split_unique hnodup (hsplit.symm.trans hlast)).2
  · rintro rfl
    have heq : i = last := by
      have hget := congrArg List.getLast? (hsplit.symm.trans hlast)
      simpa using hget
    rw [heq]
    exact hleaves

theorem param_not_stackAddr (h : f.Executable) (hv : v ∈ f.blockParams b) {slot : StackSlot}
    {offset : ℕ} : ¬ f.StackAddr v slot offset := by
  rintro ⟨c, j, ⟨-, k, hsource, -⟩, -⟩
  obtain ⟨k', hk'⟩ := List.mem_iff_getElem?.mp hv
  have := (h.coherent.params b k' v hk').2
  rw [hsource] at this
  cases this

theorem stackAddr_of_result (h : f.Executable) (hv : v ∈ f.dfg.results i) {slot : StackSlot}
    {offset : ℕ} (haddr : f.StackAddr v slot offset) :
    f.instData i = .stackLoad .stackAddr slot offset := by
  obtain ⟨c, j, ⟨-, k, hsource, -⟩, -, hdata⟩ := haddr
  obtain ⟨k', hk'⟩ := List.mem_iff_getElem?.mp hv
  have := (h.coherent.results i k' v hk').2
  rw [hsource] at this
  cases this
  exact hdata

/-- A branch is the last instruction of its block. It leads to its destinations, and has no
results. -/
theorem of_destination (h : f.Executable) (hsplit : f.layout.insts b = before ++ i :: after)
    {c : BlockCall} (hc : c ∈ f.destinations (f.instData i)) :
    after = [] ∧ f.Edge b c.block ∧ f.dfg.results i = [] := by
  obtain ⟨hleaves, hcallee, hcount⟩ := InstructionData.leaves_of_destination hc
  obtain rfl := (h.leaves_iff hsplit).mp hleaves
  refine ⟨rfl, ?_, ?_⟩
  · have hlast : f.layout.lastInst b = some i := by
      rw [Layout.lastInst, hsplit, List.getLast?_concat]
    refine (mem_blockEdges (i := i) (b := b)).mp ?_ |>.2.2
    unfold blockEdges
    rw [hlast]
    exact List.mem_map.mpr ⟨c, hc, rfl⟩
  · have hres := h.results b i (mem_of_split hsplit) hcallee
    exact List.eq_nil_of_length_eq_zero (hres.trans hcount)

theorem params_lt (h : f.Executable) (hv : v ∈ f.blockParams b) : v < f.dfg.values.len :=
  h.coherent.params_lt hv

theorem results_lt (h : f.Executable) (hv : v ∈ f.dfg.results i) : v < f.dfg.values.len :=
  h.coherent.results_lt hv

end Function.Executable

namespace Interpreter

variable {D : Type} {V : Values D} {E : Stop → Prop}

/-! ## Registers -/

/-- The frame `fr'` is `fr` with values put into the registers `names`. -/
structure Frame.Sets (fr fr' : Frame D) (names : List Value) (values : List D) : Prop where
  function : fr'.function = fr.function
  kept : ∀ v, v ∉ names → fr'.registers v = fr.registers v
  set : ∀ v ∈ names, ∃ d ∈ values, fr'.registers v = some d

theorem Frame.Sets.refl (fr : Frame D) : fr.Sets fr [] [] :=
  ⟨rfl, fun _ _ => rfl, fun _ hv => absurd hv List.not_mem_nil⟩

theorem Frame.Sets.trans {fr fr' fr'' : Frame D} {names names' : List Value}
    {values values' : List D} (h : fr.Sets fr' names values) (h' : fr'.Sets fr'' names' values') :
    fr.Sets fr'' (names ++ names') (values ++ values') where
  function := h'.function.trans h.function
  kept v hv := by
    rw [List.mem_append, not_or] at hv
    rw [h'.kept v hv.2, h.kept v hv.1]
  set v hv := by
    by_cases hlast : v ∈ names'
    · obtain ⟨d, hd, hset⟩ := h'.set v hlast
      exact ⟨d, List.mem_append_right _ hd, hset⟩
    · obtain ⟨d, hd, hset⟩ := h.set v ((List.mem_append.mp hv).resolve_right hlast)
      exact ⟨d, List.mem_append_left _ hd, (h'.kept v hlast).trans hset⟩

theorem Frame.set_spec {fr : Frame D} {v : Value} {d : D} (hv : v < fr.function.dfg.values.len) :
    Attempts E (fr.set v d) fun fr' => fr.Sets fr' [v] [d] := by
  unfold Frame.set
  rw [if_pos hv]
  refine .ok ⟨rfl, fun u hu => ?_, fun u hu => ⟨d, List.mem_singleton_self d, ?_⟩⟩
  · exact Function.update_of_ne (fun heq => hu (List.mem_singleton.mpr heq)) _ _
  · rw [List.mem_singleton.mp hu]
    exact Function.update_self _ _ _

/-- As many values as registers can be put into them. -/
theorem Frame.setAll_spec {fr : Frame D} {names : List Value} {values : List D}
    (hlen : names.length = values.length) (hlt : ∀ v ∈ names, v < fr.function.dfg.values.len) :
    Attempts E (fr.setAll names values) fun fr' => fr.Sets fr' names values := by
  unfold Frame.setAll
  rw [if_pos hlen]
  have hloop : Attempts E ((names.zip values).foldlM (fun fr nv => fr.set nv.1 nv.2) fr) fun fr' =>
      fr.Sets fr' ((names.zip values).map Prod.fst) ((names.zip values).map Prod.snd) := by
    refine Attempts.foldlM (fun done fr' => fr.Sets fr' (done.map Prod.fst) (done.map Prod.snd))
      (.refl fr) fun done nv rest hdone fr' h => ?_
    have hmem : nv.1 ∈ names := by
      have hzip : nv ∈ names.zip values := by
        rw [hdone]
        simp
      exact (List.of_mem_zip hzip).1
    refine (Frame.set_spec (h.function ▸ hlt _ hmem)).mono fun fr'' h' => ?_
    rw [List.map_append, List.map_append]
    exact h.trans h'
  rwa [List.map_fst_zip hlen.le, List.map_snd_zip hlen.ge] at hloop

/-- The register of a value is set, to the address if the value is the address of a stack slot. The
slots of the frame start at `base`. -/
def Frame.Holds (V : Values D) (base : ℕ) (fr : Frame D) (v : Value) : Prop :=
  ∃ d, fr.registers v = some d ∧ ∀ slot offset, fr.function.StackAddr v slot offset →
    d = V.ofAddress (base + slotOffset fr.function slot + offset)

section Holds

variable {base : ℕ} {fr fr' : Frame D} {names : List Value} {values : List D} {v : Value}

theorem Frame.Holds.kept (h : fr.Holds V base v) (hs : fr.Sets fr' names values)
    (hv : v ∉ names) : fr'.Holds V base v := by
  obtain ⟨d, hd, haddr⟩ := h
  refine ⟨d, (hs.kept v hv).trans hd, ?_⟩
  rw [hs.function]
  exact haddr

theorem Frame.Sets.holds (hs : fr.Sets fr' names values) (hv : v ∈ names)
    (haddr : ∀ slot offset, fr.function.StackAddr v slot offset → ∀ d ∈ values,
      d = V.ofAddress (base + slotOffset fr.function slot + offset)) : fr'.Holds V base v := by
  obtain ⟨d, hd, hset⟩ := hs.set v hv
  refine ⟨d, hset, fun slot offset h => ?_⟩
  rw [hs.function] at h ⊢
  exact haddr slot offset h d hd

theorem Frame.get_spec {d : D} (hlt : v < fr.function.dfg.values.len)
    (hd : fr.registers v = some d) : fr.get v = .ok d := by
  unfold Frame.get
  rw [if_pos hlt, hd]

end Holds

/-! ## Places -/

/-- The frame is in block `b`, at the instruction `i` between `before` and `after`, and the values
that are available there are in their registers. -/
structure Frame.At (V : Values D) (base : ℕ) (fr : Frame D) (b : Block) (before : List Inst)
    (i : Inst) (after : List Inst) : Prop where
  inst : fr.inst = some i
  split : fr.function.layout.insts b = before ++ i :: after
  registers : ∀ v, fr.function.Available fr.function.entryBlock b before v → fr.Holds V base v

section At

variable {base : ℕ} {fr fr' : Frame D} {b c : Block} {before after : List Inst} {i j : Inst}
  {values : List D} {v : Value}

theorem Frame.At.mem (h : fr.At V base b before i after) : i ∈ fr.function.layout.insts b := by
  rw [h.split]
  simp

/-- What an instruction uses can be read. -/
theorem Frame.At.holds (h : fr.At V base b before i after) (hf : fr.function.Executable)
    (hv : v ∈ fr.function.uses i) : v < fr.function.dfg.values.len ∧ fr.Holds V base v := by
  have havail := hf.dominated b before i after h.split v hv
  exact ⟨havail.lt, h.registers v havail⟩

theorem Frame.At.get (h : fr.At V base b before i after) (hf : fr.function.Executable)
    (hv : v ∈ fr.function.uses i) : Attempts E (fr.get v) fun d => fr.registers v = some d := by
  obtain ⟨hlt, d, hd, -⟩ := h.holds hf hv
  rw [Frame.get_spec hlt hd]
  exact .ok hd

theorem Frame.At.getAll (h : fr.At V base b before i after) (hf : fr.function.Executable)
    {vs : List Value} (hvs : vs ⊆ fr.function.uses i) :
    Attempts E (fr.getAll vs) fun ds => ds.length = vs.length := by
  unfold Frame.getAll
  exact (Attempts.mapM fun v hv => h.get hf (hvs hv)).mono fun ds hds => hds.length_eq.symm

/-- The next instruction of the block. -/
theorem Frame.At.next (h : fr.At V base b before i (j :: after)) (hf : fr.function.Executable)
    (hs : fr.Sets fr' (fr.function.dfg.results i) values)
    (haddr : ∀ slot offset, fr.function.instData i = .stackLoad .stackAddr slot offset →
      ∀ d ∈ values, d = V.ofAddress (base + slotOffset fr.function slot + offset)) :
    (fr'.goto (nextInst fr.function.layout i)).At V base b (before ++ [i]) j after := by
  have hnodup := fr.function.layout.insts_nodup b
  rw [h.split] at hnodup
  have hnext : nextInst fr.function.layout i = some j := by
    unfold nextInst
    rw [Layout.instBlock_eq_some h.mem, Option.bind_some, h.split]
    refine ListEdit.next_eq fun hmem => ?_
    exact (List.nodup_append.mp hnodup).2.2 i hmem i List.mem_cons_self rfl
  refine ⟨hnext, ?_, fun v hv => ?_⟩
  · show fr'.function.layout.insts b = _
    rw [hs.function, h.split]
    simp
  · show fr'.Holds V base v
    change fr'.function.Available fr'.function.entryBlock b (before ++ [i]) v at hv
    rw [hs.function] at hv
    by_cases hres : v ∈ fr.function.dfg.results i
    · exact hs.holds hres fun slot offset hstack =>
        haddr slot offset (hf.stackAddr_of_result hres hstack)
    · -- it was available before the instruction
      refine (h.registers v ?_).kept hs hres
      refine hv.imp_right ?_
      rintro ⟨c, k, hk, hmem, hor⟩
      refine ⟨c, k, hk, hmem, hor.imp_right ?_⟩
      rintro ⟨rfl, hin⟩
      refine ⟨rfl, (List.mem_append.mp hin).resolve_right fun heq => hres ?_⟩
      rw [← List.mem_singleton.mp heq]
      obtain ⟨-, n, -, hn⟩ := hk
      exact List.mem_of_getElem? hn

theorem exists_firstInst {f : Function} (hf : f.Executable) (hc : c ∈ f.layout.blocks) :
    ∃ j after, f.layout.firstInst c = some j ∧ f.layout.insts c = [] ++ j :: after := by
  obtain ⟨front, last, hlast, -⟩ := hf.leaves c hc
  unfold Layout.firstInst
  cases hinsts : f.layout.insts c with
  | nil => simp [hinsts] at hlast
  | cons j after => exact ⟨j, after, rfl, rfl⟩

/-- Another block, by the last instruction of this one. -/
theorem Frame.At.branch (h : fr.At V base b before i []) (hf : fr.function.Executable)
    (hedge : fr.function.Edge b c) (hc : c ∈ fr.function.layout.blocks)
    (hres : fr.function.dfg.results i = [])
    (hs : fr.Sets fr' (fr.function.blockParams c) values) :
    ∃ j after, (fr'.goto (fr.function.layout.firstInst c)).At V base c [] j after := by
  obtain ⟨j, after, hfirst, hsplit⟩ := exists_firstInst hf hc
  refine ⟨j, after, hfirst, ?_, fun v hv => ?_⟩
  · show fr'.function.layout.insts c = _
    rw [hs.function, hsplit]
  · show fr'.Holds V base v
    change fr'.function.Available fr'.function.entryBlock c [] v at hv
    rw [hs.function] at hv
    by_cases hparam : v ∈ fr.function.blockParams c
    · exact hs.holds hparam fun slot offset hstack =>
        absurd hstack (hf.param_not_stackAddr hparam)
    · -- it comes from a block that dominates this one, and the one before
      refine (h.registers v ?_).kept hs hparam
      rcases hv with ⟨d, hd, hdom⟩ | ⟨d, k, hk, hmem, hor⟩
      · refine .inl ⟨d, hd, hdom.pred (fun heq => hparam ?_) hedge⟩
        subst heq
        obtain ⟨-, n, -, hn⟩ := hd
        exact List.mem_of_getElem? hn
      · obtain ⟨hdom, hne⟩ := hor.resolve_right fun hor => List.not_mem_nil hor.2
        refine .inr ⟨d, k, hk, hmem, ?_⟩
        by_cases hdb : d = b
        · subst hdb
          rw [h.split, List.mem_append, List.mem_singleton] at hmem
          refine .inr ⟨rfl, hmem.resolve_right fun heq => ?_⟩
          obtain ⟨-, n, -, hn⟩ := hk
          rw [heq, hres] at hn
          simp at hn
        · exact .inl ⟨hdom.pred hne hedge, hdb⟩

/-- The first block of a function. -/
theorem Frame.at_entry {f : Function} (hf : f.Executable)
    (hs : (Frame.new f).Sets fr' (f.blockParams f.entryBlock) values) :
    ∃ j after, (fr'.goto (f.layout.firstInst f.entryBlock)).At V base f.entryBlock [] j after := by
  obtain ⟨j, after, hfirst, hsplit⟩ := exists_firstInst hf hf.entered
  refine ⟨j, after, hfirst, ?_, fun v hv => ?_⟩
  · show fr'.function.layout.insts f.entryBlock = _
    rw [hs.function]
    exact hsplit
  · show fr'.Holds V base v
    change fr'.function.Available fr'.function.entryBlock f.entryBlock [] v at hv
    rw [hs.function] at hv
    -- only the first block itself dominates the first block
    have hself : ∀ d, Dominates f.Edge f.entryBlock d f.entryBlock → d = f.entryBlock :=
      fun d hd => List.mem_singleton.mp (hd _ .start)
    have hparam : v ∈ f.blockParams f.entryBlock := by
      rcases hv with ⟨d, hd, hdom⟩ | ⟨d, k, hk, hmem, ⟨hdom, hne⟩ | ⟨-, hin⟩⟩
      · obtain rfl := hself d hdom
        obtain ⟨-, n, -, hn⟩ := hd
        exact List.mem_of_getElem? hn
      · exact absurd (hself d hdom) hne
      · exact absurd hin List.not_mem_nil
    exact hs.holds hparam fun slot offset hstack =>
      absurd hstack (hf.param_not_stackAddr hparam)

end At

end Interpreter

end Clir
