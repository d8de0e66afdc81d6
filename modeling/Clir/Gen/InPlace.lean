import Clir.Gen.Generator
import Clir.Gen.Valid

set_option autoImplicit false

/-! # Edits in place

The other edits of the generator leave the layout alone. Block parameters, stack slots, the
signature and the imported functions change no instruction (`SameCode`). Operands are exchanged by
`withArguments`, and the arguments of block calls by overwriting a branch or its jump table
(`CallsEdited`). Each of them keeps what has been defined, and each keeps the invariant if the
operands it brings in are available.
-/

namespace Clir

open Graph

/-! ## Edits that change no instruction -/

/-- `g` has the layout, the instructions and the jump tables of `f`. -/
structure SameCode (f g : Function) : Prop where
  layout : g.layout = f.layout
  insts : g.dfg.insts = f.dfg.insts
  results : g.dfg.results = f.dfg.results
  jumpTables : g.dfg.jumpTables = f.dfg.jumpTables

namespace SameCode

variable {n : ℕ} {f g : Function} (h : SameCode f g)
include h

theorem instData (i : Inst) : g.instData i = f.instData i := by
  rw [Function.instData, h.insts]
  rfl

theorem branch (b : Block) : g.branch b = f.branch b := by
  refine Function.branch_congr (by rw [h.layout]) fun i _ => ?_
  rw [h.instData]
  exact Function.branchOf_congr h.jumpTables _

theorem callArgs (i : Inst) : g.callArgs i = f.callArgs i := by
  rw [Function.callArgs, Function.destinations, h.instData,
    Function.branchOf_congr h.jumpTables]
  rfl

theorem uses_iff {settled : Prop} {i : Inst} {v : Value} :
    g.Uses settled i v ↔ f.Uses settled i v := by
  unfold Function.Uses
  rw [h.callArgs, h.instData]

theorem keeps (hlen : f.dfg.values.len ≤ g.dfg.values.len)
    (hvalues : ∀ v < f.dfg.values.len, g.dfg.values.get v = f.dfg.values.get v)
    (hparams : ∀ (b : Block) (k : ℕ) (v : Value), n ≤ v → (f.blockParams b)[k]? = some v →
      (g.blockParams b)[k]? = some v)
    (hslots_len : f.sizedStackSlots.len ≤ g.sizedStackSlots.len)
    (hslots : ∀ s < f.sizedStackSlots.len,
      g.sizedStackSlots.get s = f.sizedStackSlots.get s) : Keeps n f g where
  blocks := by rw [h.layout]
  shape b := by rw [Function.terminator_congr (h.branch b)]
  tableOf b := Function.tableOf_congr (by rw [h.layout]) fun i _ => h.instData i
  tables_len := by rw [h.jumpTables]
  insts b := by rw [h.layout]; exact List.Subset.refl _
  insts_len := by rw [h.insts]
  opcode i _ := by rw [h.instData]
  pinned i _ _ := h.instData i
  args_lt i _ hlt v hv := (hlt v (by rwa [h.instData] at hv)).trans_le hlen
  argTypes i _ _ hlt := by
    rw [h.instData]
    exact List.map_congr_left fun v hv => congrArg ValueData.ty (hvalues v (hlt v hv))
  results i _ := by rw [h.results]
  values_len := hlen
  types v hv := congrArg ValueData.ty (hvalues v hv)
  values := hvalues
  params := hparams
  slots_len := hslots_len
  slots := hslots

end SameCode

/-- The invariant under an edit that changes no instruction. -/
theorem Valid.sameCode {S : Setting} {settled : Block → Prop} {f g : Function} {pools : ValueMap}
    (h : Valid S settled f pools) (hfg : Keeps S.base f g) (hcode : SameCode f g) :
    Valid S settled g pools :=
  h.edit hfg (fun b => by rw [hcode.layout]) fun _ _ _ _ _ _ hv => .inl (hcode.uses_iff.mp hv)

namespace Function

variable (f : Function) (n : ℕ) (b c : Block) (ty : ClifType)

/-! ### Block parameters -/

theorem sameCode_appendBlockParam : SameCode f (f.appendBlockParam b ty) := ⟨rfl, rfl, rfl, rfl⟩

theorem appendBlockParam_blockParams_self :
    (f.appendBlockParam b ty).blockParams b = f.blockParams b ++ [f.dfg.values.len] :=
  PrimaryMap.set_get_self _ _ _

variable {b c} in
theorem appendBlockParam_blockParams_of_ne (hc : c ≠ b) :
    (f.appendBlockParam b ty).blockParams c = f.blockParams c :=
  PrimaryMap.set_get_of_ne _ _ hc

theorem appendBlockParam_value_new :
    (f.appendBlockParam b ty).dfg.values.get f.dfg.values.len =
      ⟨ty, .param b (f.blockParams b).length⟩ :=
  PrimaryMap.push_get_self _ _

theorem keeps_appendBlockParam : Keeps n f (f.appendBlockParam b ty) := by
  have hold : ∀ v < f.dfg.values.len,
      (f.appendBlockParam b ty).dfg.values.get v = f.dfg.values.get v :=
    fun v hv => PrimaryMap.push_get_of_lt _ _ hv
  refine (sameCode_appendBlockParam f b ty).keeps (Nat.le_succ _) hold ?_ le_rfl fun _ _ => rfl
  intro c k v _ hk
  by_cases hc : c = b
  · subst hc
    rw [appendBlockParam_blockParams_self]
    rwa [List.getElem?_append_left (List.getElem?_eq_some_iff.mp hk).1]
  · rwa [appendBlockParam_blockParams_of_ne f ty hc]

theorem appendBlockParam_isParam : (f.appendBlockParam b ty).IsParam f.dfg.values.len b := by
  refine ⟨Nat.lt_succ_self _, (f.blockParams b).length, ?_, ?_⟩
  · rw [appendBlockParam_value_new]
  · rw [appendBlockParam_blockParams_self, List.getElem?_concat_length]

/-- A new parameter may be recorded with its type. -/
theorem recorded_appendBlockParam {S : Setting} (hbase : S.base ≤ f.dfg.values.len) :
    S.Recorded (f.appendBlockParam b ty) b ⟨f.dfg.values.len, ty⟩ :=
  ⟨hbase, .inl (f.appendBlockParam_isParam b ty),
    fun _ => .inl (congrArg ValueData.ty (f.appendBlockParam_value_new b ty))⟩

theorem sameCode_removeBlockParam (num : ℕ) : SameCode f (f.removeBlockParam b num) :=
  ⟨rfl, rfl, rfl, rfl⟩

variable {b} in
/-- Removing the only parameter of a block, one of the skeleton, moves no other one. -/
theorem keeps_removeBlockParam {v : Value} (hparams : f.blockParams b = [v]) (hv : v < n) :
    Keeps n f (f.removeBlockParam b 0) := by
  have hvalues : (f.removeBlockParam b 0).dfg.values = f.dfg.values := by
    simp [removeBlockParam, withDfg, hparams]
  refine (sameCode_removeBlockParam f b 0).keeps (by rw [hvalues]) (fun u _ => by rw [hvalues]) ?_
    le_rfl fun _ _ => rfl
  intro c k u hu hk
  by_cases hc : c = b
  · subst hc
    have hmem : u ∈ f.blockParams c := List.mem_of_getElem? hk
    rw [hparams, List.mem_singleton] at hmem
    exact absurd (hmem ▸ hu) (Nat.not_le.mpr hv)
  · rwa [show (f.removeBlockParam b 0).blockParams c = f.blockParams c from
      PrimaryMap.set_get_of_ne _ _ hc]

/-! ### Stack slots, signature, imported functions -/

theorem sameCode_createSizedStackSlot (size : ℕ) : SameCode f (f.createSizedStackSlot size) :=
  ⟨rfl, rfl, rfl, rfl⟩

theorem keeps_createSizedStackSlot (size : ℕ) : Keeps n f (f.createSizedStackSlot size) :=
  (sameCode_createSizedStackSlot f size).keeps le_rfl (fun _ _ => rfl)
    (fun _ _ _ _ h => h) (Nat.le_succ _) fun _ hs => PrimaryMap.push_get_of_lt _ _ hs

theorem sameCode_withSignature (signature : Signature) : SameCode f (f.withSignature signature) :=
  ⟨rfl, rfl, rfl, rfl⟩

theorem keeps_withSignature (signature : Signature) : Keeps n f (f.withSignature signature) :=
  (sameCode_withSignature f signature).keeps le_rfl (fun _ _ => rfl)
    (fun _ _ _ _ h => h) le_rfl fun _ _ => rfl

end Function

/-! ## Exchanging operands -/

namespace InstructionData

theorem opcode_withArguments (d : InstructionData) (vs : List Value) :
    (d.withArguments vs).opcode = d.opcode := by
  unfold withArguments
  split <;> rfl

theorem arguments_withArguments {d : InstructionData} {vs : List Value}
    (h : vs.length = d.arguments.length) : (d.withArguments vs).arguments = vs := by
  cases d with
  | jump | stackLoad =>
      rw [List.length_eq_zero_iff.mp h]
      rfl
  | brif | branchTable | load | stackStore =>
      obtain ⟨v, rfl⟩ := List.length_eq_one_iff.mp h
      rfl
  | store =>
      obtain ⟨v, p, rfl⟩ := List.length_eq_two.mp h
      rfl
  | call | multiAry | fixed => rfl

theorem withArguments_self (d : InstructionData) : d.withArguments d.arguments = d := by
  cases d <;> rfl

/-- The operands of a branch are not its destinations. -/
theorem branchOf_withArguments (f : Function) (d : InstructionData) (vs : List Value) :
    (f.branchOf (d.withArguments vs)).map Terminator.shape =
      (f.branchOf d).map Terminator.shape := by
  unfold withArguments
  split <;> rfl

theorem table_withArguments {d : InstructionData} {vs : List Value} {k : JumpTable} :
    (∃ v, d.withArguments vs = .branchTable v k) ↔ ∃ v, d = .branchTable v k := by
  unfold withArguments
  split <;> simp

end InstructionData

/-- The branches of `g` have the kinds, the destinations and the arguments of those of `f`. -/
def CallsKept (f g : Function) : Prop :=
  ∀ b, (g.branch b).map Terminator.shape = (f.branch b).map Terminator.shape

namespace Function

variable {f : Function} {n : ℕ} {i : Inst} {vs : List Value}

theorem replaceInst_instData_self (f : Function) (i : Inst) (data : InstructionData) :
    (f.replaceInst i data).instData i = data := PrimaryMap.set_get_self _ _ _

theorem replaceInst_instData_of_ne (f : Function) (data : InstructionData) {j : Inst}
    (h : j ≠ i) : (f.replaceInst i data).instData j = f.instData j :=
  PrimaryMap.set_get_of_ne _ _ h

/-- An instruction with other operands. -/
def withOperands (f : Function) (i : Inst) (vs : List Value) : Function :=
  f.replaceInst i ((f.instData i).withArguments vs)

/-- Operands may be exchanged for others of the same number and types, unless accesses to memory
depend on them. The condition of a branch is not checked for its type. -/
structure Exchange (f : Function) (i : Inst) (vs : List Value) : Prop where
  length : vs.length = (f.instData i).arguments.length
  pinned : (f.instData i).pinned = true → vs = (f.instData i).arguments
  lt : (∀ v ∈ (f.instData i).arguments, v < f.dfg.values.len) → ∀ v ∈ vs, v < f.dfg.values.len
  types : (f.instData i).opcode.isTerminator = false →
    (∀ v ∈ (f.instData i).arguments, v < f.dfg.values.len) →
      vs.map f.valueType = (f.instData i).arguments.map f.valueType

theorem withOperands_instData_self (f : Function) (i : Inst) (vs : List Value) :
    (f.withOperands i vs).instData i = (f.instData i).withArguments vs :=
  replaceInst_instData_self _ _ _

theorem withOperands_instData_of_ne {j : Inst} (h : j ≠ i) :
    (f.withOperands i vs).instData j = f.instData j :=
  replaceInst_instData_of_ne f _ h

theorem withOperands_opcode (j : Inst) :
    ((f.withOperands i vs).instData j).opcode = (f.instData j).opcode := by
  by_cases hj : j = i
  · rw [hj, withOperands_instData_self, InstructionData.opcode_withArguments]
  · rw [withOperands_instData_of_ne hj]

theorem withOperands_branchOf (f : Function) (i : Inst) (vs : List Value) (j : Inst) :
    ((f.withOperands i vs).branchOf ((f.withOperands i vs).instData j)).map Terminator.shape =
      (f.branchOf (f.instData j)).map Terminator.shape := by
  rw [branchOf_congr (show (f.withOperands i vs).dfg.jumpTables = f.dfg.jumpTables from rfl)]
  by_cases hj : j = i
  · rw [hj, withOperands_instData_self, InstructionData.branchOf_withArguments]
  · rw [withOperands_instData_of_ne hj]

theorem callsKept_withOperands (f : Function) (i : Inst) (vs : List Value) :
    CallsKept f (f.withOperands i vs) := by
  intro b
  unfold branch
  rw [show (f.withOperands i vs).layout = f.layout from rfl]
  cases f.layout.lastInst b with
  | none => rfl
  | some j => exact withOperands_branchOf f i vs j

theorem withOperands_callArgs (j : Inst) : (f.withOperands i vs).callArgs j = f.callArgs j := by
  have hshape := withOperands_branchOf f i vs j
  unfold callArgs destinations
  cases hg : (f.withOperands i vs).branchOf ((f.withOperands i vs).instData j) with
  | none =>
      rw [hg, Option.map_none, eq_comm, Option.map_eq_none_iff] at hshape
      rw [hshape]
  | some t =>
      rw [hg, Option.map_some] at hshape
      obtain ⟨t', ht', heq⟩ := Option.map_eq_some_iff.mp hshape.symm
      rw [ht']
      exact congrArg (List.flatMap BlockCall.args) (congrArg Prod.snd heq).symm

theorem keeps_withOperands (h : f.Exchange i vs) : Keeps n f (f.withOperands i vs) where
  blocks := rfl
  -- the operands are no destinations: the branches lead where they led
  shape b := by
    have hshape := callsKept_withOperands f i vs b
    have hmap : ∀ o : Option (Terminator BlockCall),
        (o.map (Terminator.map BlockCall.block)).map Terminator.shape =
          (o.map Terminator.shape).map fun p => (p.1, p.2.map BlockCall.block) := by
      intro o
      rcases o with - | ⟨_ | _ | _⟩ <;> rfl
    rw [terminator, terminator, hmap, hmap, hshape]
  tableOf b := by
    refine Option.ext fun k => ?_
    rw [tableOf_eq_some, tableOf_eq_some]
    refine exists_congr fun j => ?_
    rw [exists_and_left, exists_and_left]
    refine and_congr_right fun _ => ?_
    by_cases hj : j = i
    · rw [hj, withOperands_instData_self]
      exact InstructionData.table_withArguments
    · rw [withOperands_instData_of_ne hj]
  tables_len := rfl
  insts _ := List.Subset.refl _
  insts_len := le_rfl
  opcode j _ := withOperands_opcode j
  -- only `i` differs, and there the exchange says what is kept
  pinned j _ hp := by
    by_cases hj : j = i
    · subst hj
      rw [withOperands_instData_self, h.pinned hp, InstructionData.withArguments_self]
    · exact withOperands_instData_of_ne hj
  args_lt j _ hlt v hv := by
    by_cases hj : j = i
    · subst hj
      rw [withOperands_instData_self, InstructionData.arguments_withArguments h.length] at hv
      exact h.lt hlt v hv
    · rw [withOperands_instData_of_ne hj] at hv
      exact hlt v hv
  argTypes j _ hterm hlt := by
    by_cases hj : j = i
    · subst hj
      rw [withOperands_instData_self, InstructionData.arguments_withArguments h.length]
      exact h.types hterm hlt
    · rw [withOperands_instData_of_ne hj]
      rfl
  results _ _ := rfl
  values_len := le_rfl
  types _ _ := rfl
  values _ _ := rfl
  params _ _ _ _ hk := hk
  slots_len := le_rfl
  slots _ _ := rfl

end Function

namespace Valid

variable {S : Setting} {settled settled' : Block → Prop} {f g : Function} {pools : ValueMap}
  {b : Block} {i j : Inst} {vs : List Value} {before after : List Inst} {v : Value}

/-- A block has one terminator. -/
theorem terminator_unique (h : Valid S settled f pools) (hi : i ∈ f.layout.insts b)
    (hj : j ∈ f.layout.insts b) (hti : (f.instData i).opcode.isTerminator = true)
    (htj : (f.instData j).opcode.isTerminator = true) : i = j := by
  obtain ⟨p, q, hsplit⟩ := List.append_of_mem hi
  obtain ⟨p', q', hsplit'⟩ := List.append_of_mem hj
  obtain ⟨rfl, -⟩ := h.ends b p i q hsplit hti
  obtain ⟨rfl, -⟩ := h.ends b p' j q' hsplit' htj
  rw [hsplit] at hsplit'
  exact (List.cons.inj (List.append_inj' hsplit' rfl).2).1

/-- The branch of a block is the same instruction as in the skeleton, -/
theorem lastInst_eq (h : Valid S settled f pools) (hi : S.start.layout.lastInst b = some i) :
    f.layout.lastInst b = some i := by
  have hmem : i ∈ S.start.layout.insts b := List.mem_of_mem_getLast? hi
  have hterm : (f.instData i).opcode.isTerminator = true := by
    rw [h.frame.opcode i (S.start.insts_lt b i hmem)]
    exact S.skeleton.isTerminator hmem
  obtain ⟨before, after, hsplit⟩ := List.append_of_mem (h.frame.insts b hmem)
  obtain ⟨rfl, -⟩ := h.ends b before i after hsplit hterm
  rw [Layout.lastInst, hsplit, List.getLast?_concat]

theorem lastInst_of_edge (h : Valid S settled f pools) {c : Block} (he : S.start.Edge b c) :
    f.layout.lastInst b = S.start.layout.lastInst b := by
  obtain ⟨t, ht, -⟩ := he
  obtain ⟨i, -, hi, -⟩ := Function.exists_of_terminator ht
  rw [hi, h.lastInst_eq hi]

/-- so the predecessors of a block are the same. -/
theorem preds_eq (h : Valid S settled f pools) (b : Block) :
    (ControlFlowGraph.withFunction f).preds b = (ControlFlowGraph.withFunction S.start).preds b :=
  ControlFlowGraph.preds_congr (fun _ _ => h.frame.edge_iff) (fun _ _ he => h.lastInst_of_edge he) b

/-- Everything usable in a block is available at its terminator. -/
theorem available_at_end (h : Valid S settled f pools)
    (hsplit : f.layout.insts b = before ++ i :: after)
    (hterm : (f.instData i).opcode.isTerminator = true) (hv : f.Usable S.entry b v) :
    f.Available S.entry b before v := by
  obtain ⟨rfl, -⟩ := h.ends b before i after hsplit hterm
  refine hv.available fun j hj hnt => ?_
  rw [hsplit, List.mem_append, List.mem_singleton] at hj
  rcases hj with hj | rfl
  · exact hj
  · rw [hnt] at hterm
    cases hterm

/-- The condition of a block counts as chosen if its terminator has none. -/
theorem settle (h : Valid S settled f pools)
    (hsettled : ∀ c, settled' c → settled c ∨ c = b)
    (hb : ∀ i ∈ f.layout.insts b, (f.instData i).opcode.isTerminator = true →
      (f.instData i).arguments = []) : Valid S settled' f pools := by
  refine h.edit (Keeps.refl _ _) (fun _ => rfl) fun c before i after hsplit v hv => .inl ?_
  refine hv.imp_right fun ⟨hmem, hset⟩ => ⟨hmem, fun ht => ?_⟩
  rcases hsettled c (hset ht) with hc | rfl
  · exact hc
  · rw [hb i (by rw [hsplit]; simp) ht] at hmem
    exact absurd hmem List.not_mem_nil

/-- Exchanged operands keep the invariant if they are available. -/
theorem withOperands (h : Valid S settled f pools) (hi : i ∈ f.layout.insts b)
    (hex : f.Exchange i vs)
    (hsettled : ∀ c, settled' c →
      settled c ∨ c = b ∧ (f.instData i).opcode.isTerminator = true)
    (hvs : ∀ before after, f.layout.insts b = before ++ i :: after → ∀ v ∈ vs,
      v ∈ (f.instData i).arguments ∧ ((f.instData i).opcode.isTerminator = true → settled b) ∨
        S.base ≤ v ∧ f.Available S.entry b before v) :
    Valid S settled' (f.withOperands i vs) pools := by
  have hkeeps : Keeps S.base f (f.withOperands i vs) := Function.keeps_withOperands hex
  refine h.edit hkeeps (fun _ => rfl) fun c before j after hsplit v hv => ?_
  have hj : j ∈ f.layout.insts c := by rw [hsplit]; simp
  rcases hv with hv | ⟨hmem, hset⟩
  · rw [Function.withOperands_callArgs] at hv
    exact .inl (.inl hv)
  · rw [Function.withOperands_opcode] at hset
    by_cases hji : j = i
    · subst hji
      obtain rfl : b = c := f.layout.insts_disjoint b c j hi hj
      rw [Function.withOperands_instData_self,
        InstructionData.arguments_withArguments hex.length] at hmem
      rcases hvs before after hsplit v hmem with hold | ⟨hbase, havail⟩
      · exact .inl (.inr hold)
      · exact .inr ⟨hbase, hkeeps.available hbase (List.Subset.refl _) havail⟩
    · rw [Function.withOperands_instData_of_ne hji] at hmem
      refine .inl (.inr ⟨hmem, fun ht => ?_⟩)
      rcases hsettled c (hset ht) with hc | ⟨rfl, hti⟩
      · exact hc
      · exact absurd (h.terminator_unique hj hi ht hti) hji

end Valid

/-! ## Exchanging the arguments of block calls -/

/-- `g` is `f` with other arguments in the block calls of the branch of `p`. -/
structure CallsEdited (f g : Function) (p : Block) : Prop where
  layout : g.layout = f.layout
  values : g.dfg.values = f.dfg.values
  params : g.dfg.blocks = f.dfg.blocks
  results : g.dfg.results = f.dfg.results
  insts_len : g.dfg.insts.len = f.dfg.insts.len
  tables_len : g.dfg.jumpTables.len = f.dfg.jumpTables.len
  slots : g.sizedStackSlots = f.sizedStackSlots
  declaration : g.declaration = f.declaration
  opcode : ∀ i, (g.instData i).opcode = (f.instData i).opcode
  arguments : ∀ i, (g.instData i).arguments = (f.instData i).arguments
  plain : ∀ i, (f.instData i).isBranch = false → g.instData i = f.instData i
  tableOf : ∀ b, g.tableOf b = f.tableOf b
  terminator : ∀ b, g.terminator b = f.terminator b
  other : ∀ b ≠ p, g.branch b = f.branch b

namespace CallsEdited

variable {n : ℕ} {f g : Function} {p : Block}

theorem keeps (h : CallsEdited f g p) : Keeps n f g where
  blocks := by rw [h.layout]
  shape b := by rw [h.terminator b]
  tableOf := h.tableOf
  tables_len := h.tables_len
  insts b := by rw [h.layout]; exact List.Subset.refl _
  insts_len := by rw [h.insts_len]
  opcode i _ := h.opcode i
  pinned i _ hp := by
    refine h.plain i ?_
    cases hd : f.instData i <;> first | rfl | (rw [hd] at hp; cases hp)
  args_lt i _ hlt v hv := by
    rw [h.arguments] at hv
    rw [h.values]
    exact hlt v hv
  argTypes i _ _ _ := by
    rw [h.arguments]
    exact List.map_congr_left fun v _ => by rw [Function.valueType, h.values]; rfl
  results i _ := by rw [h.results]
  values_len := by rw [h.values]
  types v _ := by rw [Function.valueType, h.values]; rfl
  values v _ := by rw [h.values]
  params b k v _ hk := by
    rw [Function.blockParams, h.params]
    exact hk
  slots_len := by rw [h.slots]
  slots s _ := by rw [h.slots]

/-- A branch that is overwritten in place, with the same operand and the same destinations. -/
theorem replaceInst {i : Inst} {data : InstructionData} (hi : f.layout.lastInst p = some i)
    (hop : data.opcode = (f.instData i).opcode)
    (hargs : data.arguments = (f.instData i).arguments)
    (hbr : (f.instData i).isBranch = true)
    (htable : ∀ v k, f.instData i ≠ .branchTable v k) (htable' : ∀ v k, data ≠ .branchTable v k)
    (hblocks : (f.branchOf data).map (Terminator.map BlockCall.block) =
      (f.branchOf (f.instData i)).map (Terminator.map BlockCall.block)) :
    CallsEdited f (f.replaceInst i data) p := by
  have hself := Function.replaceInst_instData_self f i data
  have hne : ∀ j ≠ i, (f.replaceInst i data).instData j = f.instData j :=
    fun j hj => Function.replaceInst_instData_of_ne f data hj
  -- `i` stands in one block only, so the other branches are other instructions
  have hother : ∀ b ≠ p, ∀ j, f.layout.lastInst b = some j → j ≠ i := by
    rintro b hb j hj rfl
    exact hb (f.layout.insts_disjoint b p j (List.mem_of_mem_getLast? hj)
      (List.mem_of_mem_getLast? hi))
  refine ⟨rfl, rfl, rfl, rfl, rfl, rfl, rfl, rfl, fun j => ?_, fun j => ?_, fun j hj => ?_,
    fun b => ?_, fun b => ?_, fun b hb => ?_⟩
  · by_cases hj : j = i
    · rw [hj, hself, hop]
    · rw [hne j hj]
  · by_cases hj : j = i
    · rw [hj, hself, hargs]
    · rw [hne j hj]
  · refine hne j ?_
    rintro rfl
    rw [hbr] at hj
    cases hj
  · refine Option.ext fun k => ?_
    rw [Function.tableOf_eq_some, Function.tableOf_eq_some]
    refine exists_congr fun j => exists_congr fun v => and_congr_right fun _ => ?_
    by_cases hj : j = i
    · rw [hj, hself]
      exact ⟨fun h => absurd h (htable' v k), fun h => absurd h (htable v k)⟩
    · rw [hne j hj]
  · by_cases hb : b = p
    · rw [hb, Function.terminator_of_lastInst hi, Function.terminator_of_lastInst
        (show (f.replaceInst i data).layout.lastInst p = some i from hi), hself, ← hblocks]
      exact congrArg _ (Function.branchOf_congr rfl data)
    · refine Function.terminator_congr (Function.branch_congr rfl fun j hj => ?_)
      rw [hne j (hother b hb j hj)]
      exact Function.branchOf_congr rfl _
  · refine Function.branch_congr rfl fun j hj => ?_
    rw [hne j (hother b hb j hj)]
    exact Function.branchOf_congr rfl _

/-- A jump table that no other branch names, with the same destinations. -/
theorem setJumpTable {k : JumpTable} {t : JumpTableData} (hk : f.tableOf p = some k)
    (hapart : f.TablesApart)
    (hblocks : t.allBranches.map BlockCall.block =
      (f.dfg.jumpTables.get k).allBranches.map BlockCall.block) :
    CallsEdited f (f.setJumpTable k t) p := by
  obtain ⟨i, v, hi, hdata⟩ := Function.tableOf_eq_some.mp hk
  have hother : ∀ b ≠ p, (f.setJumpTable k t).branch b = f.branch b := by
    intro b hb
    refine Function.branch_congr rfl fun j hj => ?_
    rw [show (f.setJumpTable k t).instData j = f.instData j from rfl,
      Function.setJumpTable_branchOf]
    cases hjd : f.instData j with
    | branchTable u k' =>
        refine if_neg ?_
        rintro rfl
        exact hb (hapart b p k' (Function.tableOf_eq_some.mpr ⟨j, u, hj, hjd⟩) hk)
    | _ => rfl
  refine ⟨rfl, rfl, rfl, rfl, rfl, rfl, rfl, rfl, fun _ => rfl, fun _ => rfl, fun _ _ => rfl,
    fun _ => rfl, fun b => ?_, hother⟩
  by_cases hb : b = p
  · rw [hb, Function.terminator_of_lastInst hi, Function.terminator_of_lastInst
      (show (f.setJumpTable k t).layout.lastInst p = some i from hi),
      show (f.setJumpTable k t).instData i = .branchTable v k from hdata, hdata,
      Function.setJumpTable_branchOf]
    obtain ⟨hdefault, hcases⟩ := List.cons.inj hblocks
    simp only [if_true, Function.branchOf, Option.map_some, Terminator.map, hdefault, hcases]
  · exact Function.terminator_congr (hother b hb)

end CallsEdited

namespace Valid

variable {S : Setting} {settled : Block → Prop} {f g : Function} {pools : ValueMap} {b p : Block}
  {i : Inst} {v : Value}

/-- New arguments of block calls keep the invariant if the block may use them. -/
theorem callsEdited (h : Valid S settled f pools) (hed : CallsEdited f g p)
    (hargs : ∀ t, g.branch p = some t → ∀ c ∈ t.targets, ∀ v ∈ c.args,
      (∃ t₀, f.branch p = some t₀ ∧ ∃ c₀ ∈ t₀.targets, v ∈ c₀.args) ∨
        S.base ≤ v ∧ f.Usable S.entry p v) : Valid S settled g pools := by
  have hkeeps : Keeps S.base f g := hed.keeps
  have hlast : ∀ b, g.layout.lastInst b = f.layout.lastInst b := fun b => by rw [hed.layout]
  refine h.edit hkeeps (fun b => by rw [hed.layout]) fun b before i after hsplit v hv => ?_
  have hi : i ∈ f.layout.insts b := by rw [hsplit]; simp
  -- a use is an argument of a block call or an operand; only the former can be new
  rcases hv with hv | ⟨hmem, hset⟩
  · obtain ⟨c, hc, hvc⟩ := List.mem_flatMap.mp hv
    unfold Function.destinations at hc
    cases hbr : g.branchOf (g.instData i) with
    | none => simp [hbr] at hc
    | some t =>
        rw [hbr] at hc
        have hterm : (f.instData i).opcode.isTerminator = true := by
          rw [← hed.opcode i]
          exact InstructionData.isTerminator_of_isBranch (InstructionData.isBranch_of_branchOf hbr)
        obtain ⟨rfl, -⟩ := h.ends b before i after hsplit hterm
        have hlastf : f.layout.lastInst b = some i := by
          rw [Layout.lastInst, hsplit, List.getLast?_concat]
        have hbranch : g.branch b = some t := by
          rw [Function.branch, hlast, hlastf, Option.bind_some, hbr]
        -- what was an argument before is a use of the same instruction before
        have hold : ∀ t₀, f.branch b = some t₀ → (∃ c₀ ∈ t₀.targets, v ∈ c₀.args) →
            f.Uses (settled b) i v := by
          rintro t₀ ht₀ ⟨c₀, hc₀, hvc₀⟩
          left
          rw [Function.callArgs_of_branch hlastf, ht₀]
          exact List.mem_flatMap.mpr ⟨c₀, hc₀, hvc₀⟩
        by_cases hb : b = p
        · subst hb
          rcases hargs t hbranch c hc v hvc with ⟨t₀, ht₀, hc₀⟩ | ⟨hbase, husable⟩
          · exact .inl (hold t₀ ht₀ hc₀)
          · exact .inr ⟨hbase, hkeeps.available hbase (List.Subset.refl _)
              (h.available_at_end hsplit hterm husable)⟩
        · rw [hed.other b hb] at hbranch
          exact .inl (hold t hbranch ⟨c, hc, hvc⟩)
  · rw [hed.arguments] at hmem
    rw [hed.opcode] at hset
    exact .inl (.inr ⟨hmem, hset⟩)

end Valid

end Clir
