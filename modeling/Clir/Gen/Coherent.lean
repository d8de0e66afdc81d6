import Clir.Gen.Evolution

set_option autoImplicit false

/-! # The data flow graph agrees with itself

A value knows where it comes from, and blocks and instructions list their values. The two agree:
the value at place `k` of a list is recorded as number `k` of its block or instruction. Appending
keeps that, as numbers are given in order, and so does `remove_block_param`, as it renumbers the
parameters behind the removed one. Hence no value is listed twice.
-/

namespace Clir

/-- `v` is a value that is recorded to come from `source`. -/
def DataFlowGraph.ComesFrom (d : DataFlowGraph) (v : Value) (source : ValueDef) : Prop :=
  v < d.values.len ∧ (d.values.get v).source = source

/-- Every value that is listed comes from the place where it is listed. -/
structure DataFlowGraph.Coherent (d : DataFlowGraph) : Prop where
  params : ∀ (b : Block) (k : ℕ) (v : Value), (d.blocks.get b)[k]? = some v →
    d.ComesFrom v (.param b k)
  results : ∀ (i : Inst) (k : ℕ) (v : Value), (d.results i)[k]? = some v →
    d.ComesFrom v (.result i k)

theorem DataFlowGraph.Coherent.params_lt {d : DataFlowGraph} (h : d.Coherent) {b : Block}
    {v : Value} (hv : v ∈ d.blocks.get b) : v < d.values.len := by
  obtain ⟨k, hk⟩ := List.mem_iff_getElem?.mp hv
  exact (h.params b k v hk).1

theorem DataFlowGraph.Coherent.results_lt {d : DataFlowGraph} (h : d.Coherent) {i : Inst}
    {v : Value} (hv : v ∈ d.results i) : v < d.values.len := by
  obtain ⟨k, hk⟩ := List.mem_iff_getElem?.mp hv
  exact (h.results i k v hk).1

/-! ## Renumbering -/

section Renumber

variable {values : PrimaryMap ValueData} {v u : Value} {vs : List Value}

@[simp] theorem renumberParam_len (values : PrimaryMap ValueData) (v : Value) :
    (Function.renumberParam values v).len = values.len := by
  unfold Function.renumberParam
  split <;> rfl

theorem renumberParam_get_of_ne (h : u ≠ v) :
    (Function.renumberParam values v).get u = values.get u := by
  unfold Function.renumberParam
  split
  · exact PrimaryMap.set_get_of_ne _ _ h
  · rfl

theorem renumberParam_source {b : Block} {k : ℕ} (h : (values.get v).source = .param b (k + 1)) :
    ((Function.renumberParam values v).get v).source = .param b k := by
  unfold Function.renumberParam
  split
  · rename_i ty c num heq
    rw [heq] at h
    cases h
    rw [PrimaryMap.set_get_self, Nat.add_sub_cancel]
  · rename_i ty i num heq
    rw [heq] at h
    cases h

@[simp] theorem foldl_renumberParam_len (values : PrimaryMap ValueData) (vs : List Value) :
    (vs.foldl Function.renumberParam values).len = values.len := by
  induction vs generalizing values with
  | nil => rfl
  | cons v vs ih => rw [List.foldl_cons, ih, renumberParam_len]

theorem foldl_renumberParam_get (h : u ∉ vs) :
    (vs.foldl Function.renumberParam values).get u = values.get u := by
  induction vs generalizing values with
  | nil => rfl
  | cons v vs ih =>
      obtain ⟨hne, hrest⟩ := List.ne_and_not_mem_of_not_mem_cons h
      rw [List.foldl_cons, ih hrest, renumberParam_get_of_ne hne]

/-- A value of the list moves down by one place, if it is there only once. -/
theorem foldl_renumberParam_source {b : Block} {k : ℕ} (hnodup : vs.Nodup) (hu : u ∈ vs)
    (h : (values.get u).source = .param b (k + 1)) :
    ((vs.foldl Function.renumberParam values).get u).source = .param b k := by
  induction vs generalizing values with
  | nil => exact absurd hu List.not_mem_nil
  | cons v vs ih =>
      obtain ⟨hv, hvs⟩ := List.nodup_cons.mp hnodup
      rw [List.foldl_cons]
      by_cases huv : u = v
      · subst huv
        rw [foldl_renumberParam_get hv]
        exact renumberParam_source h
      · refine ih hvs ((List.mem_cons.mp hu).resolve_left huv) ?_
        rw [renumberParam_get_of_ne huv]
        exact h

end Renumber

/-! ## Edits -/

namespace DataFlowGraph

variable {d e : DataFlowGraph} {b c : Block} {i : Inst} {v : Value} {k : ℕ}

theorem ComesFrom.unique {source source' : ValueDef} (h : d.ComesFrom v source)
    (h' : d.ComesFrom v source') : source = source' :=
  h.2.symm.trans h'.2

namespace Coherent

/-- No value is listed twice as a parameter of a block. -/
theorem params_nodup (h : d.Coherent) (b : Block) : (d.blocks.get b).Nodup := by
  refine List.nodup_iff_getElem?_ne_getElem?.mpr fun j k hjk hk heq => ?_
  rw [List.getElem?_eq_getElem hk] at heq
  have hj := h.params b j _ heq
  have hk := h.params b k _ (List.getElem?_eq_getElem hk)
  have : j = k := by simpa using hj.unique hk
  omega

/-- An edit that leaves the lists and the recorded sources alone. -/
theorem congr (h : d.Coherent) (hvalues : e.values = d.values) (hblocks : e.blocks = d.blocks)
    (hresults : e.results = d.results) : e.Coherent where
  params b k v hk := by
    rw [hblocks] at hk
    unfold ComesFrom
    rw [hvalues]
    exact h.params b k v hk
  results i k v hk := by
    rw [hresults] at hk
    unfold ComesFrom
    rw [hvalues]
    exact h.results i k v hk

end Coherent

end DataFlowGraph

namespace Function

open DataFlowGraph

variable {f : Function}

theorem coherent_new (name : FuncName) (signature : Signature) :
    (Function.new name signature).dfg.Coherent where
  params b k v hk := absurd (show ([] : List Value)[k]? = some v from hk) (by simp)
  results i k v hk := absurd (show ([] : List Value)[k]? = some v from hk) (by simp)

theorem coherent_makeBlock (h : f.dfg.Coherent) : f.makeBlock.dfg.Coherent where
  params b k v hk := by
    by_cases hb : b = f.dfg.blocks.len
    · subst hb
      simp [makeBlock, withDfg] at hk
    · refine h.params b k v ?_
      simpa [makeBlock, withDfg, PrimaryMap.push_get_of_ne _ _ hb] using hk
  results := h.results

theorem coherent_appendBlockParam (h : f.dfg.Coherent) (b : Block) (ty : ClifType) :
    (f.appendBlockParam b ty).dfg.Coherent := by
  have hold : ∀ {v source}, f.dfg.ComesFrom v source →
      (f.appendBlockParam b ty).dfg.ComesFrom v source := by
    intro v source hv
    refine ⟨Nat.lt_succ_of_lt hv.1, ?_⟩
    rw [← hv.2]
    exact congrArg ValueData.source (PrimaryMap.push_get_of_lt _ _ hv.1)
  refine ⟨fun c k v hk => ?_, fun i k v hk => hold (h.results i k v hk)⟩
  by_cases hc : c = b
  · subst hc
    have hk' : (f.blockParams c ++ [f.dfg.values.len])[k]? = some v := by
      simpa [appendBlockParam, withDfg] using hk
    rcases Nat.lt_or_ge k (f.blockParams c).length with hlt | hge
    · rw [List.getElem?_append_left hlt] at hk'
      exact hold (h.params c k v hk')
    · -- the new parameter
      rw [List.getElem?_append_right hge, List.getElem?_singleton] at hk'
      obtain ⟨hzero, rfl⟩ : k - (f.blockParams c).length = 0 ∧ f.dfg.values.len = v := by
        simpa using hk'
      refine ⟨Nat.lt_succ_self _, ?_⟩
      have hnum : k = (f.blockParams c).length := by omega
      subst hnum
      exact congrArg ValueData.source (PrimaryMap.push_get_self _ _)
  · refine hold (h.params c k v ?_)
    simpa [appendBlockParam, withDfg, PrimaryMap.set_get_of_ne _ _ hc] using hk

/-- The parameters behind the removed one are renumbered, and no other value is. -/
theorem coherent_removeBlockParam (h : f.dfg.Coherent) (b : Block) (num : ℕ) :
    (f.removeBlockParam b num).dfg.Coherent := by
  have hother : ∀ {v source}, f.dfg.ComesFrom v source → v ∉ (f.blockParams b).drop (num + 1) →
      (f.removeBlockParam b num).dfg.ComesFrom v source := by
    intro v source hv hmem
    refine ⟨hv.1.trans_eq (foldl_renumberParam_len _ _).symm, ?_⟩
    rw [← hv.2]
    exact congrArg ValueData.source (foldl_renumberParam_get hmem)
  -- what is behind the removed parameter comes from a later place of the block
  have hbehind : ∀ v ∈ (f.blockParams b).drop (num + 1), ∃ j, f.dfg.ComesFrom v (.param b j) ∧
      num < j := by
    intro v hv
    obtain ⟨j, hj⟩ := List.mem_iff_getElem?.mp hv
    rw [List.getElem?_drop] at hj
    exact ⟨num + 1 + j, h.params b _ v hj, by omega⟩
  constructor
  · intro c k v hk
    by_cases hc : c = b
    · subst hc
      have hk' : ((f.blockParams c).eraseIdx num)[k]? = some v := by
        simpa [removeBlockParam, withDfg] using hk
      rw [List.getElem?_eraseIdx] at hk'
      split at hk'
      · refine hother (h.params c k v hk') fun hmem => ?_
        obtain ⟨j, hj, hlt⟩ := hbehind v hmem
        have : k = j := by simpa using (h.params c k v hk').unique hj
        omega
      · have hv := h.params c (k + 1) v hk'
        refine ⟨hv.1.trans_eq (foldl_renumberParam_len _ _).symm, ?_⟩
        refine foldl_renumberParam_source ((h.params_nodup c).sublist (List.drop_sublist _ _)) ?_
          hv.2
        refine List.mem_iff_getElem?.mpr ⟨k - num, ?_⟩
        rw [List.getElem?_drop, show num + 1 + (k - num) = k + 1 by omega]
        exact hk'
    · have hv : f.dfg.ComesFrom v (.param c k) := by
        refine h.params c k v ?_
        simpa [removeBlockParam, withDfg, PrimaryMap.set_get_of_ne _ _ hc] using hk
      refine hother hv fun hmem => ?_
      obtain ⟨j, hj, -⟩ := hbehind v hmem
      have := hv.unique hj
      simp_all
  · intro i k v hk
    have hv := h.results i k v hk
    refine hother hv fun hmem => ?_
    obtain ⟨j, hj, -⟩ := hbehind v hmem
    exact ValueDef.noConfusion (hv.unique hj)

theorem coherent_makeInst (h : f.dfg.Coherent) (data : InstructionData) (tys : List ClifType) :
    (f.makeInst data tys).dfg.Coherent := by
  have hold : ∀ {v source}, f.dfg.ComesFrom v source →
      (f.makeInst data tys).dfg.ComesFrom v source := by
    intro v source hv
    refine ⟨?_, ?_⟩
    · exact hv.1.trans_le ((Nat.le_add_right _ _).trans_eq (pushResults_len _ _ _ _).symm)
    · rw [← hv.2]
      exact congrArg ValueData.source (pushResults_get_of_lt _ _ _ hv.1)
  refine ⟨fun b k v hk => hold (h.params b k v hk), fun i k v hk => ?_⟩
  by_cases hi : i = f.dfg.insts.len
  · subst hi
    have hk' : (List.range' f.dfg.values.len tys.length)[k]? = some v := by
      simpa [makeInst, withDfg] using hk
    obtain ⟨hlt, rfl⟩ : k < tys.length ∧ f.dfg.values.len + k = v := by
      obtain ⟨hlt, hget⟩ := List.getElem?_eq_some_iff.mp hk'
      simpa using And.intro hlt hget
    have hnew := @pushResults_get_new f.dfg.values f.dfg.insts.len 0 tys k _
      (List.getElem?_eq_getElem hlt)
    rw [Nat.zero_add] at hnew
    refine ⟨?_, congrArg ValueData.source hnew⟩
    exact (Nat.add_lt_add_left hlt _).trans_eq (pushResults_len _ _ _ _).symm
  · refine hold (h.results i k v ?_)
    simpa [makeInst, withDfg, hi] using hk

end Function

/-- Every edit keeps the data flow graph coherent. -/
theorem closed_coherent (A : Opcode → List ClifType → Prop) : Closed A fun f => f.dfg.Coherent := by
  intro f g h hf
  have hmade : ∀ data tys, g.dfg = (f.makeInst data tys).dfg → g.dfg.Coherent := by
    intro data tys hdfg
    rw [hdfg]
    exact Function.coherent_makeInst hf data tys
  cases h with
  | makeBlock => exact Function.coherent_makeBlock hf
  | appendBlockParam b ty => exact Function.coherent_appendBlockParam hf b ty
  | removeBlockParam b num => exact Function.coherent_removeBlockParam hf b num
  | inserted ctrl hop hdata htys he => exact hmade _ _ he.dfg
  | called hr he => exact hmade _ _ he.dfg
  | _ => exact hf.congr rfl rfl rfl

/-! ## How instructions are built -/

/-- How an instruction has been built: its opcode is structural or `A` holds of it and the types of
its results, which are those of the opcode, or it is a call, and they are those that the function
returns. -/
inductive Function.Built (A : Opcode → List ClifType → Prop) (f : Function) (i : Inst) : Prop
  | inserted (ctrl : ClifType) (hop : (f.instData i).opcode.isStructural = true ∨
        A (f.instData i).opcode ((f.dfg.results i).map f.valueType))
      (hdata : (f.instData i).Insertable f)
      (hresults : (f.instData i).opcode.resultTypes ctrl = some ((f.dfg.results i).map f.valueType))
  | called {r : FuncRef} {data : ExtFuncData} (hr : (f.instData i).callee = some r)
      (hdata : f.extFuncs.get? r = some data)
      (hresults : (f.dfg.results i).map f.valueType = data.signature.returns)

section Built

variable {A : Opcode → List ClifType → Prop} {f g : Function} {i : Inst}

theorem renumberParam_ty (values : PrimaryMap ValueData) (v u : Value) :
    ((Function.renumberParam values v).get u).ty = (values.get u).ty := by
  by_cases h : u = v
  · subst h
    unfold Function.renumberParam
    split
    · rename_i ty b num heq
      rw [PrimaryMap.set_get_self, heq]
    · rfl
  · rw [renumberParam_get_of_ne h]

theorem foldl_renumberParam_ty (values : PrimaryMap ValueData) (vs : List Value) (u : Value) :
    ((vs.foldl Function.renumberParam values).get u).ty = (values.get u).ty := by
  induction vs generalizing values with
  | nil => rfl
  | cons v vs ih => rw [List.foldl_cons, ih, renumberParam_ty]

theorem InstructionData.opcode_of_frame {d e : InstructionData} (h : d.frame = e.frame) :
    d.opcode = e.opcode := congrArg Frame.opcode h

theorem InstructionData.callee_of_frame {d e : InstructionData} (h : d.frame = e.frame) :
    d.callee = e.callee := congrArg Frame.callee h

theorem InstructionData.stackSlot_of_frame {d e : InstructionData} (h : d.frame = e.frame) :
    d.stackSlot = e.stackSlot := congrArg Frame.stackSlot h

theorem InstructionData.formatted_of_frame {d e : InstructionData} (h : d.frame = e.frame) :
    d.formatted = e.formatted := congrArg Frame.formatted h

/-- An edit that keeps what an instruction was built from. -/
theorem Function.Built.keep (h : f.Built A i) (hframe : (g.instData i).frame = (f.instData i).frame)
    (hslots : f.sizedStackSlots.len ≤ g.sizedStackSlots.len)
    (hext : ∀ r data, f.extFuncs.get? r = some data → g.extFuncs.get? r = some data)
    (hresults : g.dfg.results i = f.dfg.results i)
    (htypes : ∀ v ∈ f.dfg.results i, g.valueType v = f.valueType v) : g.Built A i := by
  have hmap : (g.dfg.results i).map g.valueType = (f.dfg.results i).map f.valueType := by
    rw [hresults]
    exact List.map_congr_left htypes
  have hop := InstructionData.opcode_of_frame hframe
  have hcallee := InstructionData.callee_of_frame hframe
  have hslot := InstructionData.stackSlot_of_frame hframe
  cases h with
  | inserted ctrl hA hdata hres =>
      refine .inserted ctrl ?_ ⟨hcallee.trans hdata.callee, fun slot hs => ?_,
        (InstructionData.formatted_of_frame hframe).trans hdata.formatted⟩ ?_
      · rw [hop, hmap]
        exact hA
      · exact (hdata.slot slot (hslot ▸ hs)).trans_le hslots
      · rw [hop, hmap]
        exact hres
  | called hr hdata hres => exact .called (hcallee.trans hr) (hext _ _ hdata) (hmap.trans hres)

/-- **Every edit keeps how instructions are built.** -/
theorem closed_built (A : Opcode → List ClifType → Prop) : Closed A fun f =>
    f.dfg.Coherent ∧ ∀ i < f.dfg.insts.len, f.Built A i := by
  rintro f g h ⟨hcoherent, hbuilt⟩
  refine ⟨closed_coherent A h hcoherent, ?_⟩
  have hold : ∀ {b before after data tys}, Emitted f g b before after data tys →
      ∀ i < f.dfg.insts.len, g.Built A i := by
    intro b before after data tys he i hi
    refine (hbuilt i hi).keep (by rw [he.instData_old hi]) ?_ ?_ (he.results_old hi) ?_
    · rw [he.sizedStackSlots]
    · intro r data hr
      rw [he.extFuncs]
      exact hr
    · exact fun v hv => congrArg ValueData.ty (he.values_old (hcoherent.results_lt hv))
  cases h with
  | appendBlockParam b ty =>
      exact fun i hi => (hbuilt i hi).keep rfl le_rfl (fun _ _ => id) rfl fun v hv =>
        congrArg ValueData.ty (PrimaryMap.push_get_of_lt _ _ (hcoherent.results_lt hv))
  | removeBlockParam b num =>
      exact fun i hi => (hbuilt i hi).keep rfl le_rfl (fun _ _ => id) rfl fun v _ =>
        foldl_renumberParam_ty _ _ _
  | replaceInst j data hj hframe =>
      intro i hi
      exact (hbuilt i hi).keep
        ((closed_frames A i _ (.replaceInst f j data hj hframe) ⟨hi, rfl⟩).2) le_rfl
        (fun _ _ => id) rfl fun _ _ => rfl
  | createSizedStackSlot size =>
      exact fun i hi => (hbuilt i hi).keep rfl (Nat.le_succ _) (fun _ _ => id) rfl fun _ _ => rfl
  | importFunction data =>
      exact fun i hi => (hbuilt i hi).keep rfl le_rfl
        (fun _ _ hr => PrimaryMap.get?_push_of_eq_some data hr) rfl fun _ _ => rfl
  | inserted ctrl hop hdata htys he =>
      intro i hi
      rw [he.insts_len] at hi
      rcases Nat.lt_succ_iff_lt_or_eq.mp hi with hi | rfl
      · exact hold he i hi
      · refine .inserted ctrl ?_ ⟨?_, fun slot hslot => ?_, ?_⟩ ?_
        · rw [he.instData_new, he.resultTypes_new]
          exact hop
        · rw [he.instData_new]
          exact hdata.callee
        · rw [he.instData_new] at hslot
          rw [he.sizedStackSlots]
          exact hdata.slot slot hslot
        · rw [he.instData_new]
          exact hdata.formatted
        · rw [he.instData_new, he.resultTypes_new]
          exact htys
  | called hr he =>
      intro i hi
      rw [he.insts_len] at hi
      rcases Nat.lt_succ_iff_lt_or_eq.mp hi with hi | rfl
      · exact hold he i hi
      · refine .called (by rw [he.instData_new]; rfl) ?_ (he.resultTypes_new)
        rw [he.extFuncs]
        exact hr
  | _ => exact fun i hi => (hbuilt i hi).keep rfl le_rfl (fun _ _ => id) rfl fun _ _ => rfl

end Built

end Clir
