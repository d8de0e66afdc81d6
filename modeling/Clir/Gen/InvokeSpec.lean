import Clir.Gen.Build

set_option autoImplicit false

/-! # Inserting calls

A call is inserted in front of the terminator of a block, and its results are offered to one
instruction of a block that it dominates. `Stays` is what such edits leave alone: the branches
with all their arguments, the parameters, the last instruction of each block, the order of the
instructions that were there, and the types of their operands. The maps of the generator stay
true of the function, so they may be used for one call after another.
-/

namespace Clir

open Cmd Cursor Graph Relation

/-- The function that an instruction calls. -/
def InstructionData.callee : InstructionData → Option FuncRef
  | .call g _ => some g
  | _ => none

theorem InstructionData.callee_withArguments (d : InstructionData) (vs : List Value) :
    (d.withArguments vs).callee = d.callee := by
  unfold withArguments
  split <;> rfl

/-- What the insertion of calls leaves alone. -/
structure Stays (S : Setting) (f g : Function) : Prop where
  keeps : Keeps S.base f g
  calls : CallsKept f g
  params : ∀ c, g.blockParams c = f.blockParams c
  lastInst : ∀ c, g.layout.lastInst c = f.layout.lastInst c
  order : ∀ c, (g.layout.insts c).filter (· < f.dfg.insts.len) = f.layout.insts c
  operands : ∀ i < f.dfg.insts.len, (∀ v ∈ (f.instData i).arguments, v < f.dfg.values.len) →
    (g.instData i).arguments.map g.valueType = (f.instData i).arguments.map f.valueType
  callee : ∀ i < f.dfg.insts.len, (g.instData i).callee = (f.instData i).callee
  extFuncs_len : f.extFuncs.len ≤ g.extFuncs.len
  extFuncs : ∀ r < f.extFuncs.len, g.extFuncs.get r = f.extFuncs.get r
  slots : g.sizedStackSlots = f.sizedStackSlots
  name : g.name = f.name
  signature : g.signature = f.signature

namespace Stays

variable {S : Setting} {f g h : Function} {b : Block} {before after : List Inst}
  {data : InstructionData} {tys : List ClifType}

/-- All instructions of a block have been made. -/
theorem filter_insts (f : Function) (c : Block) :
    (f.layout.insts c).filter (· < f.dfg.insts.len) = f.layout.insts c :=
  List.filter_eq_self.mpr fun i hi => decide_eq_true (f.insts_lt c i hi)

theorem refl (S : Setting) (f : Function) : Stays S f f :=
  ⟨Keeps.refl _ _, fun _ => rfl, fun _ => rfl, fun _ => rfl, filter_insts f, fun _ _ _ => rfl,
    fun _ _ => rfl, le_rfl, fun _ _ => rfl, rfl, rfl, rfl⟩

theorem trans (hfg : Stays S f g) (hgh : Stays S g h) : Stays S f h where
  keeps := hfg.keeps.trans hgh.keeps
  calls c := (hgh.calls c).trans (hfg.calls c)
  params c := (hgh.params c).trans (hfg.params c)
  lastInst c := (hgh.lastInst c).trans (hfg.lastInst c)
  order c := by
    rw [← hfg.order c, ← hgh.order c, List.filter_filter]
    refine List.filter_congr fun i _ => ?_
    have hlen := hfg.keeps.insts_len
    rw [← Bool.decide_and, decide_eq_decide]
    omega
  operands i hi hargs := by
    rw [hgh.operands i (hi.trans_le hfg.keeps.insts_len) (hfg.keeps.args_lt i hi hargs),
      hfg.operands i hi hargs]
  callee i hi := (hgh.callee i (hi.trans_le hfg.keeps.insts_len)).trans (hfg.callee i hi)
  extFuncs_len := hfg.extFuncs_len.trans hgh.extFuncs_len
  extFuncs r hr := (hgh.extFuncs r (hr.trans_le hfg.extFuncs_len)).trans (hfg.extFuncs r hr)
  slots := hgh.slots.trans hfg.slots
  name := hgh.name.trans hfg.name
  signature := hgh.signature.trans hfg.signature

theorem importFunction (S : Setting) (f : Function) (d : ExtFuncData) :
    Stays S f (f.importFunction d) where
  keeps := SameCode.keeps ⟨rfl, rfl, rfl, rfl⟩ le_rfl (fun _ _ => rfl) (fun _ _ _ _ h => h) le_rfl
    fun _ _ => rfl
  calls _ := rfl
  params _ := rfl
  lastInst _ := rfl
  order := filter_insts f
  operands _ _ _ := rfl
  callee _ _ := rfl
  extFuncs_len := Nat.le_succ _
  extFuncs _ hr := PrimaryMap.push_get_of_lt _ _ hr
  slots := rfl
  name := rfl
  signature := rfl

/-- A new instruction that does not come last. -/
theorem emitted (he : Emitted f g b before after data tys) (hbranch : data.isBranch = false)
    (hafter : after ≠ []) : Stays S f g where
  keeps := he.keeps S.base hbranch fun h => absurd h hafter
  calls c := by rw [he.branch hbranch (fun h => absurd h hafter) c]
  params := he.blockParams
  lastInst c := by
    by_cases hc : c = b
    · subst hc
      exact he.lastInst_self hafter
    · exact he.lastInst_of_ne hc
  order c := by
    by_cases hc : c = b
    · subst hc
      have hold := filter_insts f c
      rw [he.split] at hold
      rw [he.insts_self, he.split, List.filter_append, List.filter_cons_of_neg (by simp),
        ← List.filter_append, hold]
    · rw [he.insts_other c hc]
      exact filter_insts f c
  operands i hi hargs := by
    rw [he.instData_old hi]
    exact List.map_congr_left fun v hv => congrArg ValueData.ty (he.values_old (hargs v hv))
  callee i hi := by rw [he.instData_old hi]
  extFuncs_len := by rw [he.extFuncs]
  extFuncs r _ := by rw [he.extFuncs]
  slots := he.sizedStackSlots
  name := he.name
  signature := he.signature

/-- Operands exchanged for others of the same types. -/
theorem withOperands {i : Inst} {vs : List Value} (hex : f.Exchange i vs)
    (htypes : vs.map f.valueType = (f.instData i).arguments.map f.valueType) :
    Stays S f (f.withOperands i vs) where
  keeps := Function.keeps_withOperands hex
  calls := Function.callsKept_withOperands f i vs
  params _ := rfl
  lastInst _ := rfl
  order := filter_insts f
  operands j _ _ := by
    by_cases hj : j = i
    · subst hj
      rw [Function.withOperands_instData_self,
        InstructionData.arguments_withArguments hex.length]
      exact htypes
    · rw [Function.withOperands_instData_of_ne hj]
      rfl
  callee j _ := by
    by_cases hj : j = i
    · rw [hj, Function.withOperands_instData_self, InstructionData.callee_withArguments]
    · rw [Function.withOperands_instData_of_ne hj]
  extFuncs_len := le_rfl
  extFuncs _ _ := rfl
  slots := rfl
  name := rfl
  signature := rfl

/-- What had been made is where it was. -/
theorem mem_of_lt {i : Inst} (h : Stays S f g) (hi : i ∈ g.layout.insts b)
    (hlt : i < f.dfg.insts.len) : i ∈ f.layout.insts b := by
  rw [← h.order b]
  exact List.mem_filter.mpr ⟨hi, decide_eq_true hlt⟩

theorem terminated (h : Stays S f g) (hf : S.Terminated f) : S.Terminated g := by
  intro c hc
  obtain ⟨i, hi, hterm⟩ := hf c hc
  refine ⟨i, (h.lastInst c).trans hi, ?_⟩
  rw [h.keeps.opcode i (f.insts_lt c i (List.mem_of_mem_getLast? hi)), hterm]

theorem complete {pools : ValueMap} (h : Stays S f g) (hf : Complete S f pools)
    (hg : Valid S (fun _ => True) g pools) : Complete S g pools :=
  hf.edited hg h.keeps h.slots h.calls h.params h.name

end Stays

/-! ## What calls need -/

/-- The values that are recorded for a block are defined there, and no block is empty. This is all
that the insertion of a call needs; it holds of a finished function and is kept by the insertion
even if the last block has no terminator. -/
structure Sound (S : Setting) (f : Function) (pools : ValueMap) : Prop where
  frame : Keeps S.base S.start f
  recorded : ∀ b tvs, pools.lookup b = some tvs → ∀ tv ∈ tvs,
    S.base ≤ tv.value ∧ f.DefinedIn b tv.value
  nonempty : ∀ c ∈ S.start.layout.blocks, f.layout.insts c ≠ []
  stocked : ∀ b ∈ S.start.layout.blocks, ∀ t ∈ S.stock, S.pool pools b t ≠ []
  args_lt : ∀ b, ∀ i ∈ f.layout.insts b, ∀ v ∈ (f.instData i).arguments, v < f.dfg.values.len

section Sound

variable {S : Setting} {f g : Function} {pools : ValueMap} {b : Block} {t : ClifType} {v : Value}

theorem Complete.sound (h : Complete S f pools) : Sound S f pools where
  frame := h.valid.frame
  recorded b tvs htvs tv htv :=
    ⟨(h.valid.recorded b tvs htvs tv htv).new, (h.valid.recorded b tvs htvs tv htv).defined⟩
  nonempty := h.nonempty
  stocked b hb t ht := h.valid.pool_ne_nil (h.defs S.entry Setting.entry_mem) hb ht
  args_lt b i hi v hv := by
    obtain ⟨before, after, hsplit⟩ := List.append_of_mem hi
    exact (h.valid.uses b before i after hsplit v (.inr ⟨hv, fun _ => trivial⟩)).2.lt

theorem Sound.lt_of_mem_pool (h : Sound S f pools) (hv : v ∈ S.pool pools b t) :
    v < f.dfg.values.len := by
  obtain ⟨c, -, tvs, htvs, hmem⟩ := mem_getDominatorValuesWithType.mp hv
  exact (h.recorded c tvs htvs _ hmem).2.lt

theorem Sound.stays (h : Sound S f pools) (hfg : Stays S f g)
    (hargs : ∀ b, ∀ i ∈ g.layout.insts b, f.dfg.insts.len ≤ i →
      ∀ v ∈ (g.instData i).arguments, v < g.dfg.values.len) : Sound S g pools where
  frame := h.frame.trans hfg.keeps
  recorded b tvs htvs tv htv := by
    obtain ⟨hbase, hdef⟩ := h.recorded b tvs htvs tv htv
    exact ⟨hbase, hfg.keeps.definedIn hbase hdef⟩
  nonempty c hc hnil := h.nonempty c hc (List.subset_nil.mp (hnil ▸ hfg.keeps.insts c))
  stocked := h.stocked
  args_lt b i hi := by
    rcases Nat.lt_or_ge i f.dfg.insts.len with hlt | hge
    · exact hfg.keeps.args_lt i hlt (h.args_lt b i (hfg.mem_of_lt hi hlt))
    · exact hargs b i hi hge

end Sound

/-! ## The block of a call -/

theorem mem_tail_of_sorted {l : List ℕ} {b : ℕ} (hsorted : l.Pairwise (· ≤ ·)) (hnodup : l.Nodup)
    (hzero : 0 ∈ l) : b ∈ l.tail ↔ b ∈ l ∧ b ≠ 0 := by
  cases l with
  | nil => cases hzero
  | cons a l =>
      obtain rfl : a = 0 := by
        rcases List.mem_cons.mp hzero with h | h
        · exact h.symm
        · exact Nat.le_zero.mp (List.rel_of_pairwise_cons hsorted h)
      have hnot := (List.nodup_cons.mp hnodup).1
      rw [List.tail_cons, List.mem_cons]
      constructor
      · intro h
        exact ⟨.inr h, fun hb => hnot (hb ▸ h)⟩
      · rintro ⟨h, hb⟩
        exact h.resolve_left hb

section Blocks

variable {S : Setting} {b c : Block}

theorem Setting.mem_keys : b ∈ S.dominators.keys ↔ b ∈ S.start.layout.blocks := by
  rw [← AList.mem_keys, ← AList.lookup_isSome]
  constructor
  · intro h
    rcases Setting.settled_dominators.of_isSome b h with hb | hreach
    · exact hb
    · exact Setting.mem_order.mp (Function.mem_dfsOrder.mpr hreach)
  · exact Setting.settled_dominators.isSome_of_mem b

/-- The blocks that may get a call are all but the first one. -/
theorem Setting.mem_callBlocks (hentry : S.entry = 0) :
    b ∈ (S.dominators.keys.insertionSort (· ≤ ·)).tail ↔
      b ∈ S.start.layout.blocks ∧ b ≠ S.entry := by
  have hnodup : (S.dominators.keys.insertionSort (· ≤ ·)).Nodup :=
    (List.perm_insertionSort _ _).nodup_iff.mpr S.dominators.keys_nodup
  have hzero : 0 ∈ S.dominators.keys.insertionSort (· ≤ ·) := by
    rw [List.mem_insertionSort, Setting.mem_keys, ← hentry]
    exact Setting.entry_mem
  rw [mem_tail_of_sorted (List.pairwise_insertionSort _ _) hnodup hzero, List.mem_insertionSort,
    Setting.mem_keys, hentry]

theorem Setting.callBlocks_ne_nil (hentry : S.entry = 0) :
    (S.dominators.keys.insertionSort (· ≤ ·)).tail ≠ [] := by
  obtain ⟨d, hd⟩ := S.skeleton.entry_jump
  have he : S.start.Edge S.entry d := ⟨_, hd, List.mem_singleton_self d⟩
  refine List.ne_nil_of_mem ((Setting.mem_callBlocks hentry).mpr ⟨(S.skeleton.flow.edge_mem _ _
    he).2, fun heq => ?_⟩)
  exact S.skeleton.flow.no_pred S.entry (heq ▸ he)

/-- **`get_dominated_blocks` inverts dominance.** -/
theorem Setting.mem_dominatedBlocks :
    c ∈ (getDominatedBlocks b S.dominators).erase b ↔
      c ∈ S.start.layout.blocks ∧ StrictlyDominates S.start.Edge S.entry b c := by
  have hmem : c ∈ getDominatedBlocks b S.dominators ↔
      c ∈ S.start.layout.blocks ∧ Dominates S.start.Edge S.entry b c := by
    rw [← Setting.mem_keys, ← AList.mem_keys, ← AList.lookup_isSome, Option.isSome_iff_exists]
    simp only [getDominatedBlocks, List.mem_map, List.mem_filter, decide_eq_true_eq]
    constructor
    · rintro ⟨⟨c, d⟩, ⟨he, hb⟩, rfl⟩
      have hd : S.dominators.lookup c = some d := AList.mem_lookup_iff.mpr he
      exact ⟨⟨d, hd⟩, Setting.settled_dominators.dominates Setting.entry_mem hd hb⟩
    · rintro ⟨⟨d, hd⟩, hdom⟩
      have hc : c ∈ S.start.layout.blocks := by
        rw [← Setting.mem_keys, ← AList.mem_keys, ← AList.lookup_isSome, hd]
        rfl
      have hb : b ∈ dominatorsOf S.dominators c := (Setting.mem_dominatorsOf hc).mpr hdom
      rw [dominatorsOf, hd, Option.getD_some] at hb
      exact ⟨⟨c, d⟩, ⟨AList.mem_lookup_iff.mp hd, hb⟩, rfl⟩
  have hnodup : (getDominatedBlocks b S.dominators).Nodup :=
    S.dominators.keys_nodup.sublist (List.filter_sublist.map _)
  rw [hnodup.mem_erase_iff, hmem, StrictlyDominates]
  constructor
  · rintro ⟨hne, hc, hdom⟩
    exact ⟨hc, hdom, hne.symm⟩
  · rintro ⟨hc, hdom, hne⟩
    exact ⟨hne.symm, hc, hdom⟩

end Blocks

/-! ## One call -/

/-- Instruction `i` is the call to a child: it stands in front of the terminator of a block other
than the first one, and it was given a recorded value of each parameter type. An operand that has
been exchanged since then has the same type. -/
structure CalledAt (S : Setting) (pools : ValueMap) (f : Function) (child : Child) (i : Inst) :
    Prop where
  placed : ∃ b ∈ S.start.layout.blocks, b ≠ S.entry ∧ i ∈ f.layout.insts b ∧
    f.layout.lastInst b ≠ some i
  callee : ∃ r < f.extFuncs.len, (f.instData i).callee = some r ∧
    f.extFuncs.get r = ⟨child.name, child.signature⟩
  args : ∃ args, List.Forall₂ (fun t a => ∃ d tvs, pools.lookup d = some tvs ∧ ⟨a, t⟩ ∈ tvs)
      child.signature.params args ∧
    (f.instData i).arguments.map f.valueType = args.map f.valueType

/-- The calls to the children have been inserted, in this order. -/
structure Inserted (S : Setting) (pools : ValueMap) (children : List Child) (f g : Function) :
    Prop where
  stays : Stays S f g
  sound : Sound S g pools
  complete : S.Terminated f → Complete S f pools → Complete S g pools
  insts_len : g.dfg.insts.len = f.dfg.insts.len + children.length
  called : ∀ k child, children[k]? = some child →
    CalledAt S pools g child (f.dfg.insts.len + k)

section Call

variable {δ : Type} {S : Setting} {pools : ValueMap} {f g : Function} {s : State δ} {b c : Block}
  {i : Inst} {child : Child} {callable : Prop}

theorem CalledAt.stays (h : CalledAt S pools f child i) (hf : Sound S f pools)
    (hfg : Stays S f g) : CalledAt S pools g child i := by
  obtain ⟨b, hb, hne, hi, hlast⟩ := h.placed
  obtain ⟨r, hr, hcallee, hext⟩ := h.callee
  obtain ⟨args, hargs, htypes⟩ := h.args
  have hlt := f.insts_lt b i hi
  refine ⟨⟨b, hb, hne, hfg.keeps.insts b hi, by rwa [hfg.lastInst]⟩,
    ⟨r, hr.trans_le hfg.extFuncs_len, (hfg.callee i hlt).trans hcallee, ?_⟩, args, hargs, ?_⟩
  · rw [hfg.extFuncs r hr, hext]
  · rw [hfg.operands i hlt (hf.args_lt b i hi), htypes]
    refine List.map_congr_left fun a ha => (hfg.keeps.types a ?_).symm
    obtain ⟨t, -, d, tvs, htvs, hmem⟩ := ListEdit.exists_of_mem_right hargs ha
    exact (hf.recorded d tvs htvs _ hmem).2.lt

/-- What offering the results of a call does. -/
structure Offered (S : Setting) (pools : ValueMap) (f g : Function) : Prop where
  stays : Stays S f g
  sound : Sound S g pools
  complete : Complete S f pools → Complete S g pools
  insts_len : g.dfg.insts.len = f.dfg.insts.len

theorem Sound.offered (h : Sound S f pools) : Offered S pools f f := ⟨.refl _ _, h, id, rfl⟩

/-- Offering the results of a call in a block that the block of the call strictly dominates. -/
theorem Sound.injectResults_spec {callInst : Inst} (h : Sound S s.func pools)
    (hcall : callInst ∈ s.func.layout.insts b)
    (hresults : ∀ r ∈ s.func.dfg.results callInst, S.base ≤ r ∧ s.func.IsResult r callInst)
    (hdom : StrictlyDominates S.start.Edge S.entry b c) (hi : i ∈ s.func.layout.insts c) :
    Ensures (fun e _ => callable → e = .starved) (injectResults callInst i) s fun _ s' =>
      Offered S pools s.func s'.func := by
  unfold injectResults
  refine ensures_bind_func ?_
  refine Ensures.ite (fun _ => Ensures.pure h.offered) fun hkeep => ?_
  refine Ensures.pick (Ensures.mapM (P := fun s' => s' = s) (R := fun u a =>
    s.func.valueType a = s.func.valueType u ∧ (a = u ∨ a ∈ s.func.dfg.results callInst)) rfl ?_)
    fun args hargs => ?_
  · rintro u - s rfl
    refine (ensures_rewriteArg (T := s.func.valueType) (fun _ => rfl) (fun _ h => h) _ ?_
      rfl).mono ?_
    · intro p hp
      obtain ⟨r, -, rfl⟩ := List.mem_map.mp hp
      rfl
    · rintro a s' ⟨hs, hty, hor⟩
      refine ⟨hs, hty, hor.imp_right fun ⟨p, hp, hpa⟩ => ?_⟩
      obtain ⟨r, hr, rfl⟩ := List.mem_map.mp hp
      exact hpa ▸ hr
  -- an operand stays, or a result of the call with the same type takes its place
  have hex : s.func.Exchange i args := .of_forall₂ (Bool.eq_false_iff.mpr hkeep)
    (hargs.imp fun u a ⟨hty, hor⟩ => ⟨hty, hor.imp_right fun hr => (hresults a hr).2.1⟩)
  have htypes : args.map s.func.valueType =
      (s.func.instData i).arguments.map s.func.valueType :=
    ListEdit.map_eq_of_forall₂ (hargs.imp fun _ _ => And.left)
  have hstays : Stays S s.func (s.func.withOperands i args) := .withOperands hex htypes
  refine ensures_setFunc ⟨hstays, h.stays hstays fun c j hj hge => ?_, fun hc =>
    hstays.complete hc ?_, rfl⟩
  · exact absurd (s.func.insts_lt c j hj) (Nat.not_lt.mpr hge)
  -- a result is usable here, because the block of the call dominates this one
  · refine hc.valid.withOperands hi hex (fun _ _ => .inl trivial) fun before after _ a ha => ?_
    obtain ⟨u, hu, -, rfl | hr⟩ := ListEdit.exists_of_mem_right hargs ha
    · exact .inl ⟨hu, fun _ => trivial⟩
    · refine .inr ⟨(hresults a hr).1, .inr ⟨b, callInst, (hresults a hr).2, hcall, .inl ?_⟩⟩
      rwa [h.frame.edge_eq]

/-- The second instruction of the block is the one that is offered the results. -/
theorem Sound.injectInto_spec {callInst : Inst} (h : Sound S s.func pools)
    (hcall : callInst ∈ s.func.layout.insts b)
    (hresults : ∀ r ∈ s.func.dfg.results callInst, S.base ≤ r ∧ s.func.IsResult r callInst)
    (hdom : StrictlyDominates S.start.Edge S.entry b c) (hc : c ∈ S.start.layout.blocks) :
    Ensures (fun e _ => callable → e = .starved) (injectInto callInst c) s fun _ s' =>
      Offered S pools s.func s'.func := by
  obtain ⟨j, l, hl⟩ := List.exists_cons_of_ne_nil (h.nonempty c hc)
  have hj : s.func.layout.firstInst c = some j := by rw [Layout.firstInst, hl, List.head?_cons]
  unfold injectInto
  refine Ensures.bind (ensures_gotoFirstInst hj
    (Q := fun _ s' => s' = { s with pos := .at_ j }) rfl) ?_
  rintro - _ rfl
  refine Ensures.bind (ensures_nextInst (s := { s with pos := .at_ j }) rfl
    (List.mem_of_mem_head? hj)) ?_
  rintro o s₁ ⟨hfunc, -, -, hnext⟩
  have hfunc : s₁.func = s.func := hfunc
  cases o with
  | none =>
      refine Ensures.pure ?_
      rw [hfunc]
      exact h.offered
  | some i =>
      rw [← hfunc] at h hcall hresults ⊢
      exact h.injectResults_spec hcall hresults hdom (hfunc ▸ (hnext i rfl).1)

/-- The invariant holds with the new call: everything that the block may use is defined in front of
its terminator. -/
theorem Complete.valid_call {ref : FuncRef} {args : List Value} {last : Inst} {before : List Inst}
    {tys : List ClifType} {types : List ClifType} (h : Complete S f pools)
    (he : Emitted f g b before [last] (.call ref args) tys) (hended : S.Terminated f)
    (hb : b ∈ S.start.layout.blocks)
    (hargs : List.Forall₂ (fun t a => a ∈ S.pool pools b t) types args) :
    Valid S (fun _ => True) g pools := by
  have hkeeps : Keeps S.base f g :=
    he.keeps S.base rfl fun hnil => absurd hnil (List.cons_ne_nil _ _)
  refine h.valid.emitted he hkeeps rfl (fun i hi => ?_) (fun ht => by cases ht) (fun v hv => ?_)
    fun hacc => by cases hacc
  · by_contra ht
    obtain ⟨p, q, rfl⟩ := List.append_of_mem hi
    have hsplit : f.layout.insts b = p ++ i :: (q ++ [last]) := by
      rw [he.split, List.append_assoc, List.cons_append]
    have hnil := (h.valid.ends b p i _ hsplit (Bool.eq_true_of_not_eq_false ht)).1
    simp at hnil
  · obtain ⟨t, -, hmem⟩ := ListEdit.exists_of_mem_right hargs hv
    have huse := h.valid.mayUse hmem
    refine ⟨huse.new, huse.usable.available fun i hi hnt => ?_⟩
    obtain ⟨j, hj, hterm⟩ := hended b hb
    have hlast : f.layout.lastInst b = some last := by
      rw [Layout.lastInst, he.split, List.getLast?_concat]
    obtain rfl : j = last := Option.some.inj (hj.symm.trans hlast)
    rw [he.split, List.mem_append, List.mem_singleton] at hi
    refine hi.resolve_right fun hij => ?_
    rw [hij, hterm] at hnt
    cases hnt

/-- The instruction of a call, in front of the terminator. -/
theorem Sound.buildCall_spec {ref : FuncRef} {args : List Value} {last : Inst}
    (h : Sound S s.func pools) (hb : b ∈ S.start.layout.blocks) (hne : b ≠ S.entry)
    (hlast : s.func.layout.lastInst b = some last) (hpos : s.pos = .at_ last)
    (href : ref < s.func.extFuncs.len)
    (hext : s.func.extFuncs.get ref = ⟨child.name, child.signature⟩)
    (hargs : List.Forall₂ (fun t a => a ∈ S.pool pools b t) child.signature.params args) :
    Ensures (fun e _ => callable → e = .starved)
      (build (.call ref args) child.signature.returns) s fun i s' =>
        i = s.func.dfg.insts.len ∧ i ∈ s'.func.layout.insts b ∧
        (∀ r ∈ s'.func.dfg.results i, S.base ≤ r ∧ s'.func.IsResult r i) ∧
          Inserted S pools [child] s.func s'.func := by
  obtain ⟨before, hsplit⟩ := List.getLast?_eq_some_iff.mp hlast
  have hpoints : Points s b before [last] := ⟨h.frame.blocks ▸ hb, hsplit, hpos⟩
  refine (hpoints.build (.call ref args) child.signature.returns).mono ?_
  rintro i s' ⟨rfl, he, -, -⟩
  -- the call stands before the terminator, which stays the last instruction
  have hstays : Stays S s.func s'.func := .emitted he rfl (List.cons_ne_nil _ _)
  have hmem : s.func.dfg.insts.len ∈ s'.func.layout.insts b := by
    rw [he.insts_self]
    simp
  refine ⟨rfl, hmem, fun r hr => ?_, hstays, h.stays hstays fun c j hj hge v hv => ?_,
    fun hended hc => hstays.complete hc (hc.valid_call he hended hb hargs), ?_,
    fun k child' hk => ?_⟩
  · rw [he.results_new] at hr
    obtain ⟨hle, hlt⟩ := List.mem_range'_1.mp hr
    obtain ⟨k, rfl⟩ := Nat.exists_eq_add_of_le hle
    exact ⟨h.frame.values_len.trans hle,
      he.isResult_new (List.getElem?_eq_getElem (Nat.lt_of_add_lt_add_left hlt))⟩
  -- the operands of the call are recorded values, and these are old
  · obtain ⟨p, q, hsplit⟩ := List.append_of_mem hj
    rcases he.split_cases hsplit with ⟨-, rfl, -⟩ | ⟨hlt, -⟩
    · rw [he.instData_new] at hv
      obtain ⟨t, -, hmem⟩ := ListEdit.exists_of_mem_right hargs hv
      exact (h.lt_of_mem_pool hmem).trans_le hstays.keeps.values_len
    · exact absurd hlt (Nat.not_lt.mpr hge)
  · rw [he.dfg]
    rfl
  -- there is one child, and its call is the instruction just built
  · obtain ⟨rfl, rfl⟩ : k = 0 ∧ child = child' := by
      cases k with
      | zero => exact ⟨rfl, Option.some.inj hk⟩
      | succ k => cases hk
    refine ⟨⟨b, hb, hne, hmem, ?_⟩, ⟨ref, href.trans_le hstays.extFuncs_len, ?_, ?_⟩, args, ?_, ?_⟩
    · rw [hstays.lastInst, hlast]
      have := s.func.insts_lt b last (List.mem_of_mem_getLast? hlast)
      intro heq
      obtain rfl := Option.some.inj heq
      exact absurd this (lt_irrefl _)
    · rw [Nat.add_zero, he.instData_new]
      rfl
    · rw [hstays.extFuncs ref href, hext]
    · refine hargs.imp fun t a hmem => ?_
      obtain ⟨d, -, tvs, htvs, htv⟩ := mem_getDominatorValuesWithType.mp hmem
      exact ⟨d, tvs, htvs, htv⟩
    · rw [Nat.add_zero, he.instData_new]
      rfl

/-- The call is placed in some block, and the blocks that it dominates are returned with it. -/
theorem Sound.placeCall_spec {ref : FuncRef} {entry : Generated}
    (h : Sound S s.func pools) (hentry : S.entry = 0)
    (hdoms : entry.dominanceMap = S.dominators) (hpools : entry.blockDefValues = pools)
    (href : ref < s.func.extFuncs.len)
    (hext : s.func.extFuncs.get ref = ⟨child.name, child.signature⟩)
    (hcallable : callable → ∀ t ∈ child.signature.params, t ∈ S.stock) :
    Ensures (fun e _ => callable → e = .starved) (placeCall ref child.signature entry) s
      fun p s' => Inserted S pools [child] s.func s'.func ∧
        (∀ r ∈ s'.func.dfg.results p.1, S.base ≤ r ∧ s'.func.IsResult r p.1) ∧
          ∃ b, p.1 ∈ s'.func.layout.insts b ∧ ∀ c ∈ p.2, c ∈ S.start.layout.blocks ∧
            StrictlyDominates S.start.Edge S.entry b c := by
  unfold placeCall
  rw [hdoms, hpools, ← bind_assoc]
  refine Ensures.pick (P := fun b => b ∈ S.start.layout.blocks ∧ b ≠ S.entry)
    (Ensures.chooseUnwrap (fun _ => rfl) (fun hnil => ?_) fun b hb => ⟨rfl, ?_⟩) ?_
  -- there is a block besides the entry block, so `choose` gives one
  · exact absurd hnil (Setting.callBlocks_ne_nil hentry)
  · exact (Setting.mem_callBlocks hentry).mp hb
  rintro b ⟨hb, hne⟩
  obtain ⟨last, hlast⟩ : ∃ last, s.func.layout.lastInst b = some last :=
    ⟨_, List.getLast?_eq_some_getLast (h.nonempty b hb)⟩
  refine Ensures.bind (ensures_gotoLastInst hlast
    (Q := fun _ s' => s' = { s with pos := .at_ last }) rfl) ?_
  rintro - _ rfl
  refine Ensures.pick (Ensures.mapM (P := fun s' => s' = { s with pos := .at_ last })
    (R := fun t a => a ∈ S.pool pools b t) rfl ?_) fun args hargs => ?_
  -- a parameter type in stock has a value in every pool, so that no draw panics
  · rintro t ht _ rfl
    exact ensures_selectValue _ (fun _ => rfl) fun hnil m hcall =>
      absurd hnil (h.stocked b hb t (hcallable hcall t ht))
  refine Ensures.bind (Sound.buildCall_spec (s := { s with pos := .at_ last }) h hb hne hlast rfl
    href hext hargs) ?_
  rintro i s₁ ⟨-, hi, hresults, hins⟩
  exact Ensures.pure ⟨hins, hresults, b, hi, fun c hc => Setting.mem_dominatedBlocks.mp hc⟩

/-- **One call**, to a child that has been imported. -/
theorem Sound.insertCall_spec {ref : FuncRef} {entry : Generated}
    (h : Sound S s.func pools) (hentry : S.entry = 0)
    (hdoms : entry.dominanceMap = S.dominators) (hpools : entry.blockDefValues = pools)
    (href : ref < s.func.extFuncs.len)
    (hext : s.func.extFuncs.get ref = ⟨child.name, child.signature⟩)
    (hcallable : callable → ∀ t ∈ child.signature.params, t ∈ S.stock) :
    Ensures (fun e _ => callable → e = .starved) (insertCall ref child.signature entry) s
      fun _ s' => Inserted S pools [child] s.func s'.func := by
  unfold insertCall
  refine Ensures.bind (h.placeCall_spec hentry hdoms hpools href hext hcallable) ?_
  rintro ⟨i, dominated⟩ s₁ ⟨hins, hresults, b, hi, hdominated⟩
  refine Ensures.pick (P := fun o => ∀ c, o = some c → c ∈ dominated)
    (Ensures.choose (fun _ => rfl) (fun _ => ⟨rfl, fun c hc => by cases hc⟩)
      fun c hc => ⟨rfl, ?_⟩) ?_
  · rintro _ ⟨⟩
    exact hc
  intro o ho
  -- without a dominated block the results are offered nowhere
  cases o with
  | none => exact Ensures.pure hins
  | some c =>
      obtain ⟨hc, hdom⟩ := hdominated c (ho c rfl)
      refine (hins.sound.injectInto_spec hi hresults hdom hc).mono fun _ s₂ h₂ => ?_
      exact ⟨hins.stays.trans h₂.stays, h₂.sound, fun hended hc => h₂.complete
        (hins.complete hended hc), h₂.insts_len.trans hins.insts_len, fun k child' hk =>
        (hins.called k child' hk).stays hins.sound h₂.stays⟩

/-! ## All calls -/

/-- The children have names that a call can refer to, and there are values to pass to them. -/
def Setting.Callable (S : Setting) (children : List Child) : Prop :=
  ∀ child ∈ children, (∃ namespace_ id, child.name = .user namespace_ id) ∧
    ∀ t ∈ child.signature.params, t ∈ S.stock

theorem Inserted.append {children : List Child} {h : Function}
    (hfg : Inserted S pools children f g) (hgh : Inserted S pools [child] g h) :
    Inserted S pools (children ++ [child]) f h where
  stays := hfg.stays.trans hgh.stays
  sound := hgh.sound
  complete hended hc := hgh.complete (hfg.stays.terminated hended) (hfg.complete hended hc)
  insts_len := by
    rw [hgh.insts_len, hfg.insts_len, List.length_append, Nat.add_assoc]
  called k child' hk := by
    rcases Nat.lt_or_ge k children.length with hlt | hge
    · rw [List.getElem?_append_left hlt] at hk
      exact (hfg.called k child' hk).stays hfg.sound hgh.stays
    · rw [List.getElem?_append_right hge] at hk
      have hcalled := hgh.called _ child' hk
      rwa [hfg.insts_len, Nat.add_assoc, Nat.add_sub_cancel' hge] at hcalled

theorem Sound.imported (h : Sound S f pools) (d : ExtFuncData) :
    Inserted S pools [] f (f.importFunction d) := by
  have hstays := Stays.importFunction S f d
  refine ⟨hstays, h.stays hstays fun c j hj hge => ?_, fun _ hc => hstays.complete hc
    (hc.valid.sameCode hstays.keeps ⟨rfl, rfl, rfl, rfl⟩), rfl, fun k child hk => by simp at hk⟩
  exact absurd (f.insts_lt c j hj) (Nat.not_lt.mpr hge)

/-- **The call to one child**, in a function with one entry in the list. -/
theorem Sound.invokeChild_spec {entries : List Generated} {entry : Generated}
    (h : Sound S s.func pools) (hentry : S.entry = 0)
    (hentries : entries.filter (fun e => s.func.name = e.func.name) = [entry])
    (hdoms : entry.dominanceMap = S.dominators) (hpools : entry.blockDefValues = pools) :
    Ensures (fun e _ => S.Callable [child] → e = .starved) (invokeChild entries child) s
      fun _ s' => Inserted S pools [child] s.func s'.func := by
  unfold invokeChild
  cases hname : child.name with
  | testcase n =>
      refine Ensures.panicWith fun hcallable => ?_
      obtain ⟨⟨namespace_, id, huser⟩, -⟩ := hcallable child (List.mem_singleton_self _)
      rw [hname] at huser
      cases huser
  | user namespace_ id =>
      have hdata : (⟨.user namespace_ id, child.signature⟩ : ExtFuncData) =
          ⟨child.name, child.signature⟩ := by rw [hname]
      rw [hdata]
      refine ensures_bind_func ?_
      refine Ensures.bind (ensures_setFunc (Q := fun _ s' => s' = { s with
        func := s.func.importFunction ⟨child.name, child.signature⟩ }) rfl) ?_
      rintro - _ rfl
      refine Ensures.bind (ensures_setPosition (Q := fun _ s' => s' = {
        func := s.func.importFunction ⟨child.name, child.signature⟩
        pos := .nowhere
        locals := s.locals }) rfl) ?_
      rintro - _ rfl
      have himport : Inserted S pools [] s.func
          (s.func.importFunction ⟨child.name, child.signature⟩) := h.imported _
      -- the entry of the function is still to come, or its call has been inserted
      refine (Ensures.forM (P := fun rest s' =>
        rest.filter (fun e => s.func.name = e.func.name) = [entry] ∧
            s'.func = s.func.importFunction ⟨child.name, child.signature⟩ ∨
          rest.filter (fun e => s.func.name = e.func.name) = [] ∧
            Inserted S pools [child] s.func s'.func) (.inl ⟨hentries, rfl⟩) ?_).mono ?_
      · intro e rest s₁ h₁
        have hname₁ : s₁.func.name = s.func.name := by
          rcases h₁ with ⟨-, hfunc⟩ | ⟨-, hins⟩
          · rw [hfunc]
            rfl
          · exact hins.stays.name
        refine ensures_bind_func ?_
        rw [hname₁]
        refine Ensures.ite (fun heq => ?_) fun hne => ?_
        · rcases h₁ with ⟨hfilter, hfunc⟩ | ⟨hfilter, -⟩
          · rw [List.filter_cons_of_pos (by simpa using heq)] at hfilter
            obtain ⟨rfl, hrest⟩ := List.cons.inj hfilter
            refine (Sound.insertCall_spec (s := s₁) (hfunc ▸ himport.sound) hentry hdoms hpools
              ?_ ?_ ?_).mono ?_
            · rw [hfunc]
              exact Nat.lt_succ_self _
            · rw [hfunc]
              exact PrimaryMap.push_get_self _ _
            · exact fun hcallable => (hcallable child (List.mem_singleton_self _)).2
            · intro _ s₂ h₂
              rw [hfunc] at h₂
              exact .inr ⟨hrest, himport.append h₂⟩
          · rw [List.filter_cons_of_pos (by simpa using heq)] at hfilter
            cases hfilter
        · rw [List.filter_cons_of_neg (by simpa using hne)] at h₁
          exact Ensures.pure h₁
      · rintro - s' (⟨hnil, -⟩ | ⟨-, hins⟩)
        · cases hnil
        · exact hins

/-- **The calls to all children.** -/
theorem Sound.insertFunctionInvocation_spec {entries : List Generated} {entry : Generated}
    {children : List Child} (h : Sound S s.func pools) (hentry : S.entry = 0)
    (hentries : entries.filter (fun e => s.func.name = e.func.name) = [entry])
    (hdoms : entry.dominanceMap = S.dominators) (hpools : entry.blockDefValues = pools) :
    Ensures (fun e _ => S.Callable children → e = .starved)
      (insertFunctionInvocation children entries) s
      fun _ s' => Inserted S pools children s.func s'.func := by
  unfold insertFunctionInvocation
  -- the children that are done have their calls, in the order of the list
  refine (Ensures.forM (P := fun rest s' => ∃ done, children = done ++ rest ∧
    Inserted S pools done s.func s'.func) ⟨[], rfl, ?_⟩ ?_).mono ?_
  · exact ⟨.refl _ _, h, fun _ hc => hc, rfl, fun k child hk => by simp at hk⟩
  · rintro child rest s₁ ⟨done, hsplit, h₁⟩
    refine ((h₁.sound.invokeChild_spec hentry (by rwa [h₁.stays.name]) hdoms hpools).weaken
      ?_).mono ?_
    · intro e s' hstop hall
      refine hstop fun c hc => hall c ?_
      rw [hsplit, List.mem_singleton.mp hc]
      simp
    · intro _ s₂ h₂
      exact ⟨done ++ [child], by rw [hsplit]; simp, h₁.append h₂⟩
  · rintro - s' ⟨done, hsplit, h'⟩
    rwa [hsplit, List.append_nil]

/-! ## What was there before -/

theorem InstructionData.callee_eq_some {d : InstructionData} {r : FuncRef} :
    d.callee = some r ↔ ∃ args, d = .call r args := by
  cases d <;> simp [callee]

/-- What is new is a call. -/
theorem Inserted.opcode_new {children : List Child} (h : Inserted S pools children f g)
    (hi : i ∈ g.layout.insts b) (hnew : f.dfg.insts.len ≤ i) : (g.instData i).opcode = .call := by
  obtain ⟨k, rfl⟩ := Nat.exists_eq_add_of_le hnew
  have hlt := g.insts_lt b _ hi
  rw [h.insts_len] at hlt
  obtain ⟨r, -, hr, -⟩ :=
    (h.called k _ (List.getElem?_eq_getElem (Nat.lt_of_add_lt_add_left hlt))).callee
  obtain ⟨args, hd⟩ := InstructionData.callee_eq_some.mp hr
  rw [hd]
  rfl

/-- Anything but a call was there before. -/
theorem Inserted.mem_old {children : List Child} (h : Inserted S pools children f g)
    (hi : i ∈ g.layout.insts b) (hop : (g.instData i).opcode ≠ .call) :
    i ∈ f.layout.insts b ∧ (f.instData i).opcode = (g.instData i).opcode := by
  have hlt : i < f.dfg.insts.len :=
    Nat.lt_of_not_le fun hle => hop (h.opcode_new hi hle)
  exact ⟨h.stays.mem_of_lt hi hlt, (h.stays.keeps.opcode i hlt).symm⟩

end Call

end Clir
