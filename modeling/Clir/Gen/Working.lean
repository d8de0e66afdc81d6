import Clir.Gen.Generator
import Clir.Gen.Valid

set_option autoImplicit false

/-! # Emitting instructions into a block

`Working` is the state of the first pass while it fills a block: the invariant, the cursor in
front of the terminator and behind everything else, and the blocks still to come as they were in
the skeleton. In this state every value of the pool of the block may be used, and an instruction
that uses such values keeps the state. `Produced` is what is known of its result.
-/

namespace Clir

open Cmd Cursor Graph Relation

/-! ## Pools -/

theorem mem_getDominatorValuesWithType {blocks : List Block} {pools : ValueMap} {t : ClifType}
    {v : Value} :
    v ∈ getDominatorValuesWithType blocks pools t ↔
      ∃ b ∈ blocks, ∃ tvs, pools.lookup b = some tvs ∧ ⟨v, t⟩ ∈ tvs := by
  unfold getDominatorValuesWithType
  rw [List.mem_insertionSort, List.mem_flatMap]
  refine exists_congr fun b => and_congr_right fun _ => ?_
  cases pools.lookup b with
  | none => simp
  | some tvs =>
      simp only [List.mem_map, List.mem_filter, decide_eq_true_eq, Option.some.injEq,
        exists_eq_left']
      constructor
      · rintro ⟨tv, ⟨htv, rfl⟩, rfl⟩
        exact htv
      · intro h
        exact ⟨_, ⟨h, rfl⟩, rfl⟩

namespace Setting

variable (S : Setting)

/-- The dominators that the generator works with. -/
def dominators : BlockMap (List Block) := computeDominators S.start S.entry

/-- The values of a type that a block may use. -/
def pool (pools : ValueMap) (b : Block) (t : ClifType) : List Value :=
  getDominatorValuesWithType (dominatorsOf S.dominators b) pools t

variable {S} {b c : Block}

theorem entry_mem : S.entry ∈ S.start.layout.blocks := S.skeleton.flow.root_mem

theorem settled_dominators : Settled S.start S.entry S.dominators :=
  computeDominators_settled S.start S.entry

theorem dominates_of_mem_dominatorsOf (h : c ∈ dominatorsOf S.dominators b) :
    Dominates S.start.Edge S.entry c b := by
  unfold dominatorsOf at h
  cases hd : S.dominators.lookup b with
  | none => simp [hd] at h
  | some d =>
      rw [hd, Option.getD_some] at h
      exact settled_dominators.dominates entry_mem hd h

theorem mem_dominatorsOf (hb : b ∈ S.start.layout.blocks) :
    c ∈ dominatorsOf S.dominators b ↔ Dominates S.start.Edge S.entry c b := by
  have hreach : ReflTransGen S.start.Edge S.entry b := S.skeleton.flow.reach b hb
  obtain ⟨d, hd⟩ := settled_dominators.exists_lookup entry_mem hreach
  rw [dominatorsOf, hd, Option.getD_some]
  exact settled_dominators.mem_iff entry_mem hreach hd

end Setting

section Pool

variable {S : Setting} {settled : Block → Prop} {f : Function} {pools : ValueMap} {b : Block}
  {t : ClifType} {v : Value}

/-- What a block needs to know of a value to use it as one of type `t`. -/
structure Setting.MayUse (S : Setting) (f : Function) (b : Block) (t : ClifType) (v : Value) :
    Prop where
  new : S.base ≤ v
  usable : f.Usable S.entry b v
  typed : S.config.Accepted → f.Agrees t v

/-- **Every value of the pool of a block may be used there.** -/
theorem Valid.mayUse (h : Valid S settled f pools) (hv : v ∈ S.pool pools b t) :
    S.MayUse f b t v := by
  obtain ⟨c, hc, tvs, htvs, hmem⟩ := mem_getDominatorValuesWithType.mp hv
  have hrec := h.recorded c tvs htvs _ hmem
  refine ⟨hrec.new, ⟨c, hrec.defined, ?_⟩, hrec.typed⟩
  rw [h.frame.edge_eq]
  exact Setting.dominates_of_mem_dominatorsOf hc

/-- A value that a block has recorded may be used there. -/
theorem Setting.Recorded.mayUse {tv : TypedValue} (h : S.Recorded f b tv) :
    S.MayUse f b tv.ty tv.value :=
  ⟨h.new, ⟨b, h.defined, Dominates.refl _ _ _⟩, h.typed⟩

end Pool

/-! ## The state of the first pass -/

/-- Both stack slots are there, and all their bytes are stored to. -/
structure Setting.Seeded (S : Setting) (f : Function) (prior : List Inst) : Prop where
  two : f.sizedStackSlots.len = 2
  size : ∀ slot < 2, f.sizedStackSlots.get slot = 32
  initialised : ∀ slot < 2, S.Initialised f prior slot

/-- Nothing new is declared, and nothing is called. -/
structure Uncalled (S : Setting) (f : Function) : Prop where
  declaration : f.declaration = S.start.declaration
  noCalls : ∀ c, ∀ i ∈ f.layout.insts c, (f.instData i).opcode.isCall = false

/-- The blocks that are `done` have their condition; the others, apart from the current one, are
as in the skeleton. -/
structure Filling (S : Setting) (done : List Block) (current : Block) (f : Function) : Prop where
  kept : ∀ c, c ∉ done → ∀ i ∈ S.start.layout.insts c, f.instData i = S.start.instData i
  untouched : ∀ c, c ∉ done → c ≠ current → f.layout.insts c = S.start.layout.insts c
  params : ∀ c, c ≠ S.entry → c ∉ done → f.blockParams c = S.start.blockParams c
  params_done : ∀ c ∈ done, c ≠ S.entry → f.blockParams c = []
  noArgs : ∀ c, f.NoArgs c
  ended : ∀ c, ∀ i ∈ f.layout.insts c, (f.instData i).opcode.isTerminator = true →
    i ∈ S.start.layout.insts c
  nonempty : ∀ c ∈ done, f.layout.insts c ≠ []
  uncalled : Uncalled S f

/-- The generator is filling block `b`, with local variables `L`. It is `ready` once the stack
slots are set up. -/
structure Working (S : Setting) (done : List Block) (b : Block) (L : Locals) (ready : Prop)
    (s : State Locals) : Prop where
  valid : Valid S (· ∈ done) s.func L.blockDefValues
  locals : s.locals = L
  filling : Filling S done b s.func
  cursor : ∃ before, Points s b before (S.start.layout.insts b) ∧
    (∀ i ∈ before, (s.func.instData i).opcode.isTerminator = false) ∧
    (ready → S.Seeded s.func (S.prior s.func b before))
  own : ∀ tv ∈ L.defValues, S.Recorded s.func b tv

/-- The invariant at any moment of the generator. -/
def Moment (S : Setting) (s : State Locals) : Prop :=
  ∃ settled, Valid S settled s.func s.locals.blockDefValues

theorem Working.moment {S : Setting} {done : List Block} {b : Block} {L : Locals} {ready : Prop}
    {s : State Locals} (h : Working S done b L ready s) : Moment S s :=
  ⟨_, by rw [h.locals]; exact h.valid⟩

/-! ## New instructions -/

section Build

variable {S : Setting} {done : List Block} {b : Block} {L : Locals} {ready : Prop}
  {s s' : State Locals} {I : Halt → State Locals → Prop} {f g : Function}
  {before after : List Inst} {data : InstructionData} {tys : List ClifType}

/-- A block that holds nothing in the skeleton has no branch. -/
theorem Valid.branch_eq_none {settled : Block → Prop} {pools : ValueMap}
    (h : Valid S settled f pools) (hb : S.start.layout.insts b = []) : f.branch b = none := by
  have hstart : S.start.terminator b = none := by
    rw [Function.terminator, Function.branch, Layout.lastInst, hb]
    rfl
  have hshape := h.frame.shape b
  rw [hstart, Option.map_none, Option.map_eq_none_iff, Function.terminator,
    Option.map_eq_none_iff] at hshape
  exact hshape

theorem Setting.Seeded.keeps {prior prior' : List Inst} (h : S.Seeded f prior)
    (hfg : Keeps S.base f g) (hslots : g.sizedStackSlots = f.sizedStackSlots)
    (hsub : prior ⊆ prior') : S.Seeded g prior' where
  two := by rw [hslots, h.two]
  size slot hslot := by rw [hslots, h.size slot hslot]
  initialised slot hslot := (h.initialised slot hslot).keeps hfg hsub

theorem Uncalled.edited (h : Uncalled S f) (hlayout : g.layout = f.layout)
    (hop : ∀ i, (g.instData i).opcode = (f.instData i).opcode)
    (hdecl : g.declaration = f.declaration) : Uncalled S g where
  declaration := hdecl.trans h.declaration
  noCalls c i hi := by
    rw [hlayout] at hi
    rw [hop, h.noCalls c i hi]

theorem Uncalled.emitted (h : Uncalled S f) (he : Emitted f g b before after data tys)
    (hcall : data.opcode.isCall = false) : Uncalled S g where
  declaration := by
    rw [← h.declaration]
    exact congrArg (fun x => (x.1, x.2.1, x.2.2.2)) he.header
  noCalls c i hi := by
    obtain ⟨p, q, hsplit⟩ := List.append_of_mem hi
    rcases he.split_cases hsplit with ⟨-, rfl, -⟩ | ⟨hlt, p', q', hold, -⟩
    · rw [he.instData_new, hcall]
    · rw [he.instData_old hlt, h.noCalls c i (by rw [hold]; simp)]

theorem Filling.emitted (h : Filling S done b f) (hstart : Keeps S.base S.start f)
    (he : Emitted f g b before after data tys) (hbranch : ∀ c, g.branch c = f.branch c)
    (hplain : data.opcode.isPlain = true) : Filling S done b g where
  kept c hc i hi := by
    have hlt := (S.start.insts_lt c i hi).trans_le hstart.insts_len
    rw [he.instData_old hlt, h.kept c hc i hi]
  untouched c hc hne := by rw [he.insts_other c hne, h.untouched c hc hne]
  params c hne hc := by rw [he.blockParams, h.params c hne hc]
  params_done c hc hne := by rw [he.blockParams, h.params_done c hc hne]
  noArgs c t ht := h.noArgs c t (by rw [← hbranch c, ht])
  ended c i hi ht := by
    obtain ⟨p, q, hsplit⟩ := List.append_of_mem hi
    rcases he.split_cases hsplit with ⟨-, rfl, -⟩ | ⟨hlt, p', q', hold, -⟩
    · rw [he.instData_new, Opcode.isTerminator_of_isPlain hplain] at ht
      cases ht
    · rw [he.instData_old hlt] at ht
      exact h.ended c i (by rw [hold]; simp) ht
  nonempty c hc hnil := h.nonempty c hc (List.subset_nil.mp (hnil ▸ he.insts_subset c))
  uncalled := h.uncalled.emitted he (Opcode.isCall_of_isPlain hplain)

/-- What the slots need of an access: it fits, and it reads only when they are set up. -/
def Setting.Allows (S : Setting) (ready : Prop) (f : Function) (data : InstructionData)
    (tys : List ClifType) : Prop :=
  data.opcode.accessesMemory = true → ∃ a slot offset,
    data.access f.valueType (tys.headD .invalid) = some a ∧ S.Fits f a slot offset ∧
      (a.reads = true → ready)

/-- An instruction that accesses no memory. -/
theorem Setting.Allows.of_not (h : data.opcode.accessesMemory = false) :
    S.Allows ready f data tys := fun ht => by rw [h] at ht; cases ht

/-- **The instruction builder keeps the state**, if the operands may be used and the access is
allowed. -/
theorem Working.build_spec (h : Working S done b L ready s) (hplain : data.opcode.isPlain = true)
    (hargs : ∀ v ∈ data.arguments, S.base ≤ v ∧ s.func.Usable S.entry b v)
    (hallows : S.Allows ready s.func data tys) :
    Ensures I (build data tys) s fun i s' => i = s.func.dfg.insts.len ∧
      Working S done b L ready s' ∧ Keeps S.base s.func s'.func ∧
      ∃ before after, Emitted s.func s'.func b before after data tys := by
  obtain ⟨before, hpoints, hbefore, hready⟩ := h.cursor
  refine (hpoints.build data tys).mono ?_
  rintro i s' ⟨hi, he, hpos, hlocals⟩
  have hterm := Opcode.isTerminator_of_isPlain hplain
  have hbranch := Function.isBranch_eq_false hterm
  have hend : S.start.layout.insts b = [] → s.func.branch b = none := h.valid.branch_eq_none
  have hkeeps := he.keeps S.base hbranch hend
  -- everything in front of the terminator is behind the cursor
  have hall : ∀ i ∈ s.func.layout.insts b, (s.func.instData i).opcode.isTerminator = false →
      i ∈ before := by
    intro i hi hnt
    rw [hpoints.split, List.mem_append] at hi
    refine hi.resolve_right fun hi => ?_
    have ht := S.skeleton.isTerminator hi
    rw [← h.valid.frame.opcode i (S.start.insts_lt b i hi), hnt] at ht
    cases ht
  have hvalid : Valid S (· ∈ done) s'.func L.blockDefValues := by
    refine h.valid.emitted he hkeeps hbranch hbefore (fun ht => by rw [hterm] at ht; cases ht)
      (fun v hv => ⟨(hargs v hv).1, (hargs v hv).2.available hall⟩) fun hacc => ?_
    obtain ⟨a, slot, offset, ha, hfits, hreads⟩ := hallows hacc
    refine ⟨a, slot, offset, ha, hfits, fun hr => ?_⟩
    have hseeded := hready (hreads hr)
    exact hseeded.initialised slot (by rw [← hseeded.two]; exact hfits.made)
  refine ⟨hi, ⟨hvalid, hlocals.trans h.locals, ?_, ?_, ?_⟩, hkeeps, _, _, he⟩
  · exact h.filling.emitted h.valid.frame he (he.branch hbranch hend) hplain
  · refine ⟨before ++ [s.func.dfg.insts.len], hpoints.emitted he hpos, ?_, fun hr => ?_⟩
    · intro i hi
      rcases List.mem_append.mp hi with hi | hi
      · have hlt : i < s.func.dfg.insts.len :=
          s.func.insts_lt b i (by rw [hpoints.split]; exact List.mem_append_left _ hi)
        rw [he.instData_old hlt, hbefore i hi]
      · rw [List.mem_singleton.mp hi, he.instData_new, hterm]
    · refine (hready hr).keeps hkeeps he.sizedStackSlots ?_
      unfold Setting.prior
      split
      · exact List.subset_append_left _ _
      · exact hkeeps.insts S.entry
  · exact fun tv htv => h.valid.keepsRecorded hkeeps (h.own tv htv)

/-! ## Results -/

/-- What is known of the first result `v`, of type `r`, of a new instruction of block `b`. -/
structure Produced (S : Setting) (f g : Function) (b : Block) (data : InstructionData)
    (r : ClifType) (v : Value) : Prop where
  new : S.base ≤ v
  defined : g.DefinedIn b v
  type : g.valueType v = r
  inst : ∃ i, g.IsResult v i ∧ i ∈ g.layout.insts b ∧ g.instData i = data
  keeps : Keeps S.base f g
  slots : g.sizedStackSlots = f.sizedStackSlots
  compares : f.ComparesI8x16 → g.ComparesI8x16
  icmp : data.opcode = .icmp → (data.arguments.map f.valueType).head? = some .i8x16 →
    g.ComparesI8x16

theorem Emitted.produced {settled : Block → Prop} {pools : ValueMap} {r : ClifType}
    {rest : List ClifType} (h : Valid S settled f pools)
    (he : Emitted f g b before after data (r :: rest)) (hkeeps : Keeps S.base f g)
    (hterm : data.opcode.isTerminator = false)
    (hargs : ∀ v ∈ data.arguments, v < f.dfg.values.len) :
    Produced S f g b data r f.dfg.values.len := by
  have hres : g.IsResult f.dfg.values.len f.dfg.insts.len := he.isResult_new (k := 0) rfl
  have hmem : f.dfg.insts.len ∈ g.layout.insts b := by
    rw [he.insts_self]
    exact List.mem_append_right _ List.mem_cons_self
  refine ⟨h.frame.values_len, .inr ⟨_, hres, hmem, by rw [he.instData_new, hterm]⟩, ?_,
    ⟨_, hres, hmem, he.instData_new⟩, hkeeps, he.sizedStackSlots, h.compares hkeeps,
    fun hop hty => ?_⟩
  · exact congrArg ValueData.ty (he.values_new (k := 0) rfl)
  · refine ⟨b, _, hmem, by rw [he.instData_new, hop], ?_⟩
    rw [he.instData_new, List.map_congr_left fun v hv => hkeeps.types v (hargs v hv), hty]

/-- The result may be recorded with its type. -/
theorem Produced.recorded {r : ClifType} {v : Value} (h : Produced S f g b data r v) :
    S.Recorded g b ⟨v, r⟩ :=
  ⟨h.new, h.defined, fun _ => .inl h.type⟩

/-- The result may be recorded with the type that goes with the one recorded for the operand that
controls it. -/
theorem Produced.recorded_of_operand {r r' t : ClifType} {rest : List ClifType} {u v : Value}
    (h : Produced S f g b data r' v) (hu : data.arguments[data.opcode.typevarOperand]? = some u)
    (hres : data.opcode.resultTypes (f.valueType u) = some (r' :: rest))
    (htyped : S.config.Accepted → f.Agrees t u)
    (hrec : S.config.Accepted → data.opcode.records t r = true) : S.Recorded g b ⟨v, r⟩ := by
  refine ⟨h.new, h.defined, fun hok => ?_⟩
  refine (htyped hok).result (hrec hok) hres h.type h.compares fun hop hty => h.icmp hop ?_
  rw [hop] at hu
  rw [List.head?_map, List.head?_eq_getElem?, show data.arguments[0]? = some u from hu]
  exact congrArg some hty

/-- Building at a controlling type whose result types are known, and taking the first result. -/
theorem Working.emitKnown_spec (h : Working S done b L ready s) (data : InstructionData)
    {ctrl r : ClifType} {rest : List ClifType}
    (htys : data.opcode.resultTypes ctrl = some (r :: rest)) (hplain : data.opcode.isPlain = true)
    (hargs : ∀ v ∈ data.arguments, S.base ≤ v ∧ s.func.Usable S.entry b v)
    (hallows : S.Allows ready s.func data (r :: rest)) :
    Ensures I (emitTyped ctrl data) s fun v s' =>
      Working S done b L ready s' ∧ Produced S s.func s'.func b data r v := by
  unfold emitTyped insTyped
  rw [htys]
  refine Ensures.bind (h.build_spec hplain hargs hallows) ?_
  rintro i s' ⟨rfl, hw, hkeeps, before, after, he⟩
  unfold firstResult
  refine Ensures.bind (ensures_func (Q := fun f s'' => f = s'.func ∧ s'' = s') ⟨rfl, rfl⟩) ?_
  rintro _ s'' ⟨rfl, rfl⟩
  rw [he.results_new]
  have hterm := Opcode.isTerminator_of_isPlain hplain
  exact Ensures.pure ⟨hw, he.produced h.valid hkeeps hterm fun v hv => by
    obtain ⟨c, hc, -⟩ := (hargs v hv).2
    exact hc.lt⟩

/-- Building at any controlling type, and taking the first result. -/
theorem Working.emitTyped_spec (h : Working S done b L ready s) (data : InstructionData)
    (ctrl : ClifType) (hplain : data.opcode.isPlain = true)
    (hargs : ∀ v ∈ data.arguments, S.base ≤ v ∧ s.func.Usable S.entry b v)
    (hallows : ∀ tys, data.opcode.resultTypes ctrl = some tys → S.Allows ready s.func data tys) :
    Ensures (fun _ => Moment S) (emitTyped ctrl data) s fun v s' =>
      Working S done b L ready s' ∧ ∃ r rest, data.opcode.resultTypes ctrl = some (r :: rest) ∧
        Produced S s.func s'.func b data r v := by
  cases htys : data.opcode.resultTypes ctrl with
  | none =>
      unfold emitTyped insTyped
      rw [htys]
      exact Ensures.bind (P := fun _ _ => False) (Ensures.panicWith h.moment)
        fun _ _ hfalse => hfalse.elim
  | some tys =>
      cases tys with
      | cons r rest =>
          refine (h.emitKnown_spec data htys hplain hargs (hallows _ htys)).mono ?_
          rintro v s' ⟨hw, hp⟩
          exact ⟨hw, r, rest, rfl, hp⟩
      | nil =>
          -- an instruction without results has no first one
          unfold emitTyped insTyped
          rw [htys]
          refine Ensures.bind (h.build_spec hplain hargs (hallows _ htys)) ?_
          rintro i s' ⟨rfl, hw, -, before, after, he⟩
          unfold firstResult
          refine Ensures.bind (ensures_func (Q := fun f s'' => f = s'.func ∧ s'' = s')
            ⟨rfl, rfl⟩) ?_
          rintro _ s'' ⟨rfl, rfl⟩
          rw [he.results_new]
          exact Ensures.panicWith hw.moment

/-- Building at the controlling type of the operands is building at that type. -/
theorem ensures_emit_iff {Q : Value → State Locals → Prop} :
    Ensures I (emit data) s Q ↔ Ensures I (emitTyped (s.func.controlType data) data) s Q :=
  ⟨fun h => ⟨h.runs⟩, fun h => ⟨h.runs⟩⟩

/-- An instruction without a result of interest. -/
theorem Working.ins_spec (h : Working S done b L ready s) (data : InstructionData)
    {tys : List ClifType}
    (htys : ∀ ctrl, data.opcode.resultTypes ctrl = some tys) (hplain : data.opcode.isPlain = true)
    (hargs : ∀ v ∈ data.arguments, S.base ≤ v ∧ s.func.Usable S.entry b v)
    (hallows : S.Allows ready s.func data tys) :
    Ensures I (ins data) s fun i s' => i = s.func.dfg.insts.len ∧
      Working S done b L ready s' ∧ Keeps S.base s.func s'.func ∧
      ∃ before after, Emitted s.func s'.func b before after data tys := by
  unfold Cursor.ins
  refine Ensures.bind (ensures_func (Q := fun f s'' => f = s.func ∧ s'' = s) ⟨rfl, rfl⟩) ?_
  rintro _ s'' ⟨rfl, rfl⟩
  unfold insTyped
  rw [htys]
  exact h.build_spec hplain hargs hallows

end Build

end Clir
