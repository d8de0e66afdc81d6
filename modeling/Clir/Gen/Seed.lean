import Clir.Gen.InPlace
import Clir.Gen.PopulateSpec

set_option autoImplicit false

/-! # The start of the entry block

The first block gets the parameters of the signature, a constant for each operand type that no
parameter has, two stack slots, and stores to every word of them. From then on it has a value of
each type in stock, and the slots are initialised.
-/

namespace Clir

open Cmd Cursor Graph

/-! ## Where the generator stops -/

/-- The types that the generator asks for by itself are in stock. -/
structure Setting.Plentiful (S : Setting) : Prop where
  root : ∀ t ∈ rootTypes, t ∈ S.stock
  returns : ∀ t ∈ S.start.signature.returns, t ∈ S.stock

/-- A moment at which the entry block has recorded its values. -/
structure Setting.Published (S : Setting) (s : State Locals) : Prop where
  moment : Moment S s
  recorded : (s.locals.blockDefValues.lookup S.entry).isSome

/-- `s` is where the start of the entry block stopped. -/
def Setting.SettingUp (S : Setting) (e : Halt) (s : State Locals) : Prop :=
  ∃ (w : World (State Locals)) (draws : List ℕ),
    seedEntry S.entry S.start.signature.params S.config w = .error e ⟨draws, s⟩

/-- A moment at which an instruction of block `b` is selected. -/
structure Setting.Drawing (S : Setting) (b : Block) (s : State Locals) : Prop
    extends S.Published s where
  working : ∃ done, Working S done b s.locals True s

/-- `s` is where instruction selection for some block stopped. -/
def Setting.Selecting (S : Setting) (e : Halt) (s : State Locals) : Prop :=
  ∃ b ∈ S.start.layout.blocks, ∃ (w : World (State Locals)) (draws : List ℕ), S.Drawing b w.mem ∧
    populateBlockInstructions (dominatorsOf S.dominators b) w.mem.locals.blockDefValues S.config
      w = .error e ⟨draws, s⟩

/-- Where the generator may stop. The invariant holds, the entry block has recorded its values once
its start is over, and with plentiful types a panic is one of instruction selection. -/
structure Stop (S : Setting) (e : Halt) (s : State Locals) : Prop where
  moment : Moment S s
  place : S.Selecting e s ∨ (S.Plentiful → e = .starved) ∧ (S.SettingUp e s ∨ S.Published s)

theorem Setting.Published.stop {S : Setting} {e : Halt} {s : State Locals} (h : S.Published s)
    (hstarved : S.Plentiful → e = .starved) : Stop S e s :=
  ⟨h.moment, .inr ⟨hstarved, .inr h⟩⟩

section Working

variable {S : Setting} {done : List Block} {b : Block} {L L' : Locals} {ready : Prop}
  {s : State Locals} {f g : Function}

/-! ## Edits between instructions -/

theorem Filling.sameCode (h : Filling S done b f) (hcode : SameCode f g)
    (hparams : ∀ c ≠ S.entry, g.blockParams c = f.blockParams c)
    (hdecl : g.declaration = f.declaration) : Filling S done b g where
  kept c hc i hi := by rw [hcode.instData, h.kept c hc i hi]
  untouched c hc hne := by rw [hcode.layout, h.untouched c hc hne]
  params c hne hc := by rw [hparams c hne, h.params c hne hc]
  params_done c hc hne := by rw [hparams c hne, h.params_done c hc hne]
  noArgs c t ht := h.noArgs c t (by rw [← hcode.branch c, ht])
  ended c i hi ht := by
    rw [hcode.layout] at hi
    rw [hcode.instData] at ht
    exact h.ended c i hi ht
  nonempty c hc := by rw [hcode.layout]; exact h.nonempty c hc
  uncalled := h.uncalled.edited hcode.layout (fun i => by rw [hcode.instData]) hdecl

theorem Working.sameCode (h : Working S done b L ready s) (hkeeps : Keeps S.base s.func g)
    (hcode : SameCode s.func g)
    (hparams : ∀ c ≠ S.entry, g.blockParams c = s.func.blockParams c)
    (hdecl : g.declaration = s.func.declaration)
    (hslots : ready → g.sizedStackSlots = s.func.sizedStackSlots) :
    Working S done b L ready { s with func := g } where
  valid := h.valid.sameCode hkeeps hcode
  locals := h.locals
  filling := h.filling.sameCode hcode hparams hdecl
  cursor := by
    obtain ⟨before, hpoints, hbefore, hready⟩ := h.cursor
    refine ⟨before, ⟨?_, ?_, hpoints.pos⟩, fun i hi => ?_, fun hr => ?_⟩
    · rw [hcode.layout]
      exact hpoints.mem
    · rw [hcode.layout]
      exact hpoints.split
    · rw [hcode.instData, hbefore i hi]
    · refine (hready hr).keeps hkeeps (hslots hr) ?_
      unfold Setting.prior
      rw [hcode.layout]
      exact List.Subset.refl _
  own tv htv := h.valid.keepsRecorded hkeeps (h.own tv htv)

/-- Other local variables, with the same pools. -/
theorem Working.with_locals (h : Working S done b L ready s)
    (hpools : L'.blockDefValues = L.blockDefValues)
    (hown : ∀ tv ∈ L'.defValues, S.Recorded s.func b tv) :
    Working S done b L' ready { s with locals := L' } where
  valid := by
    rw [hpools]
    exact h.valid
  locals := rfl
  filling := h.filling
  cursor := by
    obtain ⟨before, hpoints, hrest⟩ := h.cursor
    exact ⟨before, ⟨hpoints.mem, hpoints.split, hpoints.pos⟩, hrest⟩
  own := hown

/-- The values that a block has defined become its pool. -/
theorem Working.publish (h : Working S done b L ready s)
    (hpools : L'.blockDefValues = L.blockDefValues.insert b L.defValues)
    (hdefs : L'.defValues = L.defValues)
    (hstock : b = S.entry → ∀ t ∈ S.stock, ∃ v, ⟨v, t⟩ ∈ L.defValues) :
    Working S done b L' ready { s with locals := L' } where
  valid := by
    rw [hpools]
    refine h.valid.record (fun c tvs hc tv htv => ?_) fun tvs hc t ht => ?_
    · by_cases hcb : c = b
      · subst hcb
        rw [AList.lookup_insert, Option.some.injEq] at hc
        exact h.own tv (hc ▸ htv)
      · rw [AList.lookup_insert_ne hcb] at hc
        exact h.valid.recorded c tvs hc tv htv
    · by_cases hcb : S.entry = b
      · rw [hcb, AList.lookup_insert, Option.some.injEq] at hc
        exact hc ▸ hstock hcb.symm t ht
      · rw [AList.lookup_insert_ne hcb] at hc
        exact h.valid.stocked tvs hc t ht
  locals := rfl
  filling := h.filling
  cursor := by
    obtain ⟨before, hpoints, hrest⟩ := h.cursor
    exact ⟨before, ⟨hpoints.mem, hpoints.split, hpoints.pos⟩, hrest⟩
  own tv htv := h.own tv (hdefs ▸ htv)

/-- The slots are set up once every word of them is stored to. -/
theorem Working.seeded (h : Working S done S.entry L False s)
    (htwo : s.func.sizedStackSlots.len = 2)
    (hsize : ∀ slot < 2, s.func.sizedStackSlots.get slot = 32)
    (hinit : ∀ slot < 2, S.Initialised s.func (s.func.layout.insts S.entry) slot) :
    Working S done S.entry L True s where
  valid := h.valid
  locals := h.locals
  filling := h.filling
  cursor := by
    obtain ⟨before, hpoints, hbefore, -⟩ := h.cursor
    refine ⟨before, hpoints, hbefore, fun _ => ⟨htwo, hsize, fun slot hslot q hq => ?_⟩⟩
    obtain ⟨i, hi, hlt, v, p, hdata, hrest⟩ := hinit slot hslot q hq
    rw [Setting.prior, if_pos rfl]
    -- a store is not the terminator, so it is behind the cursor
    refine ⟨i, ?_, hlt, v, p, hdata, hrest⟩
    rw [hpoints.split, List.mem_append] at hi
    refine hi.resolve_right fun hi => ?_
    have ht := S.skeleton.isTerminator hi
    rw [← h.valid.frame.opcode i (S.start.insts_lt S.entry i hi), hdata] at ht
    cases ht
  own := h.own

end Working

/-! ## Parameters and constants -/

/-- The entry block before its values are published: the values it has defined have exactly the
types they are recorded with, and `n` stack slots are there. -/
structure Seeding (S : Setting) (L₀ : Locals) (n : ℕ) (s : State Locals) : Prop where
  working : Working S [] S.entry s.locals False s
  typed : ∀ tv ∈ s.locals.defValues, s.func.valueType tv.value = tv.ty
  slots : s.func.sizedStackSlots.len = n
  size : ∀ slot < n, s.func.sizedStackSlots.get slot = 32
  defs : s.locals.blockDefValues = L₀.blockDefValues
  refs : s.locals.blockRefValues = L₀.blockRefValues
  used : s.locals.refValues = L₀.refValues

section Seeding

variable {S : Setting} {L₀ : Locals} {n : ℕ} {s s' : State Locals}
  {I : Halt → State Locals → Prop}

/-- A value that the entry block may record with its type. -/
structure Seed (S : Setting) (f : Function) (tv : TypedValue) : Prop where
  recorded : S.Recorded f S.entry tv
  type : f.valueType tv.value = tv.ty

theorem Seeding.seed (h : Seeding S L₀ n s) {tv : TypedValue} (htv : tv ∈ s.locals.defValues) :
    Seed S s.func tv :=
  ⟨h.working.own tv htv, h.typed tv htv⟩

/-- What an edit of the function has to keep. -/
theorem Seeding.step (h : Seeding S L₀ n s) (hw : Working S [] S.entry s.locals False s')
    (hkeeps : Keeps S.base s.func s'.func) {m : ℕ} (hslots : s'.func.sizedStackSlots.len = m)
    (hsize : ∀ slot < m, s'.func.sizedStackSlots.get slot = 32) : Seeding S L₀ m s' where
  working := by
    rw [hw.locals]
    exact hw
  typed tv htv := by
    rw [hw.locals] at htv
    rw [hkeeps.types _ (h.working.own tv htv).defined.lt, h.typed tv htv]
  slots := hslots
  size := hsize
  defs := by rw [hw.locals, h.defs]
  refs := by rw [hw.locals, h.refs]
  used := by rw [hw.locals, h.used]

theorem Seeding.insertDef_spec (h : Seeding S L₀ n s) {tv : TypedValue} (htv : Seed S s.func tv) :
    Ensures I (insertDef tv) s fun _ s' =>
      Seeding S L₀ n s' ∧ s.locals.defValues ⊆ s'.locals.defValues ∧ tv ∈ s'.locals.defValues := by
  unfold insertDef
  refine ensures_bind_locals ?_
  have hcases : ∀ tv' ∈ s.locals.defValues.insert tv, Seed S s.func tv' := by
    intro tv' htv'
    rcases List.mem_insert_iff.mp htv' with rfl | hold
    · exact htv
    · exact h.seed hold
  refine ensures_setLocals ⟨⟨?_, fun tv' h' => (hcases tv' h').type, h.slots, h.size, h.defs,
    h.refs, h.used⟩, fun tv' h' => List.mem_insert_of_mem h', List.mem_insert_self⟩
  exact h.working.with_locals rfl fun tv' h' => (hcases tv' h').recorded

theorem Seeding.appendBlockParam_spec (h : Seeding S L₀ n s) (ty : ClifType) :
    Ensures I (appendBlockParam S.entry ty) s fun v s' =>
      Seeding S L₀ n s' ∧ s'.locals = s.locals ∧ Seed S s'.func ⟨v, ty⟩ := by
  unfold Cursor.appendBlockParam
  refine ensures_bind_func ?_
  refine Ensures.bind (ensures_setFunc
    (Q := fun _ s' => s' = { s with func := s.func.appendBlockParam S.entry ty }) rfl) ?_
  rintro - _ rfl
  have hkeeps := s.func.keeps_appendBlockParam S.base S.entry ty
  have hw := h.working.sameCode hkeeps (s.func.sameCode_appendBlockParam S.entry ty)
    (fun c hc => s.func.appendBlockParam_blockParams_of_ne ty hc) rfl fun hf => hf.elim
  refine Ensures.pure ⟨h.step hw hkeeps h.slots h.size, rfl, ?_, ?_⟩
  · exact s.func.recorded_appendBlockParam S.entry ty h.working.valid.frame.values_len
  · exact congrArg ValueData.ty (s.func.appendBlockParam_value_new S.entry ty)

/-- The parameters are recorded, and an operand type is covered by one or still to come. -/
theorem Seeding.seedParams_spec (h : Seeding S L₀ n s) (params : List ClifType)
    (ops : List OperandType) :
    Ensures I (seedParams S.entry params ops) s fun rest s' =>
      Seeding S L₀ n s' ∧ s.locals.defValues ⊆ s'.locals.defValues ∧
        (∀ t ∈ params, ∃ v, ⟨v, t⟩ ∈ s'.locals.defValues) ∧
          ∀ o ∈ ops, o ∈ rest ∨ o.toCraneliftType ∈ params := by
  -- `ops` varies: a parameter takes its type out of those that need a constant
  induction params generalizing ops s with
  | nil => exact Ensures.pure ⟨h, List.Subset.refl _, by simp, fun o ho => .inl ho⟩
  | cons t params ih =>
      unfold seedParams
      refine Ensures.bind (h.appendBlockParam_spec t) ?_
      rintro v s₁ ⟨h₁, hlocals, hseed⟩
      refine Ensures.bind (h₁.insertDef_spec hseed) ?_
      rintro - s₂ ⟨h₂, hsub, hmem⟩
      refine (ih h₂ _).mono ?_
      rintro rest s₃ ⟨h₃, hsub', hparams, hops⟩
      rw [hlocals] at hsub
      refine ⟨h₃, List.Subset.trans hsub hsub', fun t' ht' => ?_, fun o ho => ?_⟩
      · rcases List.mem_cons.mp ht' with rfl | ht'
        · exact ⟨v, hsub' hmem⟩
        · exact hparams t' ht'
      · by_cases hot : o.toCraneliftType = t
        · exact .inr (hot ▸ List.mem_cons_self)
        · exact (hops o (List.mem_filter.mpr ⟨ho, by simpa using hot⟩)).imp_right
            (List.mem_cons_of_mem t)

theorem Seeding.createSizedStackSlot_spec (h : Seeding S L₀ n s) :
    Ensures I (createSizedStackSlot 32 : M Locals StackSlot) s fun slot s' =>
      slot = n ∧ Seeding S L₀ (n + 1) s' ∧ s'.locals = s.locals := by
  unfold Clir.createSizedStackSlot
  refine ensures_bind_func ?_
  refine Ensures.bind (ensures_setFunc
    (Q := fun _ s' => s' = { s with func := s.func.createSizedStackSlot 32 }) rfl) ?_
  rintro - _ rfl
  have hkeeps := s.func.keeps_createSizedStackSlot S.base 32
  have hw := h.working.sameCode hkeeps (s.func.sameCode_createSizedStackSlot 32)
    (fun _ _ => rfl) rfl fun hf => hf.elim
  refine Ensures.pure ⟨h.slots, h.step hw hkeeps ?_ fun slot hslot => ?_, rfl⟩
  · exact congrArg (· + 1) h.slots
  · rcases Nat.lt_succ_iff_lt_or_eq.mp hslot with hlt | rfl
    · exact (PrimaryMap.push_get_of_lt _ _ (by rw [h.slots]; exact hlt)).trans (h.size slot hlt)
    · rw [← h.slots]
      exact PrimaryMap.push_get_self _ _

/-- An instruction of a known result type. -/
theorem Seeding.emitKnown_spec (h : Seeding S L₀ n s) (data : InstructionData)
    {ctrl r : ClifType} {rest : List ClifType}
    (htys : data.opcode.resultTypes ctrl = some (r :: rest))
    (hplain : data.opcode.isPlain = true) (hacc : data.opcode.accessesMemory = false)
    (hargs : ∀ v ∈ data.arguments, ∃ t, Seed S s.func ⟨v, t⟩) :
    Ensures I (emitTyped ctrl data) s fun v s' =>
      Seeding S L₀ n s' ∧ s'.locals = s.locals ∧ Seed S s'.func ⟨v, r⟩ ∧
        Produced S s.func s'.func S.entry data r v := by
  refine (h.working.emitKnown_spec data htys hplain ?_ (.of_not hacc)).mono ?_
  · intro v hv
    obtain ⟨t, hseed⟩ := hargs v hv
    exact ⟨hseed.recorded.new, hseed.recorded.mayUse.usable⟩
  · rintro v s' ⟨hw, hp⟩
    refine ⟨h.step hw hp.keeps ?_ fun slot hslot => ?_, hw.locals, ⟨hp.recorded, hp.type⟩, hp⟩
    · rw [hp.slots, h.slots]
    · rw [hp.slots, h.size slot hslot]

/-- A constant without operands. -/
theorem Seeding.constant_spec (h : Seeding S L₀ n s) (op : Opcode) {ctrl r : ClifType}
    (htys : op.resultTypes ctrl = some [r]) (hplain : op.isPlain = true)
    (hacc : op.accessesMemory = false) :
    Ensures I (emitTyped ctrl (.fixed op [])) s fun v s' =>
      Seeding S L₀ n s' ∧ s'.locals = s.locals ∧ Seed S s'.func ⟨v, r⟩ :=
  (h.emitKnown_spec (.fixed op []) htys hplain hacc fun _ hv => absurd hv List.not_mem_nil).mono
    fun _ _ ⟨h', hl, hs, _⟩ => ⟨h', hl, hs⟩

/-- Every operand type has a constant. -/
theorem Seeding.genConstant_spec (h : Seeding S L₀ n s) (o : OperandType) :
    Ensures I (genConstant o.toCraneliftType : M Locals Value) s fun v s' =>
      Seeding S L₀ n s' ∧ s'.locals = s.locals ∧ Seed S s'.func ⟨v, o.toCraneliftType⟩ := by
  cases o with
  | i8 | i16 | i32 | i64 => exact h.constant_spec .iconst rfl rfl rfl
  | i128 =>
      change Ensures I (do
        let v64 ← emitTyped .i64 (.fixed .iconst [])
        emitTyped .i128 (.fixed .uextend [v64])) s _
      refine Ensures.bind (h.constant_spec .iconst rfl rfl rfl) ?_
      rintro v s₁ ⟨h₁, hl, hseed⟩
      refine (h₁.emitKnown_spec (.fixed .uextend [v]) rfl rfl rfl fun u hu => ?_).mono ?_
      · exact ⟨_, List.mem_singleton.mp hu ▸ hseed⟩
      · rintro u s₂ ⟨h₂, hl₂, hseed₂, -⟩
        exact ⟨h₂, hl₂.trans hl, hseed₂⟩
  | f16 => exact ensures_emit_iff.mpr (h.constant_spec .f16const rfl rfl rfl)
  | f32 => exact ensures_emit_iff.mpr (h.constant_spec .f32const rfl rfl rfl)
  | f64 => exact ensures_emit_iff.mpr (h.constant_spec .f64const rfl rfl rfl)
  | i8x16 | i16x8 | i32x4 | i64x2 | f16x8 | f32x4 | f64x2 =>
      exact h.constant_spec .vconst rfl rfl rfl

/-! ## The stack slots -/

theorem Addressed.keeps {f g : Function} {b : Block} {v : Value} {slot : StackSlot} {offset : ℕ}
    (h : Addressed S f b v slot offset) (hfg : Keeps S.base f g) :
    Addressed S g b v slot offset :=
  ⟨h.new, hfg.usable h.new h.usable, hfg.stackAddr h.addr, h.slot_lt⟩

theorem Seeding.stackAddr_spec (h : Seeding S L₀ n s) {slot : StackSlot} (hslot : slot < 2) :
    Ensures I (stackAddr slot 0) s fun v s' => Seeding S L₀ n s' ∧ s'.locals = s.locals ∧
      Keeps S.base s.func s'.func ∧ Addressed S s'.func S.entry v slot 0 := by
  refine (h.emitKnown_spec (.stackLoad .stackAddr slot 0) rfl rfl rfl
    fun _ hv => absurd hv List.not_mem_nil).mono ?_
  rintro v s' ⟨h', hl, hseed, hp⟩
  obtain ⟨i, hres, hi, hdata⟩ := hp.inst
  exact ⟨h', hl, hp.keeps, hp.new, hseed.recorded.mayUse.usable, ⟨S.entry, i, hres, hi, hdata⟩,
    hslot⟩

/-- One word is stored to a slot. -/
theorem Seeding.store_spec (h : Seeding S L₀ 2 s) {v addr : Value} {slot : StackSlot} {q : ℕ}
    (hv : ⟨v, .i64⟩ ∈ s.locals.defValues) (ha : Addressed S s.func S.entry addr slot 0)
    (hq : q < 4) :
    Ensures I (ins (.store .store v addr (q * 8))) s fun _ s' =>
      Seeding S L₀ 2 s' ∧ s'.locals = s.locals ∧ Keeps S.base s.func s'.func ∧
        S.StoredAt s'.func (s'.func.layout.insts S.entry) slot (q * 8) := by
  have hseed := h.seed hv
  have hi64 : s.func.valueType v = .i64 := hseed.type
  refine (h.working.ins_spec (.store .store v addr (q * 8)) (fun _ => rfl) rfl ?_ ?_).mono ?_
  · intro u hu
    rcases List.mem_pair.mp hu with rfl | rfl
    · exact ⟨hseed.recorded.new, hseed.recorded.mayUse.usable⟩
    · exact ⟨ha.new, ha.usable⟩
  · intro _
    refine ⟨_, slot, 0, rfl, ⟨ha.addr, ?_, h.size slot ha.slot_lt, fun _ => ?_⟩,
      fun hr => by cases hr⟩
    · rw [h.slots]
      exact ha.slot_lt
    -- four words of eight bytes fill the slot exactly
    · change 0 + q * 8 + Opcode.width .store (s.func.valueType v) ≤ 32
      rw [hi64, show Opcode.width .store .i64 = 8 from rfl]
      omega
  · rintro i s' ⟨-, hw, hkeeps, before, after, he⟩
    refine ⟨h.step hw hkeeps ?_ fun k hk => ?_, hw.locals, hkeeps, s.func.dfg.insts.len, ?_, ?_, v,
      addr, he.instData_new, ?_, ?_, ha.new, hkeeps.stackAddr ha.addr⟩
    · rw [he.sizedStackSlots, h.slots]
    · rw [he.sizedStackSlots, h.size k hk]
    · rw [he.insts_self]
      exact List.mem_append_right _ List.mem_cons_self
    · rw [he.dfg]
      exact Nat.lt_succ_self _
    · exact hseed.recorded.defined.lt.trans_le hkeeps.values_len
    · rw [hkeeps.types v hseed.recorded.defined.lt, hi64]

/-- The loop that stores to every word of both slots. -/
theorem Seeding.stores_spec (h : Seeding S L₀ 2 s) {v addr₀ addr₁ : Value}
    (hv : ⟨v, .i64⟩ ∈ s.locals.defValues) (h₀ : Addressed S s.func S.entry addr₀ 0 0)
    (h₁ : Addressed S s.func S.entry addr₁ 1 0) :
    Ensures I ((List.range 4).forM fun i => do
      let _ ← ins (.store .store v addr₀ (i * 8))
      let _ ← ins (.store .store v addr₁ (i * 8))) s fun _ s' =>
      Seeding S L₀ 2 s' ∧ s'.locals = s.locals ∧
        ∀ slot < 2, S.Initialised s'.func (s'.func.layout.insts S.entry) slot := by
  -- the words that remain, and those of both slots that are stored
  refine (Ensures.forM (P := fun rest s' => Seeding S L₀ 2 s' ∧ s'.locals = s.locals ∧
    Keeps S.base s.func s'.func ∧ (∀ q ∈ rest, q < 4) ∧ ∀ q < 4, q ∈ rest ∨
      ∀ slot < 2, S.StoredAt s'.func (s'.func.layout.insts S.entry) slot (q * 8))
    ⟨h, rfl, Keeps.refl _ _, by simp, fun q hq => .inl (List.mem_range.mpr hq)⟩ ?_).mono ?_
  · rintro i rest s' ⟨h', hl, hk, hrest, hstored⟩
    have hi := hrest i List.mem_cons_self
    refine Ensures.bind (h'.store_spec (hl ▸ hv) (h₀.keeps hk) hi) ?_
    rintro - s₂ ⟨h₂, hl₂, hk₂, hstored₀⟩
    refine Ensures.bind (h₂.store_spec (hl₂ ▸ hl ▸ hv) (h₁.keeps (hk.trans hk₂)) hi) ?_
    rintro - s₃ ⟨h₃, hl₃, hk₃, hstored₁⟩
    refine Ensures.pure ⟨h₃, hl₃.trans (hl₂.trans hl), (hk.trans hk₂).trans hk₃,
      fun q hq => hrest q (List.mem_cons_of_mem i hq), fun q hq => ?_⟩
    by_cases hqi : q = i
    · subst hqi
      refine .inr fun slot hslot => ?_
      obtain rfl | rfl : slot = 0 ∨ slot = 1 := by unfold StackSlot at *; omega
      · exact hstored₀.keeps hk₃ (hk₃.insts S.entry)
      · exact hstored₁
    · rcases hstored q hq with hmem | hold
      · exact .inl ((List.mem_cons.mp hmem).resolve_left hqi)
      · exact .inr fun slot hslot =>
          (hold slot hslot).keeps (hk₂.trans hk₃) ((hk₂.trans hk₃).insts S.entry)
  · rintro - s' ⟨h', hl, -, -, hstored⟩
    exact ⟨h', hl, fun slot hslot q hq => (hstored q hq).resolve_left (by simp) slot hslot⟩

/-! ## The whole start -/

/-- The constants of the operand types that no parameter covers. -/
theorem Seeding.constants_spec (h : Seeding S L₀ n s) (ops : List OperandType) :
    Ensures I (ops.forM fun operandType => do
      let randomValue ← genConstant operandType.toCraneliftType
      insertDef ⟨randomValue, operandType.toCraneliftType⟩) s fun _ s' =>
      Seeding S L₀ n s' ∧ s.locals.defValues ⊆ s'.locals.defValues ∧
        ∀ o ∈ ops, ∃ v, ⟨v, o.toCraneliftType⟩ ∈ s'.locals.defValues := by
  refine (Ensures.forM (P := fun rest s' => Seeding S L₀ n s' ∧
    s.locals.defValues ⊆ s'.locals.defValues ∧
      ∀ o ∈ ops, o ∈ rest ∨ ∃ v, ⟨v, o.toCraneliftType⟩ ∈ s'.locals.defValues)
    ⟨h, List.Subset.refl _, fun o ho => .inl ho⟩ ?_).mono ?_
  · rintro o rest s₁ ⟨h₁, hsub, hops⟩
    refine Ensures.bind (h₁.genConstant_spec o) ?_
    rintro v s₂ ⟨h₂, hl, hseed⟩
    refine (h₂.insertDef_spec hseed).mono ?_
    rintro - s₃ ⟨h₃, hsub', hmem⟩
    rw [hl] at hsub'
    refine ⟨h₃, List.Subset.trans hsub hsub', fun o' ho' => ?_⟩
    rcases hops o' ho' with hrest | ⟨u, hu⟩
    · rcases List.mem_cons.mp hrest with rfl | hrest
      · exact .inr ⟨v, hmem⟩
      · exact .inl hrest
    · exact .inr ⟨u, hsub' hu⟩
  · rintro - s' ⟨h', hsub, hops⟩
    exact ⟨h', hsub, fun o ho => (hops o ho).resolve_left List.not_mem_nil⟩

/-- A value of type `i64` is there if the type is in stock. -/
theorem Seeding.ensures_i64 (h : Seeding S L₀ n s)
    (hstock : ∀ t ∈ S.stock, ∃ v, ⟨v, t⟩ ∈ s.locals.defValues) :
    Ensures (fun e s' => Moment S s' ∧ (S.Plentiful → e = .starved)) (do
      unwrap (← choose (s.locals.defValues.filter fun tv => tv.ty = .i64))) s
      fun tv s' => s' = s ∧ ⟨tv.value, .i64⟩ ∈ s.locals.defValues := by
  refine Ensures.chooseUnwrap ⟨h.working.moment, fun _ => rfl⟩ (fun hnil m => ?_) fun tv htv => ?_
  · refine ⟨h.working.moment, fun hplenty => absurd hnil ?_⟩
    obtain ⟨v, hv⟩ := hstock .i64 (hplenty.root .i64 (by decide))
    exact List.ne_nil_of_mem (List.mem_filter.mpr ⟨hv, by simp⟩)
  · obtain ⟨hmem, hty⟩ := List.mem_filter.mp htv
    have hty : tv.ty = .i64 := by simpa using hty
    exact ⟨rfl, hty ▸ hmem⟩

/-- **The start of the entry block.** It leaves a value of each type in stock, published, and both
slots initialised. It cannot panic if `i64` is in stock. -/
theorem Seeding.seedEntry_spec (h : Seeding S L₀ 0 s) :
    Ensures (fun e s' => Moment S s' ∧ (S.Plentiful → e = .starved))
      (seedEntry S.entry S.start.signature.params S.config) s fun _ s' =>
      Working S [] S.entry s'.locals True s' ∧
        s'.locals.blockDefValues = L₀.blockDefValues.insert S.entry s'.locals.defValues ∧
          s'.locals.blockRefValues = L₀.blockRefValues ∧ s'.locals.refValues = L₀.refValues ∧
            ∀ t ∈ S.stock, ∃ v, ⟨v, t⟩ ∈ s'.locals.defValues := by
  unfold seedEntry
  refine Ensures.bind (h.seedParams_spec _ _) ?_
  rintro ops s₁ ⟨h₁, -, hparams, hops⟩
  refine Ensures.bind h₁.createSizedStackSlot_spec ?_
  rintro _ s₂ ⟨rfl, h₂, hl₂⟩
  refine Ensures.bind h₂.createSizedStackSlot_spec ?_
  rintro _ s₃ ⟨rfl, h₃, hl₃⟩
  refine Ensures.bind (h₃.constants_spec ops) ?_
  rintro - s₄ ⟨h₄, hsub, hconsts⟩
  -- a type in stock comes from a parameter or from a constant of an operand type
  have hstock : ∀ t ∈ S.stock, ∃ v, ⟨v, t⟩ ∈ s₄.locals.defValues := by
    have hparam : ∀ t ∈ S.start.signature.params, ∃ v, ⟨v, t⟩ ∈ s₄.locals.defValues := by
      intro t ht
      obtain ⟨v, hv⟩ := hparams t ht
      exact ⟨v, hsub (by rwa [hl₃, hl₂])⟩
    intro t ht
    rcases List.mem_append.mp ht with ht | ht
    · obtain ⟨o, ho, rfl⟩ := List.mem_map.mp ht
      exact (hops o ho).elim (hconsts o) (hparam _)
    · exact hparam t ht
  refine Ensures.bind (h₄.stackAddr_spec (by decide)) ?_
  rintro addr₀ s₅ ⟨h₅, hl₅, -, ha₀⟩
  refine Ensures.bind (h₅.stackAddr_spec (by decide)) ?_
  rintro addr₁ s₆ ⟨h₆, hl₆, hk₆, ha₁⟩
  have hl : s₆.locals = s₄.locals := hl₆.trans hl₅
  refine ensures_bind_locals ?_
  rw [← bind_assoc]
  -- the value that both slots are filled with: the draw panics without an `i64`
  refine Ensures.pick (h₆.ensures_i64 (hl ▸ hstock)) fun tv htv => ?_
  refine Ensures.bind (h₆.stores_spec htv (ha₀.keeps hk₆) ha₁) ?_
  rintro - s₇ ⟨h₇, hl₇, hinit⟩
  -- the pool is published last, when the slots are initialised
  unfold publishDefs
  refine ensures_bind_locals ?_
  have hstock₇ : ∀ t ∈ S.stock, ∃ v, ⟨v, t⟩ ∈ s₇.locals.defValues := by
    rw [hl₇, hl]
    exact hstock
  refine ensures_setLocals ⟨?_, ?_, h₇.refs, h₇.used, hstock₇⟩
  · exact (h₇.working.seeded h₇.slots h₇.size hinit).publish rfl rfl fun _ => hstock₇
  · exact congrArg (AList.insert S.entry s₇.locals.defValues) h₇.defs

end Seeding

end Clir
