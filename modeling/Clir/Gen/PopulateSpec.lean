import Clir.Gen.Working

set_option autoImplicit false

/-! # What instruction selection does

Each arm of `populate_block_instructions` keeps the state of the first pass, returns a value that
may be recorded as it says, and refers to values only by types that the pool of the block has
values of (`Produces`). One lemma for each shape of arm; the arms are instances.
-/

namespace Clir

open Cmd Cursor Graph

/-- An entry that a lookup finds is in the list. -/
theorem mem_of_lookup {α β : Type} [DecidableEq α] {l : List (α × β)} {a : α} {b : β}
    (h : l.lookup a = some b) : (a, b) ∈ l := by
  obtain ⟨l₁, l₂, rfl, -⟩ := List.lookup_eq_some_iff.mp h
  simp

/-! ## Choices -/

section Choices

variable {δ : Type} {I : Halt → State δ → Prop} {s : State δ}

theorem ensures_selectRandomValue (l : List Value) (hI : I .starved s) :
    Ensures I (selectRandomValue l) s fun o s' =>
      s' = s ∧ (o = none → l = []) ∧ ∀ v, o = some v → v ∈ l := by
  have hget : ∀ i < l.length, (l[i]? = none → l = []) ∧ ∀ v, l[i]? = some v → v ∈ l :=
    fun i hi => ⟨fun h => absurd hi (Nat.not_lt.mpr (List.getElem?_eq_none_iff.mp h)),
      fun v hv => List.mem_of_getElem? hv⟩
  unfold selectRandomValue
  refine Ensures.ite (fun h => Ensures.pure ⟨rfl, fun _ => List.isEmpty_iff.mp h, by simp⟩)
    fun h => ?_
  have hlen : 0 < l.length := List.length_pos_of_ne_nil fun e => h (List.isEmpty_iff.mpr e)
  refine Ensures.pick (P := fun _ => True)
    (Ensures.genRange hI (by omega) fun _ _ _ => ⟨rfl, trivial⟩) fun n _ => ?_
  refine Ensures.ite (fun _ => Ensures.ite (fun _ => Ensures.pure ⟨rfl, hget 0 hlen⟩) fun hc => ?_)
    fun _ => ?_
  · refine Ensures.pick (P := fun i => i < l.length)
      (Ensures.genRange hI (by omega) fun i _ hi => ⟨rfl, hi.trans_le (min_le_right _ _)⟩)
      fun i hi => Ensures.pure ⟨rfl, hget i hi⟩
  · refine Ensures.pick (P := fun i => i < l.length)
      (Ensures.genRange hI (by omega) fun i _ hi => ⟨rfl, hi⟩)
      fun i hi => Ensures.pure ⟨rfl, hget i hi⟩

/-- A value of the list; only an empty list is a panic. -/
theorem ensures_selectValue (l : List Value) (hI : I .starved s)
    (hnil : l = [] → ∀ m, I (.panic m) s) :
    Ensures I (selectValue l) s fun v s' => s' = s ∧ v ∈ l := by
  refine Ensures.pick (ensures_selectRandomValue l hI) fun o ho => ?_
  exact Ensures.unwrap (fun h => hnil (ho.1 h)) fun v hv => ⟨rfl, ho.2 v hv⟩

theorem ensures_chooseValue (l : List Value) (hI : I .starved s)
    (hnil : l = [] → ∀ m, I (.panic m) s) :
    Ensures I (chooseValue l) s fun v s' => s' = s ∧ v ∈ l :=
  Ensures.chooseUnwrap hI hnil fun _ hv => ⟨rfl, hv⟩

theorem ensures_randomType (l : List ClifType) (hI : ∀ e, I e s) :
    Ensures I (randomType l) s fun t s' => s' = s ∧ t ∈ l :=
  Ensures.chooseUnwrap (hI _) (fun _ m => hI (.panic m)) fun _ ht => ⟨rfl, ht⟩

/-- A type of a list that is there. -/
theorem ensures_chooseType (types : Option (List OperandType)) (hI : ∀ e, I e s) :
    Ensures I (chooseType types) s fun t s' =>
      s' = s ∧ ∃ ts, types = some ts ∧ ∃ o ∈ ts, t = o.toCraneliftType := by
  unfold chooseType
  refine Ensures.pick (P := fun ts => types = some ts)
    (Ensures.unwrap (fun _ m => hI (.panic m)) fun ts h => ⟨rfl, h⟩) fun ts hts => ?_
  refine Ensures.pick (P := fun o => ∀ a, o = some a → a ∈ ts) ?_ fun o ho => ?_
  · exact Ensures.choose (hI _) (fun _ => ⟨rfl, by simp⟩) fun a ha => ⟨rfl, fun b hb =>
      Option.some.inj hb ▸ ha⟩
  · refine Ensures.pick (P := fun a => a ∈ ts)
      (Ensures.unwrap (fun _ m => hI (.panic m)) fun a ha => ⟨rfl, ho a ha⟩) fun a ha => ?_
    exact Ensures.pure ⟨rfl, ts, hts, a, ha, rfl⟩

theorem ensures_recordedType (o : Option ClifType) (hI : ∀ e, I e s) :
    Ensures I (recordedType o) s fun t s' => s' = s ∧ o = some t := by
  cases o with
  | none => exact Ensures.panicWith (hI _)
  | some t => exact Ensures.pure ⟨rfl, rfl⟩

theorem ensures_extractVectorType (t : ClifType) (hI : ∀ e, I e s) :
    Ensures I (extractVectorType t) s fun lane s' => s' = s ∧ laneTypes.lookup t = some lane := by
  unfold extractVectorType
  cases laneTypes.lookup t with
  | none => exact Ensures.panicWith (hI _)
  | some lane => exact Ensures.pure ⟨rfl, rfl⟩

theorem ensures_bitcastTypeMapping (t : ClifType) (hI : ∀ e, I e s) :
    Ensures I (bitcastTypeMapping t) s fun _ s' => s' = s ∧ True := by
  unfold bitcastTypeMapping
  split
  · exact Ensures.pure ⟨rfl, trivial⟩
  · split
    · exact (ensures_randomType _ hI).mono fun _ _ h => ⟨h.1, trivial⟩
    · exact Ensures.panicWith (hI _)

theorem ensures_randomStackSlot (hI : ∀ e, I e s) :
    Ensures I (randomStackSlot : M δ StackSlot) s fun slot s' =>
      s' = s ∧ slot < s.func.sizedStackSlots.len := by
  unfold randomStackSlot
  refine ensures_bind_func ?_
  exact Ensures.chooseUnwrap (hI _) (fun _ m => hI (.panic m)) fun slot h =>
    ⟨rfl, List.mem_range.mp h⟩

end Choices

/-! ## What an arm returns -/

section Arms

variable {S : Setting} {done : List Block} {b : Block} {L : Locals} {s : State Locals}

/-- The state after an arm, and what it returned. -/
structure Produces (S : Setting) (done : List Block) (b : Block) (L : Locals) (sel : Selection)
    (s' : State Locals) : Prop where
  working : Working S done b L True s'
  recorded : ∀ tv refs, sel = some (some tv, refs) → S.Recorded s'.func b tv
  refs : ∀ d refs, sel = some (d, some refs) → ∀ tv ∈ refs, S.pool L.blockDefValues b tv.ty ≠ []

theorem Produces.nothing (h : Working S done b L True s) : Produces S done b L none s :=
  ⟨h, by simp, by simp⟩

theorem Produces.defined (h : Working S done b L True s) {v : Value} {t : ClifType}
    {refs : List TypedValue} (hrec : S.Recorded s.func b ⟨v, t⟩)
    (hrefs : ∀ tv ∈ refs, S.pool L.blockDefValues b tv.ty ≠ []) :
    Produces S done b L (defined v t refs) s := by
  refine ⟨h, fun tv refs' heq => ?_, fun d refs' heq => ?_⟩
  · obtain ⟨rfl, -⟩ : ⟨v, t⟩ = tv ∧ some refs = refs' := by simpa [Clir.defined] using heq
    exact hrec
  · obtain ⟨-, rfl⟩ : some ⟨v, t⟩ = d ∧ refs = refs' := by simpa [Clir.defined] using heq
    exact hrefs

theorem Produces.fresh (h : Working S done b L True s) {v : Value} {t : ClifType}
    (hrec : S.Recorded s.func b ⟨v, t⟩) : Produces S done b L (definedFresh v t) s := by
  refine ⟨h, fun tv refs' heq => ?_, fun d refs' heq => ?_⟩
  · obtain ⟨rfl, -⟩ : ⟨v, t⟩ = tv ∧ none = refs' := by simpa [definedFresh] using heq
    exact hrec
  · simp [definedFresh] at heq

theorem Produces.stored (h : Working S done b L True s) {refs : List TypedValue}
    (hrefs : ∀ tv ∈ refs, S.pool L.blockDefValues b tv.ty ≠ []) :
    Produces S done b L (some (none, some refs)) s := by
  refine ⟨h, by simp, fun d refs' heq => ?_⟩
  obtain ⟨-, rfl⟩ : none = d ∧ refs = refs' := by simpa using heq
  exact hrefs

/-! ## Instructions on values of the pool -/

/-- The type recorded for the result of an instruction built at `ctrl`, or at the type of an
operand recorded as `t`, is right. -/
def Opcode.Gives (op : Opcode) (config : ArchConfig) (ctrl : Option ClifType) (t r : ClifType) :
    Prop :=
  match ctrl with
  | none => config.Accepted → op.records t r = true
  | some c => ∃ rest, op.resultTypes c = some (r :: rest)

/-- An opcode that neither ends a block nor accesses memory. -/
structure Opcode.Plain (op : Opcode) : Prop where
  plain : op.isPlain = true
  memory : op.accessesMemory = false

theorem Working.args_of_pool (h : Working S done b L True s) {args : List Value}
    (hargs : ∀ v ∈ args, ∃ t, v ∈ S.pool L.blockDefValues b t) :
    ∀ v ∈ args, S.base ≤ v ∧ s.func.Usable S.entry b v := by
  intro v hv
  obtain ⟨t, ht⟩ := hargs v hv
  have huse := h.valid.mayUse ht
  exact ⟨huse.new, huse.usable⟩

/-- **An instruction on values of the pool**, at a controlling type or at that of an operand. -/
theorem Working.emitAt_spec (h : Working S done b L True s) {op : Opcode} {args : List Value}
    (hop : op.Plain) (ctrl : Option ClifType)
    (hargs : ∀ v ∈ args, ∃ t, v ∈ S.pool L.blockDefValues b t) {u : Value} {t : ClifType}
    (hu : args[op.typevarOperand]? = some u) (hut : u ∈ S.pool L.blockDefValues b t) :
    Ensures (fun _ => Moment S) (emitAt ctrl (.fixed op args)) s fun v s' =>
      Working S done b L True s' ∧
        ∀ r, op.Gives S.config ctrl t r → S.Recorded s'.func b ⟨v, r⟩ := by
  have hemit := fun c => h.emitTyped_spec (.fixed op args) c hop.plain
    (h.args_of_pool hargs) fun _ _ => .of_not hop.memory
  cases ctrl with
  | some c =>
      refine (hemit c).mono ?_
      rintro v s' ⟨hw, r', rest, hres, hp⟩
      refine ⟨hw, fun r ⟨rest', hr⟩ => ?_⟩
      obtain rfl : r' = r := (List.cons.inj (Option.some.inj (hres.symm.trans hr))).1
      exact hp.recorded
  | none =>
      have hctrl : s.func.controlType (.fixed op args) = s.func.valueType u := by
        simp only [Function.controlType, InstructionData.arguments, InstructionData.opcode, hu]
      change Ensures _ (emit (.fixed op args)) s _
      rw [ensures_emit_iff, hctrl]
      refine (hemit _).mono ?_
      rintro v s' ⟨hw, r', rest, hres, hp⟩
      exact ⟨hw, fun r hr => hp.recorded_of_operand hu hres (h.valid.mayUse hut).typed hr⟩

/-- The same at the type of an operand. -/
theorem Working.emit_spec (h : Working S done b L True s) {op : Opcode} {args : List Value}
    (hop : op.Plain) (hargs : ∀ v ∈ args, ∃ t, v ∈ S.pool L.blockDefValues b t) {u : Value}
    {t : ClifType} (hu : args[op.typevarOperand]? = some u)
    (hut : u ∈ S.pool L.blockDefValues b t) :
    Ensures (fun _ => Moment S) (emit (.fixed op args)) s fun v s' =>
      Working S done b L True s' ∧
        ∀ r, op.Gives S.config none t r → S.Recorded s'.func b ⟨v, r⟩ :=
  h.emitAt_spec hop none hargs hu hut

/-- An instruction without operands. -/
theorem Working.emitConstant_spec (h : Working S done b L True s) {op : Opcode} (hop : op.Plain)
    (ctrl : ClifType) :
    Ensures (fun _ => Moment S) (emitTyped ctrl (.fixed op [])) s fun v s' =>
      Working S done b L True s' ∧
        ∀ r, op.Gives S.config (some ctrl) ctrl r → S.Recorded s'.func b ⟨v, r⟩ := by
  refine (h.emitTyped_spec (.fixed op []) ctrl hop.plain
    (fun _ hv => absurd hv List.not_mem_nil) fun _ _ => .of_not hop.memory).mono ?_
  rintro v s' ⟨hw, r', rest, hres, hp⟩
  refine ⟨hw, fun r ⟨rest', hr⟩ => ?_⟩
  obtain rfl : r' = r := (List.cons.inj (Option.some.inj (hres.symm.trans hr))).1
  exact hp.recorded

/-! ## The shapes of the arms -/

/-- A value that was selected from the pool under a type. -/
theorem pool_ne_nil {v : Value} {t : ClifType} (hv : v ∈ S.pool L.blockDefValues b t) :
    S.pool L.blockDefValues b t ≠ [] := List.ne_nil_of_mem hv

theorem Working.selectValue_spec (h : Working S done b L True s) (t : ClifType) :
    Ensures (fun _ => Moment S) (selectValue (S.pool L.blockDefValues b t)) s fun v s' =>
      s' = s ∧ v ∈ S.pool L.blockDefValues b t :=
  ensures_selectValue _ h.moment fun _ _ => h.moment

theorem Working.chooseValue_spec (h : Working S done b L True s) (t : ClifType) :
    Ensures (fun _ => Moment S) (chooseValue (S.pool L.blockDefValues b t)) s fun v s' =>
      s' = s ∧ v ∈ S.pool L.blockDefValues b t :=
  ensures_chooseValue _ h.moment fun _ _ => h.moment

theorem Working.binaryWith_spec (h : Working S done b L True s) {op : Opcode} (hop : op.Plain)
    (hctrl : op.typevarOperand = 0) {recorded : ClifType → Option ClifType} {t : ClifType}
    (hgives : ∀ r, recorded t = some r → op.Gives S.config none t r)
    (ref : Value → Value → Value) :
    Ensures (fun _ => Moment S) (binaryWith (S.pool L.blockDefValues b) ref op recorded t) s
      (Produces S done b L) := by
  unfold binaryWith
  split
  · exact Ensures.pure (.nothing h)
  · -- a single candidate
    rename_i v hv
    have hmem : v ∈ S.pool L.blockDefValues b t := by rw [hv]; exact List.mem_singleton_self v
    refine Ensures.bind (h.emit_spec hop (u := v) (t := t) ?_ ?_ hmem) ?_
    · exact fun u hu => ⟨t, by simp at hu; rwa [hu]⟩
    · rw [hctrl]
      rfl
    · rintro newValue s' ⟨hw, hrec⟩
      refine Ensures.pick (ensures_recordedType _ fun _ => hw.moment) fun r hr => ?_
      exact Ensures.pure (.defined hw (hrec r (hgives r hr)) (by simpa using pool_ne_nil hmem))
  · refine Ensures.pick (h.selectValue_spec t) fun x hx => ?_
    refine Ensures.pick (h.selectValue_spec t) fun y hy => ?_
    refine Ensures.bind (h.emit_spec hop (u := x) (t := t) ?_ ?_ hx) ?_
    · intro u hu
      rcases List.mem_pair.mp hu with rfl | rfl
      · exact ⟨t, hx⟩
      · exact ⟨t, hy⟩
    · rw [hctrl]
      rfl
    · rintro newValue s' ⟨hw, hrec⟩
      refine Ensures.pick (ensures_recordedType _ fun _ => hw.moment) fun r hr => ?_
      exact Ensures.pure (.defined hw (hrec r (hgives r hr)) (by simpa using pool_ne_nil hx))

theorem Working.unary_spec (h : Working S done b L True s) {op : Opcode} (hop : op.Plain)
    (hctrl : op.typevarOperand = 0) {ctrl : Option ClifType} {t r : ClifType}
    (hgives : op.Gives S.config ctrl t r) :
    Ensures (fun _ => Moment S) (unary (S.pool L.blockDefValues b) op ctrl t r) s
      (Produces S done b L) := by
  unfold unary
  refine Ensures.pick (h.selectValue_spec t) fun v hv => ?_
  refine Ensures.bind (h.emitAt_spec hop ctrl (u := v) (t := t) ?_ ?_ hv) ?_
  · exact fun u hu => ⟨t, List.mem_singleton.mp hu ▸ hv⟩
  · rw [hctrl]
    rfl
  · rintro newValue s' ⟨hw, hrec⟩
    exact Ensures.pure (.defined hw (hrec r hgives) (by simpa using pool_ne_nil hv))

theorem Working.unaryIfAny_spec (h : Working S done b L True s) {op : Opcode} (hop : op.Plain)
    (hctrl : op.typevarOperand = 0) {t : ClifType} (hgives : op.Gives S.config none t t) :
    Ensures (fun _ => Moment S) (unaryIfAny (S.pool L.blockDefValues b) op t) s
      (Produces S done b L) :=
  Ensures.ite (fun _ => Ensures.pure (.nothing h)) fun _ => h.unary_spec hop hctrl hgives

theorem Working.unaryUniform_spec (h : Working S done b L True s) {op : Opcode} (hop : op.Plain)
    (hctrl : op.typevarOperand = 0) {ctrl : Option ClifType} {t r : ClifType}
    (hgives : op.Gives S.config ctrl t r) :
    Ensures (fun _ => Moment S) (unaryUniform (S.pool L.blockDefValues b) op ctrl t r) s
      (Produces S done b L) := by
  unfold unaryUniform
  refine Ensures.ite (fun _ => Ensures.pure (.nothing h)) fun _ => ?_
  refine Ensures.pick (h.chooseValue_spec t) fun v hv => ?_
  refine Ensures.bind (h.emitAt_spec hop ctrl (u := v) (t := t) ?_ ?_ hv) ?_
  · exact fun u hu => ⟨t, List.mem_singleton.mp hu ▸ hv⟩
  · rw [hctrl]
    rfl
  · rintro newValue s' ⟨hw, hrec⟩
    exact Ensures.pure (.defined hw (hrec r hgives) (by simpa using pool_ne_nil hv))

/-- A conversion records the type it is built at. -/
theorem Working.convert_spec (h : Working S done b L True s) {op : Opcode} (hop : op.Plain)
    (hctrl : op.typevarOperand = 0) (hsame : op.SameType) (targets : List (ClifType × ClifType))
    (t : ClifType) :
    Ensures (fun _ => Moment S) (convert (S.pool L.blockDefValues b) op targets t) s
      (Produces S done b L) := by
  unfold convert
  refine Ensures.pick (h.selectValue_spec t) fun v hv => ?_
  split
  · rename_i target htarget
    refine Ensures.bind (h.emitAt_spec hop (some target) (u := v) (t := t) ?_ ?_ hv) ?_
    · exact fun u hu => ⟨t, List.mem_singleton.mp hu ▸ hv⟩
    · rw [hctrl]
      rfl
    · rintro newValue s' ⟨hw, hrec⟩
      exact Ensures.pure (.defined hw (hrec target (hsame target)) (by simpa using pool_ne_nil hv))
  · exact Ensures.pure (.nothing h)

theorem Working.convertFrom_spec (h : Working S done b L True s) {op : Opcode} (hop : op.Plain)
    (hctrl : op.typevarOperand = 0) (hsame : op.SameType)
    (sources : List (ClifType × List ClifType)) (message : String) (toType : ClifType) :
    Ensures (fun _ => Moment S)
      (convertFrom (S.pool L.blockDefValues b) op sources message toType) s
      (Produces S done b L) := by
  unfold convertFrom
  split
  · exact Ensures.pick (ensures_randomType _ fun _ => h.moment) fun t _ =>
      h.unary_spec hop hctrl (hsame toType)
  · exact Ensures.panicWith h.moment

theorem Working.widen_spec (h : Working S done b L True s) {op : Opcode} (hop : op.Plain)
    (hctrl : op.typevarOperand = 0)
    (hwiden : ∀ p ∈ ([(.i16x8, .i8x16), (.i32x4, .i16x8), (.i64x2, .i32x4)] :
      List (ClifType × ClifType)), op.records p.2 p.1 = true) (message : String)
    (toType : ClifType) :
    Ensures (fun _ => Moment S) (widen (S.pool L.blockDefValues b) op message toType) s
      (Produces S done b L) := by
  unfold widen
  split
  · rename_i fromType hfrom
    exact h.unary_spec hop hctrl fun _ => hwiden _ (mem_of_lookup hfrom)
  · exact Ensures.panicWith h.moment

theorem Working.shift_spec (h : Working S done b L True s) {op : Opcode} (hop : op.Plain)
    (hctrl : op.typevarOperand = 0) (hsame : op.SameType) (mode : Mode) :
    Ensures (fun _ => Moment S) (shift (S.pool L.blockDefValues b) op mode) s
      (Produces S done b L) := by
  unfold shift
  refine Ensures.pick (ensures_chooseType _ fun _ => h.moment) fun t₀ _ => ?_
  refine Ensures.pick (ensures_chooseType _ fun _ => h.moment) fun t₁ _ => ?_
  refine Ensures.pick (h.selectValue_spec t₀) fun x hx => ?_
  refine Ensures.pick (h.selectValue_spec t₁) fun y hy => ?_
  refine Ensures.bind (h.emit_spec hop (u := x) (t := t₀) ?_ ?_ hx) ?_
  · intro u hu
    rcases List.mem_pair.mp hu with rfl | rfl
    · exact ⟨t₀, hx⟩
    · exact ⟨t₁, hy⟩
  · rw [hctrl]
    rfl
  · rintro newValue s' ⟨hw, hrec⟩
    exact Ensures.pure (.defined hw (hrec t₀ fun _ => hsame.records t₀)
      (by simpa using ⟨pool_ne_nil hx, pool_ne_nil hy⟩))

/-- An instruction of three operands, controlled by the second one. -/
theorem Working.ternary_spec (h : Working S done b L True s) {op : Opcode} (hop : op.Plain)
    (hctrl : op.typevarOperand = 1) (hsame : op.SameType) {tx ty tz : ClifType} {x y z : Value}
    (hx : x ∈ S.pool L.blockDefValues b tx) (hy : y ∈ S.pool L.blockDefValues b ty)
    (hz : z ∈ S.pool L.blockDefValues b tz) :
    Ensures (fun _ => Moment S) (do
      let newValue ← emit (.fixed op [x, y, z])
      return defined newValue ty [⟨x, tx⟩, ⟨y, ty⟩, ⟨z, tz⟩]) s (Produces S done b L) := by
  refine Ensures.bind (h.emit_spec hop (u := y) (t := ty) ?_ ?_ hy) ?_
  · intro u hu
    rcases List.mem_cons.mp hu with rfl | hu
    · exact ⟨tx, hx⟩
    · rcases List.mem_pair.mp hu with rfl | rfl
      · exact ⟨ty, hy⟩
      · exact ⟨tz, hz⟩
  · rw [hctrl]
    rfl
  · rintro newValue s' ⟨hw, hrec⟩
    exact Ensures.pure (.defined hw (hrec ty fun _ => hsame.records ty)
      (by simpa using ⟨pool_ne_nil hx, pool_ne_nil hy, pool_ne_nil hz⟩))

theorem Working.selectOp_spec (h : Working S done b L True s) {op : Opcode} (hop : op.Plain)
    (hctrl : op.typevarOperand = 1) (hsame : op.SameType) (mode : Mode) :
    Ensures (fun _ => Moment S) (selectOp (S.pool L.blockDefValues b) op mode) s
      (Produces S done b L) := by
  unfold selectOp
  refine Ensures.pick (ensures_chooseType _ fun _ => h.moment) fun tc _ => ?_
  refine Ensures.pick (h.selectValue_spec tc) fun c hc => ?_
  refine Ensures.pick (ensures_chooseType _ fun _ => h.moment) fun t _ => ?_
  refine Ensures.pick (h.selectValue_spec t) fun x hx => ?_
  refine Ensures.pick (h.selectValue_spec t) fun y hy => ?_
  exact h.ternary_spec hop hctrl hsame hc hx hy

theorem Working.carry_spec (h : Working S done b L True s) {op : Opcode} (hop : op.Plain)
    (hctrl : op.typevarOperand = 1) (hsame : op.SameType) (t : ClifType) :
    Ensures (fun _ => Moment S) (carry (S.pool L.blockDefValues b) op t) s
      (Produces S done b L) := by
  unfold carry
  refine Ensures.ite (fun _ => Ensures.pure (.nothing h)) fun _ => ?_
  refine Ensures.pick (h.selectValue_spec t) fun x hx => ?_
  refine Ensures.pick (h.selectValue_spec t) fun y hy => ?_
  refine Ensures.pick (h.selectValue_spec .i8) fun z hz => ?_
  exact h.ternary_spec hop hctrl hsame hx hy hz

/-! ## Memory -/

/-- `v` is the address of a slot at an offset, and the block may use it. -/
structure Addressed (S : Setting) (f : Function) (b : Block) (v : Value) (slot : StackSlot)
    (offset : ℕ) : Prop where
  new : S.base ≤ v
  usable : f.Usable S.entry b v
  addr : f.StackAddr v slot offset
  slot_lt : slot < 2

theorem Working.slots (h : Working S done b L True s) :
    s.func.sizedStackSlots.len = 2 ∧ ∀ slot < 2, s.func.sizedStackSlots.get slot = 32 := by
  obtain ⟨before, -, -, hready⟩ := h.cursor
  exact ⟨(hready trivial).two, (hready trivial).size⟩

theorem Working.stackAddr_spec (h : Working S done b L True s) {slot : StackSlot}
    (hslot : slot < 2) (offset : ℕ) :
    Ensures (fun _ => Moment S) (stackAddr slot offset) s fun v s' =>
      Working S done b L True s' ∧ Addressed S s'.func b v slot offset := by
  refine (h.emitKnown_spec (.stackLoad .stackAddr slot offset) rfl rfl
    (fun _ hv => absurd hv List.not_mem_nil) (.of_not rfl)).mono ?_
  rintro v s' ⟨hw, hp⟩
  obtain ⟨i, hres, hi, hdata⟩ := hp.inst
  exact ⟨hw, hp.new, ⟨b, hp.defined, Dominates.refl _ _ _⟩, ⟨b, i, hres, hi, hdata⟩, hslot⟩

theorem Working.randomStackSlot_spec (h : Working S done b L True s) :
    Ensures (fun _ => Moment S) (randomStackSlot : M Locals StackSlot) s fun slot s' =>
      s' = s ∧ slot < 2 := by
  refine (ensures_randomStackSlot fun _ => h.moment).mono ?_
  rintro slot s' ⟨rfl, hslot⟩
  exact ⟨rfl, h.slots.1 ▸ hslot⟩

theorem Working.randomStackAddr_spec (h : Working S done b L True s) :
    Ensures (fun _ => Moment S) (randomStackAddr : M Locals Value) s fun v s' =>
      Working S done b L True s' ∧ ∃ slot, Addressed S s'.func b v slot 0 := by
  unfold randomStackAddr
  refine Ensures.pick h.randomStackSlot_spec fun slot hslot => ?_
  refine (h.stackAddr_spec hslot 0).mono ?_
  rintro v s' ⟨hw, ha⟩
  exact ⟨hw, slot, ha⟩

theorem OperandType.bytes_le (o : OperandType) : o.toCraneliftType.bytes ≤ 16 := by
  cases o <;> decide

theorem Opcode.width_le (op : Opcode) {t : ClifType} (h : t.bytes ≤ 16) : op.width t ≤ 16 := by
  unfold width
  split <;> omega

/-- An access through an address that the block may use, of at most 16 bytes. -/
theorem Working.allows (h : Working S done b L True s) {data : InstructionData}
    {tys : List ClifType} {addr : Value} {slot : StackSlot} {base : ℕ}
    (ha : Addressed S s.func b addr slot base) {a : Access}
    (hacc : data.access s.func.valueType (tys.headD .invalid) = some a)
    (haddr : a.address = .value addr) (hoffset : base + a.offset < 10)
    (hwidth : S.config.Accepted → a.width ≤ 16) : S.Allows True s.func data tys := by
  obtain ⟨htwo, hsize⟩ := h.slots
  intro _
  refine ⟨a, slot, base, hacc, ⟨?_, htwo ▸ ha.slot_lt, hsize slot ha.slot_lt, fun hok => ?_⟩,
    fun _ => trivial⟩
  · rw [haddr]
    exact ha.addr
  · have := hwidth hok
    omega

/-- An access that names its slot. -/
theorem Working.allows_slot (h : Working S done b L True s) {data : InstructionData}
    {tys : List ClifType} {slot : StackSlot} (hslot : slot < 2) {a : Access}
    (hacc : data.access s.func.valueType (tys.headD .invalid) = some a)
    (haddr : a.address = .slot slot) (hoffset : a.offset = 0)
    (hwidth : S.config.Accepted → a.width ≤ 16) : S.Allows True s.func data tys := by
  obtain ⟨htwo, hsize⟩ := h.slots
  intro _
  refine ⟨a, slot, 0, hacc, ⟨?_, htwo ▸ hslot, hsize slot hslot, fun hok => ?_⟩, fun _ => trivial⟩
  · rw [haddr]
    exact ⟨rfl, rfl⟩
  · have := hwidth hok
    omega

/-- A load through an address. -/
theorem Working.loadAt_spec (h : Working S done b L True s) {op : Opcode}
    (hplain : op.isPlain = true) {addr : Value} {slot : StackSlot}
    (ha : Addressed S s.func b addr slot 0) {offset : ℕ} (hoffset : offset < 10)
    {ctrl r : ClifType} {rest : List ClifType} (hres : op.resultTypes ctrl = some (r :: rest))
    (hbytes : r.bytes ≤ 16) :
    Ensures (fun _ => Moment S) (emitTyped ctrl (.load op addr offset)) s fun v s' =>
      Working S done b L True s' ∧ S.Recorded s'.func b ⟨v, r⟩ := by
  refine (h.emitKnown_spec (.load op addr offset) hres hplain ?_ ?_).mono
    fun v s' ⟨hw, hp⟩ => ⟨hw, hp.recorded⟩
  · exact fun v hv => List.mem_singleton.mp hv ▸ ⟨ha.new, ha.usable⟩
  · exact h.allows ha rfl rfl (by simpa using hoffset) fun _ => op.width_le hbytes

theorem Working.loadFrom_spec (h : Working S done b L True s) {op : Opcode}
    (hplain : op.isPlain = true) (hsame : op.SameType) {addr : Value} {slot : StackSlot}
    (ha : Addressed S s.func b addr slot 0) {t : ClifType} (hbytes : t.bytes ≤ 16) :
    Ensures (fun _ => Moment S) (loadFrom op addr t) s (Produces S done b L) := by
  unfold loadFrom
  refine Ensures.pick (P := fun n => n < 10) (Ensures.genRange h.moment (fun _ _ => h.moment)
    fun n _ hn => ⟨rfl, hn⟩) fun offset hoffset => ?_
  obtain ⟨rest, hres⟩ := hsame t
  refine Ensures.bind (h.loadAt_spec hplain ha hoffset hres hbytes) ?_
  rintro v s' ⟨hw, hrec⟩
  exact Ensures.pure (.fresh hw hrec)

theorem Working.loadFixed_spec (h : Working S done b L True s) {op : Opcode}
    (hplain : op.isPlain = true) {t : ClifType} (hfixed : op.FixedType t)
    (hbytes : t.bytes ≤ 16) :
    Ensures (fun _ => Moment S) (loadFixed op t) s (Produces S done b L) := by
  unfold loadFixed
  refine Ensures.bind h.randomStackAddr_spec ?_
  rintro addr s ⟨h, slot, ha⟩
  refine Ensures.pick (P := fun n => n < 10) (Ensures.genRange h.moment (fun _ _ => h.moment)
    fun n _ hn => ⟨rfl, hn⟩) fun offset hoffset => ?_
  obtain ⟨rest, hres⟩ := hfixed (s.func.controlType (.load op addr offset))
  refine Ensures.bind (ensures_emit_iff.mpr (h.loadAt_spec hplain ha hoffset hres hbytes)) ?_
  rintro v s' ⟨hw, hrec⟩
  exact Ensures.pure (.fresh hw hrec)

/-- A value of a type of at most 16 bytes takes at most 16 bytes. -/
theorem Working.bytes_le (h : Working S done b L True s) {t : ClifType} {v : Value}
    (hv : v ∈ S.pool L.blockDefValues b t) (hbytes : t.bytes ≤ 16) :
    S.config.Accepted → (s.func.valueType v).bytes ≤ 16 :=
  fun hok => ((h.valid.mayUse hv).typed hok).bytes hbytes

/-- A store of a value of the pool through an address. -/
theorem Working.storeTo_spec (h : Working S done b L True s) {op : Opcode}
    (hplain : op.isPlain = true) (hnone : ∀ ctrl, op.resultTypes ctrl = some [])
    {addr : Value} {slot : StackSlot} (ha : Addressed S s.func b addr slot 0) {t : ClifType}
    (hbytes : t.bytes ≤ 16) :
    Ensures (fun _ => Moment S) (storeTo (S.pool L.blockDefValues b) op addr t) s
      (Produces S done b L) := by
  unfold storeTo
  refine Ensures.pick (h.selectValue_spec t) fun v hv => ?_
  have huse := h.valid.mayUse hv
  refine Ensures.bind (h.ins_spec (.store op v addr 0) hnone hplain ?_ ?_) ?_
  · intro u hu
    rcases List.mem_pair.mp hu with rfl | rfl
    · exact ⟨huse.new, huse.usable⟩
    · exact ⟨ha.new, ha.usable⟩
  · exact h.allows ha rfl rfl (by simp) fun hok => op.width_le (h.bytes_le hv hbytes hok)
  · rintro i s' ⟨-, hw, -⟩
    exact Ensures.pure (.stored hw (by simpa using pool_ne_nil hv))

theorem Working.store_spec (h : Working S done b L True s) (mode : Mode) :
    Ensures (fun _ => Moment S) (store (S.pool L.blockDefValues b) mode) s
      (Produces S done b L) := by
  unfold store
  refine Ensures.bind h.randomStackAddr_spec ?_
  rintro addr s ⟨h, slot, ha⟩
  refine Ensures.pick (ensures_chooseType _ fun _ => h.moment) fun t ⟨_, _, o, _, ht⟩ => ?_
  refine Ensures.ite (fun _ => Ensures.pure (.nothing h)) fun _ => ?_
  exact h.storeTo_spec rfl (fun _ => rfl) ha (ht ▸ o.bytes_le)

/-- The instruction of `atomic_cas`, on an address and two values of the pool. -/
theorem Working.emitCas_spec (h : Working S done b L True s) {addr x y : Value}
    {slot : StackSlot} {offset : ℕ} (ha : Addressed S s.func b addr slot offset)
    (hoffset : offset < 10) {t : ClifType} (hx : x ∈ S.pool L.blockDefValues b t)
    (hy : y ∈ S.pool L.blockDefValues b t) (hbytes : t.bytes ≤ 16) :
    Ensures (fun _ => Moment S) (emit (.fixed .atomicCas [addr, x, y])) s fun v s' =>
      Working S done b L True s' ∧ S.Recorded s'.func b ⟨v, t⟩ := by
  have hxuse := h.valid.mayUse hx
  have hyuse := h.valid.mayUse hy
  -- the last operand controls the type
  refine (ensures_emit_iff.mpr (h.emitKnown_spec (.fixed .atomicCas [addr, x, y])
    (show _ = some [s.func.valueType y] from rfl) rfl ?_ ?_)).mono ?_
  · intro u hu
    rcases List.mem_cons.mp hu with rfl | hu
    · exact ⟨ha.new, ha.usable⟩
    · rcases List.mem_pair.mp hu with rfl | rfl
      · exact ⟨hxuse.new, hxuse.usable⟩
      · exact ⟨hyuse.new, hyuse.usable⟩
  · exact h.allows ha rfl rfl (by simpa using hoffset) (h.bytes_le hy hbytes)
  · rintro v s' ⟨hw, hp⟩
    refine ⟨hw, hp.recorded_of_operand (u := y) rfl rfl hyuse.typed fun _ => ?_⟩
    exact Opcode.SameType.records (fun a => ⟨[], rfl⟩) t

theorem Working.atomicCas_spec (h : Working S done b L True s) (mode : Mode) :
    Ensures (fun _ => Moment S) (atomicCas (S.pool L.blockDefValues b) mode) s
      (Produces S done b L) := by
  unfold atomicCas
  refine Ensures.pick h.randomStackSlot_spec fun slot hslot => ?_
  refine Ensures.pick (P := fun n => n < 10) (Ensures.genRange h.moment (fun _ _ => h.moment)
    fun n _ hn => ⟨rfl, hn⟩) fun offset hoffset => ?_
  refine Ensures.bind (h.stackAddr_spec hslot offset) ?_
  rintro addr s ⟨h, ha⟩
  refine Ensures.pick (ensures_chooseType _ fun _ => h.moment) fun t ⟨_, _, o, _, ht⟩ => ?_
  have hbytes : t.bytes ≤ 16 := ht ▸ o.bytes_le
  split
  · exact Ensures.pure (.nothing h)
  · rename_i x hpool
    have hx : x ∈ S.pool L.blockDefValues b t := by rw [hpool]; exact List.mem_singleton_self x
    refine Ensures.bind (h.emitCas_spec ha hoffset hx hx hbytes) ?_
    rintro v s' ⟨hw, hrec⟩
    exact Ensures.pure (.defined hw hrec (by simpa using pool_ne_nil hx))
  · refine Ensures.pick (h.selectValue_spec t) fun x hx => ?_
    refine Ensures.pick (h.selectValue_spec t) fun y hy => ?_
    refine Ensures.bind (h.emitCas_spec ha hoffset hx hy hbytes) ?_
    rintro v s' ⟨hw, hrec⟩
    exact Ensures.pure (.defined hw hrec (by simpa using pool_ne_nil hx))

theorem Working.atomicRmw_spec (h : Working S done b L True s) (mode : Mode) :
    Ensures (fun _ => Moment S) (atomicRmw (S.pool L.blockDefValues b) mode) s
      (Produces S done b L) := by
  unfold atomicRmw
  refine Ensures.pick (ensures_chooseType _ fun _ => h.moment) fun t ⟨_, _, o, _, ht⟩ => ?_
  refine Ensures.bind h.randomStackAddr_spec ?_
  rintro addr s ⟨h, slot, ha⟩
  refine Ensures.pick (h.selectValue_spec t) fun x hx => ?_
  have huse := h.valid.mayUse hx
  refine Ensures.bind (h.emitKnown_spec (.fixed .atomicRmw [addr, x])
    (show Opcode.resultTypes _ t = some [t] from rfl) rfl ?_ ?_) ?_
  · intro u hu
    rcases List.mem_pair.mp hu with rfl | rfl
    · exact ⟨ha.new, ha.usable⟩
    · exact ⟨huse.new, huse.usable⟩
  · exact h.allows ha rfl rfl (by simp) fun _ => ht ▸ o.bytes_le
  · rintro v s' ⟨hw, hp⟩
    exact Ensures.pure (.defined hw hp.recorded (by simpa using pool_ne_nil hx))

theorem Working.atomicLoad_spec (h : Working S done b L True s) (mode : Mode) :
    Ensures (fun _ => Moment S) (atomicLoad mode) s (Produces S done b L) := by
  unfold atomicLoad
  refine Ensures.bind h.randomStackAddr_spec ?_
  rintro addr s ⟨h, slot, ha⟩
  refine Ensures.pick (ensures_chooseType _ fun _ => h.moment) fun t ⟨_, _, o, _, ht⟩ => ?_
  refine Ensures.bind (h.emitKnown_spec (.fixed .atomicLoad [addr])
    (show Opcode.resultTypes _ t = some [t] from rfl) rfl ?_ ?_) ?_
  · exact fun u hu => List.mem_singleton.mp hu ▸ ⟨ha.new, ha.usable⟩
  · exact h.allows ha rfl rfl (by simp) fun _ => ht ▸ o.bytes_le
  · rintro v s' ⟨hw, hp⟩
    exact Ensures.pure (.fresh hw hp.recorded)

theorem Working.atomicStore_spec (h : Working S done b L True s) (mode : Mode) :
    Ensures (fun _ => Moment S) (atomicStore (S.pool L.blockDefValues b) mode) s
      (Produces S done b L) := by
  unfold atomicStore
  refine Ensures.pick (ensures_chooseType _ fun _ => h.moment) fun t ⟨_, _, o, _, ht⟩ => ?_
  refine Ensures.bind h.randomStackAddr_spec ?_
  rintro addr s ⟨h, slot, ha⟩
  refine Ensures.pick (h.selectValue_spec t) fun x hx => ?_
  have huse := h.valid.mayUse hx
  refine Ensures.bind (h.ins_spec (.fixed .atomicStore [x, addr]) (fun _ => rfl) rfl ?_ ?_) ?_
  · intro u hu
    rcases List.mem_pair.mp hu with rfl | rfl
    · exact ⟨huse.new, huse.usable⟩
    · exact ⟨ha.new, ha.usable⟩
  · exact h.allows ha rfl rfl (by simp) (h.bytes_le hx (ht ▸ o.bytes_le))
  · rintro i s' ⟨-, hw, -⟩
    exact Ensures.pure (.stored hw (by simpa using pool_ne_nil hx))

theorem Working.stackLoad_spec (h : Working S done b L True s) (mode : Mode) :
    Ensures (fun _ => Moment S) (stackLoad mode) s (Produces S done b L) := by
  unfold stackLoad
  refine Ensures.pick (ensures_chooseType _ fun _ => h.moment) fun t ⟨_, _, o, _, ht⟩ => ?_
  refine Ensures.pick h.randomStackSlot_spec fun slot hslot => ?_
  refine Ensures.bind (h.emitKnown_spec (.stackLoad .stackLoad slot 0)
    (show Opcode.resultTypes _ t = some [t] from rfl) rfl (fun _ hv => absurd hv List.not_mem_nil)
    ?_) ?_
  · exact h.allows_slot hslot rfl rfl rfl fun _ => ht ▸ o.bytes_le
  · rintro v s' ⟨hw, hp⟩
    exact Ensures.pure (.fresh hw hp.recorded)

theorem Working.stackStore_spec (h : Working S done b L True s) (mode : Mode) :
    Ensures (fun _ => Moment S) (stackStore (S.pool L.blockDefValues b) mode) s
      (Produces S done b L) := by
  unfold stackStore
  refine Ensures.pick (ensures_chooseType _ fun _ => h.moment) fun t ⟨_, _, o, _, ht⟩ => ?_
  refine Ensures.ite (fun _ => Ensures.pure (.nothing h)) fun _ => ?_
  refine Ensures.pick (h.selectValue_spec t) fun x hx => ?_
  refine Ensures.pick h.randomStackSlot_spec fun slot hslot => ?_
  have huse := h.valid.mayUse hx
  refine Ensures.bind (h.ins_spec (.stackStore .stackStore x slot 0) (fun _ => rfl) rfl ?_ ?_) ?_
  · exact fun u hu => List.mem_singleton.mp hu ▸ ⟨huse.new, huse.usable⟩
  · exact h.allows_slot hslot rfl rfl rfl (h.bytes_le hx (ht ▸ o.bytes_le))
  · rintro i s' ⟨-, hw, -⟩
    exact Ensures.pure (.stored hw (by simpa using pool_ne_nil hx))

theorem Working.setPinnedReg_spec (h : Working S done b L True s) :
    Ensures (fun _ => Moment S) setPinnedReg s (Produces S done b L) := by
  unfold setPinnedReg
  refine Ensures.bind h.randomStackAddr_spec ?_
  rintro addr s ⟨h, slot, ha⟩
  refine Ensures.bind (h.ins_spec (.fixed .setPinnedReg [addr]) (fun _ => rfl) rfl ?_
    (.of_not rfl)) ?_
  · exact fun u hu => List.mem_singleton.mp hu ▸ ⟨ha.new, ha.usable⟩
  · rintro i s' ⟨-, hw, -⟩
    exact Ensures.pure (.nothing hw)

/-! ## The remaining arms -/

theorem Working.bitcast_spec (h : Working S done b L True s) (mode : Mode) :
    Ensures (fun _ => Moment S) (bitcast (S.pool L.blockDefValues b) mode) s
      (Produces S done b L) := by
  unfold bitcast
  refine Ensures.pick (ensures_chooseType _ fun _ => h.moment) fun t _ => ?_
  refine Ensures.pick (h.selectValue_spec t) fun x hx => ?_
  refine Ensures.pick (ensures_bitcastTypeMapping t fun _ => h.moment) fun c _ => ?_
  refine Ensures.bind (h.emitAt_spec ⟨rfl, rfl⟩ (some c) (u := x) (t := t) ?_ rfl hx) ?_
  · exact fun u hu => ⟨t, List.mem_singleton.mp hu ▸ hx⟩
  · rintro v s' ⟨hw, hrec⟩
    exact Ensures.pure (.defined hw (hrec c ⟨[], rfl⟩) (by simpa using pool_ne_nil hx))

theorem Working.bitselect_spec (h : Working S done b L True s) (mode : Mode) :
    Ensures (fun _ => Moment S) (bitselect (S.pool L.blockDefValues b) mode) s
      (Produces S done b L) := by
  unfold bitselect
  refine Ensures.pick (ensures_chooseType _ fun _ => h.moment) fun t _ => ?_
  refine Ensures.pick (h.selectValue_spec t) fun x hx => ?_
  refine Ensures.pick (h.selectValue_spec t) fun y hy => ?_
  refine Ensures.pick (h.selectValue_spec t) fun z hz => ?_
  exact h.ternary_spec ⟨rfl, rfl⟩ rfl (fun a => ⟨[], rfl⟩) hx hy hz

theorem Working.fma_spec (h : Working S done b L True s) (mode : Mode) :
    Ensures (fun _ => Moment S) (fma (S.pool L.blockDefValues b) mode) s
      (Produces S done b L) := by
  unfold fma
  refine Ensures.pick (ensures_chooseType _ fun _ => h.moment) fun t _ => ?_
  refine Ensures.ite (fun _ => Ensures.pure (.nothing h)) fun _ => ?_
  refine Ensures.pick (h.chooseValue_spec t) fun x hx => ?_
  refine Ensures.pick (h.chooseValue_spec t) fun y hy => ?_
  refine Ensures.pick (h.chooseValue_spec t) fun z hz => ?_
  exact h.ternary_spec ⟨rfl, rfl⟩ rfl (fun a => ⟨[], rfl⟩) hx hy hz

theorem Working.insertlane_spec (h : Working S done b L True s) (mode : Mode) :
    Ensures (fun _ => Moment S) (insertlane (S.pool L.blockDefValues b) mode) s
      (Produces S done b L) := by
  unfold insertlane
  refine Ensures.pick (ensures_chooseType _ fun _ => h.moment) fun t _ => ?_
  refine Ensures.pick (ensures_extractVectorType t fun _ => h.moment) fun lane _ => ?_
  refine Ensures.ite (fun _ => Ensures.pure (.nothing h)) fun _ => ?_
  refine Ensures.pick (h.chooseValue_spec t) fun x hx => ?_
  refine Ensures.pick (h.chooseValue_spec lane) fun y hy => ?_
  refine Ensures.bind (h.emit_spec ⟨rfl, rfl⟩ (u := x) (t := t) ?_ rfl hx) ?_
  · intro u hu
    rcases List.mem_pair.mp hu with rfl | rfl
    · exact ⟨t, hx⟩
    · exact ⟨lane, hy⟩
  · rintro v s' ⟨hw, hrec⟩
    refine Ensures.pure (.defined hw (hrec t fun _ => ?_)
      (by simpa using ⟨pool_ne_nil hx, pool_ne_nil hy⟩))
    exact Opcode.SameType.records (fun a => ⟨[], rfl⟩) t

theorem Working.isplit_spec (h : Working S done b L True s) {mode : Mode}
    (hrec : ∀ t r, S.config.Accepted → (∃ ts, mode.operandTypes = some ts ∧
      ∃ o ∈ ts, t = o.toCraneliftType) → t.halfWidth = some r → Opcode.isplit.records t r = true) :
    Ensures (fun _ => Moment S) (isplit (S.pool L.blockDefValues b) mode) s
      (Produces S done b L) := by
  unfold isplit
  refine Ensures.pick (ensures_chooseType _ fun _ => h.moment) fun t ht => ?_
  refine Ensures.ite (fun _ => Ensures.pure (.nothing h)) fun _ => ?_
  split
  · exact Ensures.pure (.nothing h)
  · rename_i r hr
    exact h.unary_spec ⟨rfl, rfl⟩ rfl fun hok => hrec t r hok ht hr

theorem Working.iconst_spec (h : Working S done b L True s) :
    Ensures (fun _ => Moment S) iconst s (Produces S done b L) := by
  unfold iconst
  refine Ensures.pick (P := fun _ => True) (Ensures.genRange h.moment (fun _ _ => h.moment)
    fun _ _ _ => ⟨rfl, trivial⟩) fun choice _ => ?_
  refine Ensures.bind (h.emitConstant_spec ⟨rfl, rfl⟩ _) ?_
  rintro v s' ⟨hw, hrec⟩
  exact Ensures.pure (.fresh hw (hrec _ ⟨[], rfl⟩))

theorem Working.constant_spec (h : Working S done b L True s) {op : Opcode} (hop : op.Plain)
    {t : ClifType} (hfixed : op.FixedType t) :
    Ensures (fun _ => Moment S) (constant op t) s (Produces S done b L) := by
  unfold constant
  refine Ensures.bind (ensures_emit_iff.mpr (h.emitConstant_spec hop _)) ?_
  rintro v s' ⟨hw, hrec⟩
  exact Ensures.pure (.fresh hw (hrec t (hfixed _)))

theorem Working.getRegister_spec (h : Working S done b L True s) {op : Opcode} (hop : op.Plain)
    (hsame : op.SameType) :
    Ensures (fun _ => Moment S) (getRegister op) s (Produces S done b L) := by
  unfold getRegister
  refine Ensures.bind (h.emitConstant_spec hop .i64) ?_
  rintro v s' ⟨hw, hrec⟩
  exact Ensures.pure (.fresh hw (hrec .i64 (hsame _)))

theorem Working.plain_spec (h : Working S done b L True s) {op : Opcode} (hop : op.Plain)
    (hnone : ∀ ctrl, op.resultTypes ctrl = some []) :
    Ensures (fun _ => Moment S) (plain op) s (Produces S done b L) := by
  unfold plain
  refine Ensures.bind (h.ins_spec (.fixed op []) hnone hop.plain
    (fun _ hv => absurd hv List.not_mem_nil) (.of_not hop.memory)) ?_
  rintro i s' ⟨-, hw, -⟩
  exact Ensures.pure (.nothing hw)

theorem Working.ifListed_spec (h : Working S done b L True s) (mode : Mode)
    {arm : M Locals Selection} (harm : Ensures (fun _ => Moment S) arm s (Produces S done b L)) :
    Ensures (fun _ => Moment S) (ifListed mode arm) s (Produces S done b L) := by
  unfold ifListed
  refine Ensures.pick (P := fun _ => True) (Ensures.unwrap (fun _ _ => h.moment)
    fun _ _ => ⟨rfl, trivial⟩) fun _ _ => ?_
  exact Ensures.ite (fun _ => Ensures.pure (.nothing h)) fun _ => harm

/-! ## Types from the lists of a mode -/

/-- A type that the list `operand_types` of a mode has. -/
def Mode.Lists (mode : Mode) (t : ClifType) : Prop :=
  ∃ ts, mode.operandTypes = some ts ∧ ∃ o ∈ ts, t = o.toCraneliftType

/-- A listed type is an operand type, and the opcode accepts it. -/
theorem Mode.Lists.accepted {mode : Mode} {t : ClifType} (h : mode.Lists t) {op : Opcode}
    (hmode : mode.acceptedBy op = true) :
    ∃ o : OperandType, t = o.toCraneliftType ∧ op.accepts o.toCraneliftType = true := by
  obtain ⟨ts, hts, o, ho, rfl⟩ := h
  refine ⟨o, rfl, ?_⟩
  have hall : acceptsAll op.accepts mode.operandTypes = true := by
    simp only [Mode.acceptedBy, Bool.and_eq_true] at hmode
    exact hmode.1.1
  rw [hts] at hall
  exact List.all_eq_true.mp hall o ho

/-- The types recorded for all operand types that the opcode accepts are right. -/
def Opcode.RecordsAll (op : Opcode) (recorded : ClifType → Option ClifType) : Prop :=
  ∀ o : OperandType, op.accepts o.toCraneliftType = true →
    (recorded o.toCraneliftType).all (op.records o.toCraneliftType) = true

theorem Opcode.RecordsAll.gives {op : Opcode} {recorded : ClifType → Option ClifType}
    (h : op.RecordsAll recorded) {mode : Mode} {t : ClifType} (ht : mode.Lists t)
    (hmode : S.config.Accepted → mode.acceptedBy op = true) {r : ClifType}
    (hr : recorded t = some r) : op.Gives S.config none t r := by
  intro hok
  obtain ⟨o, rfl, hacc⟩ := ht.accepted (hmode hok)
  have hall := h o hacc
  rwa [hr] at hall

theorem Opcode.SameType.recordsAll {op : Opcode} (h : op.SameType) : op.RecordsAll some :=
  fun o _ => h.records o.toCraneliftType

theorem Opcode.FixedType.recordsAll {op : Opcode} {r : ClifType} (h : op.FixedType r) :
    op.RecordsAll fun _ => some r :=
  fun o _ => h.records o.toCraneliftType

theorem Working.chooseType_spec (h : Working S done b L True s) (mode : Mode) :
    Ensures (fun _ => Moment S) (chooseType mode.operandTypes) s fun t s' =>
      s' = s ∧ mode.Lists t :=
  ensures_chooseType _ fun _ => h.moment

/-- An arm on two operands of a type that the mode lists. -/
theorem Working.binaryListed_spec (h : Working S done b L True s) {op : Opcode} (hop : op.Plain)
    (hctrl : op.typevarOperand = 0) {recorded : ClifType → Option ClifType}
    (hrec : op.RecordsAll recorded) {mode : Mode}
    (hmode : S.config.Accepted → mode.acceptedBy op = true) (ref : Value → Value → Value) :
    Ensures (fun _ => Moment S) (do
      binaryWith (S.pool L.blockDefValues b) ref op recorded (← chooseType mode.operandTypes)) s
      (Produces S done b L) :=
  Ensures.pick (h.chooseType_spec mode) fun _ ht =>
    h.binaryWith_spec hop hctrl (fun _ hr => hrec.gives ht hmode hr) ref

/-- An arm on one operand of a type that the mode lists, with a result of the same type. -/
theorem Working.unaryListed_spec (h : Working S done b L True s) {op : Opcode} (hop : op.Plain)
    (hctrl : op.typevarOperand = 0) (hsame : op.SameType) (mode : Mode) :
    Ensures (fun _ => Moment S) (do
      let t ← chooseType mode.operandTypes
      unary (S.pool L.blockDefValues b) op none t t) s (Produces S done b L) :=
  Ensures.pick (h.chooseType_spec mode) fun t _ =>
    h.unary_spec hop hctrl fun _ => hsame.records t

/-- An arm that loads a value of a type that the mode lists. -/
theorem Working.loadListed_spec (h : Working S done b L True s) {op : Opcode}
    (hplain : op.isPlain = true) (hsame : op.SameType) (mode : Mode) :
    Ensures (fun _ => Moment S) (do
      let addr ← randomStackAddr
      loadFrom op addr (← chooseType mode.operandTypes)) s (Produces S done b L) := by
  refine Ensures.bind h.randomStackAddr_spec ?_
  rintro addr s ⟨h, slot, ha⟩
  exact Ensures.pick (h.chooseType_spec mode) fun t ⟨_, _, o, _, ht⟩ =>
    h.loadFrom_spec hplain hsame ha (ht ▸ o.bytes_le)

/-- The same with the type drawn first. -/
theorem Working.loadListedFirst_spec (h : Working S done b L True s) {op : Opcode}
    (hplain : op.isPlain = true) (hsame : op.SameType) (mode : Mode) :
    Ensures (fun _ => Moment S) (do
      let t ← chooseType mode.operandTypes
      loadFrom op (← randomStackAddr) t) s (Produces S done b L) := by
  refine Ensures.pick (h.chooseType_spec mode) fun t ⟨_, _, o, _, ht⟩ => ?_
  refine Ensures.bind h.randomStackAddr_spec ?_
  rintro addr s ⟨h, slot, ha⟩
  exact h.loadFrom_spec hplain hsame ha (ht ▸ o.bytes_le)

theorem Working.storeListedFirst_spec (h : Working S done b L True s) {op : Opcode}
    (hplain : op.isPlain = true) (hnone : ∀ ctrl, op.resultTypes ctrl = some [])
    (mode : Mode) :
    Ensures (fun _ => Moment S) (do
      let t ← chooseType mode.operandTypes
      storeTo (S.pool L.blockDefValues b) op (← randomStackAddr) t) s (Produces S done b L) := by
  refine Ensures.pick (h.chooseType_spec mode) fun t ⟨_, _, o, _, ht⟩ => ?_
  refine Ensures.bind h.randomStackAddr_spec ?_
  rintro addr s ⟨h, slot, ha⟩
  exact h.storeTo_spec hplain hnone ha (ht ▸ o.bytes_le)

/-! ## The arms -/

private theorem oneResult {op : Opcode} (h : ∀ a, op.resultTypes a = some [a]) : op.SameType :=
  fun a => ⟨[], h a⟩

private theorem withFlag {op : Opcode} (h : ∀ a, op.resultTypes a = some [a, .i8]) :
    op.SameType := fun a => ⟨[.i8], h a⟩

private theorem fixedResult {op : Opcode} {r : ClifType} (h : ∀ a, op.resultTypes a = some [r]) :
    op.FixedType r := fun a => ⟨[], h a⟩

/-- **Every arm keeps the state of the first pass, and what it returns may be recorded.** -/
theorem Working.populateOpcode_spec (h : Working S done b L True s) {mode : Mode} {op : Opcode}
    (hmode : S.config.Accepted → mode.acceptedBy op = true) :
    Ensures (fun _ => Moment S) (populateOpcode (S.pool L.blockDefValues b) mode op) s
      (Produces S done b L) := by
  -- one case for each group of arms that the source writes in the same way
  cases op with
  | atomicCas => exact h.atomicCas_spec mode
  | atomicRmw => exact h.atomicRmw_spec mode
  | smin | umin | smax | iadd | imul | smulhi | udiv | sdiv | urem | srem | band | bor | bxor
  | bandNot | borNot | bxorNot | fadd | fsub | fmul | fdiv | fcopysign | fmin | fmax
  | iaddPairwise | uaddOverflowTrap | umax | avgRound | uaddSat | saddSat | usubSat | ssubSat
  | isub | umulhi | sqmulRoundSat | x86Pmulhrsw =>
      exact h.binaryListed_spec ⟨rfl, rfl⟩ rfl (oneResult fun _ => rfl).recordsAll hmode _
  | uaddOverflow | saddOverflow | usubOverflow | ssubOverflow | umulOverflow | smulOverflow =>
      exact h.binaryListed_spec ⟨rfl, rfl⟩ rfl (withFlag fun _ => rfl).recordsAll hmode _
  | swizzle | snarrow | uunarrow | unarrow | iconcat | icmp | fcmp =>
      exact h.binaryListed_spec ⟨rfl, rfl⟩ rfl (fun o => by cases o <;> decide) hmode _
  | shuffle =>
      exact h.binaryListed_spec ⟨rfl, rfl⟩ rfl (fixedResult fun _ => rfl).recordsAll hmode _
  | x86Pshufb =>
      exact h.ifListed_spec mode
        (h.binaryListed_spec ⟨rfl, rfl⟩ rfl (fun o => by cases o <;> decide) hmode _)
  | x86Pmaddubsw =>
      exact h.ifListed_spec mode
        (h.binaryListed_spec ⟨rfl, rfl⟩ rfl (fixedResult fun _ => rfl).recordsAll hmode _)
  | rotl | rotr | ishl | ushr | sshr =>
      exact h.shift_spec ⟨rfl, rfl⟩ rfl (oneResult fun _ => rfl) mode
  | iaddImm | imulImm | udivImm | sdivImm | uremImm | sremImm | irsubImm | bandImm | borImm
  | bxorImm | rotlImm | rotrImm | ishlImm | ushrImm | sshrImm | sqrt | fneg | fabs | ceil | floor
  | trunc | nearest =>
      exact h.unaryListed_spec ⟨rfl, rfl⟩ rfl (oneResult fun _ => rfl) mode
  | icmpImm | vanyTrue | vallTrue =>
      exact Ensures.pick (h.chooseType_spec mode) fun t _ =>
        h.unary_spec ⟨rfl, rfl⟩ rfl fun _ => (fixedResult fun _ => rfl).records t
  | ineg | iabs | bnot | bitrev | clz | ctz | bswap | popcnt | cls =>
      exact Ensures.pick (h.chooseType_spec mode) fun t _ =>
        h.unaryIfAny_spec ⟨rfl, rfl⟩ rfl fun _ => (oneResult fun _ => rfl).records t
  | extractlane =>
      refine Ensures.pick (h.chooseType_spec mode) fun t _ => ?_
      refine Ensures.pick (ensures_extractVectorType t fun _ => h.moment) fun lane hlane => ?_
      have htable : ∀ p ∈ laneTypes, Opcode.extractlane.records p.1 p.2 = true := by decide
      exact h.unaryUniform_spec ⟨rfl, rfl⟩ rfl fun _ => htable _ (mem_of_lookup hlane)
  | splat | scalarToVector =>
      refine Ensures.pick (h.chooseType_spec mode) fun t _ => ?_
      refine Ensures.pick (ensures_extractVectorType t fun _ => h.moment) fun lane _ => ?_
      exact h.unaryUniform_spec ⟨rfl, rfl⟩ rfl ⟨[], rfl⟩
  | insertlane => exact h.insertlane_spec mode
  | vhighBits =>
      refine Ensures.pick (h.chooseType_spec mode) fun t _ => ?_
      exact Ensures.ite (fun _ => Ensures.pure (.nothing h)) fun _ =>
        h.convert_spec ⟨rfl, rfl⟩ rfl (oneResult fun _ => rfl) _ t
  | bitcast => exact h.bitcast_spec mode
  | bmask =>
      refine Ensures.pick (ensures_chooseType _ fun _ => h.moment) fun target _ => ?_
      refine Ensures.pick (ensures_chooseType _ fun _ => h.moment) fun t _ => ?_
      exact h.unary_spec ⟨rfl, rfl⟩ rfl ⟨[], rfl⟩
  | ireduce | uextend | sextend =>
      exact Ensures.pick (h.chooseType_spec mode) fun t _ =>
        h.convertFrom_spec ⟨rfl, rfl⟩ rfl (oneResult fun _ => rfl) _ _ t
  | swidenLow | swidenHigh | uwidenLow | uwidenHigh =>
      exact Ensures.pick (h.chooseType_spec mode) fun t _ =>
        h.widen_spec ⟨rfl, rfl⟩ rfl (by decide) _ t
  | fpromote | fdemote => exact h.unary_spec ⟨rfl, rfl⟩ rfl ⟨[], rfl⟩
  | fvdemote | fvpromoteLow =>
      exact h.unary_spec ⟨rfl, rfl⟩ rfl fun _ => (fixedResult fun _ => rfl).records _
  | fcvtToUint | fcvtToSint | fcvtToUintSat | fcvtToSintSat | fcvtFromUint | fcvtFromSint =>
      exact Ensures.pick (h.chooseType_spec mode) fun t _ =>
        h.convert_spec ⟨rfl, rfl⟩ rfl (oneResult fun _ => rfl) _ t
  | x86Cvtt2dq =>
      refine h.ifListed_spec mode ?_
      exact Ensures.pick (h.chooseType_spec mode) fun t _ =>
        h.convert_spec ⟨rfl, rfl⟩ rfl (oneResult fun _ => rfl) _ t
  | isplit =>
      have htable : Opcode.isplit.RecordsAll ClifType.halfWidth := fun o => by cases o <;> decide
      exact h.isplit_spec fun t r hok ht hr => htable.gives (S := S) ht hmode hr hok
  | select | selectSpectreGuard =>
      exact h.selectOp_spec ⟨rfl, rfl⟩ rfl (oneResult fun _ => rfl) mode
  | bitselect => exact h.bitselect_spec mode
  | fma => exact h.fma_spec mode
  | ssubOverflowBin | usubOverflowBin | uaddOverflowCin | saddOverflowCin =>
      exact Ensures.pick (h.chooseType_spec mode) fun t _ =>
        h.carry_spec ⟨rfl, rfl⟩ rfl (withFlag fun _ => rfl) t
  | load | uload8 | sload8 => exact h.loadListed_spec rfl (oneResult fun _ => rfl) mode
  | uload16 | sload16 => exact h.loadListedFirst_spec rfl (oneResult fun _ => rfl) mode
  | uload32 | sload32 | uload8x8 | sload8x8 | uload16x4 | sload16x4 | uload32x2 | sload32x2 =>
      exact h.loadFixed_spec rfl (fixedResult fun _ => rfl) (by decide)
  | atomicLoad => exact h.atomicLoad_spec mode
  | stackLoad => exact h.stackLoad_spec mode
  | store => exact h.store_spec mode
  | istore8 =>
      refine Ensures.bind h.randomStackAddr_spec ?_
      rintro addr s ⟨h, slot, ha⟩
      exact Ensures.pick (h.chooseType_spec mode) fun t ⟨_, _, o, _, ht⟩ =>
        h.storeTo_spec rfl (fun _ => rfl) ha (ht ▸ o.bytes_le)
  | istore16 | istore32 => exact h.storeListedFirst_spec rfl (fun _ => rfl) mode
  | atomicStore => exact h.atomicStore_spec mode
  | stackStore => exact h.stackStore_spec mode
  | stackAddr =>
      refine Ensures.bind h.randomStackAddr_spec ?_
      rintro addr s ⟨h, -⟩
      exact Ensures.pure (.nothing h)
  | setPinnedReg => exact h.setPinnedReg_spec
  | getPinnedReg | getFramePointer | getStackPointer | getReturnAddress =>
      exact h.getRegister_spec ⟨rfl, rfl⟩ (oneResult fun _ => rfl)
  | nop | fence | sequencePoint => exact h.plain_spec ⟨rfl, rfl⟩ fun _ => rfl
  | iconst => exact h.iconst_spec
  | f32const | f64const | f128const => exact h.constant_spec ⟨rfl, rfl⟩ (fixedResult fun _ => rfl)
  -- opcodes that the generator does not know emit nothing
  | _ => exact Ensures.pure (.nothing h)

end Arms

end Clir
