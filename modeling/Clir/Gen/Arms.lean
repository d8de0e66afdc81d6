import Clir.Gen.Compatible
import Clir.Gen.PopulateSpec

set_option autoImplicit false

/-! # What a call of instruction selection emits and returns

Wherever the cursor stands, an arm of `populate_block_instructions` that returns something has
emitted the instruction it is named after, behind the addresses it needs (`Selected`). The
references it returns are the operands that are not such addresses. Two slips of single arms are
part of the description: `cls` emits a `clz` (`Opcode.emitted`), and some arms with two operands
refer to the new value instead of the only candidate (`Opcode.refersToNew`).
-/

namespace Clir

open Cmd Cursor

/-- The operands other than addresses. Arms pass an address to the instructions that access memory
through one, and to `set_pinned_reg`. -/
def InstructionData.valueOperands : InstructionData → List Value
  | .load _ _ _ | .fixed .atomicLoad _ | .fixed .setPinnedReg _ => []
  | .store _ arg _ _ => [arg]
  | .fixed .atomicRmw args | .fixed .atomicCas args => args.tail
  | .fixed .atomicStore args => args.take 1
  | d => d.arguments

/-- A `stack_addr`. -/
def InstructionData.IsStackAddr (d : InstructionData) : Prop :=
  ∃ slot offset, d = .stackLoad .stackAddr slot offset

theorem InstructionData.IsStackAddr.opcode {d : InstructionData} (h : d.IsStackAddr) :
    d.opcode = .stackAddr := by
  obtain ⟨slot, offset, rfl⟩ := h
  rfl

theorem InstructionData.IsStackAddr.valueOperands {d : InstructionData} (h : d.IsStackAddr) :
    d.valueOperands = [] := by
  obtain ⟨slot, offset, rfl⟩ := h
  rfl

/-! ## Instructions added to a function -/

/-- The instructions that `g` has and `f` has not, in the order they were made. -/
def Function.added (f g : Function) : List InstructionData :=
  (List.range' f.dfg.insts.len (g.dfg.insts.len - f.dfg.insts.len)).map g.instData

/-- `v` is the result of a `stack_addr` that `g` has and `f` has not. -/
def Function.NewAddress (f g : Function) (v : Value) : Prop :=
  ∃ i, f.dfg.insts.len ≤ i ∧ i < g.dfg.insts.len ∧ (g.instData i).opcode = .stackAddr ∧
    v ∈ g.dfg.results i

/-- `g` is `f` with the given instructions inserted one after another. -/
inductive Extends (f : Function) : List InstructionData → Function → Prop
  | refl : Extends f [] f
  | snoc {datas : List InstructionData} {g h : Function} {b : Block} {before after : List Inst}
      {data : InstructionData} {tys : List ClifType} (hext : Extends f datas g)
      (he : Emitted g h b before after data tys) : Extends f (datas ++ [data]) h

/-- The only new instruction of one insertion. -/
theorem Emitted.eq_new {f g : Function} {b : Block} {before after : List Inst}
    {data : InstructionData} {tys : List ClifType} (he : Emitted f g b before after data tys)
    {i : Inst} (hlt : i < g.dfg.insts.len) (hi : ¬ i < f.dfg.insts.len) :
    i = f.dfg.insts.len := by
  have hlen : g.dfg.insts.len = f.dfg.insts.len + 1 := by rw [he.dfg]; rfl
  exact Nat.le_antisymm (Nat.lt_succ_iff.mp (hlt.trans_eq hlen)) (Nat.not_lt.mp hi)

namespace Extends

variable {f g h : Function} {datas : List InstructionData}

theorem insts_len (hext : Extends f datas g) :
    g.dfg.insts.len = f.dfg.insts.len + datas.length := by
  induction hext with
  | refl => rfl
  | snoc _ he ih =>
      rw [he.dfg, List.length_append, ← Nat.add_assoc, ← ih]
      rfl

theorem trans {datas' : List InstructionData} (hext : Extends f datas g)
    (hext' : Extends g datas' h) : Extends f (datas ++ datas') h := by
  induction hext' with
  | refl => rwa [List.append_nil]
  | snoc _ he ih =>
      rw [← List.append_assoc]
      exact ih.snoc he

theorem added (hext : Extends f datas g) : f.added g = datas := by
  induction hext with
  | refl => simp [Function.added]
  | @snoc datas g h b before after data tys hext he ih =>
      have hlen := hext.insts_len
      have hlen' := (hext.snoc he).insts_len
      rw [List.length_append, List.length_singleton] at hlen'
      have hcount : h.dfg.insts.len - f.dfg.insts.len = datas.length + 1 := by omega
      have hcount' : g.dfg.insts.len - f.dfg.insts.len = datas.length := by omega
      rw [Function.added, hcount, List.range'_1_concat, List.map_append, ← hlen]
      congr 1
      · refine Eq.trans ?_ ih
        rw [Function.added, hcount']
        refine List.map_congr_left fun i hi => he.instData_old ?_
        rw [hlen]
        exact (List.mem_range'_1.mp hi).2
      · rw [List.map_singleton, he.instData_new]

/-- The new instructions are in the layout. -/
theorem mem_insts (hext : Extends f datas g) {i : Inst} (hi : f.dfg.insts.len ≤ i)
    (hlt : i < g.dfg.insts.len) : ∃ b, i ∈ g.layout.insts b := by
  induction hext with
  | refl => exact absurd hi (Nat.not_le.mpr hlt)
  | @snoc datas g h b before after data tys hext he ih =>
      by_cases hnew : i < g.dfg.insts.len
      · obtain ⟨c, hc⟩ := ih hnew
        exact ⟨c, he.insts_subset c hc⟩
      · refine ⟨b, ?_⟩
        rw [he.insts_self, he.eq_new hlt hnew]
        simp

theorem newAddress_mono {b : Block} {before after : List Inst} {data : InstructionData}
    {tys : List ClifType} (he : Emitted g h b before after data tys) {v : Value}
    (hv : f.NewAddress g v) : f.NewAddress h v := by
  obtain ⟨i, hi, hlt, hop, hmem⟩ := hv
  refine ⟨i, hi, ?_, by rw [he.instData_old hlt]; exact hop, by rwa [he.results_old hlt]⟩
  rw [he.dfg]
  exact Nat.lt_succ_of_lt hlt

end Extends

/-! ## Emission anywhere -/

section Emission

variable {δ : Type} {s : State δ}

/-- An instruction and its first result, at any controlling type. The result is the next value. -/
theorem ensures_emitAt (ctrl : Option ClifType) (data : InstructionData) :
    Ensures (fun _ _ => True) (emitAt ctrl data) s fun v s' =>
      (∃ b before after tys, Emitted s.func s'.func b before after data tys) ∧
        v ∈ s'.func.dfg.results s.func.dfg.insts.len ∧ s'.locals = s.locals ∧
          v = s.func.dfg.values.len := by
  have hresult : ∀ (i : Inst) (s' : State δ), (i = s.func.dfg.insts.len ∧
      (∃ b before after tys, Emitted s.func s'.func b before after data tys) ∧
        s'.locals = s.locals) → Ensures (fun _ _ => True) (firstResult i) s' fun v s' =>
      (∃ b before after tys, Emitted s.func s'.func b before after data tys) ∧
        v ∈ s'.func.dfg.results s.func.dfg.insts.len ∧ s'.locals = s.locals ∧
          v = s.func.dfg.values.len := by
    rintro i s' ⟨rfl, ⟨b, before, after, tys, he⟩, hlocals⟩
    refine (ensures_firstResult _).mono ?_
    rintro v _ ⟨rfl, hv⟩
    refine ⟨⟨b, before, after, tys, he⟩, List.mem_of_mem_head? hv, hlocals, ?_⟩
    rw [he.results_new, List.head?_range'] at hv
    split at hv
    · cases hv
    · exact (Option.some.inj hv).symm
  cases ctrl with
  | none => exact Ensures.bind (ensures_ins data) hresult
  | some c => exact Ensures.bind (ensures_insTyped data c) hresult

end Emission

/-! ## What a call returns -/

/-- The opcode that the arm of an opcode emits. -/
def Opcode.emitted : Opcode → Opcode
  | .cls => .clz
  | op => op

/-- The opcodes whose arms return the new value as the reference of a single candidate. -/
def Opcode.refersToNew : Opcode → Bool
  | .umax | .avgRound | .uaddSat | .saddSat | .usubSat | .ssubSat | .isub | .umulhi
  | .sqmulRoundSat | .x86Pmulhrsw | .x86Pmaddubsw => true
  | _ => false

/-- The opcodes that are emitted by calls that return nothing. -/
def silentOpcodes : List Opcode := [.stackAddr, .nop, .fence, .sequencePoint, .setPinnedReg]

/-- The opcodes of instructions with fixed operands that arms pass an address to. -/
def Opcode.takesAddress : Opcode → Bool
  | .atomicLoad | .atomicRmw | .atomicCas | .atomicStore | .setPinnedReg => true
  | _ => false

/-- The arm of `op` emits `e` on candidates alone. -/
def Opcode.emits (op e : Opcode) : Bool := e = op.emitted && !e.takesAddress

theorem Opcode.eq_emitted {op e : Opcode} (h : op.emits e = true) : e = op.emitted := by
  simp only [emits, Bool.and_eq_true, decide_eq_true_eq] at h
  exact h.1

theorem valueOperands_fixed {op e : Opcode} (h : op.emits e = true) (args : List Value) :
    (InstructionData.fixed e args).valueOperands = args := by
  simp only [Opcode.emits, Bool.and_eq_true, Bool.not_eq_true'] at h
  obtain ⟨-, h⟩ := h
  cases e <;> first | rfl | cases h

/-- The references are the operands that are not addresses, and each is a candidate of the type it
is returned with. -/
structure Uses (values : ClifType → List Value) (data : InstructionData) (refs : List TypedValue) :
    Prop where
  operands : ∀ v, v ∈ refs.map TypedValue.value ↔ v ∈ data.valueOperands
  candidates : ∀ tv ∈ refs, tv.value ∈ values tv.ty

/-- The reference is the new value, which the only candidate of a type was used twice for. -/
structure UsesNew (values : ClifType → List Value) (op : Opcode) (data : InstructionData)
    (refs : List TypedValue) : Prop where
  opcode : op.refersToNew = true
  exists_single : ∃ new t v, refs = [⟨new, t⟩] ∧ values t = [v] ∧ data = .fixed op [v, v]

/-- What a call of the arm of `op` on the function `f` did and returned. -/
inductive Selected (values : ClifType → List Value) (op : Opcode) (f : Function) :
    Selection → Function → Prop
  | nothing {datas : List InstructionData} {g : Function} (hext : Extends f datas g)
      (hsilent : ∀ d ∈ datas, d.opcode ∈ silentOpcodes ∧ d.valueOperands = []) :
      Selected values op f none g
  | chosen {datas : List InstructionData} {data : InstructionData} {g : Function}
      {new : Option TypedValue} {refs : Option (List TypedValue)}
      (hext : Extends f (datas ++ [data]) g) (haddrs : ∀ d ∈ datas, d.IsStackAddr)
      (haddresses : ∀ v ∈ data.arguments, v ∈ data.valueOperands ∨ f.NewAddress g v)
      (hop : data.opcode = op.emitted)
      (huses : Uses values data (refs.getD []) ∨ UsesNew values op data (refs.getD [])) :
      Selected values op f (some (new, refs)) g

/-! ## Before and after the instruction -/

section Arms

variable {δ : Type} {values : ClifType → List Value} {op e : Opcode} {f : Function}
  {addresses : List Value} {L : δ} {s : State δ}

/-- The call has emitted nothing but `stack_addr`, among them the ones of the given addresses. -/
structure Readied (f : Function) (L : δ) (addresses : List Value) (s : State δ) : Prop where
  exists_ext : ∃ datas, Extends f datas s.func ∧ ∀ d ∈ datas, d.IsStackAddr
  addresses : ∀ a ∈ addresses, f.NewAddress s.func a
  locals : s.locals = L

/-- The call has emitted `data` behind that. -/
structure Acted (f : Function) (L : δ) (addresses : List Value) (data : InstructionData)
    (s : State δ) : Prop where
  exists_ext : ∃ datas, Extends f (datas ++ [data]) s.func ∧ ∀ d ∈ datas, d.IsStackAddr
  addresses : ∀ a ∈ addresses, f.NewAddress s.func a
  locals : s.locals = L

/-- What holds when the arm of `op` has returned. -/
def Returned (values : ClifType → List Value) (op : Opcode) (f : Function) (L : δ)
    (sel : Selection) (s : State δ) : Prop :=
  Selected values op f sel s.func ∧ s.locals = L

theorem Readied.start (s : State δ) : Readied s.func s.locals [] s :=
  ⟨⟨[], .refl, by simp⟩, by simp, rfl⟩

theorem Readied.acted {s' : State δ} (h : Readied f L addresses s) {data : InstructionData}
    (he : ∃ b before after tys, Emitted s.func s'.func b before after data tys)
    (hlocals : s'.locals = s.locals) : Acted f L addresses data s' := by
  obtain ⟨datas, hext, hdatas⟩ := h.exists_ext
  obtain ⟨b, before, after, tys, he⟩ := he
  exact ⟨⟨datas, hext.snoc he, hdatas⟩, fun a ha => Extends.newAddress_mono he (h.addresses a ha),
    hlocals.trans h.locals⟩

/-- An instruction that is built for its effect. -/
theorem Readied.ins_acted (h : Readied f L addresses s) (data : InstructionData) :
    Ensures (fun _ _ => True) (ins data) s fun _ => Acted f L addresses data := by
  refine (ensures_ins data).mono ?_
  rintro i s' ⟨-, he, hlocals⟩
  exact h.acted he hlocals

/-- An instruction that defines a value. -/
theorem Readied.emitAt_acted (h : Readied f L addresses s) (ctrl : Option ClifType)
    (data : InstructionData) :
    Ensures (fun _ _ => True) (emitAt ctrl data) s fun _ => Acted f L addresses data := by
  refine (ensures_emitAt ctrl data).mono ?_
  rintro v s' ⟨he, -, hlocals, -⟩
  exact h.acted he hlocals

/-- One more address. -/
theorem Readied.stackAddr_readied (h : Readied f L addresses s) (slot : StackSlot)
    (offset : ℕ) :
    Ensures (fun _ _ => True) (stackAddr slot offset) s fun a =>
      Readied f L (a :: addresses) := by
  refine (ensures_emitAt (some .i64) (.stackLoad .stackAddr slot offset)).mono ?_
  rintro a s' ⟨⟨b, before, after, tys, he⟩, ha, hlocals, -⟩
  obtain ⟨datas, hext, hdatas⟩ := h.exists_ext
  refine ⟨⟨_, hext.snoc he, ?_⟩, fun x hx => ?_, hlocals.trans h.locals⟩
  · intro d hd
    rcases List.mem_append.mp hd with hd | hd
    · exact hdatas d hd
    · exact ⟨slot, offset, List.mem_singleton.mp hd⟩
  · rcases List.mem_cons.mp hx with rfl | hx
    · refine ⟨s.func.dfg.insts.len, ?_, ?_, ?_, ha⟩
      · rw [hext.insts_len]
        exact Nat.le_add_right _ _
      · rw [he.dfg]
        exact Nat.lt_succ_self _
      · rw [he.instData_new]
        rfl
    · exact Extends.newAddress_mono he (h.addresses x hx)

theorem Readied.randomStackAddr_readied (h : Readied f L addresses s) :
    Ensures (fun _ _ => True) randomStackAddr s fun a => Readied f L (a :: addresses) :=
  Ensures.pick (ensures_randomStackSlot fun _ => trivial) fun slot _ =>
    h.stackAddr_readied slot 0

theorem Readied.returns_none (h : Readied f L addresses s) : Returned values op f L none s := by
  obtain ⟨datas, hext, hdatas⟩ := h.exists_ext
  refine ⟨.nothing hext fun d hd => ⟨?_, (hdatas d hd).valueOperands⟩, h.locals⟩
  rw [(hdatas d hd).opcode]
  exact List.mem_cons_self

/-- A call that returns nothing has placed nothing but a silent instruction. -/
theorem Acted.returns_none {data : InstructionData} (h : Acted f L addresses data s)
    (hsilent : data.opcode ∈ silentOpcodes ∧ data.valueOperands = []) :
    Returned values op f L none s := by
  obtain ⟨datas, hext, hdatas⟩ := h.exists_ext
  refine ⟨.nothing hext fun d hd => ?_, h.locals⟩
  rcases List.mem_append.mp hd with hd | hd
  · rw [(hdatas d hd).opcode, (hdatas d hd).valueOperands]
    exact ⟨List.mem_cons_self, rfl⟩
  · rw [List.mem_singleton.mp hd]
    exact hsilent

theorem Acted.returns {data : InstructionData} {new : Option TypedValue}
    {refs : Option (List TypedValue)} (h : Acted f L addresses data s)
    (hop : data.opcode = op.emitted)
    (hargs : ∀ v ∈ data.arguments, v ∈ data.valueOperands ∨ v ∈ addresses)
    (huses : Uses values data (refs.getD []) ∨ UsesNew values op data (refs.getD [])) :
    Returned values op f L (some (new, refs)) s := by
  obtain ⟨datas, hext, hdatas⟩ := h.exists_ext
  exact ⟨.chosen hext hdatas (fun v hv => (hargs v hv).imp_right (h.addresses v)) hop huses,
    h.locals⟩

theorem ensures_select (l : List Value) :
    Ensures (fun _ _ => True) (selectValue l) s fun v s' => s' = s ∧ v ∈ l :=
  ensures_selectValue l trivial fun _ _ => trivial

theorem ensures_anyRange {n : ℕ} :
    Ensures (fun _ _ => True) (genRange 0 (n + 1)) s fun _ s' => s' = s ∧ True :=
  Ensures.genRange trivial (fun _ _ => trivial) fun _ _ _ => ⟨rfl, trivial⟩

theorem ensures_pickType (types : Option (List OperandType)) :
    Ensures (fun _ _ => True) (chooseType types) s fun _ s' => s' = s ∧ True :=
  (ensures_chooseType types fun _ => trivial).mono fun _ _ h => ⟨h.1, trivial⟩

/-! ## The shapes of the arms -/

/-- The operands are the references in order. -/
theorem Uses.of_eq {data : InstructionData} {refs : List TypedValue}
    (hargs : data.valueOperands = refs.map TypedValue.value)
    (hrefs : ∀ tv ∈ refs, tv.value ∈ values tv.ty) : Uses values data refs where
  operands _ := by rw [hargs]
  candidates := hrefs

theorem Readied.emitDefined (h : Readied f L addresses s) (ctrl : Option ClifType)
    (data : InstructionData) (hop : data.opcode = op.emitted)
    (hargs : ∀ v ∈ data.arguments, v ∈ data.valueOperands ∨ v ∈ addresses)
    {refs : List TypedValue} (huses : Uses values data refs) (t : ClifType) :
    Ensures (fun _ _ => True) (do return defined (← emitAt ctrl data) t refs) s
      (Returned values op f L) := by
  refine Ensures.bind (h.emitAt_acted ctrl data) fun _ s' hacted => ?_
  exact Ensures.pure (hacted.returns hop hargs (.inl huses))

theorem Readied.emitFresh (h : Readied f L addresses s) (ctrl : Option ClifType)
    (data : InstructionData) (hop : data.opcode = op.emitted)
    (hargs : ∀ v ∈ data.arguments, v ∈ addresses) (hnone : data.valueOperands = [])
    (t : ClifType) :
    Ensures (fun _ _ => True) (do return definedFresh (← emitAt ctrl data) t) s
      (Returned values op f L) := by
  refine Ensures.bind (h.emitAt_acted ctrl data) fun _ s' hacted => ?_
  exact Ensures.pure (hacted.returns hop (fun v hv => .inr (hargs v hv))
    (.inl (.of_eq hnone (by simp))))

/-- An instruction on candidates, which are returned as its references. -/
theorem Readied.emitValues (h : Readied f L addresses s) (ctrl : Option ClifType)
    (hop : op.emits e = true) (refs : List TypedValue)
    (hrefs : ∀ tv ∈ refs, tv.value ∈ values tv.ty) (t : ClifType) :
    Ensures (fun _ _ => True)
      (do return defined (← emitAt ctrl (.fixed e (refs.map TypedValue.value))) t refs) s
      (Returned values op f L) :=
  h.emitDefined ctrl (.fixed e _) (Opcode.eq_emitted hop)
    (fun v hv => .inl (by rwa [valueOperands_fixed hop]))
    (.of_eq (valueOperands_fixed hop _) hrefs) t

/-- A single candidate is used twice; `ref` decides which value is returned for it. -/
theorem Readied.binaryWith_returned (h : Readied f L addresses s) (hop : op.emits op = true)
    {ref : Value → Value → Value}
    (href : (∀ new v, ref new v = v) ∨ op.refersToNew = true ∧ ∀ new v, ref new v = new)
    (recorded : ClifType → Option ClifType) (t : ClifType) :
    Ensures (fun _ _ => True) (binaryWith values ref op recorded t) s
      (Returned values op f L) := by
  unfold binaryWith
  split
  · exact Ensures.pure h.returns_none
  · rename_i v hv
    refine Ensures.bind (h.emitAt_acted none (.fixed op [v, v])) fun new s' hacted => ?_
    refine Ensures.pick (ensures_recordedType _ fun _ => trivial) fun r _ => ?_
    refine Ensures.pure (hacted.returns (Opcode.eq_emitted hop) (fun x hx => .inl ?_) ?_)
    · rwa [valueOperands_fixed hop]
    rcases href with href | ⟨hop', href⟩
    · left
      rw [href]
      refine ⟨fun x => ?_, fun tv htv => ?_⟩
      · rw [valueOperands_fixed hop]
        simp
      · obtain rfl := List.mem_singleton.mp htv
        rw [hv]
        exact List.mem_singleton_self v
    · right
      rw [href]
      exact ⟨hop', new, t, v, rfl, hv, rfl⟩
  · refine Ensures.pick (ensures_select _) fun x hx => ?_
    refine Ensures.pick (ensures_select _) fun y hy => ?_
    refine Ensures.bind (h.emitAt_acted none (.fixed op [x, y])) fun new s' hacted => ?_
    refine Ensures.pick (ensures_recordedType _ fun _ => trivial) fun r _ => ?_
    refine Ensures.pure (hacted.returns (Opcode.eq_emitted hop) (fun x hx => .inl ?_)
      (.inl (.of_eq ?_ ?_)))
    · rwa [valueOperands_fixed hop]
    · exact valueOperands_fixed hop _
    · simpa using ⟨hx, hy⟩

theorem Readied.unary_returned (h : Readied f L addresses s) (hop : op.emits e = true)
    (ctrl : Option ClifType) (t r : ClifType) :
    Ensures (fun _ _ => True) (unary values e ctrl t r) s (Returned values op f L) :=
  Ensures.pick (ensures_select _) fun v hv =>
    h.emitValues ctrl hop [⟨v, t⟩] (by simpa using hv) r

theorem Readied.unaryIfAny_returned (h : Readied f L addresses s) (hop : op.emits e = true)
    (t : ClifType) :
    Ensures (fun _ _ => True) (unaryIfAny values e t) s (Returned values op f L) :=
  Ensures.ite (fun _ => Ensures.pure h.returns_none) fun _ => h.unary_returned hop none t t

theorem Readied.unaryUniform_returned (h : Readied f L addresses s) (hop : op.emits e = true)
    (ctrl : Option ClifType) (t r : ClifType) :
    Ensures (fun _ _ => True) (unaryUniform values e ctrl t r) s (Returned values op f L) :=
  Ensures.ite (fun _ => Ensures.pure h.returns_none) fun _ =>
    Ensures.pick (ensures_chooseValue _ trivial fun _ _ => trivial) fun v hv =>
      h.emitValues ctrl hop [⟨v, t⟩] (by simpa using hv) r

theorem Readied.convert_returned (h : Readied f L addresses s) (hop : op.emits e = true)
    (targets : List (ClifType × ClifType)) (t : ClifType) :
    Ensures (fun _ _ => True) (convert values e targets t) s (Returned values op f L) := by
  refine Ensures.pick (ensures_select _) fun v hv => ?_
  split
  · exact h.emitValues (some _) hop [⟨v, t⟩] (by simpa using hv) _
  · exact Ensures.pure h.returns_none

theorem Readied.convertFrom_returned (h : Readied f L addresses s) (hop : op.emits e = true)
    (sources : List (ClifType × List ClifType)) (message : String) (t : ClifType) :
    Ensures (fun _ _ => True) (convertFrom values e sources message t) s
      (Returned values op f L) := by
  unfold convertFrom
  split
  · exact Ensures.pick (ensures_randomType _ fun _ => trivial) fun t' _ =>
      h.unary_returned hop _ t' t
  · exact Ensures.panicWith trivial

theorem Readied.widen_returned (h : Readied f L addresses s) (hop : op.emits e = true)
    (message : String) (t : ClifType) :
    Ensures (fun _ _ => True) (widen values e message t) s (Returned values op f L) := by
  unfold widen
  split
  · exact h.unary_returned hop none _ t
  · exact Ensures.panicWith trivial

theorem Readied.shift_returned (h : Readied f L addresses s) (hop : op.emits e = true)
    (mode : Mode) :
    Ensures (fun _ _ => True) (shift values e mode) s (Returned values op f L) :=
  Ensures.pick (ensures_pickType _) fun t₀ _ => Ensures.pick (ensures_pickType _) fun t₁ _ =>
    Ensures.pick (ensures_select _) fun x hx => Ensures.pick (ensures_select _) fun y hy =>
      h.emitValues none hop [⟨x, t₀⟩, ⟨y, t₁⟩] (by simpa using ⟨hx, hy⟩) t₀

theorem Readied.selectOp_returned (h : Readied f L addresses s) (hop : op.emits e = true)
    (mode : Mode) :
    Ensures (fun _ _ => True) (selectOp values e mode) s (Returned values op f L) :=
  Ensures.pick (ensures_pickType _) fun tc _ => Ensures.pick (ensures_select _) fun c hc =>
    Ensures.pick (ensures_pickType _) fun t _ => Ensures.pick (ensures_select _) fun x hx =>
      Ensures.pick (ensures_select _) fun y hy =>
        h.emitValues none hop [⟨c, tc⟩, ⟨x, t⟩, ⟨y, t⟩] (by simpa using ⟨hc, hx, hy⟩) t

theorem Readied.carry_returned (h : Readied f L addresses s) (hop : op.emits e = true)
    (t : ClifType) :
    Ensures (fun _ _ => True) (carry values e t) s (Returned values op f L) :=
  Ensures.ite (fun _ => Ensures.pure h.returns_none) fun _ =>
    Ensures.pick (ensures_select _) fun x hx => Ensures.pick (ensures_select _) fun y hy =>
      Ensures.pick (ensures_select _) fun z hz =>
        h.emitValues none hop [⟨x, t⟩, ⟨y, t⟩, ⟨z, .i8⟩] (by simpa using ⟨hx, hy, hz⟩) t

theorem Readied.bitcast_returned (h : Readied f L addresses s) (mode : Mode) :
    Ensures (fun _ _ => True) (bitcast values mode) s (Returned values .bitcast f L) :=
  Ensures.pick (ensures_pickType _) fun t _ => Ensures.pick (ensures_select _) fun v hv =>
    Ensures.pick (ensures_bitcastTypeMapping _ fun _ => trivial) fun r _ =>
      h.emitValues (some r) (by rfl) [⟨v, t⟩] (by simpa using hv) r

theorem Readied.bitselect_returned (h : Readied f L addresses s) (mode : Mode) :
    Ensures (fun _ _ => True) (bitselect values mode) s (Returned values .bitselect f L) :=
  Ensures.pick (ensures_pickType _) fun t _ => Ensures.pick (ensures_select _) fun c hc =>
    Ensures.pick (ensures_select _) fun x hx => Ensures.pick (ensures_select _) fun y hy =>
      h.emitValues none (by rfl) [⟨c, t⟩, ⟨x, t⟩, ⟨y, t⟩] (by simpa using ⟨hc, hx, hy⟩) t

theorem Readied.fma_returned (h : Readied f L addresses s) (mode : Mode) :
    Ensures (fun _ _ => True) (fma values mode) s (Returned values .fma f L) :=
  Ensures.pick (ensures_pickType _) fun t _ =>
    Ensures.ite (fun _ => Ensures.pure h.returns_none) fun _ =>
      Ensures.pick (ensures_chooseValue _ trivial fun _ _ => trivial) fun x hx =>
        Ensures.pick (ensures_chooseValue _ trivial fun _ _ => trivial) fun y hy =>
          Ensures.pick (ensures_chooseValue _ trivial fun _ _ => trivial) fun z hz =>
            h.emitValues none (by rfl) [⟨x, t⟩, ⟨y, t⟩, ⟨z, t⟩] (by simpa using ⟨hx, hy, hz⟩) t

theorem Readied.insertlane_returned (h : Readied f L addresses s) (mode : Mode) :
    Ensures (fun _ _ => True) (insertlane values mode) s (Returned values .insertlane f L) :=
  Ensures.pick (ensures_pickType _) fun t _ =>
    Ensures.pick (ensures_extractVectorType _ fun _ => trivial) fun lane _ =>
      Ensures.ite (fun _ => Ensures.pure h.returns_none) fun _ =>
        Ensures.pick (ensures_chooseValue _ trivial fun _ _ => trivial) fun x hx =>
          Ensures.pick (ensures_chooseValue _ trivial fun _ _ => trivial) fun y hy =>
            h.emitValues none (by rfl) [⟨x, t⟩, ⟨y, lane⟩] (by simpa using ⟨hx, hy⟩) t

theorem Readied.isplit_returned (h : Readied f L addresses s) (mode : Mode) :
    Ensures (fun _ _ => True) (isplit values mode) s (Returned values .isplit f L) := by
  refine Ensures.pick (ensures_pickType _) fun t _ => ?_
  refine Ensures.ite (fun _ => Ensures.pure h.returns_none) fun _ => ?_
  split
  · exact Ensures.pure h.returns_none
  · exact h.unary_returned (by rfl) none t _

theorem Readied.ifListed_returned (h : Readied f L addresses s) (mode : Mode) {arm : M δ Selection}
    (harm : Ensures (fun _ _ => True) arm s (Returned values op f L)) :
    Ensures (fun _ _ => True) (ifListed mode arm) s (Returned values op f L) :=
  Ensures.pick (P := fun _ => True) (Ensures.unwrap (fun _ _ => trivial) fun _ _ => ⟨rfl, trivial⟩)
    fun _ _ => Ensures.ite (fun _ => Ensures.pure h.returns_none) fun _ => harm

/-! ## Constants and registers -/

theorem Readied.iconst_returned (h : Readied f L addresses s) :
    Ensures (fun _ _ => True) iconst s (Returned values .iconst f L) :=
  Ensures.pick ensures_anyRange fun _ _ =>
    h.emitFresh (some _) (.fixed .iconst []) rfl (by simp [InstructionData.arguments]) rfl _

theorem Readied.constant_returned (h : Readied f L addresses s) (hop : op.emits e = true)
    (t : ClifType) :
    Ensures (fun _ _ => True) (constant e t) s (Returned values op f L) :=
  h.emitFresh none (.fixed e []) (Opcode.eq_emitted hop) (by simp [InstructionData.arguments])
    (valueOperands_fixed hop _) t

theorem Readied.getRegister_returned (h : Readied f L addresses s) (hop : op.emits e = true) :
    Ensures (fun _ _ => True) (getRegister e) s (Returned values op f L) :=
  h.emitFresh (some .i64) (.fixed e []) (Opcode.eq_emitted hop)
    (by simp [InstructionData.arguments]) (valueOperands_fixed hop _) .i64

theorem Readied.plain_returned (h : Readied f L addresses s) (hsilent : e ∈ silentOpcodes)
    (hop : op.emits e = true) :
    Ensures (fun _ _ => True) (plain e) s (Returned values op f L) := by
  refine Ensures.bind (h.ins_acted (.fixed e [])) ?_
  intro _ s' hacted
  exact Ensures.pure (hacted.returns_none ⟨hsilent, valueOperands_fixed hop _⟩)

/-! ## Memory -/

/-- An address in front of other operands. -/
private theorem mem_address_or {a : Value} (rest addresses : List Value) :
    ∀ v ∈ a :: rest, v ∈ rest ∨ v ∈ a :: addresses := by
  intro v hv
  rcases List.mem_cons.mp hv with rfl | hv
  · exact .inr List.mem_cons_self
  · exact .inl hv

theorem Readied.loadFrom_returned (h : Readied f L addresses s) (hop : e = op.emitted)
    {addr : Value} (haddr : addr ∈ addresses) (t : ClifType) :
    Ensures (fun _ _ => True) (loadFrom e addr t) s (Returned values op f L) :=
  Ensures.pick ensures_anyRange fun offset _ =>
    h.emitFresh (some t) (.load e addr offset) hop
      (fun _ hv => List.mem_singleton.mp hv ▸ haddr) rfl t

theorem Readied.loadFixed_returned (h : Readied f L addresses s) (hop : e = op.emitted)
    (t : ClifType) :
    Ensures (fun _ _ => True) (loadFixed e t) s (Returned values op f L) := by
  refine Ensures.bind h.randomStackAddr_readied fun addr s' h' => ?_
  refine Ensures.pick ensures_anyRange fun offset _ => ?_
  exact h'.emitFresh none (.load e addr offset) hop
    (fun _ hv => List.mem_cons.mpr (.inl (List.mem_singleton.mp hv))) rfl t

theorem Readied.storeTo_returned {addr : Value} (h : Readied f L (addr :: addresses) s)
    (hop : e = op.emitted) (t : ClifType) :
    Ensures (fun _ _ => True) (storeTo values e addr t) s (Returned values op f L) := by
  refine Ensures.pick (ensures_select _) fun v hv => ?_
  refine Ensures.bind (h.ins_acted (.store e v addr 0)) fun _ s' hacted => ?_
  refine Ensures.pure (hacted.returns hop (fun x hx => ?_) (.inl (.of_eq rfl (by simpa using hv))))
  exact (List.mem_pair.mp hx).imp List.mem_singleton.mpr fun hx => List.mem_cons.mpr (.inl hx)

theorem Readied.store_returned (h : Readied f L addresses s) (mode : Mode) :
    Ensures (fun _ _ => True) (store values mode) s (Returned values .store f L) := by
  refine Ensures.bind h.randomStackAddr_readied fun addr s' h' => ?_
  refine Ensures.pick (ensures_pickType _) fun t _ => ?_
  exact Ensures.ite (fun _ => Ensures.pure h'.returns_none) fun _ => h'.storeTo_returned (by rfl) t

theorem Readied.stackLoad_returned (h : Readied f L addresses s) (mode : Mode) :
    Ensures (fun _ _ => True) (stackLoad mode) s (Returned values .stackLoad f L) :=
  Ensures.pick (ensures_pickType _) fun t _ =>
    Ensures.pick (ensures_randomStackSlot fun _ => trivial) fun slot _ =>
      h.emitFresh (some t) (.stackLoad .stackLoad slot 0) rfl
        (by simp [InstructionData.arguments]) rfl t

theorem Readied.stackStore_returned (h : Readied f L addresses s) (mode : Mode) :
    Ensures (fun _ _ => True) (stackStore values mode) s (Returned values .stackStore f L) := by
  refine Ensures.pick (ensures_pickType _) fun t _ => ?_
  refine Ensures.ite (fun _ => Ensures.pure h.returns_none) fun _ => ?_
  refine Ensures.pick (ensures_select _) fun v hv => ?_
  refine Ensures.pick (ensures_randomStackSlot fun _ => trivial) fun slot _ => ?_
  refine Ensures.bind (h.ins_acted (.stackStore .stackStore v slot 0)) fun _ s' hacted => ?_
  exact Ensures.pure (hacted.returns rfl (fun _ => .inl) (.inl (.of_eq rfl (by simpa using hv))))

theorem Readied.setPinnedReg_returned (h : Readied f L addresses s) :
    Ensures (fun _ _ => True) setPinnedReg s (Returned values .setPinnedReg f L) := by
  refine Ensures.bind h.randomStackAddr_readied fun addr s' h' => ?_
  refine Ensures.bind (h'.ins_acted (.fixed .setPinnedReg [addr])) fun _ s' hacted => ?_
  exact Ensures.pure (hacted.returns_none ⟨by simp [silentOpcodes, InstructionData.opcode], rfl⟩)

theorem Readied.atomicCas_returned (h : Readied f L addresses s) (mode : Mode) :
    Ensures (fun _ _ => True) (atomicCas values mode) s (Returned values .atomicCas f L) := by
  refine Ensures.pick (ensures_randomStackSlot fun _ => trivial) fun slot _ => ?_
  refine Ensures.pick ensures_anyRange fun offset _ => ?_
  refine Ensures.bind (h.stackAddr_readied slot offset) fun addr s' h' => ?_
  refine Ensures.pick (ensures_pickType _) fun t _ => ?_
  split
  · exact Ensures.pure h'.returns_none
  · rename_i v hv
    have hmem : v ∈ values t := by rw [hv]; exact List.mem_singleton_self v
    refine h'.emitDefined none (.fixed .atomicCas [addr, v, v]) rfl (mem_address_or _ _) ⟨?_, ?_⟩ t
    · simp [InstructionData.valueOperands]
    · simpa using hmem
  · refine Ensures.pick (ensures_select _) fun x hx => ?_
    refine Ensures.pick (ensures_select _) fun y hy => ?_
    exact h'.emitDefined none (.fixed .atomicCas [addr, x, y]) rfl (mem_address_or _ _)
      (.of_eq rfl (by simpa using ⟨hx, hy⟩)) t

theorem Readied.atomicRmw_returned (h : Readied f L addresses s) (mode : Mode) :
    Ensures (fun _ _ => True) (atomicRmw values mode) s (Returned values .atomicRmw f L) := by
  refine Ensures.pick (ensures_pickType _) fun t _ => ?_
  refine Ensures.bind h.randomStackAddr_readied fun addr s' h' => ?_
  refine Ensures.pick (ensures_select _) fun v hv => ?_
  exact h'.emitDefined (some t) (.fixed .atomicRmw [addr, v]) rfl (mem_address_or _ _)
    (.of_eq rfl (by simpa using hv)) t

theorem Readied.atomicLoad_returned (h : Readied f L addresses s) (mode : Mode) :
    Ensures (fun _ _ => True) (atomicLoad mode) s (Returned values .atomicLoad f L) := by
  refine Ensures.bind h.randomStackAddr_readied fun addr s' h' => ?_
  refine Ensures.pick (ensures_pickType _) fun t _ => ?_
  exact h'.emitFresh (some t) (.fixed .atomicLoad [addr]) rfl
    (by simp [InstructionData.arguments]) rfl t

theorem Readied.atomicStore_returned (h : Readied f L addresses s) (mode : Mode) :
    Ensures (fun _ _ => True) (atomicStore values mode) s (Returned values .atomicStore f L) := by
  refine Ensures.pick (ensures_pickType _) fun t _ => ?_
  refine Ensures.bind h.randomStackAddr_readied fun addr s' h' => ?_
  refine Ensures.pick (ensures_select _) fun v hv => ?_
  refine Ensures.bind (h'.ins_acted (.fixed .atomicStore [v, addr])) fun _ s' hacted => ?_
  refine Ensures.pure (hacted.returns rfl (fun x hx => ?_) (.inl (.of_eq rfl (by simpa using hv))))
  exact (List.mem_pair.mp hx).imp List.mem_singleton.mpr fun hx => List.mem_cons.mpr (.inl hx)

/-! ## The arms -/

private theorem keepsRef : (∀ new v : Value, (fun _ refValue : Value => refValue) new v = v) ∨
    op.refersToNew = true ∧ ∀ new v : Value, (fun _ refValue : Value => refValue) new v = new :=
  .inl fun _ _ => rfl

private theorem refNew (hop : op.refersToNew = true) :
    (∀ new v : Value, (fun newValue _ : Value => newValue) new v = v) ∨
      op.refersToNew = true ∧ ∀ new v : Value, (fun newValue _ : Value => newValue) new v = new :=
  .inr ⟨hop, fun _ _ => rfl⟩

/-- **What every arm emits and returns.** -/
theorem populateOpcode_returned (s : State δ) (values : ClifType → List Value) (mode : Mode)
    (op : Opcode) :
    Ensures (fun _ _ => True) (populateOpcode values mode op) s
      (Returned values op s.func s.locals) := by
  have h := Readied.start s
  cases op with
  | atomicCas => exact h.atomicCas_returned mode
  | atomicRmw => exact h.atomicRmw_returned mode
  | swizzle | smin | umin | smax | iadd | imul | smulhi | udiv | sdiv | urem | srem | band | bor
  | bxor | bandNot | borNot | bxorNot | fadd | fsub | fmul | fdiv | fcopysign | fmin | fmax
  | uaddOverflow | saddOverflow | usubOverflow | ssubOverflow | umulOverflow | smulOverflow
  | iaddPairwise | uaddOverflowTrap | snarrow | uunarrow | unarrow | iconcat | icmp | fcmp
  | shuffle =>
      exact Ensures.pick (ensures_pickType _) fun t _ => h.binaryWith_returned (by rfl) keepsRef _ t
  -- for a single candidate, these arms refer to the new value and not to the candidate
  | umax | avgRound | uaddSat | saddSat | usubSat | ssubSat | isub | umulhi | sqmulRoundSat
  | x86Pmulhrsw =>
      exact Ensures.pick (ensures_pickType _) fun t _ =>
        h.binaryWith_returned (by rfl) (refNew rfl) _ t
  | x86Pshufb =>
      exact h.ifListed_returned mode (Ensures.pick (ensures_pickType _) fun t _ =>
        h.binaryWith_returned (by rfl) keepsRef _ t)
  | x86Pmaddubsw =>
      exact h.ifListed_returned mode (Ensures.pick (ensures_pickType _) fun t _ =>
        h.binaryWith_returned (by rfl) (refNew rfl) _ t)
  | rotl | rotr | ishl | ushr | sshr => exact h.shift_returned (by rfl) mode
  | iaddImm | imulImm | udivImm | sdivImm | uremImm | sremImm | irsubImm | bandImm | borImm
  | bxorImm | rotlImm | rotrImm | ishlImm | ushrImm | sshrImm | sqrt | fneg | fabs | ceil | floor
  | trunc | nearest | icmpImm | vanyTrue | vallTrue =>
      exact Ensures.pick (ensures_pickType _) fun t _ => h.unary_returned (by rfl) none t _
  | ineg | iabs | bnot | bitrev | clz | ctz | bswap | popcnt | cls =>
      exact Ensures.pick (ensures_pickType _) fun t _ => h.unaryIfAny_returned (by rfl) t
  | extractlane | splat | scalarToVector =>
      exact Ensures.pick (ensures_pickType _) fun t _ =>
        Ensures.pick (ensures_extractVectorType _ fun _ => trivial) fun _ _ =>
          h.unaryUniform_returned (by rfl) _ _ _
  | insertlane => exact h.insertlane_returned mode
  | vhighBits =>
      exact Ensures.pick (ensures_pickType _) fun t _ =>
        Ensures.ite (fun _ => Ensures.pure h.returns_none) fun _ =>
          h.convert_returned (by rfl) _ t
  | bitcast => exact h.bitcast_returned mode
  | bmask =>
      exact Ensures.pick (ensures_pickType _) fun _ _ => Ensures.pick (ensures_pickType _)
        fun t _ => h.unary_returned (by rfl) _ t _
  | ireduce | uextend | sextend =>
      exact Ensures.pick (ensures_pickType _) fun t _ => h.convertFrom_returned (by rfl) _ _ t
  | swidenLow | swidenHigh | uwidenLow | uwidenHigh =>
      exact Ensures.pick (ensures_pickType _) fun t _ => h.widen_returned (by rfl) _ t
  | fpromote | fdemote | fvdemote | fvpromoteLow => exact h.unary_returned (by rfl) _ _ _
  | fcvtToUint | fcvtToSint | fcvtToUintSat | fcvtToSintSat | fcvtFromUint | fcvtFromSint =>
      exact Ensures.pick (ensures_pickType _) fun t _ => h.convert_returned (by rfl) _ t
  | x86Cvtt2dq =>
      exact h.ifListed_returned mode (Ensures.pick (ensures_pickType _) fun t _ =>
        h.convert_returned (by rfl) _ t)
  | isplit => exact h.isplit_returned mode
  | select | selectSpectreGuard => exact h.selectOp_returned (by rfl) mode
  | bitselect => exact h.bitselect_returned mode
  | fma => exact h.fma_returned mode
  | ssubOverflowBin | usubOverflowBin | uaddOverflowCin | saddOverflowCin =>
      exact Ensures.pick (ensures_pickType _) fun t _ => h.carry_returned (by rfl) t
  | load | uload8 | sload8 =>
      exact Ensures.bind h.randomStackAddr_readied fun addr s' h' =>
        Ensures.pick (ensures_pickType _) fun t _ =>
          h'.loadFrom_returned (by rfl) List.mem_cons_self t
  -- here the type is drawn before the slot, for `load` and the loads of bytes after it
  | uload16 | sload16 =>
      exact Ensures.pick (ensures_pickType _) fun t _ =>
        Ensures.bind h.randomStackAddr_readied fun addr s' h' =>
          h'.loadFrom_returned (by rfl) List.mem_cons_self t
  | uload32 | sload32 | uload8x8 | sload8x8 | uload16x4 | sload16x4 | uload32x2 | sload32x2 =>
      exact h.loadFixed_returned (by rfl) _
  | atomicLoad => exact h.atomicLoad_returned mode
  | stackLoad => exact h.stackLoad_returned mode
  | store => exact h.store_returned mode
  | istore8 =>
      exact Ensures.bind h.randomStackAddr_readied fun addr s' h' =>
        Ensures.pick (ensures_pickType _) fun t _ => h'.storeTo_returned (by rfl) t
  | istore16 | istore32 =>
      exact Ensures.pick (ensures_pickType _) fun t _ =>
        Ensures.bind h.randomStackAddr_readied fun addr s' h' => h'.storeTo_returned (by rfl) t
  | atomicStore => exact h.atomicStore_returned mode
  | stackStore => exact h.stackStore_returned mode
  | stackAddr =>
      exact Ensures.bind h.randomStackAddr_readied fun addr s' h' =>
        Ensures.pure h'.returns_none
  | setPinnedReg => exact h.setPinnedReg_returned
  | getPinnedReg | getFramePointer | getStackPointer | getReturnAddress =>
      exact h.getRegister_returned (by rfl)
  | nop | fence | sequencePoint => exact h.plain_returned (by decide) (by rfl)
  | iconst => exact h.iconst_returned
  | f32const | f64const | f128const => exact h.constant_returned (by rfl) _
  -- opcodes that the generator does not know emit nothing
  | _ => exact Ensures.pure h.returns_none

end Arms

/-! ## The drawn opcode -/

section Drawn

variable {δ : Type} {dominatorBlocks : List Block} {blockDominatorValues : ValueMap}
  {config : ArchConfig} {w w₁ w' : World (State δ)} {op : Opcode} {sel : Selection}

/-- After a call that drew `op`: if it returned something, the last instruction it inserted has
opcode `op` and the others are `stack_addr`; if not, it inserted none but a few that define nothing
to record. -/
def EmitsDrawn (op : Opcode) (f g : Function) : Selection → Prop
  | some _ => ∃ datas data, f.added g = datas ++ [data] ∧ data.opcode = op ∧
      ∀ d ∈ datas, d.opcode = .stackAddr
  | none => ∀ d ∈ f.added g, d.opcode ∈ silentOpcodes

theorem populateInstruction_returned (s : State δ) (values : ClifType → List Value)
    (config : ArchConfig) (op : Opcode) :
    Ensures (fun _ _ => True) (populateInstruction values config op) s
      (Returned values op s.func s.locals) := by
  unfold populateInstruction
  split
  · exact Ensures.panicWith trivial
  · split
    · exact Ensures.pure (Readied.start s).returns_none
    · refine Ensures.pick (P := fun _ => True) (Ensures.choose trivial
        (fun _ => ⟨rfl, trivial⟩) fun _ _ => ⟨rfl, trivial⟩) fun o _ => ?_
      exact Ensures.pick (P := fun _ => True)
        (Ensures.unwrap (fun _ _ => trivial) fun _ _ => ⟨rfl, trivial⟩)
        fun mode _ => populateOpcode_returned s values mode op

/-- A call is a run of the arm of some opcode. -/
theorem populateBlockInstructions_returned (s : State δ) (dominatorBlocks : List Block)
    (blockDominatorValues : ValueMap) (config : ArchConfig) :
    Ensures (fun _ _ => True)
      (populateBlockInstructions dominatorBlocks blockDominatorValues config) s
      fun sel s' => ∃ op, Returned (getDominatorValuesWithType dominatorBlocks
        blockDominatorValues) op s.func s.locals sel s' := by
  unfold populateBlockInstructions
  refine Ensures.pick (P := fun _ => True) (Ensures.chooseUnwrap trivial (fun _ _ => trivial)
    fun _ _ => ⟨rfl, trivial⟩) fun op _ => ?_
  exact (populateInstruction_returned s _ config op).mono fun _ _ h => ⟨op, h⟩

/-- Drawing the opcode changes nothing but the stream. -/
theorem mem_of_instrMutation (hdraw : instrMutation w = .ok op w₁) : w₁.mem = w.mem :=
  (Ensures.chooseUnwrap (I := fun _ _ => True) (Q := fun _ s' => s' = w.mem) trivial
    (fun _ _ => trivial) fun _ _ => rfl).of_ok hdraw

/-- A call that drew `op` is a run of its arm. -/
theorem returned_of_run (hdraw : instrMutation w = .ok op w₁)
    (hrun : populateBlockInstructions dominatorBlocks blockDominatorValues config w = .ok sel w') :
    Returned (getDominatorValuesWithType dominatorBlocks blockDominatorValues) op w.mem.func
      w.mem.locals sel w'.mem := by
  unfold populateBlockInstructions at hrun
  obtain ⟨op', w₂, hdraw', hrun⟩ := bind_eq_ok.mp hrun
  obtain ⟨rfl, rfl⟩ : op = op' ∧ w₁ = w₂ := by
    have := hdraw.symm.trans hdraw'
    simpa using this
  have := (populateInstruction_returned w₁.mem _ config op).of_ok hrun
  rwa [mem_of_instrMutation hdraw] at this

theorem Selected.emitsDrawn_iff {values : ClifType → List Value} {f g : Function}
    (h : Selected values op f sel g) :
    EmitsDrawn op f g sel ↔ ¬ (op = .cls ∧ sel.isSome = true) := by
  cases h with
  | nothing hext hsilent =>
      refine ⟨fun _ hcls => by simp at hcls, fun _ => ?_⟩
      rw [EmitsDrawn, hext.added]
      exact fun d hd => (hsilent d hd).1
  | @chosen datas data _ _ _ hext haddrs _ hop _ =>
      constructor
      · rintro ⟨datas', data', hadded, hop', -⟩ ⟨rfl, -⟩
        -- the last instruction is a `clz`
        rw [hext.added] at hadded
        have hlast := congrArg List.getLast? hadded
        rw [List.getLast?_concat, List.getLast?_concat] at hlast
        obtain rfl : data = data' := Option.some.inj hlast
        rw [hop] at hop'
        cases hop'
      · intro hcls
        refine ⟨datas, data, hext.added, ?_, fun d hd => (haddrs d hd).opcode⟩
        have hne : op ≠ .cls := fun h => hcls ⟨h, rfl⟩
        rw [hop]
        cases op <;> first | rfl | exact absurd rfl hne

theorem Selected.extends {values : ClifType → List Value} {f g : Function}
    (h : Selected values op f sel g) : ∃ datas, Extends f datas g := by
  cases h with
  | nothing hext _ => exact ⟨_, hext⟩
  | chosen hext _ _ _ _ => exact ⟨_, hext⟩

/-- **The drawn opcode is the emitted one**, unless it is `cls`. What a call makes, it inserts. -/
theorem populateBlockInstructions_emitsDrawn_iff (hdraw : instrMutation w = .ok op w₁)
    (hrun : populateBlockInstructions dominatorBlocks blockDominatorValues config w = .ok sel w') :
    (∀ i, w.mem.func.dfg.insts.len ≤ i → i < w'.mem.func.dfg.insts.len →
        ∃ b, i ∈ w'.mem.func.layout.insts b) ∧
      (EmitsDrawn op w.mem.func w'.mem.func sel ↔ ¬ (op = .cls ∧ sel.isSome = true)) := by
  obtain ⟨hsel, -⟩ := returned_of_run hdraw hrun
  obtain ⟨datas, hext⟩ := hsel.extends
  exact ⟨fun i hi hlt => hext.mem_insts hi hlt, hsel.emitsDrawn_iff⟩

/-- A block with a parameter of type `i32`. -/
def oneParam : Function :=
  ((Function.new (.user 0 0) ⟨[], []⟩).makeBlock.appendBlock 0 (by decide)
    (by decide)).appendBlockParam 0 .i32

/-- The cursor at the end of the block. -/
def oneParamEnd (draws : List ℕ) : World (State Unit) := ⟨draws, ⟨oneParam, .after 0, ()⟩⟩

/-- The parameter is all there is to use. -/
def oneParamPool : ValueMap := AList.insert 0 [⟨0, .i32⟩] ∅

/-- A config of one instruction on values of type `i32`. -/
def oneConfig (op : Opcode) : ArchConfig where
  operandTypes := [.i32]
  instructions := [⟨op.name, some [{ name := "int", operandTypes := some [.i32] }]⟩]

/-- A run of `instr_mutation` that is known to draw a certain opcode. -/
theorem exists_instrMutation (h : returnsWith instrMutation w (fun op' _ => op' = op) = true) :
    ∃ w₁, instrMutation w = .ok op w₁ := by
  obtain ⟨op', w₁, hdraw, hop⟩ := exists_of_returnsWith h
  obtain rfl : op' = op := of_decide_eq_true hop
  exact ⟨w₁, hdraw⟩

theorem oneParamEnd_cls : returnsWith
    (populateBlockInstructions [0] oneParamPool (oneConfig .cls)) (oneParamEnd [132, 0, 0, 0, 0])
    (fun sel w' => sel.isSome ∧ oneParam.added w'.mem.func = [.fixed .clz [0]]) = true := by
  decide +kernel

theorem populateBlockInstructions_emitsDrawn_cls :
    ∃ w₁ sel w', instrMutation (oneParamEnd [132, 0, 0, 0, 0]) = .ok .cls w₁ ∧
      populateBlockInstructions [0] oneParamPool (oneConfig .cls)
        (oneParamEnd [132, 0, 0, 0, 0]) = .ok sel w' ∧
      sel.isSome = true ∧ ¬ EmitsDrawn .cls oneParam w'.mem.func sel := by
  obtain ⟨sel, w', hrun, hcheck⟩ := exists_of_returnsWith oneParamEnd_cls
  obtain ⟨hsome, hadded⟩ := of_decide_eq_true hcheck
  obtain ⟨w₁, hdraw⟩ : ∃ w₁, instrMutation (oneParamEnd [132, 0, 0, 0, 0]) = .ok .cls w₁ :=
    exists_instrMutation (by decide +kernel)
  refine ⟨w₁, sel, w', hdraw, hrun, hsome, ?_⟩
  obtain ⟨r, rfl⟩ := Option.isSome_iff_exists.mp hsome
  rintro ⟨datas, data, hadded', hop, -⟩
  have hlast := congrArg List.getLast? (hadded.symm.trans hadded')
  rw [List.getLast?_concat] at hlast
  obtain rfl : InstructionData.fixed .clz [0] = data := Option.some.inj hlast
  cases hop

theorem populateBlockInstructions_emitsDrawn_iadd :
    ∃ w₁ sel w', instrMutation (oneParamEnd [79, 0, 0]) = .ok .iadd w₁ ∧
      populateBlockInstructions [0] oneParamPool (oneConfig .iadd)
        (oneParamEnd [79, 0, 0]) = .ok sel w' ∧
      EmitsDrawn .iadd oneParam w'.mem.func sel := by
  have hreturns : returns (populateBlockInstructions [0] oneParamPool (oneConfig .iadd))
      (oneParamEnd [79, 0, 0]) = true := by decide +kernel
  obtain ⟨sel, w', hrun⟩ := exists_of_returns hreturns
  obtain ⟨w₁, hdraw⟩ : ∃ w₁, instrMutation (oneParamEnd [79, 0, 0]) = .ok .iadd w₁ :=
    exists_instrMutation (by decide +kernel)
  refine ⟨w₁, sel, w', hdraw, hrun, ?_⟩
  exact (populateBlockInstructions_emitsDrawn_iff hdraw hrun).2.mpr (by simp)

end Drawn

end Clir
