import Clir.Cf.Skeleton
import Clir.Gen.Emit
import Clir.Gen.Typing
import Clir.Ir.Memory

set_option autoImplicit false

/-! # The invariant of the generator

`Valid` is what holds of the function and of the recorded values at every moment of the generator,
from the skeleton to the finished function and through the insertion of calls: nothing of the
skeleton is lost, terminators come last, operands are available where they are used, memory
accesses are inside initialised stack slots, a recorded value is defined in its block and has the
recorded type, and once the entry block has recorded values it has one of each type in stock.

Two lemmas carry it through every edit. `Valid.edit` is for edits that leave the layout alone and
only exchange operands, and `Valid.emitted` for a new instruction.
-/

namespace Clir

open Graph

/-- The skeleton that is filled, and the config it is filled by. -/
structure Setting where
  config : ArchConfig
  start : Function
  entry : Block
  exit : Block
  skeleton : Skeleton start entry exit
  no_slots : start.sizedStackSlots.len = 0

/-! ## Memory under edits -/

namespace Keeps

variable {n : ℕ} {f g : Function} {v : Value} {i : Inst} {slot : StackSlot} {offset : ℕ}

theorem stackAddr (hfg : Keeps n f g) (h : f.StackAddr v slot offset) :
    g.StackAddr v slot offset := by
  obtain ⟨c, i, hres, hi, hdata⟩ := h
  have hlt := f.insts_lt c i hi
  refine ⟨c, i, hfg.isResult hlt hres, hfg.insts c hi, ?_⟩
  rw [hfg.pinned i hlt (by rw [hdata]; rfl), hdata]

theorem resolves (hfg : Keeps n f g) {a : Address} (h : f.Resolves a slot offset) :
    g.Resolves a slot offset := by
  cases a with
  | value v => exact hfg.stackAddr h
  | slot s => exact h

end Keeps

namespace Setting

variable (S : Setting)

/-- The number of values of the skeleton. All that are made later may be used. -/
def base : ℕ := S.start.dfg.values.len

/-- The types that the entry block has values of. -/
def stock : List ClifType :=
  S.config.operandTypes.map OperandType.toCraneliftType ++ S.start.signature.params

/-- The instructions of the entry block that run before a place in block `b`. -/
def prior (f : Function) (b : Block) (before : List Inst) : List Inst :=
  if b = S.entry then before else f.layout.insts S.entry

/-- One of the instructions stores a word at an offset of a slot. -/
def StoredAt (f : Function) (prior : List Inst) (slot : StackSlot) (offset : ℕ) : Prop :=
  ∃ i ∈ prior, i < f.dfg.insts.len ∧ ∃ v p, f.instData i = .store .store v p offset ∧
    v < f.dfg.values.len ∧ f.valueType v = .i64 ∧ S.base ≤ p ∧ f.StackAddr p slot 0

/-- All four words of a slot are stored. -/
def Initialised (f : Function) (prior : List Inst) (slot : StackSlot) : Prop :=
  ∀ q < 4, S.StoredAt f prior slot (q * 8)

/-- An access inside a slot of 32 bytes. -/
structure Fits (f : Function) (a : Access) (slot : StackSlot) (offset : ℕ) : Prop where
  resolves : f.Resolves a.address slot offset
  made : slot < f.sizedStackSlots.len
  size : f.sizedStackSlots.get slot = 32
  bound : S.config.Accepted → offset + a.offset + a.width ≤ 32

/-- An access inside a slot of 32 bytes, which is initialised before it is read. -/
structure Safe (f : Function) (prior : List Inst) (a : Access) (slot : StackSlot)
    (offset : ℕ) : Prop extends S.Fits f a slot offset where
  initialised : a.reads = true → S.Initialised f prior slot

/-- A value that is recorded for block `b` is defined there and agrees with its recorded type. -/
structure Recorded (f : Function) (b : Block) (tv : TypedValue) : Prop where
  new : S.base ≤ tv.value
  defined : f.DefinedIn b tv.value
  typed : S.config.Accepted → f.Agrees tv.ty tv.value

variable {S} {f g : Function} {prior prior' : List Inst} {slot : StackSlot} {offset : ℕ}

theorem StoredAt.keeps (h : S.StoredAt f prior slot offset) (hfg : Keeps S.base f g)
    (hsub : prior ⊆ prior') : S.StoredAt g prior' slot offset := by
  obtain ⟨i, hi, hlt, v, p, hdata, hv, hty, hp, haddr⟩ := h
  refine ⟨i, hsub hi, hlt.trans_le hfg.insts_len, v, p, ?_, hv.trans_le hfg.values_len, ?_, hp,
    hfg.stackAddr haddr⟩
  · rw [hfg.pinned i hlt (by rw [hdata]; rfl), hdata]
  · rw [hfg.types v hv, hty]

theorem Initialised.keeps (h : S.Initialised f prior slot) (hfg : Keeps S.base f g)
    (hsub : prior ⊆ prior') : S.Initialised g prior' slot :=
  fun q hq => (h q hq).keeps hfg hsub

/-- Every byte of an initialised slot is written. -/
theorem Initialised.written (h : S.Initialised f prior slot) {byte : ℕ} (hbyte : byte < 32) :
    f.Written prior slot byte := by
  obtain ⟨i, hi, -, v, p, hdata, -, hty, -, haddr⟩ := h (byte / 8) (by omega)
  refine ⟨i, hi, byte / 8 * 8, ⟨v, p, 0, _, hdata, hty, haddr, Nat.zero_add _⟩, ?_, ?_⟩
  · exact Nat.div_mul_le_self byte 8
  · omega

theorem Safe.keeps {a : Access} (h : S.Safe f prior a slot offset) (hfg : Keeps S.base f g)
    (hsub : prior ⊆ prior') : S.Safe g prior' a slot offset where
  resolves := hfg.resolves h.resolves
  made := h.made.trans_le hfg.slots_len
  size := (hfg.slots slot h.made).trans h.size
  bound := h.bound
  initialised hr := (h.initialised hr).keeps hfg hsub

end Setting

theorem Keeps.prior_subset {S : Setting} {n : ℕ} {f g : Function} (hfg : Keeps n f g) {b : Block}
    {before before' : List Inst} (hsub : before ⊆ before') :
    S.prior f b before ⊆ S.prior g b before' := by
  unfold Setting.prior
  split
  · exact hsub
  · exact hfg.insts S.entry

/-! ## The invariant -/

/-- Instruction `i` uses `v`. The condition of a branch counts once it is settled. -/
def Function.Uses (f : Function) (settled : Prop) (i : Inst) (v : Value) : Prop :=
  v ∈ f.callArgs i ∨
    v ∈ (f.instData i).arguments ∧ ((f.instData i).opcode.isTerminator = true → settled)

/-- The invariant. The conditions of the branches of `settled` blocks have been chosen. -/
structure Valid (S : Setting) (settled : Block → Prop) (f : Function) (pools : ValueMap) :
    Prop where
  frame : Keeps S.base S.start f
  ends : ∀ b before i after, f.layout.insts b = before ++ i :: after →
    (f.instData i).opcode.isTerminator = true →
      after = [] ∧ (i ∈ S.start.layout.insts b ∨ (f.instData i).opcode = .return_)
  uses : ∀ b before i after, f.layout.insts b = before ++ i :: after →
    ∀ v, f.Uses (settled b) i v → S.base ≤ v ∧ f.Available S.entry b before v
  results_lt : ∀ b i, i ∈ f.layout.insts b → (f.instData i).opcode.accessesMemory = true →
    ∀ v ∈ f.dfg.results i, v < f.dfg.values.len
  safe : ∀ b before i after, f.layout.insts b = before ++ i :: after →
    (f.instData i).opcode.accessesMemory = true →
      ∃ a slot offset, f.access i = some a ∧ S.Safe f (S.prior f b before) a slot offset
  recorded : ∀ b tvs, pools.lookup b = some tvs → ∀ tv ∈ tvs, S.Recorded f b tv
  stocked : ∀ tvs, pools.lookup S.entry = some tvs → ∀ t ∈ S.stock, ∃ v, ⟨v, t⟩ ∈ tvs

theorem Opcode.isTerminator_of_accessesMemory {op : Opcode} (h : op.accessesMemory = true) :
    op.isTerminator = false := by
  cases op <;> first | rfl | simp [Opcode.accessesMemory] at h

namespace Valid

variable {S : Setting} {settled settled' : Block → Prop} {f g : Function} {pools : ValueMap}
  {b : Block} {i : Inst}

theorem args_lt (h : Valid S settled f pools) (hi : i ∈ f.layout.insts b)
    (hterm : (f.instData i).opcode.isTerminator = false) :
    ∀ v ∈ (f.instData i).arguments, S.base ≤ v ∧ v < f.dfg.values.len := by
  intro v hv
  obtain ⟨before, after, hsplit⟩ := List.append_of_mem hi
  obtain ⟨hbase, havail⟩ :=
    h.uses b before i after hsplit v (.inr ⟨hv, fun ht => by rw [hterm] at ht; cases ht⟩)
  exact ⟨hbase, havail.lt⟩

/-- Comparisons of `i8x16` vectors stay. -/
theorem compares (h : Valid S settled f pools) (hfg : Keeps S.base f g) :
    f.ComparesI8x16 → g.ComparesI8x16 := by
  rintro ⟨b, i, hi, hop, hty⟩
  have hlt := f.insts_lt b i hi
  have hterm : (f.instData i).opcode.isTerminator = false := by rw [hop]; rfl
  refine ⟨b, i, hfg.insts b hi, (hfg.opcode i hlt).trans hop, ?_⟩
  rw [hfg.argTypes i hlt hterm fun v hv => (h.args_lt hi hterm v hv).2, hty]

theorem keepsRecorded (h : Valid S settled f pools) (hfg : Keeps S.base f g) {tv : TypedValue}
    (htv : S.Recorded f b tv) : S.Recorded g b tv where
  new := htv.new
  defined := hfg.definedIn htv.new htv.defined
  typed hok := (htv.typed hok).mono (hfg.types _ htv.defined.lt) (h.compares hfg)

/-- The access of an instruction stays the same. -/
theorem access_eq (h : Valid S settled f pools) (hfg : Keeps S.base f g)
    (hi : i ∈ f.layout.insts b) (hacc : (f.instData i).opcode.accessesMemory = true) :
    g.access i = f.access i := by
  have hlt := f.insts_lt b i hi
  have hdata : g.instData i = f.instData i :=
    hfg.pinned i hlt (by simp [InstructionData.pinned, hacc])
  have hargs := h.args_lt hi (Opcode.isTerminator_of_accessesMemory hacc)
  have hresult : g.resultType i = f.resultType i := by
    unfold Function.resultType
    rw [hfg.results i hlt]
    cases hhead : (f.dfg.results i).head? with
    | none => rfl
    | some v => exact hfg.types v (h.results_lt b i hi hacc v (List.mem_of_mem_head? hhead))
  rw [Function.access, Function.access, hdata, hresult]
  exact InstructionData.access_congr fun v hv => hfg.types v (hargs v hv).2

/-- What is safe stays safe. -/
theorem keepsSafe (h : Valid S settled f pools) (hfg : Keeps S.base f g)
    {before before' after : List Inst} (hsplit : f.layout.insts b = before ++ i :: after)
    (hacc : (f.instData i).opcode.accessesMemory = true) (hsub : before ⊆ before') :
    ∃ a slot offset, g.access i = some a ∧ S.Safe g (S.prior g b before') a slot offset := by
  have hi : i ∈ f.layout.insts b := by rw [hsplit]; simp
  obtain ⟨a, slot, offset, ha, hsafe⟩ := h.safe b before i after hsplit hacc
  exact ⟨a, slot, offset, (h.access_eq hfg hi hacc).trans ha,
    hsafe.keeps hfg (hfg.prior_subset hsub)⟩

/-! ## Edits -/

/-- An edit that leaves the layout alone, and exchanges operands for others that are available. -/
theorem edit (h : Valid S settled f pools) (hfg : Keeps S.base f g)
    (hinsts : ∀ b, g.layout.insts b = f.layout.insts b)
    (huses : ∀ b before i after, f.layout.insts b = before ++ i :: after →
      ∀ v, g.Uses (settled' b) i v →
        f.Uses (settled b) i v ∨ S.base ≤ v ∧ g.Available S.entry b before v) :
    Valid S settled' g pools where
  frame := h.frame.trans hfg
  stocked := h.stocked
  ends b before i after hsplit hterm := by
    rw [hinsts] at hsplit
    rw [hfg.opcode i (f.insts_lt b i (by rw [hsplit]; simp))] at hterm ⊢
    exact h.ends b before i after hsplit hterm
  uses b before i after hsplit v hv := by
    rw [hinsts] at hsplit
    rcases huses b before i after hsplit v hv with hold | hnew
    · obtain ⟨hbase, havail⟩ := h.uses b before i after hsplit v hold
      exact ⟨hbase, hfg.available hbase (List.Subset.refl _) havail⟩
    · exact hnew
  results_lt b i hi hacc v hv := by
    rw [hinsts] at hi
    have hlt := f.insts_lt b i hi
    rw [hfg.opcode i hlt] at hacc
    rw [hfg.results i hlt] at hv
    exact (h.results_lt b i hi hacc v hv).trans_le hfg.values_len
  safe b before i after hsplit hacc := by
    rw [hinsts] at hsplit
    rw [hfg.opcode i (f.insts_lt b i (by rw [hsplit]; simp))] at hacc
    exact h.keepsSafe hfg hsplit hacc (List.Subset.refl _)
  recorded b tvs htvs tv htv := h.keepsRecorded hfg (h.recorded b tvs htvs tv htv)

section Emitted

variable {before after : List Inst} {data : InstructionData} {tys : List ClifType}

/-- The new instruction is accessed as its operands and result types say. -/
theorem access_new (he : Emitted f g b before after data tys)
    (hargs : ∀ v ∈ data.arguments, v < f.dfg.values.len) :
    g.access f.dfg.insts.len = data.access f.valueType (tys.headD .invalid) := by
  have hresult : g.resultType f.dfg.insts.len = tys.headD .invalid := by
    unfold Function.resultType
    rw [he.results_new]
    cases tys with
    | nil => rfl
    | cons ty tys => exact congrArg ValueData.ty (he.values_new (k := 0) rfl)
  rw [Function.access, he.instData_new, hresult]
  exact InstructionData.access_congr fun v hv =>
    congrArg ValueData.ty (he.values_old (hargs v hv))

/-- Terminators still come last if the new instruction is in front of them. -/
theorem ends_emitted (h : Valid S settled f pools) (he : Emitted f g b before after data tys)
    (hbefore : ∀ i ∈ before, (f.instData i).opcode.isTerminator = false)
    (hend : data.opcode.isTerminator = true → after = [] ∧ data.opcode = .return_) {c : Block}
    {p q : List Inst} (hsplit : g.layout.insts c = p ++ i :: q)
    (hterm : (g.instData i).opcode.isTerminator = true) :
    q = [] ∧ (i ∈ S.start.layout.insts c ∨ (g.instData i).opcode = .return_) := by
  rcases he.split_cases hsplit with ⟨rfl, rfl, rfl⟩ | ⟨hlt, p', q', hold, -⟩
  · rw [he.instData_new] at hterm ⊢
    obtain ⟨rfl, hop⟩ := hend hterm
    have hnodup := g.layout.insts_nodup c
    rw [hsplit] at hnodup
    exact ⟨(ListEdit.split_unique hnodup (hsplit.symm.trans he.insts_self)).2, .inr hop⟩
  · rw [he.instData_old hlt] at hterm ⊢
    obtain ⟨rfl, hop⟩ := h.ends c p' i q' hold hterm
    refine ⟨?_, hop⟩
    have hlast : f.layout.lastInst c = some i := by rw [Layout.lastInst, hold, List.getLast?_concat]
    -- the instruction was last, and what is inserted goes in front of it
    have hlast' : g.layout.lastInst c = some i := by
      by_cases hc : c = b
      · subst hc
        refine (he.lastInst_self ?_).trans hlast
        rintro rfl
        have hi : i ∈ before := by
          have : i ∈ before ++ [] := by rw [← he.split, hold]; simp
          simpa using this
        rw [hbefore i hi] at hterm
        cases hterm
      · exact (he.lastInst_of_ne hc).trans hlast
    obtain ⟨l, hl⟩ := List.getLast?_eq_some_iff.mp hlast'
    have hnodup := g.layout.insts_nodup c
    rw [hsplit] at hnodup
    exact (ListEdit.split_unique hnodup (hsplit.symm.trans hl)).2

/-- A new instruction whose operands are available, and whose access is safe. -/
theorem emitted (h : Valid S settled f pools) (he : Emitted f g b before after data tys)
    (hfg : Keeps S.base f g) (hbranch : data.isBranch = false)
    (hbefore : ∀ i ∈ before, (f.instData i).opcode.isTerminator = false)
    (hend : data.opcode.isTerminator = true → after = [] ∧ data.opcode = .return_)
    (hargs : ∀ v ∈ data.arguments, S.base ≤ v ∧ f.Available S.entry b before v)
    (hsafe : data.opcode.accessesMemory = true →
      ∃ a slot offset, data.access f.valueType (tys.headD .invalid) = some a ∧
        S.Safe f (S.prior f b before) a slot offset) : Valid S settled g pools where
  frame := h.frame.trans hfg
  stocked := h.stocked
  ends c p i q hsplit hterm := h.ends_emitted he hbefore hend hsplit hterm
  uses c p i q hsplit v hv := by
    rcases he.split_cases hsplit with ⟨rfl, rfl, rfl⟩ | ⟨hlt, p', q', hold, hsub⟩
    · -- the new instruction has no block calls
      have hmem : v ∈ data.arguments := by
        rcases hv with hv | ⟨hv, -⟩
        · simp [Function.callArgs, Function.destinations, he.instData_new,
            Function.branchOf_eq_none hbranch] at hv
        · rwa [he.instData_new] at hv
      obtain ⟨hbase, havail⟩ := hargs v hmem
      exact ⟨hbase, hfg.available hbase (List.Subset.refl _) havail⟩
    · have huses : f.Uses (settled c) i v := by
        unfold Function.Uses Function.callArgs at hv
        rw [he.instData_old hlt, he.destinations] at hv
        exact hv
      obtain ⟨hbase, havail⟩ := h.uses c p' i q' hold v huses
      exact ⟨hbase, hfg.available hbase hsub havail⟩
  results_lt c i hi hacc v hv := by
    by_cases hnew : i = f.dfg.insts.len
    · subst hnew
      rw [he.results_new, List.mem_range'_1] at hv
      rw [he.values_len]
      exact hv.2
    · obtain ⟨p, q, hsplit⟩ := List.append_of_mem hi
      rcases he.split_cases hsplit with ⟨-, hi', -⟩ | ⟨hlt, p', q', hold, -⟩
      · exact absurd hi' hnew
      · rw [he.instData_old hlt] at hacc
        rw [he.results_old hlt] at hv
        exact (h.results_lt c i (by rw [hold]; simp) hacc v hv).trans_le hfg.values_len
  safe c p i q hsplit hacc := by
    rcases he.split_cases hsplit with ⟨rfl, rfl, rfl⟩ | ⟨hlt, p', q', hold, hsub⟩
    · rw [he.instData_new] at hacc
      obtain ⟨a, slot, offset, ha, hok⟩ := hsafe hacc
      refine ⟨a, slot, offset, ?_, hok.keeps hfg (hfg.prior_subset (List.Subset.refl _))⟩
      rw [access_new he fun v hv => (hargs v hv).2.lt, ha]
    · rw [he.instData_old hlt] at hacc
      exact h.keepsSafe hfg hold hacc hsub
  recorded c tvs htvs tv htv := h.keepsRecorded hfg (h.recorded c tvs htvs tv htv)

end Emitted

/-- More recorded values. -/
theorem record (h : Valid S settled f pools) {pools' : ValueMap}
    (hpools : ∀ b tvs, pools'.lookup b = some tvs → ∀ tv ∈ tvs, S.Recorded f b tv)
    (hstock : ∀ tvs, pools'.lookup S.entry = some tvs → ∀ t ∈ S.stock, ∃ v, ⟨v, t⟩ ∈ tvs) :
    Valid S settled f pools' :=
  { h with
    recorded := hpools
    stocked := hstock }

end Valid

/-! ## The skeleton -/

theorem InstructionData.isTerminator_of_isBranch {d : InstructionData} (h : d.isBranch = true) :
    d.opcode.isTerminator = true := by
  cases d <;> first | rfl | simp [InstructionData.isBranch] at h

theorem InstructionData.isBranch_of_branchOf {f : Function} {d : InstructionData}
    {t : Terminator BlockCall} (h : f.branchOf d = some t) : d.isBranch = true := by
  cases d <;> first | rfl | simp [Function.branchOf] at h

namespace Skeleton

variable {f : Function} {entry exit b : Block} {i : Inst}

/-- A block of a skeleton holds its branch and nothing else; the last block holds nothing. -/
theorem insts_eq (h : Skeleton f entry exit) (hb : b ∈ f.layout.blocks) (hne : b ≠ exit) :
    ∃ i t, f.layout.insts b = [i] ∧ f.layout.lastInst b = some i ∧
      f.branchOf (f.instData i) = some t := by
  obtain ⟨t, ht⟩ := h.branch b hb hne
  obtain ⟨i, t', hi, hbr, -⟩ := Function.exists_of_terminator ht
  obtain ⟨j, hj⟩ := List.length_eq_one_iff.mp (h.one b hb hne)
  have hij : i = j := by
    rw [Layout.lastInst, hj] at hi
    exact (Option.some.inj hi).symm
  exact ⟨i, t', hij ▸ hj, hi, hbr⟩

/-- Every instruction of a skeleton is the branch of its block. -/
theorem lastInst_of_mem (h : Skeleton f entry exit) (hi : i ∈ f.layout.insts b) :
    f.layout.insts b = [i] ∧ f.layout.lastInst b = some i ∧
      ∃ t, f.branchOf (f.instData i) = some t := by
  have hb : b ∈ f.layout.blocks := Layout.mem_blocks_of_mem_insts hi
  have hne : b ≠ exit := by
    rintro rfl
    rw [h.exit_empty] at hi
    exact List.not_mem_nil hi
  obtain ⟨j, t, hinsts, hlast, hbr⟩ := h.insts_eq hb hne
  rw [hinsts] at hi
  obtain rfl := List.mem_singleton.mp hi
  exact ⟨hinsts, hlast, t, hbr⟩

theorem isTerminator (h : Skeleton f entry exit) (hi : i ∈ f.layout.insts b) :
    (f.instData i).opcode.isTerminator = true := by
  obtain ⟨-, -, t, ht⟩ := h.lastInst_of_mem hi
  exact InstructionData.isTerminator_of_isBranch (InstructionData.isBranch_of_branchOf ht)

end Skeleton

/-- The calls of the branch of a block pass the arguments of that branch. -/
theorem Function.callArgs_of_branch {f : Function} {b : Block} {i : Inst}
    (hi : f.layout.lastInst b = some i) :
    f.callArgs i = ((f.branch b).map fun t => t.targets.flatMap BlockCall.args).getD [] := by
  rw [callArgs, destinations, branch, hi, Option.bind_some]
  cases f.branchOf (f.instData i) <;> rfl

/-- The invariant holds of the skeleton, with no condition settled and no value recorded. -/
theorem Setting.valid_start (S : Setting) : Valid S (fun _ => False) S.start ∅ where
  frame := Keeps.refl _ _
  ends b before i after hsplit _ := by
    have hi : i ∈ S.start.layout.insts b := by rw [hsplit]; simp
    have hone := (S.skeleton.lastInst_of_mem hi).1
    rw [hsplit, List.append_eq_singleton_iff] at hone
    refine ⟨?_, .inl hi⟩
    rcases hone with ⟨-, h⟩ | ⟨-, h⟩
    · exact (List.cons.inj h).2
    · exact absurd h (List.cons_ne_nil _ _)
  uses b before i after hsplit v hv := by
    have hi : i ∈ S.start.layout.insts b := by rw [hsplit]; simp
    obtain ⟨-, hlast, t, ht⟩ := S.skeleton.lastInst_of_mem hi
    rcases hv with hv | ⟨-, hsettled⟩
    · -- the skeleton passes no arguments
      have hnone := S.skeleton.noArgs b (Layout.mem_blocks_of_mem_insts hi)
      rw [Function.callArgs_of_branch hlast] at hv
      cases hbranch : S.start.branch b with
      | none => simp [hbranch] at hv
      | some t' =>
          simp only [hbranch, Option.map_some, Option.getD_some, List.mem_flatMap] at hv
          obtain ⟨c, hc, hv⟩ := hv
          rw [hnone t' hbranch c hc] at hv
          exact absurd hv List.not_mem_nil
    · exact (hsettled (S.skeleton.isTerminator hi)).elim
  results_lt b i hi hacc := by
    have hterm := S.skeleton.isTerminator hi
    rw [Opcode.isTerminator_of_accessesMemory hacc] at hterm
    cases hterm
  safe b before i after hsplit hacc := by
    have hi : i ∈ S.start.layout.insts b := by rw [hsplit]; simp
    have hterm := S.skeleton.isTerminator hi
    rw [Opcode.isTerminator_of_accessesMemory hacc] at hterm
    cases hterm
  recorded b tvs h := by
    rw [AList.lookup_empty] at h
    cases h
  stocked tvs h := by
    rw [AList.lookup_empty] at h
    cases h

end Clir
