import Clir.Gen.Keeps
import Clir.Lib.Ensures

set_option autoImplicit false

/-! # Inserting instructions

`Emitted f g b before after data tys` says that `g` is `f` with a new instruction in block `b`,
between the instructions `before` and `after`. It is what the instruction builder does, wherever
the cursor stands, and such an edit keeps everything that was there.
-/

namespace Clir

open Cmd Cursor

/-! ## The results of a new instruction -/

namespace Function

theorem pushResults_len (values : PrimaryMap ValueData) (i : Inst) (num : ℕ)
    (tys : List ClifType) : (pushResults values i num tys).len = values.len + tys.length := by
  induction tys generalizing values num with
  | nil => rfl
  | cons ty tys ih =>
      rw [pushResults, ih, PrimaryMap.push_len, List.length_cons]
      omega

theorem pushResults_get_of_lt {values : PrimaryMap ValueData} {v : ℕ} (i : Inst) (num : ℕ)
    (tys : List ClifType) (h : v < values.len) :
    (pushResults values i num tys).get v = values.get v := by
  induction tys generalizing values num with
  | nil => rfl
  | cons ty tys ih =>
      rw [pushResults, ih _ (Nat.lt_succ_of_lt h), PrimaryMap.push_get_of_lt _ _ h]

theorem pushResults_get_new {values : PrimaryMap ValueData} (i : Inst) (num : ℕ)
    {tys : List ClifType} {k : ℕ} {ty : ClifType} (h : tys[k]? = some ty) :
    (pushResults values i num tys).get (values.len + k) = ⟨ty, .result i (num + k)⟩ := by
  induction tys generalizing values num k with
  | nil => simp at h
  | cons t tys ih =>
      rw [pushResults]
      cases k with
      | zero =>
          obtain rfl : t = ty := by simpa using h
          rw [pushResults_get_of_lt _ _ _ (Nat.lt_succ_self _)]
          exact PrimaryMap.push_get_self _ _
      | succ k =>
          have := @ih (values.push ⟨t, .result i num⟩) (num + 1) k (by simpa using h)
          rw [PrimaryMap.push_len] at this
          rw [show values.len + (k + 1) = values.len + 1 + k by omega, this,
            show num + 1 + k = num + (k + 1) by omega]

theorem branchOf_eq_none {f : Function} {d : InstructionData} (h : d.isBranch = false) :
    f.branchOf d = none := by
  cases d <;> first | rfl | simp [InstructionData.isBranch] at h

/-- An instruction that does not end a block is no branch. -/
theorem isBranch_eq_false {d : InstructionData} (h : d.opcode.isTerminator = false) :
    d.isBranch = false := by
  cases d <;> first | rfl | simp [InstructionData.opcode, Opcode.isTerminator] at h

theorem tableOf_eq_none {f : Function} {b : Block} (h : f.branch b = none) :
    f.tableOf b = none := by
  cases hk : f.tableOf b with
  | none => rfl
  | some k =>
      obtain ⟨i, v, hi, hdata⟩ := tableOf_eq_some.mp hk
      simp [branch, hi, hdata, branchOf] at h

end Function

/-- `g` is `f` with a new instruction of block `b`, between `before` and `after`. -/
structure Emitted (f g : Function) (b : Block) (before after : List Inst)
    (data : InstructionData) (tys : List ClifType) : Prop where
  split : f.layout.insts b = before ++ after
  insts_self : g.layout.insts b = before ++ f.dfg.insts.len :: after
  insts_other : ∀ c ≠ b, g.layout.insts c = f.layout.insts c
  blocks : g.layout.blocks = f.layout.blocks
  dfg : g.dfg = (f.makeInst data tys).dfg
  header : g.header = f.header

namespace Emitted

variable {f g : Function} {b c : Block} {before after : List Inst} {data : InstructionData}
  {tys : List ClifType} {i : Inst} {v : Value}

section

variable (h : Emitted f g b before after data tys)
include h

theorem name : g.name = f.name := congrArg Prod.fst h.header

theorem signature : g.signature = f.signature := congrArg (fun x => x.2.1) h.header

theorem sizedStackSlots : g.sizedStackSlots = f.sizedStackSlots :=
  congrArg (fun x => x.2.2.1) h.header

theorem extFuncs : g.extFuncs = f.extFuncs := congrArg (fun x => x.2.2.2) h.header

theorem insts_len : g.dfg.insts.len = f.dfg.insts.len + 1 := by
  rw [h.dfg]
  rfl

theorem instData_new : g.instData f.dfg.insts.len = data := by
  rw [Function.instData, h.dfg]
  exact PrimaryMap.push_get_self _ _

theorem instData_old (hi : i < f.dfg.insts.len) : g.instData i = f.instData i := by
  rw [Function.instData, h.dfg]
  exact PrimaryMap.push_get_of_lt _ _ hi

theorem results_new :
    g.dfg.results f.dfg.insts.len = List.range' f.dfg.values.len tys.length := by
  rw [h.dfg]
  exact Function.update_self _ _ _

theorem results_old (hi : i < f.dfg.insts.len) : g.dfg.results i = f.dfg.results i := by
  rw [h.dfg]
  exact Function.update_of_ne (Nat.ne_of_lt hi) _ _

theorem values_len : g.dfg.values.len = f.dfg.values.len + tys.length := by
  rw [h.dfg]
  exact Function.pushResults_len _ _ _ _

theorem values_old (hv : v < f.dfg.values.len) : g.dfg.values.get v = f.dfg.values.get v := by
  rw [h.dfg]
  exact Function.pushResults_get_of_lt _ _ _ hv

theorem values_new {k : ℕ} {ty : ClifType} (hk : tys[k]? = some ty) :
    g.dfg.values.get (f.dfg.values.len + k) = ⟨ty, .result f.dfg.insts.len k⟩ := by
  rw [h.dfg]
  have := @Function.pushResults_get_new f.dfg.values f.dfg.insts.len 0 _ _ _ hk
  rwa [Nat.zero_add] at this

/-- The results have the types that the instruction was made with. -/
theorem resultTypes_new : (g.dfg.results f.dfg.insts.len).map g.valueType = tys := by
  rw [h.results_new]
  refine List.ext_getElem? fun k => ?_
  rw [List.getElem?_map]
  rcases Nat.lt_or_ge k tys.length with hk | hk
  · rw [List.getElem?_range' hk, Nat.one_mul, List.getElem?_eq_getElem hk, Option.map_some]
    exact congrArg (fun x => some (ValueData.ty x)) (h.values_new (List.getElem?_eq_getElem hk))
  · rw [List.getElem?_eq_none hk, List.getElem?_eq_none (by simpa using hk), Option.map_none]

theorem blockParams (c : Block) : g.blockParams c = f.blockParams c := by
  rw [Function.blockParams, h.dfg]
  rfl

theorem insts_subset (c : Block) : f.layout.insts c ⊆ g.layout.insts c := by
  by_cases hc : c = b
  · subst hc
    rw [h.split, h.insts_self]
    exact List.append_subset.mpr ⟨List.subset_append_left _ _,
      List.Subset.trans (List.subset_cons_self _ _) (List.subset_append_right _ _)⟩
  · rw [h.insts_other c hc]
    exact List.Subset.refl _

/-- A place of the new layout is the new instruction or a place of the old layout. -/
theorem split_cases {p q : List Inst} (hs : g.layout.insts c = p ++ i :: q) :
    c = b ∧ i = f.dfg.insts.len ∧ p = before ∨
      i < f.dfg.insts.len ∧ ∃ p' q', f.layout.insts c = p' ++ i :: q' ∧ p' ⊆ p := by
  by_cases hc : c = b
  · subst hc
    rw [h.insts_self] at hs
    by_cases hi : i = f.dfg.insts.len
    · subst hi
      have hnodup := g.layout.insts_nodup c
      rw [h.insts_self] at hnodup
      exact .inl ⟨rfl, rfl, (ListEdit.split_unique hnodup hs).1.symm⟩
    · obtain ⟨p', q', hsplit, hsub⟩ := ListEdit.exists_split_of_insert hs hi
      have hold : f.layout.insts c = p' ++ i :: q' := h.split.trans hsplit
      exact .inr ⟨f.insts_lt c i (by rw [hold]; simp), p', q', hold, hsub⟩
  · rw [h.insts_other c hc] at hs
    exact .inr ⟨f.insts_lt c i (by rw [hs]; simp), p, q, hs, List.Subset.refl _⟩

theorem destinations (d : InstructionData) : g.destinations d = f.destinations d := by
  have hbranch : g.branchOf d = f.branchOf d := Function.branchOf_congr (by rw [h.dfg]; rfl) d
  rw [Function.destinations, hbranch]
  rfl

theorem isResult_new {k : ℕ} {ty : ClifType} (hk : tys[k]? = some ty) :
    g.IsResult (f.dfg.values.len + k) f.dfg.insts.len := by
  have hlt : k < tys.length := (List.getElem?_eq_some_iff.mp hk).1
  refine ⟨?_, k, by rw [h.values_new hk], ?_⟩
  · rw [h.values_len]
    exact Nat.add_lt_add_left hlt _
  · rw [h.results_new, List.getElem?_range' hlt, Nat.one_mul]

theorem lastInst_of_ne (hc : c ≠ b) : g.layout.lastInst c = f.layout.lastInst c := by
  rw [Layout.lastInst, h.insts_other c hc]
  rfl

theorem lastInst_self (hafter : after ≠ []) :
    g.layout.lastInst b = f.layout.lastInst b := by
  obtain ⟨l, i, rfl⟩ := List.eq_nil_or_concat after |>.resolve_left hafter
  rw [Layout.lastInst, Layout.lastInst, h.split, h.insts_self, List.concat_eq_append,
    ← List.append_assoc, ← List.cons_append, ← List.append_assoc, List.getLast?_concat,
    List.getLast?_concat]

/-- The new instruction changes no branch: it is none itself, and it stands in front of the branch
of the block if there is one. -/
theorem branch (hdata : data.isBranch = false) (hend : after = [] → f.branch b = none)
    (c : Block) : g.branch c = f.branch c := by
  have hold : g.layout.lastInst c = f.layout.lastInst c → g.branch c = f.branch c := by
    intro hlast
    refine Function.branch_congr hlast fun i hi => ?_
    rw [h.instData_old (Function.lastInst_lt hi)]
    exact Function.branchOf_congr (by rw [h.dfg]; rfl) _
  by_cases hc : c = b
  · subst hc
    by_cases hafter : after = []
    · have hlast : g.layout.lastInst c = some f.dfg.insts.len := by
        rw [Layout.lastInst, h.insts_self, hafter, List.getLast?_concat]
      rw [hend hafter, Function.branch, hlast, Option.bind_some, h.instData_new,
        Function.branchOf_eq_none hdata]
    · exact hold (h.lastInst_self hafter)
  · exact hold (h.lastInst_of_ne hc)

theorem tableOf (hdata : data.isBranch = false) (hend : after = [] → f.branch b = none)
    (c : Block) : g.tableOf c = f.tableOf c := by
  by_cases hc : c = b ∧ after = []
  · obtain ⟨rfl, hafter⟩ := hc
    have hnone := hend hafter
    rw [Function.tableOf_eq_none hnone, Function.tableOf_eq_none]
    rw [h.branch hdata hend, hnone]
  · have hlast : g.layout.lastInst c = f.layout.lastInst c := by
      by_cases hcb : c = b
      · subst hcb
        exact h.lastInst_self fun hafter => hc ⟨rfl, hafter⟩
      · exact h.lastInst_of_ne hcb
    exact Function.tableOf_congr hlast fun i hi => h.instData_old (Function.lastInst_lt hi)

theorem keeps (n : ℕ) (hdata : data.isBranch = false) (hend : after = [] → f.branch b = none) :
    Keeps n f g where
  blocks := h.blocks
  shape c := by rw [Function.terminator_congr (h.branch hdata hend c)]
  tableOf := h.tableOf hdata hend
  tables_len := by rw [h.dfg]; rfl
  insts := h.insts_subset
  insts_len := by rw [h.dfg]; exact Nat.le_succ _
  opcode i hi := by rw [h.instData_old hi]
  pinned i hi _ := h.instData_old hi
  args_lt i hi hlt v hv := by
    rw [h.instData_old hi] at hv
    rw [h.values_len]
    exact (hlt v hv).trans_le (Nat.le_add_right _ _)
  argTypes i hi _ hlt := by
    rw [h.instData_old hi]
    exact List.map_congr_left fun v hv => congrArg ValueData.ty (h.values_old (hlt v hv))
  results i hi := h.results_old hi
  values_len := by rw [h.values_len]; exact Nat.le_add_right _ _
  types v hv := congrArg ValueData.ty (h.values_old hv)
  values v hv := h.values_old hv
  params c k v _ hk := by rwa [h.blockParams c]
  slots_len := by rw [h.sizedStackSlots]
  slots s _ := by rw [h.sizedStackSlots]

end

end Emitted

/-! ## The cursor -/

section State

variable {δ : Type} {I : Halt → State δ → Prop} {s : State δ}

theorem ensures_func {Q : Function → State δ → Prop} (h : Q s.func s) :
    Ensures I func s Q := ⟨fun _ => h⟩

theorem ensures_setFunc {Q : Unit → State δ → Prop} {f : Function}
    (h : Q () { s with func := f }) : Ensures I (setFunc f) s Q := ⟨fun _ => h⟩

theorem ensures_position {Q : CursorPosition → State δ → Prop} (h : Q s.pos s) :
    Ensures I position s Q := ⟨fun _ => h⟩

theorem ensures_setPosition {Q : Unit → State δ → Prop} {p : CursorPosition}
    (h : Q () { s with pos := p }) : Ensures I (setPosition p) s Q := ⟨fun _ => h⟩

theorem ensures_locals {Q : δ → State δ → Prop} (h : Q s.locals s) :
    Ensures I locals s Q := ⟨fun _ => h⟩

theorem ensures_setLocals {Q : Unit → State δ → Prop} {x : δ}
    (h : Q () { s with locals := x }) : Ensures I (setLocals x) s Q := ⟨fun _ => h⟩

section Continue

variable {α : Type} {Q : α → State δ → Prop}

theorem ensures_bind_func {k : Function → M δ α} (h : Ensures I (k s.func) s Q) :
    Ensures I (func >>= k) s Q := (ensures_func h).bind fun _ _ h => h

theorem ensures_bind_setFunc {k : Unit → M δ α} {f : Function}
    (h : Ensures I (k ()) { s with func := f } Q) : Ensures I (setFunc f >>= k) s Q :=
  (ensures_setFunc h).bind fun _ _ h => h

theorem ensures_bind_position {k : CursorPosition → M δ α} (h : Ensures I (k s.pos) s Q) :
    Ensures I (position >>= k) s Q := (ensures_position h).bind fun _ _ h => h

theorem ensures_bind_setPosition {k : Unit → M δ α} {p : CursorPosition}
    (h : Ensures I (k ()) { s with pos := p } Q) : Ensures I (setPosition p >>= k) s Q :=
  (ensures_setPosition h).bind fun _ _ h => h

theorem ensures_bind_locals {k : δ → M δ α} (h : Ensures I (k s.locals) s Q) :
    Ensures I (locals >>= k) s Q := (ensures_locals h).bind fun _ _ h => h

theorem ensures_bind_setLocals {k : Unit → M δ α} {x : δ}
    (h : Ensures I (k ()) { s with locals := x } Q) : Ensures I (setLocals x >>= k) s Q :=
  (ensures_setLocals h).bind fun _ _ h => h

end Continue

end State

section Cursor

variable {δ : Type} {s : State δ} {b : Block} {before after : List Inst} {I : Halt → State δ → Prop}

/-- The position in front of the instructions `after` at the end of a block. -/
def CursorPosition.inFrontOf (b : Block) : List Inst → CursorPosition
  | [] => .after b
  | i :: _ => .at_ i

/-- The cursor stands in block `b` between `before` and `after`. -/
structure Points (s : State δ) (b : Block) (before after : List Inst) : Prop where
  mem : b ∈ s.func.layout.blocks
  split : s.func.layout.insts b = before ++ after
  pos : s.pos = .inFrontOf b after

theorem emitted_pushInst {f : Function} {data : InstructionData} {tys : List ClifType}
    (hb : b ∈ f.layout.blocks) (hsplit : f.layout.insts b = before) :
    Emitted f (f.pushInst b data tys hb) b before [] data tys where
  split := by rw [hsplit, List.append_nil]
  insts_self := by rw [Function.pushInst_insts_self, hsplit]
  insts_other _ hc := Function.pushInst_insts_of_ne hc
  blocks := rfl
  dfg := rfl
  header := rfl

theorem emitted_insertInst {f : Function} {data : InstructionData} {tys : List ClifType} {i : Inst}
    (hsplit : f.layout.insts b = before ++ i :: after) (hi : i ∈ f.layout.insts b) :
    Emitted f ((f.makeInst data tys).insertInst f.dfg.insts.len i b (Nat.lt_succ_self _) hi
      f.new_inst_notMem) b before (i :: after) data tys where
  split := hsplit
  insts_self := by
    have hnotin : i ∉ before := by
      have := f.layout.insts_nodup b
      rw [hsplit] at this
      exact fun h => (List.nodup_append.mp this).2.2 i h i (by simp) rfl
    have : ((f.makeInst data tys).insertInst f.dfg.insts.len i b (Nat.lt_succ_self _) hi
        f.new_inst_notMem).layout.insts b =
          ListEdit.insertBefore i f.dfg.insts.len (f.layout.insts b) := by
      simp [Function.insertInst, Function.setInsts, Layout.setInsts, Function.makeInst,
        Function.withDfg]
    rw [this, hsplit, ListEdit.insertBefore_eq hnotin]
  insts_other c hc := by
    simp [Function.insertInst, Function.setInsts, Layout.setInsts, Function.makeInst,
      Function.withDfg, hc]
  blocks := rfl
  dfg := rfl
  header := rfl

theorem Points.emitted {s' : State δ} {data : InstructionData} {tys : List ClifType}
    (h : Points s b before after) (he : Emitted s.func s'.func b before after data tys)
    (hpos : s'.pos = s.pos) : Points s' b (before ++ [s.func.dfg.insts.len]) after where
  mem := by
    rw [he.blocks]
    exact h.mem
  split := by rw [he.insts_self, List.append_assoc, List.singleton_append]
  pos := hpos.trans h.pos

theorem runs_insertInstBefore {w : World (State δ)} {E : Halt → World (State δ) → Prop}
    {Q : Unit → World (State δ) → Prop} {i x : Inst} (hlt : i < w.mem.func.dfg.insts.len)
    (hi : ∀ c, i ∉ w.mem.func.layout.insts c) (hx : x ∈ w.mem.func.layout.insts b) :
    Runs (insertInstBefore i x) w Q E ↔
      Q () (w.withFunc (w.mem.func.insertInst i x b hlt hx hi)) := by
  have hblock := Layout.instBlock_eq_some hx
  unfold insertInstBefore
  rw [runs_bind, runs_func, dif_pos ⟨hlt, Layout.instBlock_eq_none.mpr hi⟩]
  split
  · rename_i c hc
    obtain rfl : b = c := Option.some.inj (hblock.symm.trans hc)
    rw [runs_setFunc]
  · rename_i hc
    exact absurd (hblock.symm.trans hc) (Option.some_ne_none b)

/-- The instruction builder inserts at the cursor and leaves it behind the new instruction. -/
theorem Points.build (h : Points s b before after) (data : InstructionData)
    (tys : List ClifType) :
    Ensures I (build data tys) s fun i s' => i = s.func.dfg.insts.len ∧
      Emitted s.func s'.func b before after data tys ∧ s'.pos = s.pos ∧ s'.locals = s.locals := by
  refine ⟨fun draws => ?_⟩
  cases after with
  | nil =>
      refine (runs_build_after (w := ⟨draws, s⟩) h.pos h.mem).mpr ⟨rfl, ?_, rfl, rfl⟩
      exact emitted_pushInst h.mem (by rw [h.split, List.append_nil])
  | cons i rest =>
      have hi : i ∈ s.func.layout.insts b := by rw [h.split]; simp
      have hpos : s.pos = .at_ i := h.pos
      unfold Cursor.build insertInst
      simp only [runs_bind, runs_func, runs_setFunc, runs_position, withFunc_pos, hpos, runs_pure]
      refine (runs_insertInstBefore
        (w := World.withFunc ⟨draws, s⟩ (s.func.makeInst data tys)) (Nat.lt_succ_self _)
        s.func.new_inst_notMem hi).mpr ⟨trivial, emitted_insertInst h.split hi, hpos, rfl⟩

/-! ### Wherever the cursor stands -/

/-- The instruction builder stops, or the cursor stands in a block and the instruction goes
there. -/
theorem ensures_build (data : InstructionData) (tys : List ClifType) :
    Ensures (fun _ _ => True) (build data tys) s fun i s' => i = s.func.dfg.insts.len ∧
      (∃ b before after, Emitted s.func s'.func b before after data tys) ∧
        s'.locals = s.locals := by
  by_cases h : ∃ b before after, Points s b before after
  · obtain ⟨b, before, after, h⟩ := h
    refine (h.build data tys).mono ?_
    rintro i s' ⟨hi, he, -, hlocals⟩
    exact ⟨hi, ⟨b, before, after, he⟩, hlocals⟩
  · refine ⟨fun draws => ?_⟩
    unfold Cursor.build insertInst
    simp only [runs_bind, runs_func, runs_setFunc, runs_position, withFunc_pos]
    cases hpos : s.pos with
    | nowhere => trivial
    | before b => trivial
    | at_ j =>
        -- an instruction of the layout has a place
        have hnone : s.func.layout.instBlock j = none := by
          cases hj : s.func.layout.instBlock j with
          | none => rfl
          | some b =>
              obtain ⟨before, after, hsplit⟩ :=
                List.append_of_mem (Layout.mem_insts_of_instBlock hj)
              exact absurd ⟨b, before, j :: after, ⟨Layout.mem_blocks_of_mem_insts
                (Layout.mem_insts_of_instBlock hj), hsplit, hpos⟩⟩ h
        change Runs (insertInstBefore _ j) _ _ _
        unfold insertInstBefore
        rw [runs_bind, runs_func]
        split
        · split
          · rename_i b hb
            exact absurd (hnone.symm.trans hb) (Option.some_ne_none b).symm
          · trivial
        · trivial
    | after b =>
        have hb : b ∉ s.func.layout.blocks := fun hb =>
          h ⟨b, s.func.layout.insts b, [], ⟨hb, (List.append_nil _).symm, hpos⟩⟩
        change Runs (appendInst _ b) _ _ _
        unfold appendInst
        rw [runs_bind, runs_func]
        split
        · rw [dif_neg (by exact hb)]
          trivial
        · trivial

theorem ensures_insTyped (data : InstructionData) (ctrl : ClifType) :
    Ensures (fun _ _ => True) (insTyped data ctrl) s fun i s' => i = s.func.dfg.insts.len ∧
      (∃ b before after tys, Emitted s.func s'.func b before after data tys) ∧
        s'.locals = s.locals := by
  unfold insTyped
  split
  · refine (ensures_build data _).mono ?_
    rintro i s' ⟨hi, ⟨b, before, after, he⟩, hlocals⟩
    exact ⟨hi, ⟨b, before, after, _, he⟩, hlocals⟩
  · exact Ensures.panicWith trivial

theorem ensures_ins (data : InstructionData) :
    Ensures (fun _ _ => True) (ins data) s fun i s' => i = s.func.dfg.insts.len ∧
      (∃ b before after tys, Emitted s.func s'.func b before after data tys) ∧
        s'.locals = s.locals := by
  unfold ins
  refine ensures_bind_func ?_
  exact ensures_insTyped data _

theorem ensures_firstResult (i : Inst) :
    Ensures (fun _ _ => True) (firstResult i) s fun v s' =>
      s' = s ∧ (s.func.dfg.results i).head? = some v := by
  unfold firstResult
  refine ensures_bind_func ?_
  split
  · rename_i v hv
    exact Ensures.pure ⟨rfl, hv⟩
  · exact Ensures.panicWith trivial

/-! ## Moving the cursor -/

variable {Q : Unit → State δ → Prop} {i : Inst}

theorem ensures_gotoInst (hi : i ∈ s.func.layout.insts b) (hQ : Q () { s with pos := .at_ i }) :
    Ensures I (gotoInst i) s Q :=
  ⟨fun draws => (runs_gotoInst (w := ⟨draws, s⟩) hi).mpr hQ⟩

theorem ensures_gotoBottom (hb : b ∈ s.func.layout.blocks) (hQ : Q () { s with pos := .after b }) :
    Ensures I (gotoBottom b) s Q :=
  ⟨fun draws => (runs_gotoBottom (w := ⟨draws, s⟩) hb).mpr hQ⟩

/-- The first insertion point of a block is in front of all its instructions. -/
theorem ensures_gotoFirstInsertionPoint (hb : b ∈ s.func.layout.blocks)
    (hQ : ∀ p, Points { s with pos := p } b [] (s.func.layout.insts b) →
      Q () { s with pos := p }) : Ensures I (gotoFirstInsertionPoint b) s Q := by
  unfold gotoFirstInsertionPoint
  refine ensures_bind_func ?_
  cases hl : s.func.layout.insts b with
  | nil =>
      rw [Layout.firstInst, hl]
      exact ensures_gotoBottom hb (hQ _ ⟨hb, rfl, by rw [hl]; rfl⟩)
  | cons i rest =>
      rw [Layout.firstInst, hl]
      exact ensures_gotoInst (by rw [hl]; exact List.mem_cons_self)
        (hQ _ ⟨hb, rfl, by rw [hl]; rfl⟩)

theorem ensures_gotoFirstInst (hi : s.func.layout.firstInst b = some i)
    (hQ : Q () { s with pos := .at_ i }) : Ensures I (gotoFirstInst b) s Q := by
  unfold gotoFirstInst
  refine ensures_bind_func ?_
  rw [hi]
  exact ensures_gotoInst (List.mem_of_mem_head? hi) hQ

theorem ensures_gotoLastInst (hi : s.func.layout.lastInst b = some i)
    (hQ : Q () { s with pos := .at_ i }) : Ensures I (gotoLastInst b) s Q := by
  unfold gotoLastInst
  refine ensures_bind_func ?_
  rw [hi]
  exact ensures_gotoInst (List.mem_of_mem_getLast? hi) hQ

end Cursor

end Clir
