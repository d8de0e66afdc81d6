import Clir.Ir.Cursor
import Clir.Ir.FlowGraph

set_option autoImplicit false

/-! # What the cursor commands do

One rule per command, in the situations in which it does not panic. The rules say which function
the command leaves, and the lemmas on the edits say what that changes: the layout, the data flow
graph, and the branch that ends each block.
-/

open Clir in
/-- The world with another function. -/
def World.withFunc {δ : Type} (w : World (State δ)) (f : Function) : World (State δ) :=
  { w with mem := { w.mem with func := f } }

open Clir in
/-- The world with the cursor elsewhere. -/
def World.withPos {δ : Type} (w : World (State δ)) (p : CursorPosition) : World (State δ) :=
  { w with mem := { w.mem with pos := p } }

namespace Clir

open Cmd

section World

variable {δ : Type} (w : World (State δ)) (f g : Function) (p q : CursorPosition)

@[simp] theorem withFunc_func : (w.withFunc f).mem.func = f := rfl
@[simp] theorem withFunc_pos : (w.withFunc f).mem.pos = w.mem.pos := rfl
@[simp] theorem withFunc_locals : (w.withFunc f).mem.locals = w.mem.locals := rfl
@[simp] theorem withFunc_draws : (w.withFunc f).draws = w.draws := rfl
@[simp] theorem withPos_func : (w.withPos p).mem.func = w.mem.func := rfl
@[simp] theorem withPos_pos : (w.withPos p).mem.pos = p := rfl
@[simp] theorem withPos_locals : (w.withPos p).mem.locals = w.mem.locals := rfl
@[simp] theorem withPos_draws : (w.withPos p).draws = w.draws := rfl

end World

namespace Cursor

variable {δ : Type} {w : World (State δ)} {E : Halt → World (State δ) → Prop}

/-! ## Reading and writing the state -/

@[simp] theorem runs_func {Q : Function → World (State δ) → Prop} :
    Runs func w Q E ↔ Q w.mem.func w := Iff.rfl

@[simp] theorem runs_setFunc {Q : Unit → World (State δ) → Prop} (f : Function) :
    Runs (setFunc f) w Q E ↔ Q () (w.withFunc f) := Iff.rfl

@[simp] theorem runs_position {Q : CursorPosition → World (State δ) → Prop} :
    Runs position w Q E ↔ Q w.mem.pos w := Iff.rfl

@[simp] theorem runs_setPosition {Q : Unit → World (State δ) → Prop} (p : CursorPosition) :
    Runs (setPosition p) w Q E ↔ Q () (w.withPos p) := Iff.rfl

@[simp] theorem runs_new {Q : Unit → World (State δ) → Prop} :
    Runs Cursor.new w Q E ↔ Q () (w.withPos .nowhere) := Iff.rfl

@[simp] theorem runs_makeBlock {Q : Block → World (State δ) → Prop} :
    Runs makeBlock w Q E ↔
      Q w.mem.func.dfg.blocks.len (w.withFunc w.mem.func.makeBlock) := Iff.rfl

@[simp] theorem runs_appendBlockParam {Q : Value → World (State δ) → Prop} (b : Block)
    (ty : ClifType) :
    Runs (appendBlockParam b ty) w Q E ↔
      Q w.mem.func.dfg.values.len (w.withFunc (w.mem.func.appendBlockParam b ty)) := Iff.rfl

@[simp] theorem runs_createJumpTable {Q : JumpTable → World (State δ) → Prop}
    (t : JumpTableData) :
    Runs (createJumpTable t) w Q E ↔
      Q w.mem.func.dfg.jumpTables.len (w.withFunc (w.mem.func.createJumpTable t)) := Iff.rfl

/-! ## Blocks -/

theorem runs_insertBlock_nowhere {Q : Unit → World (State δ) → Prop} {b : Block}
    (hpos : w.mem.pos = .nowhere) (hlt : b < w.mem.func.dfg.blocks.len)
    (hb : b ∉ w.mem.func.layout.blocks) :
    Runs (insertBlock b) w Q E ↔
      Q () ((w.withFunc (w.mem.func.appendBlock b hlt hb)).withPos (.after b)) := by
  unfold insertBlock
  rw [runs_bind, runs_position, hpos]
  simp only [runs_bind, appendBlock, runs_func, dif_pos (And.intro hlt hb), runs_setFunc,
    runs_setPosition]

theorem runs_insertBlock_after {Q : Unit → World (State δ) → Prop} {a b : Block}
    (hpos : w.mem.pos = .after a) (hlt : b < w.mem.func.dfg.blocks.len)
    (hb : b ∉ w.mem.func.layout.blocks) (ha : a ∈ w.mem.func.layout.blocks) :
    Runs (insertBlock b) w Q E ↔
      Q () ((w.withFunc (w.mem.func.insertBlockAfter b a hlt hb ha)).withPos (.after b)) := by
  unfold insertBlock
  rw [runs_bind, runs_position, hpos]
  simp only [runs_bind, insertBlockAfter, runs_func, dif_pos (And.intro hlt hb), dif_pos ha,
    runs_setFunc, runs_setPosition]

theorem runs_removeBlock {Q : Unit → World (State δ) → Prop} {b : Block}
    (hb : b ∈ w.mem.func.layout.blocks) (hempty : w.mem.func.layout.insts b = []) :
    Runs (removeBlock b) w Q E ↔ Q () (w.withFunc (w.mem.func.removeBlock b hempty)) := by
  unfold removeBlock
  simp only [runs_bind, runs_func, if_pos hb, dif_pos hempty, runs_setFunc]

theorem runs_gotoBottom {Q : Unit → World (State δ) → Prop} {b : Block}
    (hb : b ∈ w.mem.func.layout.blocks) :
    Runs (gotoBottom b) w Q E ↔ Q () (w.withPos (.after b)) := by
  unfold gotoBottom
  simp only [runs_bind, runs_func, if_pos hb, runs_setPosition]

theorem runs_gotoInst {Q : Unit → World (State δ) → Prop} {i : Inst} {b : Block}
    (hi : i ∈ w.mem.func.layout.insts b) :
    Runs (gotoInst i) w Q E ↔ Q () (w.withPos (.at_ i)) := by
  unfold gotoInst
  simp only [runs_bind, runs_func, Layout.instBlock_eq_some hi, Option.isSome_some, if_true,
    runs_setPosition]

end Cursor

/-! ## Instructions at the end of a block -/

namespace Function

theorem new_inst_notMem (f : Function) (b : Block) : f.dfg.insts.len ∉ f.layout.insts b :=
  fun h => lt_irrefl _ (f.insts_lt b _ h)

/-- A new instruction at the end of a block. -/
def pushInst (f : Function) (b : Block) (data : InstructionData) (tys : List ClifType)
    (hb : b ∈ f.layout.blocks) : Function :=
  (f.makeInst data tys).appendInst f.dfg.insts.len b (Nat.lt_succ_self _) hb
    f.new_inst_notMem

variable {f : Function} {b c : Block} {data : InstructionData} {tys : List ClifType}
  {hb : b ∈ f.layout.blocks}

@[simp] theorem pushInst_blocks :
    (f.pushInst b data tys hb).layout.blocks = f.layout.blocks := rfl

theorem pushInst_insts_self :
    (f.pushInst b data tys hb).layout.insts b = f.layout.insts b ++ [f.dfg.insts.len] := by
  simp [pushInst, appendInst, setInsts, Layout.setInsts, makeInst, withDfg]

theorem pushInst_insts_of_ne (h : c ≠ b) :
    (f.pushInst b data tys hb).layout.insts c = f.layout.insts c := by
  simp [pushInst, appendInst, setInsts, Layout.setInsts, makeInst, withDfg, h]

@[simp] theorem pushInst_dfg_insts :
    (f.pushInst b data tys hb).dfg.insts = f.dfg.insts.push data := rfl

@[simp] theorem pushInst_dfg_blocks : (f.pushInst b data tys hb).dfg.blocks = f.dfg.blocks := rfl

@[simp] theorem pushInst_jumpTables :
    (f.pushInst b data tys hb).dfg.jumpTables = f.dfg.jumpTables := rfl

@[simp] theorem pushInst_values_nil :
    (f.pushInst b data [] hb).dfg.values = f.dfg.values := rfl

/-- Taking the last instruction of a block off. -/
theorem removeInst_last {i : Inst} (hlast : f.layout.lastInst b = some i)
    (hi : i ∈ f.layout.insts b) :
    (f.removeInst i b hi).layout.insts b = (f.layout.insts b).dropLast := by
  obtain ⟨l, hl⟩ : ∃ l, f.layout.insts b = l ++ [i] := by
    obtain ⟨l, hl⟩ := List.getLast?_eq_some_iff.mp hlast
    exact ⟨l, hl⟩
  have hnotin : i ∉ l := by
    have := f.layout.insts_nodup b
    rw [hl] at this
    exact fun h => (List.nodup_append.mp this).2.2 i h i (by simp) rfl
  have : (f.removeInst i b hi).layout.insts b = (f.layout.insts b).erase i := by
    simp [removeInst, setInsts, Layout.setInsts]
  rw [this, hl, List.erase_append_right _ hnotin]
  simp

theorem removeInst_of_ne {i : Inst} (hi : i ∈ f.layout.insts b) (h : c ≠ b) :
    (f.removeInst i b hi).layout.insts c = f.layout.insts c := by
  simp [removeInst, setInsts, Layout.setInsts, h]

@[simp] theorem removeInst_blocks {i : Inst} (hi : i ∈ f.layout.insts b) :
    (f.removeInst i b hi).layout.blocks = f.layout.blocks := rfl

@[simp] theorem removeInst_dfg {i : Inst} (hi : i ∈ f.layout.insts b) :
    (f.removeInst i b hi).dfg = f.dfg := rfl

end Function

namespace Cursor

variable {δ : Type} {w : World (State δ)} {E : Halt → World (State δ) → Prop}

theorem runs_appendInst {Q : Unit → World (State δ) → Prop} {i : Inst} {b : Block}
    (hlt : i < w.mem.func.dfg.insts.len) (hb : b ∈ w.mem.func.layout.blocks)
    (hi : ∀ c, i ∉ w.mem.func.layout.insts c) :
    Runs (appendInst i b) w Q E ↔ Q () (w.withFunc (w.mem.func.appendInst i b hlt hb hi)) := by
  unfold appendInst
  rw [runs_bind, runs_func, dif_pos ⟨hlt, Layout.instBlock_eq_none.mpr hi⟩, dif_pos hb,
    runs_setFunc]

theorem runs_build_after {Q : Inst → World (State δ) → Prop} {b : Block}
    {data : InstructionData} {tys : List ClifType} (hpos : w.mem.pos = .after b)
    (hb : b ∈ w.mem.func.layout.blocks) :
    Runs (build data tys) w Q E ↔
      Q w.mem.func.dfg.insts.len (w.withFunc (w.mem.func.pushInst b data tys hb)) := by
  unfold build insertInst
  simp only [runs_bind, runs_func, runs_setFunc, runs_position, withFunc_pos, hpos, runs_pure]
  exact runs_appendInst (w := w.withFunc (w.mem.func.makeInst data tys)) (Nat.lt_succ_self _) hb
    w.mem.func.new_inst_notMem

/-- A branch has no results, whatever its controlling type. -/
theorem runs_ins_branch {Q : Inst → World (State δ) → Prop} {b : Block}
    {data : InstructionData} (hdata : data.isBranch = true) (hpos : w.mem.pos = .after b)
    (hb : b ∈ w.mem.func.layout.blocks) :
    Runs (ins data) w Q E ↔
      Q w.mem.func.dfg.insts.len (w.withFunc (w.mem.func.pushInst b data [] hb)) := by
  have htys : ∀ ctrl, data.opcode.resultTypes ctrl = some [] := by
    intro ctrl
    cases data <;> first | rfl | simp [InstructionData.isBranch] at hdata
  unfold ins insTyped
  simp only [runs_bind, runs_func, htys]
  exact runs_build_after hpos hb

/-- `remove_inst` on the last instruction of a block. -/
theorem runs_removeInst_last {Q : Inst → World (State δ) → Prop} {b : Block} {i : Inst}
    (hpos : w.mem.pos = .at_ i) (hi : i ∈ w.mem.func.layout.insts b)
    (hlast : w.mem.func.layout.lastInst b = some i) :
    Runs removeInst w Q E ↔
      Q i ((w.withPos (.after b)).withFunc (w.mem.func.removeInst i b hi)) := by
  have hnext : ListEdit.next i (w.mem.func.layout.insts b) = none := by
    obtain ⟨l, hl⟩ := List.getLast?_eq_some_iff.mp hlast
    have hnotin : i ∉ l := by
      have := w.mem.func.layout.insts_nodup b
      rw [hl] at this
      exact fun h => (List.nodup_append.mp this).2.2 i h i (by simp) rfl
    rw [hl, ListEdit.next_eq hnotin]
    rfl
  have hblock := Layout.instBlock_eq_some hi
  unfold removeInst nextInst removeInstFromLayout
  simp only [runs_bind, runs_func, runs_position, hpos, hblock, hnext, runs_setPosition,
    runs_pure, withPos_func]
  split
  · rename_i c hc
    obtain rfl : c = b := by
      rw [hblock, Option.some.injEq] at hc
      exact hc.symm
    simp only [runs_setFunc]
  · rename_i hc
    rw [hblock] at hc
    exact absurd hc (Option.some_ne_none b)

end Cursor

end Clir
