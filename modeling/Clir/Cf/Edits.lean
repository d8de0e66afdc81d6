import Clir.Ir.CursorSpec
import Clir.Lib.Region

set_option autoImplicit false

/-! # How edits change the branches of a function

Frame lemmas: an edit changes the branch of the blocks it touches and no other. The one subtle
case is a jump table, which several branches may share; a new table leaves the existing branches
alone because they name tables that were made before (`TablesMade`), and an edited one changes a
single branch because no two of them name the same table (`TablesApart`).
-/

namespace Clir

namespace Function

variable {f g : Function} {b c : Block}

/-- The parts of a function that control flow construction never touches. -/
def header (f : Function) :=
  (f.name, f.signature, f.sizedStackSlots, f.extFuncs)

/-- The jump table that the branch of a block names. -/
def tableOf (f : Function) (b : Block) : Option JumpTable :=
  (f.layout.lastInst b).bind fun i =>
    match f.instData i with
    | .branchTable _ k => some k
    | _ => none

/-- The branches of a function name jump tables that exist. -/
def TablesMade (f : Function) : Prop :=
  ∀ b k, f.tableOf b = some k → k < f.dfg.jumpTables.len

/-- No two branches of a function name the same jump table. -/
def TablesApart (f : Function) : Prop :=
  ∀ b c k, f.tableOf b = some k → f.tableOf c = some k → b = c

theorem tableOf_eq_some {k : JumpTable} :
    f.tableOf b = some k ↔
      ∃ i v, f.layout.lastInst b = some i ∧ f.instData i = .branchTable v k := by
  unfold tableOf
  rw [Option.bind_eq_some_iff]
  constructor
  · rintro ⟨i, hi, h⟩
    cases hdata : f.instData i with
    | branchTable v j =>
        rw [hdata] at h
        exact ⟨i, v, hi, by rw [hdata, Option.some.inj h]⟩
    | _ => simp [hdata] at h
  · rintro ⟨i, v, hi, hdata⟩
    exact ⟨i, hi, by rw [hdata]⟩

theorem tableOf_congr (hlast : g.layout.lastInst b = f.layout.lastInst b)
    (h : ∀ i, f.layout.lastInst b = some i → g.instData i = f.instData i) :
    g.tableOf b = f.tableOf b := by
  unfold tableOf
  rw [hlast]
  cases hi : f.layout.lastInst b with
  | none => rfl
  | some i => simp [h i hi]

theorem TablesMade.update (hf : f.TablesMade) (b : Block)
    (hlen : f.dfg.jumpTables.len ≤ g.dfg.jumpTables.len)
    (hother : ∀ c ≠ b, ∀ k, g.tableOf c = some k → f.tableOf c = some k)
    (hself : ∀ k, g.tableOf b = some k → k < g.dfg.jumpTables.len) : g.TablesMade := by
  intro c k hk
  by_cases h : c = b
  · exact hself k (h ▸ hk)
  · exact (hf c k (hother c h k hk)).trans_le hlen

/-- One block gets another branch, with a table that no branch names. -/
theorem TablesApart.update (hf : f.TablesApart) (b : Block)
    (hother : ∀ c ≠ b, ∀ k, g.tableOf c = some k → f.tableOf c = some k)
    (hself : ∀ k, g.tableOf b = some k → ∀ c, f.tableOf c ≠ some k) : g.TablesApart := by
  intro c d k hc hd
  by_cases hcb : c = b <;> by_cases hdb : d = b
  · rw [hcb, hdb]
  · exact absurd (hother d hdb k hd) (hself k (hcb ▸ hc) d)
  · exact absurd (hother c hcb k hc) (hself k (hdb ▸ hd) c)
  · exact hf c d k (hother c hcb k hc) (hother d hdb k hd)

theorem branchOf_congr (h : g.dfg.jumpTables = f.dfg.jumpTables) (data : InstructionData) :
    g.branchOf data = f.branchOf data := by
  cases data <;> simp [branchOf, h]

theorem branch_congr (hlast : g.layout.lastInst b = f.layout.lastInst b)
    (h : ∀ i, f.layout.lastInst b = some i →
      g.branchOf (g.instData i) = f.branchOf (f.instData i)) :
    g.branch b = f.branch b := by
  unfold branch
  rw [hlast]
  cases hi : f.layout.lastInst b with
  | none => rfl
  | some i => simpa using h i hi

theorem terminator_congr (h : g.branch b = f.branch b) : g.terminator b = f.terminator b := by
  rw [terminator, terminator, h]

theorem lastInst_lt {i : Inst} (h : f.layout.lastInst b = some i) : i < f.dfg.insts.len :=
  f.insts_lt b i (List.mem_of_mem_getLast? h)

/-- The instruction behind a branch. -/
theorem exists_of_terminator {t : Terminator Block} (h : f.terminator b = some t) :
    ∃ i t', f.layout.lastInst b = some i ∧ f.branchOf (f.instData i) = some t' ∧
      t'.map BlockCall.block = t := by
  obtain ⟨t', ht', hmap⟩ := Option.map_eq_some_iff.mp h
  obtain ⟨i, hi, hbr⟩ := Option.bind_eq_some_iff.mp ht'
  exact ⟨i, t', hi, hbr, hmap⟩

theorem terminator_of_lastInst {i : Inst} (h : f.layout.lastInst b = some i) :
    f.terminator b = (f.branchOf (f.instData i)).map (Terminator.map BlockCall.block) := by
  simp [terminator, branch, h]

/-! ## New instructions -/

section PushInst

variable {data : InstructionData} {tys : List ClifType} {hb : b ∈ f.layout.blocks}

theorem pushInst_lastInst_self :
    (f.pushInst b data tys hb).layout.lastInst b = some f.dfg.insts.len := by
  rw [Layout.lastInst, pushInst_insts_self]
  simp

theorem pushInst_lastInst_of_ne (h : c ≠ b) :
    (f.pushInst b data tys hb).layout.lastInst c = f.layout.lastInst c := by
  rw [Layout.lastInst, pushInst_insts_of_ne h]
  rfl

theorem pushInst_instData_self :
    (f.pushInst b data tys hb).instData f.dfg.insts.len = data :=
  PrimaryMap.push_get_self _ _

theorem pushInst_instData_of_lt {i : Inst} (h : i < f.dfg.insts.len) :
    (f.pushInst b data tys hb).instData i = f.instData i :=
  PrimaryMap.push_get_of_lt _ _ h

theorem pushInst_branch_self : (f.pushInst b data tys hb).branch b = f.branchOf data := by
  rw [branch, pushInst_lastInst_self, Option.bind_some, pushInst_instData_self]
  exact branchOf_congr rfl data

theorem pushInst_branch_of_ne (h : c ≠ b) :
    (f.pushInst b data tys hb).branch c = f.branch c := by
  refine branch_congr (pushInst_lastInst_of_ne h) fun i hi => ?_
  rw [pushInst_instData_of_lt (lastInst_lt hi)]
  exact branchOf_congr rfl _

theorem pushInst_tableOf_self {k : JumpTable} :
    (f.pushInst b data tys hb).tableOf b = some k ↔ ∃ v, data = .branchTable v k := by
  rw [tableOf_eq_some, pushInst_lastInst_self]
  constructor
  · rintro ⟨i, v, hi, h⟩
    rw [← Option.some.inj hi, pushInst_instData_self] at h
    exact ⟨v, h⟩
  · rintro ⟨v, h⟩
    exact ⟨_, v, rfl, pushInst_instData_self.trans h⟩

theorem pushInst_tableOf_of_ne (h : c ≠ b) :
    (f.pushInst b data tys hb).tableOf c = f.tableOf c :=
  tableOf_congr (pushInst_lastInst_of_ne h) fun _ hi => pushInst_instData_of_lt (lastInst_lt hi)

theorem pushInst_tablesMade (hf : f.TablesMade)
    (hdata : ∀ v k, data = .branchTable v k → k < f.dfg.jumpTables.len) :
    (f.pushInst b data tys hb).TablesMade := by
  refine hf.update b (Nat.le_refl _) ?_ ?_
  · intro c hc k hk
    rwa [pushInst_tableOf_of_ne hc] at hk
  · intro k hk
    obtain ⟨v, hv⟩ := pushInst_tableOf_self.mp hk
    exact hdata v k hv

/-- A new branch at the end of a block keeps the tables apart if its own table is not in use. -/
theorem pushInst_tablesApart (hf : f.TablesApart)
    (hdata : ∀ v k, data = .branchTable v k → ∀ c, f.tableOf c ≠ some k) :
    (f.pushInst b data tys hb).TablesApart := by
  refine hf.update b ?_ ?_
  · intro c hc k hk
    rwa [pushInst_tableOf_of_ne hc] at hk
  · intro k hk
    obtain ⟨v, hv⟩ := pushInst_tableOf_self.mp hk
    exact hdata v k hv

end PushInst

/-! ## Removed instructions -/

theorem removeInst_branch_of_ne {i : Inst} (hi : i ∈ f.layout.insts b) (h : c ≠ b) :
    (f.removeInst i b hi).branch c = f.branch c := by
  refine branch_congr ?_ fun _ _ => rfl
  rw [Layout.lastInst, removeInst_of_ne hi h]
  rfl

theorem removeInst_tableOf_of_ne {i : Inst} (hi : i ∈ f.layout.insts b) (h : c ≠ b) :
    (f.removeInst i b hi).tableOf c = f.tableOf c := by
  refine tableOf_congr ?_ fun _ _ => rfl
  rw [Layout.lastInst, removeInst_of_ne hi h]
  rfl

/-! ## Jump tables -/

theorem createJumpTable_branch (hf : f.TablesMade) (t : JumpTableData) (b : Block) :
    (f.createJumpTable t).branch b = f.branch b := by
  refine branch_congr rfl fun i hi => ?_
  change (f.createJumpTable t).branchOf (f.instData i) = _
  cases hdata : f.instData i with
  | branchTable v k =>
      have hk := hf b k (tableOf_eq_some.mpr ⟨i, v, hi, hdata⟩)
      simp only [branchOf]
      rw [show (f.createJumpTable t).dfg.jumpTables = f.dfg.jumpTables.push t from rfl,
        PrimaryMap.push_get_of_lt _ _ hk]
  | _ => rfl

theorem createJumpTable_tablesMade (hf : f.TablesMade) (t : JumpTableData) :
    (f.createJumpTable t).TablesMade := fun b k hk => (hf b k hk).trans (Nat.lt_succ_self _)

/-- No branch names the table that is made next. -/
theorem TablesMade.fresh (hf : f.TablesMade) (b : Block) :
    f.tableOf b ≠ some f.dfg.jumpTables.len :=
  fun h => Nat.lt_irrefl _ (hf b _ h)

theorem setJumpTable_tablesMade (hf : f.TablesMade) (j : JumpTable) (t : JumpTableData) :
    (f.setJumpTable j t).TablesMade := fun b k hk => hf b k hk

theorem setJumpTable_branchOf (j : JumpTable) (t : JumpTableData) (data : InstructionData) :
    (f.setJumpTable j t).branchOf data =
      match data with
      | .branchTable v k =>
          if k = j then some (.brTable v t.defaultBlock t.table) else f.branchOf data
      | _ => f.branchOf data := by
  cases data with
  | branchTable v k =>
      simp only [branchOf]
      by_cases h : k = j
      · subst h
        simp [setJumpTable, withDfg]
      · rw [if_neg h]
        simp [setJumpTable, withDfg, PrimaryMap.set_get_of_ne _ _ h]
  | _ => rfl

end Function

end Clir
