import Clir.Cf.Construct
import Clir.Cf.Edits
import Mathlib.Data.List.Dedup

set_option autoImplicit false

/-! # Replacing a block refines graph substitution

`update_predecessor` and `update_successor` work instruction by instruction: they delete and
reinsert jumps and conditional branches, edit jump tables in place, and rebuild the branch of the
replaced block from its successor set. Here is what they amount to. `updatePredecessor_spec`:
every branch of the function has the replaced block renamed, however many predecessors there are
and however they share jump tables. `updateSuccessor_spec`: the branch of the replaced block moves
to the last block of the construct, with its destinations in increasing order, and the replaced
block leaves the layout. Together they substitute the construct for the block in the control flow
graph.
-/

namespace Clir

open Cmd Cursor Graph

/-- No block call of the branch of `b` has arguments. -/
def Function.NoArgs (f : Function) (b : Block) : Prop :=
  ∀ t, f.branch b = some t → ∀ c ∈ t.targets, c.args = []

/-- `f` differs from `f₀` only in the branches that end its blocks. -/
structure BranchEdit (f₀ f : Function) : Prop where
  blocks : f.layout.blocks = f₀.layout.blocks
  length : ∀ b, (f.layout.insts b).length = (f₀.layout.insts b).length
  dfgBlocks : f.dfg.blocks = f₀.dfg.blocks
  values : f.dfg.values = f₀.dfg.values
  header : f.header = f₀.header
  tables : f₀.TablesMade → f.TablesMade
  apart : f₀.TablesApart → f.TablesApart
  noArgs : ∀ b, f₀.NoArgs b → f.NoArgs b

theorem BranchEdit.refl (f : Function) : BranchEdit f f :=
  ⟨rfl, fun _ => rfl, rfl, rfl, rfl, id, id, fun _ => id⟩

theorem BranchEdit.trans {f g h : Function} (hfg : BranchEdit f g) (hgh : BranchEdit g h) :
    BranchEdit f h where
  blocks := hgh.blocks.trans hfg.blocks
  length b := (hgh.length b).trans (hfg.length b)
  dfgBlocks := hgh.dfgBlocks.trans hfg.dfgBlocks
  values := hgh.values.trans hfg.values
  header := hgh.header.trans hfg.header
  tables := hgh.tables ∘ hfg.tables
  apart := hgh.apart ∘ hfg.apart
  noArgs b := hgh.noArgs b ∘ hfg.noArgs b

/-! ## Delete and reinsert -/

section ReplaceLast

variable {f : Function} {b : Block} {i : Inst} {data : InstructionData}

theorem Function.removeInst_mem_blocks {c : Block} (hi : i ∈ f.layout.insts b)
    (hc : c ∈ f.layout.blocks) : c ∈ (f.removeInst i b hi).layout.blocks := hc

/-- The last instruction of a block replaced by a new one. -/
def Function.replaceLast (f : Function) (b : Block) (i : Inst) (hi : i ∈ f.layout.insts b)
    (data : InstructionData) : Function :=
  (f.removeInst i b hi).pushInst b data []
    (removeInst_mem_blocks hi (Layout.mem_blocks_of_mem_insts hi))

theorem Function.replaceLast_branch_self (hi : i ∈ f.layout.insts b) :
    (f.replaceLast b i hi data).branch b = f.branchOf data := by
  rw [replaceLast, pushInst_branch_self]
  exact branchOf_congr rfl data

theorem Function.replaceLast_tableOf_of_ne (hi : i ∈ f.layout.insts b) {c : Block} (h : c ≠ b) :
    (f.replaceLast b i hi data).tableOf c = f.tableOf c := by
  rw [replaceLast, pushInst_tableOf_of_ne h, removeInst_tableOf_of_ne hi h]

theorem Function.replaceLast_branch_of_ne (hi : i ∈ f.layout.insts b) {c : Block} (h : c ≠ b) :
    (f.replaceLast b i hi data).branch c = f.branch c := by
  rw [replaceLast, pushInst_branch_of_ne h, removeInst_branch_of_ne hi h]

theorem branchEdit_replaceLast (hlast : f.layout.lastInst b = some i)
    (hi : i ∈ f.layout.insts b) (hbranch : ∀ v k, data ≠ .branchTable v k)
    (hargs : ∀ t, f.branchOf data = some t → ∀ c ∈ t.targets, c.args = []) :
    BranchEdit f (f.replaceLast b i hi data) where
  blocks := rfl
  length c := by
    by_cases h : c = b
    · subst h
      have hpos := List.length_pos_of_mem hi
      rw [Function.replaceLast, Function.pushInst_insts_self, Function.removeInst_last hlast hi]
      simp only [List.length_append, List.length_dropLast, List.length_singleton]
      omega
    · rw [Function.replaceLast, Function.pushInst_insts_of_ne h,
        Function.removeInst_of_ne hi h]
  dfgBlocks := rfl
  values := rfl
  header := rfl
  tables hf := hf.update b (Nat.le_refl _)
    (fun _ hc _ hk => (Function.replaceLast_tableOf_of_ne hi hc).symm.trans hk)
    fun k hk => (Function.pushInst_tableOf_self.mp hk).elim fun v hv => absurd hv (hbranch v k)
  apart hf := hf.update b
    (fun _ hc _ hk => (Function.replaceLast_tableOf_of_ne hi hc).symm.trans hk)
    fun k hk => (Function.pushInst_tableOf_self.mp hk).elim fun v hv => absurd hv (hbranch v k)
  noArgs c hc t ht := by
    by_cases h : c = b
    · subst h
      rw [Function.replaceLast_branch_self hi] at ht
      exact hargs t ht
    · rw [Function.replaceLast_branch_of_ne hi h] at ht
      exact hc t ht

variable {δ : Type} {w : World (State δ)} {E : Halt → World (State δ) → Prop}

theorem runs_insJump {Q : Unit → World (State δ) → Prop} {d : Block}
    (hpos : w.mem.pos = .after b) (hb : b ∈ w.mem.func.layout.blocks) :
    Runs (insJump d) w Q E ↔
      Q () (w.withFunc (w.mem.func.pushInst b (.jump ⟨d, []⟩) [] hb)) := by
  rw [insJump, runs_bind, runs_ins_branch rfl hpos hb, runs_pure]

theorem runs_insBrif {Q : Unit → World (State δ) → Prop} {v : Value} {x y : Block}
    (hpos : w.mem.pos = .after b) (hb : b ∈ w.mem.func.layout.blocks) :
    Runs (insBrif v x y) w Q E ↔
      Q () (w.withFunc (w.mem.func.pushInst b (.brif v ⟨x, []⟩ ⟨y, []⟩) [] hb)) := by
  rw [insBrif, runs_bind, runs_ins_branch rfl hpos hb, runs_pure]

theorem runs_insBrTable {Q : Unit → World (State δ) → Prop} {v : Value} {k : JumpTable}
    (hpos : w.mem.pos = .after b) (hb : b ∈ w.mem.func.layout.blocks) :
    Runs (insBrTable v k) w Q E ↔
      Q () (w.withFunc (w.mem.func.pushInst b (.branchTable v k) [] hb)) := by
  rw [insBrTable, runs_bind, runs_ins_branch rfl hpos hb, runs_pure]

end ReplaceLast

/-! ## Predecessors -/

/-- Nothing was drawn and the local variables are as they were. -/
def Quiet {δ : Type} (w w' : World (State δ)) : Prop :=
  w'.draws = w.draws ∧ w'.mem.locals = w.mem.locals

/-- A branch with `R` renamed to `a`. -/
def Terminator.rename (R a : Block) (t : Terminator Block) : Terminator Block :=
  t.map (redirect R a)

theorem Terminator.rename_rename {R a : Block} (h : a ≠ R) (t : Terminator Block) :
    (t.rename R a).rename R a = t.rename R a := by
  rw [rename, rename, map_map]
  refine map_congr fun x _ => ?_
  by_cases hx : x = R
  · simp [hx, redirect_of_ne h]
  · simp [redirect_of_ne hx]

theorem Terminator.rename_eq_self {R a : Block} {t : Terminator Block} (h : R ∉ t.targets) :
    t.rename R a = t := by
  have : t.rename R a = t.map id :=
    map_congr fun x hx => redirect_of_ne fun e => h (e ▸ hx)
  rw [this]
  cases t <;> simp [map]

def Terminator.isTable : Terminator Block → Bool
  | brTable _ _ _ => true
  | _ => false

/-- The effect of redirecting one predecessor `P`: its branch is renamed, and so may be the
branches that share its jump table. -/
structure RedirectedAt (f₀ f : Function) (R a P : Block) : Prop where
  edit : BranchEdit f₀ f
  self : f.terminator P = (f₀.terminator P).map (Terminator.rename R a)
  others : ∀ c ≠ P, f.terminator c = f₀.terminator c ∨
    ∃ t, f₀.terminator c = some t ∧ t.isTable ∧ f.terminator c = some (t.rename R a)

theorem redirectedAt_replaceLast {f : Function} {R a P : Block} {i : Inst}
    {data : InstructionData} {t : Terminator Block} (hlast : f.layout.lastInst P = some i)
    (hi : i ∈ f.layout.insts P) (hbranch : ∀ v k, data ≠ .branchTable v k)
    (hargs : ∀ t, f.branchOf data = some t → ∀ c ∈ t.targets, c.args = [])
    (ht : f.terminator P = some t)
    (hdata : (f.branchOf data).map (Terminator.map BlockCall.block) = some (t.rename R a)) :
    RedirectedAt f (f.replaceLast P i hi data) R a P where
  edit := branchEdit_replaceLast hlast hi hbranch hargs
  self := by
    rw [Function.terminator, Function.replaceLast_branch_self, ht, hdata]
    rfl
  others c hc := .inl (Function.terminator_congr (Function.replaceLast_branch_of_ne hi hc))

theorem BlockCall.redirect_block (R a : Block) (c : BlockCall) :
    (c.redirect R a).block = Graph.redirect R a c.block := by
  unfold BlockCall.redirect
  split_ifs with h
  · simp [h]
  · rw [redirect_of_ne h]

theorem BlockCall.redirect_args (R a : Block) (c : BlockCall) :
    (c.redirect R a).args = c.args := by
  unfold BlockCall.redirect
  split_ifs <;> rfl

/-- The jump table of `update_predecessor`, every entry redirected. -/
def JumpTableData.redirect (R a : Block) (t : JumpTableData) : JumpTableData :=
  ⟨t.defaultBlock.redirect R a, t.table.map (·.redirect R a)⟩

section SetTable

variable {f : Function} {R a c : Block} {k : JumpTable}

/-- Redirecting a jump table renames exactly the branches that use it. -/
theorem setJumpTable_branch (f : Function) (R a : Block) (k : JumpTable) (c : Block) :
    (f.setJumpTable k ((f.dfg.jumpTables.get k).redirect R a)).branch c = f.branch c ∨
      ∃ v d cs, f.branch c = some (.brTable v d cs) ∧
        (f.setJumpTable k ((f.dfg.jumpTables.get k).redirect R a)).branch c =
          some (.brTable v (d.redirect R a) (cs.map (·.redirect R a))) := by
  cases hlast : f.layout.lastInst c with
  | none =>
      left
      have : (f.setJumpTable k ((f.dfg.jumpTables.get k).redirect R a)).layout.lastInst c =
        none := hlast
      simp [Function.branch, hlast, this]
  | some i =>
      have hbranch : ∀ g : Function, g.layout = f.layout → g.dfg.insts = f.dfg.insts →
          g.branch c = g.branchOf (f.instData i) := by
        intro g hlayout hinsts
        rw [Function.branch, hlayout, hlast, Option.bind_some, Function.instData, hinsts]
        rfl
      rw [hbranch (f.setJumpTable k _) rfl rfl, hbranch f rfl rfl, Function.setJumpTable_branchOf]
      cases hdata : f.instData i with
      | branchTable v j =>
          simp only [Function.branchOf]
          by_cases hj : j = k
          · subst hj
            exact .inr ⟨v, _, _, rfl, by simp [JumpTableData.redirect]⟩
          · exact .inl (by simp [hj])
      | _ => exact .inl rfl

theorem terminator_brTable_redirect (v : Value) (d : BlockCall) (cs : List BlockCall) :
    (Terminator.brTable v (d.redirect R a) (cs.map (·.redirect R a))).map BlockCall.block =
      ((Terminator.brTable v d cs).map BlockCall.block).rename R a := by
  simp [Terminator.rename, Terminator.map, BlockCall.redirect_block, Function.comp_def]

theorem setJumpTable_terminator (f : Function) (R a : Block) (k : JumpTable) (c : Block) :
    (f.setJumpTable k ((f.dfg.jumpTables.get k).redirect R a)).terminator c = f.terminator c ∨
      ∃ t, f.terminator c = some t ∧ t.isTable ∧
        (f.setJumpTable k ((f.dfg.jumpTables.get k).redirect R a)).terminator c =
          some (t.rename R a) := by
  rcases setJumpTable_branch f R a k c with h | ⟨v, d, cs, h, h'⟩
  · exact .inl (Function.terminator_congr h)
  · refine .inr ⟨(Terminator.brTable v d cs).map BlockCall.block, ?_, rfl, ?_⟩
    · rw [Function.terminator, h, Option.map_some]
    · rw [Function.terminator, h', Option.map_some, terminator_brTable_redirect]

theorem branchEdit_setJumpTable (f : Function) (R a : Block) (k : JumpTable) :
    BranchEdit f (f.setJumpTable k ((f.dfg.jumpTables.get k).redirect R a)) where
  blocks := rfl
  length _ := rfl
  dfgBlocks := rfl
  values := rfl
  header := rfl
  tables hf := Function.setJumpTable_tablesMade hf _ _
  apart hf := hf
  noArgs c hc t ht x hx := by
    rcases setJumpTable_branch f R a k c with h | ⟨v, d, cs, h, h'⟩
    · exact hc t (h ▸ ht) x hx
    · rw [h', Option.some.injEq] at ht
      subst ht
      have hx' : x ∈ ((Terminator.brTable v d cs).targets.map (·.redirect R a)) := by
        simpa [Terminator.targets] using hx
      obtain ⟨y, hy, rfl⟩ := List.mem_map.mp hx'
      rw [BlockCall.redirect_args]
      exact hc _ h y hy

theorem redirectedAt_setJumpTable {P : Block} {i : Inst} {v : Value}
    (hlast : f.layout.lastInst P = some i) (hdata : f.instData i = .branchTable v k) :
    RedirectedAt f (f.setJumpTable k ((f.dfg.jumpTables.get k).redirect R a)) R a P where
  edit := branchEdit_setJumpTable f R a k
  self := by
    have hlast' : (f.setJumpTable k ((f.dfg.jumpTables.get k).redirect R a)).layout.lastInst P =
      some i := hlast
    have hdata' : (f.setJumpTable k ((f.dfg.jumpTables.get k).redirect R a)).instData i =
      .branchTable v k := hdata
    rw [Function.terminator_of_lastInst hlast', Function.terminator_of_lastInst hlast, hdata',
      hdata, Function.setJumpTable_branchOf]
    simp only [if_true, Function.branchOf, Option.map_some]
    exact congrArg some (terminator_brTable_redirect v _ _)
  others c _ := setJumpTable_terminator f R a k c

end SetTable

section Predecessors

variable {δ : Type} {w : World (State δ)} {E : Halt → World (State δ) → Prop} {R a P : Block}

theorem runs_getBlockLastControlInstr {Q : Option InstructionData → World (State δ) → Prop}
    {i : Inst} (h : w.mem.func.layout.lastInst P = some i) :
    Runs (getBlockLastControlInstr P) w Q E ↔
      Q (some (w.mem.func.instData i)) (w.withPos (.at_ i)) := by
  unfold getBlockLastControlInstr
  rw [runs_bind, runs_func, h]
  simp only [runs_bind, runs_setPosition, runs_pure]

/-- One predecessor. A jump must lead to `R` and a conditional branch must have `R` as exactly one
of its arms; a jump table may name `R` any number of times. -/
theorem updatePredecessorOf_spec {t : Terminator Block}
    (ht : w.mem.func.terminator P = some t) (hjump : ∀ d, t = .jump d → d = R)
    (hbrif : ∀ v x y, t = .brif v x y → x ≠ y ∧ (x = R ∨ y = R)) :
    Runs (updatePredecessorOf a R P) w
      (fun _ w' => RedirectedAt w.mem.func w'.mem.func R a P ∧ Quiet w w') E := by
  obtain ⟨i, t', hlast, hbr, rfl⟩ := Function.exists_of_terminator ht
  have hi : i ∈ w.mem.func.layout.insts P := List.mem_of_mem_getLast? hlast
  have hmem := Function.removeInst_mem_blocks hi (Layout.mem_blocks_of_mem_insts hi)
  -- the world once the old branch is gone and the cursor stands behind it
  let w₁ := (w.withPos (.after P)).withFunc (w.mem.func.removeInst i P hi)
  unfold updatePredecessorOf
  rw [runs_bind, runs_getBlockLastControlInstr hlast, runs_bind, runs_unwrap_some]
  cases hdata : w.mem.func.instData i with
  | jump c =>
      rw [hdata, Function.branchOf, Option.some.injEq] at hbr
      subst hbr
      obtain rfl : c.block = R := hjump _ rfl
      simp only [runs_bind, runs_removeInst_last (w := w.withPos (.at_ i)) rfl hi hlast]
      refine (runs_insJump (w := w₁) rfl hmem).mpr ⟨?_, rfl, rfl⟩
      refine redirectedAt_replaceLast hlast hi (by simp) ?_ ht ?_
      · rintro _ ⟨⟩ x hx
        simp_all [Terminator.targets]
      · simp [Function.branchOf, Terminator.map, Terminator.rename]
  | brif v c d =>
      rw [hdata, Function.branchOf, Option.some.injEq] at hbr
      subst hbr
      obtain ⟨hne, hR⟩ := hbrif v c.block d.block rfl
      simp only [runs_bind, runs_removeInst_last (w := w.withPos (.at_ i)) rfl hi hlast]
      by_cases hc : c.block = R
      · rw [if_pos hc]
        refine (runs_insBrif (w := w₁) rfl hmem).mpr ⟨?_, rfl, rfl⟩
        refine redirectedAt_replaceLast hlast hi (by simp) ?_ ht ?_
        · rintro _ ⟨⟩ x hx
          rcases List.mem_pair.mp hx with rfl | rfl <;> rfl
        · have hd : d.block ≠ R := fun h => hne (hc.trans h.symm)
          simp [Function.branchOf, Terminator.map, Terminator.rename, hc, redirect_of_ne hd]
      · have hd : d.block = R := hR.resolve_left hc
        rw [if_neg hc, if_pos hd]
        refine (runs_insBrif (w := w₁) rfl hmem).mpr ⟨?_, rfl, rfl⟩
        refine redirectedAt_replaceLast hlast hi (by simp) ?_ ht ?_
        · rintro _ ⟨⟩ x hx
          rcases List.mem_pair.mp hx with rfl | rfl <;> rfl
        · simp [Function.branchOf, Terminator.map, Terminator.rename, hd, redirect_of_ne hc]
  | branchTable v k =>
      simp only [runs_bind, runs_func, runs_setFunc]
      exact ⟨redirectedAt_setJumpTable hlast hdata, rfl, rfl⟩
  | _ => simp [hdata, Function.branchOf] at hbr

/-- `f` is `f₀` with every branch renamed, except that the predecessors in `rest` may still be
waiting. Those among them that have been renamed already share a jump table with an earlier
one. -/
structure Redirecting (f₀ f : Function) (R a : Block) (rest : List Block) : Prop where
  edit : BranchEdit f₀ f
  terminator : ∀ b, f.terminator b = (f₀.terminator b).map (Terminator.rename R a) ∧
      (b ∈ rest → ∃ t, f₀.terminator b = some t ∧ t.isTable) ∨
    b ∈ rest ∧ f.terminator b = f₀.terminator b

theorem Redirecting.step {f₀ f f' : Function} {rest : List Block} (haR : a ≠ R)
    (h : Redirecting f₀ f R a (P :: rest)) (hP : P ∉ rest) (hstep : RedirectedAt f f' R a P) :
    Redirecting f₀ f' R a rest where
  edit := h.edit.trans hstep.edit
  terminator b := by
    -- a branch that shares its table with `P` may be renamed twice, which changes nothing
    have twice : ∀ o : Option (Terminator Block),
        (o.map (Terminator.rename R a)).map (Terminator.rename R a) =
          o.map (Terminator.rename R a) := by
      intro o
      cases o <;> simp [Terminator.rename_rename haR]
    by_cases hb : b = P
    · subst hb
      left
      refine ⟨?_, fun hmem => absurd hmem hP⟩
      rw [hstep.self]
      rcases h.terminator b with ⟨hren, -⟩ | ⟨-, hsame⟩
      · rw [hren, twice]
      · rw [hsame]
    -- another block changes only if its branch is on the same table
    · rcases hstep.others b hb with hsame | ⟨t, ht, htable, hren⟩
      · rw [hsame]
        rcases h.terminator b with ⟨hren, himp⟩ | ⟨hmem, heq⟩
        · exact .inl ⟨hren, fun hm => himp (List.mem_cons_of_mem _ hm)⟩
        · exact .inr ⟨(List.mem_cons.mp hmem).resolve_left hb, heq⟩
      · left
        rcases h.terminator b with ⟨hren', himp⟩ | ⟨hmem, heq⟩
        · refine ⟨?_, fun hm => himp (List.mem_cons_of_mem _ hm)⟩
          rw [hren, ← twice, ← hren', ht]
          rfl
        · rw [ht] at heq
          refine ⟨?_, fun _ => ⟨t, heq.symm, htable⟩⟩
          rw [hren, ← heq]
          rfl

theorem Redirecting.start {f : Function} {ps : List Block} (hps : ∀ b, f.Edge b R → b ∈ ps) :
    Redirecting f f R a ps where
  edit := .refl f
  terminator b := by
    by_cases hb : b ∈ ps
    · exact .inr ⟨hb, rfl⟩
    · refine .inl ⟨?_, fun h => absurd h hb⟩
      cases ht : f.terminator b with
      | none => rfl
      | some t =>
          have : R ∉ t.targets := fun h => hb (hps b ⟨t, ht, h⟩)
          rw [Option.map_some, Terminator.rename_eq_self this]

/-- The state of the loop: `ps` are the predecessors still to be redirected. -/
private structure PredLoop (w₀ : World (State δ)) (R a : Block) (ps : List (Inst × Block))
    (w : World (State δ)) : Prop where
  redirecting : Redirecting w₀.mem.func w.mem.func R a (ps.map Prod.snd)
  nodup : (ps.map Prod.snd).Nodup
  edge : ∀ p ∈ ps, w₀.mem.func.Edge p.2 R
  quiet : Quiet w₀ w

private theorem PredLoop.step {w₀ : World (State δ)} {p : Inst × Block}
    {ps : List (Inst × Block)} (haR : a ≠ R)
    (hbrif : ∀ b v x y, w₀.mem.func.terminator b = some (.brif v x y) → x ≠ y)
    (h : PredLoop w₀ R a (p :: ps) w) :
    Runs (updatePredecessorOf a R p.2) w (fun _ => PredLoop w₀ R a ps) E := by
  obtain ⟨t₀, ht₀, hR⟩ := h.edge p List.mem_cons_self
  obtain ⟨hp, hnodup⟩ := List.nodup_cons.mp h.nodup
  -- a branch that is not a table has not been touched before its turn
  have hcur : (w.mem.func.terminator p.2 = some t₀) ∨
      (t₀.isTable ∧ w.mem.func.terminator p.2 = some (t₀.rename R a)) := by
    rcases h.redirecting.terminator p.2 with ⟨hren, himp⟩ | ⟨-, hsame⟩
    · obtain ⟨t, ht, htable⟩ := himp (by simp)
      obtain rfl : t₀ = t := Option.some.inj (ht₀.symm.trans ht)
      exact .inr ⟨htable, by rw [hren, ht₀, Option.map_some]⟩
    · exact .inl (hsame.trans ht₀)
  have hspec : Runs (updatePredecessorOf a R p.2) w
      (fun _ w' => RedirectedAt w.mem.func w'.mem.func R a p.2 ∧ Quiet w w') E := by
    rcases hcur with hcur | ⟨htable, hcur⟩
    · refine updatePredecessorOf_spec hcur ?_ ?_
      · rintro d rfl
        exact (List.mem_singleton.mp hR).symm
      · rintro v x y rfl
        refine ⟨hbrif p.2 v x y ht₀, ?_⟩
        rcases List.mem_pair.mp hR with h | h
        · exact .inl h.symm
        · exact .inr h.symm
    · cases t₀ with
      | brTable v d cs =>
          exact updatePredecessorOf_spec hcur (fun d hd => by simp [Terminator.rename,
            Terminator.map] at hd) (fun v x y hd => by simp [Terminator.rename,
            Terminator.map] at hd)
      | jump d => simp [Terminator.isTable] at htable
      | brif v x y => simp [Terminator.isTable] at htable
  refine hspec.mono (fun _ w' hw' => ?_) fun _ _ h => h
  obtain ⟨hred, hquiet⟩ := hw'
  exact ⟨h.redirecting.step haR hp hred, hnodup,
    fun q hq => h.edge q (List.mem_cons_of_mem _ hq),
    hquiet.1.trans h.quiet.1, hquiet.2.trans h.quiet.2⟩

/-- **`update_predecessor` renames the replaced block in every branch.** It does not panic if the
conditional branches of the function have two different arms. -/
theorem updatePredecessor_spec (haR : a ≠ R)
    (hbrif : ∀ b v x y, w.mem.func.terminator b = some (.brif v x y) → x ≠ y) :
    Runs (updatePredecessor a R) w
      (fun _ w' => BranchEdit w.mem.func w'.mem.func ∧
        (∀ b, w'.mem.func.terminator b =
          (w.mem.func.terminator b).map (Terminator.rename R a)) ∧ Quiet w w') E := by
  unfold updatePredecessor
  rw [runs_bind, runs_func, runs_bind, runs_new]
  have hstart : PredLoop w R a ((ControlFlowGraph.withFunction w.mem.func).preds R)
      (w.withPos .nowhere) := by
    refine ⟨Redirecting.start fun b hb => ?_, ControlFlowGraph.preds_blocks_nodup _ R,
      fun p hp => (ControlFlowGraph.mem_preds.mp hp).2, rfl, rfl⟩
    obtain ⟨t, ht, -⟩ := id hb
    obtain ⟨i, _, hi, -⟩ := Function.exists_of_terminator ht
    exact List.mem_map.mpr ⟨(i, b), ControlFlowGraph.mem_preds.mpr ⟨hi, hb⟩, rfl⟩
  refine (Runs.forM hstart fun p ps w' h => h.step haR hbrif).mono (fun _ w' h => ?_)
    fun _ _ h => h
  refine ⟨h.redirecting.edit, fun b => ?_, h.quiet⟩
  rcases h.redirecting.terminator b with ⟨hren, -⟩ | ⟨hmem, -⟩
  · exact hren
  · exact absurd hmem (by simp)

end Predecessors

/-! ## Successors -/

/-- `f` is `f₀` with the block `R` taken out and `t` as the branch of the block `l`, which was
empty. -/
structure Moved (f₀ f : Function) (l R : Block) (t : Terminator Block) : Prop where
  blocks : f.layout.blocks = f₀.layout.blocks.erase R
  insts_last : ∃ i, f.layout.insts l = [i]
  insts_other : ∀ b, b ≠ l → b ≠ R → f.layout.insts b = f₀.layout.insts b
  branch_other : ∀ b, b ≠ l → b ≠ R → f.branch b = f₀.branch b
  terminator_last : f.terminator l = some t
  noArgs_last : f.NoArgs l
  dfgBlocks : f.dfg.blocks = f₀.dfg.blocks
  values : f.dfg.values = f₀.dfg.values
  header : f.header = f₀.header
  tables : f.TablesMade
  apart : f₀.TablesApart → f.TablesApart

section Move

variable {f : Function} {l R : Block} {i : Inst} {data : InstructionData}

theorem Function.removeInst_only {hi : i ∈ f.layout.insts R} (hone : f.layout.insts R = [i]) :
    (f.removeInst i R hi).layout.insts R = [] := by
  rw [removeInst_last (by simp [Layout.lastInst, hone]) hi, hone]
  rfl

/-- The block between the removal of its branch and its own removal. -/
def Function.withMovedBranch (f : Function) (R : Block) (i : Inst) (hi : i ∈ f.layout.insts R)
    (l : Block) (hl : l ∈ f.layout.blocks) (data : InstructionData) : Function :=
  (f.removeInst i R hi).pushInst l data [] (removeInst_mem_blocks hi hl)

theorem Function.withMovedBranch_empty (hi : i ∈ f.layout.insts R) (hl : l ∈ f.layout.blocks)
    (hone : f.layout.insts R = [i]) (hne : l ≠ R) :
    (f.withMovedBranch R i hi l hl data).layout.insts R = [] := by
  rw [withMovedBranch, pushInst_insts_of_ne hne.symm, removeInst_only hone]

theorem moved_withMovedBranch (data : InstructionData) (hi : i ∈ f.layout.insts R)
    (hl : l ∈ f.layout.blocks)
    (hone : f.layout.insts R = [i]) (hne : l ≠ R) (hempty : f.layout.insts l = [])
    (hf : f.TablesMade) (hdata : ∀ v k, data = .branchTable v k →
      k < f.dfg.jumpTables.len ∧ ∀ c, f.tableOf c ≠ some k)
    {t : Terminator BlockCall} (ht : f.branchOf data = some t)
    (hargs : ∀ c ∈ t.targets, c.args = []) :
    Moved f ((f.withMovedBranch R i hi l hl data).removeBlock R
      (Function.withMovedBranch_empty hi hl hone hne)) l R (t.map BlockCall.block) := by
  have hbranch : ∀ b, ((f.withMovedBranch R i hi l hl data).removeBlock R
      (Function.withMovedBranch_empty hi hl hone hne)).branch b =
        (f.withMovedBranch R i hi l hl data).branch b := fun _ => rfl
  have hlast : (f.withMovedBranch R i hi l hl data).branch l = some t := by
    rw [Function.withMovedBranch, Function.pushInst_branch_self, ← ht]
    exact Function.branchOf_congr rfl data
  have hother : ∀ b, b ≠ l → b ≠ R →
      (f.withMovedBranch R i hi l hl data).layout.insts b = f.layout.insts b := fun b hbl hbR => by
    rw [Function.withMovedBranch, Function.pushInst_insts_of_ne hbl,
      Function.removeInst_of_ne hi hbR]
  have hinsts : (f.withMovedBranch R i hi l hl data).layout.insts l = [f.dfg.insts.len] := by
    rw [Function.withMovedBranch, Function.pushInst_insts_self, Function.removeInst_of_ne hi hne,
      hempty]
    rfl
  have htable : ∀ c ≠ l, ∀ k,
      (f.withMovedBranch R i hi l hl data).tableOf c = some k → f.tableOf c = some k := by
    intro c hc k hk
    rw [Function.withMovedBranch, Function.pushInst_tableOf_of_ne hc] at hk
    by_cases hcR : c = R
    · -- nothing is left in the block that is taken out
      simp [Function.tableOf, Layout.lastInst, hcR, Function.removeInst_only hone] at hk
    · rwa [Function.removeInst_tableOf_of_ne hi hcR] at hk
  have hself : ∀ k, (f.withMovedBranch R i hi l hl data).tableOf l = some k →
      k < f.dfg.jumpTables.len ∧ ∀ c, f.tableOf c ≠ some k := by
    intro k hk
    rw [Function.withMovedBranch, Function.pushInst_tableOf_self] at hk
    obtain ⟨v, hv⟩ := hk
    exact hdata v k hv
  refine ⟨rfl, ⟨_, hinsts⟩, hother, ?_, ?_, ?_, rfl, rfl, rfl, ?_, ?_⟩
  · intro b hbl hbR
    rw [hbranch, Function.withMovedBranch, Function.pushInst_branch_of_ne hbl,
      Function.removeInst_branch_of_ne hi hbR]
  · rw [Function.terminator, hbranch, hlast, Option.map_some]
  · intro t' ht'
    rw [hbranch, hlast, Option.some.injEq] at ht'
    subst ht'
    exact hargs
  · exact hf.update l (Nat.le_refl _) htable fun k hk => (hself k hk).1
  · exact fun hapart => hapart.update l htable fun k hk => (hself k hk).2

/-- A jump table made on the way does not matter. -/
theorem Moved.of_createJumpTable {f' : Function} {T : JumpTableData} {t : Terminator Block}
    (hf : f.TablesMade) (h : Moved (f.createJumpTable T) f' l R t) : Moved f f' l R t where
  blocks := h.blocks
  insts_last := h.insts_last
  insts_other := h.insts_other
  branch_other b hl hR := (h.branch_other b hl hR).trans (Function.createJumpTable_branch hf T b)
  terminator_last := h.terminator_last
  noArgs_last := h.noArgs_last
  dfgBlocks := h.dfgBlocks
  values := h.values
  header := h.header
  tables := h.tables
  apart hf := h.apart hf

end Move

/-- What `update_successor` needs of the block `R`: its branch `t` is its only instruction, and the
kind of the branch tells how many different destinations it has. -/
structure Replaceable (f : Function) (R : Block) (t : Terminator Block) : Prop where
  mem : R ∈ f.layout.blocks
  one : (f.layout.insts R).length = 1
  terminator : f.terminator R = some t
  brif : ∀ v x y, t = .brif v x y → x ≠ y
  table : t.isTable → 3 ≤ t.targets.dedup.length

section Successors

variable {δ : Type} {w : World (State δ)} {E : Halt → World (State δ) → Prop} {R l : Block}
  {t : Terminator Block}

theorem succs_perm {f : Function} (h : f.terminator R = some t) :
    ((ControlFlowGraph.withFunction f).succs R).Perm t.targets.dedup := by
  have hnodup : ((ControlFlowGraph.withFunction f).succs R).Nodup :=
    (ControlFlowGraph.succs_sorted f R).imp fun h => Nat.ne_of_lt h
  refine (List.perm_ext_iff_of_nodup hnodup (List.nodup_dedup _)).mpr fun x => ?_
  rw [ControlFlowGraph.mem_succs, List.mem_dedup]
  constructor
  · rintro ⟨t', ht', hx⟩
    rw [h, Option.some.injEq] at ht'
    exact ht' ▸ hx
  · intro hx
    exact ⟨t, h, hx⟩

/-- The steps that `update_successor` ends with, whatever the branch. -/
private theorem runs_moveBranch {Q : Unit → World (State δ) → Prop} {i : Inst}
    (data : InstructionData) (hpos : w.mem.pos = .at_ i) (hi : i ∈ w.mem.func.layout.insts R)
    (hone : w.mem.func.layout.insts R = [i]) (hR : R ∈ w.mem.func.layout.blocks)
    (hl : l ∈ w.mem.func.layout.blocks) (hne : l ≠ R) (hdata : data.isBranch = true) :
    Runs (removeInst >>= fun _ => gotoBottom l >>= fun _ =>
        (ins data >>= fun _ => pure ()) >>= fun _ => removeBlock R) w Q E ↔
      Q () ((w.withPos (.after l)).withFunc
        ((w.mem.func.withMovedBranch R i hi l hl data).removeBlock R
          (Function.withMovedBranch_empty hi hl hone hne))) := by
  have hlast : w.mem.func.layout.lastInst R = some i := by simp [Layout.lastInst, hone]
  let w₁ := (w.withPos (.after R)).withFunc (w.mem.func.removeInst i R hi)
  rw [runs_bind, runs_removeInst_last hpos hi hlast, runs_bind,
    runs_gotoBottom (w := w₁) (Function.removeInst_mem_blocks hi hl), runs_bind, runs_bind,
    runs_ins_branch (w := w₁.withPos (.after l)) hdata rfl
      (Function.removeInst_mem_blocks hi hl), runs_pure]
  exact runs_removeBlock
    (w := (w.withPos (.after l)).withFunc (w.mem.func.withMovedBranch R i hi l hl data)) hR
    (Function.withMovedBranch_empty hi hl hone hne)

/-- **`update_successor` moves the branch of `R` to `l`.** The moved branch has the kind and the
operand of the old one, and its destinations are the successors of `R` in increasing order. -/
theorem updateSuccessor_spec (hR : Replaceable w.mem.func R t)
    (hl : l ∈ w.mem.func.layout.blocks) (hne : l ≠ R) (hempty : w.mem.func.layout.insts l = [])
    (htab : w.mem.func.TablesMade) :
    Runs (updateSuccessor l R) w
      (fun _ w' => (∃ t', Moved w.mem.func w'.mem.func l R t' ∧ t'.kind = t.kind ∧
        t'.arg = t.arg ∧ t'.targets = (ControlFlowGraph.withFunction w.mem.func).succs R) ∧
        Quiet w w') E := by
  obtain ⟨i, t₀, hlast, hbr, rfl⟩ := Function.exists_of_terminator hR.terminator
  obtain ⟨j, hone⟩ := List.length_eq_one_iff.mp hR.one
  obtain rfl : j = i := by simpa [Layout.lastInst, hone] using hlast
  have hi : j ∈ w.mem.func.layout.insts R := by simp [hone]
  have hperm := succs_perm hR.terminator
  unfold updateSuccessor
  rw [runs_bind, runs_func, runs_bind, runs_new]
  have hcontrol : ∀ {Q : Option InstructionData → World (State δ) → Prop} (v : World (State δ)),
      v.mem.func.layout = w.mem.func.layout → v.mem.func.dfg.insts = w.mem.func.dfg.insts →
      (Runs (getBlockLastControlInstr R) v Q E ↔
        Q (some (w.mem.func.instData j)) (v.withPos (.at_ j))) := by
    intro Q v hlayout hinsts
    rw [runs_getBlockLastControlInstr (by rw [hlayout]; exact hlast), Function.instData, hinsts]
    rfl
  cases hdata : w.mem.func.instData j with
  | jump c =>
      rw [hdata, Function.branchOf, Option.some.injEq] at hbr
      subst hbr
      -- one destination
      obtain hsucc : (ControlFlowGraph.withFunction w.mem.func).succs R = [c.block] :=
        List.perm_singleton.mp (by simpa [Terminator.map, Terminator.targets] using hperm)
      rw [hsucc]
      refine (runs_bind _ _).mpr ((hcontrol (w.withPos .nowhere) rfl rfl).mpr ?_)
      refine (runs_moveBranch (w := w.withPos (.at_ j)) (.jump ⟨c.block, []⟩) rfl hi hone
        hR.mem hl hne rfl).mpr ⟨⟨_, moved_withMovedBranch _ hi hl hone hne hempty htab
          (by simp) rfl (by simp [Terminator.targets]), rfl, rfl, rfl⟩, rfl, rfl⟩
  | brif v c d =>
      rw [hdata, Function.branchOf, Option.some.injEq] at hbr
      subst hbr
      -- two destinations
      have hcd : c.block ≠ d.block := hR.brif v c.block d.block rfl
      have hlen : ((ControlFlowGraph.withFunction w.mem.func).succs R).length = 2 := by
        rw [hperm.length_eq]
        simp [Terminator.map, Terminator.targets, hcd]
      obtain ⟨post₀, post₁, hsucc⟩ := List.length_eq_two.mp hlen
      rw [hsucc]
      refine (runs_bind _ _).mpr ((hcontrol (w.withPos .nowhere) rfl rfl).mpr ?_)
      rw [hdata]
      refine (runs_moveBranch (w := w.withPos (.at_ j))
        (.brif v ⟨post₀, []⟩ ⟨post₁, []⟩) rfl hi hone hR.mem hl hne rfl).mpr
          ⟨⟨_, moved_withMovedBranch _ hi hl hone hne hempty htab (by simp) rfl
            (by simp [Terminator.targets]), rfl, rfl, rfl⟩, rfl, rfl⟩
  | branchTable v k =>
      rw [hdata, Function.branchOf, Option.some.injEq] at hbr
      subst hbr
      -- three or more destinations
      have hlen : 3 ≤ ((ControlFlowGraph.withFunction w.mem.func).succs R).length := by
        rw [hperm.length_eq]
        exact hR.table rfl
      obtain ⟨post₀, post₁, post₂, posts, hsucc⟩ : ∃ p₀ p₁ p₂ ps,
          (ControlFlowGraph.withFunction w.mem.func).succs R = p₀ :: p₁ :: p₂ :: ps :=
        ListEdit.exists_of_three_le_length hlen
      rw [hsucc]
      let table : JumpTableData :=
        ⟨⟨post₀, []⟩, (post₁ :: post₂ :: posts).map fun b => ⟨b, []⟩⟩
      let w₁ := (w.withPos .nowhere).withFunc (w.mem.func.createJumpTable table)
      refine (runs_bind _ _).mpr ((runs_createJumpTable table).mpr ?_)
      refine (runs_bind _ _).mpr ((hcontrol w₁ rfl rfl).mpr ?_)
      rw [hdata]
      have hmoved := moved_withMovedBranch (f := w.mem.func.createJumpTable table)
        (.branchTable v w.mem.func.dfg.jumpTables.len) hi hl hone hne hempty
        (Function.createJumpTable_tablesMade htab table)
        (by rintro _ _ ⟨⟩; exact ⟨Nat.lt_succ_self _, htab.fresh⟩) rfl
        (by simp [Terminator.targets, Function.createJumpTable, Function.withDfg, table])
      refine (runs_moveBranch (w := w₁.withPos (.at_ j))
        (.branchTable v w.mem.func.dfg.jumpTables.len) rfl hi hone hR.mem hl hne rfl).mpr
          ⟨⟨_, hmoved.of_createJumpTable htab, rfl, rfl, ?_⟩, rfl, rfl⟩
      simp [Terminator.map, Terminator.targets, Function.createJumpTable, Function.withDfg, table,
        Function.comp_def]
  | _ => simp [hdata, Function.branchOf] at hbr

end Successors

end Clir
