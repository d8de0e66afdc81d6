import Clir.Cf.Replace

set_option autoImplicit false

/-! # Appending a construct

The four construct functions make their blocks first and then place them one after the other at
the end of the layout, each with its branch, the last one empty. `Building` is the state of a
function in the middle of that: the list of blocks placed so far, with their branches. Placing a
block and giving it a branch are the two steps.
-/

namespace Clir

open Cmd Cursor Graph

variable {δ : Type} {w₀ w : World (State δ)} {E : Halt → World (State δ) → Prop}

/-- Blocks in layout order, each with the branch that ends it. -/
abbrev Placed := List (Block × Option (Terminator Block))

/-- `w` is `w₀` with the blocks `L` placed at the end of the layout. -/
structure Building (w₀ w : World (State δ)) (L : Placed) : Prop where
  blocks : w.mem.func.layout.blocks = w₀.mem.func.layout.blocks ++ L.map Prod.fst
  terminator : ∀ p ∈ L, w.mem.func.terminator p.1 = p.2
  noArgs : ∀ p ∈ L, w.mem.func.NoArgs p.1
  length : ∀ p ∈ L, (w.mem.func.layout.insts p.1).length = if p.2.isSome then 1 else 0
  insts_old : ∀ b, b ∉ L.map Prod.fst → w.mem.func.layout.insts b = w₀.mem.func.layout.insts b
  branch_old : ∀ b, b ∉ L.map Prod.fst → w.mem.func.branch b = w₀.mem.func.branch b
  tableOf_old : ∀ b, b ∉ L.map Prod.fst → w.mem.func.tableOf b = w₀.mem.func.tableOf b
  pos : w.mem.pos = match L.getLast? with
    | none => .nowhere
    | some p => .after p.1
  dfgBlocks : w.mem.func.dfg.blocks = w₀.mem.func.dfg.blocks
  values : w.mem.func.dfg.values = w₀.mem.func.dfg.values
  jumpTables : w.mem.func.dfg.jumpTables = w₀.mem.func.dfg.jumpTables
  header : w.mem.func.header = w₀.mem.func.header
  tables : w.mem.func.TablesMade
  apart : w₀.mem.func.TablesApart → w.mem.func.TablesApart
  quiet : Quiet w₀ w

theorem Building.start (hpos : w₀.mem.pos = .nowhere) (htab : w₀.mem.func.TablesMade) :
    Building w₀ w₀ [] where
  blocks := by simp
  terminator := by simp
  noArgs := by simp
  length := by simp
  insts_old _ _ := rfl
  branch_old _ _ := rfl
  tableOf_old _ _ := rfl
  pos := hpos
  dfgBlocks := rfl
  values := rfl
  jumpTables := rfl
  header := rfl
  tables := htab
  apart := id
  quiet := ⟨rfl, rfl⟩

theorem Building.nodup {L : Placed} (h : Building w₀ w L) : (L.map Prod.fst).Nodup := by
  have := w.mem.func.layout.blocks_nodup
  rw [h.blocks] at this
  exact (List.nodup_append.mp this).2.1

/-- The state after an insertion of `b` at the end of the layout, however it was made. -/
private theorem Building.placed {L : Placed} {b : Block} {w' : World (State δ)}
    (h : Building w₀ w L) (hb : b ∉ w.mem.func.layout.blocks)
    (hblocks : w'.mem.func.layout.blocks = w.mem.func.layout.blocks ++ [b])
    (hinsts : w'.mem.func.layout.insts = w.mem.func.layout.insts)
    (hdfg : w'.mem.func.dfg = w.mem.func.dfg) (hheader : w'.mem.func.header = w.mem.func.header)
    (hpos : w'.mem.pos = .after b) (hquiet : Quiet w w') :
    Building w₀ w' (L ++ [(b, none)]) := by
  -- only the layout grew, so that every block ends as before and the new one is empty
  have hbranch : ∀ c, w'.mem.func.branch c = w.mem.func.branch c := by
    intro c
    refine Function.branch_congr (by rw [Layout.lastInst, hinsts]; rfl) fun i _ => ?_
    rw [Function.instData, hdfg]
    exact Function.branchOf_congr (by rw [hdfg]) _
  have hempty : w.mem.func.layout.insts b = [] := w.mem.func.layout.insts_nil b hb
  have hnone : w.mem.func.branch b = none := by
    simp [Function.branch, Layout.lastInst, hempty]
  have htable : ∀ c, w'.mem.func.tableOf c = w.mem.func.tableOf c := fun c =>
    Function.tableOf_congr (by rw [Layout.lastInst, hinsts]; rfl) fun i _ => by
      rw [Function.instData, hdfg]
      rfl
  refine ⟨?_, ?_, ?_, ?_, ?_, ?_, ?_, ?_, ?_, ?_, ?_, ?_, ?_, ?_, ?_⟩
  · rw [hblocks, h.blocks]
    simp
  -- what the placed blocks hold: the new block is the last of the list
  · intro p hp
    rw [Function.terminator_congr (hbranch p.1)]
    rcases List.mem_append.mp hp with hp | hp
    · exact h.terminator p hp
    · obtain rfl := List.mem_singleton.mp hp
      simp [Function.terminator, hnone]
  · intro p hp t ht
    rw [hbranch] at ht
    rcases List.mem_append.mp hp with hp | hp
    · exact h.noArgs p hp t ht
    · obtain rfl := List.mem_singleton.mp hp
      simp [hnone] at ht
  · intro p hp
    rw [hinsts]
    rcases List.mem_append.mp hp with hp | hp
    · exact h.length p hp
    · obtain rfl := List.mem_singleton.mp hp
      simp [hempty]
  -- what the blocks outside the list hold
  · intro c hc
    rw [hinsts]
    exact h.insts_old c fun hc' => hc (by simp [hc'])
  · intro c hc
    rw [hbranch]
    exact h.branch_old c fun hc' => hc (by simp [hc'])
  · intro c hc
    rw [htable]
    exact h.tableOf_old c fun hc' => hc (by simp [hc'])
  · simp [hpos]
  · rw [hdfg, h.dfgBlocks]
  · rw [hdfg, h.values]
  · rw [hdfg, h.jumpTables]
  · rw [hheader, h.header]
  · intro c k hk
    rw [hdfg]
    exact h.tables c k (htable c ▸ hk)
  · intro h₀ c d k hc hd
    exact h.apart h₀ c d k (htable c ▸ hc) (htable d ▸ hd)
  · exact ⟨hquiet.1.trans h.quiet.1, hquiet.2.trans h.quiet.2⟩

theorem Building.insertBlock {L : Placed} {b : Block} (h : Building w₀ w L)
    (hlt : b < w₀.mem.func.dfg.blocks.len) (hb : b ∉ w₀.mem.func.layout.blocks)
    (hL : b ∉ L.map Prod.fst) :
    Runs (insertBlock b) w (fun _ w' => Building w₀ w' (L ++ [(b, none)])) E := by
  have hlt' : b < w.mem.func.dfg.blocks.len := by rwa [h.dfgBlocks]
  have hb' : b ∉ w.mem.func.layout.blocks := by
    rw [h.blocks]
    exact fun hm => (List.mem_append.mp hm).elim hb hL
  rcases List.eq_nil_or_concat L with rfl | ⟨L', p, rfl⟩
  · refine (runs_insertBlock_nowhere (by simpa using h.pos) hlt' hb').mpr ?_
    exact h.placed hb' rfl rfl rfl rfl rfl ⟨rfl, rfl⟩
  · have hp : p.1 ∈ w.mem.func.layout.blocks := by
      rw [h.blocks]
      simp
    have hblocks : w.mem.func.layout.blocks =
        (w₀.mem.func.layout.blocks ++ L'.map Prod.fst) ++ [p.1] := by
      rw [h.blocks]
      simp
    have hfirst : p.1 ∉ w₀.mem.func.layout.blocks ++ L'.map Prod.fst := by
      have := w.mem.func.layout.blocks_nodup
      rw [hblocks] at this
      exact fun hm => (List.nodup_append.mp this).2.2 _ hm _ (by simp) rfl
    refine (runs_insertBlock_after (by simpa using h.pos) hlt' hb' hp).mpr ?_
    refine h.placed hb' ?_ rfl rfl rfl rfl ⟨rfl, rfl⟩
    change ListEdit.insertAfter p.1 b w.mem.func.layout.blocks = _
    rw [hblocks, ListEdit.insertAfter_eq hfirst]
    simp

/-- The state after a branch was put into the block placed last. -/
private theorem Building.pushed {L : Placed} {b : Block} (data : InstructionData)
    (t : Terminator BlockCall) (h : Building w₀ w (L ++ [(b, none)]))
    (hb : b ∈ w.mem.func.layout.blocks)
    (ht : w₀.mem.func.branchOf data = some t) (hargs : ∀ c ∈ t.targets, c.args = [])
    (hdata : ∀ v k, data = .branchTable v k →
      k < w₀.mem.func.dfg.jumpTables.len ∧ ∀ c, w.mem.func.tableOf c ≠ some k) :
    Building w₀ (w.withFunc (w.mem.func.pushInst b data [] hb))
      (L ++ [(b, some (t.map BlockCall.block))]) := by
  have hnodup := h.nodup
  rw [List.map_append, List.map_singleton] at hnodup
  have hne : ∀ p ∈ L, p.1 ≠ b := fun p hp e =>
    (List.nodup_append.mp hnodup).2.2 p.1 (List.mem_map_of_mem hp) b (by simp) e
  -- the block was empty, and the branch is now its only instruction
  have hself : (w.mem.func.pushInst b data [] hb).branch b = some t := by
    rw [Function.pushInst_branch_self, ← ht]
    exact Function.branchOf_congr h.jumpTables data
  have hempty : w.mem.func.layout.insts b = [] := by
    simpa using h.length (b, none) (by simp)
  have hout : ∀ c, c ∉ (L ++ [(b, some (t.map BlockCall.block))]).map Prod.fst →
      c ≠ b ∧ c ∉ (L ++ [(b, none)]).map Prod.fst := by
    intro c hc
    refine ⟨?_, by simpa using hc⟩
    rintro rfl
    exact hc (by simp)
  refine ⟨?_, ?_, ?_, ?_, ?_, ?_, ?_, ?_, h.dfgBlocks, h.values, h.jumpTables, h.header, ?_,
    ?_, h.quiet⟩
  · simpa using h.blocks
  · intro p hp
    rcases List.mem_append.mp hp with hp | hp
    · rw [withFunc_func, Function.terminator_congr (Function.pushInst_branch_of_ne (hne p hp))]
      exact h.terminator p (List.mem_append_left _ hp)
    · obtain rfl := List.mem_singleton.mp hp
      rw [withFunc_func, Function.terminator, hself, Option.map_some]
  · intro p hp t' ht'
    rcases List.mem_append.mp hp with hp | hp
    · rw [withFunc_func, Function.pushInst_branch_of_ne (hne p hp)] at ht'
      exact h.noArgs p (List.mem_append_left _ hp) t' ht'
    · obtain rfl := List.mem_singleton.mp hp
      rw [withFunc_func, hself, Option.some.injEq] at ht'
      exact ht' ▸ hargs
  · intro p hp
    rcases List.mem_append.mp hp with hp | hp
    · rw [withFunc_func, Function.pushInst_insts_of_ne (hne p hp)]
      exact h.length p (List.mem_append_left _ hp)
    · obtain rfl := List.mem_singleton.mp hp
      rw [withFunc_func, Function.pushInst_insts_self, hempty]
      rfl
  · intro c hc
    rw [withFunc_func, Function.pushInst_insts_of_ne (hout c hc).1]
    exact h.insts_old c (hout c hc).2
  · intro c hc
    rw [withFunc_func, Function.pushInst_branch_of_ne (hout c hc).1]
    exact h.branch_old c (hout c hc).2
  · intro c hc
    rw [withFunc_func, Function.pushInst_tableOf_of_ne (hout c hc).1]
    exact h.tableOf_old c (hout c hc).2
  · simpa using h.pos
  -- a jump table that is named must exist and must not be named by another branch
  · refine Function.pushInst_tablesMade h.tables fun v k hk => ?_
    rw [h.jumpTables]
    exact (hdata v k hk).1
  · intro h₀
    exact Function.pushInst_tablesApart (h.apart h₀) fun v k hk => (hdata v k hk).2

theorem Building.mem_last {L : Placed} {b : Block} {o : Option (Terminator Block)}
    (h : Building w₀ w (L ++ [(b, o)])) :
    w.mem.pos = .after b ∧ b ∈ w.mem.func.layout.blocks := by
  refine ⟨by simpa using h.pos, ?_⟩
  rw [h.blocks]
  simp

theorem Building.insJump {L : Placed} {b : Block} (h : Building w₀ w (L ++ [(b, none)]))
    (d : Block) :
    Runs (insJump d) w (fun _ w' => Building w₀ w' (L ++ [(b, some (.jump d))])) E :=
  (runs_insJump h.mem_last.1 h.mem_last.2).mpr
    (h.pushed (.jump ⟨d, []⟩) (.jump ⟨d, []⟩) h.mem_last.2 rfl (by simp [Terminator.targets])
      (by simp))

theorem Building.insBrif {L : Placed} {b : Block} (h : Building w₀ w (L ++ [(b, none)]))
    (v : Value) (x y : Block) :
    Runs (insBrif v x y) w (fun _ w' => Building w₀ w' (L ++ [(b, some (.brif v x y))])) E :=
  (runs_insBrif h.mem_last.1 h.mem_last.2).mpr
    (h.pushed (.brif v ⟨x, []⟩ ⟨y, []⟩) (.brif v ⟨x, []⟩ ⟨y, []⟩) h.mem_last.2 rfl
      (by simp [Terminator.targets]) (by simp))

/-- The table must have been made with arguments left out. -/
theorem Building.insBrTable {L : Placed} {b : Block} (h : Building w₀ w (L ++ [(b, none)]))
    (v : Value) {k : JumpTable} (hk : k < w₀.mem.func.dfg.jumpTables.len)
    (hfresh : ∀ c, w.mem.func.tableOf c ≠ some k) (d : Block) (cs : List Block)
    (htable : w₀.mem.func.dfg.jumpTables.get k = ⟨⟨d, []⟩, cs.map fun c => ⟨c, []⟩⟩) :
    Runs (insBrTable v k) w
      (fun _ w' => Building w₀ w' (L ++ [(b, some (.brTable v d cs))])) E := by
  refine (runs_insBrTable h.mem_last.1 h.mem_last.2).mpr ?_
  have := h.pushed (.branchTable v k) (.brTable v ⟨d, []⟩ (cs.map fun c => ⟨c, []⟩))
    h.mem_last.2 (by simp [Function.branchOf, htable])
    (by simp [Terminator.targets]) (by rintro _ _ ⟨⟩; exact ⟨hk, hfresh⟩)
  simpa [Terminator.map, Function.comp_def] using this

/-! ## Preparation -/

namespace Function

theorem makeBlock_eq (f : Function) : f.makeBlock = f.makeBlocks 1 := by
  have : f.dfg.blocks.push [] =
      ⟨f.dfg.blocks.len + 1,
        fun b => if f.dfg.blocks.len ≤ b ∧ b < f.dfg.blocks.len + 1 then []
          else f.dfg.blocks.get b⟩ := by
    unfold PrimaryMap.push
    congr 1
    funext b
    by_cases h : b = f.dfg.blocks.len
    · subst h
      simp
    · have : ¬ (f.dfg.blocks.len ≤ b ∧ b < f.dfg.blocks.len + 1) := by omega
      rw [if_neg this, Function.update_of_ne h]
  simp only [makeBlock, makeBlocks, this]

theorem makeBlocks_makeBlocks (f : Function) (m n : ℕ) :
    (f.makeBlocks m).makeBlocks n = f.makeBlocks (m + n) := by
  have : (fun b => if f.dfg.blocks.len + m ≤ b ∧ b < f.dfg.blocks.len + (m + n) then []
      else if f.dfg.blocks.len ≤ b ∧ b < f.dfg.blocks.len + m then []
      else f.dfg.blocks.get b) =
      fun b => if f.dfg.blocks.len ≤ b ∧ b < f.dfg.blocks.len + (m + n) then []
        else f.dfg.blocks.get b := by
    funext b
    split_ifs <;> first | rfl | omega
  simp only [makeBlocks, withDfg, Nat.add_assoc, this]

theorem makeBlocks_zero (f : Function) : f.makeBlocks 0 = f := by
  have : (fun b => if f.dfg.blocks.len ≤ b ∧ b < f.dfg.blocks.len then []
      else f.dfg.blocks.get b) = f.dfg.blocks.get := by
    funext b
    rw [if_neg (by omega)]
  simp only [makeBlocks, withDfg, Nat.add_zero, this]

@[simp] theorem makeBlocks_len (f : Function) (n : ℕ) :
    (f.makeBlocks n).dfg.blocks.len = f.dfg.blocks.len + n := rfl

end Function

theorem runs_makeBlocks {Q : List Block → World (State δ) → Prop} (n : ℕ) :
    Runs (makeBlocks n) w Q E ↔
      Q (List.range' w.mem.func.dfg.blocks.len n) (w.withFunc (w.mem.func.makeBlocks n)) := by
  induction n generalizing w Q with
  | zero =>
      rw [makeBlocks, runs_pure, Function.makeBlocks_zero]
      rfl
  | succ n ih =>
      rw [makeBlocks, runs_bind, runs_makeBlock, runs_bind, ih, runs_pure]
      rw [withFunc_func, Function.makeBlock_eq, Function.makeBlocks_makeBlocks,
        Nat.add_comm 1 n, List.range'_succ]
      rfl

/-- `g` is `f` with `k` more blocks, made but not placed, and perhaps more values and tables. -/
structure Prepared (f g : Function) (k : ℕ) : Prop where
  layout : g.layout = f.layout
  branch : ∀ b, g.branch b = f.branch b
  tables : g.TablesMade
  apart : f.TablesApart → g.TablesApart
  blocks_len : g.dfg.blocks.len = f.dfg.blocks.len + k
  params_old : ∀ b < f.dfg.blocks.len, g.blockParams b = f.blockParams b
  values_len : f.dfg.values.len ≤ g.dfg.values.len
  values_old : ∀ v < f.dfg.values.len, g.dfg.values.get v = f.dfg.values.get v
  header : g.header = f.header

theorem prepared_makeBlocks {f : Function} (hf : f.TablesMade) (k : ℕ) :
    Prepared f (f.makeBlocks k) k where
  layout := rfl
  branch _ := rfl
  tables := hf
  apart := id
  blocks_len := rfl
  params_old b hb := by
    have : ¬ (f.dfg.blocks.len ≤ b ∧ b < f.dfg.blocks.len + k) := by omega
    simp only [Function.makeBlocks, Function.withDfg, Function.blockParams, if_neg this]
  values_len := le_rfl
  values_old _ _ := rfl
  header := rfl

theorem Prepared.appendBlockParam {f g : Function} {k : ℕ} (h : Prepared f g k) {b : Block}
    (hb : f.dfg.blocks.len ≤ b) (ty : ClifType) : Prepared f (g.appendBlockParam b ty) k where
  layout := h.layout
  branch := h.branch
  tables := h.tables
  apart := h.apart
  blocks_len := h.blocks_len
  params_old c hc := by
    have : c ≠ b := by omega
    rw [← h.params_old c hc]
    exact PrimaryMap.set_get_of_ne _ _ this
  values_len := h.values_len.trans (Nat.le_succ _)
  values_old v hv := by
    rw [← h.values_old v hv]
    exact PrimaryMap.push_get_of_lt _ _ (hv.trans_le h.values_len)
  header := h.header

theorem Prepared.createJumpTable {f g : Function} {k : ℕ} (h : Prepared f g k)
    (T : JumpTableData) : Prepared f (g.createJumpTable T) k where
  layout := h.layout
  branch b := (Function.createJumpTable_branch h.tables T b).trans (h.branch b)
  tables := Function.createJumpTable_tablesMade h.tables T
  apart := h.apart
  blocks_len := h.blocks_len
  params_old := h.params_old
  values_len := h.values_len
  values_old := h.values_old
  header := h.header

theorem Prepared.notMem {f g : Function} {k : ℕ} (h : Prepared f g k) {b : ℕ}
    (hb : f.dfg.blocks.len ≤ b) : b ∉ g.layout.blocks := by
  rw [h.layout]
  exact fun hm => Nat.not_lt.mpr hb (f.blocks_lt b hm)

theorem Prepared.lt {f g : Function} {k : ℕ} (h : Prepared f g k) {b : ℕ}
    (hb : b < f.dfg.blocks.len + k) : b < g.dfg.blocks.len := by
  rwa [h.blocks_len]

/-! ## The four constructs -/

/-- A block has no parameter, or one `i32` parameter that is the operand of no plain jump. -/
def Function.CondParam (f : Function) (b : Block) (o : Option (Terminator Block)) : Prop :=
  f.blockParams b = [] ∨
    ∃ v t, f.blockParams b = [v] ∧ v < f.dfg.values.len ∧
      f.dfg.values.get v = ⟨.i32, .param b 0⟩ ∧ o = some t ∧ t.kind ≠ .jump

/-- `f` is `f₀` with the new blocks `L` at the end of the layout. -/
structure Appended (f₀ f : Function) (L : Placed) : Prop where
  blocks : f.layout.blocks = f₀.layout.blocks ++ L.map Prod.fst
  fresh : ∀ p ∈ L, f₀.dfg.blocks.len ≤ p.1
  terminator : ∀ p ∈ L, f.terminator p.1 = p.2
  noArgs : ∀ p ∈ L, f.NoArgs p.1
  length : ∀ p ∈ L, (f.layout.insts p.1).length = if p.2.isSome then 1 else 0
  condParam : ∀ p ∈ L, f.CondParam p.1 p.2
  insts_old : ∀ b, b ∉ L.map Prod.fst → f.layout.insts b = f₀.layout.insts b
  branch_old : ∀ b, b ∉ L.map Prod.fst → f.branch b = f₀.branch b
  blocks_len : f₀.dfg.blocks.len ≤ f.dfg.blocks.len
  params_old : ∀ b < f₀.dfg.blocks.len, f.blockParams b = f₀.blockParams b
  values_len : f₀.dfg.values.len ≤ f.dfg.values.len
  values_old : ∀ v < f₀.dfg.values.len, f.dfg.values.get v = f₀.dfg.values.get v
  header : f.header = f₀.header
  tables : f.TablesMade
  apart : f₀.TablesApart → f.TablesApart

theorem Building.appended {L : Placed} {k : ℕ} {f : Function}
    (hprep : Prepared f w₀.mem.func k) (h : Building w₀ w L)
    (hfresh : ∀ p ∈ L, f.dfg.blocks.len ≤ p.1)
    (hparams : ∀ p ∈ L, w₀.mem.func.CondParam p.1 p.2) : Appended f w.mem.func L where
  blocks := by rw [h.blocks, hprep.layout]
  fresh := hfresh
  terminator := h.terminator
  noArgs := h.noArgs
  length := h.length
  condParam p hp := by
    have := hparams p hp
    rwa [Function.CondParam, Function.blockParams, ← h.dfgBlocks, ← h.values] at this
  insts_old b hb := by rw [h.insts_old b hb, hprep.layout]
  branch_old b hb := (h.branch_old b hb).trans (hprep.branch b)
  blocks_len := by
    rw [h.dfgBlocks, hprep.blocks_len]
    exact Nat.le_add_right _ _
  params_old b hb := by
    rw [Function.blockParams, h.dfgBlocks]
    exact hprep.params_old b hb
  values_len := by
    rw [h.values]
    exact hprep.values_len
  values_old v hv := by
    rw [h.values]
    exact hprep.values_old v hv
  header := h.header.trans hprep.header
  tables := h.tables
  apart := h.apart ∘ hprep.apart

/-- The parameters of the new blocks once the head of the construct has its condition. -/
theorem condParam_head {f : Function} {n k : ℕ} (hn : n = f.dfg.blocks.len) {b : ℕ}
    (hb : n ≤ b ∧ b < n + k) {o : Option (Terminator Block)}
    (ho : b = n → ∃ t, o = some t ∧ t.kind ≠ .jump) :
    ((f.makeBlocks k).appendBlockParam n .i32).CondParam b o := by
  subst hn
  have hget : ∀ c, f.dfg.blocks.len ≤ c ∧ c < f.dfg.blocks.len + k →
      (f.makeBlocks k).dfg.blocks.get c = [] := fun c hc => by
    simp only [Function.makeBlocks, Function.withDfg, if_pos hc]
  by_cases h : b = f.dfg.blocks.len
  · obtain ⟨t, rfl, ht⟩ := ho h
    subst h
    refine .inr ⟨f.dfg.values.len, t, ?_, Nat.lt_succ_self _, ?_, rfl, ht⟩
    · simp only [Function.appendBlockParam, Function.withDfg, Function.blockParams,
        PrimaryMap.set_get_self, hget _ hb]
      rfl
    · simp only [Function.appendBlockParam, Function.withDfg, Function.blockParams, hget _ hb]
      exact PrimaryMap.push_get_self _ _
  · left
    simp only [Function.appendBlockParam, Function.withDfg, Function.blockParams,
      PrimaryMap.set_get_of_ne _ _ h, hget _ hb]

/-- The blocks of an if/else. -/
def ifElsePlaced (n : Block) (v : Value) : Placed :=
  [(n, some (.brif v (n + 1) (n + 2))), (n + 1, some (.jump (n + 3))),
    (n + 2, some (.jump (n + 3))), (n + 3, none)]

theorem ifElse_spec (htab : w.mem.func.TablesMade) :
    Runs ifElse w
      (fun c w' =>
        c = .ifElse (.block w.mem.func.dfg.blocks.len) (.block (w.mem.func.dfg.blocks.len + 1))
          (.block (w.mem.func.dfg.blocks.len + 2)) (.block (w.mem.func.dfg.blocks.len + 3)) ∧
        Appended w.mem.func w'.mem.func
          (ifElsePlaced w.mem.func.dfg.blocks.len w.mem.func.dfg.values.len) ∧ Quiet w w') E := by
  unfold ifElse
  simp only [runs_bind, runs_makeBlock, withFunc_func, Function.makeBlock_eq,
    Function.makeBlocks_makeBlocks, Function.makeBlocks_len, runs_appendBlockParam, runs_new]
  set n := w.mem.func.dfg.blocks.len with hn
  have hprep := (prepared_makeBlocks htab 4).appendBlockParam (b := n) le_rfl .i32
  let w₀ : World (State δ) :=
    (w.withFunc ((w.mem.func.makeBlocks 4).appendBlockParam n .i32)).withPos .nowhere
  have h₀ : Building w₀ w₀ [] := .start rfl hprep.tables
  have next : ∀ (b : ℕ) {u : World (State δ)} {L : Placed}, Building w₀ u L →
      n ≤ b → b < n + 4 → b ∉ L.map Prod.fst →
      Runs (insertBlock b) u (fun _ u' => Building w₀ u' (L ++ [(b, none)])) E :=
    fun b _ _ h hb hlt hL => h.insertBlock (hprep.lt hlt) (hprep.notMem hb) hL
  -- in the order of the source: the head, both arms, the block behind them
  refine (next n h₀ le_rfl (by omega) (by simp)).weaken fun _ w₁ h₁ => ?_
  refine (h₁.insBrif _ _ _).weaken fun _ w₂ h₂ => ?_
  refine (next (n + 1) h₂ (by omega) (by omega) (by simp)).weaken fun _ w₃ h₃ => ?_
  refine (h₃.insJump _).weaken fun _ w₄ h₄ => ?_
  refine (next (n + 2) h₄ (by omega) (by omega) (by simp)).weaken fun _ w₅ h₅ => ?_
  refine (h₅.insJump _).weaken fun _ w₆ h₆ => ?_
  refine (next (n + 3) h₆ (by omega) (by omega) (by simp)).weaken fun _ w₇ h₇ => ?_
  refine ⟨rfl, h₇.appended hprep ?_ ?_, h₇.quiet⟩ <;>
    simp only [ifElsePlaced, List.mem_cons, List.not_mem_nil, or_false]
  · rintro p (rfl | rfl | rfl | rfl) <;> omega
  · rintro p (rfl | rfl | rfl | rfl) <;>
      exact condParam_head (k := 4) hn (by omega) (by simp [Terminator.kind])

/-- The blocks of a while loop. -/
def whilePlaced (n : Block) (v : Value) : Placed :=
  [(n, some (.brif v (n + 1) (n + 2))), (n + 1, some (.jump n)), (n + 2, none)]

theorem whileBlocks_spec (htab : w.mem.func.TablesMade) :
    Runs whileBlocks w
      (fun c w' =>
        c = .while_ (.block w.mem.func.dfg.blocks.len) (.block (w.mem.func.dfg.blocks.len + 1))
          (.block (w.mem.func.dfg.blocks.len + 2)) ∧
        Appended w.mem.func w'.mem.func
          (whilePlaced w.mem.func.dfg.blocks.len w.mem.func.dfg.values.len) ∧ Quiet w w') E := by
  unfold whileBlocks
  simp only [runs_bind, runs_makeBlock, withFunc_func, Function.makeBlock_eq,
    Function.makeBlocks_makeBlocks, Function.makeBlocks_len, runs_appendBlockParam, runs_new]
  set n := w.mem.func.dfg.blocks.len with hn
  have hprep := (prepared_makeBlocks htab 3).appendBlockParam (b := n) le_rfl .i32
  let w₀ : World (State δ) :=
    (w.withFunc ((w.mem.func.makeBlocks 3).appendBlockParam n .i32)).withPos .nowhere
  have h₀ : Building w₀ w₀ [] := .start rfl hprep.tables
  have next : ∀ (b : ℕ) {u : World (State δ)} {L : Placed}, Building w₀ u L →
      n ≤ b → b < n + 3 → b ∉ L.map Prod.fst →
      Runs (insertBlock b) u (fun _ u' => Building w₀ u' (L ++ [(b, none)])) E :=
    fun b _ _ h hb hlt hL => h.insertBlock (hprep.lt hlt) (hprep.notMem hb) hL
  refine (next n h₀ le_rfl (by omega) (by simp)).weaken fun _ w₁ h₁ => ?_
  refine (h₁.insBrif _ _ _).weaken fun _ w₂ h₂ => ?_
  refine (next (n + 1) h₂ (by omega) (by omega) (by simp)).weaken fun _ w₃ h₃ => ?_
  refine (h₃.insJump _).weaken fun _ w₄ h₄ => ?_
  refine (next (n + 2) h₄ (by omega) (by omega) (by simp)).weaken fun _ w₅ h₅ => ?_
  refine ⟨rfl, h₅.appended hprep ?_ ?_, h₅.quiet⟩ <;>
    simp only [whilePlaced, List.mem_cons, List.not_mem_nil, or_false]
  · rintro p (rfl | rfl | rfl) <;> omega
  · rintro p (rfl | rfl | rfl) <;>
      exact condParam_head (k := 3) hn (by omega) (by simp [Terminator.kind])

/-- The blocks of a sequence. -/
def chainPlaced : List Block → Placed
  | [] => []
  | [b] => [(b, none)]
  | b :: c :: rest => (b, some (.jump c)) :: chainPlaced (c :: rest)

theorem chainPlaced_fst (bs : List Block) : (chainPlaced bs).map Prod.fst = bs := by
  induction bs using chainPlaced.induct with
  | case1 => rfl
  | case2 b => rfl
  | case3 b c rest ih => simp [chainPlaced, ih]

private theorem Building.placeChain {L : Placed} {bs : List Block} (h : Building w₀ w L)
    (hbs : bs ≠ []) (hlt : ∀ b ∈ bs, b < w₀.mem.func.dfg.blocks.len)
    (hnew : ∀ b ∈ bs, b ∉ w₀.mem.func.layout.blocks) (hL : ∀ b ∈ bs, b ∉ L.map Prod.fst)
    (hnodup : bs.Nodup) :
    Runs (Clir.placeChain bs) w (fun _ w' => Building w₀ w' (L ++ chainPlaced bs)) E := by
  induction bs using chainPlaced.induct generalizing w L with
  | case1 => exact absurd rfl hbs
  | case2 b => exact h.insertBlock (hlt b (by simp)) (hnew b (by simp)) (hL b (by simp))
  | case3 b c rest ih =>
      have hb : b ∉ c :: rest := (List.nodup_cons.mp hnodup).1
      unfold Clir.placeChain
      refine Runs.bind (h.insertBlock (hlt b (by simp)) (hnew b (by simp)) (hL b (by simp)))
        fun _ w₁ h₁ => ?_
      refine Runs.bind (h₁.insJump c) fun _ w₂ h₂ => ?_
      have := ih h₂ (by simp) (fun x hx => hlt x (List.mem_cons_of_mem _ hx))
        (fun x hx => hnew x (List.mem_cons_of_mem _ hx)) (fun x hx => by
          have hxb : x ≠ b := fun e => hb (e ▸ hx)
          simpa [hxb] using hL x (List.mem_cons_of_mem _ hx))
        (List.nodup_cons.mp hnodup).2
      simpa [chainPlaced] using this

theorem sequential_spec (htab : w.mem.func.TablesMade) {n : ℕ} (hn : 0 < n) :
    Runs (sequential n) w
      (fun c w' =>
        c = .sequential ((List.range' w.mem.func.dfg.blocks.len n).map .block) ∧
        Appended w.mem.func w'.mem.func (chainPlaced (List.range' w.mem.func.dfg.blocks.len n)) ∧
        Quiet w w') E := by
  unfold sequential
  rw [runs_bind, runs_makeBlocks, runs_bind, runs_new]
  have hprep := prepared_makeBlocks htab n
  let w₀ : World (State δ) := (w.withFunc (w.mem.func.makeBlocks n)).withPos .nowhere
  have h₀ : Building w₀ w₀ [] := .start rfl hprep.tables
  have hrange : ∀ b ∈ List.range' w.mem.func.dfg.blocks.len n,
      w.mem.func.dfg.blocks.len ≤ b ∧ b < w.mem.func.dfg.blocks.len + n := fun b hb => by
    simpa using hb
  refine Runs.bind (h₀.placeChain (by simpa using hn.ne')
    (fun b hb => hprep.lt (hrange b hb).2) (fun b hb => hprep.notMem (hrange b hb).1) (by simp)
    List.nodup_range') fun _ w₁ h₁ => ?_
  have hfst : ∀ p ∈ chainPlaced (List.range' w.mem.func.dfg.blocks.len n),
      p.1 ∈ List.range' w.mem.func.dfg.blocks.len n := fun p hp => by
    rw [← chainPlaced_fst (List.range' w.mem.func.dfg.blocks.len n)]
    exact List.mem_map_of_mem hp
  refine ⟨rfl, h₁.appended hprep (fun p hp => (hrange _ (hfst p hp)).1) (fun p hp => .inl ?_),
    h₁.quiet⟩
  exact if_pos (hrange _ (hfst p hp))

private theorem Building.placeAll {L : Placed} {bs : List Block} (d : Block)
    (h : Building w₀ w L) (hlt : ∀ b ∈ bs, b < w₀.mem.func.dfg.blocks.len)
    (hnew : ∀ b ∈ bs, b ∉ w₀.mem.func.layout.blocks) (hL : ∀ b ∈ bs, b ∉ L.map Prod.fst)
    (hnodup : bs.Nodup) :
    Runs (bs.forM fun b => do
        Cursor.insertBlock b
        Clir.insJump d) w
      (fun _ w' => Building w₀ w' (L ++ bs.map fun b => (b, some (.jump d)))) E := by
  induction bs generalizing w L with
  | nil => simpa using h
  | cons b rest ih =>
      obtain ⟨hb, hrest⟩ := List.nodup_cons.mp hnodup
      rw [List.forM_eq_forM, List.forM_cons, ← List.forM_eq_forM, runs_bind, runs_bind]
      refine (h.insertBlock (hlt b (by simp)) (hnew b (by simp)) (hL b (by simp))).weaken
        fun _ w₁ h₁ => (h₁.insJump d).weaken fun _ w₂ h₂ => ?_
      have := ih h₂ (fun x hx => hlt x (List.mem_cons_of_mem _ hx))
        (fun x hx => hnew x (List.mem_cons_of_mem _ hx)) (fun x hx => by
          have hxb : x ≠ b := fun e => hb (e ▸ hx)
          simpa [hxb] using hL x (List.mem_cons_of_mem _ hx)) hrest
      simpa using this

/-- The blocks of a switch. -/
def switchPlaced (n : Block) (v : Value) (k : ℕ) : Placed :=
  (n, some (.brTable v (n + 1) (List.range' (n + 3) k))) ::
    ((List.range' (n + 3) k).map fun b => (b, some (.jump (n + 2)))) ++
    [(n + 1, some (.jump (n + 2))), (n + 2, none)]

theorem switchBlocks_spec (htab : w.mem.func.TablesMade) (k : ℕ) :
    Runs (switchBlocks k) w
      (fun c w' =>
        c = .switch (.block w.mem.func.dfg.blocks.len) (.block (w.mem.func.dfg.blocks.len + 1))
          ((List.range' (w.mem.func.dfg.blocks.len + 3) k).map .block)
          (.block (w.mem.func.dfg.blocks.len + 2)) ∧
        Appended w.mem.func w'.mem.func
          (switchPlaced w.mem.func.dfg.blocks.len w.mem.func.dfg.values.len k) ∧
        Quiet w w') E := by
  unfold switchBlocks
  simp only [runs_bind, runs_makeBlock, withFunc_func, Function.makeBlock_eq,
    Function.makeBlocks_makeBlocks, Function.makeBlocks_len, runs_makeBlocks,
    runs_appendBlockParam, runs_createJumpTable, runs_new]
  set n := w.mem.func.dfg.blocks.len with hn
  let table : JumpTableData := ⟨⟨n + 1, []⟩, (List.range' (n + 3) k).map fun b => ⟨b, []⟩⟩
  -- the blocks, the parameter of the first one and the table are made before anything is placed
  have hprep := ((prepared_makeBlocks htab (1 + (1 + (1 + k)))).appendBlockParam (b := n) le_rfl
    .i32).createJumpTable table
  let w₀ : World (State δ) := (w.withFunc (((w.mem.func.makeBlocks
    (1 + (1 + (1 + k)))).appendBlockParam n .i32).createJumpTable table)).withPos .nowhere
  have h₀ : Building w₀ w₀ [] := .start rfl hprep.tables
  have next : ∀ (b : ℕ) {u : World (State δ)} {L : Placed}, Building w₀ u L →
      n ≤ b → b < n + (1 + (1 + (1 + k))) → b ∉ L.map Prod.fst →
      Runs (insertBlock b) u (fun _ u' => Building w₀ u' (L ++ [(b, none)])) E :=
    fun b _ _ h hb hlt hL => h.insertBlock (hprep.lt hlt) (hprep.notMem hb) hL
  have hrange : ∀ b : ℕ, b ∈ List.range' (n + 3) k → n + 3 ≤ b ∧ b < n + 3 + k := fun b hb => by
    simpa using hb
  refine (next n h₀ le_rfl (by omega) (by simp)).weaken fun _ w₁ h₁ => ?_
  -- the new table is not named by any branch yet
  have hfresh : ∀ c, w₁.mem.func.tableOf c ≠ some
      ((w.mem.func.makeBlocks (1 + (1 + (1 + k)))).appendBlockParam n .i32).dfg.jumpTables.len := by
    intro c
    by_cases hc : c = n
    · have hempty : w₁.mem.func.layout.insts n = [] := by
        simpa using h₁.length (n, none) (by simp)
      simp [Function.tableOf, Layout.lastInst, hc, hempty]
    · rw [h₁.tableOf_old c (by simpa using hc)]
      exact htab.fresh c
  refine (h₁.insBrTable _ (Nat.lt_succ_self _) hfresh (n + 1) (List.range' (n + 3) k)
    (PrimaryMap.push_get_self _ _)).weaken fun _ w₂ h₂ => ?_
  refine (h₂.placeAll (n + 2) (fun b hb => hprep.lt (by have := hrange b hb; omega))
    (fun b hb => hprep.notMem (by have := hrange b hb; omega))
    (fun b hb hL => ?_) List.nodup_range').weaken fun _ w₃ h₃ => ?_
  · have := hrange b hb
    obtain rfl : b = n := by simpa using hL
    omega
  -- the cases are placed between the head and the default block
  have hcases : (List.range' (n + 3) k).map (Prod.fst ∘ fun b : ℕ =>
      (b, some (Terminator.jump (n + 2)))) = List.range' (n + 3) k := List.map_id _
  refine (next (n + 1) h₃ (by omega) (by omega) ?_).weaken fun _ w₄ h₄ => ?_
  · rw [List.map_append, List.map_map, hcases, List.mem_append, not_or]
    exact ⟨by simp, fun hm => by have := hrange _ hm; omega⟩
  refine (h₄.insJump _).weaken fun _ w₅ h₅ => ?_
  refine (next (n + 2) h₅ (by omega) (by omega) (by simp)).weaken fun _ w₆ h₆ => ?_
  have h : Building w₀ w₆ (switchPlaced n w.mem.func.dfg.values.len k) := by
    have hL : switchPlaced n w.mem.func.dfg.values.len k =
        [] ++ [(n, some (.brTable w.mem.func.dfg.values.len (n + 1) (List.range' (n + 3) k)))] ++
          ((List.range' (n + 3) k).map fun b => (b, some (.jump (n + 2)))) ++
          [(n + 1, some (.jump (n + 2)))] ++ [(n + 2, none)] := by
      simp [switchPlaced]
    rw [hL]
    exact h₆
  -- only the head has a parameter, and it does not end in a jump
  have hmem : ∀ (b : ℕ) o, (b, o) ∈ switchPlaced n w.mem.func.dfg.values.len k →
      (n ≤ b ∧ b < n + (1 + (1 + (1 + k)))) ∧ (b = n → ∃ t, o = some t ∧ t.kind ≠ .jump) := by
    intro b o hp
    simp only [switchPlaced, List.cons_append, List.mem_cons, List.mem_append, List.mem_map,
      List.not_mem_nil, or_false, Prod.mk.injEq] at hp
    rcases hp with ⟨rfl, rfl⟩ | ⟨b, hb, rfl, rfl⟩ | ⟨rfl, rfl⟩ | ⟨rfl, rfl⟩
    · exact ⟨by omega, fun _ => ⟨_, rfl, by simp [Terminator.kind]⟩⟩
    · have := hrange b hb
      exact ⟨by omega, fun h => by omega⟩
    · exact ⟨by omega, fun h => by omega⟩
    · exact ⟨by omega, fun h => by omega⟩
  refine ⟨rfl, h.appended hprep (fun p hp => (hmem _ _ hp).1.1) (fun p hp => ?_), h.quiet⟩
  exact condParam_head (k := 1 + (1 + (1 + k))) hn (hmem _ _ hp).1 (hmem _ _ hp).2

end Clir
