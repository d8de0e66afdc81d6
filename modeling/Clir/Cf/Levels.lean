import Clir.Cf.Skeleton

set_option autoImplicit false

/-! # The construction, level by level

Each level of `cf_construct` draws a construct and a block of the construct before it, and puts
the one in the place of the other. The invariant between two levels is that the function is a
skeleton and that every block the next level may pick has increasing destinations, which is why
`update_successor`, rebuilding a branch from a sorted set, rebuilds it as it was.
-/

namespace Clir

open Cmd Cursor Graph

/-! ## What is drawn -/

section Draws

variable {w : World (State History)} {I : World (State History) → Prop}

theorem chooseKind_spec {threshold : ℕ} (hI : ∀ ds, I { w with draws := ds }) :
    Spends 2 I (chooseKind threshold) w fun choice w' =>
      choice < 4 ∧ ∃ ds, w' = { w with draws := ds } := by
  unfold chooseKind
  refine Spends.bind (c := 1) (d := 1)
    (Spends.genRange (Q := fun _ w' => ∃ ds, w' = { w with draws := ds }) (by omega) (hI w.draws)
      fun _ ds _ _ => ⟨ds, rfl⟩) ?_
  rintro d _ ⟨ds, rfl⟩
  split_ifs
  · refine Spends.genRange (by omega) (hI ds) fun n ds' _ hn => ⟨by omega, ds', rfl⟩
  · exact (Spends.pure ⟨by omega, ds, rfl⟩).more (by omega)

/-- A list of blocks, read at a drawn index. -/
private theorem getElem?_range {n m i : ℕ} (h : i < m) :
    ((List.range' n m).map BlockType.block)[i]? = some (.block (n + i)) := by
  rw [List.getElem?_map, List.getElem?_range' h, Nat.one_mul, Option.map_some]

theorem getRandomBlock_spec {k : ConstructKind} (hk : k.Drawn) (n : ℕ)
    (hI : ∀ ds, I { w with draws := ds }) :
    Spends 2 I (k.blockType n).getRandomBlock w fun (b : ℕ) w' =>
      (n ≤ b ∧ b < n + k.size) ∧ ∃ ds, w' = { w with draws := ds } := by
  have hdraw : ∀ hi, 0 < hi → Spends 1 I (genRange 0 hi) w fun i w' =>
      i < hi ∧ ∃ ds, w' = { w with draws := ds } := fun hi hpos =>
    Spends.genRange hpos (hI w.draws) fun i ds _ hi => ⟨hi, ds, rfl⟩
  -- one draw picks the role, and a switch needs another one for the case
  cases k with
  | sequential m =>
      have hm : 2 ≤ m := hk
      refine Spends.bind (c := 1) (d := 1) (hdraw _ (by simp; omega)) ?_
      rintro i _ ⟨hi, ds, rfl⟩
      rw [List.length_map, List.length_range'] at hi
      rw [getElem?_range hi]
      refine (Spends.pure ⟨?_, ds, rfl⟩).more (by omega)
      exact ⟨Nat.le_add_right n i, Nat.add_lt_add_left hi n⟩
  | ifElse =>
      refine Spends.bind (c := 1) (d := 1) (hdraw 2 (by omega)) ?_
      rintro i _ ⟨hi, ds, rfl⟩
      split <;> exact (Spends.pure ⟨by simp [ConstructKind.size], ds, rfl⟩).more (by omega)
  | whileBlocks =>
      refine Spends.bind (c := 1) (d := 1) (hdraw 3 (by omega)) ?_
      rintro i _ ⟨hi, ds, rfl⟩
      split <;> exact (Spends.pure ⟨by simp [ConstructKind.size], ds, rfl⟩).more (by omega)
  | switch m =>
      have hm : 2 ≤ m := hk
      refine Spends.bind (c := 1) (d := 1) (hdraw 3 (by omega)) ?_
      rintro i _ ⟨hi, ds, rfl⟩
      split
      · exact (Spends.pure ⟨by simp [ConstructKind.size], ds, rfl⟩).more (by omega)
      · exact (Spends.pure ⟨by simp [ConstructKind.size], ds, rfl⟩).more (by omega)
      · refine Spends.bind (c := 1) (d := 0) (Spends.genRange
          (Q := fun i w' => i < m ∧ ∃ ds, w' = { w with draws := ds }) (by simp; omega) (hI ds)
          fun j ds' _ hj => ⟨by simpa using hj, ds', rfl⟩) ?_
        rintro j _ ⟨hj, ds', rfl⟩
        rw [getElem?_range hj]
        refine Spends.pure ⟨?_, ds', rfl⟩
        simp only [ConstructKind.size]
        omega

/-- The construct of a choice. Nothing but the blocks of the construct is new. -/
theorem makeChild_spec {choice : ℕ} (hchoice : choice < 4) (htab : w.mem.func.TablesMade)
    (hI : ∀ ds, I { w with draws := ds }) :
    Spends 1 I (makeChild choice) w fun o w' => ∃ k : ConstructKind, k.Drawn ∧
      o = some (k.blockType w.mem.func.dfg.blocks.len) ∧
      Appended w.mem.func w'.mem.func
        (k.placed w.mem.func.dfg.blocks.len w.mem.func.dfg.values.len) ∧
      w'.mem.locals = w.mem.locals := by
  -- once the construct is known, the rest is the same for all kinds
  have hmake : ∀ (k : ConstructKind), k.Drawn → ∀ ds,
      Spends 0 I (do return some (← k.make)) { w with draws := ds } fun o w' =>
        ∃ k : ConstructKind, k.Drawn ∧ o = some (k.blockType w.mem.func.dfg.blocks.len) ∧
          Appended w.mem.func w'.mem.func
            (k.placed w.mem.func.dfg.blocks.len w.mem.func.dfg.values.len) ∧
          w'.mem.locals = w.mem.locals := by
    intro k hk ds
    refine Spends.of_runs ((runs_bind _ _).mpr ?_)
    refine (ConstructKind.make_spec (w := { w with draws := ds }) hk.valid htab).weaken ?_
    rintro c w' ⟨rfl, hA, hdraws, hlocals⟩
    exact ⟨⟨k, hk, rfl, hA, hlocals⟩, hdraws⟩
  match choice, hchoice with
  | 0, _ =>
      refine Spends.bind (c := 1) (d := 0) (Spends.genRange
        (Q := fun m w' => 2 ≤ m ∧ ∃ ds, w' = { w with draws := ds }) (by omega) (hI w.draws)
        fun m ds hm _ => ⟨hm, ds, rfl⟩) ?_
      rintro m _ ⟨hm, ds, rfl⟩
      exact hmake (.sequential m) hm ds
  | 1, _ => exact (hmake .ifElse trivial w.draws).more (by omega)
  | 2, _ => exact (hmake .whileBlocks trivial w.draws).more (by omega)
  | 3, _ =>
      refine Spends.bind (c := 1) (d := 0) (Spends.genRange
        (Q := fun m w' => 6 ≤ m ∧ ∃ ds, w' = { w with draws := ds }) (by omega) (hI w.draws)
        fun m ds hm _ => ⟨hm, ds, rfl⟩) ?_
      rintro m _ ⟨hm, ds, rfl⟩
      exact hmake (.switch m) (show 2 ≤ m by omega) ds

end Draws

/-! ## One replacement -/

/-- What is known of a replacement: the last block of the construct gets the branch that the
replaced block had, the replaced block held nothing else, and the number of its successors tells
the kind of its branch. -/
structure Replacement.Ok (r : Replacement) : Prop where
  inherited : ∃ t, r.start.terminator r.replaced = some t ∧
    r.before.terminator r.replaced = some t ∧ r.after.terminator r.last = some t
  alone : (r.before.layout.insts r.replaced).length = 1
  jump : ((ControlFlowGraph.withFunction r.before).succs r.replaced).length = 1 ↔
    ∃ d, r.before.terminator r.replaced = some (.jump d)
  brif : ((ControlFlowGraph.withFunction r.before).succs r.replaced).length = 2 ↔
    ∃ v x y, r.before.terminator r.replaced = some (.brif v x y)
  table : 3 ≤ ((ControlFlowGraph.withFunction r.before).succs r.replaced).length ↔
    ∃ v d cs, r.before.terminator r.replaced = some (.brTable v d cs)

/-- The number of successors of a block of a skeleton tells the kind of its branch. -/
theorem succs_length_kind {f : Function} {R : Block} {t : Terminator Block}
    (ht : f.terminator R = some t) (hnodup : t.targets.Nodup)
    (htable : t.isTable → 3 ≤ t.targets.length) :
    (((ControlFlowGraph.withFunction f).succs R).length = 1 ↔
        ∃ d, f.terminator R = some (.jump d)) ∧
      (((ControlFlowGraph.withFunction f).succs R).length = 2 ↔
        ∃ v x y, f.terminator R = some (.brif v x y)) ∧
      (3 ≤ ((ControlFlowGraph.withFunction f).succs R).length ↔
        ∃ v d cs, f.terminator R = some (.brTable v d cs)) := by
  have hlen : ((ControlFlowGraph.withFunction f).succs R).length = t.targets.length := by
    rw [(succs_perm ht).length_eq, hnodup.dedup]
  rw [hlen, ht]
  cases t with
  | jump d => simp [Terminator.targets]
  | brif v x y => simp [Terminator.targets]
  | brTable v d cs =>
      have : 3 ≤ (Terminator.brTable v d cs).targets.length := htable rfl
      simp only [Option.some.injEq, reduceCtorEq, exists_false, iff_false,
        Terminator.brTable.injEq, exists_and_left, exists_eq', and_true,
        iff_true]
      omega

/-- A branch with increasing destinations is inherited as it is. -/
theorem Substituted.inherited {f₀ f : Function} {L : Placed} {R first last : Block}
    {t : Terminator Block} (h : Substituted f₀ f L R first last t) (hR : R ∉ t.targets)
    (hsorted : t.targets.Pairwise (· < ·)) : f.terminator last = some t := by
  obtain ⟨s, hs, hkind, harg, hsorted', hmem⟩ := h.terminator_last
  rw [Terminator.rename_eq_self hR] at hmem
  have htargets : s.targets = t.targets :=
    List.Perm.eq_of_pairwise (fun _ _ _ _ hab hba => absurd hab (Nat.lt_asymm hba)) hsorted'
      hsorted ((List.perm_ext_iff_of_nodup (hsorted'.imp fun h => Nat.ne_of_lt h)
        (hsorted.imp fun h => Nat.ne_of_lt h)).mpr hmem)
  rw [hs, Terminator.ext_of_targets hkind harg htargets]

theorem replaceBlock_spec {w : World (State History)} {f₀ : Function} {entry exit R : Block}
    {t : Terminator Block} {k : ConstructKind} (hk : k.Drawn) (hs : Skeleton f₀ entry exit)
    (hA : Appended f₀ w.mem.func (k.placed f₀.dfg.blocks.len f₀.dfg.values.len))
    (hR : R ∈ f₀.layout.blocks) (hexit : R ≠ exit) (ht : f₀.terminator R = some t)
    (hsorted : t.targets.Pairwise (· < ·)) :
    Runs (replaceBlock (k.blockType f₀.dfg.blocks.len) R) w
      (fun _ w' => (Substituted f₀ w'.mem.func (k.placed f₀.dfg.blocks.len f₀.dfg.values.len) R
          f₀.dfg.blocks.len (k.last f₀.dfg.blocks.len) t ∧
        ∃ r : Replacement, r.Ok ∧ w'.mem.locals = r :: w.mem.locals) ∧ w'.draws = w.draws)
      fun _ _ => False := by
  have hL := k.placed_ok hk.valid f₀.dfg.blocks.len f₀.dfg.values.len
  have hone := hs.one R hR hexit
  have hRL := hA.notMem_of_mem hR
  have hRt : R ∉ t.targets := fun hm => hs.irrefl R ⟨t, ht, hm⟩
  have hfresh : ∀ b ∈ (k.placed f₀.dfg.blocks.len f₀.dfg.values.len).map Prod.fst,
      f₀.dfg.blocks.len ≤ b := fun b hb => (ConstructKind.mem_placed_fst.mp hb).1
  unfold replaceBlock
  rw [runs_bind, runs_func, runs_bind, Runs, ConstructKind.getFirstBlock_eq hk.valid]
  refine Runs.bind (updatePredecessor_appended hs.branchesOk hL hA hR) ?_
  rintro _ w₂ ⟨hRd, hquiet⟩
  -- `R` is not its own successor, so redirecting its predecessors leaves its branch alone
  have ht₂ : w₂.mem.func.terminator R = some t := by
    rw [hRd.terminator_old R hRL, ht, Option.map_some, Terminator.rename_eq_self hRt]
  rw [runs_bind, Runs, ConstructKind.getLastBlock_eq hk.valid]
  refine (runs_bind _ _).mpr (runs_func.mpr ?_)
  refine Runs.bind (updateSuccessor_redirected hs.branchesOk hL hfresh hA.nodup hRd hR hone ht) ?_
  rintro _ w₃ ⟨hS, hquiet'⟩
  obtain ⟨h₁, h₂, h₃⟩ := succs_length_kind ht₂ (hs.nodup R t ht) (hs.table R t ht)
  refine ⟨⟨hS, ⟨k.last f₀.dfg.blocks.len, R, w.mem.func, w₂.mem.func, w₃.mem.func⟩, ?_, ?_⟩, ?_⟩
  · refine ⟨⟨t, ?_, ht₂, hS.inherited hRt hsorted⟩, ?_, h₁, h₂, h₃⟩
    · exact (hA.terminator_old hRL).trans ht
    · exact (hRd.length_old R hRL).trans hone
  · exact congrArg _ (hquiet'.2.trans hquiet.2)
  · exact hquiet'.1.trans hquiet.1

/-! ## One level -/

/-- Between two levels: the function is a skeleton, and the blocks of the newest construct, which
starts at block `n`, lie inside it and have increasing destinations. -/
structure Grown (f : Function) (entry exit : Block) (k : ConstructKind) (n : ℕ) : Prop where
  drawn : k.Drawn
  skeleton : Skeleton f entry exit
  newest : ∀ b : ℕ, n ≤ b → b < n + k.size → b ∈ f.layout.blocks ∧ b ≠ entry ∧ b ≠ exit ∧
    ∃ t, f.terminator b = some t ∧ t.targets.Pairwise (· < ·)

/-- Every replacement recorded so far. -/
def HistoryOk (w : World (State History)) : Prop := ∀ r ∈ w.mem.locals, r.Ok

theorem Grown.substituted {f₀ f : Function} {entry exit R : Block} {t : Terminator Block}
    {k : ConstructKind} (hk : k.Drawn) (hs : Skeleton f₀ entry exit)
    (h : Substituted f₀ f (k.placed f₀.dfg.blocks.len f₀.dfg.values.len) R f₀.dfg.blocks.len
      (k.last f₀.dfg.blocks.len) t)
    (hR : R ∈ f₀.layout.blocks) (hentry : R ≠ entry) (hexit : R ≠ exit)
    (ht : f₀.terminator R = some t) : Grown f entry exit k f₀.dfg.blocks.len := by
  have hL := k.placed_ok hk.valid f₀.dfg.blocks.len f₀.dfg.values.len
  have hfresh : ∀ b ∈ (k.placed f₀.dfg.blocks.len f₀.dfg.values.len).map Prod.fst,
      f₀.dfg.blocks.len ≤ b := fun b hb => (ConstructKind.mem_placed_fst.mp hb).1
  have hne : ∀ b : ℕ, f₀.dfg.blocks.len ≤ b → ∀ c ∈ f₀.layout.blocks, b ≠ c := fun b hb c hc e =>
    Nat.not_lt.mpr hb (e ▸ f₀.blocks_lt c hc)
  refine ⟨hk, hs.substituted h hL (ConstructKind.placed_shaped hk _ _)
    (ConstructKind.region hk.valid _ _) hfresh hR hentry.symm hexit.symm ht, ?_⟩
  intro b hlo hhi
  have hb := ConstructKind.mem_placed_fst (v := f₀.dfg.values.len) |>.mpr ⟨hlo, hhi⟩
  refine ⟨?_, hne b hlo entry hs.flow.root_mem, hne b hlo exit hs.flow.exit_mem, ?_⟩
  · rw [h.blocks]
    exact List.mem_append_right _ hb
  · by_cases hbl : b = k.last f₀.dfg.blocks.len
    · obtain ⟨s, hs', -, -, hsorted, -⟩ := h.terminator_last
      exact ⟨s, hbl ▸ hs', hsorted⟩
    · obtain ⟨⟨b, o⟩, hp, rfl⟩ := List.mem_map.mp hb
      obtain ⟨s, rfl⟩ := ConstructKind.some_of_ne_last hp hbl
      exact ⟨s, h.terminator_new b s hp, (ConstructKind.branch_placed hp).2⟩

theorem cfReplace_spec {w : World (State History)} {entry exit : Block} {k : ConstructKind}
    {n threshold : ℕ} {otherwise : M History Unit} (hg : Grown w.mem.func entry exit k n)
    (hh : HistoryOk w) :
    Spends 5 HistoryOk (cfReplace (k.blockType n) threshold otherwise) w fun o w' =>
      (∃ k' n', o = some (ConstructKind.blockType n' k') ∧ Grown w'.mem.func entry exit k' n') ∧
        HistoryOk w' ∧ w'.mem.locals.length = w.mem.locals.length + 1 ∧
        w'.mem.func.header = w.mem.func.header := by
  unfold cfReplace
  refine Spends.bind (c := 2) (d := 3) (chooseKind_spec fun ds => hh) ?_
  rintro choice _ ⟨hchoice, ds, rfl⟩
  refine Spends.bind (c := 2) (d := 1) (getRandomBlock_spec hg.drawn n fun ds' => hh) ?_
  rintro R _ ⟨⟨hlo, hhi⟩, ds', rfl⟩
  obtain ⟨hR, hentry, hexit, t, ht, hsorted⟩ := hg.newest R hlo hhi
  refine Spends.bind (c := 1) (d := 0) (makeChild_spec hchoice hg.skeleton.tables fun _ => hh) ?_
  rintro _ w₂ ⟨k', hk', rfl, hA, hlocals⟩
  refine Spends.bind (c := 0) (d := 0)
    (Spends.of_runs (replaceBlock_spec hk' hg.skeleton hA hR hexit ht hsorted)) ?_
  rintro _ w₃ ⟨hS, r, hr, hlocals'⟩
  have hlength : w₃.mem.locals.length = w.mem.locals.length + 1 := by
    rw [hlocals', hlocals]
    rfl
  refine Spends.pure ⟨⟨k', _, rfl, Grown.substituted hk' hg.skeleton hS hR hentry hexit ht⟩, ?_,
    hlength, hS.header⟩
  intro r' hr'
  rw [hlocals', hlocals] at hr'
  rcases List.mem_cons.mp hr' with rfl | hr'
  · exact hr
  · exact hh r' hr'

/-- The entry block and the end block of an empty function, before the first construct. -/
structure Opened (f₀ f : Function) : Prop where
  blocks : f.layout.blocks = [0, 1]
  empty : ∀ b ∈ f.layout.blocks, f.layout.insts b = []
  params : ∀ b ∈ f.layout.blocks, f.blockParams b = []
  header : f.header = f₀.header
  tables : f.TablesMade

/-- The first construct, with the jumps from the entry block and to the end block. -/
theorem Opened.grown {f₀ f₁ f : Function} (h : Opened f₀ f₁) {k : ConstructKind} (hk : k.Drawn)
    (hA : Appended f₁ f (k.placed f₁.dfg.blocks.len f₁.dfg.values.len))
    (he : (0 : Block) ∈ f.layout.blocks)
    (hl : k.last f₁.dfg.blocks.len ∈
      (f.pushInst 0 (.jump ⟨f₁.dfg.blocks.len, []⟩) [] he).layout.blocks) :
    Grown ((f.pushInst 0 (.jump ⟨f₁.dfg.blocks.len, []⟩) [] he).pushInst
      (k.last f₁.dfg.blocks.len) (.jump ⟨1, []⟩) [] hl) 0 1 k f₁.dfg.blocks.len := by
  have hL := k.placed_ok hk.valid f₁.dfg.blocks.len f₁.dfg.values.len
  have hroot := hA.rooted h.blocks (by decide) hL h.empty h.params he hl
  have hout : ∀ b ∈ (k.placed f₁.dfg.blocks.len f₁.dfg.values.len).map Prod.fst,
      b ∉ f₁.layout.blocks := fun b hb hm => hA.notMem_of_mem hm hb
  refine ⟨hk, hroot.skeleton h.blocks (by decide) hL (ConstructKind.placed_shaped hk _ _) hA.nodup
    (ConstructKind.region hk.valid _ _) hout, ?_⟩
  intro b hlo hhi
  have hb := ConstructKind.mem_placed_fst (v := f₁.dfg.values.len) |>.mpr ⟨hlo, hhi⟩
  have hb' := hout b hb
  rw [h.blocks, List.mem_cons, List.mem_singleton, not_or] at hb'
  refine ⟨?_, hb'.1, hb'.2, ?_⟩
  · rw [hroot.blocks]
    exact List.mem_append_right _ hb
  · by_cases hbl : b = k.last f₁.dfg.blocks.len
    · refine ⟨.jump 1, ?_, List.pairwise_singleton _ _⟩
      rw [hbl]
      exact hroot.terminator_last
    · obtain ⟨⟨b, o⟩, hp, rfl⟩ := List.mem_map.mp hb
      obtain ⟨s, rfl⟩ := ConstructKind.some_of_ne_last hp hbl
      exact ⟨s, hroot.terminator_new _ hp hbl, (ConstructKind.branch_placed hp).2⟩

/-- `cf_construct` without a parent, from the point where the two blocks are placed. -/
private theorem rootConstruct_spec {w : World (State History)} {f₀ : Function}
    (h : Opened f₀ w.mem.func) (hh : HistoryOk w) :
    Spends 3 HistoryOk (do
      match ← makeChild (← chooseKind 2) with
      | some child =>
          Cursor.new
          gotoBottom 0
          insJump (← child.getFirstBlock)
          gotoBottom (← child.getLastBlock)
          insJump 1
          return some child
      | none => return none) w fun o w' =>
        (∃ k' n', o = some (ConstructKind.blockType n' k') ∧ Grown w'.mem.func 0 1 k' n') ∧
          HistoryOk w' ∧ w'.mem.locals = w.mem.locals ∧ w'.mem.func.header = f₀.header := by
  refine Spends.bind (c := 2) (d := 1) (chooseKind_spec fun ds => hh) ?_
  rintro choice _ ⟨hchoice, ds, rfl⟩
  refine Spends.bind (c := 1) (d := 0) (makeChild_spec hchoice h.tables fun _ => hh) ?_
  rintro _ w₂ ⟨k, hk, rfl, hA, hlocals⟩
  have he : (0 : Block) ∈ w₂.mem.func.layout.blocks := by
    rw [hA.blocks]
    exact List.mem_append_left _ (by simp [h.blocks])
  have hl : k.last w.mem.func.dfg.blocks.len ∈ w₂.mem.func.layout.blocks := by
    rw [hA.blocks]
    exact List.mem_append_right _ (List.mem_map.mpr ⟨_, ConstructKind.last_mem hk.valid _ _, rfl⟩)
  -- what follows draws nothing: a jump into the construct and a jump out of it
  refine Spends.of_runs ?_
  simp only [runs_bind, runs_new]
  rw [runs_gotoBottom (by exact he), Runs, ConstructKind.getFirstBlock_eq hk.valid]
  refine (runs_insJump rfl (by exact he)).mpr ?_
  rw [Runs, ConstructKind.getLastBlock_eq hk.valid]
  refine (runs_gotoBottom (by exact hl)).mpr ((runs_insJump rfl (by exact hl)).mpr ?_)
  refine ⟨⟨⟨k, _, rfl, h.grown hk hA he hl⟩, ?_, hlocals, hA.header.trans h.header⟩, rfl⟩
  intro r hr
  exact hh r (by rw [← hlocals]; exact hr)

theorem cfRoot_spec {w : World (State History)} {name : FuncName} {signature : Signature}
    (hf : w.mem.func = Function.new name signature) (hh : HistoryOk w) :
    Spends 3 HistoryOk cfRoot w fun o w' =>
      (∃ k' n', o = some (ConstructKind.blockType n' k') ∧ Grown w'.mem.func 0 1 k' n') ∧
        HistoryOk w' ∧ w'.mem.locals = w.mem.locals ∧
        w'.mem.func.header = w.mem.func.header := by
  obtain ⟨draws, f, pos, locals⟩ := w
  obtain rfl : f = Function.new name signature := hf
  unfold cfRoot Spends
  -- the two blocks are made and placed without a draw
  simp only [runs_bind, runs_makeBlock, runs_new]
  rw [runs_insertBlock_nowhere rfl (show 0 < 2 by decide) (show 0 ∉ [] by decide),
    runs_insertBlock_after rfl (show 1 < 2 by decide) (show 1 ∉ [0] by decide)
      (show 0 ∈ [0] by decide)]
  simp only [← runs_bind]
  refine rootConstruct_spec ⟨?_, ?_, ?_, ?_, ?_⟩ hh
  · rfl
  · exact fun _ _ => rfl
  · intro b hb
    rcases List.mem_pair.mp (show b ∈ [0, 1] from hb) with rfl | rfl <;> rfl
  · rfl
  · intro b k hk
    exact absurd (show (none : Option JumpTable) = some k from hk) (by simp)

/-! ## Whole runs -/

theorem cfLevel_spec {w : World (State History)} {entry exit : Block} {k : ConstructKind} {n : ℕ}
    (hg : Grown w.mem.func entry exit k n) (hh : HistoryOk w) :
    Spends 5 HistoryOk (cfLevel (some (k.blockType n))) w fun o w' =>
      (∃ k' n', o = some (ConstructKind.blockType n' k') ∧ Grown w'.mem.func entry exit k' n') ∧
        HistoryOk w' ∧ w'.mem.locals.length = w.mem.locals.length + 1 ∧
        w'.mem.func.header = w.mem.func.header := by
  cases k <;> exact cfReplace_spec hg hh

theorem cfLevels_spec {w : World (State History)} {entry exit : Block} (levels : ℕ)
    {k : ConstructKind} {n : ℕ} (hg : Grown w.mem.func entry exit k n) (hh : HistoryOk w) :
    Spends (5 * (levels + 1)) HistoryOk (cfLevels levels (some (k.blockType n))) w fun _ w' =>
      Skeleton w'.mem.func entry exit ∧ HistoryOk w' ∧
        w'.mem.locals.length = w.mem.locals.length + (levels + 1) ∧
        w'.mem.func.header = w.mem.func.header := by
  induction levels generalizing w k n with
  | zero =>
      refine Spends.bind (c := 5) (d := 0) (cfLevel_spec hg hh) ?_
      rintro _ w' ⟨⟨k', n', -, hg'⟩, hh', hlen, hheader⟩
      exact Spends.pure ⟨hg'.skeleton, hh', hlen, hheader⟩
  | succ levels ih =>
      rw [show 5 * (levels + 1 + 1) = 5 + 5 * (levels + 1) by ring]
      refine Spends.bind (cfLevel_spec hg hh) ?_
      rintro _ w' ⟨⟨k', n', rfl, hg'⟩, hh', hlen, hheader⟩
      exact (ih hg' hh').mono fun _ w'' ⟨h₁, h₂, h₃, h₄⟩ =>
        ⟨h₁, h₂, by omega, h₄.trans hheader⟩

/-- **A run of `cf_construct`** on an empty function: it stops early only for want of draws, five
for each level, and leaves a skeleton between the blocks `0` and `1`. Every level but the first
replaces one block. -/
theorem cfConstruct_spec (maxDepth : ℕ) (name : FuncName) (signature : Signature)
    (draws : List ℕ) :
    Spends (5 * (maxDepth + 1)) HistoryOk (cfConstruct maxDepth none 0)
      (cfStart name signature draws) fun _ w' =>
        Skeleton w'.mem.func 0 1 ∧ HistoryOk w' ∧ w'.mem.locals.length = maxDepth ∧
          w'.mem.func.header = (Function.new name signature).header := by
  have hh : HistoryOk (cfStart name signature draws) := fun r hr => by simp [cfStart] at hr
  have hroot := (cfRoot_spec (w := cfStart name signature draws) rfl hh).more
    (show 3 ≤ 5 by omega)
  have hnil : (cfStart name signature draws).mem.locals = [] := rfl
  unfold cfConstruct
  cases maxDepth with
  | zero =>
      refine Spends.bind (c := 5) (d := 0) hroot ?_
      rintro _ w' ⟨⟨k', n', -, hg'⟩, hh', hlocals, hheader⟩
      exact Spends.pure ⟨hg'.skeleton, hh', by rw [hlocals, hnil]; rfl, hheader⟩
  | succ levels =>
      rw [show 5 * (levels + 1 + 1) = 5 + 5 * (levels + 1) by ring]
      refine Spends.bind hroot ?_
      rintro _ w' ⟨⟨k', n', rfl, hg'⟩, hh', hlocals, hheader⟩
      refine (cfLevels_spec levels hg' hh').mono ?_
      rintro _ w'' ⟨h₁, h₂, h₃, h₄⟩
      rw [hlocals, hnil, List.length_nil, Nat.zero_add] at h₃
      exact ⟨h₁, h₂, h₃, h₄.trans hheader⟩

end Clir
