import Clir.Cf.Levels

set_option autoImplicit false

/-! # What control flow construction guarantees

The results about whole runs of `cf_construct`, for every recursion bound and every stream of
draws. A stream may end early; the run then stops (`Halt.starved`), and what is said about
replacements and panics holds for such runs too. Five draws for each level are always enough.
-/

namespace Clir

open Cmd Graph Relation

/-- A skeleton in terms of the layout: everything lies between the entry block and the end block,
and each block but the end block holds one instruction, a branch. -/
structure Function.WellFormed (f : Function) (entry exit : Block) : Prop where
  entry_first : f.layout.blocks.head? = some entry
  entry_noPred : ∀ b, ¬ f.Edge b entry
  targets_mem : ∀ b c, f.Edge b c → c ∈ f.layout.blocks
  reachable : ∀ b ∈ f.layout.blocks, ReflTransGen f.Edge entry b
  exit_reachable : ∀ b ∈ f.layout.blocks, ReflTransGen f.Edge b exit
  exit_mem : exit ∈ f.layout.blocks
  exit_empty : f.layout.insts exit = []
  one_branch : ∀ b ∈ f.layout.blocks, b ≠ exit →
    ∃ i, f.layout.insts b = [i] ∧ (f.instData i).isBranch = true

theorem Function.isBranch_of_branchOf {f : Function} {data : InstructionData}
    {t : Terminator BlockCall} (h : f.branchOf data = some t) : data.isBranch = true := by
  cases data <;> first | rfl | simp [branchOf] at h

theorem Skeleton.wellFormed {f : Function} {entry exit : Block} (h : Skeleton f entry exit) :
    f.WellFormed entry exit where
  entry_first := h.head
  entry_noPred := h.flow.no_pred
  targets_mem b c he := (h.flow.edge_mem b c he).2
  reachable := h.flow.reach
  exit_reachable := h.flow.coreach
  exit_mem := h.flow.exit_mem
  exit_empty := h.exit_empty
  one_branch b hb hne := by
    obtain ⟨i, hi⟩ := List.length_eq_one_iff.mp (h.one b hb hne)
    obtain ⟨t, ht⟩ := h.branch b hb hne
    obtain ⟨j, t', hlast, hbr, -⟩ := Function.exists_of_terminator ht
    obtain rfl : i = j := by simpa [Layout.lastInst, hi] using hlast
    exact ⟨i, hi, Function.isBranch_of_branchOf hbr⟩

section Runs

variable (maxDepth : ℕ) (name : FuncName) (signature : Signature) (draws : List ℕ)

/-- **The skeleton is well formed**, between the block made first and the block made second. -/
theorem cfConstruct_wellFormed :
    (∀ w, cfConstruct maxDepth none 0 (cfStart name signature draws) = .ok () w →
      w.mem.func.WellFormed 0 1) ∧
    (5 * (maxDepth + 1) ≤ draws.length →
      ∃ w, cfConstruct maxDepth none 0 (cfStart name signature draws) = .ok () w) := by
  have hspec := cfConstruct_spec maxDepth name signature draws
  constructor
  · intro w hw
    exact (Runs.of_ok hspec hw).1.1.wellFormed
  · intro hlen
    obtain ⟨⟨⟩, w, hw, -⟩ := hspec.exists_ok hlen
    exact ⟨w, hw⟩

/-- **Branches are inherited position by position**: each replaced block hands its branch on to
the last block of the construct. A completed run has replaced one block for each level below the
first. -/
theorem cfConstruct_inherits :
    (∀ r ∈ (after (cfConstruct maxDepth none 0) (cfStart name signature draws)).mem.locals,
      ∃ t, r.start.terminator r.replaced = some t ∧ r.before.terminator r.replaced = some t ∧
        r.after.terminator r.last = some t) ∧
    (5 * (maxDepth + 1) ≤ draws.length →
      (after (cfConstruct maxDepth none 0) (cfStart name signature draws)).mem.locals.length =
        maxDepth) := by
  have hspec := cfConstruct_spec maxDepth name signature draws
  constructor
  · intro r hr
    exact (hspec.after (fun _ _ h => h.2.1) r hr).inherited
  · intro hlen
    obtain ⟨⟨⟩, w, hw, -, -, hlocals, -⟩ := hspec.exists_ok hlen
    rw [after, hw]
    exact hlocals

/-- **Control flow construction never panics.** At every call of `update_successor` the number of
successors fits the kind of the branch, and the block that is taken out of the layout holds only
the branch that has been moved. -/
theorem cfConstruct_never_panics :
    (∀ message w, cfConstruct maxDepth none 0 (cfStart name signature draws) ≠
      .error (.panic message) w) ∧
    ∀ r ∈ (after (cfConstruct maxDepth none 0) (cfStart name signature draws)).mem.locals,
      (((ControlFlowGraph.withFunction r.before).succs r.replaced).length = 1 ↔
        ∃ d, r.before.terminator r.replaced = some (.jump d)) ∧
      (((ControlFlowGraph.withFunction r.before).succs r.replaced).length = 2 ↔
        ∃ v x y, r.before.terminator r.replaced = some (.brif v x y)) ∧
      (3 ≤ ((ControlFlowGraph.withFunction r.before).succs r.replaced).length ↔
        ∃ v d cs, r.before.terminator r.replaced = some (.brTable v d cs)) ∧
      (r.before.layout.insts r.replaced).length = 1 := by
  have hspec := cfConstruct_spec maxDepth name signature draws
  constructor
  · intro message w hw
    have := (Runs.of_error hspec hw).1
    simp at this
  · intro r hr
    have hok := hspec.after (fun _ _ h => h.2.1) r hr
    exact ⟨hok.jump, hok.brif, hok.table, hok.alone⟩

/-- **The control flow is reducible**: every cycle has a block that dominates the cycle. -/
theorem cfConstruct_reducible :
    (∀ w, cfConstruct maxDepth none 0 (cfStart name signature draws) = .ok () w →
      Reducible w.mem.func.Edge 0) ∧
    (5 * (maxDepth + 1) ≤ draws.length →
      ∃ w, cfConstruct maxDepth none 0 (cfStart name signature draws) = .ok () w) := by
  have hspec := cfConstruct_spec maxDepth name signature draws
  constructor
  · intro w hw
    exact (Runs.of_ok hspec hw).1.1.flow.reducible
  · intro hlen
    obtain ⟨⟨⟩, w, hw, -⟩ := hspec.exists_ok hlen
    exact ⟨w, hw⟩

end Runs

end Clir
