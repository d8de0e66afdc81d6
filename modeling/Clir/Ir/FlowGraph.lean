import Clir.Ir.Function
import Clir.Lib.Graph

set_option autoImplicit false

/-! # The control flow graph of a function

`ControlFlowGraph::compute` visits the blocks in layout order and adds an edge for every
destination of the branch that ends a block. Predecessors are kept in the order of their branch
instructions, successors as a set in the order of block numbers. Only the last instruction of a
block counts, and it counts only if it is a branch.

`Function.branch` and `Function.terminator` are what later proofs read instead: the branch that
ends a block, with its jump table looked up, and the same without block call arguments.
`Function.Edge` is the edge relation, and `mem_succs`, `mem_preds` say that the computed graph is
that relation.
-/

namespace Clir

open ListEdit

/-! ## Branches -/

/-- A branch with destinations of type `κ`: block calls, or only their blocks. -/
inductive Terminator (κ : Type)
  | jump (dest : κ)
  | brif (arg : Value) (destThen destElse : κ)
  | brTable (arg : Value) (default : κ) (cases : List κ)
  deriving DecidableEq, Repr

namespace Terminator

variable {κ κ' : Type}

def targets : Terminator κ → List κ
  | jump d => [d]
  | brif _ t e => [t, e]
  | brTable _ d cs => d :: cs

def map (g : κ → κ') : Terminator κ → Terminator κ'
  | jump d => jump (g d)
  | brif v t e => brif v (g t) (g e)
  | brTable v d cs => brTable v (g d) (cs.map g)

/-- The condition or index operand. -/
def arg : Terminator κ → Option Value
  | jump _ => none
  | brif v _ _ | brTable v _ _ => some v

/-- The three kinds of branch. -/
inductive Kind
  | jump | brif | brTable
  deriving DecidableEq, Repr

def kind : Terminator κ → Kind
  | jump _ => .jump
  | brif _ _ _ => .brif
  | brTable _ _ _ => .brTable

/-- A branch is its kind, its operand, and its destinations in order. -/
theorem ext_of_targets {t t' : Terminator κ} (hkind : t.kind = t'.kind) (harg : t.arg = t'.arg)
    (htargets : t.targets = t'.targets) : t = t' := by
  cases t <;> cases t' <;> simp_all [kind, arg, targets]

@[simp] theorem targets_map (g : κ → κ') (t : Terminator κ) :
    (t.map g).targets = t.targets.map g := by
  cases t <;> simp [map, targets]

theorem map_map {κ'' : Type} (g : κ → κ') (h : κ' → κ'') (t : Terminator κ) :
    (t.map g).map h = t.map (h ∘ g) := by
  cases t <;> simp [map]

theorem map_congr {g h : κ → κ'} {t : Terminator κ} (hgh : ∀ x ∈ t.targets, g x = h x) :
    t.map g = t.map h := by
  cases t with
  | jump d => simp [map, hgh d (by simp [targets])]
  | brif v d e => simp [map, hgh d (by simp [targets]), hgh e (by simp [targets])]
  | brTable v d cs =>
      have : cs.map g = cs.map h :=
        List.map_congr_left fun x hx => hgh x (by simp [targets, hx])
      simp [map, hgh d (by simp [targets]), this]

end Terminator

/-- The branch an instruction is, with its jump table looked up. -/
def Function.branchOf (f : Function) : InstructionData → Option (Terminator BlockCall)
  | .jump c => some (.jump c)
  | .brif v c d => some (.brif v c d)
  | .branchTable v k =>
      let t := f.dfg.jumpTables.get k
      some (.brTable v t.defaultBlock t.table)
  | _ => none

/-! ## The computed graph -/

structure CfgNode where
  predecessors : Ordered (Prod.fst : Inst × Block → ℕ)
  successors : Ordered (id : Block → ℕ)

structure ControlFlowGraph where
  data : Block → CfgNode

namespace ControlFlowGraph

def empty : ControlFlowGraph := ⟨fun _ => ⟨.empty, .empty⟩⟩

def addSuccessor (g : ControlFlowGraph) (b dest : Block) : ControlFlowGraph :=
  ⟨Function.update g.data b
    { g.data b with successors := (g.data b).successors.insert dest }⟩

def addPredecessor (g : ControlFlowGraph) (dest : Block) (i : Inst) (b : Block) :
    ControlFlowGraph :=
  ⟨Function.update g.data dest
    { g.data dest with predecessors := (g.data dest).predecessors.insert (i, b) }⟩

/-- `add_edge` from a block, whose branch is the instruction given, to another one. -/
def addEdge (g : ControlFlowGraph) : Block × Inst × Block → ControlFlowGraph
  | (b, i, dest) => (g.addSuccessor b dest).addPredecessor dest i b

end ControlFlowGraph

/-- `visit_branch_targets`: the destinations of an instruction. -/
def Function.destinations (f : Function) (data : InstructionData) : List BlockCall :=
  match f.branchOf data with
  | some t => t.targets
  | none => []

/-- The edges out of a block. -/
def Function.blockEdges (f : Function) (b : Block) : List (Block × Inst × Block) :=
  match f.layout.lastInst b with
  | none => []
  | some i => (f.destinations (f.instData i)).map fun c => (b, i, c.block)

/-- `ControlFlowGraph::with_function` -/
def ControlFlowGraph.withFunction (f : Function) : ControlFlowGraph :=
  (f.layout.blocks.flatMap f.blockEdges).foldl addEdge empty

/-- `succ_iter` -/
def ControlFlowGraph.succs (g : ControlFlowGraph) (b : Block) : List Block :=
  (g.data b).successors.toList

/-- `pred_iter` -/
def ControlFlowGraph.preds (g : ControlFlowGraph) (b : Block) : List (Inst × Block) :=
  (g.data b).predecessors.toList

/-! ## Terminators and edges -/

namespace Function

/-- The branch that ends a block. -/
def branch (f : Function) (b : Block) : Option (Terminator BlockCall) :=
  (f.layout.lastInst b).bind fun i => f.branchOf (f.instData i)

/-- The branch that ends a block, without its block call arguments. -/
def terminator (f : Function) (b : Block) : Option (Terminator Block) :=
  (f.branch b).map (Terminator.map BlockCall.block)

/-- The edge relation of the control flow graph. -/
def Edge (f : Function) (u v : Block) : Prop :=
  ∃ t, f.terminator u = some t ∧ v ∈ t.targets

instance (f : Function) (u v : Block) : Decidable (f.Edge u v) :=
  match h : f.terminator u with
  | none => isFalse fun ⟨t, ht, _⟩ => by simp [h] at ht
  | some t =>
      if hv : v ∈ t.targets then isTrue ⟨t, h, hv⟩
      else isFalse fun ⟨t', ht', hv'⟩ => by
        rw [h, Option.some.injEq] at ht'
        exact hv (ht' ▸ hv')

variable {f : Function} {u v : Block}

theorem mem_blockEdges {i : Inst} {b : Block} :
    (b, i, v) ∈ f.blockEdges u ↔ b = u ∧ f.layout.lastInst u = some i ∧ f.Edge u v := by
  unfold blockEdges Edge terminator branch
  cases hlast : f.layout.lastInst u with
  | none => simp
  | some j =>
      have key : (∃ t, (f.branchOf (f.instData j)).map (Terminator.map BlockCall.block) =
          some t ∧ v ∈ t.targets) ↔
            v ∈ (f.destinations (f.instData j)).map BlockCall.block := by
        unfold destinations
        cases f.branchOf (f.instData j) <;> simp
      simp only [Option.bind_some, Option.some.injEq, key, List.mem_map]
      constructor
      · rintro ⟨c, hc, h⟩
        obtain ⟨rfl, rfl, rfl⟩ := by simpa using h
        exact ⟨rfl, rfl, c, hc, rfl⟩
      · rintro ⟨rfl, rfl, c, hc, rfl⟩
        exact ⟨c, hc, rfl⟩

theorem Edge.mem_blocks (h : f.Edge u v) : u ∈ f.layout.blocks := by
  obtain ⟨t, ht, -⟩ := h
  unfold terminator branch at ht
  cases hlast : f.layout.lastInst u with
  | none => simp [hlast] at ht
  | some i =>
      exact Layout.mem_blocks_of_mem_insts (List.mem_of_mem_getLast? hlast)

end Function

namespace ControlFlowGraph

theorem addEdge_successors (g : ControlFlowGraph) (b : Block) (i : Inst) (d u : Block) :
    ((g.addEdge (b, i, d)).data u).successors =
      if u = b then (g.data b).successors.insert d else (g.data u).successors := by
  have hpred : ((g.addEdge (b, i, d)).data u).successors =
      ((g.addSuccessor b d).data u).successors := by
    by_cases h : u = d
    · subst h
      simp [addEdge, addPredecessor]
    · simp [addEdge, addPredecessor, h]
  rw [hpred]
  by_cases h : u = b
  · subst h
    simp [addSuccessor]
  · simp [addSuccessor, h]

theorem addEdge_predecessors (g : ControlFlowGraph) (b : Block) (i : Inst) (d v : Block) :
    ((g.addEdge (b, i, d)).data v).predecessors =
      if v = d then (g.data d).predecessors.insert (i, b) else (g.data v).predecessors := by
  have hsucc : ∀ x, ((g.addSuccessor b d).data x).predecessors = (g.data x).predecessors := by
    intro x
    by_cases h : x = b
    · subst h
      simp [addSuccessor]
    · simp [addSuccessor, h]
  by_cases h : v = d
  · subst h
    simp [addEdge, addPredecessor, hsucc]
  · simp [addEdge, addPredecessor, h, hsucc]

private theorem mem_foldl_succs (L : List (Block × Inst × Block)) (u v : Block) :
    v ∈ ((L.foldl addEdge empty).data u).successors.toList ↔ ∃ i, (u, i, v) ∈ L := by
  -- from the right, since the edge that is added last decides the set
  induction L using List.reverseRecOn with
  | nil => simp [empty, Ordered.empty]
  | append_singleton L e ih =>
      obtain ⟨b, i, d⟩ := e
      rw [List.foldl_append, List.foldl_cons, List.foldl_nil, addEdge_successors]
      by_cases hb : u = b
      · subst hb
        rw [if_pos rfl, Ordered.mem_insert, ih]
        constructor
        · rintro (rfl | ⟨⟨j, hj⟩, -⟩)
          · exact ⟨i, by simp⟩
          · exact ⟨j, by simp [hj]⟩
        · rintro ⟨j, hj⟩
          by_cases hvd : v = d
          · exact .inl hvd
          · refine .inr ⟨⟨j, ?_⟩, by simpa using hvd⟩
            simpa [hvd] using hj
      · rw [if_neg hb, ih]
        simp [hb]

private theorem mem_foldl_preds (L : List (Block × Inst × Block))
    (hL : ∀ b i d b' d', (b, i, d) ∈ L → (b', i, d') ∈ L → b = b') (v p : Block) (j : Inst) :
    (j, p) ∈ ((L.foldl addEdge empty).data v).predecessors.toList ↔ (p, j, v) ∈ L := by
  induction L using List.reverseRecOn with
  | nil => simp [empty, Ordered.empty]
  | append_singleton L e ih =>
      obtain ⟨b, i, d⟩ := e
      have ih := ih fun b i d b' d' h h' =>
        hL b i d b' d' (List.mem_append_left _ h) (List.mem_append_left _ h')
      rw [List.foldl_append, List.foldl_cons, List.foldl_nil, addEdge_predecessors]
      by_cases hv : v = d
      · subst hv
        rw [if_pos rfl, Ordered.mem_insert, ih]
        constructor
        · rintro (h | ⟨h, -⟩)
          · obtain ⟨rfl, rfl⟩ := by simpa using h
            simp
          · simp [h]
        · intro h
          by_cases hji : j = i
          · -- the same branch instruction ends the same block
            subst hji
            obtain rfl : p = b := hL p j v b v h (by simp)
            exact .inl rfl
          · exact .inr ⟨by simpa [hji] using h, hji⟩
      · rw [if_neg hv, ih]
        simp [hv]

theorem mem_succs {f : Function} {u v : Block} :
    v ∈ (withFunction f).succs u ↔ f.Edge u v := by
  rw [succs, withFunction, mem_foldl_succs]
  simp only [List.mem_flatMap, Function.mem_blockEdges]
  constructor
  · rintro ⟨i, b, hb, rfl, hlast, he⟩
    exact he
  · intro he
    cases hlast : f.layout.lastInst u with
    | none =>
        obtain ⟨t, ht, -⟩ := he
        simp [Function.terminator, Function.branch, hlast] at ht
    | some i => exact ⟨i, u, he.mem_blocks, rfl, hlast, he⟩

theorem mem_preds {f : Function} {v p : Block} {i : Inst} :
    (i, p) ∈ (withFunction f).preds v ↔ f.layout.lastInst p = some i ∧ f.Edge p v := by
  rw [preds, withFunction, mem_foldl_preds]
  · simp only [List.mem_flatMap, Function.mem_blockEdges]
    constructor
    · rintro ⟨b, hb, rfl, h⟩
      exact h
    · intro h
      exact ⟨p, h.2.mem_blocks, rfl, h⟩
  · intro b i d b' d' h h'
    simp only [List.mem_flatMap, Function.mem_blockEdges] at h h'
    obtain ⟨_, -, rfl, hi, -⟩ := h
    obtain ⟨_, -, rfl, hi', -⟩ := h'
    exact f.layout.insts_disjoint _ _ i (List.mem_of_mem_getLast? hi)
      (List.mem_of_mem_getLast? hi')

theorem succs_sorted (f : Function) (u : Block) :
    ((withFunction f).succs u).Pairwise (· < ·) :=
  ((withFunction f).data u).successors.sorted

/-- The graph depends on the edges, -/
theorem succs_congr {f g : Function} (h : ∀ u v, g.Edge u v ↔ f.Edge u v) :
    (withFunction g).succs = (withFunction f).succs :=
  funext fun u => Ordered.toList_eq fun v =>
    (mem_succs (f := g)).trans ((h u v).trans (mem_succs (f := f)).symm)

/-- and on the instructions that the edges come from. -/
theorem preds_congr {f g : Function} (h : ∀ u v, g.Edge u v ↔ f.Edge u v)
    (hlast : ∀ u v, f.Edge u v → g.layout.lastInst u = f.layout.lastInst u) (v : Block) :
    (withFunction g).preds v = (withFunction f).preds v := by
  refine Ordered.toList_eq fun ⟨i, p⟩ => ?_
  refine (mem_preds (f := g)).trans (Iff.trans ?_ (mem_preds (f := f)).symm)
  rw [h]
  exact and_congr_left fun he => by rw [hlast p v he]

/-- A block branches with one instruction, so it is a predecessor once. -/
theorem preds_blocks_nodup (f : Function) (v : Block) :
    (((withFunction f).preds v).map Prod.snd).Nodup := by
  refine List.Nodup.map_on ?_ ((withFunction f).data v).predecessors.nodup
  rintro ⟨i, p⟩ h ⟨j, q⟩ h' (rfl : p = q)
  have hi := (mem_preds.mp h).1
  have hj := (mem_preds.mp h').1
  rw [hi, Option.some.injEq] at hj
  rw [hj]

end ControlFlowGraph

end Clir
