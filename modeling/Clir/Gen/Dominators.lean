import Clir.Ir.FlowGraph
import Clir.Lib.Dfs
import Clir.Lib.Fixpoint
import Clir.Lib.Graph
import Clir.Lib.ListEdit
import Mathlib.Algebra.Group.Action.Defs
import Mathlib.Algebra.GroupWithZero.Nat
import Mathlib.Algebra.Order.BigOperators.Group.List
import Mathlib.Algebra.Order.Group.Nat
import Mathlib.Data.Finset.Card
import Mathlib.Data.List.AList

set_option autoImplicit false

/-! # Traversal orders and dominators

`dfs` and `reverse_postorder` of a control flow graph, and `compute_dominators`, the classical
iteration: the entry block is dominated by itself, every other block first by all blocks, and the
sets shrink until no pass over the blocks changes one. Sets are lists, compared as sets.
-/

namespace Clir

open Graph Relation

/-- `HashMap<Block, _>` -/
abbrev BlockMap (β : Type) := AList fun _ : Block => β

namespace Function

variable (f : Function)

/-- The search that both traversals make. Blocks without successors do not deepen it. -/
def search (start : Block) : Dfs.Visit Block :=
  Dfs.visit (ControlFlowGraph.withFunction f).succs (f.layout.blocks.length + 1) start ⟨[], []⟩

/-- `dfs`, with the visited set empty before: the order in which blocks are entered. -/
def dfsOrder (start : Block) : List Block := (f.search start).pre

/-- `reverse_postorder` -/
def reversePostorder (start : Block) : List Block := (f.search start).post.reverse

end Function

/-- The intersection of the sets of the predecessors, and the node. -/
def newDominators (nodes preds : List Block) (dominators : BlockMap (List Block)) (node : Block) :
    List Block :=
  (preds.foldl (fun new pred =>
    match dominators.lookup pred with
    | some predDom => new ∩ predDom
    | none => new) nodes).insert node

/-- Equality of sets. -/
def sameSet (a b : List Block) : Bool := a.all (· ∈ b) && b.all (· ∈ a)

/-- The predecessors of a block, one for each branch instruction that leads to it. -/
def predBlocks (f : Function) (node : Block) : List Block :=
  ((ControlFlowGraph.withFunction f).preds node).map Prod.snd

/-- The visit of one block in a pass; nothing if its set is already right. -/
def updateDominators (f : Function) (start node : Block) (dominators : BlockMap (List Block)) :
    Option (BlockMap (List Block)) :=
  if node = start then none
  else
    let new := newDominators f.layout.blocks (predBlocks f node) dominators node
    match dominators.lookup node with
    | some old => if sameSet old new then none else some (dominators.insert node new)
    | none => some (dominators.insert node new)

def initialDominators (nodes : List Block) (start : Block) : BlockMap (List Block) :=
  nodes.foldl (fun m node => m.insert node (if node = start then [start] else nodes)) ∅

/-- The loop of `compute_dominators`, with the first sets inserted in the given order. Each pass
that changes a set makes it smaller, which bounds the number of passes. -/
def dominatorLoop (f : Function) (start : Block) (nodes : List Block) : BlockMap (List Block) :=
  Fixpoint.untilStable (Fixpoint.sweep (updateDominators f start) (f.reversePostorder start))
    ((f.reversePostorder start).length * (f.layout.blocks.length + 2) + 1)
    (initialDominators nodes start)

/-- `compute_dominators` of a function with entry block `start`. -/
def computeDominators (f : Function) (start : Block) : BlockMap (List Block) :=
  dominatorLoop f start f.layout.blocks

/-! ## Traversal -/

section Traversal

variable {f : Function} {start : Block}

theorem Function.mem_layout_of_succs {x : Block}
    (h : (ControlFlowGraph.withFunction f).succs x ≠ []) : x ∈ f.layout.blocks := by
  obtain ⟨y, hy⟩ := List.exists_mem_of_ne_nil _ h
  exact (ControlFlowGraph.mem_succs.mp hy).mem_blocks

theorem Function.mem_succs_eq_edge (f : Function) :
    (fun a b => b ∈ (ControlFlowGraph.withFunction f).succs a) = f.Edge :=
  funext₂ fun _ _ => propext ControlFlowGraph.mem_succs

theorem Function.mem_dfsOrder {x : Block} :
    x ∈ f.dfsOrder start ↔ ReflTransGen f.Edge start x := by
  rw [dfsOrder, search, Dfs.mem_visit_iff (fun x => mem_layout_of_succs) (Nat.lt_succ_self _),
    mem_succs_eq_edge]

theorem Function.dfsOrder_nodup (f : Function) (start : Block) : (f.dfsOrder start).Nodup :=
  Dfs.visit_pre_nodup (fun _ => mem_layout_of_succs) (Nat.lt_succ_self _) start

theorem Function.dfsOrder_head (f : Function) (start : Block) :
    (f.dfsOrder start).head? = some start :=
  Dfs.visit_pre_head _ start

theorem Function.search_congr {g : Function} (hblocks : g.layout.blocks = f.layout.blocks)
    (h : ∀ u v, g.Edge u v ↔ f.Edge u v) : g.search start = f.search start := by
  rw [search, search, ControlFlowGraph.succs_congr h, hblocks]

theorem Function.mem_reversePostorder {x : Block} :
    x ∈ f.reversePostorder start ↔ ReflTransGen f.Edge start x := by
  rw [reversePostorder, List.mem_reverse, ← mem_dfsOrder]
  exact (Dfs.visit_post_perm (fun _ => mem_layout_of_succs) (Nat.lt_succ_self _) start).mem_iff

/-- Every block that `dfs` lists is reached from the start by a walk through blocks listed
before it. -/
theorem Function.dfsOrder_walks (f : Function) (start : Block) :
    Dfs.Grown (fun before x => ∃ p, Walk f.Edge start x p ∧ ∀ y ∈ p, y = x ∨ y ∈ before) []
      (f.dfsOrder start) := by
  refine Dfs.Grown.walks ((Dfs.visit_pre_entered (fun _ => mem_layout_of_succs)
    (Nat.lt_succ_self _) start).mono fun before x _ hx => hx.imp_right ?_)
  rintro ⟨p, hp, he⟩
  exact ⟨p, hp, ControlFlowGraph.mem_succs.mp he⟩

/-- A strict dominator is on the walk, so `dfs` lists it first. -/
theorem Function.idxOf_dfsOrder_lt {b d : Block} (hb : b ∈ f.dfsOrder start)
    (hd : StrictlyDominates f.Edge start d b) :
    (f.dfsOrder start).idxOf d < (f.dfsOrder start).idxOf b := by
  obtain ⟨before, after, heq, p, hp, hmem⟩ := (f.dfsOrder_walks start).exists_before hb
  have hbefore : d ∈ before := (hmem d (hd.1 p hp)).resolve_left hd.2
  have hnodup := f.dfsOrder_nodup start
  rw [heq] at hnodup ⊢
  exact ListEdit.idxOf_lt_of_mem_before hnodup hbefore

theorem Function.reversePostorder_nodup (f : Function) (start : Block) :
    (f.reversePostorder start).Nodup := by
  have hperm := Dfs.visit_post_perm (fun _ => mem_layout_of_succs (f := f)) (Nat.lt_succ_self _)
    start
  exact List.nodup_reverse.mpr (hperm.nodup_iff.mpr (f.dfsOrder_nodup start))

theorem Function.reversePostorder_head (f : Function) (start : Block) :
    (f.reversePostorder start).head? = some start := by
  rw [reversePostorder, List.head?_reverse]
  exact Dfs.visit_post_getLast _ start

/-- An edge goes forward in the reverse postorder, or its target reaches its source. -/
theorem Function.idxOf_reversePostorder_lt_or {u v : Block} (hu : u ∈ f.reversePostorder start)
    (he : f.Edge u v) :
    (f.reversePostorder start).idxOf u < (f.reversePostorder start).idxOf v ∨
      ReflTransGen f.Edge v u := by
  have hgrown := Dfs.visit_post_finished (fun _ => mem_layout_of_succs (f := f))
    (Nat.lt_succ_self _) start
  rw [mem_succs_eq_edge] at hgrown
  obtain ⟨before, after, heq, hsuccs⟩ := hgrown.exists_before (List.mem_reverse.mp hu)
  refine (hsuccs v (ControlFlowGraph.mem_succs.mpr he)).imp_left fun hv => ?_
  have hnodup := f.reversePostorder_nodup start
  have hrev : f.reversePostorder start = after.reverse ++ u :: before.reverse := by
    rw [reversePostorder, search, heq]
    simp
  rw [hrev] at hnodup ⊢
  exact ListEdit.idxOf_lt_of_mem_after hnodup (List.mem_reverse.mpr hv)

/-- **`reverse_postorder` is a reverse postorder**: it lists the blocks reachable from the start,
each once and the start first, and an edge between them goes forward or its target reaches its
source; without cycles it is a topological order. -/
theorem reversePostorder_order (f : Function) (start : Block) :
    (∀ b, b ∈ f.reversePostorder start ↔ ReflTransGen f.Edge start b) ∧
      (f.reversePostorder start).Nodup ∧ (f.reversePostorder start).head? = some start ∧
      (∀ u ∈ f.reversePostorder start, ∀ v ∈ f.reversePostorder start, f.Edge u v →
        (f.reversePostorder start).idxOf u < (f.reversePostorder start).idxOf v ∨
          ReflTransGen f.Edge v u) ∧
      ((∀ b, ¬ TransGen f.Edge b b) →
        ∀ u ∈ f.reversePostorder start, ∀ v ∈ f.reversePostorder start, f.Edge u v →
          (f.reversePostorder start).idxOf u < (f.reversePostorder start).idxOf v) := by
  refine ⟨fun b => Function.mem_reversePostorder, f.reversePostorder_nodup start,
    f.reversePostorder_head start, ?_, ?_⟩
  · intro u hu v _ he
    exact Function.idxOf_reversePostorder_lt_or hu he
  · intro hacyclic u hu v _ he
    refine (Function.idxOf_reversePostorder_lt_or hu he).resolve_right fun hback => ?_
    -- the way back would close a cycle
    exact hacyclic u (TransGen.head' he hback)

end Traversal

/-! ## Dominators -/

section Dominators

variable {f : Function} {start : Block} {m m' : BlockMap (List Block)}

theorem mem_newDominators {nodes preds : List Block} {node x : Block} :
    x ∈ newDominators nodes preds m node ↔
      x = node ∨ x ∈ nodes ∧ ∀ p ∈ preds, ∀ d, m.lookup p = some d → x ∈ d := by
  have hfold : ∀ new : List Block, x ∈ preds.foldl (fun new pred =>
      match m.lookup pred with
      | some predDom => new ∩ predDom
      | none => new) new ↔ x ∈ new ∧ ∀ p ∈ preds, ∀ d, m.lookup p = some d → x ∈ d := by
    induction preds with
    | nil => simp
    | cons p ps ih =>
        intro new
        rw [List.foldl_cons, ih, List.forall_mem_cons]
        cases hp : m.lookup p with
        | none => simp
        | some d =>
            simp only [Option.some.injEq, forall_eq']
            rw [List.mem_inter_iff, and_assoc]
  rw [newDominators, List.mem_insert_iff, hfold]

theorem sameSet_iff {a b : List Block} : sameSet a b = true ↔ ∀ x, x ∈ a ↔ x ∈ b := by
  simp only [sameSet, Bool.and_eq_true, List.all_eq_true, decide_eq_true_eq]
  exact ⟨fun h x => ⟨h.1 x, h.2 x⟩, fun h => ⟨fun x => (h x).mp, fun x => (h x).mpr⟩⟩

theorem mem_predBlocks {node p : Block} : p ∈ predBlocks f node ↔ f.Edge p node := by
  simp only [predBlocks, List.mem_map, Prod.exists, exists_eq_right, ControlFlowGraph.mem_preds]
  constructor
  · rintro ⟨i, -, he⟩
    exact he
  · intro he
    obtain ⟨t, ht, -⟩ := id he
    obtain ⟨c, hc, -⟩ := Option.map_eq_some_iff.mp ht
    obtain ⟨i, hi, -⟩ := Option.bind_eq_some_iff.mp hc
    exact ⟨i, hi, he⟩

/-- Every set contains what its predecessors agree on: sets only shrink. -/
def Shrinking (f : Function) (start : Block) (m : BlockMap (List Block)) : Prop :=
  ∀ node ≠ start, ∀ d, m.lookup node = some d →
    newDominators f.layout.blocks (predBlocks f node) m node ⊆ d

/-- The total size of the sets of the blocks that a pass visits. -/
def totalSize (f : Function) (start : Block) (m : BlockMap (List Block)) : ℕ :=
  ((f.reversePostorder start).map fun node =>
    match m.lookup node with
    | some d => d.toFinset.card
    | none => f.layout.blocks.length + 2).sum

theorem updateDominators_eq_some {node : Block}
    (h : updateDominators f start node m = some m') :
    node ≠ start ∧
      m' = m.insert node (newDominators f.layout.blocks (predBlocks f node) m node) ∧
      ∀ d, m.lookup node = some d →
        ¬ ∀ x, x ∈ d ↔ x ∈ newDominators f.layout.blocks (predBlocks f node) m node := by
  unfold updateDominators at h
  split_ifs at h with hnode
  refine ⟨hnode, ?_⟩
  cases hold : m.lookup node with
  | none =>
      rw [hold] at h
      exact ⟨(Option.some.inj h).symm, by simp⟩
  | some old =>
      rw [hold] at h
      simp only at h
      split_ifs at h with hsame
      refine ⟨(Option.some.inj h).symm, ?_⟩
      rintro d hd
      obtain rfl := Option.some.inj hd
      rwa [sameSet_iff] at hsame

theorem newDominators_anti (nodes : List Block) {preds : List Block} (node : Block)
    (h : ∀ p ∈ preds, ∀ d, m.lookup p = some d → ∃ d', m'.lookup p = some d' ∧ d' ⊆ d) :
    newDominators nodes preds m' node ⊆ newDominators nodes preds m node := by
  intro x hx
  rw [mem_newDominators] at hx ⊢
  refine hx.imp_right fun ⟨hn, hall⟩ => ⟨hn, fun p hp d hd => ?_⟩
  obtain ⟨d', hd', hsub⟩ := h p hp d hd
  exact hsub (hall p hp d' hd')

/-- An update replaces a set by a smaller one. -/
theorem Shrinking.update {node : Block} (h : Shrinking f start m)
    (hu : updateDominators f start node m = some m') : Shrinking f start m' := by
  obtain ⟨hnode, rfl, -⟩ := updateDominators_eq_some hu
  have hless : ∀ p d, m.lookup p = some d → ∃ d', (m.insert node
      (newDominators f.layout.blocks (predBlocks f node) m node)).lookup p = some d' ∧ d' ⊆ d := by
    intro p d hd
    by_cases hp : p = node
    · subst hp
      exact ⟨_, AList.lookup_insert _, h p hnode d hd⟩
    · exact ⟨d, (AList.lookup_insert_ne hp).trans hd, List.Subset.refl d⟩
  intro x hx d hd
  have hanti := newDominators_anti f.layout.blocks x
    fun p (_ : p ∈ predBlocks f x) => hless p
  by_cases hxn : x = node
  · subst hxn
    rw [AList.lookup_insert, Option.some.injEq] at hd
    exact hd ▸ hanti
  · rw [AList.lookup_insert_ne hxn] at hd
    exact List.Subset.trans hanti (h x hx d hd)

/-- An update makes the total size smaller. -/
theorem totalSize_update {node : Block} (h : Shrinking f start m)
    (hmem : node ∈ f.reversePostorder start)
    (hu : updateDominators f start node m = some m') :
    totalSize f start m' < totalSize f start m := by
  obtain ⟨hnode, rfl, hne⟩ := updateDominators_eq_some hu
  have hlt : (newDominators f.layout.blocks (predBlocks f node) m node).toFinset.card <
      match m.lookup node with
      | some d => d.toFinset.card
      | none => f.layout.blocks.length + 2 := by
    -- a set that is there gets smaller; one that is not counts for more than any set
    cases hd : m.lookup node with
    | some d =>
        have hsub := h node hnode d hd
        refine Finset.card_lt_card (Finset.ssubset_iff_subset_ne.mpr ⟨?_, fun e => ?_⟩)
        · exact fun x hx => List.mem_toFinset.mpr (hsub (List.mem_toFinset.mp hx))
        · exact hne d hd fun x => by rw [← List.mem_toFinset, ← List.mem_toFinset, e]
    | none =>
        have hsub : (newDominators f.layout.blocks (predBlocks f node) m node).toFinset ⊆
            insert node f.layout.blocks.toFinset := by
          intro x hx
          rw [List.mem_toFinset, mem_newDominators] at hx
          rw [Finset.mem_insert, List.mem_toFinset]
          exact hx.imp_right And.left
        calc _ ≤ (insert node f.layout.blocks.toFinset).card := Finset.card_le_card hsub
          _ ≤ f.layout.blocks.toFinset.card + 1 := Finset.card_insert_le _ _
          _ < f.layout.blocks.length + 2 := by
            have := List.toFinset_card_le f.layout.blocks
            omega
  -- the other nodes keep their sets
  refine List.sum_lt_sum _ _ (fun x _ => ?_) ⟨node, hmem, ?_⟩
  · by_cases hx : x = node
    · subst hx
      rw [AList.lookup_insert]
      exact hlt.le
    · rw [AList.lookup_insert_ne hx]
  · rw [AList.lookup_insert]
    exact hlt

theorem lookup_initialDominators {nodes : List Block} {node : Block} :
    (initialDominators nodes start).lookup node =
      if node ∈ nodes then some (if node = start then [start] else nodes) else none := by
  have hfold : ∀ (rest : List Block) (m : BlockMap (List Block)),
      (rest.foldl (fun m node => m.insert node (if node = start then [start] else nodes))
        m).lookup node =
        if node ∈ rest then some (if node = start then [start] else nodes) else m.lookup node := by
    intro rest
    induction rest with
    | nil => simp
    | cons a rest ih =>
        intro m
        rw [List.foldl_cons, ih]
        by_cases hr : node ∈ rest
        · simp [hr]
        · by_cases ha : node = a
          · subst ha
            simp [AList.lookup_insert]
          · have hcons : node ∉ a :: rest := fun hm => (List.mem_cons.mp hm).elim ha hr
            rw [if_neg hr, if_neg hcons, AList.lookup_insert_ne ha]
  exact (hfold nodes ∅).trans (by rw [AList.lookup_empty])

/-! ### The initial sets

They are inserted in the order in which the set of blocks is iterated, which may be any. -/

section Initial

variable {nodes : List Block}

theorem shrinking_initial (hnodes : nodes.Perm f.layout.blocks) :
    Shrinking f start (initialDominators nodes start) := by
  intro node hnode d hd x hx
  rw [lookup_initialDominators] at hd
  split_ifs at hd with hmem
  obtain rfl := Option.some.inj hd
  rcases mem_newDominators.mp hx with rfl | ⟨hx, -⟩
  · exact hmem
  · exact hnodes.mem_iff.mpr hx

theorem totalSize_initial (hnodes : nodes.Perm f.layout.blocks) :
    totalSize f start (initialDominators nodes start) ≤
      (f.reversePostorder start).length * (f.layout.blocks.length + 2) := by
  have hle : ∀ n ∈ (f.reversePostorder start).map (fun node =>
      match (initialDominators nodes start).lookup node with
      | some d => d.toFinset.card
      | none => f.layout.blocks.length + 2), n ≤ f.layout.blocks.length + 2 := by
    intro n hn
    obtain ⟨node, -, rfl⟩ := List.mem_map.mp hn
    rw [lookup_initialDominators]
    have hcard := List.toFinset_card_le nodes
    have hlen := hnodes.length_eq
    by_cases hmem : node ∈ nodes
    · rw [if_pos hmem]
      by_cases hstart : node = start
      · simp [hstart]
      · simp only [if_neg hstart]
        omega
    · rw [if_neg hmem]
  have := List.sum_le_card_nsmul _ _ hle
  rwa [List.length_map, smul_eq_mul] at this

end Initial

/-- A strict dominator of a reachable block has a branch, so it is laid out. -/
theorem mem_blocks_of_dominates {x y : Block} (hreach : ReflTransGen f.Edge start x)
    (hdom : Dominates f.Edge start y x) (hne : y ≠ x) : y ∈ f.layout.blocks := by
  obtain ⟨p, hp⟩ := exists_walk_of_reach hreach
  rcases ReflTransGen.cases_head (hp.split (hdom p hp)).2 with heq | ⟨z, ⟨he, -⟩, -⟩
  · exact absurd heq hne
  · exact he.mem_blocks

/-- What the iteration keeps: the sets shrink, the set of the start stays, the keys are the placed
blocks and blocks the passes visit, no dominator is lost, and the blocks that no pass visits keep
the full set. -/
structure Iterating (f : Function) (start : Block) (m : BlockMap (List Block)) : Prop where
  shrinking : Shrinking f start m
  lookup_start : start ∈ f.layout.blocks → m.lookup start = some [start]
  isSome_of_mem : ∀ x ∈ f.layout.blocks, (m.lookup x).isSome
  of_isSome : ∀ x, (m.lookup x).isSome → x ∈ f.layout.blocks ∨ ReflTransGen f.Edge start x
  covers : ∀ x d y, ReflTransGen f.Edge start x → m.lookup x = some d →
    Dominates f.Edge start y x → y ∈ d
  unreachable : ∀ x ∈ f.layout.blocks, ¬ ReflTransGen f.Edge start x →
    ∃ d, m.lookup x = some d ∧ ∀ y, y ∈ d ↔ y ∈ f.layout.blocks

theorem iterating_initial {nodes : List Block} (hnodes : nodes.Perm f.layout.blocks) :
    Iterating f start (initialDominators nodes start) where
  shrinking := shrinking_initial hnodes
  lookup_start hmem := by
    rw [lookup_initialDominators, if_pos (hnodes.mem_iff.mpr hmem), if_pos rfl]
  isSome_of_mem x hx := by
    rw [lookup_initialDominators, if_pos (hnodes.mem_iff.mpr hx), Option.isSome_some]
  of_isSome x hx := by
    by_cases hmem : x ∈ nodes
    · exact .inl (hnodes.mem_iff.mp hmem)
    · simp [lookup_initialDominators, hmem] at hx
  covers x d y hreach hd hdom := by
    rw [lookup_initialDominators] at hd
    split_ifs at hd with hmem hx
    · obtain rfl := Option.some.inj hd
      exact hx ▸ hdom _ (hx ▸ .start)
    · obtain rfl := Option.some.inj hd
      by_cases hyx : y = x
      · exact hyx ▸ hmem
      · exact hnodes.mem_iff.mpr (mem_blocks_of_dominates hreach hdom hyx)
  unreachable x hx hreach := by
    refine ⟨nodes, ?_, fun y => hnodes.mem_iff⟩
    have hne : x ≠ start := fun h => hreach (h ▸ .refl)
    rw [lookup_initialDominators, if_pos (hnodes.mem_iff.mpr hx), if_neg hne]

/-- The new set of a reachable block has all its dominators: those other than the block itself
dominate its reachable predecessors, and the other predecessors have the full set. -/
theorem Iterating.covers_new {node y : Block} (h : Iterating f start m)
    (hreach : ReflTransGen f.Edge start node) (hdom : Dominates f.Edge start y node) :
    y ∈ newDominators f.layout.blocks (predBlocks f node) m node := by
  rw [mem_newDominators]
  by_cases hyn : y = node
  · exact .inl hyn
  · have hy := mem_blocks_of_dominates hreach hdom hyn
    refine .inr ⟨hy, fun p hp d hd => ?_⟩
    have he := mem_predBlocks.mp hp
    by_cases hpr : ReflTransGen f.Edge start p
    · exact h.covers p d y hpr hd (hdom.pred hyn he)
    · obtain ⟨d', hd', hall⟩ := h.unreachable p he.mem_blocks hpr
      obtain rfl : d = d' := Option.some.inj (hd.symm.trans hd')
      exact (hall y).mpr hy

theorem Iterating.update {node : Block} (h : Iterating f start m)
    (hmem : node ∈ f.reversePostorder start)
    (hu : updateDominators f start node m = some m') : Iterating f start m' := by
  have hshrink := h.shrinking.update hu
  have hreach := Function.mem_reversePostorder.mp hmem
  obtain ⟨hnode, rfl, -⟩ := updateDominators_eq_some hu
  refine ⟨hshrink, fun hs => ?_, fun x hx => ?_, fun x hx => ?_, fun x d y hx hd hdom => ?_,
    fun x hx hxr => ?_⟩
  · rw [AList.lookup_insert_ne (Ne.symm hnode)]
    exact h.lookup_start hs
  · by_cases hxn : x = node
    · subst hxn
      rw [AList.lookup_insert, Option.isSome_some]
    · rw [AList.lookup_insert_ne hxn]
      exact h.isSome_of_mem x hx
  · by_cases hxn : x = node
    · exact .inr (hxn ▸ hreach)
    · rw [AList.lookup_insert_ne hxn] at hx
      exact h.of_isSome x hx
  · by_cases hxn : x = node
    · subst hxn
      rw [AList.lookup_insert, Option.some.injEq] at hd
      exact hd ▸ h.covers_new hx hdom
    · rw [AList.lookup_insert_ne hxn] at hd
      exact h.covers x d y hx hd hdom
  · have hxn : x ≠ node := fun e => hxr (e ▸ hreach)
    rw [AList.lookup_insert_ne hxn]
    exact h.unreachable x hx hxr

/-- A map that no pass changes. -/
structure Settled (f : Function) (start : Block) (m : BlockMap (List Block)) : Prop
    extends Iterating f start m where
  stable : ∀ node ∈ f.reversePostorder start, updateDominators f start node m = none

/-- **The loop stops, in a map that no pass changes.** -/
theorem dominatorLoop_settled {nodes : List Block} (hnodes : nodes.Perm f.layout.blocks) :
    Fixpoint.Loops (Fixpoint.sweep (updateDominators f start) (f.reversePostorder start))
        (initialDominators nodes start) (dominatorLoop f start nodes) ∧
      Settled f start (dominatorLoop f start nodes) := by
  have hI : ∀ node ∈ f.reversePostorder start, ∀ m m', Iterating f start m →
      updateDominators f start node m = some m' → Iterating f start m' :=
    fun _ hmem _ _ h hu => h.update hmem hu
  have hμ : ∀ node ∈ f.reversePostorder start, ∀ m m', Iterating f start m →
      updateDominators f start node m = some m' → totalSize f start m' < totalSize f start m :=
    fun _ hmem _ _ h hu => totalSize_update h.shrinking hmem hu
  have hinit : Iterating f start (initialDominators nodes start) := iterating_initial hnodes
  have hsize : totalSize f start (initialDominators nodes start) ≤ _ := totalSize_initial hnodes
  have hrounds := Nat.lt_succ_of_le hsize
  obtain ⟨hiter, hstable⟩ := Fixpoint.untilStable_sweep hI hμ hinit hrounds
  exact ⟨Fixpoint.loops_untilStable hI hμ hinit hrounds, ⟨hiter, hstable⟩⟩

/-- **Dominators depend on the control flow graph only.** -/
theorem computeDominators_congr {g : Function} (hblocks : g.layout.blocks = f.layout.blocks)
    (h : ∀ u v, g.Edge u v ↔ f.Edge u v)
    (hlast : ∀ u v, f.Edge u v → g.layout.lastInst u = f.layout.lastInst u) :
    computeDominators g start = computeDominators f start := by
  have hupdate : updateDominators g start = updateDominators f start := by
    funext node m
    rw [updateDominators, updateDominators, predBlocks, predBlocks,
      ControlFlowGraph.preds_congr h hlast, hblocks]
  rw [computeDominators, computeDominators, dominatorLoop, dominatorLoop, hupdate,
    Function.reversePostorder, Function.reversePostorder, Function.search_congr hblocks h, hblocks]

theorem computeDominators_settled (f : Function) (start : Block) :
    Settled f start (computeDominators f start) :=
  (dominatorLoop_settled (.refl _)).2

section Settled

variable {x y : Block} {d : List Block}

/-- A block in the set of a reachable block is that block, or in the set of each predecessor. -/
theorem Settled.mem_pred (h : Settled f start m) {node p : Block} {e : List Block}
    (hnode : node ≠ start) (hreach : ReflTransGen f.Edge start node)
    (hd : m.lookup node = some d) (hx : x ∈ d) (hp : f.Edge p node) (he : m.lookup p = some e) :
    x = node ∨ x ∈ e := by
  have hstable := h.stable node (Function.mem_reversePostorder.mpr hreach)
  unfold updateDominators at hstable
  rw [if_neg hnode, hd] at hstable
  simp only [ite_eq_left_iff, reduceCtorEq, imp_false, not_not, sameSet_iff] at hstable
  exact (mem_newDominators.mp ((hstable x).mp hx)).imp_right fun h =>
    h.2 p (mem_predBlocks.mpr hp) e he

/-- **The computed sets are sets of dominators.** -/
theorem Settled.dominates (h : Settled f start m) (hstart : start ∈ f.layout.blocks)
    (hd : m.lookup x = some d) (hy : y ∈ d) : Dominates f.Edge start y x := by
  refine dominates_of_postfixed (fun x => {y | ∃ d, m.lookup x = some d ∧ y ∈ d}) ?_ ?_ ⟨d, hd, hy⟩
  · rintro z ⟨d', hd', hz⟩
    rw [h.lookup_start hstart, Option.some.injEq] at hd'
    subst hd'
    exact List.mem_singleton.mp hz
  · rintro b c hc hb he z ⟨d', hd', hz⟩
    obtain ⟨e', he'⟩ := Option.isSome_iff_exists.mp (h.isSome_of_mem b he.mem_blocks)
    exact (h.mem_pred hc (hb.tail he) hd' hz he he').imp_right fun hz => ⟨e', he', hz⟩

/-- A reachable block has a set, laid out or not. -/
theorem Settled.exists_lookup (h : Settled f start m) (hstart : start ∈ f.layout.blocks)
    (hreach : ReflTransGen f.Edge start x) : ∃ d, m.lookup x = some d := by
  by_cases hx : x = start
  · exact ⟨_, hx ▸ h.lookup_start hstart⟩
  · have hstable := h.stable x (Function.mem_reversePostorder.mpr hreach)
    cases hd : m.lookup x with
    | some d => exact ⟨d, rfl⟩
    | none => simp [updateDominators, hx, hd] at hstable

/-- **The computed sets are exact.** -/
theorem Settled.mem_iff (h : Settled f start m) (hstart : start ∈ f.layout.blocks)
    (hreach : ReflTransGen f.Edge start x) (hd : m.lookup x = some d) :
    y ∈ d ↔ Dominates f.Edge start y x :=
  ⟨h.dominates hstart hd, h.covers x d y hreach hd⟩

end Settled

/-- **`compute_dominators` stops, and it is exact.** In whatever order the set of the blocks is
iterated, the loop comes to an end, and then the set of a reachable block has the blocks that lie
on every walk from the entry block to it, and the set of an unreachable one has all blocks. -/
theorem computeDominators_exact (hentry : f.layout.blocks.head? = some start)
    {nodes : List Block} (hnodes : nodes.Perm f.layout.blocks) :
    ∃ m, Fixpoint.Loops (Fixpoint.sweep (updateDominators f start) (f.reversePostorder start))
        (initialDominators nodes start) m ∧
      (nodes = f.layout.blocks → m = computeDominators f start) ∧
      (∀ b, ReflTransGen f.Edge start b →
        ∃ d, m.lookup b = some d ∧ ∀ y, y ∈ d ↔ Dominates f.Edge start y b) ∧
      ∀ b ∈ f.layout.blocks, ¬ ReflTransGen f.Edge start b →
        ∃ d, m.lookup b = some d ∧ ∀ y, y ∈ d ↔ y ∈ f.layout.blocks := by
  have hstart : start ∈ f.layout.blocks := List.mem_of_mem_head? hentry
  obtain ⟨hloops, hsettled⟩ := @dominatorLoop_settled f start nodes hnodes
  refine ⟨_, hloops, ?_, fun b hb => ?_, hsettled.unreachable⟩
  · rintro rfl
    rfl
  · obtain ⟨d, hd⟩ := hsettled.exists_lookup hstart hb
    exact ⟨d, hd, fun y => hsettled.mem_iff hstart hb hd⟩

/-- Two blocks in a loop through the entry block, and a block that is not reachable. -/
def backEdge : Function :=
  let f := (Function.new (.user 0 0) ⟨[], []⟩).makeBlock.makeBlock.makeBlock
  let f := f.appendBlock 0 (by decide) (by decide)
  let f := f.appendBlock 1 (by decide) (by decide)
  let f := f.appendBlock 2 (by decide) (by decide)
  let f := (f.makeInst (.jump ⟨1, []⟩) []).appendInst 0 0 (by decide) (by decide) fun _ => by
    exact List.not_mem_nil
  (f.makeInst (.jump ⟨0, []⟩) []).appendInst 1 1 (by decide) (by decide) fun c h => by
    exact absurd (f.insts_lt c 1 h) (by decide)

theorem computeDominators_exact_backEdge :
    ∃ m, Fixpoint.Loops (Fixpoint.sweep (updateDominators backEdge 0) (backEdge.reversePostorder 0))
        (initialDominators [2, 0, 1] 0) m ∧
      ([2, 0, 1] = backEdge.layout.blocks → m = computeDominators backEdge 0) ∧
      (∀ b, ReflTransGen backEdge.Edge 0 b →
        ∃ d, m.lookup b = some d ∧ ∀ y, y ∈ d ↔ Dominates backEdge.Edge 0 y b) ∧
      ∀ b ∈ backEdge.layout.blocks, ¬ ReflTransGen backEdge.Edge 0 b →
        ∃ d, m.lookup b = some d ∧ ∀ y, y ∈ d ↔ y ∈ backEdge.layout.blocks :=
  computeDominators_exact (by decide) (by decide)

/-- **`dfs` comes to a block after its dominators**: it lists the blocks reachable from the entry
block, each once and the entry block first, and the sets of `compute_dominators` have, besides a
block itself, blocks that it lists before. -/
theorem dfsOrder_afterDominators (hentry : f.layout.blocks.head? = some start) :
    (∀ b, b ∈ f.dfsOrder start ↔ ReflTransGen f.Edge start b) ∧
      (f.dfsOrder start).Nodup ∧ (f.dfsOrder start).head? = some start ∧
      ∀ b ∈ f.dfsOrder start, ∃ doms, (computeDominators f start).lookup b = some doms ∧
        ∀ d ∈ doms, d ≠ b → (f.dfsOrder start).idxOf d < (f.dfsOrder start).idxOf b := by
  have hstart : start ∈ f.layout.blocks := List.mem_of_mem_head? hentry
  have hsettled := computeDominators_settled f start
  refine ⟨fun b => Function.mem_dfsOrder, f.dfsOrder_nodup start, f.dfsOrder_head start, ?_⟩
  intro b hb
  have hreach := Function.mem_dfsOrder.mp hb
  obtain ⟨doms, hdoms⟩ := hsettled.exists_lookup hstart hreach
  refine ⟨doms, hdoms, fun d hd hne => Function.idxOf_dfsOrder_lt hb ?_⟩
  exact ⟨(hsettled.mem_iff hstart hreach hdoms).mp hd, hne⟩

theorem dfsOrder_afterDominators_backEdge :
    (∀ b, b ∈ backEdge.dfsOrder 0 ↔ ReflTransGen backEdge.Edge 0 b) ∧
      (backEdge.dfsOrder 0).Nodup ∧ (backEdge.dfsOrder 0).head? = some 0 ∧
      ∀ b ∈ backEdge.dfsOrder 0, ∃ doms, (computeDominators backEdge 0).lookup b = some doms ∧
        ∀ d ∈ doms, d ≠ b → (backEdge.dfsOrder 0).idxOf d < (backEdge.dfsOrder 0).idxOf b :=
  dfsOrder_afterDominators (by decide)

end Dominators

end Clir
