import Clir.Cg.CallGraph
import Clir.Gen.Complete
import Clir.Lib.Panics

set_option autoImplicit false

/-! # The call tree that is drawn

The functions of a call tree are numbered in the order in which they are made, which is the
pre-order of the tree. So the numbers of the nodes below a node are a range of their own (`Below`),
and their names are distinct (`Numbered`). Every node above the last level has one or two children,
and every function but the root has a signature of eight or nine types each way. The tree is small
enough for the counter of functions, which is an `i32`, unless it is more than thirty levels deep.
-/

namespace Clir

open Cmd

/-! ## Signatures -/

/-- A signature of eight or nine different types each way. -/
structure Signature.Sampled (sig : Signature) : Prop where
  size : sig.params.length = 8 ∨ sig.params.length = 9
  returns_length : sig.returns.length = sig.params.length
  params_nodup : sig.params.Nodup
  returns_nodup : sig.returns.Nodup
  params : sig.params ⊆ rootTypes
  returns : sig.returns ⊆ rootTypes

theorem rootTypes_nodup : rootTypes.Nodup := by decide

/-- Some types of signatures, each at most once. -/
theorem ensures_chooseRootTypes {σ : Type} {s : σ} {n : ℕ} (hn : n ≤ 11) :
    Ensures Dry (chooseMultiple n rootTypes) s fun types s' => s' = s ∧
      types.length = n ∧ types.Nodup ∧ types ⊆ rootTypes := by
  refine (ensures_chooseMultiple (I := Dry) rfl n rootTypes).mono ?_
  rintro types s' ⟨rfl, rest, hperm, hlen⟩
  have hnodup : (types ++ rest).Nodup := hperm.nodup_iff.mpr rootTypes_nodup
  have hroot : rootTypes.length = 11 := rfl
  refine ⟨rfl, by omega, (List.nodup_append.mp hnodup).1, fun t ht => ?_⟩
  exact hperm.subset (List.mem_append_left _ ht)

theorem ensures_sampledSignature {σ : Type} {s : σ} {n : ℕ} (hlo : 8 ≤ n) (hhi : n < 10) :
    Ensures Dry (generateRandomSignature rootTypes n false) s fun sig s' =>
      s' = s ∧ sig.Sampled := by
  unfold generateRandomSignature
  refine Ensures.ite (fun h => by cases h) fun _ => ?_
  refine Ensures.pick (ensures_chooseRootTypes (by omega)) fun params hparams => ?_
  refine Ensures.pick (ensures_chooseRootTypes (by omega)) fun returns hreturns => ?_
  obtain ⟨hlen, hnodup, hsub⟩ := hparams
  obtain ⟨hlen', hnodup', hsub'⟩ := hreturns
  have hsize : params.length = 8 ∨ params.length = 9 := by omega
  exact Ensures.pure ⟨rfl, hsize, hlen'.trans hlen.symm, hnodup, hnodup', hsub, hsub'⟩

/-! ## The numbers of the functions -/

/-- A function that has been named but has no code yet. -/
def NodeData.Fresh (v : NodeData) : Prop := v.func = .new v.name v.sig

/-- The nodes of the trees are numbered in pre-order, from above `lo` up to `hi`; they have no code
yet, and sampled signatures. -/
structure Below (lo hi : ℕ) (ts : List FunctionNode) : Prop where
  count : hi = lo + (ts.flatMap RoseTree.preOrder).length
  names : ((ts.flatMap RoseTree.preOrder).map fun n => n.value.name) =
    (List.range' (lo + 1) (ts.flatMap RoseTree.preOrder).length).map (.user 1)
  fresh : ∀ n ∈ ts.flatMap RoseTree.preOrder, n.value.Fresh
  sampled : ∀ n ∈ ts.flatMap RoseTree.preOrder, n.value.sig.Sampled

section Below

variable {lo mid hi : ℕ} {ts us cs : List FunctionNode} {v : NodeData}

theorem below_nil (lo : ℕ) : Below lo lo [] := ⟨by simp, by simp, by simp, by simp⟩

theorem Below.append (h : Below lo mid ts) (h' : Below mid hi us) : Below lo hi (ts ++ us) where
  count := by
    have hmid := h.count
    have hhi := h'.count
    rw [List.flatMap_append, List.length_append]
    omega
  names := by
    rw [List.flatMap_append, List.map_append, h.names, h'.names, List.length_append,
      ← List.map_append, h.count, Nat.add_right_comm lo, ← List.range'_append_1]
  fresh n hn := by
    rw [List.flatMap_append] at hn
    exact (List.mem_append.mp hn).elim (h.fresh n) (h'.fresh n)
  sampled n hn := by
    rw [List.flatMap_append] at hn
    exact (List.mem_append.mp hn).elim (h.sampled n) (h'.sampled n)

/-- A node that is numbered before the nodes below it. -/
theorem Below.node (h : Below (lo + 1) hi cs) (hv : v.Fresh) (hsig : v.sig.Sampled)
    (hname : v.name = .user 1 (lo + 1)) : Below lo hi [.node v cs] := by
  have horder : [RoseTree.node v cs].flatMap RoseTree.preOrder =
      .node v cs :: cs.flatMap RoseTree.preOrder := by
    rw [List.flatMap_singleton, RoseTree.preOrder_eq, RoseTree.children]
  have hcount := h.count
  refine ⟨?_, ?_, ?_, ?_⟩
  · rw [horder, List.length_cons]
    omega
  · rw [horder, List.map_cons, List.length_cons, List.range'_succ, List.map_cons, h.names]
    exact congrArg (· :: _) hname
  · rw [horder]
    exact List.forall_mem_cons.mpr ⟨hv, h.fresh⟩
  · rw [horder]
    exact List.forall_mem_cons.mpr ⟨hsig, h.sampled⟩

end Below

/-- The nodes of the trees have no code yet, and are numbered from above `lo` up to `hi`, each with
a number of its own. -/
structure Numbered (lo hi : ℕ) (ts : List FunctionNode) : Prop where
  fresh : ∀ n ∈ ts.flatMap RoseTree.postOrder, n.value.Fresh
  named : ∀ n ∈ ts.flatMap RoseTree.postOrder, ∃ k, lo < k ∧ k ≤ hi ∧ n.value.name = .user 1 k
  nodup : ((ts.flatMap RoseTree.postOrder).map fun n => n.value.name).Nodup

theorem Below.numbered {lo hi : ℕ} {ts : List FunctionNode} (h : Below lo hi ts) :
    Numbered lo hi ts := by
  have hperm : (ts.flatMap RoseTree.preOrder).Perm (ts.flatMap RoseTree.postOrder) :=
    List.Perm.flatMap_left _ fun t _ => t.preOrder_perm_postOrder
  have hcount := h.count
  refine ⟨fun n hn => h.fresh n (hperm.mem_iff.mpr hn), fun n hn => ?_, ?_⟩
  · have hmem : n.value.name ∈ (ts.flatMap RoseTree.preOrder).map fun n => n.value.name :=
      List.mem_map_of_mem (hperm.mem_iff.mpr hn)
    rw [h.names] at hmem
    obtain ⟨k, hk, hname⟩ := List.mem_map.mp hmem
    rw [List.mem_range'_1] at hk
    exact ⟨k, by omega, by omega, hname.symm⟩
  · rw [← (hperm.map fun n => n.value.name).nodup_iff, h.names]
    refine List.Nodup.map (fun j k hjk => ?_) List.nodup_range'
    exact (FuncName.user.inj hjk).2

/-! ## The tree -/

theorem ensures_nextFuncId {id : ℕ} :
    Ensures (fun e _ => id + 1 < 2 ^ 31 → e = .starved) nextFuncId id fun n id' =>
      n = id + 1 ∧ id' = id + 1 := by
  unfold nextFuncId
  refine Ensures.pick (P := fun n => n = id) (Ensures.mem ⟨rfl, rfl⟩) ?_
  rintro _ rfl
  refine Ensures.ite (fun _ => ?_) fun hge => Ensures.panicWith fun hlt => absurd hlt hge
  refine Ensures.bind (Ensures.update (Q := fun _ id' => id' = _) rfl) ?_
  rintro - _ rfl
  exact Ensures.pure ⟨rfl, rfl⟩

/-- The children of a node that have been made so far, of `num` that there will be. -/
structure Growing (depth lo num : ℕ) (v : NodeData) (rest : List ℕ) (node : FunctionNode)
    (id : ℕ) : Prop where
  value : node.value = v
  left : node.children.length + rest.length = num
  binary : ∀ c ∈ node.children, RoseTree.Binary depth c
  below : Below lo id node.children

section Tree

variable {depth lo num id : ℕ} {v : NodeData} {node : FunctionNode}

/-- Where the counter is before another child of at most two. -/
theorem Growing.id_le {i : ℕ} {rest : List ℕ} (h : Growing depth lo num v (i :: rest) node id)
    (hnum : num ≤ 2) : id + 1 ≤ lo + 2 ^ (depth + 1) := by
  have hcount := h.below.count
  have hleft := h.left
  have hpos : 0 < 2 ^ (depth + 1) := Nat.two_pow_pos _
  have hsize : (node.children.flatMap RoseTree.preOrder).length ≤
      node.children.length * (2 ^ (depth + 1) - 1) := by
    refine RoseTree.length_flatMap_le fun c hc => ?_
    have hc' := (h.binary c hc).length_le.2
    rw [RoseTree.preOrder_eq, List.length_cons]
    omega
  rw [List.length_cons] at hleft
  have hone : node.children.length * (2 ^ (depth + 1) - 1) ≤ 1 * (2 ^ (depth + 1) - 1) :=
    Nat.mul_le_mul_right _ (by omega)
  omega

/-- **The tree below a node**: one or two children at every level, numbered in pre-order. It
panics only if the counter overflows. -/
theorem generateFunctionTree_spec (depth : ℕ) {v : NodeData} {id : ℕ} :
    Ensures (fun e _ => id + 2 ^ (depth + 1) ≤ 2 ^ 31 + 1 → e = .starved)
      (generateFunctionTree depth (.node v [])) id fun t id' =>
        t.value = v ∧ RoseTree.Binary depth t ∧ Below id id' t.children := by
  induction depth generalizing v id with
  | zero => exact Ensures.pure ⟨rfl, rfl, below_nil id⟩
  | succ depth ih =>
      unfold generateFunctionTree
      refine Ensures.pick (P := fun num => 1 ≤ num ∧ num < 3) (Ensures.genRange (fun _ => rfl)
        (fun hle => by omega) fun num hlo hhi => ⟨rfl, hlo, hhi⟩) fun num hnum => ?_
      have hpow : 2 ^ (depth + 1 + 1) = 2 * 2 ^ (depth + 1) := by rw [Nat.pow_succ, Nat.mul_comm]
      have hpos : 2 ≤ 2 ^ (depth + 1) := Nat.le_self_pow (Nat.succ_ne_zero depth) 2
      -- the loop makes one child after the other, each with the numbers that follow
      refine Ensures.mono (Ensures.foldlM_rest (P := Growing depth id num v) ?_ ?_) ?_
      · exact ⟨rfl, by simp [RoseTree.children], by simp [RoseTree.children], below_nil id⟩
      · intro node i rest idᵢ h
        have hle := h.id_le (by omega)
        refine Ensures.pick (P := fun n => 8 ≤ n ∧ n < 10) (Ensures.genRange (fun _ => rfl)
          (fun hle => by omega) fun n hlo hhi => ⟨rfl, hlo, hhi⟩) fun n hn => ?_
        refine Ensures.pick ((ensures_sampledSignature hn.1 hn.2).weaken fun _ _ he _ => he)
          fun sig hsig => ?_
        refine Ensures.bind (ensures_nextFuncId.weaken fun e _ he hbound => he (by omega)) ?_
        rintro _ _ ⟨rfl, rfl⟩
        refine Ensures.bind (ih.weaken fun e _ he hbound => he (by omega)) ?_
        rintro child idₙ ⟨hvalue, hbinary, hbelow⟩
        have hchild : Below idᵢ idₙ [child] := by
          cases child with
          | node w cs =>
              obtain rfl : w = _ := hvalue
              exact hbelow.node rfl hsig rfl
        have hleft := h.left
        rw [List.length_cons] at hleft
        refine Ensures.pure ⟨h.value, ?_, ?_, h.below.append hchild⟩
        · show (node.children ++ [child]).length + rest.length = num
          rw [List.length_append, List.length_singleton]
          omega
        · exact List.forall_mem_append.mpr ⟨h.binary, by simpa using hbinary⟩
      · intro t id' h
        have hlen := h.left
        rw [List.length_nil, Nat.add_zero] at hlen
        exact ⟨h.value, ⟨by omega, h.binary⟩, h.below⟩

end Tree

/-! ## The call graph -/

/-- A call graph as it is drawn. -/
structure DrawnGraph (maxDepth : ℕ) (root : FunctionNode) : Prop where
  fresh : root.value.Fresh
  name : root.value.name = .testcase "main"
  sig : root.value.sig = ⟨[], []⟩
  binary : RoseTree.Binary maxDepth root
  below : ∃ count, Below 0 count root.children

theorem ensures_drawnGraph {σ : Type} {s : σ} (maxDepth : ℕ) :
    Ensures (fun e _ => maxDepth ≤ 30 → e = .starved) (generateFunctionCallGraph maxDepth) s
      fun root s' => s' = s ∧ DrawnGraph maxDepth root := by
  unfold generateFunctionCallGraph
  refine Ensures.bind (Ensures.onMem (generateFunctionTree_spec maxDepth)
    (fun e _ he hdepth => he ?_) fun root count h => ?_) fun r s' h => Ensures.pure h
  · have hpow : 2 ^ (maxDepth + 1) ≤ 2 ^ 31 := Nat.pow_le_pow_right (by omega) (by omega)
    omega
  · obtain ⟨hvalue, hbinary, hbelow⟩ := h
    refine ⟨rfl, ?_, ?_, ?_, hbinary, count, hbelow⟩
    · rw [hvalue]
      rfl
    · rw [hvalue]
    · rw [hvalue]

/-- **The names of a call graph are distinct**, and all but that of the root are numbers. -/
theorem generateFunctionCallGraph_spec {σ : Type} {s : σ} (maxDepth : ℕ) :
    Ensures (fun _ _ => True) (generateFunctionCallGraph maxDepth) s fun root s' => s' = s ∧
      root.value.Fresh ∧ root.value.name = .testcase "main" ∧
      ∃ count, Numbered 0 count root.children := by
  refine ((ensures_drawnGraph maxDepth).weaken fun _ _ _ => trivial).mono ?_
  rintro root s' ⟨rfl, h⟩
  obtain ⟨count, hbelow⟩ := h.below
  exact ⟨rfl, h.fresh, h.name, count, hbelow.numbered⟩

end Clir
